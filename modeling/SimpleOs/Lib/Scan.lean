/-
# `SimpleOs.Lib.Scan` — reading text as C's `stdio` does

A stream, or a string that is scanned, is the list of the characters that are left.
`scanf` runs a format, the list of its directives, and yields the values converted
before the first directive that fails, and what is left of the stream; `word` is
`%s` and `fgets` reads a line.

The other half is writing: `fields` puts every number in decimal behind a blank.
`scanf_fields` says that a format with as many conversions reads them back, whatever
follows that is not a digit.
-/
import Mathlib.Tactic.Common
import Mathlib.Tactic.Ring

namespace Scan

/-! ## Reading -/

/-- `isspace`: a blank or one of `\t \n \v \f \r`. -/
def isSpace (c : Char) : Bool := c.toNat == 32 || (9 ≤ c.toNat && c.toNat ≤ 13)

def skipSpace (inp : List Char) : List Char := inp.dropWhile isSpace

/-- An optional sign; whether it is a minus. -/
def sign : List Char → Bool × List Char
  | [] => (false, [])
  | c :: cs => if c = '-' then (true, cs) else if c = '+' then (false, cs) else (false, c :: cs)

/-- The value of `strtoul`: a minus negates, and what does not fit is `ULONG_MAX`. -/
def strtoul (neg : Bool) (n : Nat) : BitVec 64 :=
  if n < 2 ^ 64 then if neg then -BitVec.ofNat 64 n else BitVec.ofNat 64 n else BitVec.allOnes 64

/-- `%lu`: leading space is skipped; without a digit the conversion fails. -/
def unsigned (inp : List Char) : Option (BitVec 64) × List Char :=
  let (neg, cs) := sign (skipSpace inp)
  let digits := cs.takeWhile Char.isDigit
  (if digits = [] then none else some (strtoul neg (Nat.ofDigitChars 10 digits 0)),
    cs.dropWhile Char.isDigit)

/-- The value of `strtol`: what does not fit is `LONG_MIN` or `LONG_MAX`. -/
def strtol (neg : Bool) (n : Nat) : BitVec 64 :=
  if neg then if n ≤ 2 ^ 63 then -BitVec.ofNat 64 n else BitVec.intMin 64
  else if n < 2 ^ 63 then BitVec.ofNat 64 n else BitVec.intMax 64

/-- `%d`: the value is stored as an `int`. -/
def signed (inp : List Char) : Option (BitVec 32) × List Char :=
  let (neg, cs) := sign (skipSpace inp)
  let digits := cs.takeWhile Char.isDigit
  (if digits = [] then none
    else some ((strtol neg (Nat.ofDigitChars 10 digits 0)).setWidth 32),
    cs.dropWhile Char.isDigit)

/-- A directive of a format. -/
inductive Directive
  /-- White space: any amount of it is skipped. -/
  | space
  /-- `%lu`. -/
  | unsigned
  deriving DecidableEq, Repr

/-- `scanf` and its kin: the values converted, and the rest of the input. -/
def scanf : List Directive → List Char → List (BitVec 64) × List Char
  | [], inp => ([], inp)
  | .space :: fs, inp => scanf fs (skipSpace inp)
  | .unsigned :: fs, inp =>
      match unsigned inp with
      | (none, rest) => ([], rest)
      | (some v, rest) => (v :: (scanf fs rest).1, (scanf fs rest).2)

/-- `%s`; at the end of the input the word is empty. -/
def word (inp : List Char) : List Char × List Char :=
  let cs := skipSpace inp
  (cs.takeWhile fun c => !isSpace c, cs.dropWhile fun c => !isSpace c)

/-- The first line with its newline, at most this many characters of it. -/
def line : Nat → List Char → List Char × List Char
  | 0, inp => ([], inp)
  | _ + 1, [] => ([], [])
  | n + 1, c :: cs => if c = '\n' then ([c], cs) else (c :: (line n cs).1, (line n cs).2)

/-- `fgets` into `n` bytes; `none` is NULL, at the end of the input. -/
def fgets (n : Nat) (inp : List Char) : Option (List Char × List Char) :=
  if inp = [] then none else some (line (n - 1) inp)

/-! ## Writing -/

def decimal (n : Nat) : List Char := Nat.toDigits 10 n

/-- A blank before each number. -/
def fields (vs : List (BitVec 64)) : List Char := vs.flatMap fun v => ' ' :: decimal v.toNat

/-! ## White space -/

section Space
variable {inp rest ws : List Char} {c : Char}

theorem skipSpace_of_head (h : ∀ c ∈ inp.head?, isSpace c = false) : skipSpace inp = inp := by
  cases inp with
  | nil => rfl
  | cons c cs => exact List.dropWhile_cons_of_neg (by simp [h c rfl])

theorem skipSpace_append (hws : ∀ c ∈ ws, isSpace c = true) :
    skipSpace (ws ++ inp) = skipSpace inp := List.dropWhile_append_of_pos hws

theorem skipSpace_cons (h : isSpace c = true) : skipSpace (c :: inp) = skipSpace inp :=
  List.dropWhile_cons_of_pos h

theorem skipSpace_skipSpace (inp : List Char) : skipSpace (skipSpace inp) = skipSpace inp := by
  refine skipSpace_of_head fun c hc => ?_
  have hnot := List.head?_dropWhile_not isSpace inp
  rw [skipSpace] at hc
  rw [Option.mem_def.mp hc] at hnot
  simpa using hnot

/-- A word ends where space begins. -/
theorem word_append {w : List Char} (hw : ∀ c ∈ w, isSpace c = false)
    (hinp : skipSpace inp = w ++ rest) (hrest : ∀ c ∈ rest.head?, isSpace c = true) :
    word inp = (w, rest) := by
  have hw' : ∀ c ∈ w, (!isSpace c) = true := fun c hc => by rw [hw c hc]; rfl
  rw [word, hinp]
  simp only [List.takeWhile_append_of_pos hw', List.dropWhile_append_of_pos hw']
  cases rest with
  | nil => simp
  | cons c cs => simp [hrest c rfl]

end Space

/-! ## Numbers -/

section Numbers
variable {inp rest ws : List Char} {n : Nat} {v : BitVec 64} {vs : List (BitVec 64)}
  {fs : List Directive}

theorem isSpace_of_isDigit {c : Char} (h : c.isDigit = true) : isSpace c = false := by
  have hc : 48 ≤ c.toNat ∧ c.toNat ≤ 57 := Char.isDigit_iff_toNat.mp h
  simp only [isSpace, Bool.or_eq_false_iff, beq_eq_false_iff_ne, Bool.and_eq_false_iff,
    decide_eq_false_iff_not]
  omega

/-- A digit is no sign. -/
theorem sign_of_isDigit {c : Char} (h : c.isDigit = true) (cs : List Char) :
    sign (c :: cs) = (false, c :: cs) := by
  have hminus : c ≠ '-' := fun heq => by subst heq; exact absurd h (by decide)
  have hplus : c ≠ '+' := fun heq => by subst heq; exact absurd h (by decide)
  rw [sign, if_neg hminus, if_neg hplus]

theorem isDigit_of_mem_decimal {c : Char} (h : c ∈ decimal n) : c.isDigit = true :=
  Nat.isDigit_of_mem_toDigits (by decide) (by decide) h

theorem decimal_ne_nil (n : Nat) : decimal n ≠ [] := Nat.toDigits_ne_nil

/-- A 64-bit number has at most 20 digits. -/
theorem length_decimal (v : BitVec 64) : (decimal v.toNat).length ≤ 20 :=
  (Nat.length_toDigits_le_iff (by decide) (by decide)).mpr
    (Nat.lt_of_lt_of_le v.isLt (by decide))

/-- What is found of a number in decimal, whatever space is before it. -/
theorem decimal_parts (hws : ∀ c ∈ ws, isSpace c = true)
    (hrest : ∀ c ∈ rest.head?, c.isDigit = false) :
    sign (skipSpace (ws ++ (decimal n ++ rest))) = (false, decimal n ++ rest) ∧
    (decimal n ++ rest).takeWhile Char.isDigit = decimal n ∧
    (decimal n ++ rest).dropWhile Char.isDigit = rest := by
  obtain ⟨d, ds, hd⟩ := List.exists_cons_of_ne_nil (decimal_ne_nil n)
  have hdigit : d.isDigit = true := isDigit_of_mem_decimal (n := n) (hd ▸ List.mem_cons_self)
  have hskip : skipSpace (ws ++ (decimal n ++ rest)) = decimal n ++ rest := by
    rw [skipSpace_append hws, hd]
    exact skipSpace_of_head fun c hc => by
      obtain rfl : d = c := Option.some.inj hc
      exact isSpace_of_isDigit hdigit
  have hsign : sign (decimal n ++ rest) = (false, decimal n ++ rest) := by
    rw [hd]
    exact sign_of_isDigit hdigit _
  have htake : rest.takeWhile Char.isDigit = [] ∧ rest.dropWhile Char.isDigit = rest := by
    cases rest with
    | nil => exact ⟨rfl, rfl⟩
    | cons c cs => simp [hrest c rfl]
  have hall : ∀ c ∈ decimal n, c.isDigit = true := fun c hc => isDigit_of_mem_decimal hc
  refine ⟨by rw [hskip, hsign], ?_, ?_⟩
  · rw [List.takeWhile_append_of_pos hall, htake.1, List.append_nil]
  · rw [List.dropWhile_append_of_pos hall, htake.2]

theorem ofDigitChars_decimal (n : Nat) : Nat.ofDigitChars 10 (decimal n) 0 = n :=
  Nat.ofDigitChars_ten_toDigits

/-- A number in decimal is read back. -/
theorem unsigned_decimal (hws : ∀ c ∈ ws, isSpace c = true) (hn : n < 2 ^ 64)
    (hrest : ∀ c ∈ rest.head?, c.isDigit = false) :
    unsigned (ws ++ (decimal n ++ rest)) = (some (BitVec.ofNat 64 n), rest) := by
  obtain ⟨hsign, htake, hdrop⟩ := decimal_parts (n := n) hws hrest
  rw [unsigned, hsign]
  simp only [htake, hdrop, if_neg (decimal_ne_nil n), ofDigitChars_decimal, strtoul, if_pos hn,
    Bool.false_eq_true, if_false]

/-- So is one that `%d` reads, if it is an `int`. -/
theorem signed_decimal (hws : ∀ c ∈ ws, isSpace c = true) (hn : n < 2 ^ 31)
    (hrest : ∀ c ∈ rest.head?, c.isDigit = false) :
    signed (ws ++ (decimal n ++ rest)) = (some (BitVec.ofNat 32 n), rest) := by
  obtain ⟨hsign, htake, hdrop⟩ := decimal_parts (n := n) hws hrest
  have hlong : n < 2 ^ 63 := Nat.lt_of_lt_of_le hn (by decide)
  have hint : (BitVec.ofNat 64 n).setWidth 32 = BitVec.ofNat 32 n :=
    BitVec.setWidth_ofNat_of_le (by decide) n
  rw [signed, hsign]
  simp only [htake, hdrop, if_neg (decimal_ne_nil n), ofDigitChars_decimal, strtol, if_pos hlong,
    Bool.false_eq_true, if_false, hint]

/-- At most one value a conversion. -/
theorem length_scanf_le (fs : List Directive) (inp : List Char) :
    (scanf fs inp).1.length ≤ fs.count .unsigned := by
  induction fs generalizing inp with
  | nil => exact Nat.le_refl 0
  | cons f fs ih =>
      cases f with
      | space =>
          rw [scanf, List.count_cons_of_ne (by decide)]
          exact ih _
      | unsigned =>
          rw [scanf, List.count_cons_self]
          split
          next => exact Nat.zero_le _
          next => exact Nat.succ_le_succ (ih _)

/-- Without a digit nothing is converted. -/
theorem scanf_unsigned_of_space (h : skipSpace inp = []) :
    (scanf (.unsigned :: fs) inp).1 = [] := by
  rw [scanf, unsigned, h]
  rfl

/-- Nor with a character that starts no number. -/
theorem unsigned_of_char {c : Char} (hspace : isSpace c = false) (hdigit : c.isDigit = false)
    (hminus : c ≠ '-') (hplus : c ≠ '+') (hws : ∀ c ∈ ws, isSpace c = true) :
    (unsigned (ws ++ c :: rest)).1 = none := by
  have hskip : skipSpace (ws ++ c :: rest) = c :: rest := by
    rw [skipSpace_append hws]
    exact List.dropWhile_cons_of_neg (by rw [hspace]; exact Bool.false_ne_true)
  rw [unsigned, hskip, sign, if_neg hminus, if_neg hplus]
  simp [hdigit]

/-- `%lu` skips space itself. -/
theorem scanf_space_unsigned (fs : List Directive) (inp : List Char) :
    scanf (.space :: .unsigned :: fs) inp = scanf (.unsigned :: fs) inp := by
  rw [scanf, scanf, scanf, unsigned, unsigned, skipSpace_skipSpace]

/-- Space between conversions changes nothing. -/
theorem scanf_spaced (k : Nat) (fs : List Directive) (inp : List Char) :
    scanf ((List.replicate k [.unsigned, .space]).flatten ++ .unsigned :: fs) inp =
      scanf (List.replicate k .unsigned ++ .unsigned :: fs) inp := by
  induction k generalizing inp with
  | zero => rfl
  | succ k ih =>
      have hspace : ∀ rest, scanf (.space :: ((List.replicate k [.unsigned, .space]).flatten ++
          .unsigned :: fs)) rest = scanf (List.replicate k .unsigned ++ .unsigned :: fs) rest := by
        intro rest
        rw [← ih]
        cases k with
        | zero => exact scanf_space_unsigned _ _
        | succ k => exact scanf_space_unsigned _ _
      show scanf (.unsigned :: .space :: ((List.replicate k [.unsigned, .space]).flatten ++
        .unsigned :: fs)) inp = scanf (.unsigned :: (List.replicate k .unsigned ++
        .unsigned :: fs)) inp
      rw [scanf, scanf]
      simp only [hspace]

/-- Fields are read back one by one; then the format goes on with what follows. -/
theorem scanf_fields (hrest : ∀ c ∈ rest.head?, c.isDigit = false) (fs : List Directive) :
    scanf (List.replicate vs.length .unsigned ++ fs) (fields vs ++ rest) =
      (vs ++ (scanf fs rest).1, (scanf fs rest).2) := by
  induction vs with
  | nil => rfl
  | cons v vs ih =>
      have hblank : ∀ c ∈ [' '], isSpace c = true := List.forall_mem_singleton.mpr rfl
      have hhead : ∀ c ∈ (fields vs ++ rest).head?, c.isDigit = false := by
        cases vs with
        | nil => exact hrest
        | cons v vs =>
            intro c hc
            obtain rfl : ' ' = c := Option.some.inj hc
            decide
      have hinp : fields (v :: vs) ++ rest = [' '] ++ (decimal v.toNat ++ (fields vs ++ rest)) := by
        simp [fields]
      rw [List.length_cons, List.replicate_succ, List.cons_append, hinp, scanf,
        unsigned_decimal hblank v.isLt hhead]
      simp only [ih, BitVec.ofNat_toNat, BitVec.setWidth_eq, List.cons_append]

/-- Missing fields are left alone. -/
theorem scanf_fields_le {k : Nat} (hk : vs.length ≤ k)
    (hrest : ∀ c ∈ rest, isSpace c = true) :
    (scanf (List.replicate k .unsigned) (fields vs ++ rest)).1 = vs := by
  have hhead : ∀ c ∈ rest.head?, c.isDigit = false := by
    intro c hc
    have hspace := hrest c (List.mem_of_mem_head? hc)
    cases hdigit : c.isDigit with
    | false => rfl
    | true => rw [isSpace_of_isDigit hdigit] at hspace; exact nomatch hspace
  obtain ⟨m, rfl⟩ := Nat.exists_eq_add_of_le hk
  rw [← List.replicate_append_replicate, scanf_fields hhead]
  cases m with
  | zero => exact List.append_nil vs
  | succ m =>
      have hskip : skipSpace rest = [] := by
        have happ : skipSpace (rest ++ []) = skipSpace [] := skipSpace_append hrest
        rwa [List.append_nil] at happ
      rw [List.replicate_succ, scanf_unsigned_of_space hskip, List.append_nil]

theorem length_fields (vs : List (BitVec 64)) : (fields vs).length ≤ 21 * vs.length := by
  induction vs with
  | nil => exact Nat.le_refl _
  | cons v vs ih =>
      have hv := length_decimal v
      have hlen : (fields (v :: vs)).length =
          1 + (decimal v.toNat).length + (fields vs).length := by
        simp [fields]
        omega
      rw [hlen, List.length_cons]
      omega

end Numbers

/-! ## Lines -/

/-- A line that fits is read to its end. -/
theorem line_append {l rest : List Char} {n : Nat} (hl : '\n' ∉ l) (hn : l.length < n) :
    line n (l ++ '\n' :: rest) = (l ++ ['\n'], rest) := by
  induction l generalizing n with
  | nil =>
      obtain ⟨n, rfl⟩ := Nat.exists_eq_succ_of_ne_zero (Nat.ne_of_gt hn)
      rw [List.nil_append, line, if_pos rfl]
      rfl
  | cons c l ih =>
      obtain ⟨n, rfl⟩ := Nat.exists_eq_succ_of_ne_zero (Nat.ne_of_gt (Nat.zero_lt_of_lt hn))
      have hc : c ≠ '\n' := fun heq => hl (heq ▸ List.mem_cons_self)
      have hrest := ih (fun hmem => hl (List.mem_cons_of_mem _ hmem)) (Nat.lt_of_succ_lt_succ hn)
      rw [List.cons_append, line, if_neg hc, hrest]
      rfl

/-- What has no newline and fits is read, whatever follows. -/
theorem line_over {l : List Char} (rest : List Char) {n : Nat} (hl : '\n' ∉ l)
    (hn : l.length ≤ n) : (line n (l ++ rest)).1 = l ++ (line (n - l.length) rest).1 := by
  induction l generalizing n with
  | nil => rfl
  | cons c l ih =>
      obtain ⟨n, rfl⟩ := Nat.exists_eq_succ_of_ne_zero (Nat.ne_of_gt (Nat.zero_lt_of_lt hn))
      have hc : c ≠ '\n' := fun heq => hl (heq ▸ List.mem_cons_self)
      have hrest := ih (fun hmem => hl (List.mem_cons_of_mem _ hmem)) (Nat.le_of_succ_le_succ hn)
      rw [List.cons_append, line, if_neg hc, hrest, List.length_cons, Nat.succ_sub_succ]
      rfl

/-- The last line may lack its newline. -/
theorem line_last {l : List Char} {n : Nat} (hl : '\n' ∉ l) (hn : l.length < n) :
    line n l = (l, []) := by
  induction l generalizing n with
  | nil =>
      obtain ⟨n, rfl⟩ := Nat.exists_eq_succ_of_ne_zero (Nat.ne_of_gt hn)
      rfl
  | cons c l ih =>
      obtain ⟨n, rfl⟩ := Nat.exists_eq_succ_of_ne_zero (Nat.ne_of_gt (Nat.zero_lt_of_lt hn))
      have hc : c ≠ '\n' := fun heq => hl (heq ▸ List.mem_cons_self)
      have hrest := ih (fun hmem => hl (List.mem_cons_of_mem _ hmem)) (Nat.lt_of_succ_lt_succ hn)
      rw [line, if_neg hc, hrest]

theorem newline_notMem_fields (vs : List (BitVec 64)) : '\n' ∉ fields vs := by
  intro hmem
  obtain ⟨v, -, hv⟩ := List.mem_flatMap.mp hmem
  rcases List.mem_cons.mp hv with heq | hv
  · exact absurd heq (by decide)
  · exact absurd (isDigit_of_mem_decimal hv) (by decide)

end Scan
