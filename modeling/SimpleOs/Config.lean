/-
# `SimpleOs.Config` — reading the configuration (`os.c`)

`read_config` reads three numbers, then looks whether the next line is five numbers: if so
they are the sizes of the memories, else the file is set back to the start of that line and
the sizes are the defaults.  Then comes an entry for every process.

`config_file_reads`: a file is read as written, whatever is in memory, if a file without
sizes has a first entry that is not five numbers by itself.  `misreadConfig` is one that is,
by the name of its program.  `Config.os` is the configuration that `Os` runs.
-/
import SimpleOs.Lib.Scan
import SimpleOs.Machine
import SimpleOs.Os

namespace SimpleOs

open Scan (Directive)

/-! ## `read_config` -/

/-- How a call of `read_config` ends other than by returning. -/
inductive ConfigStop
  | exit     -- `exit(1)`
  | overrun  -- past the end of `proc`, or of the path
  deriving DecidableEq, Repr

/-- An entry of `ld_processes`. -/
structure LdEntry where
  path : List Char
  startTime : Addr
  prio : Addr
  deriving DecidableEq, Repr

/-- What `read_config` sets. -/
structure Config where
  timeSlot : BitVec 32
  numCpus : BitVec 32
  numProcesses : BitVec 32
  memramsz : Addr
  memswpsz : List Addr
  ldProcesses : List LdEntry
  deriving DecidableEq, Repr

/-- What it finds in memory that it does not initialise: in `line`, and for every process in `proc`
and in the arrays. -/
structure ConfigJunk where
  line : List Char
  entry : Nat → LdEntry

/-- `"%d %d %d\n"`, with the number of conversions left. -/
def scanInts : Nat → List Char → List (BitVec 32) × List Char
  | 0, inp => ([], Scan.skipSpace inp)
  | n + 1, inp =>
      match Scan.signed inp with
      | (none, rest) => ([], rest)
      | (some v, rest) => (v :: (scanInts n rest).1, (scanInts n rest).2)

/-- `"%lu %lu %lu %lu %lu"`. -/
def fiveSizes : List Directive :=
  [.unsigned, .space, .unsigned, .space, .unsigned, .space, .unsigned, .space, .unsigned]

/-- `"%lu %s %lu\n"`: what is converted is stored, in `proc` for the path. -/
def fscanfEntry (junk : LdEntry) (file : List Char) : LdEntry × List Char :=
  match Scan.unsigned file with
  | (none, rest) => (junk, rest)
  | (some startTime, rest) =>
      match Scan.word rest with
      | ([], rest) => ({ junk with startTime }, rest)
      | (c :: cs, rest) =>
          match Scan.unsigned rest with
          | (none, rest) => ({ junk with path := c :: cs, startTime }, rest)
          | (some prio, rest) => ({ path := c :: cs, startTime, prio }, Scan.skipSpace rest)

/-- `"input/proc/"`. -/
def procDir : List Char := "input/proc/".toList

/-- Process `i`: `proc` and the path have room for 100 bytes. -/
def readLdEntry (junk : ConfigJunk) (i : Nat) (file : List Char) :
    Except ConfigStop (LdEntry × List Char) :=
  let (entry, file) := fscanfEntry (junk.entry i) file
  if entry.path.length ≥ 100 ∨ (procDir ++ entry.path).length ≥ 100 then .error .overrun
  else .ok ({ entry with path := procDir ++ entry.path }, file)

/-- The loop, with the number of processes left. -/
def readLdEntries (junk : ConfigJunk) (i : Nat) (file : List Char) :
    Nat → Except ConfigStop (List LdEntry)
  | 0 => .ok []
  | n + 1 => do
      let (entry, file) ← readLdEntry junk i file
      let entries ← readLdEntries junk (i + 1) file n
      pure (entry :: entries)

/-- The sizes of the memories, or the file set back and the defaults. -/
def readSizes (junk : ConfigJunk) (file : List Char) : Addr × List Addr × List Char :=
  -- what `fgets` returns is not looked at
  let (line, next) := (Scan.fgets 256 file).getD (junk.line, file)
  match (Scan.scanf fiveSizes line).1 with
  | [a, b, c, d, e] => (a, [b, c, d, e], next)
  | _ => (16777216, [16777216, 0, 0, 0], file)

/-- `read_config`, with what `fopen` gives it to read (`none` is NULL). -/
def readConfig (junk : ConfigJunk) (file : Option (List Char)) : Except ConfigStop Config :=
  match file with
  | none => .error .exit
  | some file => do
      let (vs, file) := scanInts 3 file
      let numProcesses := vs.getD 2 0
      let (memramsz, memswpsz, file) := readSizes junk file
      let ldProcesses ← readLdEntries junk 0 file numProcesses.toInt.toNat
      pure { timeSlot := vs.getD 0 0, numCpus := vs.getD 1 0, numProcesses, memramsz, memswpsz,
             ldProcesses }

/-- What `main` makes of it, when the program at each path has `size` instructions. -/
def Config.os (cfg : Config) (size : List Char → Nat) : OsCfg where
  numCpus := cfg.numCpus.toInt.toNat
  timeSlot := cfg.timeSlot.toInt
  ldProcesses := cfg.ldProcesses.map fun entry =>
    ⟨UInt64.ofBitVec entry.startTime, (entry.prio.setWidth 32).toNat, size entry.path⟩

/-! ## Configuration files -/

/-- The sizes of the RAM and of four swap devices. -/
structure MemSizes where
  ram : Addr
  swp : List Addr
  swp_length : swp.length = 4

/-- A process as it is written: a name that is a word without NUL and fits, and more blanks in front
of the priority than one if so wanted. -/
structure LdLine where
  startTime : Addr
  name : List Char
  blanks : Nat
  prio : Addr
  name_ne : name ≠ []
  name_word : ∀ c ∈ name, Scan.isSpace c = false
  name_nul : Char.ofNat 0 ∉ name
  name_fits : name.length < 89

/-- A configuration: the sizes may be left out. -/
structure ConfigFile where
  timeSlot : Nat
  numCpus : Nat
  sizes : Option MemSizes
  processes : List LdLine

def MemSizes.text (m : MemSizes) : List Char := Scan.decimal m.ram.toNat ++ Scan.fields m.swp

def LdLine.text (l : LdLine) : List Char :=
  Scan.decimal l.startTime.toNat ++ ' ' :: (l.name ++
    ' ' :: (List.replicate l.blanks ' ' ++ Scan.decimal l.prio.toNat))

/-- Lines, each behind the newline of the line before. -/
def textLines (newline : Bool) (ls : List (List Char)) : List Char :=
  ls.flatMap (fun l => '\n' :: l) ++ if newline then ['\n'] else []

def ConfigFile.header (f : ConfigFile) : List Char :=
  Scan.decimal f.timeSlot ++ ' ' :: (Scan.decimal f.numCpus ++
    ' ' :: Scan.decimal f.processes.length)

/-- The lines behind the header. -/
def ConfigFile.lines (f : ConfigFile) : List (List Char) :=
  (f.sizes.map MemSizes.text).toList ++ f.processes.map LdLine.text

/-- The file, with or without a newline at its end. -/
def ConfigFile.text (f : ConfigFile) (newline : Bool) : List Char :=
  f.header ++ textLines newline f.lines

def LdLine.entry (l : LdLine) : LdEntry := ⟨procDir ++ l.name, l.startTime, l.prio⟩

/-- What the file says. -/
def ConfigFile.config (f : ConfigFile) : Config where
  timeSlot := BitVec.ofNat 32 f.timeSlot
  numCpus := BitVec.ofNat 32 f.numCpus
  numProcesses := BitVec.ofNat 32 f.processes.length
  memramsz := f.sizes.elim 16777216 MemSizes.ram
  memswpsz := f.sizes.elim [16777216, 0, 0, 0] MemSizes.swp
  ldProcesses := f.processes.map LdLine.entry

/-- The numbers in the header are `int`s, and without sizes there is a process, and what `fgets`
reads of the first line is not five numbers. -/
structure ConfigFile.Plain (f : ConfigFile) (newline : Bool) : Prop where
  timeSlot_lt : f.timeSlot < 2 ^ 31
  numCpus_lt : f.numCpus < 2 ^ 31
  processes_lt : f.processes.length < 2 ^ 31
  first : f.sizes = none → f.processes ≠ [] ∧ (Scan.scanf fiveSizes
    (Scan.line 255 (Scan.skipSpace (textLines newline f.lines))).1).1.length ≠ 5

/-! ## The text -/

section Text
variable {newline : Bool} {l : List Char} {ls : List (List Char)}

theorem textLines_cons (newline : Bool) (l : List Char) (ls : List (List Char)) :
    textLines newline (l :: ls) = '\n' :: (l ++ textLines newline ls) := by
  simp [textLines]

theorem textLines_cases (newline : Bool) (ls : List (List Char)) :
    textLines newline ls = [] ∨ ∃ rest, textLines newline ls = '\n' :: rest := by
  cases ls with
  | nil => cases newline with
    | false => exact .inl rfl
    | true => exact .inr ⟨[], rfl⟩
  | cons l ls => exact .inr ⟨_, textLines_cons newline l ls⟩

/-- No number goes on into the next line. -/
theorem textLines_head (newline : Bool) (ls : List (List Char)) :
    ∀ c ∈ (textLines newline ls).head?, c.isDigit = false := by
  intro c hc
  rcases textLines_cases newline ls with hnil | ⟨rest, hrest⟩
  · rw [hnil] at hc
    exact nomatch hc
  · rw [hrest] at hc
    obtain rfl : '\n' = c := Option.some.inj hc
    decide

theorem decimal_skipSpace (n : Nat) (rest : List Char) :
    Scan.skipSpace (Scan.decimal n ++ rest) = Scan.decimal n ++ rest := by
  obtain ⟨d, ds, hd⟩ := List.exists_cons_of_ne_nil (Scan.decimal_ne_nil n)
  refine Scan.skipSpace_of_head fun c hc => ?_
  rw [hd] at hc
  obtain rfl : d = c := Option.some.inj hc
  exact Scan.isSpace_of_isDigit (Scan.isDigit_of_mem_decimal (n := n) (hd ▸ List.mem_cons_self))

theorem newline_notMem_decimal (n : Nat) : '\n' ∉ Scan.decimal n :=
  fun h => absurd (Scan.isDigit_of_mem_decimal h) (by decide)

/-- `%lu` skips space itself. -/
theorem unsigned_congr {a b : List Char} (h : Scan.skipSpace a = Scan.skipSpace b) :
    Scan.unsigned a = Scan.unsigned b := by
  rw [Scan.unsigned, Scan.unsigned, h]

end Text

/-! ## The entries -/

/-- Blanks. -/
theorem blanks_isSpace (k : Nat) : ∀ c ∈ ' ' :: List.replicate k ' ', Scan.isSpace c = true := by
  intro c hc
  rw [← List.replicate_succ] at hc
  rw [List.eq_of_mem_replicate hc]
  rfl

/-- An entry is read as it is written. -/
theorem fscanfEntry_line {l : LdLine} {ls : List LdLine} {newline : Bool} {file : List Char}
    (h : Scan.skipSpace file = Scan.skipSpace (textLines newline ((l :: ls).map LdLine.text)))
    (junk : LdEntry) :
    fscanfEntry junk file = (⟨l.name, l.startTime, l.prio⟩,
      Scan.skipSpace (textLines newline (ls.map LdLine.text))) := by
  generalize hrest : textLines newline (ls.map LdLine.text) = rest at *
  have hdigit : ∀ c ∈ rest.head?, c.isDigit = false := hrest ▸ textLines_head _ _
  have htext : textLines newline ((l :: ls).map LdLine.text) = ['\n'] ++
      (Scan.decimal l.startTime.toNat ++ ' ' :: (l.name ++
        ((' ' :: List.replicate l.blanks ' ') ++ (Scan.decimal l.prio.toNat ++ rest)))) := by
    rw [List.map_cons, textLines_cons, hrest, LdLine.text]
    simp only [List.append_assoc, List.cons_append, List.nil_append]
  have hstart : Scan.unsigned file = (some l.startTime, ' ' :: (l.name ++
      ((' ' :: List.replicate l.blanks ' ') ++ (Scan.decimal l.prio.toNat ++ rest)))) := by
    rw [unsigned_congr h, htext, Scan.unsigned_decimal (List.forall_mem_singleton.mpr rfl)
      l.startTime.isLt (fun c hc => by obtain rfl : ' ' = c := Option.some.inj hc; decide)]
    rw [BitVec.ofNat_toNat, BitVec.setWidth_eq]
  obtain ⟨c, cs, hname⟩ := List.exists_cons_of_ne_nil l.name_ne
  have hword : Scan.word (' ' :: (l.name ++
      ((' ' :: List.replicate l.blanks ' ') ++ (Scan.decimal l.prio.toNat ++ rest)))) =
      (c :: cs, (' ' :: List.replicate l.blanks ' ') ++ (Scan.decimal l.prio.toNat ++ rest)) := by
    rw [← hname]
    refine Scan.word_append l.name_word ?_ (fun d hd => ?_)
    · rw [Scan.skipSpace_cons (by decide)]
      refine Scan.skipSpace_of_head fun d hd => l.name_word d ?_
      rw [hname] at hd ⊢
      obtain rfl : c = d := Option.some.inj hd
      exact List.mem_cons_self
    · obtain rfl : ' ' = d := Option.some.inj hd
      rfl
  have hprio := Scan.unsigned_decimal (blanks_isSpace l.blanks) l.prio.isLt hdigit
  rw [fscanfEntry, hstart]
  simp only [hword]
  simp only [hprio, BitVec.ofNat_toNat, BitVec.setWidth_eq, hname]

/-- So are all of them. -/
theorem readLdEntries_lines {ls : List LdLine} {newline : Bool} {file : List Char}
    (junk : ConfigJunk) (i : Nat)
    (h : Scan.skipSpace file = Scan.skipSpace (textLines newline (ls.map LdLine.text))) :
    readLdEntries junk i file ls.length = .ok (ls.map LdLine.entry) := by
  induction ls generalizing i file with
  | nil => rfl
  | cons l ls ih =>
      have hlen : (procDir ++ l.name).length = 11 + l.name.length := List.length_append
      have hfits := l.name_fits
      have hentry : readLdEntry junk i file =
          .ok (l.entry, Scan.skipSpace (textLines newline (ls.map LdLine.text))) := by
        rw [readLdEntry, fscanfEntry_line h]
        simp only [hlen]
        rw [if_neg (by omega)]
        rfl
      rw [List.length_cons, readLdEntries, hentry]
      show (readLdEntries junk (i + 1) _ ls.length).bind _ = _
      rw [ih (i + 1) (Scan.skipSpace_skipSpace _)]
      rfl

/-! ## The header and the sizes -/

/-- The header is read, and the newline behind it. -/
theorem scanInts_header {f : ConfigFile} {newline : Bool} (h : f.Plain newline) :
    scanInts 3 (f.text newline) =
      ([BitVec.ofNat 32 f.timeSlot, BitVec.ofNat 32 f.numCpus,
        BitVec.ofNat 32 f.processes.length], Scan.skipSpace (textLines newline f.lines)) := by
  have hblank : ∀ c ∈ [' '], Scan.isSpace c = true := List.forall_mem_singleton.mpr rfl
  have hhead : ∀ {rest : List Char}, ∀ c ∈ ([' '] ++ rest).head?, c.isDigit = false := by
    intro rest c hc
    obtain rfl : ' ' = c := Option.some.inj hc
    decide
  have htext : f.text newline = [] ++ (Scan.decimal f.timeSlot ++ ([' '] ++
      (Scan.decimal f.numCpus ++ ([' '] ++ (Scan.decimal f.processes.length ++
        textLines newline f.lines))))) := by
    simp [ConfigFile.text, ConfigFile.header]
  rw [htext, scanInts, Scan.signed_decimal (List.forall_mem_nil _) h.timeSlot_lt hhead]
  simp only [scanInts, Scan.signed_decimal hblank h.numCpus_lt hhead,
    Scan.signed_decimal hblank h.processes_lt (textLines_head newline f.lines)]

theorem MemSizes.text_eq (m : MemSizes) (rest : List Char) :
    Scan.scanf fiveSizes (m.text ++ rest) =
      Scan.scanf (List.replicate 5 .unsigned) ([] ++ (Scan.decimal m.ram.toNat ++
        (Scan.fields m.swp ++ rest))) := by
  rw [MemSizes.text, List.append_assoc]
  exact Scan.scanf_spaced 4 [] _

/-- The line of the sizes is five numbers. -/
theorem MemSizes.scanf_text (m : MemSizes) {rest : List Char}
    (hrest : ∀ c ∈ rest, Scan.isSpace c = true) :
    (Scan.scanf fiveSizes (m.text ++ rest)).1 = m.ram :: m.swp := by
  have hswp := m.swp_length
  have hhead : ∀ c ∈ (Scan.fields m.swp ++ rest).head?, c.isDigit = false := by
    intro c hc
    cases hs : m.swp with
    | nil => rw [hs] at hswp; cases hswp
    | cons v vs =>
        rw [hs] at hc
        obtain rfl : ' ' = c := Option.some.inj hc
        decide
  rw [m.text_eq, List.replicate_succ, Scan.scanf,
    Scan.unsigned_decimal (List.forall_mem_nil _) m.ram.isLt hhead]
  simp only [Scan.scanf_fields_le (Nat.le_of_eq hswp) hrest, BitVec.ofNat_toNat,
    BitVec.setWidth_eq]

/-- `fgets` reads the line of the sizes. -/
theorem MemSizes.fgets_text (m : MemSizes) (ls : List (List Char)) (newline : Bool) :
    ∃ rest next, Scan.fgets 256 (Scan.skipSpace (textLines newline (m.text :: ls))) =
        some (m.text ++ rest, next) ∧
      (∀ c ∈ rest, Scan.isSpace c = true) ∧
      Scan.skipSpace next = Scan.skipSpace (textLines newline ls) := by
  have hskip : Scan.skipSpace (textLines newline (m.text :: ls)) =
      m.text ++ textLines newline ls := by
    rw [textLines_cons, Scan.skipSpace_cons (by decide), MemSizes.text, List.append_assoc,
      decimal_skipSpace]
  have hne : m.text ++ textLines newline ls ≠ [] :=
    List.append_ne_nil_of_left_ne_nil
      (List.append_ne_nil_of_left_ne_nil (Scan.decimal_ne_nil _) _) _
  have hnewline : '\n' ∉ m.text := by
    intro hmem
    rcases List.mem_append.mp hmem with hmem | hmem
    · exact newline_notMem_decimal _ hmem
    · exact Scan.newline_notMem_fields _ hmem
  have hfits : m.text.length < 255 := by
    have hram := Scan.length_decimal m.ram
    have hswp := Scan.length_fields m.swp
    rw [m.swp_length] at hswp
    rw [MemSizes.text, List.length_append]
    omega
  rw [hskip, Scan.fgets, if_neg hne]
  rcases textLines_cases newline ls with hnil | ⟨rest, hrest⟩
  · rw [hnil, List.append_nil, Scan.line_last hnewline hfits]
    exact ⟨[], [], by rw [List.append_nil], List.forall_mem_nil _, rfl⟩
  · rw [hrest, Scan.line_append hnewline hfits, Scan.skipSpace_cons (by decide)]
    exact ⟨['\n'], rest, rfl, List.forall_mem_singleton.mpr rfl, rfl⟩

/-! ## The file -/

section Files
variable {f : ConfigFile} {newline : Bool}

theorem toInt_ofNat_of_lt {n : Nat} (h : n < 2 ^ 31) : (BitVec.ofNat 32 n).toInt = n := by
  have hn : (BitVec.ofNat 32 n).toNat = n := by
    rw [BitVec.toNat_ofNat]
    omega
  rw [BitVec.toInt_eq_toNat_of_lt (by omega), hn]

/-- The sizes are those of the file, and the entries are next. -/
theorem readSizes_file (h : f.Plain newline) (junk : ConfigJunk) : ∃ file,
    readSizes junk (Scan.skipSpace (textLines newline f.lines)) =
      (f.config.memramsz, f.config.memswpsz, file) ∧
    Scan.skipSpace file = Scan.skipSpace (textLines newline (f.processes.map LdLine.text)) := by
  cases hs : f.sizes with
  | some m =>
      have hlines : f.lines = m.text :: f.processes.map LdLine.text := by
        rw [ConfigFile.lines, hs]
        rfl
      obtain ⟨rest, next, hfgets, hspace, hnext⟩ :=
        m.fgets_text (f.processes.map LdLine.text) newline
      obtain ⟨b, c, d, e, hswp⟩ : ∃ b c d e, m.swp = [b, c, d, e] := by
        have hlen := m.swp_length
        rcases hm : m.swp with _ | ⟨b, _ | ⟨c, _ | ⟨d, _ | ⟨e, _ | ⟨x, xs⟩⟩⟩⟩⟩ <;> rw [hm] at hlen
        all_goals first | exact ⟨b, c, d, e, rfl⟩ | cases hlen
      refine ⟨next, ?_, hnext⟩
      rw [readSizes, hlines, hfgets]
      simp only [Option.getD_some, m.scanf_text hspace, hswp]
      simp only [ConfigFile.config, hs, Option.elim_some, hswp]
  | none =>
      obtain ⟨hne, hfirst⟩ := h.first hs
      have hlines : f.lines = f.processes.map LdLine.text := by
        rw [ConfigFile.lines, hs]
        rfl
      refine ⟨Scan.skipSpace (textLines newline f.lines), ?_, ?_⟩
      · obtain ⟨l, ls, hl⟩ := List.exists_cons_of_ne_nil hne
        have hfile : Scan.skipSpace (textLines newline f.lines) ≠ [] := by
          rw [hlines, hl, List.map_cons, textLines_cons, Scan.skipSpace_cons (by decide),
            LdLine.text, List.append_assoc, decimal_skipSpace]
          exact List.append_ne_nil_of_left_ne_nil (Scan.decimal_ne_nil _) _
        rw [readSizes, Scan.fgets, if_neg hfile]
        simp only [Option.getD_some]
        split
        · rename_i heq
          rw [heq] at hfirst
          exact absurd rfl hfirst
        · simp only [ConfigFile.config, hs, Option.elim_none]
      · rw [hlines, Scan.skipSpace_skipSpace]

/-- The first line is not five numbers if the name of the program does not look like one. -/
theorem ConfigFile.Plain.of_name (htime : f.timeSlot < 2 ^ 31) (hcpus : f.numCpus < 2 ^ 31)
    (hprocs : f.processes.length < 2 ^ 31)
    (hname : f.sizes = none → ∃ l ∈ f.processes.head?,
      ∀ c ∈ l.name.head?, c.isDigit = false ∧ c ≠ '-' ∧ c ≠ '+') : f.Plain newline where
  timeSlot_lt := htime
  numCpus_lt := hcpus
  processes_lt := hprocs
  first := by
    intro hs
    obtain ⟨l, hl, hchar⟩ := hname hs
    obtain ⟨ls, hprocesses⟩ : ∃ ls, f.processes = l :: ls := by
      cases hp : f.processes with
      | nil => rw [hp] at hl; cases hl
      | cons l' ls => rw [hp] at hl; cases hl; exact ⟨ls, rfl⟩
    refine ⟨by rw [hprocesses]; exact List.cons_ne_nil _ _, ?_⟩
    obtain ⟨c, cs, hc⟩ := List.exists_cons_of_ne_nil l.name_ne
    obtain ⟨hdigit, hminus, hplus⟩ := hchar c (by rw [hc]; rfl)
    have hspace : Scan.isSpace c = false := l.name_word c (hc ▸ List.mem_cons_self)
    have hfile : ∃ rest, Scan.skipSpace (textLines newline f.lines) =
        (Scan.decimal l.startTime.toNat ++ [' ', c]) ++ rest := by
      rw [ConfigFile.lines, hs, hprocesses]
      simp only [Option.map_none, Option.toList_none, List.nil_append, List.map_cons]
      rw [textLines_cons, Scan.skipSpace_cons (by decide), LdLine.text, hc]
      refine ⟨cs ++ ' ' :: (List.replicate l.blanks ' ' ++ Scan.decimal l.prio.toNat) ++
        textLines newline (ls.map LdLine.text), ?_⟩
      rw [List.append_assoc, decimal_skipSpace]
      simp only [List.append_assoc, List.cons_append, List.nil_append]
    obtain ⟨rest, hrest⟩ := hfile
    have hnewline : '\n' ∉ Scan.decimal l.startTime.toNat ++ [' ', c] := by
      intro hmem
      rcases List.mem_append.mp hmem with hmem | hmem
      · exact newline_notMem_decimal _ hmem
      · rcases List.mem_cons.mp hmem with heq | hmem
        · cases heq
        · obtain rfl := List.mem_singleton.mp hmem
          exact absurd hspace (by decide)
    have hfits : (Scan.decimal l.startTime.toNat ++ [' ', c]).length ≤ 255 := by
      have hlen := Scan.length_decimal l.startTime
      rw [List.length_append]
      exact Nat.le_trans (Nat.add_le_add_right hlen 2) (by decide)
    rw [hrest, Scan.line_over rest hnewline hfits]
    generalize (Scan.line _ rest).1 = tail
    -- one number, and then the name
    have hnumber : Scan.unsigned ([] ++ (Scan.decimal l.startTime.toNat ++ ' ' :: c :: tail)) =
        (some _, ' ' :: c :: tail) :=
      Scan.unsigned_decimal (List.forall_mem_nil _) l.startTime.isLt
        (fun d hd => by obtain rfl : ' ' = d := Option.some.inj hd; decide)
    have hname : (Scan.unsigned ([' '] ++ c :: tail)).1 = none :=
      Scan.unsigned_of_char hspace hdigit hminus hplus (List.forall_mem_singleton.mpr rfl)
    have hrest : ∀ fs, (Scan.scanf (.space :: .unsigned :: fs) ([' '] ++ c :: tail)).1 = [] := by
      intro fs
      rw [Scan.scanf_space_unsigned, Scan.scanf]
      split
      · rfl
      · rename_i v rest' heq
        rw [heq] at hname
        cases hname
    rw [fiveSizes, Scan.scanf, List.append_assoc,
      show Scan.unsigned (Scan.decimal l.startTime.toNat ++ ([' ', c] ++ tail)) = _ from hnumber]
    show ¬ (_ :: (Scan.scanf _ ([' '] ++ c :: tail)).1).length = 5
    rw [hrest]
    exact Nat.ne_of_lt (by decide : 1 < 5)

theorem ConfigFile.Plain.readConfig (h : f.Plain newline) (junk : ConfigJunk) :
    SimpleOs.readConfig junk (some (f.text newline)) = .ok f.config := by
  obtain ⟨file, hsizes, hfile⟩ := readSizes_file h junk
  have hcount : (BitVec.ofNat 32 f.processes.length).toInt.toNat = f.processes.length := by
    rw [toInt_ofNat_of_lt h.processes_lt]
    rfl
  rw [SimpleOs.readConfig, scanInts_header h]
  simp only [List.getD_cons_zero, List.getD_cons_succ, hsizes, hcount,
    readLdEntries_lines junk 0 hfile]
  rfl

/-- A file is read as written, whatever is in memory, and so `main` runs what it says. -/
theorem config_file_reads (h : f.Plain newline) (junk : ConfigJunk) (size : List Char → Nat) :
    readConfig junk (some (f.text newline)) = .ok f.config ∧
    f.config.os size = {
      numCpus := f.numCpus
      timeSlot := f.timeSlot
      ldProcesses := f.processes.map fun l =>
        ⟨UInt64.ofBitVec l.startTime, l.prio.toNat % 2 ^ 32, size (procDir ++ l.name)⟩ } := by
  refine ⟨h.readConfig junk, ?_⟩
  rw [Config.os]
  simp only [ConfigFile.config, toInt_ofNat_of_lt h.timeSlot_lt, toInt_ofNat_of_lt h.numCpus_lt,
    List.map_map, Int.toNat_natCast]
  refine congrArg (OsCfg.mk _ _) (List.map_congr_left fun l _ => ?_)
  show LdProcess.mk _ (l.prio.setWidth 32).toNat _ = _
  rw [BitVec.toNat_setWidth]
  rfl

end Files

/-- A name without space, computed. -/
theorem word_of_all {name : List Char} (h : name.all (fun c => !Scan.isSpace c) = true) :
    ∀ c ∈ name, Scan.isSpace c = false := fun c hc =>
  Bool.not_eq_true' _ ▸ List.all_eq_true.mp h c hc

/-- Two processes of the configuration `input/sched_0`, which leaves the sizes out. -/
def sched0 : ConfigFile where
  timeSlot := 2
  numCpus := 1
  sizes := none
  processes := [
    ⟨0, ['s', '0'], 0, 4, by decide, word_of_all (by decide), by decide, by decide⟩,
    ⟨4, ['s', '1'], 0, 0, by decide, word_of_all (by decide), by decide, by decide⟩]

/-- Memory that holds sizes and processes. -/
def dirtyConfig : ConfigJunk := ⟨"1 2 3 4 5".toList, fun _ => ⟨['x'], 9, 9⟩⟩

theorem config_file_reads_sched0 :
    sched0.text true = "2 1 2\n0 s0 4\n4 s1 0\n".toList ∧
    readConfig dirtyConfig (some (sched0.text true)) = .ok sched0.config :=
  ⟨by decide, (config_file_reads (.of_name (by decide) (by decide) (by decide)
    fun _ => ⟨_, rfl, fun c hc => by obtain rfl := Option.some.inj hc; decide⟩) dirtyConfig
      (fun _ => 0)).1⟩

/-- A process whose name reads as three more numbers. -/
def misreadConfig : ConfigFile where
  timeSlot := 2
  numCpus := 1
  sizes := none
  processes := [
    ⟨7, ['1', '+', '2', '+', '3'], 0, 5, by decide, word_of_all (by decide), by decide,
      by decide⟩]

-- its line is taken for the sizes, and the process is what is in memory
example : (readConfig ⟨[], fun _ => ⟨[], 9, 9⟩⟩ (some (misreadConfig.text true))).toOption.map
    (fun cfg => (cfg.memramsz, cfg.memswpsz, cfg.ldProcesses)) =
    some (7, [1, 2, 3, 5], [⟨procDir, 9, 9⟩]) := by decide

end SimpleOs
