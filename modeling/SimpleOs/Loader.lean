/-
# `SimpleOs.Loader` — reading a program (`loader.c`)

`load` reads the header and then, for every instruction, a word and its operands:
`fscanf` for the opcodes with a fixed number of them, `fgets` into a buffer and
`sscanf` from there for those that may leave some out.  All of it is one stream and
one buffer, so what one instruction leaves behind the next one finds.

`program_file_loads`: a file with a newline at its end is loaded as written.  Without
one, a last line that has no operands makes `fgets` fail; its result is not looked at,
and the operands of the line that is still in the buffer are scanned once more.
-/
import SimpleOs.Lib.Scan
import SimpleOs.Machine

namespace SimpleOs

open Scan (Directive)

/-! ## `loader.c` -/

/-- How a call of `load` ends other than by returning. -/
inductive LoadStop
  | exit     -- `exit(1)`
  | overrun  -- `%s` writes past the end of `opcode`
  deriving DecidableEq, Repr

/-- The `OPT_*` strings. -/
def Opcode.opt : Opcode → String
  | .calc => "calc"
  | .alloc => "alloc"
  | .free => "free"
  | .read => "read"
  | .write => "write"
  | .kmalloc => "kmalloc"
  | .kmemCacheCreate => "kmem_cache_create"
  | .kmemCacheAlloc => "kmem_cache_alloc"
  | .copyFromUser => "copy_from_user"
  | .copyToUser => "copy_to_user"
  | .syscall => "syscall"

/-- `get_opcode`: the strings are compared in this order. -/
def getOpcode (opt : List Char) : Except LoadStop Opcode :=
  if opt = Opcode.calc.opt.toList then .ok .calc
  else if opt = Opcode.alloc.opt.toList then .ok .alloc
  else if opt = Opcode.free.opt.toList then .ok .free
  else if opt = Opcode.read.opt.toList then .ok .read
  else if opt = Opcode.write.opt.toList then .ok .write
  else if opt = Opcode.kmalloc.opt.toList then .ok .kmalloc
  else if opt = Opcode.kmemCacheCreate.opt.toList then .ok .kmemCacheCreate
  else if opt = Opcode.kmemCacheAlloc.opt.toList then .ok .kmemCacheAlloc
  else if opt = Opcode.copyFromUser.opt.toList then .ok .copyFromUser
  else if opt = Opcode.copyToUser.opt.toList then .ok .copyToUser
  else if opt = Opcode.syscall.opt.toList then .ok .syscall
  else .error .exit

/-- `struct code_seg_t`. -/
structure CodeSeg where
  text : Nat → Inst
  size : BitVec 32

/-- `struct pcb_t`, the fields that `load` sets and others read. -/
structure LoadedPcb where
  pid : BitVec 32
  priority : BitVec 32
  code : CodeSeg
  pc : BitVec 32

/-- What `load` finds in memory that it does not initialise: in the `malloc`ed structures, and in
its buffers (a string each). -/
structure LoadJunk where
  priority : BitVec 32
  size : BitVec 32
  text : Nat → Inst
  opcode : List Char
  buf : List Char

/-- The stream, the buffers `opcode[32]` and `buf[200]`, and the instructions. -/
structure LoadState where
  file : List Char
  opcode : List Char
  buf : List Char
  text : Nat → Inst

/-- The values that were converted are stored, the other fields stay. -/
def Inst.assign (ins : Inst) (vs : List Addr) : Inst where
  opcode := ins.opcode
  arg0 := vs.getD 0 ins.arg0
  arg1 := vs.getD 1 ins.arg1
  arg2 := vs.getD 2 ins.arg2
  arg3 := vs.getD 3 ins.arg3

/-- `fscanf` of operands: the instruction, and the rest of the stream. -/
def fscanfArgs (fs : List Directive) (file : List Char) (ins : Inst) : Inst × List Char :=
  let (vs, file) := Scan.scanf fs file
  (ins.assign vs, file)

/-- `"%lu %lu %lu %lu"`. -/
def fourArgs : List Directive :=
  [.unsigned, .space, .unsigned, .space, .unsigned, .space, .unsigned]

/-- The `switch` of `load`: the instruction, the rest of the stream, and the buffer. -/
def readOperands (ins : Inst) (file buf : List Char) : Inst × List Char × List Char :=
  match ins.opcode with
  | .calc => (ins, file, buf)
  | .kmemCacheAlloc | .kmalloc | .alloc =>
      let (ins, file) := fscanfArgs [.unsigned, .space, .unsigned, .space] file ins
      (ins, file, buf)
  | .free =>
      let (ins, file) := fscanfArgs [.unsigned, .space] file ins
      (ins, file, buf)
  | .kmemCacheCreate | .read | .write =>
      let (ins, file) :=
        fscanfArgs [.unsigned, .space, .unsigned, .space, .unsigned, .space] file ins
      (ins, file, buf)
  | .copyFromUser | .copyToUser | .syscall =>
      let ins := { ins with arg0 := 0, arg1 := 0, arg2 := 0, arg3 := 0 }
      -- what `fgets` returns is not looked at
      let (buf, file) := (Scan.fgets 200 file).getD (buf, file)
      (ins.assign (Scan.scanf fourArgs buf).1, file, buf)

/-- Instruction `i`. -/
def loadInst (s : LoadState) (i : Nat) : Except LoadStop LoadState := do
  let (word, file) := Scan.word s.file
  -- at the end of the file the word of the instruction before is still there
  let opcode := if word = [] then s.opcode else word
  if opcode.length ≥ 32 then .error .overrun
  else do
    let op ← getOpcode opcode
    let (ins, file, buf) := readOperands { s.text i with opcode := op } file s.buf
    pure { file, opcode, buf, text := Function.update s.text i ins }

/-- The loop, with the number of instructions left. -/
def loadLoop (s : LoadState) (i : Nat) : Nat → Except LoadStop LoadState
  | 0 => .ok s
  | n + 1 => do
      let s ← loadInst s i
      loadLoop s (i + 1) n

/-- `load`, with what `fopen` gives it to read (`none` is NULL): the process, and `avail_pid`. -/
def load (availPid : BitVec 32) (junk : LoadJunk) (file : Option (List Char)) :
    Except LoadStop (LoadedPcb × BitVec 32) :=
  match file with
  | none => .error .exit
  | some file => do
      let (vs, file) := Scan.scanf [.unsigned, .space, .unsigned] file
      let priority := (vs[0]?.map (·.setWidth 32)).getD junk.priority
      let size := (vs[1]?.map (·.setWidth 32)).getD junk.size
      let s ← loadLoop { file, opcode := junk.opcode, buf := junk.buf, text := junk.text } 0
        size.toNat
      pure ({ pid := availPid, priority, code := { text := s.text, size }, pc := 0 }, availPid + 1)

/-! ## Program files -/

/-- The opcodes that may leave operands out. -/
def Opcode.mayOmit : Opcode → Bool
  | .copyFromUser | .copyToUser | .syscall => true
  | _ => false

/-- The number of operands of the others. -/
def Opcode.arity : Opcode → Nat
  | .calc => 0
  | .free => 1
  | .alloc | .kmalloc | .kmemCacheAlloc => 2
  | .read | .write | .kmemCacheCreate => 3
  | .copyFromUser | .copyToUser | .syscall => 4

/-- An instruction as it is written: all its operands, or the first few where some may be left
out. -/
structure Line where
  opcode : Opcode
  args : List Addr
  args_le : args.length ≤ opcode.arity
  args_eq : opcode.mayOmit = false → args.length = opcode.arity

/-- The operands in decimal, a blank before each. -/
def Line.text (l : Line) : List Char := l.opcode.opt.toList ++ Scan.fields l.args

/-- A program: its priority and its instructions. -/
structure Program where
  priority : BitVec 32
  lines : List Line

/-- The lines behind the header or another line, each behind its newline. -/
def linesText (newline : Bool) (lines : List Line) : List Char :=
  lines.flatMap (fun l => '\n' :: l.text) ++ if newline then ['\n'] else []

/-- The file, with or without a newline at its end. -/
def Program.file (p : Program) (newline : Bool) : List Char :=
  Scan.decimal p.priority.toNat ++ ' ' :: Scan.decimal p.lines.length ++ linesText newline p.lines

/-- `arg_0` to `arg_3`. -/
def Inst.args (ins : Inst) : List Addr := [ins.arg0, ins.arg1, ins.arg2, ins.arg3]

/-- The instruction is the line: its opcode and its operands, the omitted ones being 0. -/
structure Line.Is (l : Line) (ins : Inst) : Prop where
  opcode : ins.opcode = l.opcode
  args : l.args <+: ins.args
  omitted : l.opcode.mayOmit = true →
    ins.args = l.args ++ List.replicate (4 - l.args.length) 0

/-- Whatever is in memory, the file is loaded as written. -/
def Program.Loads (p : Program) (newline : Bool) : Prop :=
  ∀ availPid junk, ∃ pcb next, load availPid junk (some (p.file newline)) = .ok (pcb, next) ∧
    pcb.code.size.toNat = p.lines.length ∧
    ∀ i (l : Line), p.lines[i]? = some l → l.Is (pcb.code.text i)

/-- Every operand is left out. -/
def Line.Bare (l : Line) : Prop := l.opcode.mayOmit = true ∧ l.args = []

/-- If the last line has all operands left out, a line before it was read into the buffer, and the
last one of these has no operand but 0. -/
def Program.EndFed (p : Program) : Prop :=
  ∀ init l, p.lines = init ++ [l] → l.Bare →
    ∃ l', (init.filter (·.opcode.mayOmit)).getLast? = some l' ∧ ∀ a ∈ l'.args, a = 0

/-! ## The stream in front of a line -/

section Text
variable {newline : Bool} {l : Line} {ls : List Line}

theorem opt_isSpace (op : Opcode) : ∀ c ∈ op.opt.toList, Scan.isSpace c = false := by
  have hall : (op.opt.toList.all fun c => !Scan.isSpace c) = true := by cases op <;> decide
  intro c hc
  simpa using List.all_eq_true.mp hall c hc

theorem opt_ne_nil (op : Opcode) : op.opt.toList ≠ [] := by
  cases op <;> decide

theorem opt_length_lt (op : Opcode) : op.opt.toList.length < 32 := by
  cases op <;> decide

theorem getOpcode_opt (op : Opcode) : getOpcode op.opt.toList = .ok op := by
  cases op <;> rfl

theorem linesText_cons (newline : Bool) (l : Line) (ls : List Line) :
    linesText newline (l :: ls) = '\n' :: (l.text ++ linesText newline ls) := by
  simp [linesText]

/-- What follows a line is nothing or a newline. -/
theorem linesText_cases (newline : Bool) (ls : List Line) :
    linesText newline ls = [] ∨ ∃ rest, linesText newline ls = '\n' :: rest := by
  cases ls with
  | nil => cases newline with
    | false => exact .inl rfl
    | true => exact .inr ⟨[], rfl⟩
  | cons l ls => exact .inr ⟨_, linesText_cons newline l ls⟩

/-- What follows an operand or an opcode that has none is nothing or white space. -/
theorem fields_linesText_head (vs : List Addr) (newline : Bool) (ls : List Line) :
    ∀ c ∈ (Scan.fields vs ++ linesText newline ls).head?, c = ' ' ∨ c = '\n' := by
  intro c hc
  cases vs with
  | nil =>
      rcases linesText_cases newline ls with hnil | ⟨rest, hrest⟩
      · rw [hnil] at hc
        exact nomatch hc
      · rw [hrest] at hc
        exact .inr (Option.some.inj hc).symm
  | cons v vs => exact .inl (Option.some.inj hc).symm

theorem skipSpace_linesText_cons (newline : Bool) (l : Line) (ls : List Line) :
    Scan.skipSpace (linesText newline (l :: ls)) =
      l.opcode.opt.toList ++ (Scan.fields l.args ++ linesText newline ls) := by
  obtain ⟨c, cs, hopt⟩ := List.exists_cons_of_ne_nil (opt_ne_nil l.opcode)
  rw [linesText_cons, Scan.skipSpace_cons (by decide), Line.text, List.append_assoc, hopt]
  refine Scan.skipSpace_of_head fun d hd => ?_
  obtain rfl : c = d := Option.some.inj hd
  exact opt_isSpace l.opcode c (hopt ▸ List.mem_cons_self)

end Text

/-- The stream is in front of these lines; the newline behind the line before may have been read. -/
def LoadState.Feeds (s : LoadState) (newline : Bool) (ls : List Line) : Prop :=
  Scan.skipSpace s.file = Scan.skipSpace (linesText newline ls)

/-! ## Operands -/

section Operands
variable {newline : Bool} {l : Line} {ls : List Line} {ins : Inst} {vs : List Addr}

/-- Assigning operands overwrites the first ones. -/
theorem args_assign (ins : Inst) (h : vs.length ≤ 4) :
    (ins.assign vs).args = vs ++ ins.args.drop vs.length := by
  rcases vs with _ | ⟨a, _ | ⟨b, _ | ⟨c, _ | ⟨d, _ | ⟨e, vs⟩⟩⟩⟩⟩
  · rfl
  · rfl
  · rfl
  · rfl
  · rfl
  · simp only [List.length_cons] at h
    omega

theorem Line.length_le (l : Line) : l.args.length ≤ 4 := by
  refine l.args_le.trans ?_
  cases l.opcode <;> decide

/-- An instruction to which the operands are assigned is the line, if those that are not were 0 or
there are no such. -/
theorem Line.is_assign (hop : ins.opcode = l.opcode)
    (h₀ : l.opcode.mayOmit = true → ins.args = List.replicate 4 0) :
    l.Is (ins.assign l.args) where
  opcode := hop
  args := by
    rw [args_assign ins l.length_le]
    exact List.prefix_append _ _
  omitted := fun homit => by
    rw [args_assign ins l.length_le, h₀ homit, List.drop_replicate]

/-- `fscanf` of as many operands as the line has. -/
theorem fscanfArgs_fields {k : Nat} (hlen : vs.length = k + 1) (ins : Inst) (newline : Bool)
    (ls : List Line) :
    fscanfArgs ((List.replicate k [.unsigned, .space]).flatten ++ [.unsigned, .space])
        (Scan.fields vs ++ linesText newline ls) ins =
      (ins.assign vs, Scan.skipSpace (linesText newline ls)) := by
  have hhead : ∀ c ∈ (linesText newline ls).head?, c.isDigit = false := by
    intro c hc
    rcases fields_linesText_head [] newline ls c hc with rfl | rfl <;> decide
  have hformat : List.replicate k Directive.unsigned ++ [.unsigned, .space] =
      List.replicate vs.length .unsigned ++ [.space] := by
    rw [hlen, List.replicate_succ', List.append_assoc]
    rfl
  rw [fscanfArgs, Scan.scanf_spaced, hformat, Scan.scanf_fields hhead]
  simp only [Scan.scanf, List.append_nil]

/-- The operands of an opcode that has a fixed number of them. -/
theorem readOperands_fixed (hfixed : l.opcode.mayOmit = false) (hop : ins.opcode = l.opcode)
    (newline : Bool) (ls : List Line) (buf : List Char) : ∃ file,
    readOperands ins (Scan.fields l.args ++ linesText newline ls) buf =
      (ins.assign l.args, file, buf) ∧
    Scan.skipSpace file = Scan.skipSpace (linesText newline ls) := by
  have hlen := l.args_eq hfixed
  have hskip := Scan.skipSpace_skipSpace (linesText newline ls)
  rw [readOperands, hop]
  cases hl : l.opcode with
  | «calc» =>
      rw [hl] at hlen
      rw [List.length_eq_zero_iff.mp hlen]
      exact ⟨_, rfl, rfl⟩
  | free | alloc | kmalloc | kmemCacheAlloc | read | write | kmemCacheCreate =>
      rw [hl] at hlen
      exact ⟨_, congrArg (fun r => (r.1, r.2, buf)) (fscanfArgs_fields hlen ins newline ls), hskip⟩
  | copyFromUser | copyToUser | syscall =>
      rw [hl] at hfixed
      exact nomatch hfixed

/-- What `sscanf` finds in the buffer. -/
def bufArgs (buf : List Char) : List Addr := (Scan.scanf fourArgs buf).1

/-- A line in the buffer: its operands are found. -/
theorem bufArgs_fields (hlen : vs.length ≤ 4) {rest : List Char}
    (hrest : ∀ c ∈ rest, Scan.isSpace c = true) : bufArgs (Scan.fields vs ++ rest) = vs := by
  have hformat : bufArgs (Scan.fields vs ++ rest) =
      (Scan.scanf (List.replicate 4 .unsigned) (Scan.fields vs ++ rest)).1 :=
    congrArg Prod.fst (Scan.scanf_spaced 3 [] _)
  rw [hformat, Scan.scanf_fields_le hlen hrest]

/-- `fgets` reads the operands, and the newline if there is one. -/
theorem fgets_fields (hlen : vs.length ≤ 4)
    (hne : vs ≠ [] ∨ linesText newline ls ≠ []) : ∃ rest file,
    Scan.fgets 200 (Scan.fields vs ++ linesText newline ls) =
      some (Scan.fields vs ++ rest, file) ∧
    (∀ c ∈ rest, Scan.isSpace c = true) ∧
    Scan.skipSpace file = Scan.skipSpace (linesText newline ls) := by
  have hfits : (Scan.fields vs).length < 199 := by
    have hfields := Scan.length_fields vs
    omega
  have hnewline := Scan.newline_notMem_fields vs
  rcases linesText_cases newline ls with hnil | ⟨rest, hrest⟩
  · have hvs : Scan.fields vs ≠ [] := by
      cases vs with
      | nil => exact absurd hnil (hne.resolve_left (not_not_intro rfl))
      | cons v vs => exact List.cons_ne_nil _ _
    rw [hnil, List.append_nil]
    refine ⟨[], [], ?_, fun _ hc => (nomatch hc), rfl⟩
    rw [Scan.fgets, if_neg hvs, Scan.line_last hnewline hfits, List.append_nil]
  · rw [hrest, Scan.skipSpace_cons (by decide)]
    refine ⟨['\n'], rest, ?_, List.forall_mem_singleton.mpr rfl, rfl⟩
    rw [Scan.fgets, if_neg (List.append_ne_nil_of_right_ne_nil _ (List.cons_ne_nil _ _)),
      Scan.line_append hnewline hfits]

/-- The operands of an opcode that may leave some out, with `fgets` done. -/
theorem readOperands_omit (homit : ins.opcode.mayOmit = true) (file buf : List Char) :
    readOperands ins file buf =
      ((({ ins with arg0 := 0, arg1 := 0, arg2 := 0, arg3 := 0 } : Inst).assign
          (bufArgs ((Scan.fgets 200 file).getD (buf, file)).1)),
        ((Scan.fgets 200 file).getD (buf, file)).2,
        ((Scan.fgets 200 file).getD (buf, file)).1) := by
  rw [readOperands]
  cases hop : ins.opcode with
  | copyFromUser | copyToUser | syscall => rfl
  | _ =>
      rw [hop] at homit
      exact nomatch homit

theorem length_bufArgs (buf : List Char) : (bufArgs buf).length ≤ 4 :=
  Scan.length_scanf_le fourArgs buf

end Operands

/-! ## One line -/

section Lines
variable {newline : Bool} {l : Line} {ls post : List Line} {s : LoadState}

/-- The word is the opcode of the line, and the operands are next. -/
theorem LoadState.Feeds.loadInst (h : s.Feeds newline (l :: ls)) (i : Nat) : ∃ r,
    readOperands { s.text i with opcode := l.opcode }
      (Scan.fields l.args ++ linesText newline ls) s.buf = r ∧
    loadInst s i = .ok ⟨r.2.1, l.opcode.opt.toList, r.2.2, Function.update s.text i r.1⟩ := by
  have hword : Scan.word s.file =
      (l.opcode.opt.toList, Scan.fields l.args ++ linesText newline ls) := by
    refine Scan.word_append (opt_isSpace l.opcode) (h.trans (skipSpace_linesText_cons _ _ _)) ?_
    intro c hc
    rcases fields_linesText_head l.args newline ls c hc with rfl | rfl <;> decide
  refine ⟨_, rfl, ?_⟩
  rw [SimpleOs.loadInst, hword]
  simp only [if_neg (opt_ne_nil l.opcode), if_neg (Nat.not_le.mpr (opt_length_lt l.opcode)),
    getOpcode_opt]
  rfl

/-- A line is read as it is written, unless it is bare and the file ends with it; if its opcode may
leave operands out, it is now in the buffer. -/
theorem LoadState.Feeds.step (h : s.Feeds newline (l :: ls))
    (hfed : l.Bare → linesText newline ls ≠ []) (i : Nat) : ∃ s',
    SimpleOs.loadInst s i = .ok s' ∧ s'.Feeds newline ls ∧ (∀ j, j ≠ i → s'.text j = s.text j) ∧
    l.Is (s'.text i) ∧
    bufArgs s'.buf = if l.opcode.mayOmit then l.args else bufArgs s.buf := by
  obtain ⟨r, hr, hload⟩ := h.loadInst i
  refine ⟨_, hload, ?_⟩
  cases homit : l.opcode.mayOmit with
  | false =>
      have hop : ({ s.text i with opcode := l.opcode } : Inst).opcode = l.opcode := rfl
      obtain ⟨file, hread, hfile⟩ := readOperands_fixed homit hop newline ls s.buf
      rw [hread] at hr
      subst hr
      refine ⟨hfile, fun j hj => Function.update_of_ne hj _ _, ?_, rfl⟩
      show l.Is (Function.update s.text i _ i)
      rw [Function.update_self]
      exact Line.is_assign rfl fun hc => by rw [homit] at hc; exact nomatch hc
  | true =>
      have hne : l.args ≠ [] ∨ linesText newline ls ≠ [] := by
        by_cases hargs : l.args = []
        · exact .inr (hfed ⟨homit, hargs⟩)
        · exact .inl hargs
      obtain ⟨rest, file, hfgets, hrest, hfile⟩ := fgets_fields l.length_le hne
      have hop : ({ s.text i with opcode := l.opcode } : Inst).opcode.mayOmit = true := homit
      rw [readOperands_omit hop, hfgets, Option.getD_some, bufArgs_fields l.length_le hrest] at hr
      subst hr
      refine ⟨hfile, fun j hj => Function.update_of_ne hj _ _, ?_,
        bufArgs_fields l.length_le hrest⟩
      show l.Is (Function.update s.text i _ i)
      rw [Function.update_self]
      exact Line.is_assign rfl fun _ => rfl

/-- A bare line at the end of the file is read right exactly if the operands that are found in the
buffer are 0. -/
theorem LoadState.Feeds.starved (h : s.Feeds newline [l]) (hbare : l.Bare)
    (hend : linesText newline [] = []) (i : Nat) : ∃ s', SimpleOs.loadInst s i = .ok s' ∧
    (∀ j, j ≠ i → s'.text j = s.text j) ∧ (l.Is (s'.text i) ↔ ∀ a ∈ bufArgs s.buf, a = 0) := by
  obtain ⟨homit, hargs⟩ := hbare
  obtain ⟨r, hr, hload⟩ := h.loadInst i
  refine ⟨_, hload, ?_⟩
  have hop : ({ s.text i with opcode := l.opcode } : Inst).opcode.mayOmit = true := homit
  rw [readOperands_omit hop, hargs, hend] at hr
  subst hr
  refine ⟨fun j hj => Function.update_of_ne hj _ _, ?_⟩
  show l.Is (Function.update s.text i _ i) ↔ _
  rw [Function.update_self]
  generalize hins : ({ s.text i with
    opcode := l.opcode, arg0 := 0, arg1 := 0, arg2 := 0, arg3 := 0 } : Inst) = ins
  have hins_op : ins.opcode = l.opcode := by rw [← hins]
  have hzero : ins.args = List.replicate 4 0 := by rw [← hins]; rfl
  have hlen := length_bufArgs s.buf
  have hassign : (ins.assign (bufArgs s.buf)).args =
      bufArgs s.buf ++ List.replicate (4 - (bufArgs s.buf).length) 0 := by
    rw [args_assign ins hlen, hzero, List.drop_replicate]
  show l.Is (ins.assign (bufArgs s.buf)) ↔ _
  constructor
  · intro his a ha
    have heq := his.omitted homit
    rw [hassign, hargs] at heq
    have hmem : a ∈ List.replicate 4 (0 : Addr) := by
      have hsub := List.mem_append_left (List.replicate (4 - (bufArgs s.buf).length) 0) ha
      rwa [heq] at hsub
    exact List.eq_of_mem_replicate hmem
  · intro hall
    have heq : (ins.assign (bufArgs s.buf)).args = List.replicate 4 0 := by
      rw [hassign, List.eq_replicate_iff.mpr ⟨rfl, hall⟩, List.length_replicate,
        List.replicate_append_replicate, Nat.add_sub_cancel' hlen]
    exact ⟨hins_op, hargs ▸ List.nil_prefix, fun _ => by rw [heq, hargs]; rfl⟩

/-! ## The loop -/

/-- The operands in the buffer after some lines, `vs` before them. -/
def inBuffer (vs : List Addr) (ls : List Line) : List Addr :=
  ls.foldl (fun vs l => if l.opcode.mayOmit then l.args else vs) vs

/-- They are those of the last line that was read into it. -/
theorem inBuffer_eq (vs : List Addr) (ls : List Line) : inBuffer vs ls =
    ((ls.filter (·.opcode.mayOmit)).getLast?.map Line.args).getD vs := by
  induction ls using List.reverseRecOn with
  | nil => rfl
  | append_singleton ls l ih =>
      rw [inBuffer, List.foldl_append, List.foldl_cons, List.foldl_nil, List.filter_append,
        List.filter_singleton]
      cases l.opcode.mayOmit with
      | true => simp
      | false =>
          rw [cond_false, List.append_nil, ← ih]
          rfl

/-- The loop over some lines, the last of which is not a bare one at the end of the file. -/
theorem LoadState.Feeds.loop (ls : List Line) {s : LoadState} (i : Nat)
    (h : s.Feeds newline (ls ++ post))
    (hfed : linesText newline post ≠ [] ∨ ∀ l ∈ ls.getLast?, ¬ l.Bare) : ∃ s',
    loadLoop s i ls.length = .ok s' ∧ s'.Feeds newline post ∧
    (∀ j < i, s'.text j = s.text j) ∧ (∀ k (hk : k < ls.length), ls[k].Is (s'.text (i + k))) ∧
    bufArgs s'.buf = inBuffer (bufArgs s.buf) ls := by
  induction ls generalizing s i with
  | nil => exact ⟨s, rfl, h, fun _ _ => rfl, fun k hk => absurd hk (Nat.not_lt_zero k), rfl⟩
  | cons l ls ih =>
      have hl : l.Bare → linesText newline (ls ++ post) ≠ [] := by
        intro hbare
        cases ls with
        | nil => exact hfed.resolve_right fun hlast => hlast l rfl hbare
        | cons l' ls =>
            rw [List.cons_append, linesText_cons]
            exact List.cons_ne_nil _ _
      obtain ⟨s₁, hload, hfeeds, htext, his, hbuf⟩ := h.step hl i
      have hfed' : linesText newline post ≠ [] ∨ ∀ l ∈ ls.getLast?, ¬ l.Bare := by
        refine hfed.imp_right fun hlast l' hl' => hlast l' ?_
        rw [List.getLast?_cons, Option.mem_def.mp hl']
        rfl
      obtain ⟨s', hloop, hfeeds', htext', hall, hbuf'⟩ := ih (i + 1) hfeeds hfed'
      refine ⟨s', ?_, hfeeds', fun j hj => ?_, fun k hk => ?_, ?_⟩
      · simp only [loadLoop, List.length_cons, hload, bind, Except.bind]
        exact hloop
      · rw [htext' j (Nat.lt_succ_of_lt hj), htext j (Nat.ne_of_lt hj)]
      · cases k with
        | zero =>
            rw [Nat.add_zero, htext' i (Nat.lt_succ_self i)]
            exact his
        | succ k =>
            have hrest := hall k (Nat.lt_of_succ_lt_succ hk)
            rwa [Nat.succ_add_eq_add_succ] at hrest
      · rw [hbuf', hbuf]
        rfl

/-- The loop goes on where it was. -/
theorem loadLoop_concat {s₁ : LoadState} {n : Nat} : ∀ {s : LoadState} {i : Nat},
    loadLoop s i n = .ok s₁ → loadLoop s i (n + 1) = SimpleOs.loadInst s₁ (i + n) := by
  induction n with
  | zero =>
      intro s i h
      obtain rfl : s = s₁ := Except.ok.inj h
      rw [loadLoop]
      cases SimpleOs.loadInst s i <;> rfl
  | succ n ih =>
      intro s i h
      rw [loadLoop] at h
      obtain ⟨s₂, hload, h⟩ := bind_ok.mp h
      rw [loadLoop, hload]
      show loadLoop s₂ (i + 1) (n + 1) = _
      rw [ih h, Nat.succ_add_eq_add_succ]

end Lines

/-! ## The file -/

section Files
variable {p : Program} {newline : Bool}

/-- After the header the stream is in front of the lines. -/
theorem load_file (hn : p.lines.length < 2 ^ 32) (newline : Bool) (availPid : BitVec 32)
    (junk : LoadJunk) : ∃ s : LoadState, s.Feeds newline p.lines ∧ s.buf = junk.buf ∧
    load availPid junk (some (p.file newline)) =
      (loadLoop s 0 p.lines.length).map fun s =>
        (⟨availPid, p.priority, ⟨s.text, BitVec.ofNat 32 p.lines.length⟩, 0⟩, availPid + 1) := by
  have hblank : ∀ c ∈ [' '], Scan.isSpace c = true := List.forall_mem_singleton.mpr rfl
  have hend : ∀ c ∈ (linesText newline p.lines).head?, c.isDigit = false := by
    intro c hc
    rcases fields_linesText_head [] newline p.lines c hc with rfl | rfl <;> decide
  have hpriority : p.priority.toNat < 2 ^ 64 :=
    Nat.lt_of_lt_of_le p.priority.isLt (by decide)
  have hsize := Scan.unsigned_decimal hblank (Nat.lt_of_lt_of_le hn (by decide)) hend
  have hfile : p.file newline = [] ++ (Scan.decimal p.priority.toNat ++
      ([' '] ++ (Scan.decimal p.lines.length ++ linesText newline p.lines))) := by
    simp [Program.file]
  have hscan : Scan.scanf [.unsigned, .space, .unsigned] (p.file newline) =
      ([BitVec.ofNat 64 p.priority.toNat, BitVec.ofNat 64 p.lines.length],
        linesText newline p.lines) := by
    have hdigit : ∀ c ∈ ([' '] ++ (Scan.decimal p.lines.length ++
        linesText newline p.lines)).head?, c.isDigit = false := by
      intro c hc
      obtain rfl : ' ' = c := Option.some.inj hc
      decide
    rw [hfile]
    refine (Scan.scanf_spaced 1 [] _).trans ?_
    show Scan.scanf [.unsigned, .unsigned] _ = _
    rw [Scan.scanf, Scan.unsigned_decimal (List.forall_mem_nil _) hpriority hdigit]
    simp only [Scan.scanf, hsize]
  have hp : (BitVec.ofNat 64 p.priority.toNat).setWidth 32 = p.priority := by
    apply BitVec.eq_of_toNat_eq
    rw [BitVec.toNat_setWidth, BitVec.toNat_ofNat]
    omega
  have hl : (BitVec.ofNat 64 p.lines.length).setWidth 32 = BitVec.ofNat 32 p.lines.length := by
    apply BitVec.eq_of_toNat_eq
    rw [BitVec.toNat_setWidth, BitVec.toNat_ofNat, BitVec.toNat_ofNat]
    omega
  have hlen : (BitVec.ofNat 32 p.lines.length).toNat = p.lines.length := by
    rw [BitVec.toNat_ofNat, Nat.mod_eq_of_lt hn]
  refine ⟨⟨linesText newline p.lines, junk.opcode, junk.buf, junk.text⟩, rfl, rfl, ?_⟩
  rw [load, hscan]
  simp only [List.getElem?_cons_zero, List.getElem?_cons_succ, Option.map_some, Option.getD_some,
    hp, hl, hlen]
  rfl

/-- A file that does not end with a bare line is loaded as written. -/
theorem Program.loads_of_fed (hn : p.lines.length < 2 ^ 32)
    (hfed : linesText newline [] ≠ [] ∨ ∀ l ∈ p.lines.getLast?, ¬ l.Bare) : p.Loads newline := by
  intro availPid junk
  obtain ⟨s, hfeeds, -, hload⟩ := load_file hn newline availPid junk
  rw [← List.append_nil p.lines] at hfeeds
  obtain ⟨s', hloop, -, -, hall, -⟩ := hfeeds.loop p.lines 0 hfed
  rw [hloop] at hload
  refine ⟨_, _, hload, ?_, fun i l hl => ?_⟩
  · rw [BitVec.toNat_ofNat, Nat.mod_eq_of_lt hn]
  · obtain ⟨hi, rfl⟩ := List.getElem?_eq_some_iff.mp hl
    have his := hall i hi
    rwa [Nat.zero_add] at his

/-- A file that ends with a bare line: everything before it is loaded as written, and it is if the
buffer holds no operand but 0. -/
theorem load_starved {init : List Line} {l : Line} (hn : p.lines.length < 2 ^ 32)
    (hlines : p.lines = init ++ [l]) (hbare : l.Bare) (availPid : BitVec 32) (junk : LoadJunk) :
    ∃ pcb next, load availPid junk (some (p.file false)) = .ok (pcb, next) ∧
      pcb.code.size.toNat = p.lines.length ∧
      (∀ i (l : Line), init[i]? = some l → l.Is (pcb.code.text i)) ∧
      (l.Is (pcb.code.text init.length) ↔ ∀ a ∈ inBuffer (bufArgs junk.buf) init, a = 0) := by
  obtain ⟨s, hfeeds, hbuf, hload⟩ := load_file hn false availPid junk
  rw [hlines] at hfeeds
  have hnext : linesText false [l] ≠ [] := by
    rw [linesText_cons]
    exact List.cons_ne_nil _ _
  obtain ⟨s₁, hloop, hfeeds₁, -, hall, hbuf₁⟩ := hfeeds.loop init 0 (.inl hnext)
  obtain ⟨s', hlast, htext, his⟩ := hfeeds₁.starved hbare rfl init.length
  have hlen : p.lines.length = init.length + 1 := by
    rw [hlines, List.length_append, List.length_singleton]
  rw [hlen, loadLoop_concat hloop, Nat.zero_add, hlast] at hload
  refine ⟨_, _, hload, ?_, fun i l hl => ?_, ?_⟩
  · show (BitVec.ofNat 32 (init.length + 1)).toNat = _
    rw [BitVec.toNat_ofNat, ← hlen, Nat.mod_eq_of_lt hn]
  · obtain ⟨hi, rfl⟩ := List.getElem?_eq_some_iff.mp hl
    have hi' := hall i hi
    rw [Nat.zero_add] at hi'
    show init[i].Is (s'.text i)
    rwa [htext i (Nat.ne_of_lt hi)]
  · rw [← hbuf, ← hbuf₁]
    exact his

/-- The operands in the buffer do not depend on what it held, once a line was read into it. -/
theorem inBuffer_zero {vs : List Addr} {init : List Line} {l' : Line}
    (hlast : (init.filter (·.opcode.mayOmit)).getLast? = some l') (hzero : ∀ a ∈ l'.args, a = 0) :
    ∀ a ∈ inBuffer vs init, a = 0 := by
  rw [inBuffer_eq, hlast]
  exact hzero

/-- A bare line at the end is loaded as written if the line left in the buffer has no operand
but 0. -/
theorem Program.loads_of_starved {init : List Line} {l l' : Line} (hn : p.lines.length < 2 ^ 32)
    (hlines : p.lines = init ++ [l]) (hbare : l.Bare)
    (hlast : (init.filter (·.opcode.mayOmit)).getLast? = some l') (hzero : ∀ a ∈ l'.args, a = 0) :
    p.Loads false := by
  intro availPid junk
  obtain ⟨pcb, next, hload, hsize, hall, hiff⟩ := load_starved hn hlines hbare availPid junk
  have hend : l.Is (pcb.code.text init.length) := hiff.mpr (inBuffer_zero hlast hzero)
  refine ⟨pcb, next, hload, hsize, fun i m hm => ?_⟩
  rw [hlines] at hm
  rcases Nat.lt_or_ge i init.length with hi | hi
  · exact hall i m (by rwa [List.getElem?_append_left hi] at hm)
  · rw [List.getElem?_append_right hi, List.getElem?_singleton] at hm
    obtain ⟨hi', hlm⟩ := Option.ite_none_right_eq_some.mp hm
    obtain rfl : i = init.length := Nat.le_antisymm (Nat.sub_eq_zero_iff_le.mp hi') hi
    exact Option.some.inj hlm ▸ hend

/-- Memory in which the buffer of `load` happens to hold a 1. -/
def dirtyBuffer : LoadJunk := ⟨0, 0, fun _ => ⟨.calc, 0, 0, 0, 0⟩, [], ['1']⟩

/-- A bare line at the end is not loaded as written otherwise, if the buffer is dirty. -/
theorem Program.Loads.endFed (h : p.Loads false) (hn : p.lines.length < 2 ^ 32) : p.EndFed := by
  intro init l hlines hbare
  obtain ⟨pcb, next, hload, -, hall⟩ := h 0 dirtyBuffer
  obtain ⟨pcb', next', hload', -, -, hiff⟩ := load_starved hn hlines hbare 0 dirtyBuffer
  obtain ⟨rfl, -⟩ := Prod.mk.inj (Except.ok.inj (hload'.symm.trans hload))
  have hzero := hiff.mp (hall init.length l (by rw [hlines, List.getElem?_concat_length]))
  rw [inBuffer_eq] at hzero
  cases hlast : (init.filter (·.opcode.mayOmit)).getLast? with
  | none =>
      rw [hlast] at hzero
      have hone : (1 : Addr) ∈ bufArgs dirtyBuffer.buf := by decide
      exact absurd (hzero 1 hone) (by decide)
  | some l' =>
      rw [hlast] at hzero
      exact ⟨l', rfl, hzero⟩

/-- A file is loaded as written, whatever is in memory, exactly if the number of its instructions
is a `uint32_t`, and it ends with a newline, or it does not end with a bare line, or the line then
left in the buffer has no operand but 0. -/
theorem program_file_loads (p : Program) (newline : Bool) :
    p.Loads newline ↔ p.lines.length < 2 ^ 32 ∧ (newline = true ∨ p.EndFed) := by
  constructor
  · intro h
    obtain ⟨pcb, -, -, hsize, -⟩ := h 0 dirtyBuffer
    have hn : p.lines.length < 2 ^ 32 := hsize ▸ pcb.code.size.isLt
    cases newline with
    | true => exact ⟨hn, .inl rfl⟩
    | false => exact ⟨hn, .inr (h.endFed hn)⟩
  · rintro ⟨hn, hend⟩
    cases newline with
    | true => exact Program.loads_of_fed hn (.inl (List.cons_ne_nil _ _))
    | false =>
        have hfed : p.EndFed := hend.resolve_left Bool.false_ne_true
        rcases List.eq_nil_or_concat' p.lines with hnil | ⟨init, l, hlines⟩
        · exact Program.loads_of_fed hn (.inr fun l hl => by rw [hnil] at hl; cases hl)
        · by_cases hbare : l.Bare
          · obtain ⟨l', hlast, hzero⟩ := hfed init l hlines hbare
            exact Program.loads_of_starved hn hlines hbare hlast hzero
          · refine Program.loads_of_fed hn (.inr fun m hm => ?_)
            rw [hlines, List.getLast?_concat] at hm
            exact Option.some.inj hm ▸ hbare

end Files

/-- `syscall 1 2 3 4`, and then `syscall` as the last line. -/
def staleProgram : Program where
  priority := 20
  lines := [
    { opcode := .syscall, args := [1, 2, 3, 4], args_le := by decide, args_eq := by decide },
    { opcode := .syscall, args := [], args_le := by decide, args_eq := by decide }]

/-- Without a newline at the end the second call gets the operands of the first. -/
theorem stale_operands_loaded :
    staleProgram.file false = "20 2\nsyscall 1 2 3 4\nsyscall".toList ∧
    (∃ pcb next, load 1 dirtyBuffer (some (staleProgram.file false)) = .ok (pcb, next) ∧
      pcb.code.text 1 = ⟨.syscall, 1, 2, 3, 4⟩) ∧
    ¬ staleProgram.Loads false := by
  have hload : ((load 1 dirtyBuffer (some (staleProgram.file false))).toOption.map
      fun r => r.1.code.text 1) = some ⟨.syscall, 1, 2, 3, 4⟩ := by decide
  obtain ⟨⟨pcb, next⟩, hok, htext⟩ := toOption_map_some hload
  refine ⟨by decide, ⟨pcb, next, hok, htext.symm⟩, fun h => ?_⟩
  obtain ⟨pcb', next', hok', -, hall⟩ := h 1 dirtyBuffer
  obtain ⟨rfl, -⟩ := Prod.mk.inj (Except.ok.inj (hok.symm.trans hok'))
  have hzero := (hall 1 _ rfl).omitted rfl
  rw [← htext] at hzero
  exact absurd hzero (by decide)

end SimpleOs
