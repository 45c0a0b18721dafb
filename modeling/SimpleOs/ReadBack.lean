/-
# `SimpleOs.ReadBack` — what READ delivers

The law of a memory is that READ delivers the last byte written.  To state it,
the machine is run together with a log of the instructions that returned 0;
`lastWrite` and `regionSize` read the log backwards.

The byte does reach the kernel: `MEMPHY_read` finds it, and the system call
leaves it in register `a3`.  But `pg_getval` drops its registers and stores
nothing through its out parameter, so what `libread` copies to `*destination`
is the uninitialised local it passed in.
-/
import SimpleOs.Reach

namespace SimpleOs

/-! ## The log -/

/-- The instructions that returned 0, newest first, with the processes that ran them. -/
abbrev Log := List (Pid × Inst)

/-- The log after an event. -/
def Log.next (log : Log) (s : Sys) : Event → Log
  | .run c ins junk =>
      match s.cpu c with
      | .restored p =>
          match exec s.krnl p ins junk with
          | .ok (_, 0) => (p, ins) :: log
          | _ => log
      | _ => log
  | _ => log

/-- The machine with its log. -/
def logStep (x : Sys × Log) (e : Event) : Option (Sys × Log) :=
  (step x.1 e).map (fun s' => (s', x.2.next x.1 e))

/-- The size with which `p` allocated region `r`, unless it freed it. -/
def regionSize (p : Pid) (r : BitVec 32) : Log → Option Addr
  | [] => none
  | (q, ins) :: log =>
      if q = p ∧ ins.opcode = .alloc ∧ ins.arg1.setWidth 32 = r then some ins.arg0
      else if q = p ∧ ins.opcode = .free ∧ ins.arg0.setWidth 32 = r then none
      else regionSize p r log

/-- The byte `p` last wrote to offset `o` of region `r` since it allocated the region. -/
def lastWrite (p : Pid) (r : BitVec 32) (o : Addr) : Log → Option Byte
  | [] => none
  | (q, ins) :: log =>
      if q = p ∧ ins.opcode = .write ∧ ins.arg1.setWidth 32 = r ∧ ins.arg2 = o then
        some (ins.arg0.setWidth 8)
      else if q = p ∧ ins.opcode = .alloc ∧ ins.arg1.setWidth 32 = r then none
      else if q = p ∧ ins.opcode = .free ∧ ins.arg0.setWidth 32 = r then none
      else lastWrite p r o log

theorem logStep_step (x : Sys × Log) (e : Event) : (logStep x e).map Prod.fst = step x.1 e := by
  rw [logStep, Option.map_map]
  exact Option.map_id'

theorem logStep_forget {s₀ s : Sys} {log₀ log : Log} {es : List Event}
    (h : Lts.Reaches logStep (s₀, log₀) es (s, log)) : Lts.Reaches step s₀ es s :=
  h.forget (fun _ _ => True) Prod.fst logStep_step

/-! ## What arrives in `*destination` -/

/-- `pg_getval` leaves `*data` alone, whatever it returns. -/
theorem pgGetval_data {k k' : Krnl} {mm : Mm} {addr : BitVec 32} {data data' : Byte} {p : Pid}
    {junk : Byte} {st : Int} (h : pgGetval k mm addr data p junk = .ok (k', st, data')) :
    data' = data := by
  rw [pgGetval, bind_ok] at h
  obtain ⟨⟨k₁, r⟩, _, h⟩ := h
  cases r with
  | none => cases h; rfl
  | some fpn =>
      simp only [bind_ok] at h
      obtain ⟨⟨k₂, regs, ret⟩, _, h⟩ := h
      cases h
      rfl

/-- `libread` delivers what its local variable held. -/
theorem libread_dst {k k' : Krnl} {p : Pid} {r : BitVec 32} {o : Addr} {junk : Byte} {st : Int}
    {dst : BitVec 32} (h : libread k p r o junk = .ok (k', st, dst)) :
    dst.setWidth 8 = junk := by
  rw [libread, bind_ok] at h
  obtain ⟨⟨k₁, val, data⟩, hread, h⟩ := h
  cases h
  have hdata : data = junk := by
    rw [read] at hread
    split at hread
    next => cases hread; rfl
    next mm _ =>
      split at hread
      next => cases hread; rfl
      next rgid _ =>
        rw [bind_ok] at hread
        obtain ⟨ptr, _, hread⟩ := hread
        rw [bind_ok] at hread
        obtain ⟨rg, _, hread⟩ := hread
        rw [bind_ok] at hread
        obtain ⟨⟨k₂, st₂, data₂⟩, hget, hread⟩ := hread
        cases hread
        exact pgGetval_data hget
  rw [hdata]
  exact setWidth_signExtend junk (by decide)

/-! ## In every run -/

/-- A READ of process `p` at offset `o` of its region `r`, where it last wrote `v`, returns 0 and
delivers `dst`. -/
structure ReadOf (s : Sys) (log : Log) (p : Pid) (r : BitVec 32) (o : Addr) (v junk : Byte)
    (dst : BitVec 32) : Prop where
  running : ∃ c, s.cpu c = .restored p
  size : ∃ n, regionSize p r log = some n ∧ o < n
  last : lastWrite p r o log = some v
  read : ∃ k', libread s.krnl p r o junk = .ok (k', 0, dst)

/-- After every run, READ delivers the byte last written iff the uninitialised variable of
`libread` happens to hold that byte. -/
theorem read_after_write (memramsz memswpsz : Addr) (ramJunk swpJunk : Bool) :
    ∀ es s log, Lts.Reaches logStep (boot memramsz memswpsz ramJunk swpJunk, []) es (s, log) →
    ∀ p r o v junk dst, ReadOf s log p r o v junk dst → (dst.setWidth 8 = v ↔ junk = v) := by
  intro es s log _ p r o v junk dst hread
  obtain ⟨k', hr⟩ := hread.read
  rw [libread_dst hr]

/-- Process 1 allocates a page, writes 7 to it and is about to read it back. -/
def writeThenRead : List Event :=
  loadOn 0 1 ++ [.run 0 ⟨.alloc, 256, 0, 0, 0⟩ 0, .restore 0, .run 0 ⟨.write, 7, 0, 0, 0⟩ 0,
    .restore 0]

theorem writeThenRead_readOf (junk : Byte) (dst : BitVec 32)
    (hdst : (Lts.exec logStep (boot 512 512 true true, []) writeThenRead).map (fun x =>
      (libread x.1.krnl 1 0 0 junk).toOption.map (·.2)) = some (some (0, dst))) :
    ∃ s log, Lts.Reaches logStep (boot 512 512 true true, []) writeThenRead (s, log) ∧
      ReadOf s log 1 0 0 7 junk dst := by
  obtain ⟨⟨s, log⟩, hs⟩ := Option.isSome_iff_exists.mp
    (by decide +kernel : (Lts.exec logStep (boot 512 512 true true, []) writeThenRead).isSome)
  have hread := Lts.exec_map hs hdst
  refine ⟨s, log, Lts.reaches_of_exec hs, ⟨0, ?_⟩, ⟨256, ?_, by decide⟩, ?_, ?_⟩
  · exact Lts.exec_map (g := fun x => x.1.cpu 0) (a := .restored 1) hs (by decide +kernel)
  · exact Lts.exec_map (g := fun x => regionSize 1 0 x.2) (a := some 256) hs (by decide +kernel)
  · exact Lts.exec_map (g := fun x => lastWrite 1 0 0 x.2) (a := some 7) hs (by decide +kernel)
  · cases hr : libread s.krnl 1 0 0 junk with
    | error e => rw [hr] at hread; exact nomatch hread
    | ok r =>
        obtain ⟨k', st, d⟩ := r
        rw [hr] at hread
        cases hread
        exact ⟨k', rfl⟩

/-- With 0 on the stack the READ delivers 0. -/
theorem read_delivers_junk : ¬ ∀ es s log,
    Lts.Reaches logStep (boot 512 512 true true, []) es (s, log) →
    ∀ p r o v junk dst, ReadOf s log p r o v junk dst → dst.setWidth 8 = v := by
  intro h
  obtain ⟨s, log, hreach, hread⟩ := writeThenRead_readOf 0 0 (by decide +kernel)
  exact absurd (h _ s log hreach 1 0 0 7 0 0 hread) (by decide)

/-- With 7 on the stack it delivers 7. -/
theorem read_after_write_seven : ∃ s log, ReadOf s log 1 0 0 7 7 7 ∧
    ((7 : BitVec 32).setWidth 8 = (7 : Byte) ↔ (7 : Byte) = 7) := by
  obtain ⟨s, log, hreach, hread⟩ := writeThenRead_readOf 7 7 (by decide +kernel)
  exact ⟨s, log, hread, read_after_write 512 512 true true _ s log hreach 1 0 0 7 7 7 hread⟩

end SimpleOs
