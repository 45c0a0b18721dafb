/-
# `SimpleOs.SymTable` — which ids reach the symbol table

`__read` and `__write` go through `get_symrg_byid`, `__free` repeats its test,
and `__alloc` makes none.  The test is `rgid > PAGING_MAX_SYMTBL_SZ`, so that the
id 30 passes it, and a table of 30 entries is indexed with it.

An instruction keeps to the table iff its id passes no test wrongly
(`Inst.IdInBounds`): a table id for ALLOC, any id but 30 for the others.
-/
import SimpleOs.Confinement
import SimpleOs.Isolation
import SimpleOs.Undefined

namespace SimpleOs

open Relational

/-- The region id of a memory instruction, after its trip through `uint32_t` to `int`. -/
def Inst.rgid (ins : Inst) : Int :=
  match ins.opcode with
  | .alloc => (ins.arg1.setWidth 32 : BitVec 32).toInt
  | .write => (ins.arg1.setWidth 32 : BitVec 32).toInt
  | _ => (ins.arg0.setWidth 32 : BitVec 32).toInt

/-- The instruction indexes the table with ids of the table only, and with an id that is none of
these it returns -1 and changes nothing. -/
def TableSafe (k : Krnl) (p : Pid) (ins : Inst) (junk : Byte) : Prop :=
  Avoids .symtblBounds (exec k p ins junk) ∧
  (¬ InTable ins.rgid → exec k p ins junk = .ok (k, -1))

section Exec
variable {k k' : Krnl} {p : Pid} {mm : Mm} {ins : Inst} {junk : Byte} {st : Int}

/-- What `get_symrg_byid` returns for an id other than 30 is an id of the table. -/
theorem getSymrgById_inTable {rgid r : Int} (hne : rgid ≠ pagingMaxSymtblSz)
    (h : getSymrgById rgid = some r) : InTable r := by
  obtain ⟨rfl, h0, hlt⟩ := getSymrgById_inBounds hne h
  exact ⟨h0, hlt⟩

theorem read_tableAvoids (hop : ins.opcode = .read) (hid : ins.IdInBounds) :
    Avoids .symtblBounds (exec k p ins junk) := by
  simp only [Inst.IdInBounds, hop] at hid
  simp only [exec, hop]
  refine Avoids.bind (Avoids.bind ?_ fun _ _ => .ok _ _) fun _ _ => .ok _ _
  rw [read]
  split
  · exact .ok _ _
  · split
    next => exact .ok _ _
    next r hr =>
      refine (readEntry_avoids Ub.noConfusion).bind fun ptr hptr => Avoids.bind ?_ fun rg _ => ?_
      · -- the pointer followed is to an entry of the table of `krnl->mm`
        have hin : InTable ptr.2 := by
          rw [readEntry_id hptr]
          exact getSymrgById_inTable hid hr
        exact loadEntry_avoids Ub.noConfusion (Or.inr hin)
      · exact (pgGetval_avoids Ub.noConfusion Ub.noConfusion _).bind fun _ _ => .ok _ _

theorem write_tableAvoids (hop : ins.opcode = .write) (hid : ins.IdInBounds) :
    Avoids .symtblBounds (exec k p ins junk) := by
  simp only [Inst.IdInBounds, hop] at hid
  simp only [exec, hop]
  refine Avoids.bind ?_ fun r _ => ?_
  · rw [write]
    split
    · exact .ok _ _
    · split
      next r _ hr _ =>
        refine (symrg_avoids (Or.inr (getSymrgById_inTable hid hr))).bind fun rg _ => ?_
        exact (pgSetval_avoids Ub.noConfusion Ub.noConfusion _).bind fun _ _ => .ok _ _
      next => exact .ok _ _
  · obtain ⟨_, val⟩ := r
    simp only
    split <;> exact .ok _ _

/-- The ids `IdInBounds` names never index outside the table, in any state. -/
theorem exec_tableAvoids (hop : ins.IsMemory) (hid : ins.IdInBounds) :
    Avoids .symtblBounds (exec k p ins junk) := by
  rcases hop with hop | hop | hop | hop
  · simp only [Inst.IdInBounds, hop] at hid
    simp only [exec, hop]
    exact liballoc_avoids Ub.noConfusion Ub.noConfusion (Or.inr hid) _
  · simp only [Inst.IdInBounds, hop] at hid
    simp only [exec, hop]
    exact libfree_avoids Ub.noConfusion (Or.inr hid)
  · exact read_tableAvoids hop hid
  · exact write_tableAvoids hop hid

/-- Of the ids `IdInBounds` names, those outside the table are refused. -/
theorem exec_outOfTable (hmm : k.ownMm p = some mm) (hs : mm.Single) (hop : ins.IsMemory)
    (hid : ins.IdInBounds) (hout : ¬ InTable ins.rgid) : exec k p ins junk = .ok (k, -1) := by
  have hmax : (pagingMaxSymtblSz : Int) = 30 := rfl
  rcases hop with hop | hop | hop | hop
  · simp only [Inst.IdInBounds, hop] at hid
    simp only [Inst.rgid, hop] at hout
    exact absurd hid hout
  · simp only [Inst.IdInBounds, hop] at hid
    simp only [Inst.rgid, hop, InTable] at hout
    have href : (ins.arg0.setWidth 32 : BitVec 32).toInt < 0 ∨
        (ins.arg0.setWidth 32 : BitVec 32).toInt > pagingMaxSymtblSz := by omega
    simp only [exec, hop, libfree, free, if_pos href]
    rfl
  · simp only [Inst.IdInBounds, hop] at hid
    simp only [Inst.rgid, hop, InTable] at hout
    refine exec_refused hmm hs (Or.inl hop) ?_
    simp only [Inst.Refused, Inst.target, hop]
    omega
  · simp only [Inst.IdInBounds, hop] at hid
    simp only [Inst.rgid, hop, InTable] at hout
    refine exec_refused hmm hs (Or.inr hop) ?_
    simp only [Inst.Refused, Inst.target, hop]
    omega

/-- `__free` indexes the table with the id just past it. -/
theorem libfree_past {regIndex : BitVec 32} (hmm : k.ownMm p = some mm)
    (h : regIndex.toInt = pagingMaxSymtblSz) : libfree k p regIndex = .error .symtblBounds := by
  have hin : ¬ (regIndex.toInt < 0 ∨ regIndex.toInt > pagingMaxSymtblSz) := by omega
  have hentry : mm.symrg regIndex.toInt = .error .symtblBounds := by
    rw [Mm.symrg, if_neg]
    omega
  rw [libfree, free, if_neg hin]
  simp only [hmm, hentry]
  rfl

/-- An id outside the table that is answered with -1 is one of those `IdInBounds` names: ALLOC
returns with an id of the table only, and the id 30 is not refused. -/
theorem idInBounds_of_exec (hmm : k.ownMm p = some mm) (hs : mm.Single) (hop : ins.IsMemory)
    (h : ¬ InTable ins.rgid → exec k p ins junk = .ok (k', -1)) : ins.IdInBounds := by
  have hmax : (pagingMaxSymtblSz : Int) = 30 := rfl
  by_contra hid
  rcases hop with hop | hop | hop | hop
  · simp only [Inst.IdInBounds, hop] at hid
    simp only [Inst.rgid, hop] at h
    have hexec := h hid
    simp only [exec, hop] at hexec
    obtain ⟨_, halloc⟩ := liballoc_ok hexec
    obtain ⟨h0, hlt, _⟩ := alloc_cases hmm hs halloc
    exact hid ⟨h0, hlt⟩
  · simp only [Inst.IdInBounds, hop, not_not] at hid
    simp only [Inst.rgid, hop, InTable] at h
    have hexec := h (by omega)
    simp only [exec, hop, libfree_past hmm hid] at hexec
    cases hexec
  · simp only [Inst.IdInBounds, hop, not_not] at hid
    simp only [Inst.rgid, hop, InTable] at h
    have href := refused_of_exec hmm hs (Or.inl hop) (h (by omega))
    simp only [Inst.Refused, Inst.target, hop] at href
    omega
  · simp only [Inst.IdInBounds, hop, not_not] at hid
    simp only [Inst.rgid, hop, InTable] at h
    have href := refused_of_exec hmm hs (Or.inr hop) (h (by omega))
    simp only [Inst.Refused, Inst.target, hop] at href
    omega

end Exec

/-- After every run, a memory instruction keeps to the symbol table and refuses every other id iff
its id is one of the table, or, for FREE, READ and WRITE, any id but the one just past it. -/
theorem table_safe (memramsz memswpsz : Addr) (ramJunk swpJunk : Bool) :
    ∀ es s, Lts.Reaches step (boot memramsz memswpsz ramJunk swpJunk) es s →
    ∀ c p ins junk, s.cpu c = .restored p → ins.IsMemory →
      (TableSafe s.krnl p ins junk ↔ ins.IdInBounds) := by
  intro es s h c p ins junk hc hop
  have hw : s.Wf := reach_wf h
  obtain ⟨mm, hmm⟩ := Option.isSome_iff_exists.mp (hw.held c p (by rw [hc]; rfl))
  have hs : mm.Single := (hw.krnl.own p mm hmm).single
  constructor
  · intro hsafe
    exact idInBounds_of_exec hmm hs hop hsafe.2
  · intro hid
    exact ⟨exec_tableAvoids hop hid, exec_outOfTable hmm hs hop hid⟩

/-- A WRITE to the id 31 is refused. -/
theorem table_safe_refused : ∃ s, Lts.Reaches step (boot 512 512 true true) (loadOn 0 1) s ∧
    TableSafe s.krnl 1 ⟨.write, 7, 31, 0, 0⟩ 0 := by
  obtain ⟨s, hs⟩ := Option.isSome_iff_exists.mp
    (by decide +kernel : (Lts.exec step (boot 512 512 true true) (loadOn 0 1)).isSome)
  have hreach := Lts.reaches_of_exec hs
  have hc : s.cpu 0 = .restored 1 := Lts.exec_map (g := fun s => s.cpu 0) hs (by decide +kernel)
  exact ⟨s, hreach, (table_safe 512 512 true true _ s hreach 0 1 _ 0 hc
    (Or.inr (Or.inr (Or.inr rfl)))).mpr fun h => absurd h (by decide)⟩

/-- FREE of the id 30, by a process just loaded, indexes past the table. -/
theorem table_overrun : ∃ s, Lts.Reaches step (boot 512 512 true true) (loadOn 0 0) s ∧
    s.cpu 0 = .restored 0 ∧
    exec s.krnl 0 ⟨.free, 30, 0, 0, 0⟩ 0 = .error .symtblBounds ∧
    ¬ TableSafe s.krnl 0 ⟨.free, 30, 0, 0, 0⟩ 0 := by
  obtain ⟨s, hs, hc, hmm, _⟩ := exec_loadOn 512 512 true true
  have herr : exec s.krnl 0 ⟨.free, 30, 0, 0, 0⟩ 0 = .error .symtblBounds :=
    libfree_past hmm (by decide)
  exact ⟨s, Lts.reaches_of_exec hs, hc, herr, fun hsafe => hsafe.1 herr⟩

end SimpleOs
