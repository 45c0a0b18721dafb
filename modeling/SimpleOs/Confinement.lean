/-
# `SimpleOs.Confinement` — which accesses are refused

READ and WRITE name a region and an offset.  `get_symrg_byid` refuses an id
below 0 or above 30 and returns the address of an entry for every other one,
so the test for NULL in `__read` and `__write` sees neither an entry that holds
no region nor an offset beyond its end, and the access is made: READ and WRITE
of an id that is not refused never return -1.
-/
import SimpleOs.ReadBack

namespace SimpleOs

/-- The id and the offset a READ or WRITE names. -/
def Inst.target (ins : Inst) : BitVec 32 × Addr :=
  match ins.opcode with
  | .read => (ins.arg0.setWidth 32, ins.arg1)
  | _ => (ins.arg1.setWidth 32, ins.arg2)

/-- The id is one `get_symrg_byid` refuses. -/
def Inst.Refused (ins : Inst) : Prop :=
  ins.target.1.toInt < 0 ∨ ins.target.1.toInt > pagingMaxSymtblSz

/-- What `symrgtbl` records for an id that the process has allocated and not freed. -/
def Sys.region (s : Sys) (log : Log) (p : Pid) (r : BitVec 32) : Option VmRg :=
  match regionSize p r log, s.krnl.ownMm p with
  | some _, some mm => (mm.symrg r.toInt).toOption
  | _, _ => none

/-- The process has allocated the region and not freed it, and the offset is below the length
recorded for it. -/
def InRegion (s : Sys) (log : Log) (p : Pid) (ins : Inst) : Prop :=
  ∃ rg ∈ s.region log p ins.target.1, ins.target.2.toNat < rg.len

instance (ins : Inst) : Decidable ins.Refused := inferInstanceAs (Decidable (_ ∨ _))

instance (s : Sys) (log : Log) (p : Pid) (ins : Inst) : Decidable (InRegion s log p ins) :=
  inferInstanceAs (Decidable (∃ rg ∈ s.region log p ins.target.1, _))

/-- The instruction returns -1 and changes no process structure and no device. -/
def RejectsCleanly (k : Krnl) (p : Pid) (ins : Inst) (junk : Byte) : Prop :=
  ∃ k', exec k p ins junk = .ok (k', -1) ∧ k'.ownMm = k.ownMm ∧ k'.mram = k.mram ∧
    k'.activeMswp = k.activeMswp

section Refused
variable {k k' : Krnl} {p : Pid} {mm : Mm} {ins : Inst} {junk : Byte}

theorem getSymrgById_refused {rgid : Int} :
    getSymrgById rgid = none ↔ rgid < 0 ∨ rgid > pagingMaxSymtblSz := by
  rw [getSymrgById]
  split
  next h => exact ⟨fun _ => h, fun _ => rfl⟩
  next h => exact ⟨fun hn => (by cases hn), fun hr => absurd hr h⟩

/-- A refused id. -/
theorem exec_refused (hmm : k.ownMm p = some mm) (hs : mm.Single)
    (hop : ins.opcode = .read ∨ ins.opcode = .write) (h : ins.Refused) :
    exec k p ins junk = .ok (k, -1) := by
  rcases hop with hop | hop
  · simp only [Inst.Refused, Inst.target, hop] at h
    simp only [exec, hop, libread, read, hmm, getSymrgById_refused.mpr h]
    rfl
  · have hv : mm.getVmaByNum 0 = some mm.vma := by rw [hs.getVmaByNum]; rfl
    simp only [Inst.Refused, Inst.target, hop] at h
    simp only [exec, hop, libwrite, write, hmm, hv, getSymrgById_refused.mpr h]
    rfl

/-- Only a refused id makes the status -1. -/
theorem refused_of_exec (hmm : k.ownMm p = some mm) (hs : mm.Single)
    (hop : ins.opcode = .read ∨ ins.opcode = .write)
    (h : exec k p ins junk = .ok (k', -1)) : ins.Refused := by
  rcases hop with hop | hop
  · simp only [exec, hop, libread, read, hmm] at h
    simp only [Inst.Refused, Inst.target, hop]
    cases hid : getSymrgById (ins.arg0.setWidth 32).toInt with
    | none => exact getSymrgById_refused.mp hid
    | some r =>
        -- the status of the access itself is dropped
        simp only [hid, bind_ok] at h
        obtain ⟨_, ⟨_, ⟨_, _, _, _, _, _, hread⟩, hlib⟩, h⟩ := h
        cases hread
        cases hlib
        have hst : (0 : Int) = -1 := (Prod.mk.inj (Except.ok.inj h)).2
        exact absurd hst (by decide)
  · have hv : mm.getVmaByNum 0 = some mm.vma := by rw [hs.getVmaByNum]; rfl
    simp only [exec, hop, libwrite, write, hmm, hv] at h
    simp only [Inst.Refused, Inst.target, hop]
    cases hid : getSymrgById (ins.arg1.setWidth 32).toInt with
    | none => exact getSymrgById_refused.mp hid
    | some r =>
        simp only [hid, bind_ok] at h
        obtain ⟨_, ⟨_, _, _, _, hwrite⟩, h⟩ := h
        cases hwrite
        have hst : (0 : Int) = -1 := (Prod.mk.inj (Except.ok.inj h)).2
        exact absurd hst (by decide)

end Refused

/-- After every run, READ and WRITE refuse every access outside a region the process holds iff
the access lies in such a region, or its id is one `get_symrg_byid` refuses. -/
theorem access_confined (memramsz memswpsz : Addr) (ramJunk swpJunk : Bool) :
    ∀ es s log, Lts.Reaches logStep (boot memramsz memswpsz ramJunk swpJunk, []) es (s, log) →
    ∀ c p ins junk, s.cpu c = .restored p → ins.opcode = .read ∨ ins.opcode = .write →
      ((¬ InRegion s log p ins → RejectsCleanly s.krnl p ins junk) ↔
        InRegion s log p ins ∨ ins.Refused) := by
  intro es s log h c p ins junk hc hop
  have hw : s.Wf := reach_wf (logStep_forget h)
  obtain ⟨mm, hmm⟩ := Option.isSome_iff_exists.mp (hw.held c p (by rw [hc]; rfl))
  have hs : mm.Single := (hw.krnl.own p mm hmm).single
  constructor
  · intro hrej
    by_cases hin : InRegion s log p ins
    · exact Or.inl hin
    · obtain ⟨k', hexec, _⟩ := hrej hin
      exact Or.inr (refused_of_exec hmm hs hop hexec)
  · intro hcond hout
    have href : ins.Refused := hcond.resolve_left hout
    exact ⟨s.krnl, exec_refused hmm hs hop href, rfl, rfl, rfl⟩

/-- Process 1 has two regions of 256 bytes, frees the first and asks for 2^32 + 5 bytes under the
same id: the free list serves it, with 5 bytes. -/
def servedShort : List Event :=
  loadOn 0 1 ++ [.run 0 ⟨.alloc, 256, 2, 0, 0⟩ 0, .restore 0, .run 0 ⟨.alloc, 256, 3, 0, 0⟩ 0,
    .restore 0, .run 0 ⟨.free, 2, 0, 0, 0⟩ 0, .restore 0,
    .run 0 ⟨.alloc, BitVec.ofNat 64 (2 ^ 32 + 5), 2, 0, 0⟩ 0, .restore 0]

/-- Then a write at offset 4 lies in the region, one at offset 100 does not and is made, and one
of id 40 is refused. -/
theorem access_confined_short : ∃ s log,
    Lts.Reaches logStep (boot 512 512 true true, []) servedShort (s, log) ∧
    InRegion s log 1 ⟨.write, 7, 2, 4, 0⟩ ∧
    (¬ InRegion s log 1 ⟨.write, 7, 2, 4, 0⟩ → RejectsCleanly s.krnl 1 ⟨.write, 7, 2, 4, 0⟩ 0) ∧
    ¬ (¬ InRegion s log 1 ⟨.write, 7, 2, 100, 0⟩ →
      RejectsCleanly s.krnl 1 ⟨.write, 7, 2, 100, 0⟩ 0) ∧
    RejectsCleanly s.krnl 1 ⟨.write, 7, 40, 0, 0⟩ 0 := by
  obtain ⟨⟨s, log⟩, hs⟩ := Option.isSome_iff_exists.mp
    (by decide +kernel :
      (Lts.exec logStep (boot 512 512 true true, []) servedShort).isSome)
  have hreach := Lts.reaches_of_exec hs
  have hc : s.cpu 0 = .restored 1 := Lts.exec_map (g := fun x => x.1.cpu 0) hs (by decide +kernel)
  have hin (ins : Inst) (b : Bool) (hb : (Lts.exec logStep (boot 512 512 true true, [])
      servedShort).map (fun x => decide (InRegion x.1 x.2 1 ins)) = some b) :
      decide (InRegion s log 1 ins) = b :=
    Lts.exec_map (g := fun x => decide (InRegion x.1 x.2 1 ins)) hs hb
  have hinside := of_decide_eq_true (hin ⟨.write, 7, 2, 4, 0⟩ true (by decide +kernel))
  have hbeyond := of_decide_eq_false (hin ⟨.write, 7, 2, 100, 0⟩ false (by decide +kernel))
  have hother := of_decide_eq_false (hin ⟨.write, 7, 40, 0, 0⟩ false (by decide +kernel))
  have hconf := fun ins => access_confined 512 512 true true _ s log hreach 0 1 ins 0 hc
  refine ⟨s, log, hreach, hinside, (hconf _ (Or.inr rfl)).mpr (Or.inl hinside), ?_,
    (hconf _ (Or.inr rfl)).mpr (Or.inr (by decide)) hother⟩
  intro hrej
  rcases (hconf _ (Or.inr rfl)).mp hrej with hmem | href
  · exact hbeyond hmem
  · exact absurd href (by decide)

/-- A write just beyond a region of 256 bytes is made: it returns 0, and page 0 of the process is
evicted for it. -/
theorem write_beyond_region : ∃ s log,
    Lts.Reaches logStep (boot 512 512 true true, [])
      (loadOn 0 1 ++ [.run 0 ⟨.alloc, 256, 0, 0, 0⟩ 0, .restore 0]) (s, log) ∧
    s.cpu 0 = .restored 1 ∧ ¬ InRegion s log 1 ⟨.write, 7, 0, 256, 0⟩ ∧
    ¬ RejectsCleanly s.krnl 1 ⟨.write, 7, 0, 256, 0⟩ 0 := by
  obtain ⟨⟨s, log⟩, hs⟩ := Option.isSome_iff_exists.mp
    (by decide +kernel : (Lts.exec logStep (boot 512 512 true true, [])
      (loadOn 0 1 ++ [.run 0 ⟨.alloc, 256, 0, 0, 0⟩ 0, .restore 0])).isSome)
  have hin : decide (InRegion s log 1 ⟨.write, 7, 0, 256, 0⟩) = false :=
    Lts.exec_map (g := fun x => decide (InRegion x.1 x.2 1 ⟨.write, 7, 0, 256, 0⟩)) hs
      (by decide +kernel)
  have hst : (exec s.krnl 1 ⟨.write, 7, 0, 256, 0⟩ 0).toOption.map (·.2) = some 0 :=
    Lts.exec_map (g := fun x => (exec x.1.krnl 1 ⟨.write, 7, 0, 256, 0⟩ 0).toOption.map (·.2)) hs
      (by decide +kernel)
  refine ⟨s, log, Lts.reaches_of_exec hs,
    Lts.exec_map (g := fun x => x.1.cpu 0) hs (by decide +kernel), of_decide_eq_false hin, ?_⟩
  rintro ⟨k', hexec, _⟩
  rw [hexec] at hst
  have hzero : (-1 : Int) = 0 := Option.some.inj hst
  exact absurd hzero (by decide)

end SimpleOs
