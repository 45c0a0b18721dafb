/-
# `SimpleOs.Growth` — when growing an area is atomic

`inc_vma_limit` means to give up with -1 and no trace when it cannot complete.
Of the three reasons two are handled: a missing area and a refused range return
before anything is touched.  The third, too few free frames, is found after the
frames were taken, and `vm_map_ram` reports it as -1 in an unsigned type, which
the test `< 0` never sees: no call whose range was accepted returns -1.

The increment is any 64-bit number here.  From 2^39 bytes on the page count no
longer fits the `int` it is kept in, but no RAM has that many frames.
-/
import SimpleOs.Reach

namespace SimpleOs

/-- The area exists and the new range is accepted. -/
def Accepts (mm : Mm) (vmaid : Int) (incSz : Addr) : Prop :=
  ∃ area, getVmAreaNodeAtBrk mm vmaid incSz = some area ∧
    ¬ validateOverlapVmArea mm vmaid area.rgStart area.rgEnd < 0

/-- The free frames, as a set, and everything growth concerns in the process are as before. -/
structure Untouched (k k' : Krnl) (p : Pid) (mm : Mm) : Prop where
  free : ∀ f, f ∈ k'.mram.freeFpList.fpns ↔ f ∈ k.mram.freeFpList.fpns
  own : ∃ mm', k'.ownMm p = some mm' ∧ mm'.sbrk = mm.sbrk ∧ mm'.vma.vmEnd = mm.vma.vmEnd ∧
    (∀ pgn, mm'.pte pgn = mm.pte pgn) ∧ mm'.fifoPgn = mm.fifoPgn

/-- Every page of the increment is mapped, and the area ends after the last one. -/
def GrownBy (k' : Krnl) (p : Pid) (mm : Mm) (incSz : Addr) : Prop :=
  ∃ mm', k'.ownMm p = some mm' ∧
    (∀ i < pagesFor incSz.toNat, Resident (mm'.pte (mm.sbrk.toNat / 256 + i))) ∧
    mm'.vma.vmEnd = mm'.sbrk ∧
    mm'.sbrk = mm.sbrk + BitVec.ofNat 64 (pagesFor incSz.toNat * 256)

/-- Growing either completes or fails with -1 and leaves no trace. -/
def GrowsAtomically (k : Krnl) (p : Pid) (mm : Mm) (vmaid : Int) (incSz : Addr) : Prop :=
  ∃ k' st, incVmaLimit k p vmaid incSz = .ok (k', st) ∧
    (¬ (Accepts mm vmaid incSz ∧ pagesFor incSz.toNat ≤ k.mram.freeFpList.fpns.length) →
      st = -1 ∧ Untouched k k' p mm) ∧
    (st = 0 → GrownBy k' p mm incSz)

section Growth
variable {k k' : Krnl} {p : Pid} {mm : Mm} {vmaid : Int} {incSz : Addr} {st : Int}

theorem Untouched.refl (hmm : k.ownMm p = some mm) : Untouched k k p mm :=
  ⟨fun _ => Iff.rfl, mm, hmm, rfl, rfl, fun _ => rfl, rfl⟩

/-- A call that is not accepted returns before it touches anything. -/
theorem incVmaLimit_rejected (hmm : k.ownMm p = some mm) (h : ¬ Accepts mm vmaid incSz) :
    incVmaLimit k p vmaid incSz = .ok (k, -1) := by
  rw [incVmaLimit, hmm]
  simp only
  split
  next area curVma harea _ =>
    have hval : validateOverlapVmArea mm vmaid area.rgStart area.rgEnd < 0 := by
      by_contra hge
      exact h ⟨area, harea, hge⟩
    rw [if_pos hval]
  next => rfl

/-- A call that is accepted does not return -1. -/
theorem incVmaLimit_accepted (hmm : k.ownMm p = some mm) (ha : Accepts mm vmaid incSz)
    (h : incVmaLimit k p vmaid incSz = .ok (k', st)) : st = 0 := by
  obtain ⟨area, harea, hval⟩ := ha
  have hvma : ∃ curVma, mm.getVmaByNum vmaid = some curVma := by
    cases hv : mm.getVmaByNum vmaid with
    | none => rw [getVmAreaNodeAtBrk, hv] at harea; cases harea
    | some curVma => exact ⟨curVma, rfl⟩
  obtain ⟨curVma, hcur⟩ := hvma
  rw [incVmaLimit, hmm] at h
  simp only [harea, hcur, if_neg hval, bind_ok] at h
  obtain ⟨⟨_, _, _, ret⟩, _, h⟩ := h
  -- the status is an unsigned number
  have hret : ¬ ret < 0 := BitVec.not_lt_zero
  simp only [if_neg hret] at h
  cases h
  rfl

/-- With enough frames the increment fits the types it passes through, and every page is mapped. -/
theorem growsAtomically_enough (hw : k.Wf) (hmm : k.ownMm p = some mm)
    (ha : Accepts mm vmaid incSz)
    (hn : pagesFor incSz.toNat ≤ k.mram.freeFpList.fpns.length) :
    GrowsAtomically k p mm vmaid incSz := by
  have hs : mm.Single := (hw.own p mm hmm).single
  have hsz : incSz.toNat < 2 ^ 32 := by
    have hlen := hw.ramLen
    have hnum := hw.ram.numfp_lt
    simp only [pagesFor] at hn
    omega
  have heq : incVmaLimit k p vmaid incSz = _ := incVmaLimit_eq hmm hs hsz
  have hacc : ¬ (BitVec.ofInt 64 vmaid ≠ 0 ∨ mm.sbrk ≥ mm.sbrk + incSz) := by
    intro hbad
    rw [if_pos hbad] at heq
    exact absurd (incVmaLimit_accepted hmm ha heq) (by decide)
  rw [if_neg hacc, if_pos hn, if_pos (Nat.lt_of_le_of_lt hn hw.free_lt)] at heq
  refine ⟨_, _, heq, fun hno => absurd ⟨ha, hn⟩ hno, fun _ => ?_⟩
  refine ⟨_, Krnl.setMm_self _ _ _, fun i hi => ?_, rfl, rfl⟩
  refine Mm.mapFrames_resident _ mm _ _ (Or.inr ⟨i, ?_, PageTable.SamePage.refl _⟩)
  rw [List.length_take, Nat.min_eq_left hn]
  exact hi

end Growth

/-- Growing is atomic exactly when the call fails for one of the reasons that are checked first,
or finds the frames it needs. -/
theorem growth_atomic (memramsz memswpsz : Addr) (ramJunk swpJunk : Bool) (es : List Event)
    (s : Sys) (h : Lts.Reaches step (boot memramsz memswpsz ramJunk swpJunk) es s)
    (p : Pid) (mm : Mm) (hmm : s.krnl.ownMm p = some mm) (vmaid : Int) (incSz : Addr) :
    GrowsAtomically s.krnl p mm vmaid incSz ↔
      ¬ Accepts mm vmaid incSz ∨ pagesFor incSz.toNat ≤ s.krnl.mram.freeFpList.fpns.length := by
  constructor
  · rintro ⟨k', st, hinc, hfail, -⟩
    by_contra hno
    obtain ⟨ha, hn⟩ := not_or.mp hno
    have hst : st = -1 := (hfail fun hc => hn hc.2).1
    have hzero : st = 0 := incVmaLimit_accepted hmm (not_not.mp ha) hinc
    rw [hst] at hzero
    exact absurd hzero (by decide)
  · intro hcond
    by_cases ha : Accepts mm vmaid incSz
    · exact growsAtomically_enough (reach_wf h).krnl hmm ha (hcond.resolve_left (not_not.mpr ha))
    · exact ⟨s.krnl, -1, incVmaLimit_rejected hmm ha, fun _ => ⟨rfl, .refl hmm⟩,
        fun hst => absurd hst (by decide)⟩

/-- One page of two free ones. -/
theorem growth_atomic_one : ∃ s mm,
    Lts.Reaches step (boot 512 512 true true) (loadOn 0 1) s ∧ s.krnl.ownMm 1 = some mm ∧
    GrowsAtomically s.krnl 1 mm 0 200 := by
  obtain ⟨s, hs⟩ := Option.isSome_iff_exists.mp
    (by decide +kernel : (Lts.exec step (boot 512 512 true true) (loadOn 0 1)).isSome)
  have hreach := Lts.reaches_of_exec hs
  have hown : (s.krnl.ownMm 1).isSome = true :=
    Lts.exec_map (g := fun s => (s.krnl.ownMm 1).isSome) hs (by decide +kernel)
  have hlen : s.krnl.mram.freeFpList.fpns.length = 2 :=
    Lts.exec_map (g := fun s => s.krnl.mram.freeFpList.fpns.length) hs (by decide +kernel)
  obtain ⟨mm, hmm⟩ := Option.isSome_iff_exists.mp hown
  refine ⟨s, mm, hreach, hmm, ?_⟩
  refine (growth_atomic 512 512 true true _ s hreach 1 mm hmm 0 200).mpr (Or.inr ?_)
  rw [hlen]
  decide

/-- Three pages requested from a RAM of two frames: the call does not return -1. -/
theorem growth_not_atomic : ∃ s mm,
    Lts.Reaches step (boot 512 512 true true) (loadOn 0 1) s ∧ s.krnl.ownMm 1 = some mm ∧
    ¬ GrowsAtomically s.krnl 1 mm 0 768 := by
  obtain ⟨s, hs⟩ := Option.isSome_iff_exists.mp
    (by decide +kernel : (Lts.exec step (boot 512 512 true true) (loadOn 0 1)).isSome)
  have hlen : s.krnl.mram.freeFpList.fpns.length = 2 :=
    Lts.exec_map (g := fun s => s.krnl.mram.freeFpList.fpns.length) hs (by decide +kernel)
  have hval : (s.krnl.ownMm 1).bind (fun mm => (getVmAreaNodeAtBrk mm 0 768).map
      (fun area => validateOverlapVmArea mm 0 area.rgStart area.rgEnd)) = some 0 :=
    Lts.exec_map (g := fun s => (s.krnl.ownMm 1).bind (fun mm =>
      (getVmAreaNodeAtBrk mm 0 768).map
        (fun area => validateOverlapVmArea mm 0 area.rgStart area.rgEnd))) hs (by decide +kernel)
  obtain ⟨mm, hmm, harea⟩ := Option.bind_eq_some_iff.mp hval
  obtain ⟨area, harea, hzero⟩ := Option.map_eq_some_iff.mp harea
  have ha : Accepts mm 0 768 := ⟨area, harea, by rw [hzero]; decide⟩
  refine ⟨s, mm, Lts.reaches_of_exec hs, hmm, ?_⟩
  rintro ⟨k', st, hinc, hfail, -⟩
  have hst : st = -1 := (hfail fun hc => absurd hc.2 (by rw [hlen]; decide)).1
  have hst' : st = 0 := incVmaLimit_accepted hmm ha hinc
  rw [hst] at hst'
  exact absurd hst' (by decide)

end SimpleOs
