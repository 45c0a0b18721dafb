/-
# `SimpleOs.Overlap` — what `validate_overlap_vm_area` lets through

The function walks over the areas of a process and asks `OVERLAP` about each, but
`OVERLAP` is the constant 0, and it is asked about the extent of the area that
grows, not about the proposed range.  So no range is ever refused for an overlap.

Nothing keeps `inc_vma_limit` from running into another area, then, but where the
areas are: it commits only addresses from the break on, so none is hit if every
other area ends at the break or before (`NoneBehind`).  If one does not, some
increment reaches it.

No process has a second area, so in every state the machine reaches there is
nothing to run into (`single_area_clear`).
-/
import Mathlib.Order.CompletePartialOrder
import Mathlib.Order.Interval.Set.Disjoint
import SimpleOs.Reach

namespace SimpleOs

/-- The range shares no address with any of the areas. -/
def Clear (vmastart vmaend : Addr) (vmas : List VmArea) : Prop :=
  ∀ vma ∈ vmas, Disjoint (Set.Ico vmastart.toNat vmaend.toNat)
    (Set.Ico vma.vmStart.toNat vma.vmEnd.toNat)

/-- `incnumpage` in `inc_vma_limit`. -/
def incnumpage (incSz : Addr) : Int := ((pagingPageAlignsz incSz / 256).setWidth 32).toInt

/-- What `inc_vma_limit` adds to area `vmaid` shares no address with another area. -/
def StaysClear (k : Krnl) (p : Pid) (mm : Mm) (vmaid : Int) (incSz : Addr) : Prop :=
  ∀ k' cur mm' cur', incVmaLimit k p vmaid incSz = .ok (k', 0) →
    mm.getVmaByNum vmaid = some cur → k'.ownMm p = some mm' →
    mm'.getVmaByNum vmaid = some cur' → Clear cur.sbrk cur'.sbrk (mm.others vmaid)

/-- Every other area that holds an address ends at the break of area `vmaid` or before. -/
def NoneBehind (mm : Mm) (vmaid : Int) : Prop :=
  ∀ cur, mm.getVmaByNum vmaid = some cur →
    ∀ vma ∈ mm.others vmaid, vma.vmStart < vma.vmEnd → vma.vmEnd ≤ cur.sbrk

/-! ## Areas -/

section Areas
variable {mm : Mm} {num : Addr} {vmas : List VmArea} {cur vma : VmArea}

/-- The area the walk finds has the number it looks for. -/
theorem findVma_vmId : ∀ {vmas : List VmArea}, findVma num vmas = some cur → cur.vmId = num := by
  intro vmas
  induction vmas with
  | nil => intro h; cases h
  | cons v vmas ih =>
      intro h
      rw [findVma] at h
      split at h
      next => exact ih h
      next =>
        split at h
        next hid => cases h; exact hid
        next => cases h

/-- Writing the area the walk finds. -/
theorem findVma_putVma (hid : vma.vmId = num) : ∀ {vmas : List VmArea},
    findVma num vmas = some cur → findVma num (putVma num vma vmas) = some vma := by
  intro vmas
  induction vmas with
  | nil => intro h; exact nomatch h
  | cons v vmas ih =>
      intro h
      rw [findVma] at h
      rw [putVma]
      split at h
      next hlt =>
        rw [if_pos hlt, findVma, if_pos hlt]
        exact ih h
      next hge =>
        rw [if_neg hge, findVma, if_neg (by rw [hid]; exact BitVec.lt_irrefl num), if_pos hid]

theorem clear_iff {vmastart vmaend : Addr} : Clear vmastart vmaend vmas ↔ ∀ vma ∈ vmas,
    min vmaend.toNat vma.vmEnd.toNat ≤ max vmastart.toNat vma.vmStart.toNat :=
  forall₂_congr fun _ _ => Set.Ico_disjoint_Ico

instance (vmastart vmaend : Addr) (vmas : List VmArea) : Decidable (Clear vmastart vmaend vmas) :=
  decidable_of_iff _ clear_iff.symm

end Areas

/-! ## The check -/

/-- Whatever the range, the answer is 0 where the area is found. -/
theorem validate_eq {mm : Mm} {vmaid : Int} {vmastart vmaend : Addr} (hlt : vmastart < vmaend) :
    validateOverlapVmArea mm vmaid vmastart vmaend =
      if (mm.getVmaByNum vmaid).isSome then 0 else -1 := by
  rw [validateOverlapVmArea, if_neg (BitVec.not_le.mpr hlt)]
  cases hcur : mm.getVmaByNum vmaid with
  | none => split <;> rfl
  | some cur =>
      have hne : mm.mmap.isEmpty = false := by
        cases hmm : mm.mmap with
        | nil => rw [Mm.getVmaByNum, hmm] at hcur; cases hcur
        | cons v vmas => rfl
      rw [hne, if_neg Bool.false_ne_true]
      simp [overlap]

theorem validate_iff {mm : Mm} {vmaid : Int} {vmastart vmaend : Addr} (hlt : vmastart < vmaend) :
    validateOverlapVmArea mm vmaid vmastart vmaend = 0 ↔ (mm.getVmaByNum vmaid).isSome := by
  rw [validate_eq hlt]
  split
  next h => exact iff_of_true rfl h
  next h => exact iff_of_false (by decide) h

/-! ## Growing one area of several -/

section Grow
variable {k : Krnl} {p : Pid} {mm mm' : Mm} {vmaid : Int} {incSz : Addr} {cur : VmArea}

/-- The break that is committed is the end of the range `vm_map_ram` returns. -/
theorem incVmaLimit_commits {mram : Memphy} {area : VmRg} {ret : Addr}
    (hmm : k.ownMm p = some mm) (hcur : mm.getVmaByNum vmaid = some cur)
    (hlt : cur.sbrk < cur.sbrk + incSz)
    (hmap : vmMapRam k.mram mm cur.sbrk (incnumpage incSz)
      { rgStart := cur.sbrk, rgEnd := cur.sbrk + incSz } = .ok (mram, mm', area, ret))
    (hareas : mm'.mmap = mm.mmap) :
    ∃ k' mm₁, incVmaLimit k p vmaid incSz = .ok (k', 0) ∧ k'.ownMm p = some mm₁ ∧
      mm₁.getVmaByNum vmaid = some { cur with vmEnd := area.rgEnd, sbrk := area.rgEnd } := by
  have hval : validateOverlapVmArea mm vmaid cur.sbrk (cur.sbrk + incSz) = 0 := by
    rw [validate_iff hlt, hcur]
    rfl
  -- the status of `vm_map_ram` is compared with 0 as an unsigned number
  have hneg : ¬ ret < 0 := BitVec.not_lt_zero
  let cur' : VmArea := { cur with vmEnd := area.rgEnd, sbrk := area.rgEnd }
  refine ⟨(Krnl.setMm { k with mram } p mm').setMm p (mm'.setVma vmaid cur'),
    mm'.setVma vmaid cur', ?_, Krnl.setMm_self _ _ _, ?_⟩
  · rw [incnumpage] at hmap
    rw [incVmaLimit, hmm]
    simp only [getVmAreaNodeAtBrk, hcur, hval, Int.lt_irrefl, if_false]
    rw [hmap]
    simp only [bind, Except.bind, if_neg hneg]
    rfl
  · have hid : cur.vmId = BitVec.ofInt 64 vmaid := findVma_vmId hcur
    have hid' : cur'.vmId = BitVec.ofInt 64 vmaid := hid
    rw [Mm.getVmaByNum, Mm.setVma, hareas, findVma_putVma hid' hcur]

/-- Without a free frame the break moves by the increment itself, if that asks for a page. -/
theorem incVmaLimit_starved (hmm : k.ownMm p = some mm) (hcur : mm.getVmaByNum vmaid = some cur)
    (hlt : cur.sbrk < cur.sbrk + incSz) (hpage : 0 < incnumpage incSz)
    (hfree : k.mram.freeFpList = { fpns := [], closed := true }) :
    ∃ k' mm₁ cur', incVmaLimit k p vmaid incSz = .ok (k', 0) ∧ k'.ownMm p = some mm₁ ∧
      mm₁.getVmaByNum vmaid = some cur' ∧ cur'.sbrk = cur.sbrk + incSz := by
  obtain ⟨n, hn⟩ := Int.eq_ofNat_of_zero_le (Int.le_of_lt hpage)
  have hpos : k.mram.freeFpList.fpns.length < n := by
    rw [hfree]
    show 0 < n
    omega
  have hmap : vmMapRam k.mram mm cur.sbrk n { rgStart := cur.sbrk, rgEnd := cur.sbrk + incSz } =
      .ok (_, mm, _, -1) := vmMapRam_starved hpos (by rw [hfree])
  rw [← hn] at hmap
  obtain ⟨k', mm₁, hinc, hmm₁, hcur₁⟩ := incVmaLimit_commits hmm hcur hlt hmap rfl
  exact ⟨k', mm₁, _, hinc, hmm₁, hcur₁, rfl⟩

/-- The page count of an increment of one byte more than a multiple of 2^40 is cut to 1. -/
theorem incnumpage_one (q : Nat) : incnumpage (BitVec.ofNat 64 (2 ^ 40 * q + 1)) = 1 := by
  have h256 : (256 : Addr).toNat = 256 := rfl
  have h1 : (1 : Addr).toNat = 1 := rfl
  have hlow : ((pagingPageAlignsz (BitVec.ofNat 64 (2 ^ 40 * q + 1)) / 256).setWidth 32).toNat
      = 1 := by
    rw [BitVec.toNat_setWidth, BitVec.toNat_udiv, pagingPageAlignsz, BitVec.toNat_mul,
      BitVec.toNat_udiv, BitVec.toNat_sub, BitVec.toNat_add, BitVec.toNat_ofNat, h256, h1]
    omega
  rw [incnumpage, BitVec.toInt_eq_toNat_cond, hlow]
  rfl

/-- From the break on there is nothing to hit. -/
theorem NoneBehind.staysClear (h : NoneBehind mm vmaid) : StaysClear k p mm vmaid incSz := by
  intro k' cur mm' cur' _ hcur _ _ vma hvma
  rw [Set.Ico_disjoint_Ico]
  by_cases hlt : vma.vmStart < vma.vmEnd
  · have hle := BitVec.le_def.mp (h cur hcur vma hvma hlt)
    omega
  · have hle := BitVec.le_def.mp (BitVec.not_lt.mp hlt)
    omega

/-- An area behind the break is hit by some increment. -/
theorem exists_hit {vma : VmArea} (hmm : k.ownMm p = some mm)
    (hcur : mm.getVmaByNum vmaid = some cur)
    (hfree : k.mram.freeFpList = { fpns := [], closed := true }) (hvma : vma ∈ mm.others vmaid)
    (hlt : vma.vmStart < vma.vmEnd) (hbehind : cur.sbrk < vma.vmEnd)
    (htop : vma.vmEnd.toNat ≤ 2 ^ 64 - 2 ^ 40) :
    ∃ incSz, ¬ StaysClear k p mm vmaid incSz := by
  rw [BitVec.lt_def] at hlt hbehind
  -- the first address of the area from the break on, and a break beyond it
  obtain ⟨d, hd⟩ : ∃ d, cur.sbrk.toNat + d = max cur.sbrk.toNat vma.vmStart.toNat :=
    ⟨_, Nat.add_sub_of_le (Nat.le_max_left ..)⟩
  obtain ⟨q, hq⟩ : ∃ q, q = (d + (2 ^ 40 - 1)) / 2 ^ 40 := ⟨_, rfl⟩
  have hsum : (cur.sbrk + BitVec.ofNat 64 (2 ^ 40 * q + 1)).toNat =
      cur.sbrk.toNat + (2 ^ 40 * q + 1) := by
    rw [BitVec.toNat_add, BitVec.toNat_ofNat]
    omega
  refine ⟨BitVec.ofNat 64 (2 ^ 40 * q + 1), fun hclear => ?_⟩
  have hpage : 0 < incnumpage (BitVec.ofNat 64 (2 ^ 40 * q + 1)) := by
    rw [incnumpage_one]
    decide
  obtain ⟨k', mm₁, cur', hinc, hmm₁, hcur₁, hbrk⟩ :=
    incVmaLimit_starved hmm hcur (by rw [BitVec.lt_def, hsum]; omega) hpage hfree
  have hdis := hclear k' cur mm₁ cur' hinc hcur hmm₁ hcur₁ vma hvma
  rw [Set.Ico_disjoint_Ico, hbrk, hsum] at hdis
  omega

end Grow

/-- A process with an area of 256 bytes at address 0 and one of 1024 bytes at 1024. -/
def twoAreas : Mm :=
  { initMm (fun _ => { rgStart := 0, rgEnd := 0 }) with
    mmap := [{ vmId := 0, vmStart := 0, vmEnd := 256, sbrk := 256, vmFreergList := [] },
      { vmId := 1, vmStart := 1024, vmEnd := 2048, sbrk := 2048, vmFreergList := [] }] }

/-- A RAM of eight frames and process 0 with these areas. -/
def twoAreasKrnl : Krnl := (boot 2048 512 true true).krnl.setMm 0 twoAreas

/-- In every state of the machine a process has one area, and nothing to run into. -/
theorem single_area_clear (memramsz memswpsz : Addr) (ramJunk swpJunk : Bool) (es : List Event)
    (s : Sys) (h : Lts.Reaches step (boot memramsz memswpsz ramJunk swpJunk) es s)
    (p : Pid) (mm : Mm) (hmm : s.krnl.ownMm p = some mm) (incSz : Addr) :
    mm.others 0 = [] ∧ StaysClear s.krnl p mm 0 incSz := by
  have hs := ((reach_wf h).krnl.own p mm hmm).single
  have hnone : mm.others 0 = [] := by
    rw [Mm.others, hs.mmap_eq, dropVma, hs.vmId]
    rfl
  refine ⟨hnone, NoneBehind.staysClear fun cur _ vma hvma => ?_⟩
  rw [hnone] at hvma
  exact absurd hvma List.not_mem_nil

end SimpleOs
