/-
# `SimpleOs.Vm` — the kernel structure and the growth of an area (`mm-vm.c`)

`Krnl` is the one `struct krnl_t` of the machine together with what its
pointers reach: the queues of the scheduler, the RAM and the active swap
device, and `own_mm` of every process.  `mm` is the shared pointer that
`cpu_routine` and the loader store to; it names the process whose `own_mm` it
equals.

`incVmaLimit_eq` says everything `inc_vma_limit` can do: refuse, map every page
of the increment, or — since `vm_map_ram`'s -1 is an unsigned number — lose all
free frames, map nothing, and move the break all the same.
-/
import SimpleOs.Paging
import SimpleOs.Sched

namespace SimpleOs

/-- `struct krnl_t`. -/
structure Krnl where
  sched : Sched
  mm : Option Pid
  mram : Memphy
  activeMswp : Memphy
  ownMm : Pid → Option Mm

/-- `*proc->own_mm = mm`. -/
def Krnl.setMm (k : Krnl) (p : Pid) (mm : Mm) : Krnl :=
  { k with ownMm := Function.update k.ownMm p (some mm) }

section SetMm
variable (k : Krnl) (p : Pid) (mm mm' : Mm)

@[simp] theorem Krnl.setMm_self : (k.setMm p mm).ownMm p = some mm := by simp [Krnl.setMm]

@[simp] theorem Krnl.setMm_of_ne {q : Pid} (h : q ≠ p) : (k.setMm p mm).ownMm q = k.ownMm q := by
  simp [Krnl.setMm, h]

@[simp] theorem Krnl.setMm_sched : (k.setMm p mm).sched = k.sched := rfl

@[simp] theorem Krnl.setMm_mm : (k.setMm p mm).mm = k.mm := rfl

@[simp] theorem Krnl.setMm_mram : (k.setMm p mm).mram = k.mram := rfl

@[simp] theorem Krnl.setMm_activeMswp : (k.setMm p mm).activeMswp = k.activeMswp := rfl

@[simp] theorem Krnl.setMm_setMm : (k.setMm p mm).setMm p mm' = k.setMm p mm' := by
  simp [Krnl.setMm]

end SetMm

/-! ## `mm-vm.c` -/

/-- `__mm_swap_page`. -/
def mmSwapPage (k : Krnl) (vicfpn swpfpn : Nat) (junk : Byte) : Except Ub (Krnl × Int) := do
  let (mram, activeMswp) ← swapCpPage k.mram vicfpn k.activeMswp swpfpn junk
  pure ({ k with mram, activeMswp }, 0)

/-- `get_vm_area_node_at_brk`. -/
def getVmAreaNodeAtBrk (mm : Mm) (vmaid : Int) (size : Addr) : Option VmRg :=
  match mm.getVmaByNum vmaid with
  | none => none
  | some curVma => some { rgStart := curVma.sbrk, rgEnd := curVma.sbrk + size }

/-- `OVERLAP`, a macro that is the constant 0. -/
def overlap (_x1 _x2 _y1 _y2 : Addr) : Bool := false

/-- `validate_overlap_vm_area`. -/
def validateOverlapVmArea (mm : Mm) (vmaid : Int) (vmastart vmaend : Addr) : Int :=
  if vmastart ≥ vmaend then -1
  else if mm.mmap.isEmpty then -1
  else
    match mm.getVmaByNum vmaid with
    | none => -1
    | some curArea =>
        if (mm.others vmaid).any (fun vma =>
          overlap curArea.vmStart curArea.vmEnd vma.vmStart vma.vmEnd) then -1 else 0

/-- `PAGING_PAGE_ALIGNSZ`. -/
def pagingPageAlignsz (sz : Addr) : Addr := (sz + 256 - 1) / 256 * 256

/-- `inc_vma_limit`. -/
def incVmaLimit (k : Krnl) (caller : Pid) (vmaid : Int) (incSz : Addr) :
    Except Ub (Krnl × Int) :=
  match k.ownMm caller with
  | none => .ok (k, -1)
  | some mm =>
      let incAmt := pagingPageAlignsz incSz
      let incnumpage := ((incAmt / 256).setWidth 32).toInt
      match getVmAreaNodeAtBrk mm vmaid incSz, mm.getVmaByNum vmaid with
      | some area, some curVma =>
          if validateOverlapVmArea mm vmaid area.rgStart area.rgEnd < 0 then .ok (k, -1)
          else do
            let (mram, mm, area, ret) ← vmMapRam k.mram mm area.rgStart incnumpage area
            let k := { k with mram }.setMm caller mm
            if ret < 0 then pure (k, -1)
            else
              let curVma := { curVma with vmEnd := area.rgEnd, sbrk := area.rgEnd }
              pure (k.setMm caller (mm.setVma vmaid curVma), 0)
      | _, _ => .ok (k, -1)

/-! ## What growing an area does -/

/-- The pages an increment of `n` bytes asks for. -/
def pagesFor (n : Nat) : Nat := (n + 255) / 256

/-- `fs` taken off the RAM device, `mapped` of them mapped at the break, the break moved. -/
def Krnl.moveBrk (k : Krnl) (p : Pid) (mm : Mm) (fs rest mapped : List Nat) (brk : Addr) : Krnl :=
  { k with mram := k.mram.takeAll fs rest }.setMm p
    ((mm.mapFrames (mm.sbrk.toNat / 256) mapped).withVma { mm.vma with vmEnd := brk, sbrk := brk })

/-- The pages of the increment are mapped to the first free frames. -/
def Krnl.grow (k : Krnl) (p : Pid) (mm : Mm) (n : Nat) : Krnl :=
  k.moveBrk p mm (k.mram.freeFpList.fpns.take n) (k.mram.freeFpList.fpns.drop n)
    (k.mram.freeFpList.fpns.take n) (mm.sbrk + BitVec.ofNat 64 (n * 256))

/-- Every free frame is lost and the break moves by the unrounded increment. -/
def Krnl.starve (k : Krnl) (p : Pid) (mm : Mm) (incSz : Addr) : Krnl :=
  k.moveBrk p mm k.mram.freeFpList.fpns [] [] (mm.sbrk + incSz)

theorem toNat_pagingPageAlignsz {incSz : Addr} (h : incSz.toNat < 2 ^ 32) :
    (pagingPageAlignsz incSz).toNat = pagesFor incSz.toNat * 256 := by
  have h256 : (256 : Addr).toNat = 256 := rfl
  have h1 : (1 : Addr).toNat = 1 := rfl
  have hsum : (incSz + 256 - 1).toNat = incSz.toNat + 255 := by
    rw [BitVec.toNat_sub, BitVec.toNat_add, h256, h1]
    omega
  rw [pagingPageAlignsz, BitVec.toNat_mul, BitVec.toNat_udiv, hsum, h256, pagesFor]
  omega

theorem incnumpage_eq {incSz : Addr} (h : incSz.toNat < 2 ^ 32) :
    ((pagingPageAlignsz incSz / 256).setWidth 32).toInt = (pagesFor incSz.toNat : Int) := by
  have hamt : (pagingPageAlignsz incSz / 256).toNat = pagesFor incSz.toNat := by
    rw [BitVec.toNat_udiv, toNat_pagingPageAlignsz h]
    exact Nat.mul_div_cancel _ (by decide)
  have hlow : ((pagingPageAlignsz incSz / 256).setWidth 32).toNat = pagesFor incSz.toNat := by
    rw [BitVec.toNat_setWidth, hamt]
    simp only [pagesFor]
    omega
  rw [BitVec.toInt_eq_toNat_cond, hlow, if_pos]
  simp only [pagesFor]
  omega

/-- `inc_vma_limit` on a process with its one area. -/
theorem incVmaLimit_eq {k : Krnl} {p : Pid} {mm : Mm} {vmaid : Int} {incSz : Addr}
    (hmm : k.ownMm p = some mm) (hs : mm.Single) (hsz : incSz.toNat < 2 ^ 32) :
    incVmaLimit k p vmaid incSz =
      if BitVec.ofInt 64 vmaid ≠ 0 ∨ mm.sbrk ≥ mm.sbrk + incSz then .ok (k, -1)
      else if pagesFor incSz.toNat ≤ k.mram.freeFpList.fpns.length then
        if pagesFor incSz.toNat < 2 ^ 23 then .ok (k.grow p mm (pagesFor incSz.toNat), 0)
        else .error .intOverflow
      else if k.mram.freeFpList.closed then .ok (k.starve p mm incSz, 0)
      else .error .wildPointer := by
  rw [incVmaLimit, hmm]
  simp only [getVmAreaNodeAtBrk, hs.getVmaByNum]
  by_cases hid : BitVec.ofInt 64 vmaid = 0
  · by_cases hge : mm.sbrk ≥ mm.sbrk + incSz
    · have hval : validateOverlapVmArea mm vmaid mm.vma.sbrk (mm.vma.sbrk + incSz) = -1 :=
        if_pos hge
      simp [hid, hge, hval]
    · have hval : validateOverlapVmArea mm vmaid mm.vma.sbrk (mm.vma.sbrk + incSz) = 0 := by
        have hge' : ¬ mm.vma.sbrk ≥ mm.vma.sbrk + incSz := hge
        rw [validateOverlapVmArea, if_neg hge', hs.getVmaByNum, if_pos hid, hs.mmap_eq]
        simp [overlap]
      -- `ret < 0` compares unsigned numbers, so the last check never refuses
      have hneg : ∀ x : Addr, ¬ x < 0 := fun x => BitVec.not_lt_zero
      have hset : ∀ (mm' : Mm) (vma : VmArea), mm'.mmap = mm.mmap →
          mm'.setVma vmaid vma = mm'.withVma vma := by
        intro mm' vma hm
        have h0 : BitVec.ofInt 64 vmaid = BitVec.ofInt 64 0 := hid
        rw [Mm.setVma, h0, Mm.withVma, hm, hs.mmap_eq, putVma, hs.vmId]
        rfl
      simp only [hid, hval, incnumpage_eq hsz, ne_eq, not_true_eq_false, hge, or_self, if_true,
        if_false, Int.lt_irrefl]
      by_cases hlen : pagesFor incSz.toNat ≤ k.mram.freeFpList.fpns.length
      · rw [if_pos hlen]
        by_cases hfit : pagesFor incSz.toNat < 2 ^ 23
        · rw [vmMapRam_enough hlen hfit, if_pos hfit]
          simp only [bind, Except.bind, hneg, if_false, Krnl.setMm_setMm]
          rw [hset _ _ (Mm.mapFrames_mmap _ _ _)]
          rfl
        · rw [vmMapRam_overflow hlen (Nat.le_of_not_lt hfit), if_neg hfit]
          rfl
      · rw [if_neg hlen]
        cases hc : k.mram.freeFpList.closed with
        | true =>
            rw [vmMapRam_starved (by omega) hc]
            simp only [bind, Except.bind, hneg, if_false, Krnl.setMm_setMm]
            rw [hset _ _ rfl]
            rfl
        | false =>
            rw [vmMapRam, Int.toNat_natCast, allocPagesRange_open (by omega) hc]
            rfl
  · rw [if_pos (Or.inl hid)]
    simp only [if_neg hid]

end SimpleOs
