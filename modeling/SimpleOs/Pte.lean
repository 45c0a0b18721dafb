/-
# `SimpleOs.Pte` — the page table entry (`mm.h`, and the bodies of `mm64.c`'s setters)

An entry is a 64-bit slot of the last-level table; `pte_get_entry` returns it
as a `uint32_t`, so what the fault handler and the codec see is its low half.

    bit 31     present — set for resident AND for swapped entries
    bit 30     swapped
    bits 5-25  swap offset (swapped entries)
    bits 0-12  frame number (resident entries)

The two layouts overlap, and the frame field has 13 bits whatever the size of
the RAM device.  The lemmas say exactly what each setter leaves for the readers.
-/
import SimpleOs.Basic
import SimpleOs.Lib.BitField

namespace SimpleOs

open BitField

/-! ## Masks and readers -/

/-- `PAGING_PTE_PRESENT_MASK`. -/
def pagingPtePresentMask : BitVec 32 := 1#32 <<< 31

/-- `PAGING_PTE_SWAPPED_MASK`. -/
def pagingPteSwappedMask : BitVec 32 := 1#32 <<< 30

/-- `PAGING_PTE_FPN_MASK`. -/
def pagingPteFpnMask : BitVec 32 := genmask 32 12 0

/-- `PAGING_PTE_SWPTYP_MASK`. -/
def pagingPteSwptypMask : BitVec 32 := genmask 32 4 0

/-- `PAGING_PTE_SWPOFF_MASK`. -/
def pagingPteSwpoffMask : BitVec 32 := genmask 32 25 5

/-- `PAGING_PAGE_PRESENT`. -/
def pagingPagePresent (pte : BitVec 32) : Bool := pte &&& pagingPtePresentMask != 0

/-- `PAGING_FPN`. -/
def pagingFpn (pte : BitVec 32) : Nat := ((pte &&& pagingPteFpnMask) >>> 0).toNat

/-- `PAGING_SWP`. -/
def pagingSwp (pte : BitVec 32) : Nat := ((pte &&& pagingPteSwpoffMask) >>> 5).toNat

/-! ## Setters

`SETBIT`, `CLRBIT` and `SETVAL` combine a 64-bit slot with a 32-bit mask; the
complement is taken in 32 bits and then widened. -/

/-- `SETBIT`. -/
def setbit (v : BitVec 64) (mask : BitVec 32) : BitVec 64 := v ||| mask.setWidth 64

/-- `CLRBIT`. -/
def clrbit (v : BitVec 64) (mask : BitVec 32) : BitVec 64 := v &&& (~~~mask).setWidth 64

/-- `SETVAL`. -/
def setval (v value : BitVec 64) (mask : BitVec 32) (offst : Nat) : BitVec 64 :=
  (v &&& (~~~mask).setWidth 64) ||| ((value <<< offst) &&& mask.setWidth 64)

/-- What `pte_set_fpn` makes of the slot. -/
def fpnEntry (pte : BitVec 64) (fpn : Nat) : BitVec 64 :=
  let pte := setbit pte pagingPtePresentMask
  let pte := clrbit pte pagingPteSwappedMask
  setval pte (BitVec.ofNat 64 fpn) pagingPteFpnMask 0

/-- What `pte_set_swap` makes of the slot. -/
def swapEntry (pte : BitVec 64) (swptyp swpoff : Nat) : BitVec 64 :=
  let pte := setbit pte pagingPtePresentMask
  let pte := setbit pte pagingPteSwappedMask
  let pte := setval pte (BitVec.ofNat 64 swptyp) pagingPteSwptypMask 0
  setval pte (BitVec.ofNat 64 swpoff) pagingPteSwpoffMask 5

/-! ## The three states of an entry -/

/-- Present and not swapped. -/
def Resident (pte : BitVec 32) : Prop := pte.getLsbD 31 = true ∧ pte.getLsbD 30 = false

/-- Present and swapped. -/
def Swapped (pte : BitVec 32) : Prop := pte.getLsbD 31 = true ∧ pte.getLsbD 30 = true

instance (pte : BitVec 32) : Decidable (Resident pte) :=
  inferInstanceAs (Decidable (_ ∧ _))

instance (pte : BitVec 32) : Decidable (Swapped pte) :=
  inferInstanceAs (Decidable (_ ∧ _))

theorem pagingPtePresentMask_eq : pagingPtePresentMask = genmask 32 31 31 := by decide

theorem pagingPteSwappedMask_eq : pagingPteSwappedMask = genmask 32 30 30 := by decide

/-- The fast-path test reads the present bit and nothing else. -/
theorem pagingPagePresent_eq (pte : BitVec 32) : pagingPagePresent pte = pte.getLsbD 31 := by
  have hbit : ∀ i, (pte &&& pagingPtePresentMask).getLsbD i =
      (pte.getLsbD i && (decide (31 ≤ i) && decide (i ≤ 31))) := by
    intro i
    rw [BitVec.getLsbD_and, pagingPtePresentMask_eq, getLsbD_genmask (by omega)]
  cases h : pte.getLsbD 31 with
  | true =>
      have hne : pte &&& pagingPtePresentMask ≠ 0 := by
        intro h0
        have h31 := hbit 31
        rw [h0, h] at h31
        simp at h31
      simpa [pagingPagePresent] using hne
  | false =>
      have h0 : pte &&& pagingPtePresentMask = 0 := by
        apply BitVec.eq_of_getLsbD_eq
        intro i _
        rw [hbit]
        by_cases hi : i = 31
        · subst hi
          rw [h, Bool.false_and]
          rfl
        · have : ¬ (31 ≤ i ∧ i ≤ 31) := by omega
          simp only [← Bool.decide_and, this]
          simp
      simp [pagingPagePresent, h0]

theorem not_resident_of_not_present {pte : BitVec 32} (h : pagingPagePresent pte = false) :
    ¬ Resident pte ∧ ¬ Swapped pte := by
  rw [pagingPagePresent_eq] at h
  exact ⟨fun hr => Bool.noConfusion (h.symm.trans hr.1),
    fun hs => Bool.noConfusion (h.symm.trans hs.1)⟩

theorem resident_or_swapped {pte : BitVec 32} (h : pagingPagePresent pte = true) :
    Resident pte ∨ Swapped pte := by
  rw [pagingPagePresent_eq] at h
  cases h' : pte.getLsbD 30 with
  | true => exact Or.inr ⟨h, h'⟩
  | false => exact Or.inl ⟨h, h'⟩

theorem Resident.present {pte : BitVec 32} (h : Resident pte) : pagingPagePresent pte = true := by
  rw [pagingPagePresent_eq]; exact h.1

theorem Swapped.present {pte : BitVec 32} (h : Swapped pte) : pagingPagePresent pte = true := by
  rw [pagingPagePresent_eq]; exact h.1

theorem Resident.not_swapped {pte : BitVec 32} (h : Resident pte) : ¬ Swapped pte :=
  fun hs => Bool.noConfusion (h.2.symm.trans hs.2)

theorem zero_not_present : pagingPagePresent 0 = false := by decide

theorem pagingFpn_lt (pte : BitVec 32) : pagingFpn pte < 2 ^ 13 := by
  show (getField pte 12 0).toNat < 2 ^ 13
  rw [toNat_getField (by omega)]
  exact Nat.mod_lt _ (by decide)

/-! ## The low half of a written slot -/

theorem lo_setbit (v : BitVec 64) (mask : BitVec 32) :
    (setbit v mask).setWidth 32 = v.setWidth 32 ||| mask := by
  simp [setbit, BitVec.setWidth_or]

theorem lo_clrbit (v : BitVec 64) (mask : BitVec 32) :
    (clrbit v mask).setWidth 32 = v.setWidth 32 &&& ~~~mask := by
  simp [clrbit, BitVec.setWidth_and]

theorem lo_setval (v x : BitVec 64) (h l : Nat) :
    (setval v x (genmask 32 h l) l).setWidth 32 =
      setField (v.setWidth 32) (x.setWidth 32) h l := by
  have hshift : (x <<< l).setWidth 32 = (x.setWidth 32) <<< l := by
    apply BitVec.eq_of_getLsbD_eq
    intro i hi
    simp only [BitVec.getLsbD_setWidth, BitVec.getLsbD_shiftLeft]
    by_cases hil : i < l
    · simp [hil]
    · simp [hil, hi, (by omega : i < 64), (by omega : i - l < 32)]
  simp [setval, setField, BitVec.setWidth_or, BitVec.setWidth_and, hshift]

section Fpn
variable (pte : BitVec 64) (fpn : Nat)

theorem lo_fpnEntry : (fpnEntry pte fpn).setWidth 32 =
    setField (((pte.setWidth 32) ||| genmask 32 31 31) &&& ~~~(genmask 32 30 30))
      ((BitVec.ofNat 64 fpn).setWidth 32) 12 0 := by
  rw [fpnEntry, pagingPteFpnMask, lo_setval, lo_clrbit, lo_setbit, pagingPtePresentMask_eq,
    pagingPteSwappedMask_eq]

theorem resident_fpnEntry : Resident ((fpnEntry pte fpn).setWidth 32) := by
  rw [lo_fpnEntry]
  constructor
  · rw [getLsbD_setField_of_not_mem (by omega) (by omega), getLsbD_clearBit (by omega),
      getLsbD_setBit (by omega)]
    simp
  · rw [getLsbD_setField_of_not_mem (by omega) (by omega), getLsbD_clearBit (by omega)]
    simp

/-- The frame field keeps 13 bits of the frame number. -/
theorem pagingFpn_fpnEntry : pagingFpn ((fpnEntry pte fpn).setWidth 32) = fpn % 2 ^ 13 := by
  rw [lo_fpnEntry]
  show (getField _ 12 0).toNat = _
  rw [toNat_getField_setField (by omega) (by omega)]
  simp only [BitVec.toNat_setWidth, BitVec.toNat_ofNat]
  omega

end Fpn

section Swap
variable (pte : BitVec 64) (swptyp swpoff : Nat)

theorem lo_swapEntry : (swapEntry pte swptyp swpoff).setWidth 32 =
    setField (setField (((pte.setWidth 32) ||| genmask 32 31 31) ||| genmask 32 30 30)
      ((BitVec.ofNat 64 swptyp).setWidth 32) 4 0) ((BitVec.ofNat 64 swpoff).setWidth 32) 25 5 := by
  rw [swapEntry, pagingPteSwptypMask, pagingPteSwpoffMask, lo_setval, lo_setval, lo_setbit,
    lo_setbit, pagingPtePresentMask_eq, pagingPteSwappedMask_eq]

theorem swapped_swapEntry : Swapped ((swapEntry pte swptyp swpoff).setWidth 32) := by
  rw [lo_swapEntry]
  constructor
  · rw [getLsbD_setField_of_not_mem (by omega) (by omega),
      getLsbD_setField_of_not_mem (by omega) (by omega), getLsbD_setBit (by omega),
      getLsbD_setBit (by omega)]
    simp
  · rw [getLsbD_setField_of_not_mem (by omega) (by omega),
      getLsbD_setField_of_not_mem (by omega) (by omega), getLsbD_setBit (by omega)]
    simp

/-- The swap field keeps 21 bits of the swap frame number. -/
theorem pagingSwp_swapEntry :
    pagingSwp ((swapEntry pte swptyp swpoff).setWidth 32) = swpoff % 2 ^ 21 := by
  rw [lo_swapEntry]
  show (getField _ 25 5).toNat = _
  rw [toNat_getField_setField (by omega) (by omega)]
  simp only [BitVec.toNat_setWidth, BitVec.toNat_ofNat]
  omega

end Swap

end SimpleOs
