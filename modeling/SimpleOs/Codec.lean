/-
# `SimpleOs.Codec` — what a page table entry remembers

`pte_set_fpn` and `pte_set_swap` overwrite the flags and the field they need and
leave the rest of the entry as it was.  After any number of them the last one
decides: its number can be read back as far as the field is wide, 13 bits for a
frame and 21 for a swap frame, whatever the size of the device is.

The flags say which of the two it was, but not to the test the fault handler
makes: `PAGING_PAGE_PRESENT` is set by both.
-/
import SimpleOs.Paging

namespace SimpleOs

open BitField

/-- A call that writes the entry of a page. -/
inductive PteUpdate
  | setFpn (fpn : Nat)
  | setSwap (swptyp swpoff : Nat)
  deriving DecidableEq, Repr

/-- The update made to page `pgn`. -/
def PteUpdate.apply (mm : Mm) (pgn : Nat) : PteUpdate → Mm
  | .setFpn fpn => pteSetFpn mm pgn fpn
  | .setSwap swptyp swpoff => pteSetSwap mm pgn swptyp swpoff

/-- A sequence of updates of one page, the last one `u`. -/
def updates (mm : Mm) (pgn : Nat) (us : List PteUpdate) (u : PteUpdate) : Mm :=
  u.apply (us.foldl (fun mm u => u.apply mm pgn) mm) pgn

/-- The swap type of an entry. -/
def pteSwptyp (pte : BitVec 32) : Nat := ((pte &&& pagingPteSwptypMask) >>> 0).toNat

/-- The entry decodes to what `u` stored. -/
def Decodes (pte : BitVec 32) : PteUpdate → Prop
  | .setFpn fpn => pagingFpn pte = fpn ∧ Resident pte
  | .setSwap swptyp swpoff => pagingSwp pte = swpoff ∧ Swapped pte ∧ pteSwptyp pte = swptyp

/-- The fault handler's test finds the page in RAM iff that is where it is. -/
def ToldApart (pte : BitVec 32) (u : PteUpdate) : Prop :=
  pagingPagePresent pte = true ↔ ∃ fpn, u = .setFpn fpn

/-- What is stored fits its field. -/
def PteUpdate.Fits : PteUpdate → Prop
  | .setFpn fpn => fpn < 2 ^ 13
  | .setSwap swptyp swpoff => swpoff < 2 ^ 21 ∧ swptyp < 32

/-- The entry holds a frame number that fits. -/
def PteUpdate.IsFrame : PteUpdate → Prop
  | .setFpn fpn => fpn < 2 ^ 13
  | .setSwap _ _ => False

instance (u : PteUpdate) : Decidable u.Fits := by
  cases u <;> unfold PteUpdate.Fits <;> infer_instance

section Update
variable (mm : Mm) (pgn : Nat)

theorem pteSwptyp_swapEntry (pte : BitVec 64) (swptyp swpoff : Nat) :
    pteSwptyp ((swapEntry pte swptyp swpoff).setWidth 32) = swptyp % 32 := by
  rw [lo_swapEntry]
  show (getField (setField _ _ 25 5) 4 0).toNat = _
  rw [getField_setField_below (by omega) (by omega) (by omega),
    toNat_getField_setField (by omega) (by omega)]
  simp only [BitVec.toNat_setWidth, BitVec.toNat_ofNat]
  omega

/-- The entry after a sequence of updates. -/
theorem pte_updates (us : List PteUpdate) (u : PteUpdate) :
    ∃ pte : BitVec 64, (updates mm pgn us u).pte pgn = match u with
      | .setFpn fpn => (fpnEntry pte fpn).setWidth 32
      | .setSwap swptyp swpoff => (swapEntry pte swptyp swpoff).setWidth 32 := by
  refine ⟨(us.foldl (fun mm u => u.apply mm pgn) mm).pgd.entry pgn, ?_⟩
  cases u with
  | setFpn fpn =>
      show (pteSetFpn _ pgn fpn).pte pgn = _
      rw [pte_pteSetFpn, if_pos (PageTable.SamePage.refl pgn)]
  | setSwap swptyp swpoff =>
      show (pteSetSwap _ pgn swptyp swpoff).pte pgn = _
      rw [pte_pteSetSwap, if_pos (PageTable.SamePage.refl pgn)]

/-- The last update can be read back iff it fits. -/
theorem decodes_updates (us : List PteUpdate) (u : PteUpdate) :
    Decodes ((updates mm pgn us u).pte pgn) u ↔ u.Fits := by
  obtain ⟨pte, hpte⟩ := pte_updates mm pgn us u
  rw [hpte]
  cases u with
  | setFpn fpn =>
      show _ = fpn ∧ _ ↔ fpn < 2 ^ 13
      rw [pagingFpn_fpnEntry]
      have hres := resident_fpnEntry pte fpn
      constructor
      · rintro ⟨hf, _⟩
        omega
      · intro hf
        exact ⟨Nat.mod_eq_of_lt hf, hres⟩
  | setSwap swptyp swpoff =>
      show _ = swpoff ∧ _ ∧ _ = swptyp ↔ swpoff < 2 ^ 21 ∧ swptyp < 32
      rw [pagingSwp_swapEntry, pteSwptyp_swapEntry]
      have hswp := swapped_swapEntry pte swptyp swpoff
      constructor
      · rintro ⟨ho, _, ht⟩
        omega
      · rintro ⟨ho, ht⟩
        exact ⟨Nat.mod_eq_of_lt ho, hswp, Nat.mod_eq_of_lt ht⟩

/-- Both updates set the bit the handler tests. -/
theorem present_updates (us : List PteUpdate) (u : PteUpdate) :
    pagingPagePresent ((updates mm pgn us u).pte pgn) = true := by
  obtain ⟨pte, hpte⟩ := pte_updates mm pgn us u
  rw [hpte]
  cases u with
  | setFpn fpn => exact (resident_fpnEntry pte fpn).present
  | setSwap swptyp swpoff => exact (swapped_swapEntry pte swptyp swpoff).present

theorem toldApart_updates (us : List PteUpdate) (u : PteUpdate) :
    ToldApart ((updates mm pgn us u).pte pgn) u ↔ ∃ fpn, u = .setFpn fpn :=
  ⟨fun h => h.mp (present_updates mm pgn us u),
    fun h => iff_of_true (present_updates mm pgn us u) h⟩

end Update

/-- The codec loses nothing exactly when the last update stored a frame number below 2^13.  The
entry alone can be decoded whenever its number fits. -/
theorem pte_codec (mm : Mm) (pgn : Nat) (us : List PteUpdate) (u : PteUpdate) :
    (Decodes ((updates mm pgn us u).pte pgn) u ∧ ToldApart ((updates mm pgn us u).pte pgn) u ↔
      u.IsFrame) ∧
    (Decodes ((updates mm pgn us u).pte pgn) u ↔ u.Fits) := by
  refine ⟨?_, decodes_updates mm pgn us u⟩
  rw [decodes_updates, toldApart_updates]
  cases u with
  | setFpn fpn => exact ⟨fun h => h.1, fun h => ⟨h, fpn, rfl⟩⟩
  | setSwap swptyp swpoff => exact ⟨fun ⟨_, _, h⟩ => (by cases h), fun h => h.elim⟩

/-- A page mapped and then swapped out passes the test for a page in RAM, and the last frame of a
RAM device of 2 MB and one page decodes to frame 0. -/
theorem pte_codec_loses :
    ¬ ToldApart ((updates (initMm fun _ => ⟨0, 0⟩) 0 [.setFpn 1] (.setSwap 0 1)).pte 0)
      (.setSwap 0 1) ∧
    8192 ∈ (initMemphy (BitVec.ofNat 64 (2 ^ 21 + 256)) true true).freeFpList.fpns ∧
    ¬ Decodes ((updates (initMm fun _ => ⟨0, 0⟩) 0 [] (.setFpn 8192)).pte 0) (.setFpn 8192) := by
  refine ⟨?_, ?_, ?_⟩
  · rw [toldApart_updates]
    rintro ⟨fpn, h⟩
    cases h
  · rw [initMemphy_fpns, List.mem_range, Memphy.numfp, initMemphy_maxsz]
    decide
  · rw [decodes_updates]
    decide

end SimpleOs
