/-
# `SimpleOs.Paging` — page table entries and mapping of ranges (`mm64.c`)

The functions that read and write the entries of one process, take frames off
the RAM device and map them.  In the code they take the caller and follow
`caller->own_mm` and `caller->krnl->mram`; here they take these two structures.

`Mm.pte` is the view that the properties of the development speak about: the
low half of the slot of a page, which is what `pte_get_entry` returns.  Reading
an entry may hang new tables into the page table (`Mm.touch`); the view does
not see them.
-/
import Mathlib.Data.List.TakeDrop
import SimpleOs.Memphy
import SimpleOs.Region

namespace SimpleOs

/-! ## One entry -/

/-- `pte_get_entry`. -/
def pteGetEntry (mm : Mm) (pgn : Nat) : Mm × BitVec 32 :=
  let (pgd, slot) := mm.pgd.getPte pgn
  ({ mm with pgd }, (pgd.load slot).setWidth 32)

/-- `pte_set_fpn`. -/
def pteSetFpn (mm : Mm) (pgn fpn : Nat) : Mm :=
  { mm with pgd := mm.pgd.modify pgn (fun pte => fpnEntry pte fpn) }

/-- `pte_set_swap`. -/
def pteSetSwap (mm : Mm) (pgn swptyp swpoff : Nat) : Mm :=
  { mm with pgd := mm.pgd.modify pgn (fun pte => swapEntry pte swptyp swpoff) }

/-- `pte_set_entry`. -/
def pteSetEntry (mm : Mm) (pgn : Nat) (pteVal : BitVec 32) : Mm :=
  { mm with pgd := mm.pgd.modify pgn (fun _ => pteVal.setWidth 64) }

/-- The entry of page `pgn`. -/
def Mm.pte (mm : Mm) (pgn : Nat) : BitVec 32 := (mm.pgd.entry pgn).setWidth 32

/-- `mm` with the tables on the way to page `pgn`. -/
def Mm.touch (mm : Mm) (pgn : Nat) : Mm := { mm with pgd := (mm.pgd.getPte pgn).1 }

/-- `enlist_pgn_node(&mm->fifo_pgn, pgn)`. -/
def Mm.enlist (mm : Mm) (pgn : Nat) : Mm := { mm with fifoPgn := enlistPgnNode mm.fifoPgn pgn }

section Entry
variable (mm : Mm) (m pgn fpn swptyp swpoff : Nat)

theorem pteGetEntry_eq : pteGetEntry mm pgn = (mm.touch pgn, mm.pte pgn) := by
  rw [pteGetEntry, Mm.pte, ← PageTable.load_getPte]
  rfl

@[simp] theorem Mm.touch_pte : (mm.touch pgn).pte m = mm.pte m := by
  rw [Mm.pte, Mm.touch, PageTable.entry_getPte, Mm.pte]

@[simp] theorem Mm.setFifo_pte (pgs : List Nat) : (mm.setFifo pgs).pte m = mm.pte m := rfl

@[simp] theorem Mm.touch_mmap : (mm.touch pgn).mmap = mm.mmap := rfl

@[simp] theorem Mm.touch_symrgtbl : (mm.touch pgn).symrgtbl = mm.symrgtbl := rfl

@[simp] theorem Mm.touch_fifoPgn : (mm.touch pgn).fifoPgn = mm.fifoPgn := rfl

@[simp] theorem Mm.enlist_pte : (mm.enlist pgn).pte m = mm.pte m := rfl

@[simp] theorem Mm.enlist_mmap : (mm.enlist pgn).mmap = mm.mmap := rfl

@[simp] theorem Mm.enlist_symrgtbl : (mm.enlist pgn).symrgtbl = mm.symrgtbl := rfl

@[simp] theorem Mm.enlist_fifoPgn : (mm.enlist pgn).fifoPgn = pgn :: mm.fifoPgn := rfl

@[simp] theorem pteSetFpn_mmap : (pteSetFpn mm pgn fpn).mmap = mm.mmap := rfl

@[simp] theorem pteSetFpn_symrgtbl : (pteSetFpn mm pgn fpn).symrgtbl = mm.symrgtbl := rfl

@[simp] theorem pteSetFpn_fifoPgn : (pteSetFpn mm pgn fpn).fifoPgn = mm.fifoPgn := rfl

@[simp] theorem pteSetSwap_mmap : (pteSetSwap mm pgn swptyp swpoff).mmap = mm.mmap := rfl

@[simp] theorem pteSetSwap_symrgtbl :
    (pteSetSwap mm pgn swptyp swpoff).symrgtbl = mm.symrgtbl := rfl

@[simp] theorem pteSetSwap_fifoPgn : (pteSetSwap mm pgn swptyp swpoff).fifoPgn = mm.fifoPgn := rfl

theorem pte_congr {m n : Nat} (h : PageTable.SamePage m n) : mm.pte m = mm.pte n := by
  rw [Mm.pte, Mm.pte, PageTable.entry_congr h]

theorem pte_pteSetFpn : (pteSetFpn mm pgn fpn).pte m =
    if PageTable.SamePage m pgn then (fpnEntry (mm.pgd.entry pgn) fpn).setWidth 32
    else mm.pte m := by
  rw [Mm.pte, pteSetFpn, PageTable.entry_modify]
  split <;> rfl

theorem pte_pteSetSwap : (pteSetSwap mm pgn swptyp swpoff).pte m =
    if PageTable.SamePage m pgn then (swapEntry (mm.pgd.entry pgn) swptyp swpoff).setWidth 32
    else mm.pte m := by
  rw [Mm.pte, pteSetSwap, PageTable.entry_modify]
  split <;> rfl

theorem pte_pteSetEntry (pteVal : BitVec 32) : (pteSetEntry mm pgn pteVal).pte m =
    if PageTable.SamePage m pgn then pteVal else mm.pte m := by
  rw [Mm.pte, pteSetEntry, PageTable.entry_modify]
  split
  next => rw [BitVec.setWidth_setWidth_of_le _ (by decide), BitVec.setWidth_eq]
  next => rfl

end Entry

/-- No page of a new process is mapped. -/
@[simp] theorem initMm_pte (symrgtbl : Nat → VmRg) (pgn : Nat) : (initMm symrgtbl).pte pgn = 0 := by
  rw [Mm.pte, initMm_pgd, PageTable.entry_init]
  rfl

/-! ## Clearing a range -/

/-- `vmap_pgd_memset`. -/
def vmapPgdMemset (mm : Mm) (addr : Addr) (pgnum : Int) : Mm :=
  let pgn := addr.toNat / pagingPagesz
  (List.range pgnum.toNat).foldl
    (fun mm i => { mm with pgd := mm.pgd.modify (pgn + i) (fun _ => 0) }) mm

/-- One page is cleared. -/
theorem pte_clear (mm : Mm) (pgn m : Nat) :
    (PageTable.SamePage m pgn ∧
      ({ mm with pgd := mm.pgd.modify pgn (fun _ => 0) } : Mm).pte m = 0) ∨
    (¬ PageTable.SamePage m pgn ∧
      ({ mm with pgd := mm.pgd.modify pgn (fun _ => 0) } : Mm).pte m = mm.pte m) := by
  by_cases hm : PageTable.SamePage m pgn
  · refine Or.inl ⟨hm, ?_⟩
    rw [Mm.pte, PageTable.entry_modify, if_pos hm]
    rfl
  · refine Or.inr ⟨hm, ?_⟩
    rw [Mm.pte, PageTable.entry_modify, if_neg hm, Mm.pte]

/-- Whether `vmap_pgd_memset` clears page `m`. -/
def Cleared (addr : Addr) (pgnum : Int) (m : Nat) : Prop :=
  ∃ i < pgnum.toNat, PageTable.SamePage m (addr.toNat / pagingPagesz + i)

theorem vmapPgdMemset_frame (mm : Mm) (addr : Addr) (pgnum : Int) :
    (vmapPgdMemset mm addr pgnum).mmap = mm.mmap ∧
    (vmapPgdMemset mm addr pgnum).symrgtbl = mm.symrgtbl ∧
    (vmapPgdMemset mm addr pgnum).fifoPgn = mm.fifoPgn := by
  simp only [vmapPgdMemset]
  generalize pgnum.toNat = n
  induction n with
  | zero => exact ⟨rfl, rfl, rfl⟩
  | succ n ih =>
      rw [List.range_succ, List.foldl_append]
      exact ih

/-- The pages of the range are zeroed, the others stay. -/
theorem pte_vmapPgdMemset (mm : Mm) (addr : Addr) (pgnum : Int) (m : Nat) :
    (Cleared addr pgnum m ∧ (vmapPgdMemset mm addr pgnum).pte m = 0) ∨
    (¬ Cleared addr pgnum m ∧ (vmapPgdMemset mm addr pgnum).pte m = mm.pte m) := by
  simp only [vmapPgdMemset, Cleared]
  generalize pgnum.toNat = n
  generalize addr.toNat / pagingPagesz = pgn
  induction n with
  | zero => exact Or.inr ⟨fun ⟨_, hi, _⟩ => absurd hi (Nat.not_lt_zero _), rfl⟩
  | succ n ih =>
      rw [List.range_succ, List.foldl_append, List.foldl_cons, List.foldl_nil]
      rcases pte_clear _ (pgn + n) m with ⟨hm, h0⟩ | ⟨hm, hsame⟩
      · exact Or.inl ⟨⟨n, Nat.lt_succ_self n, hm⟩, h0⟩
      · rw [hsame]
        rcases ih with ⟨⟨i, hi, hs⟩, h0⟩ | ⟨hn, h0⟩
        · exact Or.inl ⟨⟨i, Nat.lt_succ_of_lt hi, hs⟩, h0⟩
        · refine Or.inr ⟨?_, h0⟩
          rintro ⟨i, hi, hs⟩
          rcases Nat.lt_succ_iff_lt_or_eq.mp hi with hi | rfl
          · exact hn ⟨i, hi, hs⟩
          · exact hm hs

/-! ## Taking frames -/

/-- `alloc_pages_range`: the frames taken, in order, and the status as an `addr_t`. -/
def allocPagesRange (mram : Memphy) : Nat → Except Ub (Memphy × List Nat × Addr)
  | 0 => .ok (mram, [], 0)
  | reqPgnum + 1 => do
      let (mram, r) ← memphyGetFreefp mram
      match r with
      | none => pure (mram, [], -3000)
      | some fpn =>
          let (mram, frmLst, ret) ← allocPagesRange mram reqPgnum
          pure (mram, fpn :: frmLst, ret)

/-- `mp` with the frames `fs` moved from its free list, leaving `rest`. -/
def Memphy.takeAll (mp : Memphy) (fs rest : List Nat) : Memphy :=
  { mp with
    freeFpList := { mp.freeFpList with fpns := rest }
    usedFpList := fs.reverse ++ mp.usedFpList }

section TakeAll
variable (mp : Memphy) (fs rest : List Nat)

@[simp] theorem Memphy.takeAll_storage : (mp.takeAll fs rest).storage = mp.storage := rfl

@[simp] theorem Memphy.takeAll_cap : (mp.takeAll fs rest).cap = mp.cap := rfl

@[simp] theorem Memphy.takeAll_rdmflg : (mp.takeAll fs rest).rdmflg = mp.rdmflg := rfl

@[simp] theorem Memphy.takeAll_fpns : (mp.takeAll fs rest).freeFpList.fpns = rest := rfl

@[simp] theorem Memphy.takeAll_closed :
    (mp.takeAll fs rest).freeFpList.closed = mp.freeFpList.closed := rfl

@[simp] theorem Memphy.takeAll_numfp : (mp.takeAll fs rest).numfp = mp.numfp := rfl

theorem Memphy.takeAll_nil {mp : Memphy} (h : mp.freeFpList.fpns = []) : mp.takeAll [] [] = mp := by
  have hlist : { mp.freeFpList with fpns := [] } = mp.freeFpList := by rw [← h]
  rw [Memphy.takeAll, hlist]
  rfl

theorem Memphy.takeAll_take (f : Nat) (rest' : List Nat) :
    (mp.take f rest').takeAll fs rest = mp.takeAll (f :: fs) rest := by
  simp [Memphy.takeAll, Memphy.take]

theorem Memphy.Random.takeAll {mp : Memphy} (h : mp.Random) (fs rest : List Nat) :
    (mp.takeAll fs rest).Random :=
  ⟨h.rdm, h.maxsz_le, h.maxsz_lt⟩

end TakeAll

/-- Enough frames: the first `n` are taken. -/
theorem allocPagesRange_enough : ∀ {n : Nat} {mram : Memphy}, n ≤ mram.freeFpList.fpns.length →
    allocPagesRange mram n = .ok (mram.takeAll (mram.freeFpList.fpns.take n)
      (mram.freeFpList.fpns.drop n), mram.freeFpList.fpns.take n, 0) := by
  intro n
  induction n with
  | zero => intro mram _; rfl
  | succ n ih =>
      intro mram h
      cases hl : mram.freeFpList.fpns with
      | nil => rw [hl] at h; exact absurd h (Nat.not_succ_le_zero n)
      | cons f rest =>
          rw [hl, List.length_cons] at h
          have hrec := @ih (mram.take f rest) (Nat.le_of_succ_le_succ h)
          rw [Memphy.take_fpns, Memphy.takeAll_take] at hrec
          rw [allocPagesRange, memphyGetFreefp_cons hl]
          simp only [bind, Except.bind, hrec, List.take_succ_cons, List.drop_succ_cons]
          rfl

/-- Too few frames: all of them are taken, and the status is -3000. -/
theorem allocPagesRange_starved : ∀ {n : Nat} {mram : Memphy},
    mram.freeFpList.fpns.length < n → mram.freeFpList.closed = true →
    allocPagesRange mram n =
      .ok (mram.takeAll mram.freeFpList.fpns [], mram.freeFpList.fpns, -3000) := by
  intro n
  induction n with
  | zero => intro mram h; exact absurd h (Nat.not_lt_zero _)
  | succ n ih =>
      intro mram h hc
      cases hl : mram.freeFpList.fpns with
      | nil =>
          rw [allocPagesRange, memphyGetFreefp_nil hl hc]
          rw [Memphy.takeAll_nil hl]
          rfl
      | cons f rest =>
          rw [hl, List.length_cons] at h
          have hrec := @ih (mram.take f rest) (Nat.lt_of_succ_lt_succ h) hc
          rw [Memphy.take_fpns, Memphy.takeAll_take] at hrec
          rw [allocPagesRange, memphyGetFreefp_cons hl]
          simp only [bind, Except.bind, hrec]
          rfl

/-- An open list that is too short runs into its wild link. -/
theorem allocPagesRange_open : ∀ {n : Nat} {mram : Memphy},
    mram.freeFpList.fpns.length < n → mram.freeFpList.closed = false →
    allocPagesRange mram n = .error .wildPointer := by
  intro n
  induction n with
  | zero => intro mram h; exact absurd h (Nat.not_lt_zero _)
  | succ n ih =>
      intro mram h hc
      cases hl : mram.freeFpList.fpns with
      | nil =>
          rw [allocPagesRange, memphyGetFreefp, hl]
          simp [hc, bind, Except.bind]
      | cons f rest =>
          rw [hl, List.length_cons] at h
          have hrec := @ih (mram.take f rest) (Nat.lt_of_succ_lt_succ h) hc
          rw [allocPagesRange, memphyGetFreefp_cons hl]
          simp only [bind, Except.bind, hrec]

/-! ## Mapping frames -/

/-- The loop of `vmap_page_range`, from page `pgn` on. -/
def vmapLoop (mm : Mm) (pgn : Nat) : Nat → List Nat → Mm × Addr
  | 0, _ => (mm, 0)
  | _ + 1, [] => (mm, -1)
  | n + 1, fpn :: frames => vmapLoop ((pteSetFpn mm pgn fpn).enlist pgn) (pgn + 1) n frames

/-- `vmap_page_range`.  `pgnum * PAGING_PAGESZ` is an `int` product. -/
def vmapPageRange (mm : Mm) (addr : Addr) (pgnum : Int) (frames : List Nat) :
    Except Ub (Mm × VmRg × Addr) := do
  let bytes ← intResult (pgnum * pagingPagesz)
  let retRg : VmRg := { rgStart := addr, rgEnd := addr + BitVec.ofInt 64 bytes }
  let (mm, ret) := vmapLoop mm (addr.toNat / pagingPagesz) pgnum.toNat frames
  pure (mm, retRg, ret)

/-- `vm_map_ram`.  Its statuses are compared with 0 as unsigned numbers. -/
def vmMapRam (mram : Memphy) (mm : Mm) (mapstart : Addr) (incpgnum : Int) (retRg : VmRg) :
    Except Ub (Memphy × Mm × VmRg × Addr) := do
  let (mram, frmLst, retAlloc) ← allocPagesRange mram incpgnum.toNat
  if retAlloc < 0 ∧ retAlloc ≠ -3000 then pure (mram, mm, retRg, -1)
  else if retAlloc = -3000 then pure (mram, mm, retRg, -1)
  else
    let (mm, retRg, _) ← vmapPageRange mm mapstart incpgnum frmLst
    pure (mram, mm, retRg, 0)

/-- The frames `fs` mapped to consecutive pages from `pgn` on. -/
def Mm.mapFrames : Mm → Nat → List Nat → Mm
  | mm, _, [] => mm
  | mm, pgn, fpn :: fs => ((pteSetFpn mm pgn fpn).enlist pgn).mapFrames (pgn + 1) fs

theorem vmapLoop_eq : ∀ (fs : List Nat) (mm : Mm) (pgn : Nat),
    vmapLoop mm pgn fs.length fs = (mm.mapFrames pgn fs, 0) := by
  intro fs
  induction fs with
  | nil => intro _ _; rfl
  | cons f fs ih =>
      intro mm pgn
      rw [List.length_cons, vmapLoop, ih, Mm.mapFrames]

section MapFrames

theorem Mm.mapFrames_mmap : ∀ (fs : List Nat) (mm : Mm) (pgn : Nat),
    (mm.mapFrames pgn fs).mmap = mm.mmap := by
  intro fs
  induction fs with
  | nil => intro _ _; rfl
  | cons f fs ih => intro mm pgn; rw [Mm.mapFrames, ih]; rfl

theorem Mm.mapFrames_symrgtbl : ∀ (fs : List Nat) (mm : Mm) (pgn : Nat),
    (mm.mapFrames pgn fs).symrgtbl = mm.symrgtbl := by
  intro fs
  induction fs with
  | nil => intro _ _; rfl
  | cons f fs ih => intro mm pgn; rw [Mm.mapFrames, ih]; rfl

/-- The mapped pages are enlisted one by one. -/
theorem Mm.mapFrames_fifoPgn : ∀ (fs : List Nat) (mm : Mm) (pgn : Nat),
    (mm.mapFrames pgn fs).fifoPgn = (List.range' pgn fs.length).reverse ++ mm.fifoPgn := by
  intro fs
  induction fs with
  | nil => intro _ _; rfl
  | cons f fs ih =>
      intro mm pgn
      rw [Mm.mapFrames, ih, List.length_cons, List.range'_succ, List.reverse_cons,
        Mm.enlist_fifoPgn, pteSetFpn_fifoPgn, List.append_assoc, List.singleton_append]

/-- The pages outside the range keep their entries. -/
theorem Mm.mapFrames_pte_other : ∀ (fs : List Nat) (mm : Mm) (pgn m : Nat),
    (∀ i < fs.length, ¬ PageTable.SamePage m (pgn + i)) →
    (mm.mapFrames pgn fs).pte m = mm.pte m := by
  intro fs
  induction fs with
  | nil => intro _ _ _ _; rfl
  | cons f fs ih =>
      intro mm pgn m h
      have htail : ∀ i < fs.length, ¬ PageTable.SamePage m (pgn + 1 + i) := by
        intro i hi
        rw [Nat.add_assoc, Nat.add_comm 1 i]
        exact h (i + 1) (Nat.succ_lt_succ hi)
      rw [Mm.mapFrames, ih _ _ _ htail, Mm.enlist_pte, pte_pteSetFpn,
        if_neg (by simpa using h 0 (Nat.succ_pos _))]

/-- The pages in the range are resident afterwards, and so is every page that was. -/
theorem Mm.mapFrames_resident : ∀ (fs : List Nat) (mm : Mm) (pgn m : Nat),
    Resident (mm.pte m) ∨ (∃ i < fs.length, PageTable.SamePage m (pgn + i)) →
    Resident ((mm.mapFrames pgn fs).pte m) := by
  intro fs
  induction fs with
  | nil =>
      intro mm pgn m h
      rcases h with h | ⟨i, hi, _⟩
      · exact h
      · exact absurd hi (Nat.not_lt_zero i)
  | cons f fs ih =>
      intro mm pgn m h
      rw [Mm.mapFrames]
      apply ih
      by_cases hm : PageTable.SamePage m pgn
      · refine Or.inl ?_
        rw [Mm.enlist_pte, pte_pteSetFpn, if_pos hm]
        exact resident_fpnEntry _ _
      · rcases h with h | ⟨i, hi, hs⟩
        · refine Or.inl ?_
          rw [Mm.enlist_pte, pte_pteSetFpn, if_neg hm]
          exact h
        · cases i with
          | zero => exact absurd hs hm
          | succ i =>
              refine Or.inr ⟨i, Nat.lt_of_succ_lt_succ hi, ?_⟩
              rwa [Nat.add_assoc, Nat.add_comm 1 i]

/-- Each page of the range holds its own frame: the pages mapped after it are others, as long as
page numbers do not repeat. -/
theorem Mm.mapFrames_frame : ∀ (fs : List Nat) (mm : Mm) (pgn i : Nat) (h : i < fs.length),
    pgn + fs.length ≤ 2 ^ 45 →
    pagingFpn ((mm.mapFrames pgn fs).pte (pgn + i)) = fs[i] % 2 ^ 13 := by
  intro fs
  induction fs with
  | nil => intro _ _ i h _; exact absurd h (Nat.not_lt_zero i)
  | cons f fs ih =>
      intro mm pgn i h hlt
      rw [List.length_cons] at h hlt
      rw [Mm.mapFrames]
      cases i with
      | zero =>
          have hother : ∀ j < fs.length, ¬ PageTable.SamePage pgn (pgn + 1 + j) := by
            intro j hj hs
            have heq := hs.eq_of_lt (by omega) (by omega)
            omega
          rw [show pgn + 0 = pgn from rfl, Mm.mapFrames_pte_other _ _ _ _ hother, Mm.enlist_pte,
            pte_pteSetFpn, if_pos (PageTable.SamePage.refl pgn), pagingFpn_fpnEntry]
          rfl
      | succ i =>
          rw [show pgn + (i + 1) = pgn + 1 + i by omega]
          exact ih _ (pgn + 1) i (Nat.lt_of_succ_lt_succ h) (by omega)

end MapFrames

/-- As many frames as pages, and their size fits an `int`. -/
theorem vmapPageRange_eq (mm : Mm) (addr : Addr) (fs : List Nat) (hfit : fs.length < 2 ^ 23) :
    vmapPageRange mm addr fs.length fs =
      .ok (mm.mapFrames (addr.toNat / 256) fs,
        { rgStart := addr, rgEnd := addr + BitVec.ofInt 64 (fs.length * 256) }, 0) := by
  rw [vmapPageRange, intResult_of (by simp only [pagingPagesz]; omega)
    (by simp only [pagingPagesz]; omega)]
  simp only [bind, Except.bind, Int.toNat_natCast, pagingPagesz, vmapLoop_eq]
  rfl

/-- Enough frames: `vm_map_ram` maps the first `n` and returns 0. -/
theorem vmMapRam_enough {mram : Memphy} {mm : Mm} {mapstart : Addr} {n : Nat} {retRg : VmRg}
    (h : n ≤ mram.freeFpList.fpns.length) (hfit : n < 2 ^ 23) :
    vmMapRam mram mm mapstart n retRg =
      .ok (mram.takeAll (mram.freeFpList.fpns.take n) (mram.freeFpList.fpns.drop n),
        mm.mapFrames (mapstart.toNat / 256) (mram.freeFpList.fpns.take n),
        { rgStart := mapstart, rgEnd := mapstart + BitVec.ofInt 64 (n * 256) }, 0) := by
  have hlen : (mram.freeFpList.fpns.take n).length = n := by simp [h]
  have hmap := vmapPageRange_eq mm mapstart (mram.freeFpList.fpns.take n) (by omega)
  rw [hlen] at hmap
  rw [vmMapRam, Int.toNat_natCast, allocPagesRange_enough h]
  simp only [bind, Except.bind, hmap]
  rfl

/-- Enough frames, but so many that their size overflows. -/
theorem vmMapRam_overflow {mram : Memphy} {mm : Mm} {mapstart : Addr} {n : Nat} {retRg : VmRg}
    (h : n ≤ mram.freeFpList.fpns.length) (hfit : 2 ^ 23 ≤ n) :
    vmMapRam mram mm mapstart n retRg = .error .intOverflow := by
  have hover : intResult ((n : Int) * pagingPagesz) = .error .intOverflow :=
    if_neg (by simp only [pagingPagesz]; omega)
  rw [vmMapRam, Int.toNat_natCast, allocPagesRange_enough h]
  simp only [bind, Except.bind, vmapPageRange, hover]
  rfl

/-- Too few frames: the frames are gone, nothing is mapped, and the status is -1. -/
theorem vmMapRam_starved {mram : Memphy} {mm : Mm} {mapstart : Addr} {n : Nat} {retRg : VmRg}
    (h : mram.freeFpList.fpns.length < n) (hc : mram.freeFpList.closed = true) :
    vmMapRam mram mm mapstart n retRg =
      .ok (mram.takeAll mram.freeFpList.fpns [], mm, retRg, -1) := by
  rw [vmMapRam, Int.toNat_natCast, allocPagesRange_starved h hc]
  rfl

end SimpleOs
