/-
# `SimpleOs.FlatTable` — the page table refines a flat array

What the five levels are for: an array of 32-bit entries, indexed by page
number and zero at first.  `Flat` is that array and `PteCall` the five functions
of `mm64.c` through which the code reaches an entry; `replies_eq` runs a list of
calls on both and finds the same replies, and afterwards the same entries.

Page numbers are below 2^45, the bits the five indices are taken from.  For
these a slot belongs to one page for good: `Keeps` says that a table, once hung
in, stays where it is, and `slot_ne` that two pages never get one pointer, also
at two different times.
-/
import SimpleOs.Lib.Run
import SimpleOs.Paging

namespace SimpleOs

open BitField

/-- The five functions, with their arguments. -/
inductive PteCall
  | getEntry (pgn : Nat)
  | setFpn (pgn : Nat) (fpn : Addr)
  | setSwap (pgn : Nat) (swptyp : BitVec 32) (swpoff : Addr)
  | setEntry (pgn : Nat) (pteVal : BitVec 32)
  | pgdMemset (addr : Addr) (pgnum : Int)

/-- The call on the page table of a process: `pte_get_entry` returns the entry, the others 0. -/
def pteCall (mm : Mm) : PteCall → Mm × BitVec 32
  | .getEntry pgn => pteGetEntry mm pgn
  | .setFpn pgn fpn => (pteSetFpn mm pgn fpn.toNat, 0)
  | .setSwap pgn swptyp swpoff => (pteSetSwap mm pgn swptyp.toNat swpoff.toNat, 0)
  | .setEntry pgn pteVal => (pteSetEntry mm pgn pteVal, 0)
  | .pgdMemset addr pgnum => (vmapPgdMemset mm addr pgnum, 0)

/-- Every page number the call reaches has 45 bits. -/
def PteCall.InRange : PteCall → Prop
  | .getEntry pgn => pgn < 2 ^ 45
  | .setFpn pgn _ => pgn < 2 ^ 45
  | .setSwap pgn _ _ => pgn < 2 ^ 45
  | .setEntry pgn _ => pgn < 2 ^ 45
  | .pgdMemset addr pgnum => addr.toNat / pagingPagesz + pgnum.toNat ≤ 2 ^ 45

/-! ## The flat array -/

/-- An entry for every page number. -/
abbrev Flat := Nat → BitVec 32

/-- The entry of a resident page: present, not swapped, with the frame number. -/
def residentEntry (pte : BitVec 32) (fpn : Addr) : BitVec 32 :=
  setField ((pte ||| genmask 32 31 31) &&& ~~~(genmask 32 30 30)) (fpn.setWidth 32) 12 0

/-- The entry of a swapped page: present, swapped, with the device and the frame number there. -/
def swappedEntry (pte swptyp : BitVec 32) (swpoff : Addr) : BitVec 32 :=
  setField (setField ((pte ||| genmask 32 31 31) ||| genmask 32 30 30) swptyp 4 0)
    (swpoff.setWidth 32) 25 5

/-- The call on the array. -/
def flatCall (f : Flat) : PteCall → Flat × BitVec 32
  | .getEntry pgn => (f, f pgn)
  | .setFpn pgn fpn => (Function.update f pgn (residentEntry (f pgn) fpn), 0)
  | .setSwap pgn swptyp swpoff =>
      (Function.update f pgn (swappedEntry (f pgn) swptyp swpoff), 0)
  | .setEntry pgn pteVal => (Function.update f pgn pteVal, 0)
  | .pgdMemset addr pgnum =>
      let pgn := addr.toNat / pagingPagesz
      (fun m => if pgn ≤ m ∧ m < pgn + pgnum.toNat then 0 else f m, 0)

/-! ## The refinement -/

/-- The entries of the process are those of the array. -/
def Shows (mm : Mm) (f : Flat) : Prop := ∀ m < 2 ^ 45, mm.pte m = f m

section Shows
variable {mm : Mm} {f : Flat}

/-- A call that rewrites the entry of one page does so in the array too. -/
theorem Shows.update {mm' : Mm} {pgn : Nat} {v v' : BitVec 32} (h : Shows mm f)
    (hpgn : pgn < 2 ^ 45)
    (hpte : ∀ m, mm'.pte m = if PageTable.SamePage m pgn then v' else mm.pte m) (hv : v' = v) :
    Shows mm' (Function.update f pgn v) := by
  intro m hm
  rw [hpte]
  split
  next hs =>
    obtain rfl := hs.eq_of_lt hm hpgn
    rw [Function.update_self, hv]
  next hs =>
    have hne : m ≠ pgn := by rintro rfl; exact hs (PageTable.SamePage.refl m)
    rw [Function.update_of_ne hne, h m hm]

theorem cleared_iff {addr : Addr} {pgnum : Int} {m : Nat} (hm : m < 2 ^ 45)
    (hr : addr.toNat / pagingPagesz + pgnum.toNat ≤ 2 ^ 45) :
    Cleared addr pgnum m ↔
      addr.toNat / pagingPagesz ≤ m ∧ m < addr.toNat / pagingPagesz + pgnum.toNat := by
  constructor
  · rintro ⟨i, hi, hs⟩
    have hmi := hs.eq_of_lt hm (by omega)
    omega
  · rintro ⟨hle, hlt⟩
    refine ⟨m - addr.toNat / pagingPagesz, by omega, ?_⟩
    rw [Nat.add_sub_cancel' hle]
    exact PageTable.SamePage.refl m

/-- One call: the same reply, and the entries still agree. -/
theorem Shows.call {c : PteCall} (h : Shows mm f) (hc : c.InRange) :
    (pteCall mm c).2 = (flatCall f c).2 ∧ Shows (pteCall mm c).1 (flatCall f c).1 := by
  cases c with
  | getEntry pgn =>
      rw [pteCall, pteGetEntry_eq]
      refine ⟨h pgn hc, fun m hm => ?_⟩
      rw [Mm.touch_pte]
      exact h m hm
  | setFpn pgn fpn =>
      refine ⟨rfl, h.update hc (fun m => pte_pteSetFpn mm m pgn fpn.toNat) ?_⟩
      rw [lo_fpnEntry, BitVec.ofNat_toNat, BitVec.setWidth_eq, ← h pgn hc]
      rfl
  | setSwap pgn swptyp swpoff =>
      refine ⟨rfl, h.update hc (fun m => pte_pteSetSwap mm m pgn swptyp.toNat swpoff.toNat) ?_⟩
      rw [lo_swapEntry, BitVec.ofNat_toNat, BitVec.ofNat_toNat, BitVec.setWidth_eq,
        BitVec.setWidth_setWidth_of_le _ (by decide), BitVec.setWidth_eq, ← h pgn hc]
      rfl
  | setEntry pgn pteVal =>
      exact ⟨rfl, h.update hc (fun m => pte_pteSetEntry mm m pgn pteVal) rfl⟩
  | pgdMemset addr pgnum =>
      refine ⟨rfl, fun m hm => ?_⟩
      show (vmapPgdMemset mm addr pgnum).pte m = if _ then 0 else f m
      rcases pte_vmapPgdMemset mm addr pgnum m with ⟨hcl, hpte⟩ | ⟨hcl, hpte⟩
      · rw [hpte, if_pos ((cleared_iff hm hc).mp hcl)]
      · rw [hpte, if_neg fun hin => hcl ((cleared_iff hm hc).mpr hin), h m hm]

end Shows

/-! ## One slot, one page -/

/-- Every table of `pt` is where it was. -/
structure PageTable.Keeps (pt pt' : PageTable) : Prop where
  pgd : pt'.pgd = pt.pgd
  dir : ∀ p i, pt.heap.dir p i ≠ 0 → pt'.heap.dir p i = pt.heap.dir p i

namespace PageTable

section Keeps
variable {pt pt' pt'' : PageTable}

theorem Keeps.refl (pt : PageTable) : pt.Keeps pt := ⟨rfl, fun _ _ _ => rfl⟩

theorem Keeps.trans (h : pt.Keeps pt') (h' : pt'.Keeps pt'') : pt.Keeps pt'' where
  pgd := h'.pgd.trans h.pgd
  dir := fun p i hd => by rw [h'.dir p i (by rw [h.dir p i hd]; exact hd), h.dir p i hd]

theorem keeps_getPte (pt : PageTable) (pgn : Nat) : pt.Keeps (pt.getPte pgn).1 := by
  obtain ⟨_, h⟩ := pt.tree
  obtain ⟨_, _, he, _⟩ := h.getPte pgn
  exact ⟨rfl, he.dir⟩

theorem keeps_modify (pt : PageTable) (pgn : Nat) (f : BitVec 64 → BitVec 64) :
    pt.Keeps (pt.modify pgn f) :=
  (keeps_getPte pt pgn).trans ⟨rfl, fun _ _ _ => rfl⟩

/-- A walk that met no missing table still ends where it did. -/
theorem Keeps.walk (h : pt.Keeps pt') : ∀ (is : List Nat) (p : Nat), pt.heap.walk p is ≠ 0 →
    pt'.heap.walk p is = pt.heap.walk p is := by
  intro is
  induction is with
  | nil => intro _ _; rfl
  | cons i is ih =>
      intro p hw
      by_cases hd : pt.heap.dir p i = 0
      · simp [PgHeap.walk, hd] at hw
      · rw [PgHeap.walk, if_neg hd] at hw
        rw [PgHeap.walk, PgHeap.walk, h.dir p i hd, if_neg hd, if_neg hd, ih _ hw]

/-- A pointer `get_pte` returned is returned for the same page only, also later on. -/
theorem Keeps.slot_eq {m n : Nat} (h : (pt.getPte m).1.Keeps pt')
    (hs : (pt.getPte m).2 = (pt'.getPte n).2) : SamePage m n := by
  have hlater := h.trans (keeps_getPte pt' n)
  obtain ⟨_, ht⟩ := pt.tree
  obtain ⟨_, _, _, hw, hn, hi⟩ := ht.getPte m
  have hwalk : (pt.getPte m).1.heap.walk pt.pgd (getPdFromPagenum m).dirs = (pt.getPte m).2.1 := hw
  have hne : (pt.getPte m).1.heap.walk pt.pgd (getPdFromPagenum m).dirs ≠ 0 := by
    rw [hwalk]
    exact hn
  have hpgd : pt'.pgd = pt.pgd := h.pgd
  refine (slot_getPte pt' m n).mp ⟨?_, ?_⟩
  · rw [hpgd, hlater.walk _ _ hne, hwalk, hs]
  · rw [← hs]
    exact hi.symm

end Keeps

end PageTable

theorem keeps_pteCall (mm : Mm) (c : PteCall) : mm.pgd.Keeps (pteCall mm c).1.pgd := by
  cases c with
  | getEntry pgn => exact PageTable.keeps_getPte _ _
  | setFpn pgn fpn => exact PageTable.keeps_modify mm.pgd pgn (fpnEntry · fpn.toNat)
  | setSwap pgn swptyp swpoff =>
      exact PageTable.keeps_modify mm.pgd pgn (swapEntry · swptyp.toNat swpoff.toNat)
  | setEntry pgn pteVal => exact PageTable.keeps_modify mm.pgd pgn (fun _ => pteVal.setWidth 64)
  | pgdMemset addr pgnum =>
      show mm.pgd.Keeps (vmapPgdMemset mm addr pgnum).pgd
      simp only [vmapPgdMemset]
      generalize pgnum.toNat = n
      induction n with
      | zero => exact PageTable.Keeps.refl _
      | succ n ih =>
          rw [List.range_succ, List.foldl_append]
          refine ih.trans ?_
          exact PageTable.keeps_modify _ (addr.toNat / pagingPagesz + n) (fun _ => 0)

/-- The tables stay where they are over any list of calls. -/
theorem keeps_replies (mm : Mm) (cs : List PteCall) :
    mm.pgd.Keeps (Lts.replies pteCall mm cs).1.pgd :=
  Lts.replies_invariant (P := fun mm' => mm.pgd.Keeps mm'.pgd) (f := pteCall)
    (fun mm' c h => h.trans (keeps_pteCall mm' c)) (PageTable.Keeps.refl _)

/-- The digits of a page number index a table of `PAGING64_PGTBL_ENTRIES` slots. -/
theorem pdIndex_lt (pgn : Nat) :
    ∀ i ∈ (getPdFromPagenum pgn).dirs ++ [(getPdFromPagenum pgn).pt], i < 512 := by
  rw [getPdFromPagenum_eq]
  intro i hi
  simp only [PdIndex.dirs, List.cons_append, List.nil_append, List.mem_cons, List.not_mem_nil,
    or_false] at hi
  rcases hi with rfl | rfl | rfl | rfl | rfl <;> exact Nat.mod_lt _ (by decide)

/-- The page table of a process, after any calls on it, is the flat array after these calls: the
replies were the same and the entries are.  No two pages share a slot, whatever calls lie between
the two times their pointers are taken; every index stays inside its table; and looking a page up
changes the slot of none. -/
theorem page_table_refines_flat (symrgtbl : Nat → VmRg) (cs : List PteCall)
    (hcs : ∀ c ∈ cs, c.InRange) :
    (Lts.replies pteCall (initMm symrgtbl) cs).2 = (Lts.replies flatCall (fun _ => 0) cs).2 ∧
    Shows (Lts.replies pteCall (initMm symrgtbl) cs).1
      (Lts.replies flatCall (fun _ => 0) cs).1 ∧
    (∀ m n cs', m < 2 ^ 45 → n < 2 ^ 45 → ∀ mm, mm = (Lts.replies pteCall (initMm symrgtbl) cs).1 →
      (mm.pgd.getPte m).2 = ((Lts.replies pteCall (mm.touch m) cs').1.pgd.getPte n).2 → m = n) ∧
    (∀ m, ∀ i ∈ (getPdFromPagenum m).dirs ++ [(getPdFromPagenum m).pt], i < 512) ∧
    (∀ m n, ((Lts.replies pteCall (initMm symrgtbl) cs).1.pgd.getPte m).1.entry n =
      (Lts.replies pteCall (initMm symrgtbl) cs).1.pgd.entry n) := by
  have hstart : Shows (initMm symrgtbl) (fun _ => 0) := fun m _ => initMm_pte symrgtbl m
  obtain ⟨hreplies, hshows⟩ := Lts.replies_sim (R := Shows) (p := PteCall.InRange) (f := pteCall)
    (g := flatCall) (fun _ _ _ h hc => h.call hc) hstart hcs
  refine ⟨hreplies, hshows, ?_, pdIndex_lt, fun m n => PageTable.entry_getPte _ n m⟩
  rintro m n cs' hm hn mm - hslot
  have hkeeps : (mm.pgd.getPte m).1.Keeps (Lts.replies pteCall (mm.touch m) cs').1.pgd :=
    keeps_replies (mm.touch m) cs'
  exact (hkeeps.slot_eq hslot).eq_of_lt hm hn

/-- A page marked swapped and read back, beside a page far away. -/
theorem page_table_refines_flat_swap :
    (Lts.replies pteCall (initMm fun _ => ⟨0, 0⟩)
      [.setSwap (2 ^ 44) 0 3, .setFpn 7 2, .getEntry (2 ^ 44)]).2 = [0, 0, 0xC0000060] := by
  have hcs : ∀ c ∈ [PteCall.setSwap (2 ^ 44) 0 3, .setFpn 7 2, .getEntry (2 ^ 44)], c.InRange := by
    intro c hc
    simp only [List.mem_cons, List.not_mem_nil, or_false] at hc
    rcases hc with rfl | rfl | rfl <;> simp [PteCall.InRange]
  rw [(page_table_refines_flat (fun _ => ⟨0, 0⟩) _ hcs).1]
  decide +kernel

end SimpleOs
