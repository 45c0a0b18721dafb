/-
# `SimpleOs.Reclaim` — what `free_pcb_memph` reads

The function was written for a page table that is one flat array: it takes slot
`pagenum` of `mm->pgd` for the entry of page `pagenum`, for each of the
`PAGING_MAX_PGN` = 16384 page numbers.  The directory `init_mm` allocates has
512 slots, and they hold pointers to the next level.  So the first 512 rounds
put one number each on a free list, whatever the process has mapped
(`freePcbLoop_inTable`), and the next one reads past the directory.

Nothing calls the function.  `ptr` gives the address `calloc` returned for each
table; its low half is what is taken for an entry.
-/
import SimpleOs.Reach

namespace SimpleOs

/-- `PAGING_MAX_PGN`. -/
def pagingMaxPgn : Nat := (2 ^ 22 + pagingPagesz - 1) / pagingPagesz

/-- `PAGING64_PGTBL_ENTRIES`. -/
def paging64PgtblEntries : Nat := 512

/-- What slot `i` of the directory holds: NULL or the address of a table. -/
def Mm.pgdPtr (ptr : Nat → Addr) (mm : Mm) (i : Nat) : Addr :=
  if mm.pgd.heap.dir mm.pgd.pgd i = 0 then 0 else ptr (mm.pgd.heap.dir mm.pgd.pgd i)

/-- Reading `mm->pgd[i]`. -/
def Mm.pgdSlot (ptr : Nat → Addr) (mm : Mm) (i : Nat) : Except Ub Addr :=
  if i < paging64PgtblEntries then .ok (mm.pgdPtr ptr i) else .error .pgdBounds

/-- What a round of the loop does with `pte`. -/
def Krnl.putPte (k : Krnl) (pte : BitVec 32) : Krnl :=
  if pagingPagePresent pte then { k with mram := memphyPutFreefp k.mram (pagingFpn pte) }
  else { k with activeMswp := memphyPutFreefp k.activeMswp (pagingSwp pte) }

/-- The loop of `free_pcb_memph`, over the page numbers it has left. -/
def freePcbLoop (ptr : Nat → Addr) (caller : Pid) : List Nat → Krnl → Except Ub (Krnl × Int)
  | [], k => .ok (k, 0)
  | pagenum :: pagenums, k =>
      match k.ownMm caller with
      | none => .ok (k, -1)
      | some mm => do
          -- `pte` is a `uint32_t`
          let slot ← mm.pgdSlot ptr pagenum
          freePcbLoop ptr caller pagenums (k.putPte (slot.setWidth 32))

/-- `free_pcb_memph`. -/
def freePcbMemph (ptr : Nat → Addr) (k : Krnl) (caller : Pid) : Except Ub (Krnl × Int) :=
  freePcbLoop ptr caller (List.range pagingMaxPgn) k

/-! ## What it is for -/

/-- `fpns'` is `fpns` and the frame of every page whose entry `P` holds of, each once. -/
def Returned (mm : Mm) (P : BitVec 32 → Prop) (frame : BitVec 32 → Nat) (fpns fpns' : List Nat) :
    Prop :=
  ∃ pgns : List Nat, pgns.Nodup ∧ (∀ pgn, pgn ∈ pgns ↔ pgn < 2 ^ 45 ∧ P (mm.pte pgn)) ∧
    fpns'.Perm (pgns.map (fun pgn => frame (mm.pte pgn)) ++ fpns)

/-- The call returns, having given the frames of resident pages back to RAM and those of swapped
pages back to the swap device. -/
def Reclaims (ptr : Nat → Addr) (k : Krnl) (p : Pid) (mm : Mm) : Prop :=
  ∃ k', freePcbMemph ptr k p = .ok (k', 0) ∧
    Returned mm Resident pagingFpn k.mram.freeFpList.fpns k'.mram.freeFpList.fpns ∧
    Returned mm Swapped pagingSwp k.activeMswp.freeFpList.fpns k'.activeMswp.freeFpList.fpns

/-! ## What it does -/

section Loop
variable {ptr : Nat → Addr} {k : Krnl} {p : Pid} {mm : Mm}

@[simp] theorem Krnl.putPte_ownMm (pte : BitVec 32) : (k.putPte pte).ownMm = k.ownMm := by
  rw [Krnl.putPte]
  split <;> rfl

/-- A round puts one number on one of the two free lists, whatever the slot holds. -/
theorem Krnl.putPte_length (pte : BitVec 32) :
    (k.putPte pte).mram.freeFpList.fpns.length +
      (k.putPte pte).activeMswp.freeFpList.fpns.length =
    k.mram.freeFpList.fpns.length + k.activeMswp.freeFpList.fpns.length + 1 := by
  rw [Krnl.putPte]
  split
  · simp only [memphyPutFreefp, List.length_cons]
    omega
  · simp only [memphyPutFreefp, List.length_cons]
    omega

/-- The rounds over slots of the directory, taken for entries one by one. -/
def Krnl.putSlots (ptr : Nat → Addr) (mm : Mm) (k : Krnl) (pagenums : List Nat) : Krnl :=
  pagenums.foldl (fun k i => k.putPte ((mm.pgdPtr ptr i).setWidth 32)) k

/-- The loop gets through the slots of the directory. -/
theorem freePcbLoop_inTable (rest : List Nat) : ∀ {pagenums : List Nat} {k : Krnl},
    k.ownMm p = some mm → (∀ i ∈ pagenums, i < paging64PgtblEntries) →
    freePcbLoop ptr p (pagenums ++ rest) k =
      freePcbLoop ptr p rest (k.putSlots ptr mm pagenums) := by
  intro pagenums
  induction pagenums with
  | nil => intro k _ _; rfl
  | cons i pagenums ih =>
      intro k hmm hin
      have hi : mm.pgdSlot ptr i = .ok (mm.pgdPtr ptr i) := if_pos (hin i List.mem_cons_self)
      rw [List.cons_append, freePcbLoop]
      simp only [hmm, hi, bind, Except.bind]
      exact ih (by rw [Krnl.putPte_ownMm, hmm]) fun j hj => hin j (List.mem_cons_of_mem i hj)

theorem Krnl.putSlots_ownMm : ∀ (pagenums : List Nat) (k : Krnl),
    (k.putSlots ptr mm pagenums).ownMm = k.ownMm := by
  intro pagenums
  induction pagenums with
  | nil => intro k; rfl
  | cons i pagenums ih =>
      intro k
      rw [Krnl.putSlots, List.foldl_cons]
      exact (ih _).trans (Krnl.putPte_ownMm _)

/-- Every slot counts, mapped or not. -/
theorem Krnl.putSlots_length : ∀ (pagenums : List Nat) (k : Krnl),
    (k.putSlots ptr mm pagenums).mram.freeFpList.fpns.length +
      (k.putSlots ptr mm pagenums).activeMswp.freeFpList.fpns.length =
    k.mram.freeFpList.fpns.length + k.activeMswp.freeFpList.fpns.length + pagenums.length := by
  intro pagenums
  induction pagenums with
  | nil => intro k; rfl
  | cons i pagenums ih =>
      intro k
      have hrest := ih (k.putPte ((mm.pgdPtr ptr i).setWidth 32))
      rw [Krnl.putPte_length] at hrest
      rw [Krnl.putSlots, List.foldl_cons, List.length_cons]
      exact hrest.trans (by omega)

/-- The first 512 rounds, by themselves. -/
theorem freePcbLoop_slots (hmm : k.ownMm p = some mm) :
    freePcbLoop ptr p (List.range paging64PgtblEntries) k =
      .ok (k.putSlots ptr mm (List.range paging64PgtblEntries), 0) := by
  have hloop := @freePcbLoop_inTable ptr p mm [] (List.range paging64PgtblEntries) k hmm
    (fun i hi => List.mem_range.mp hi)
  rwa [List.append_nil] at hloop

/-- With a memory structure the call always reads past the directory. -/
theorem freePcbMemph_overruns (hmm : k.ownMm p = some mm) :
    freePcbMemph ptr k p = .error .pgdBounds := by
  have hsplit : List.range pagingMaxPgn =
      List.range paging64PgtblEntries ++ 512 :: List.range' 513 15871 := by
    rw [show pagingMaxPgn = paging64PgtblEntries + (15871 + 1) from rfl, List.range_add,
      ← List.range'_eq_map_range, List.range'_succ]
    rfl
  have hout : mm.pgdSlot ptr 512 = .error .pgdBounds := if_neg (by decide)
  rw [freePcbMemph, hsplit, freePcbLoop_inTable _ hmm (fun i hi => List.mem_range.mp hi),
    freePcbLoop, Krnl.putSlots_ownMm]
  simp only [hmm, hout]
  rfl

theorem not_reclaims (hmm : k.ownMm p = some mm) : ¬ Reclaims ptr k p mm := by
  rintro ⟨k', hok, _⟩
  rw [freePcbMemph_overruns hmm] at hok
  cases hok

/-- A directory with no tables: every slot reads like an entry that is not present, and swap
frame 0 is put on the free list of the swap device each time. -/
theorem Krnl.putSlots_empty (hnull : ∀ i, mm.pgd.heap.dir mm.pgd.pgd i = 0) :
    ∀ (pagenums : List Nat) (k : Krnl),
    (k.putSlots ptr mm pagenums).activeMswp.freeFpList.fpns =
      List.replicate pagenums.length 0 ++ k.activeMswp.freeFpList.fpns := by
  intro pagenums
  induction pagenums with
  | nil => intro k; rfl
  | cons i pagenums ih =>
      intro k
      have hptr : mm.pgdPtr ptr i = 0 := if_pos (hnull i)
      have hput : (k.putPte ((mm.pgdPtr ptr i).setWidth 32)).activeMswp.freeFpList.fpns =
          0 :: k.activeMswp.freeFpList.fpns := by
        rw [hptr]
        rfl
      rw [Krnl.putSlots, List.foldl_cons]
      refine (ih _).trans ?_
      rw [hput, List.length_cons, List.replicate_succ', List.append_assoc, List.singleton_append]

end Loop

/-- Whatever a process has mapped, its memory is not reclaimed: the call puts one number on a free
list for each of the 512 slots of the directory and reads on past them. -/
theorem never_reclaims (ptr : Nat → Addr) (k : Krnl) (p : Pid) (mm : Mm)
    (hmm : k.ownMm p = some mm) :
    ¬ Reclaims ptr k p mm ∧ freePcbMemph ptr k p = .error .pgdBounds ∧
    ∃ k', freePcbLoop ptr p (List.range paging64PgtblEntries) k = .ok (k', 0) ∧
      k'.mram.freeFpList.fpns.length + k'.activeMswp.freeFpList.fpns.length =
        k.mram.freeFpList.fpns.length + k.activeMswp.freeFpList.fpns.length + 512 := by
  refine ⟨not_reclaims hmm, freePcbMemph_overruns hmm, _, freePcbLoop_slots hmm, ?_⟩
  rw [Krnl.putSlots_length, List.length_range]
  rfl

/-- A process with one resident page. -/
theorem never_reclaims_one : ∃ s mm,
    Lts.Reaches step (boot 512 512 true true) (loadOn 0 0 ++ [.run 0 ⟨.alloc, 100, 0, 0, 0⟩ 0]) s ∧
    s.krnl.ownMm 0 = some mm ∧ Resident (mm.pte 0) ∧
    ∀ ptr, ¬ Reclaims ptr s.krnl 0 mm := by
  obtain ⟨s, hs⟩ := Option.isSome_iff_exists.mp
    (by decide +kernel : (Lts.exec step (boot 512 512 true true)
      (loadOn 0 0 ++ [.run 0 ⟨.alloc, 100, 0, 0, 0⟩ 0])).isSome)
  have hpte : (s.krnl.ownMm 0).map (fun mm => mm.pte 0) = some 0x80000000 :=
    Lts.exec_map (g := fun s => (s.krnl.ownMm 0).map (fun mm => mm.pte 0)) hs (by decide +kernel)
  obtain ⟨mm, hmm, hread⟩ := Option.map_eq_some_iff.mp hpte
  refine ⟨s, mm, Lts.reaches_of_exec hs, hmm, ?_, fun ptr => (never_reclaims ptr _ 0 mm hmm).1⟩
  rw [hread]
  decide

/-- A process just loaded has no page and no table: swap frame 0, which is free already, is put on
the free list 512 times before the call reads past the directory. -/
theorem reclaim_overruns : ∃ s mm,
    Lts.Reaches step (boot 512 512 true true) (loadOn 0 0) s ∧ s.krnl.ownMm 0 = some mm ∧
    ∀ ptr, ¬ Reclaims ptr s.krnl 0 mm ∧ freePcbMemph ptr s.krnl 0 = .error .pgdBounds ∧
      ∃ k', freePcbLoop ptr 0 (List.range paging64PgtblEntries) s.krnl = .ok (k', 0) ∧
        k'.activeMswp.freeFpList.fpns = List.replicate 512 0 ++ [0, 1] := by
  obtain ⟨s, hs, _, hmm, _, _, hswp⟩ := exec_loadOn 512 512 true true
  refine ⟨s, _, Lts.reaches_of_exec hs, hmm, fun ptr => ?_⟩
  have hfree : s.krnl.activeMswp.freeFpList.fpns = [0, 1] := by
    rw [hswp]
    decide
  refine ⟨not_reclaims hmm, freePcbMemph_overruns hmm, _, freePcbLoop_slots hmm, ?_⟩
  rw [Krnl.putSlots_empty (fun _ => rfl), List.length_range, hfree]
  rfl

end SimpleOs
