/-
# `SimpleOs.FailedFault` — when a failed page fault leaves no trace

`pg_getpage` gives up in two places.  Without a victim it returns before it has
done anything.  Without a swap frame it returns after `find_victim_page` has
taken the victim off the replacement list, and nobody puts it back: the page
stays in its frame and can never be chosen again.

The state is any state here, reachable or not; an entry may have any value.
-/
import SimpleOs.Reach

namespace SimpleOs

/-- What a process can observe of the memory system is as before: its entries, replacement list
and regions, the other processes, and both devices with their free lists and bytes. -/
structure SameMemory (k k' : Krnl) (p : Pid) (mm : Mm) : Prop where
  own : ∃ mm', k'.ownMm p = some mm' ∧ (∀ n, mm'.pte n = mm.pte n) ∧
    mm'.fifoPgn = mm.fifoPgn ∧ mm'.mmap = mm.mmap ∧ mm'.symrgtbl = mm.symrgtbl
  other : ∀ q, q ≠ p → k'.ownMm q = k.ownMm q
  ram : k'.mram = k.mram
  swp : k'.activeMswp = k.activeMswp

/-- `k` with swap frame `s` given back. -/
def Krnl.putSwp (k : Krnl) (s : Nat) : Krnl :=
  { k with activeMswp := memphyPutFreefp k.activeMswp s }

/-- A call that returns -1 changes nothing, and where a swap frame was missing it does not return
-1 again once one is free. -/
def FailsCleanly (k : Krnl) (p : Pid) (mm : Mm) (pgn : Nat) (junk : Byte) : Prop :=
  ∀ k', pgGetpage k mm pgn p junk = .ok (k', none) →
    SameMemory k k' p mm ∧
    (mm.fifoPgn ≠ [] → ∀ mm' s k'' r, k'.ownMm p = some mm' →
      pgGetpage (k'.putSwp s) mm' pgn p junk = .ok (k'', r) → r ≠ none)

/-- The page is not present, there is a victim for it, and no swap frame for the victim. -/
def DropsVictim (k : Krnl) (mm : Mm) (pgn : Nat) : Prop :=
  pagingPagePresent (mm.pte pgn) = false ∧ mm.fifoPgn ≠ [] ∧
    k.activeMswp.freeFpList.fpns = [] ∧ k.activeMswp.freeFpList.closed = true

instance (k : Krnl) (mm : Mm) (pgn : Nat) : Decidable (DropsVictim k mm pgn) :=
  inferInstanceAs (Decidable (_ ∧ _))

section Failure
variable {k k' : Krnl} {p : Pid} {mm : Mm} {pgn : Nat} {junk : Byte}

/-- With a victim and a swap frame the handler does not return -1. -/
theorem pgGetpage_ne_none {s : Nat} {rest : List Nat} {r : Option Nat} (hf : mm.fifoPgn ≠ [])
    (hs : k.activeMswp.freeFpList.fpns = s :: rest)
    (h : pgGetpage k mm pgn p junk = .ok (k', r)) : r ≠ none := by
  obtain ⟨pgs, v, hv⟩ := (List.eq_nil_or_concat mm.fifoPgn).resolve_left hf
  rw [List.concat_eq_append] at hv
  have hvic : findVictimPage (mm.touch pgn) = ((mm.touch pgn).setFifo pgs, some v) :=
    findVictimPage_concat hv
  cases hp : pagingPagePresent (mm.pte pgn) with
  | true =>
      rw [pgGetpage_hit hp] at h
      cases h
      exact Option.some_ne_none _
  | false =>
      simp only [pgGetpage, pteGetEntry_eq, hp, hvic, Bool.not_false, if_true,
        memphyGetFreefp_cons hs, bind_ok] at h
      obtain ⟨⟨_, _⟩, hget, h⟩ := h
      cases hget
      rw [bind_ok] at h
      obtain ⟨_, _, h⟩ := h
      split at h
      next =>
        simp only [bind_ok] at h
        obtain ⟨_, _, _, _, h⟩ := h
        cases h
        exact Option.some_ne_none _
      next =>
        rw [bind_ok] at h
        obtain ⟨_, _, h⟩ := h
        cases h
        exact Option.some_ne_none _

/-- Why the handler returns -1. -/
theorem pgGetpage_none (h : pgGetpage k mm pgn p junk = .ok (k', none)) :
    pagingPagePresent (mm.pte pgn) = false ∧
    ((mm.fifoPgn = [] ∧ k' = k.setMm p (mm.touch pgn)) ∨
     (∃ pgs v, mm.fifoPgn = pgs ++ [v] ∧ k.activeMswp.freeFpList.fpns = [] ∧
      k.activeMswp.freeFpList.closed = true ∧ k' = k.setMm p ((mm.touch pgn).setFifo pgs))) := by
  cases hp : pagingPagePresent (mm.pte pgn) with
  | true =>
      rw [pgGetpage_hit hp] at h
      cases h
  | false =>
      refine ⟨rfl, ?_⟩
      rcases List.eq_nil_or_concat mm.fifoPgn with hf | ⟨pgs, v, hf⟩
      · rw [pgGetpage_noVictim hp hf] at h
        cases h
        exact Or.inl ⟨hf, rfl⟩
      · rw [List.concat_eq_append] at hf
        cases hs : k.activeMswp.freeFpList.fpns with
        | nil =>
            rw [pgGetpage_noSwap hp hf hs] at h
            split at h
            next hc =>
              cases h
              exact Or.inr ⟨pgs, v, hf, rfl, hc, rfl⟩
            next => cases h
        | cons s rest =>
            have hne : mm.fifoPgn ≠ [] := by
              rw [hf]
              exact List.append_ne_nil_of_right_ne_nil _ (List.cons_ne_nil v [])
            exact absurd rfl (pgGetpage_ne_none hne hs h)

/-- Without a victim nothing but empty tables has been added. -/
theorem sameMemory_touch :
    SameMemory k (k.setMm p (mm.touch pgn)) p mm where
  own := ⟨_, Krnl.setMm_self _ _ _, fun n => Mm.touch_pte mm n pgn, rfl, rfl, rfl⟩
  other := fun _ hq => Krnl.setMm_of_ne _ _ _ hq
  ram := rfl
  swp := rfl

/-- A dropped victim is a trace. -/
theorem DropsVictim.not_clean (h : DropsVictim k mm pgn) : ¬ FailsCleanly k p mm pgn junk := by
  intro hclean
  obtain ⟨hp, hf, hs, hc⟩ := h
  obtain ⟨pgs, v, hv⟩ := (List.eq_nil_or_concat mm.fifoPgn).resolve_left hf
  rw [List.concat_eq_append] at hv
  have hcall := @pgGetpage_noSwap k mm p pgn junk pgs v hp hv hs
  rw [if_pos hc] at hcall
  obtain ⟨⟨mm', hmm', _, hfifo, _⟩, _⟩ := (hclean _ hcall).1
  obtain rfl := Option.some.inj ((Krnl.setMm_self _ _ _).symm.trans hmm')
  have hlen : pgs.length = (pgs ++ [v]).length := by
    rw [← hv, ← hfifo]
    rfl
  rw [List.length_append, List.length_singleton] at hlen
  omega

end Failure

/-- A failed page fault leaves no trace exactly when it does not drop a victim. -/
theorem failed_fault_clean (k : Krnl) (p : Pid) (mm : Mm) (pgn : Nat) (junk : Byte) :
    FailsCleanly k p mm pgn junk ↔ ¬ DropsVictim k mm pgn := by
  constructor
  · intro hclean hdrop
    exact hdrop.not_clean hclean
  · intro hno k' h
    obtain ⟨hp, ⟨hf, rfl⟩ | ⟨pgs, v, hf, hs, hc, _⟩⟩ := pgGetpage_none h
    · exact ⟨sameMemory_touch, fun hne => absurd hf hne⟩
    · have hne : mm.fifoPgn ≠ [] := by
        rw [hf]
        exact List.append_ne_nil_of_right_ne_nil _ (List.cons_ne_nil v [])
      exact absurd ⟨hp, hne, hs, hc⟩ hno

/-- One page mapped, no swap device: touching page 5 fails and drops page 0. -/
theorem failed_fault_drops_victim : ∃ s mm,
    Lts.Reaches step (boot 512 0 true true) (loadOn 0 1 ++ [.run 0 ⟨.alloc, 100, 0, 0, 0⟩ 0]) s ∧
    s.krnl.ownMm 1 = some mm ∧ ¬ FailsCleanly s.krnl 1 mm 5 0 := by
  obtain ⟨s, hs⟩ := Option.isSome_iff_exists.mp
    (by decide +kernel : (Lts.exec step (boot 512 0 true true)
      (loadOn 0 1 ++ [.run 0 ⟨.alloc, 100, 0, 0, 0⟩ 0])).isSome)
  have hread : (s.krnl.ownMm 1).map (fun mm => decide (DropsVictim s.krnl mm 5)) = some true :=
    Lts.exec_map (g := fun s => (s.krnl.ownMm 1).map (fun mm => decide (DropsVictim s.krnl mm 5)))
      hs (by decide +kernel)
  obtain ⟨mm, hmm, hdrop⟩ := Option.map_eq_some_iff.mp hread
  exact ⟨s, mm, Lts.reaches_of_exec hs, hmm, (of_decide_eq_true hdrop).not_clean⟩

end SimpleOs
