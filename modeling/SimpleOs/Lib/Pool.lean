/-
# `SimpleOs.Lib.Pool` — a pool of numbered units shared by owners and a free list

Units `0 .. num-1` are either on a free list or held by an owner, `own i`
being the unit that owner `i` holds, if any.

* `Exclusive` is safety: the free list has no duplicates, no unit is held
  twice, no held unit is free.  It survives a unit being lost.
* `Partition` adds that nothing is lost: every unit is free or held.

Each lemma is one way a unit changes hands: handed out from the head of the
free list (`give`), passed from one owner to another (`move`), put back
(`putBack`), let go of (`Exclusive.drop`), or lost from the free list
(`Exclusive.leak`).  The new
ownership map is only described pointwise, so a client states what its own
step did and needs no function update.
-/
import Mathlib.Data.List.Nodup

namespace Pool

variable {ι : Type} {own own' : ι → Option Nat} {free : List Nat} {num f : Nat}

/-- No unit is in two places. -/
structure Exclusive (own : ι → Option Nat) (free : List Nat) (num : Nat) : Prop where
  nodup : free.Nodup
  free_lt : ∀ f ∈ free, f < num
  own_lt : ∀ i f, own i = some f → f < num
  own_inj : ∀ i j f, own i = some f → own j = some f → i = j
  disjoint : ∀ i f, own i = some f → f ∉ free

/-- Every unit is in exactly one place. -/
structure Partition (own : ι → Option Nat) (free : List Nat) (num : Nat) : Prop
    extends Exclusive own free num where
  total : ∀ f < num, f ∈ free ∨ ∃ i, own i = some f

/-- A fresh pool: everything free, nothing held. -/
theorem Partition.fresh (hown : ∀ i, own i = none) (num : Nat) :
    Partition own (List.range num) num where
  nodup := List.nodup_range
  free_lt := fun f hf => List.mem_range.mp hf
  own_lt := fun i f h => by simp [hown] at h
  own_inj := fun i j f h => by simp [hown] at h
  disjoint := fun i f h => by simp [hown] at h
  total := fun f hf => Or.inl (List.mem_range.mpr hf)

/-! ## A unit leaves the free list -/

/-- The head of the free list goes to `i`; what `i` held before is dropped. -/
theorem Exclusive.give (h : Exclusive own (f :: free) num) {i : ι}
    (hi : own' i = some f) (ho : ∀ j, j ≠ i → own' j = own j) : Exclusive own' free num where
  nodup := (List.nodup_cons.mp h.nodup).2
  free_lt := fun g hg => h.free_lt g (List.mem_cons_of_mem _ hg)
  own_lt := by
    intro j g hj
    by_cases hji : j = i
    · subst hji
      rw [hi] at hj
      exact Option.some.inj hj ▸ h.free_lt f List.mem_cons_self
    · exact h.own_lt j g (ho j hji ▸ hj)
  own_inj := by
    intro j k g hj hk
    by_cases hji : j = i <;> by_cases hki : k = i
    · rw [hji, hki]
    · subst hji
      rw [hi] at hj
      obtain rfl := Option.some.inj hj
      exact absurd List.mem_cons_self (h.disjoint k f (ho k hki ▸ hk))
    · subst hki
      rw [hi] at hk
      obtain rfl := Option.some.inj hk
      exact absurd List.mem_cons_self (h.disjoint j f (ho j hji ▸ hj))
    · exact h.own_inj j k g (ho j hji ▸ hj) (ho k hki ▸ hk)
  disjoint := by
    intro j g hj hg
    by_cases hji : j = i
    · subst hji
      rw [hi] at hj
      obtain rfl := Option.some.inj hj
      exact (List.nodup_cons.mp h.nodup).1 hg
    · exact h.disjoint j g (ho j hji ▸ hj) (List.mem_cons_of_mem _ hg)

/-- Handing a unit to somebody who holds none loses nothing. -/
theorem Partition.give (h : Partition own (f :: free) num) {i : ι} (hfree : own i = none)
    (hi : own' i = some f) (ho : ∀ j, j ≠ i → own' j = own j) : Partition own' free num where
  toExclusive := h.toExclusive.give hi ho
  total := by
    intro g hg
    rcases h.total g hg with hmem | ⟨j, hj⟩
    · rcases List.mem_cons.mp hmem with rfl | hmem
      · exact Or.inr ⟨i, hi⟩
      · exact Or.inl hmem
    · have hji : j ≠ i := by rintro rfl; simp [hfree] at hj
      exact Or.inr ⟨j, by rw [ho j hji, hj]⟩

/-- A unit taken off the free list and lost. -/
theorem Exclusive.leak (h : Exclusive own (f :: free) num) : Exclusive own free num where
  nodup := (List.nodup_cons.mp h.nodup).2
  free_lt := fun g hg => h.free_lt g (List.mem_cons_of_mem _ hg)
  own_lt := h.own_lt
  own_inj := h.own_inj
  disjoint := fun i g hi hg => h.disjoint i g hi (List.mem_cons_of_mem _ hg)

/-- Any number of units taken off the free list and lost. -/
theorem Exclusive.leakAll (h : Exclusive own free num) : Exclusive own [] num := by
  induction free with
  | nil => exact h
  | cons f free ih => exact ih h.leak

/-! ## A unit changes owner -/

/-- Owners that let go of their unit cannot break exclusiveness. -/
theorem Exclusive.drop (h : Exclusive own free num)
    (ho : ∀ j, own' j = own j ∨ own' j = none) : Exclusive own' free num := by
  have hsub : ∀ j g, own' j = some g → own j = some g := by
    intro j g hj
    rcases ho j with hj' | hj'
    · rw [← hj', hj]
    · rw [hj'] at hj; exact nomatch hj
  exact {
    nodup := h.nodup
    free_lt := h.free_lt
    own_lt := fun j g hj => h.own_lt j g (hsub j g hj)
    own_inj := fun j k g hj hk => h.own_inj j k g (hsub j g hj) (hsub k g hk)
    disjoint := fun j g hj => h.disjoint j g (hsub j g hj) }

/-- `i`'s unit passes to `j`; what `j` held before is dropped. -/
theorem Exclusive.move (h : Exclusive own free num) {i j : ι} (hown : own i = some f)
    (hi : own' i = none) (hj : own' j = some f) (ho : ∀ k, k ≠ i → k ≠ j → own' k = own k) :
    Exclusive own' free num := by
  -- every holding after the move is a holding before it, of `k` itself or of `i`
  have hsub : ∀ k g, own' k = some g → (k ≠ i ∧ k ≠ j ∧ own k = some g) ∨ (k = j ∧ g = f) := by
    intro k g hk
    by_cases hki : k = i
    · subst hki; rw [hi] at hk; exact nomatch hk
    · by_cases hkj : k = j
      · subst hkj; rw [hj] at hk; exact Or.inr ⟨rfl, (Option.some.inj hk).symm⟩
      · exact Or.inl ⟨hki, hkj, by rw [← ho k hki hkj, hk]⟩
  exact {
    nodup := h.nodup
    free_lt := h.free_lt
    own_lt := by
      intro k g hk
      rcases hsub k g hk with ⟨_, _, hk'⟩ | ⟨_, rfl⟩
      · exact h.own_lt k g hk'
      · exact h.own_lt i _ hown
    own_inj := by
      intro k l g hk hl
      rcases hsub k g hk with ⟨hki, _, hk'⟩ | ⟨rfl, rfl⟩
      · rcases hsub l g hl with ⟨_, _, hl'⟩ | ⟨rfl, rfl⟩
        · exact h.own_inj k l g hk' hl'
        · exact absurd (h.own_inj k i _ hk' hown) hki
      · rcases hsub l _ hl with ⟨hli, _, hl'⟩ | ⟨rfl, _⟩
        · exact absurd (h.own_inj l i _ hl' hown) hli
        · rfl
    disjoint := by
      intro k g hk
      rcases hsub k g hk with ⟨_, _, hk'⟩ | ⟨_, rfl⟩
      · exact h.disjoint k g hk'
      · exact h.disjoint i _ hown }

/-- Passing a unit to somebody who holds none loses nothing. -/
theorem Partition.move (h : Partition own free num) {i j : ι} (hown : own i = some f)
    (hnone : own j = none) (hi : own' i = none) (hj : own' j = some f)
    (ho : ∀ k, k ≠ i → k ≠ j → own' k = own k) : Partition own' free num where
  toExclusive := h.toExclusive.move hown hi hj ho
  total := by
    intro g hg
    rcases h.total g hg with hmem | ⟨k, hk⟩
    · exact Or.inl hmem
    · by_cases hki : k = i
      · subst hki
        exact Or.inr ⟨j, by rw [hj, ← hown, hk]⟩
      · have hkj : k ≠ j := by rintro rfl; simp [hnone] at hk
        exact Or.inr ⟨k, by rw [ho k hki hkj, hk]⟩

/-! ## A unit comes back -/

/-- `i` puts its unit back on the free list. -/
theorem Exclusive.putBack (h : Exclusive own free num) {i : ι} (hown : own i = some f)
    (hi : own' i = none) (ho : ∀ j, j ≠ i → own' j = own j) : Exclusive own' (f :: free) num := by
  have hsub : ∀ j g, own' j = some g → j ≠ i ∧ own j = some g := by
    intro j g hj
    have hji : j ≠ i := by rintro rfl; rw [hi] at hj; exact nomatch hj
    exact ⟨hji, by rw [← ho j hji, hj]⟩
  refine {
    nodup := List.nodup_cons.mpr ⟨h.disjoint i f hown, h.nodup⟩
    free_lt := ?_
    own_lt := fun j g hj => h.own_lt j g (hsub j g hj).2
    own_inj := fun j k g hj hk => h.own_inj j k g (hsub j g hj).2 (hsub k g hk).2
    disjoint := ?_ }
  · intro g hg
    rcases List.mem_cons.mp hg with rfl | hg
    · exact h.own_lt i _ hown
    · exact h.free_lt g hg
  · intro j g hj hg
    obtain ⟨hji, hj'⟩ := hsub j g hj
    rcases List.mem_cons.mp hg with rfl | hg
    · exact hji (h.own_inj j i _ hj' hown)
    · exact h.disjoint j g hj' hg

/-- Putting a unit back loses nothing. -/
theorem Partition.putBack (h : Partition own free num) {i : ι} (hown : own i = some f)
    (hi : own' i = none) (ho : ∀ j, j ≠ i → own' j = own j) : Partition own' (f :: free) num where
  toExclusive := h.toExclusive.putBack hown hi ho
  total := by
    intro g hg
    rcases h.total g hg with hmem | ⟨j, hj⟩
    · exact Or.inl (List.mem_cons_of_mem f hmem)
    · by_cases hji : j = i
      · subst hji
        obtain rfl := Option.some.inj (hown.symm.trans hj)
        exact Or.inl List.mem_cons_self
      · exact Or.inr ⟨j, by rw [ho j hji, hj]⟩

/-! ## Reading a partition unit by unit -/

/-- A unit is either once on the free list and held by nobody, or off the list
and held by exactly one owner. -/
theorem Partition.exactlyOne (h : Partition own free num) (hf : f < num) :
    (free.count f = 1 ∧ ∀ i, own i ≠ some f) ∨ (free.count f = 0 ∧ ∃! i, own i = some f) := by
  by_cases hmem : f ∈ free
  · exact Or.inl ⟨List.count_eq_one_of_mem h.nodup hmem, fun i hi => h.disjoint i f hi hmem⟩
  · obtain ⟨i, hi⟩ := (h.total f hf).resolve_left hmem
    exact Or.inr ⟨List.count_eq_zero.mpr hmem, i, hi, fun j hj => h.own_inj j i f hj hi⟩

end Pool
