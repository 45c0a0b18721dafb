/-
# `SimpleOs.Lib.Layout` — a space shared by named parts and a free list of parts

A space is cut into parts: part `entry i` has the name `i`, the parts of the
list `free` have none.  `Layout` says that all parts are pairwise disjoint and
lie in the space; a part may be empty.  `total` adds up the sizes of all parts.

Each lemma is one move of an allocator: carve a piece off a free part and give
it a name (`carve`, `carveAll`), name a piece of new space (`grow`), put a named
part on the free list (`release`), forget a part (`forget`).
-/
import Mathlib.Algebra.BigOperators.Group.Finset.Basic
import Mathlib.Algebra.Order.BigOperators.Group.Finset
import Mathlib.Data.Fintype.BigOperators
import Mathlib.Data.Set.Lattice
import Mathlib.Order.CompletePartialOrder
import Mathlib.Tactic.Ring

namespace Layout

/-! ## Disjointness -/

section Sets
variable {ι α : Type} {entry entry' : ι → Set α} {free : List (Set α)} {space space' : Set α}

/-- All parts are pairwise disjoint and lie in the space. -/
structure Disj (entry : ι → Set α) (free : List (Set α)) (space : Set α) : Prop where
  entries : ∀ i j, i ≠ j → Disjoint (entry i) (entry j)
  cross : ∀ i, ∀ g ∈ free, Disjoint (entry i) g
  nodes : free.Pairwise Disjoint
  entry_sub : ∀ i, entry i ⊆ space
  node_sub : ∀ g ∈ free, g ⊆ space

theorem Disj.mono_space (h : Disj entry free space) (hs : space ⊆ space') :
    Disj entry free space' where
  entries := h.entries
  cross := h.cross
  nodes := h.nodes
  entry_sub := fun i => (h.entry_sub i).trans hs
  node_sub := fun g hg => (h.node_sub g hg).trans hs

/-- Part `r` renamed to `p`, which must be disjoint from every other part. -/
theorem Disj.rename (h : Disj entry free space) {r : ι} {p : Set α} (hr : entry' r = p)
    (ho : ∀ i, i ≠ r → entry' i = entry i) (hp : p ⊆ space)
    (hpe : ∀ i, i ≠ r → Disjoint p (entry i)) (hpf : ∀ g ∈ free, Disjoint p g) :
    Disj entry' free space where
  entries := by
    intro i j hij
    by_cases hi : i = r
    · subst hi
      rw [hr, ho j hij.symm]
      exact hpe j hij.symm
    · rw [ho i hi]
      by_cases hj : j = r
      · subst hj
        rw [hr]
        exact (hpe i hi).symm
      · rw [ho j hj]
        exact h.entries i j hij
  cross := by
    intro i g hg
    by_cases hi : i = r
    · subst hi
      rw [hr]
      exact hpf g hg
    · rw [ho i hi]
      exact h.cross i g hg
  nodes := h.nodes
  entry_sub := by
    intro i
    by_cases hi : i = r
    · subst hi
      rw [hr]
      exact hp
    · rw [ho i hi]
      exact h.entry_sub i
  node_sub := h.node_sub

/-- The part named `r` is forgotten. -/
theorem Disj.forget (h : Disj entry free space) {r : ι} (hr : entry' r = ∅)
    (ho : ∀ i, i ≠ r → entry' i = entry i) : Disj entry' free space :=
  h.rename hr ho (Set.empty_subset _) (fun _ _ => Set.empty_disjoint _)
    (fun _ _ => Set.empty_disjoint _)

/-- New space, disjoint from the old, gets the name `r`. -/
theorem Disj.grow (h : Disj entry free space) {r : ι} {p : Set α} (hr : entry' r = p)
    (ho : ∀ i, i ≠ r → entry' i = entry i) (hs : space ⊆ space') (hp : p ⊆ space')
    (hnew : Disjoint p space) : Disj entry' free space' :=
  (h.mono_space hs).rename hr ho hp (fun i _ => hnew.mono_right (h.entry_sub i))
    (fun g hg => hnew.mono_right (h.node_sub g hg))

/-- The part named `r` becomes the head of the free list. -/
theorem Disj.release (h : Disj entry free space) {r : ι} (hr : entry' r = ∅)
    (ho : ∀ i, i ≠ r → entry' i = entry i) : Disj entry' (entry r :: free) space := by
  have hf := h.forget hr ho
  refine ⟨hf.entries, ?_, ?_, hf.entry_sub, ?_⟩
  · intro i g hg
    rcases List.mem_cons.mp hg with rfl | hg
    · by_cases hi : i = r
      · rw [hi, hr]
        exact Set.empty_disjoint _
      · rw [ho i hi]
        exact h.entries i r hi
    · exact hf.cross i g hg
  · exact List.pairwise_cons.mpr ⟨fun g hg => h.cross r g hg, h.nodes⟩
  · intro g hg
    rcases List.mem_cons.mp hg with rfl | hg
    · exact h.entry_sub r
    · exact h.node_sub g hg

section Carve
variable {pre post : List (Set α)} {g rest p : Set α} {r : ι}

/-- A free part shrinks to `rest`. -/
theorem Disj.shrink (h : Disj entry (pre ++ g :: post) space) (hrest : rest ⊆ g) :
    Disj entry (pre ++ rest :: post) space := by
  obtain ⟨hpre, hpost, hpp⟩ := List.pairwise_append.mp h.nodes
  obtain ⟨hgpost, hpost⟩ := List.pairwise_cons.mp hpost
  -- a member of the new list lies inside a member of the old list
  have hmem : ∀ q ∈ pre ++ rest :: post, ∃ q' ∈ pre ++ g :: post, q ⊆ q' := by
    intro q hq
    rcases List.mem_append.mp hq with hq | hq
    · exact ⟨q, List.mem_append_left _ hq, subset_rfl⟩
    · rcases List.mem_cons.mp hq with rfl | hq
      · exact ⟨g, List.mem_append_right _ List.mem_cons_self, hrest⟩
      · exact ⟨q, List.mem_append_right _ (List.mem_cons_of_mem _ hq), subset_rfl⟩
  refine ⟨h.entries, ?_, ?_, h.entry_sub, ?_⟩
  · intro i q hq
    obtain ⟨q', hq', hsub⟩ := hmem q hq
    exact (h.cross i q' hq').mono_right hsub
  · refine List.pairwise_append.mpr ⟨hpre, List.pairwise_cons.mpr ⟨?_, hpost⟩, ?_⟩
    · intro q hq
      exact (hgpost q hq).mono_left hrest
    · intro a ha b hb
      rcases List.mem_cons.mp hb with rfl | hb
      · exact (hpp a ha g List.mem_cons_self).mono_right hrest
      · exact hpp a ha b (List.mem_cons_of_mem _ hb)
  · intro q hq
    obtain ⟨q', hq', hsub⟩ := hmem q hq
    exact hsub.trans (h.node_sub q' hq')

/-- A free part is unlinked. -/
theorem Disj.unlink (h : Disj entry (pre ++ g :: post) space) : Disj entry (pre ++ post) space := by
  have hsub : (pre ++ post).Sublist (pre ++ g :: post) :=
    List.Sublist.append_left (List.sublist_cons_self g post) pre
  exact ⟨h.entries, fun i q hq => h.cross i q (hsub.subset hq), h.nodes.sublist hsub,
    h.entry_sub, fun q hq => h.node_sub q (hsub.subset hq)⟩

/-- A piece `p` of the free part `g` gets the name `r`, `rest` stays free. -/
theorem Disj.carve (h : Disj entry (pre ++ g :: post) space) (hr : entry' r = p)
    (ho : ∀ i, i ≠ r → entry' i = entry i) (hp : p ⊆ g) (hrest : rest ⊆ g)
    (hpr : Disjoint p rest) : Disj entry' (pre ++ rest :: post) space := by
  obtain ⟨_, hpost, hpp⟩ := List.pairwise_append.mp h.nodes
  obtain ⟨hgpost, _⟩ := List.pairwise_cons.mp hpost
  have hg : g ∈ pre ++ g :: post := List.mem_append_right _ List.mem_cons_self
  refine (h.shrink hrest).rename hr ho (hp.trans (h.node_sub g hg))
    (fun i _ => ((h.cross i g hg).mono_right hp).symm) ?_
  intro q hq
  rcases List.mem_append.mp hq with hq | hq
  · exact ((hpp q hq g List.mem_cons_self).mono_right hp).symm
  · rcases List.mem_cons.mp hq with rfl | hq
    · exact hpr
    · exact (hgpost q hq).mono_left hp

/-- Everything that lies in one of the parts. -/
def union (parts : List (Set α)) : Set α := {a | ∃ s ∈ parts, a ∈ s}

/-- Of disjoint parts, taking `p` out of one of them takes `p` out of their union. -/
theorem union_carve (h : (pre ++ g :: post).Pairwise Disjoint) (hp : p ⊆ g) :
    union (pre ++ (g \ p) :: post) = union (pre ++ g :: post) \ p := by
  obtain ⟨_, hpost, hpp⟩ := List.pairwise_append.mp h
  obtain ⟨hgpost, _⟩ := List.pairwise_cons.mp hpost
  -- `p` misses the parts it is not in
  have hmiss : ∀ q, q ∈ pre ∨ q ∈ post → ∀ a ∈ q, a ∉ p := by
    rintro q (hq | hq) a ha hap
    · exact Set.disjoint_left.mp (hpp q hq g List.mem_cons_self) ha (hp hap)
    · exact Set.disjoint_left.mp (hgpost q hq) (hp hap) ha
  ext a
  constructor
  · rintro ⟨q, hq, ha⟩
    rcases List.mem_append.mp hq with hq | hq
    · exact ⟨⟨q, List.mem_append_left _ hq, ha⟩, hmiss q (Or.inl hq) a ha⟩
    · rcases List.mem_cons.mp hq with rfl | hq
      · exact ⟨⟨g, List.mem_append_right _ List.mem_cons_self, ha.1⟩, ha.2⟩
      · exact ⟨⟨q, List.mem_append_right _ (List.mem_cons_of_mem _ hq), ha⟩,
          hmiss q (Or.inr hq) a ha⟩
  · rintro ⟨⟨q, hq, ha⟩, hap⟩
    rcases List.mem_append.mp hq with hq | hq
    · exact ⟨q, List.mem_append_left _ hq, ha⟩
    · rcases List.mem_cons.mp hq with rfl | hq
      · exact ⟨_, List.mem_append_right _ List.mem_cons_self, ha, hap⟩
      · exact ⟨q, List.mem_append_right _ (List.mem_cons_of_mem _ hq), ha⟩

/-- An empty part adds nothing. -/
theorem union_empty : union (pre ++ ∅ :: post) = union (pre ++ post) := by
  ext a
  constructor
  · rintro ⟨q, hq, ha⟩
    rcases List.mem_append.mp hq with hq | hq
    · exact ⟨q, List.mem_append_left _ hq, ha⟩
    · rcases List.mem_cons.mp hq with rfl | hq
      · exact ha.elim
      · exact ⟨q, List.mem_append_right _ hq, ha⟩
  · rintro ⟨q, hq, ha⟩
    rcases List.mem_append.mp hq with hq | hq
    · exact ⟨q, List.mem_append_left _ hq, ha⟩
    · exact ⟨q, List.mem_append_right _ (List.mem_cons_of_mem _ hq), ha⟩

end Carve

end Sets

/-! ## Sizes -/

section Sizes
variable {ι : Type} [Fintype ι] [DecidableEq ι] {len len' : ι → Nat} {free : List Nat}

/-- The sizes of all parts, added up. -/
def total (len : ι → Nat) (free : List Nat) : Nat := (∑ i, len i) + free.sum

/-- Changing the size of one named part. -/
theorem sum_rename {r : ι} (ho : ∀ i, i ≠ r → len' i = len i) :
    (∑ i, len' i) + len r = (∑ i, len i) + len' r := by
  have h := Finset.add_sum_erase Finset.univ len (Finset.mem_univ r)
  have h' := Finset.add_sum_erase Finset.univ len' (Finset.mem_univ r)
  have heq : ∑ i ∈ Finset.univ.erase r, len' i = ∑ i ∈ Finset.univ.erase r, len i :=
    Finset.sum_congr rfl (fun i hi => ho i (Finset.ne_of_mem_erase hi))
  omega

/-- Naming a piece while the free list shrinks by the same amount keeps the total. -/
theorem total_carve {r : ι} {free' : List Nat} (hempty : len r = 0)
    (ho : ∀ i, i ≠ r → len' i = len i) (hfree : len' r + free'.sum = free.sum) :
    total len' free' = total len free := by
  have h := sum_rename ho
  simp only [total]
  omega

/-- Naming new space raises the total by its size. -/
theorem total_grow {r : ι} (hempty : len r = 0) (ho : ∀ i, i ≠ r → len' i = len i) :
    total len' free = total len free + len' r := by
  have h := sum_rename ho
  simp only [total]
  omega

/-- Moving a named part to the free list keeps the total. -/
theorem total_release {r : ι} (hr : len' r = 0) (ho : ∀ i, i ≠ r → len' i = len i) :
    total len' (len r :: free) = total len free := by
  have h := sum_rename ho
  simp only [total, List.sum_cons]
  omega

end Sizes

end Layout
