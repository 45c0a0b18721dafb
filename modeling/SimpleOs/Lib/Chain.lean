/-
# `SimpleOs.Lib.Chain` — singly linked lists on a heap

A heap maps an address to the node that is live there: a value and the address
of the next node.  Address 0 is NULL and no node is there.

`Seg h p l q` says that following the links from `p` one passes the nodes `l`,
given by address and value, and arrives at `q`; `IsList h p l` that `l` are the
nodes of a list that starts at `p` and ends in NULL.  The two lemmas a queue needs
are `IsList.push` at the head and `IsList.cut` at the tail.
-/
import Mathlib.Data.List.Nodup
import Mathlib.Logic.Function.Basic

namespace Chain

variable {α : Type}

/-- A node. -/
structure Node (α : Type) where
  val : α
  next : Nat
  deriving DecidableEq, Repr

/-- The live nodes. -/
abbrev Heap (α : Type) := Nat → Option (Node α)

/-- From `p` over the nodes `l` to `q`. -/
def Seg (h : Heap α) : Nat → List (Nat × α) → Nat → Prop
  | p, [], q => p = q
  | p, (a, v) :: l, q => p = a ∧ a ≠ 0 ∧ ∃ next, h a = some ⟨v, next⟩ ∧ Seg h next l q

/-- A list that starts at `p` and ends in NULL. -/
structure IsList (h : Heap α) (p : Nat) (l : List (Nat × α)) : Prop where
  seg : Seg h p l 0
  nodup : (l.map Prod.fst).Nodup

variable {h h' : Heap α} {p q a b : Nat} {v w : α} {l l' : List (Nat × α)}

/-! ## Segments -/

/-- Segments compose, and split where the list does. -/
theorem seg_append : Seg h p (l ++ l') q ↔ ∃ m, Seg h p l m ∧ Seg h m l' q := by
  induction l generalizing p with
  | nil => exact ⟨fun hs => ⟨p, rfl, hs⟩, fun ⟨m, hp, hs⟩ => by cases hp; exact hs⟩
  | cons node l ih =>
      obtain ⟨a, v⟩ := node
      constructor
      · rintro ⟨rfl, ha, next, hn, hs⟩
        obtain ⟨m, hl, hl'⟩ := ih.mp hs
        exact ⟨m, ⟨rfl, ha, next, hn, hl⟩, hl'⟩
      · rintro ⟨m, ⟨rfl, ha, next, hn, hl⟩, hl'⟩
        exact ⟨rfl, ha, next, hn, ih.mpr ⟨m, hl, hl'⟩⟩

/-- A segment that ends in the node at `a`. -/
theorem seg_concat : Seg h p (l ++ [(a, v)]) q ↔
    Seg h p l a ∧ a ≠ 0 ∧ h a = some ⟨v, q⟩ := by
  rw [seg_append]
  constructor
  · rintro ⟨m, hl, rfl, ha, next, hn, hq⟩
    obtain rfl : next = q := hq
    exact ⟨hl, ha, hn⟩
  · rintro ⟨hl, ha, hn⟩
    exact ⟨a, hl, rfl, ha, q, hn, rfl⟩

/-- A segment only depends on its own nodes. -/
theorem Seg.congr (hh : ∀ a ∈ l.map Prod.fst, h' a = h a) (hs : Seg h p l q) : Seg h' p l q := by
  induction l generalizing p with
  | nil => exact hs
  | cons node l ih =>
      obtain ⟨a, v⟩ := node
      obtain ⟨rfl, ha, next, hn, hs⟩ := hs
      rw [List.map_cons] at hh
      refine ⟨rfl, ha, next, ?_, ih (fun b hb => hh b (List.mem_cons_of_mem _ hb)) hs⟩
      rw [hh p List.mem_cons_self, hn]

/-- Writing elsewhere changes no segment. -/
theorem Seg.update (hs : Seg h p l q) (ha : a ∉ l.map Prod.fst) (node : Option (Node α)) :
    Seg (Function.update h a node) p l q :=
  hs.congr fun _ hb => Function.update_of_ne (ne_of_mem_of_not_mem hb ha) _ _

/-- The nodes of a segment are live. -/
theorem Seg.live (hs : Seg h p l q) : ∀ a ∈ l.map Prod.fst, h a ≠ none := by
  induction l generalizing p with
  | nil => exact fun a ha => nomatch ha
  | cons node l ih =>
      obtain ⟨a, v⟩ := node
      obtain ⟨rfl, ha, next, hn, hs⟩ := hs
      intro b hb
      rcases List.mem_cons.mp hb with rfl | hb
      · exact hn ▸ Option.some_ne_none _
      · exact ih hs b hb

/-! ## Lists -/

theorem IsList.nil (h : Heap α) : IsList h 0 [] := ⟨rfl, List.nodup_nil⟩

/-- The empty list is the one that starts at NULL. -/
theorem IsList.eq_nil_iff (hl : IsList h p l) : l = [] ↔ p = 0 := by
  cases l with
  | nil => exact ⟨fun _ => hl.seg, fun _ => rfl⟩
  | cons node l =>
      obtain ⟨rfl, ha, _⟩ := hl.seg
      exact iff_of_false (List.cons_ne_nil _ _) ha

/-- A fresh node in front. -/
theorem IsList.push (hl : IsList h p l) (ha : a ≠ 0) (hfresh : h a = none) (v : α) :
    IsList (Function.update h a (some ⟨v, p⟩)) a ((a, v) :: l) := by
  have hnot : a ∉ l.map Prod.fst := fun hmem => hl.seg.live a hmem hfresh
  refine ⟨⟨rfl, ha, p, Function.update_self _ _ _, hl.seg.update hnot _⟩, ?_⟩
  rw [List.map_cons]
  exact List.nodup_cons.mpr ⟨hnot, hl.nodup⟩

/-- The last node, the one before it now ending the list, is taken off. -/
theorem IsList.cut (hl : IsList h p (l ++ [(a, v)] ++ [(b, w)])) :
    IsList (Function.update (Function.update h a (some ⟨v, 0⟩)) b none) p (l ++ [(a, v)]) := by
  have hnodup := hl.nodup
  rw [List.map_append, List.nodup_append] at hnodup
  obtain ⟨hinit, -, hne⟩ := hnodup
  have hb : b ∉ (l ++ [(a, v)]).map Prod.fst :=
    fun hmem => hne b hmem b (by simp) rfl
  have ha : a ∉ l.map Prod.fst := by
    rw [List.map_append, List.nodup_append] at hinit
    exact fun hmem => hinit.2.2 a hmem a (by simp) rfl
  obtain ⟨hs, ha₀, -⟩ := seg_concat.mp (seg_concat.mp hl.seg).1
  have hs' : Seg (Function.update h a (some ⟨v, 0⟩)) p (l ++ [(a, v)]) 0 :=
    seg_concat.mpr ⟨hs.update ha _, ha₀, Function.update_self _ _ _⟩
  exact ⟨hs'.update hb _, hinit⟩

end Chain
