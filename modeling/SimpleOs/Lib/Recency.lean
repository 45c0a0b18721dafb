/-
# `SimpleOs.Lib.Recency` — lists ordered by arrival

A list keeps the members of a changing set, the newest first.  `Exact res since l`
says that `l` has exactly the members of `res` and that they stand in the order of
`since`, the time at which each of them last arrived.  No member then stands twice.

A set changes in two ways that the list can follow: members arrive at the front
(`Exact.arrive`), and the last of the list departs (`Exact.depart`).
-/
import Mathlib.Order.Basic
import Mathlib.Data.List.Pairwise

namespace Recency

variable {α τ : Type} [Preorder τ] {res res' : α → Prop} {since since' : α → τ}
  {l new : List α}

/-- `l` lists the members of `res`, the one that arrived last first. -/
structure Exact (res : α → Prop) (since : α → τ) (l : List α) : Prop where
  mem : ∀ a, a ∈ l ↔ res a
  order : l.Pairwise (fun a b => since b < since a)

theorem Exact.nodup (h : Exact res since l) : l.Nodup := by
  refine h.order.imp ?_
  intro a b hlt heq
  exact ne_of_lt hlt (congrArg since heq.symm)

theorem Exact.nil (h : ∀ a, ¬ res a) : Exact res since [] :=
  ⟨fun a => ⟨fun ha => (nomatch ha), fun ha => absurd ha (h a)⟩, .nil⟩

/-- Times of members are all that matters. -/
theorem Exact.congr (h : Exact res since l) (hres : ∀ a, res' a ↔ res a)
    (hsince : ∀ a, res a → since' a = since a) : Exact res' since' l where
  mem := fun a => (h.mem a).trans (hres a).symm
  order := by
    refine h.order.imp_of_mem ?_
    intro a b ha hb hlt
    rw [hsince a ((h.mem a).mp ha), hsince b ((h.mem b).mp hb)]
    exact hlt

/-- New members at the front, listed in the order of their arrival. -/
theorem Exact.arrive (h : Exact res since l) (hres : ∀ a, res' a ↔ a ∈ new ∨ res a)
    (hsince : ∀ a, res a → since' a = since a)
    (hnew : new.Pairwise (fun a b => since' b < since' a))
    (hlate : ∀ a ∈ new, ∀ b, res b → since' b < since' a) : Exact res' since' (new ++ l) where
  mem := by
    intro a
    rw [List.mem_append, h.mem, hres]
  order := by
    have hold : Exact res since' l := h.congr (fun _ => Iff.rfl) hsince
    refine List.pairwise_append.mpr ⟨hnew, hold.order, ?_⟩
    intro a ha b hb
    exact hlate a ha b ((h.mem b).mp hb)

/-- The member that arrived first departs. -/
theorem Exact.depart {v : α} (h : Exact res since (l ++ [v]))
    (hres : ∀ a, res' a ↔ res a ∧ a ≠ v) : Exact res' since l where
  mem := by
    intro a
    have hdistinct : v ∉ l := by
      have hn := h.nodup
      rw [List.nodup_append] at hn
      exact fun hv => hn.2.2 v hv v List.mem_cons_self rfl
    rw [hres, ← h.mem, List.mem_append, List.mem_singleton]
    constructor
    · intro ha
      exact ⟨Or.inl ha, fun hav => hdistinct (hav ▸ ha)⟩
    · rintro ⟨ha | ha, hne⟩
      · exact ha
      · exact absurd ha hne
  order := (List.pairwise_append.mp h.order).1

end Recency
