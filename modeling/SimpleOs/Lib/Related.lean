/-
# `SimpleOs.Lib.Related` — rules for fallible computations

`Related R x y` says that `x` and `y` fail with the same error, or both succeed
with results related by `R`.  The rules are those of a relational program
logic: related computations are composed with `bind`, and a computation is
related to itself by every relation that holds of equal results.

`Avoids e x` says that `x` does not fail with `e`, `Succeeds x` that it does not fail; both are
composed the same way.
-/
import Mathlib.Tactic.Common

namespace Relational

variable {ε α β γ δ : Type}

/-- The same error, or related results. -/
inductive Related (R : α → β → Prop) : Except ε α → Except ε β → Prop
  | error (e : ε) : Related R (.error e) (.error e)
  | ok {a : α} {b : β} : R a b → Related R (.ok a) (.ok b)

variable {R : α → β → Prop} {S : γ → δ → Prop} {x : Except ε α} {y : Except ε β}

theorem Related.bind {f : α → Except ε γ} {g : β → Except ε δ} (h : Related R x y)
    (hf : ∀ a b, R a b → Related S (f a) (g b)) : Related S (x >>= f) (y >>= g) := by
  cases h with
  | error e => exact .error e
  | ok hab => exact hf _ _ hab

/-- Equal computations, continued with equal results. -/
theorem Related.bind_self {f : α → Except ε γ} {g : α → Except ε δ} (x : Except ε α)
    (hf : ∀ a, Related S (f a) (g a)) : Related S (x >>= f) (x >>= g) := by
  cases x with
  | error e => exact .error e
  | ok a => exact hf a

/-! ## Errors that do not occur -/

/-- `x` does not fail with `e`; it may fail otherwise. -/
def Avoids (e : ε) (x : Except ε α) : Prop := x ≠ .error e

theorem Avoids.ok (e : ε) (a : α) : Avoids e (.ok a : Except ε α) := by
  intro h
  exact nomatch h

theorem Avoids.error {e e' : ε} (h : e' ≠ e) : Avoids e (.error e' : Except ε α) := by
  intro heq
  exact h (Except.error.inj heq)

theorem Avoids.bind {e : ε} {f : α → Except ε γ} (h : Avoids e x)
    (hf : ∀ a, x = .ok a → Avoids e (f a)) : Avoids e (x >>= f) := by
  cases x with
  | error e' => exact fun heq => h (congrArg Except.error (Except.error.inj heq))
  | ok a => exact hf a rfl

/-- A loop none of whose rounds fails with `e`. -/
theorem Avoids.foldlM {e : ε} {f : α → β → Except ε α} (hf : ∀ a b, Avoids e (f a b)) :
    ∀ (bs : List β) (a : α), Avoids e (bs.foldlM f a) := by
  intro bs
  induction bs with
  | nil => intro a; exact .ok _ _
  | cons b bs ih =>
      intro a
      rw [List.foldlM_cons]
      exact (hf a b).bind fun a' _ => ih a'

/-! ## Computations that do not fail -/

def Succeeds (x : Except ε α) : Prop := ∃ a, x = .ok a

theorem Succeeds.ok (a : α) : Succeeds (.ok a : Except ε α) := ⟨a, rfl⟩

theorem Succeeds.bind {f : α → Except ε γ} (h : Succeeds x) (hf : ∀ a, x = .ok a → Succeeds (f a)) :
    Succeeds (x >>= f) := by
  obtain ⟨a, rfl⟩ := h
  exact hf a rfl

end Relational
