/-
# `SimpleOs.Lib.Barrier` — what a barrier is for

Participants work in rounds.  Each arrives at the end of its round, waits, and
passes; a participant that is not waiting may leave.  The round ends when
everyone who has not left has arrived for it.

`Step` is the whole of it.  `InStep` is what a participant can rely on: it has
passed once per round that has ended, except that it may not yet have passed
after the last one.
-/
import Mathlib.Logic.Function.Basic
import Mathlib.Logic.Relation
import Mathlib.Data.Set.Defs

namespace Barrier

variable {ι : Type}

/-- The number of rounds that have ended, and how often each participant arrived and passed. -/
@[ext]
structure State (ι : Type) where
  round : Nat
  arrived : ι → Nat
  passed : ι → Nat
  left : ι → Bool

/-- Nobody has done anything. -/
def State.init : State ι where
  round := 0
  arrived := fun _ => 0
  passed := fun _ => 0
  left := fun _ => false

/-- What can happen at a barrier between `members`. -/
inductive Step [DecidableEq ι] (members : Set ι) (s : State ι) : State ι → Prop
  | arrive (d : ι) : d ∈ members → s.left d = false → s.arrived d = s.passed d →
      Step members s { s with arrived := Function.update s.arrived d (s.arrived d + 1) }
  | tick : (∀ d ∈ members, s.left d = true ∨ s.arrived d = s.round + 1) →
      Step members s { s with round := s.round + 1 }
  | pass (d : ι) : d ∈ members → s.arrived d = s.passed d + 1 → s.arrived d ≤ s.round →
      Step members s { s with passed := Function.update s.passed d (s.passed d + 1) }
  | leave (d : ι) : d ∈ members → s.left d = false → s.arrived d = s.passed d →
      Step members s { s with left := Function.update s.left d true }

/-- Participant `d` is in step with the round. -/
structure InStep (s : State ι) (d : ι) : Prop where
  passed_le : s.passed d ≤ s.arrived d
  arrived_le : s.arrived d ≤ s.passed d + 1
  active : s.left d = false →
    s.passed d ≤ s.round ∧ s.round ≤ s.arrived d ∧ s.arrived d ≤ s.round + 1

theorem inStep_init (d : ι) : InStep (State.init : State ι) d where
  passed_le := Nat.le_refl 0
  arrived_le := Nat.zero_le _
  active := fun _ => ⟨Nat.le_refl 0, Nat.le_refl 0, Nat.zero_le _⟩

variable [DecidableEq ι] {members : Set ι} {s s' : State ι}

/-- One step keeps everybody in step. -/
theorem Step.inStep (h : Step members s s') (hin : ∀ d ∈ members, InStep s d) :
    ∀ d ∈ members, InStep s' d := by
  intro i hi
  have hs := hin i hi
  cases h with
  | arrive d _ hleft hidle =>
      by_cases hid : i = d
      · subst hid
        obtain ⟨hround, hround', _⟩ := hs.active hleft
        constructor <;> simp only [Function.update_self] <;> omega
      · constructor <;> simp only [Function.update_of_ne hid]
        · exact hs.passed_le
        · exact hs.arrived_le
        · exact hs.active
  | tick hall =>
      refine ⟨hs.passed_le, hs.arrived_le, ?_⟩
      intro hleft
      have harrived : s.arrived i = s.round + 1 :=
        (hall i hi).resolve_left fun hgone => Bool.false_ne_true (hleft.symm.trans hgone)
      obtain ⟨hround, _, _⟩ := hs.active hleft
      show s.passed i ≤ s.round + 1 ∧ s.round + 1 ≤ s.arrived i ∧ s.arrived i ≤ s.round + 1 + 1
      omega
  | pass d _ hwait hround =>
      by_cases hid : i = d
      · subst hid
        have hactive := hs.active
        constructor <;> simp only [Function.update_self]
        · omega
        · omega
        · intro hleft
          obtain ⟨_, hle, hle'⟩ := hactive hleft
          omega
      · constructor <;> simp only [Function.update_of_ne hid]
        · exact hs.passed_le
        · exact hs.arrived_le
        · exact hs.active
  | leave d _ _ _ =>
      refine ⟨hs.passed_le, hs.arrived_le, ?_⟩
      intro hleft
      by_cases hid : i = d
      · subst hid
        simp only [Function.update_self, Bool.true_eq_false] at hleft
      · simp only [Function.update_of_ne hid] at hleft
        exact hs.active hleft

/-- In every run everybody is in step. -/
theorem inStep_of_reaches (h : Relation.ReflTransGen (Step members) State.init s) :
    ∀ d ∈ members, InStep s d := by
  induction h with
  | refl => exact fun d _ => inStep_init d
  | tail _ hs ih => exact hs.inStep ih

end Barrier
