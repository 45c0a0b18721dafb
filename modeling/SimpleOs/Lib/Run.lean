/-
# `SimpleOs.Lib.Run` — finite runs of a partial step function

A system is a function `step : σ → ε → Option σ`; `none` means that the event
cannot be taken in that state.  `Run step ok s₀ es s` says that the events
`es`, oldest first, lead from `s₀` to `s` and that each of them met `ok` in the
state in which it was taken.  With `ok` trivial this is reachability.

The run lemma is `Run.invariant`: a predicate that holds at the start and that
every permitted step keeps holds at the end of every run.
-/
import Mathlib.Data.List.Induction

namespace Lts

variable {σ ε : Type}

/-- The events `es`, each permitted by `ok` where it is taken, lead from `s₀` to `s`. -/
inductive Run (step : σ → ε → Option σ) (ok : σ → ε → Prop) (s₀ : σ) : List ε → σ → Prop
  | nil : Run step ok s₀ [] s₀
  | snoc {es : List ε} {s s' : σ} (e : ε) :
      Run step ok s₀ es s → ok s e → step s e = some s' → Run step ok s₀ (es ++ [e]) s'

/-- Reachability: no condition on the events. -/
abbrev Reaches (step : σ → ε → Option σ) (s₀ : σ) (es : List ε) (s : σ) : Prop :=
  Run step (fun _ _ => True) s₀ es s

variable {step : σ → ε → Option σ} {ok ok' : σ → ε → Prop} {s₀ s s' : σ} {es es' : List ε}

/-- What holds at the start and is kept by every permitted step holds after every run. -/
theorem Run.invariant {P : σ → Prop} (h₀ : P s₀)
    (hstep : ∀ s e s', P s → ok s e → step s e = some s' → P s')
    (h : Run step ok s₀ es s) : P s := by
  induction h with
  | nil => exact h₀
  | snoc e _ hok hs ih => exact hstep _ e _ ih hok hs

theorem Run.mono (himp : ∀ s e, ok s e → ok' s e) (h : Run step ok s₀ es s) :
    Run step ok' s₀ es s := by
  induction h with
  | nil => exact .nil
  | snoc e _ hok hs ih => exact .snoc e ih (himp _ _ hok) hs

theorem Run.reaches (h : Run step ok s₀ es s) : Reaches step s₀ es s :=
  h.mono (fun _ _ _ => trivial)

/-- Runs compose. -/
theorem Run.append (h : Run step ok s₀ es s) (h' : Run step ok s es' s') :
    Run step ok s₀ (es ++ es') s' := by
  induction h' with
  | nil => rwa [List.append_nil]
  | snoc e _ hok hs ih =>
      rw [← List.append_assoc]
      exact .snoc e ih hok hs

/-- A run whose events are permitted wherever they are taken. -/
theorem Run.of_reaches (h : Reaches step s₀ es s) (hok : ∀ e ∈ es, ∀ s, ok s e) :
    Run step ok s₀ es s := by
  induction h with
  | nil => exact .nil
  | snoc e _ _ hs ih =>
      refine .snoc e (ih fun e' he' => hok e' (List.mem_append_left _ he')) ?_ hs
      exact hok e (List.mem_append_right _ (List.mem_singleton.mpr rfl)) _

/-- The state a list of events leads to, computed. -/
def exec (step : σ → ε → Option σ) (s : σ) (es : List ε) : Option σ :=
  es.foldlM step s

theorem exec_append (es es' : List ε) :
    exec step s (es ++ es') = (exec step s es).bind (fun s' => exec step s' es') := by
  simp only [exec, List.foldlM_append]
  rfl

/-- Reading the state a list of events leads to. -/
theorem exec_map {α : Type} {g : σ → α} {a : α} (h : exec step s es = some s')
    (hg : (exec step s es).map g = some a) : g s' = a := by
  rw [h] at hg
  exact Option.some.inj hg

/-- A computed run splits where the list does. -/
theorem exec_append_some (h : exec step s (es ++ es') = some s') :
    ∃ m, exec step s es = some m ∧ exec step m es' = some s' := by
  rw [exec_append, Option.bind_eq_some_iff] at h
  exact h

/-- A computed run is a run. -/
theorem reaches_of_exec : ∀ {es : List ε} {s' : σ}, exec step s es = some s' →
    Reaches step s es s' := by
  intro es
  induction es using List.reverseRecOn with
  | nil =>
      intro s' h
      obtain rfl : s = s' := Option.some.inj h
      exact .nil
  | append_singleton es e ih =>
      intro s' h
      rw [exec_append, Option.bind_eq_some_iff] at h
      obtain ⟨m, hm, he⟩ := h
      exact .snoc e (ih hm) trivial (by simpa [exec] using he)

/-- A permitted event before a run. -/
theorem Run.cons {e : ε} (hok : ok s₀ e) (hs : step s₀ e = some s) (h : Run step ok s es s') :
    Run step ok s₀ (e :: es) s' :=
  (Run.nil.snoc e hok hs).append h

/-- The state a list of events leads to, if every event is permitted where it is taken. -/
def check (step : σ → ε → Option σ) (ok : σ → ε → Prop) [∀ s e, Decidable (ok s e)] :
    σ → List ε → Option σ
  | s, [] => some s
  | s, e :: es => if ok s e then (step s e).bind (fun s' => check step ok s' es) else none

theorem run_of_check [∀ s e, Decidable (ok s e)] : ∀ {es : List ε} {s s' : σ},
    check step ok s es = some s' → Run step ok s es s' := by
  intro es
  induction es with
  | nil =>
      intro s s' h
      obtain rfl : s = s' := Option.some.inj h
      exact .nil
  | cons e es ih =>
      intro s s' h
      rw [check] at h
      split at h
      next hok =>
        obtain ⟨m, hm, hes⟩ := Option.bind_eq_some_iff.mp h
        exact (ih hes).cons hok hm
      next => exact nomatch h

/-- Reading the state a list of permitted events leads to. -/
theorem check_map [∀ s e, Decidable (ok s e)] {α : Type} {g : σ → α} {a : α}
    (h : check step ok s es = some s') (hg : (check step ok s es).map g = some a) : g s' = a := by
  rw [h] at hg
  exact Option.some.inj hg

/-! ## Systems that carry more -/

section Instrumented
variable {τ : Type} {step' : τ → ε → Option τ} {t₀ t : τ}

/-- A run of a system that carries more, with what it carries left out. -/
theorem Run.forget (ok : σ → ε → Prop) (f : τ → σ) (hf : ∀ t e, (step' t e).map f = step (f t) e)
    (h : Run step' (fun t e => ok (f t) e) t₀ es t) : Run step ok (f t₀) es (f t) := by
  induction h with
  | nil => exact .nil
  | snoc e _ hok hs ih => exact ih.snoc e hok (by rw [← hf, hs]; rfl)

/-- Carrying more stops no run. -/
theorem Run.instrument (f : τ → σ) (t₀ : τ) (hf : ∀ t e, (step' t e).map f = step (f t) e)
    (h : Run step ok (f t₀) es s) : ∃ t, Run step' (fun t e => ok (f t) e) t₀ es t ∧ f t = s := by
  induction h with
  | nil => exact ⟨t₀, .nil, rfl⟩
  | snoc e _ hok hs ih =>
      obtain ⟨t, hrun, rfl⟩ := ih
      rw [← hf, Option.map_eq_some_iff] at hs
      obtain ⟨t', hs', rfl⟩ := hs
      exact ⟨t', hrun.snoc e hok hs', rfl⟩

end Instrumented

/-! ## Systems that reply -/

section Replies
variable {τ α : Type}

/-- The last state and the replies of a total system. -/
def replies (f : σ → ε → σ × α) : σ → List ε → σ × List α
  | s, [] => (s, [])
  | s, e :: es => ((replies f (f s e).1 es).1, (f s e).2 :: (replies f (f s e).1 es).2)

/-- Two systems whose related states reply alike and stay related: no list of events tells them
apart. -/
theorem replies_sim {R : σ → τ → Prop} {p : ε → Prop} {f : σ → ε → σ × α} {g : τ → ε → τ × α}
    (hstep : ∀ s t e, R s t → p e → (f s e).2 = (g t e).2 ∧ R (f s e).1 (g t e).1) :
    ∀ {es : List ε} {s : σ} {t : τ}, R s t → (∀ e ∈ es, p e) →
      (replies f s es).2 = (replies g t es).2 ∧ R (replies f s es).1 (replies g t es).1 := by
  intro es
  induction es with
  | nil => intro s t hR _; exact ⟨rfl, hR⟩
  | cons e es ih =>
      intro s t hR hp
      obtain ⟨hreply, hR'⟩ := hstep s t e hR (hp e List.mem_cons_self)
      obtain ⟨hrest, hend⟩ := ih hR' fun e' he' => hp e' (List.mem_cons_of_mem _ he')
      exact ⟨by rw [replies, replies, hreply, hrest], hend⟩

/-- The last state and the replies of a system that may fail. -/
def repliesM {ρ : Type} (f : σ → ε → Except ρ (σ × α)) : σ → List ε → Except ρ (σ × List α)
  | s, [] => .ok (s, [])
  | s, e :: es => do
      let (s, a) ← f s e
      let (s, as) ← repliesM f s es
      pure (s, a :: as)

/-- A system that does what a total one does, event by event, never fails and cannot be told from
it. -/
theorem repliesM_sim {ρ : Type} {R : σ → τ → Prop} {p : ε → Prop} {f : σ → ε → Except ρ (σ × α)}
    {g : τ → ε → τ × α}
    (hstep : ∀ s t e, R s t → p e → ∃ s', f s e = .ok (s', (g t e).2) ∧ R s' (g t e).1) :
    ∀ {es : List ε} {s : σ} {t : τ}, R s t → (∀ e ∈ es, p e) →
      ∃ s', repliesM f s es = .ok (s', (replies g t es).2) ∧ R s' (replies g t es).1 := by
  intro es
  induction es with
  | nil => intro s t hR _; exact ⟨s, rfl, hR⟩
  | cons e es ih =>
      intro s t hR hp
      obtain ⟨s₁, hf, hR₁⟩ := hstep s t e hR (hp e List.mem_cons_self)
      obtain ⟨s', hrest, hR'⟩ := ih hR₁ fun e' he' => hp e' (List.mem_cons_of_mem _ he')
      refine ⟨s', ?_, hR'⟩
      simp only [repliesM, hf, hrest, bind, Except.bind]
      rfl

/-- What every event keeps, a list of events keeps. -/
theorem replies_invariant {P : σ → Prop} {f : σ → ε → σ × α} (hstep : ∀ s e, P s → P (f s e).1) :
    ∀ {es : List ε} {s : σ}, P s → P (replies f s es).1 := by
  intro es
  induction es with
  | nil => intro s h; exact h
  | cons e es ih => intro s h; exact ih (hstep s e h)

end Replies

/-! ## Counting events -/

theorem Run.eq_of_nil (h : Run step ok s₀ [] s) : s = s₀ := by
  generalize hl : [] = l at h
  cases h with
  | nil => rfl
  | snoc e _ _ _ => simp at hl

/-- The first event of a run. -/
theorem Run.uncons {e : ε} (h : Run step ok s₀ (e :: es) s) :
    ∃ m, ok s₀ e ∧ step s₀ e = some m ∧ Run step ok m es s := by
  generalize hl : e :: es = l at h
  induction h generalizing e es with
  | nil => exact nomatch hl
  | @snoc es₁ s₁ s₂ e₁ hrun hok hs ih =>
      cases es₁ with
      | nil =>
          cases hl
          obtain rfl := hrun.eq_of_nil
          exact ⟨s₂, hok, hs, .nil⟩
      | cons e₀ es₀ =>
          obtain ⟨rfl, rfl⟩ := List.cons.inj hl
          obtain ⟨m, hok₀, hs₀, hrun₀⟩ := ih rfl
          exact ⟨m, hok₀, hs₀, hrun₀.snoc e₁ hok hs⟩

/-- How many of the events meet `p` in the state in which they are taken. -/
def count (step : σ → ε → Option σ) (p : σ → ε → Bool) : σ → List ε → Nat
  | _, [] => 0
  | s, e :: es => (if p s e then 1 else 0) + ((step s e).map (fun s' => count step p s' es)).getD 0

theorem count_cons {p : σ → ε → Bool} {e : ε} (hs : step s e = some s') :
    count step p s (e :: es) = (if p s e then 1 else 0) + count step p s' es := by
  rw [count, hs]
  rfl

/-- A potential that no permitted step raises and every counted one lowers bounds the count. -/
theorem Run.count_le {I : σ → Prop} {p : σ → ε → Bool} (pot : σ → Nat)
    (hI : ∀ s e s', I s → ok s e → step s e = some s' → I s')
    (hpot : ∀ s e s', I s → ok s e → step s e = some s' →
      (if p s e then 1 else 0) + pot s' ≤ pot s)
    (h₀ : I s₀) (h : Run step ok s₀ es s) : count step p s₀ es + pot s ≤ pot s₀ := by
  induction es generalizing s₀ with
  | nil =>
      obtain rfl := h.eq_of_nil
      exact Nat.le_of_eq (Nat.zero_add _)
  | cons e es ih =>
      obtain ⟨m, hok, hs, hrun⟩ := h.uncons
      have hstep := hpot _ _ _ h₀ hok hs
      have hrest := ih (hI _ _ _ h₀ hok hs) hrun
      rw [count_cons hs]
      omega

/-- A rank that no permitted step lowers and every step of `p` raises bounds how many there are. -/
theorem Run.countP_le {I : σ → Prop} {p : ε → Bool} (rank : σ → Nat)
    (hI : ∀ s e s', I s → ok s e → step s e = some s' → I s')
    (hrank : ∀ s e s', I s → ok s e → step s e = some s' →
      (if p e then 1 else 0) + rank s ≤ rank s')
    (h₀ : I s₀) (h : Run step ok s₀ es s) : I s ∧ es.countP p + rank s₀ ≤ rank s := by
  induction h with
  | nil => exact ⟨h₀, Nat.le_of_eq (Nat.zero_add _)⟩
  | snoc e _ hok hs ih =>
      obtain ⟨hi, hle⟩ := ih
      have hstep := hrank _ e _ hi hok hs
      rw [List.countP_append, List.countP_singleton]
      exact ⟨hI _ e _ hi hok hs, by omega⟩

end Lts
