/-
# `SimpleOs.Policy` — the dispatch policy of the multi-level queue

The scheduler on its own: any sequence of `add_proc`, `put_proc` and `get_proc`
from `init_scheduler`, each call under `queue_lock` and so one step.  The
priority of a process is the field `prio` of its `pcb_t`, which nothing changes
after the loader stored it.

`Budgeted` is the invariant: every budget is between 0 and its full value, and
a process waits in the queue of its own priority.  The bound on the number of
dispatches between two resets, and the bound on the calls a waiting queue can be
passed over, are potential arguments: `Lts.Run.count_le` with the budget of the
queue, and with what all the other queues may still spend.
-/
import Mathlib.Algebra.BigOperators.Group.Finset.Basic
import Mathlib.Algebra.Order.BigOperators.Group.Finset
import SimpleOs.Lib.Run
import SimpleOs.Sched

namespace SimpleOs

/-- A call into the scheduler. -/
inductive Call
  | add (proc : Pid)
  | put (proc : Pid)
  | get
  deriving DecidableEq, Repr

/-- The scheduler after a call.  A priority outside the array of queues has no successor. -/
def callStep (prio : Pid → Nat) (s : Sched) : Call → Option Sched
  | .add proc => (addProc s proc (prio proc)).toOption
  | .put proc => (putProc s proc (prio proc)).toOption
  | .get => some (getProc s).1

/-- The call is a `get_proc`. -/
def isGet (_ : Sched) : Call → Bool
  | .get => true
  | _ => false

/-- The call is a `get_proc` that resets the budgets. -/
def resets (s : Sched) : Call → Bool
  | .get => s.exhausted
  | _ => false

/-- The call is a `get_proc` that returns a process of priority `q`. -/
def serves (prio : Pid → Nat) (q : Nat) (s : Sched) : Call → Bool
  | .get => (getProc s).2.map prio == some q
  | _ => false

/-! ## What a call can do -/

section Calls
variable {prio : Pid → Nat} {s s' : Sched} {e : Call}

/-- The process is at the end of its ready queue, or that was full; nothing else changed. -/
structure Enqueued (prio : Pid → Nat) (s s' : Sched) (proc : Pid) : Prop where
  prio_lt : prio proc < maxPrio
  ready : s'.ready (prio proc) = s.ready (prio proc) ++ [proc] ∨
    s'.ready (prio proc) = s.ready (prio proc)
  others : ∀ i, i ≠ prio proc → s'.mlqReadyQueue i = s.mlqReadyQueue i
  slot : s'.slot = s.slot

theorem enqueued_of_ok {proc : Pid} (h : enqueueMlq s proc (prio proc) = .ok s') :
    Enqueued prio s s' proc := by
  obtain ⟨hprio, _, hslot, hl, ho⟩ := enqueueMlq_ok h
  refine ⟨hprio, ?_, ho, hslot⟩
  split at hl
  · exact Or.inl hl
  · exact Or.inr hl

/-- The three outcomes of a call. -/
theorem callStep_cases (h : callStep prio s e = some s') :
    (e ≠ .get ∧ ∃ proc, Enqueued prio s s' proc) ∨
    (e = .get ∧ s' = s ∧ (getProc s).2 = none ∧ ∀ i < maxPrio, s.ready i = []) ∨
    (e = .get ∧ ∃ i proc, getProc s = (s', some proc) ∧ s.Taken s' i proc) := by
  have henq : ∀ proc, (enqueueMlq s proc (prio proc)).toOption = some s' →
      ∃ proc, Enqueued prio s s' proc := by
    intro proc hput
    cases hp : enqueueMlq s proc (prio proc) with
    | error _ => rw [hp] at hput; exact nomatch hput
    | ok s₁ =>
        rw [hp] at hput
        obtain rfl : s₁ = s' := Option.some.inj hput
        exact ⟨proc, enqueued_of_ok hp⟩
  cases e with
  | add proc => exact Or.inl ⟨Call.noConfusion, henq proc h⟩
  | put proc => exact Or.inl ⟨Call.noConfusion, henq proc h⟩
  | get =>
      have hs : (getProc s).1 = s' := Option.some.inj h
      rcases getProc_taken s with ⟨hnone, hall⟩ | ⟨i, proc, s₁, hget, ht, _⟩
      · rw [hnone] at hs ⊢
        exact Or.inr (Or.inl ⟨rfl, hs.symm, rfl, hall⟩)
      · rw [hget] at hs ⊢
        obtain rfl : s₁ = s' := hs
        exact Or.inr (Or.inr ⟨rfl, i, proc, rfl, ht⟩)

end Calls

/-! ## The invariant -/

/-- The budgets are within their bounds and every process waits in the queue of its priority. -/
structure Budgeted (prio : Pid → Nat) (s : Sched) : Prop where
  slot_nonneg : ∀ i < maxPrio, 0 ≤ s.slot i
  slot_le : ∀ i < maxPrio, s.slot i ≤ maxPrio - i
  sorted : ∀ i < maxPrio, ∀ proc ∈ s.ready i, prio proc = i

theorem budgeted_init (prio : Pid → Nat) : Budgeted prio initScheduler where
  slot_nonneg := by
    intro i hi
    show (0 : Int) ≤ maxPrio - i
    omega
  slot_le := fun _ _ => Int.le_refl _
  sorted := by
    intro i _ proc hproc
    have hnil : initScheduler.ready i = [] := QueueT.toList_init
    rw [hnil] at hproc
    exact absurd hproc List.not_mem_nil

section Budgeted
variable {prio : Pid → Nat} {s s' : Sched} {e : Call}

theorem Budgeted.enqueued {proc : Pid} (h : Budgeted prio s) (he : Enqueued prio s s' proc) :
    Budgeted prio s' where
  slot_nonneg := by rw [he.slot]; exact h.slot_nonneg
  slot_le := by rw [he.slot]; exact h.slot_le
  sorted := by
    intro i hi q hq
    by_cases hip : i = prio proc
    · subst hip
      rcases he.ready with hr | hr
      · rw [hr] at hq
        rcases List.mem_append.mp hq with hq | hq
        · exact h.sorted _ hi q hq
        · rw [List.mem_singleton.mp hq]
      · rw [hr] at hq
        exact h.sorted _ hi q hq
    · rw [Sched.ready, he.others i hip] at hq
      exact h.sorted i hi q hq

/-- A non-empty queue without budget has exactly none left. -/
theorem Budgeted.slot_eq_zero (h : Budgeted prio s) {i : Nat} (hi : i < maxPrio)
    (hle : s.slot i ≤ 0) : s.slot i = 0 := by
  have hnn := h.slot_nonneg i hi
  omega

theorem Budgeted.taken {i : Nat} {proc : Pid} (h : Budgeted prio s) (ht : s.Taken s' i proc) :
    Budgeted prio s' := by
  have hbounds : ∀ j < maxPrio, 0 ≤ s'.slot j ∧ s'.slot j ≤ maxPrio - j := by
    intro j hj
    have hnn := h.slot_nonneg j hj
    have hle := h.slot_le j hj
    rcases ht.chosen with ⟨_, hpos, _, hslot⟩ | ⟨_, _, _, hslot⟩
    · rw [hslot]
      by_cases hji : j = i
      · subst hji
        rw [Function.update_self]
        omega
      · rw [Function.update_of_ne hji]
        exact ⟨hnn, hle⟩
    · rw [hslot]
      by_cases hji : j = i
      · subst hji
        rw [Function.update_self]
        omega
      · rw [Function.update_of_ne hji, Sched.refilled_slot hj]
        omega
  refine ⟨fun j hj => (hbounds j hj).1, fun j hj => (hbounds j hj).2, ?_⟩
  intro j hj q hq
  by_cases hji : j = i
  · subst hji
    have hmem : q ∈ s.ready j := by rw [ht.head]; exact List.mem_cons_of_mem _ hq
    exact h.sorted j hj q hmem
  · rw [Sched.ready, ht.others j hji] at hq
    exact h.sorted j hj q hq

/-- Every call keeps the invariant. -/
theorem Budgeted.step (h : Budgeted prio s) (hs : callStep prio s e = some s') :
    Budgeted prio s' := by
  rcases callStep_cases hs with ⟨_, _, he⟩ | ⟨_, rfl, _, _⟩ | ⟨_, _, _, _, ht⟩
  · exact h.enqueued he
  · exact h
  · exact h.taken ht

/-- The queue a process is taken from is the one of its priority. -/
theorem Budgeted.prio_taken {i : Nat} {proc : Pid} (h : Budgeted prio s)
    (ht : s.Taken s' i proc) : prio proc = i := by
  refine h.sorted i ht.prio_lt proc ?_
  rw [ht.head]
  exact List.mem_cons_self

end Budgeted

theorem reach_budgeted {prio : Pid → Nat} {es : List Call} {s : Sched}
    (h : Lts.Reaches (callStep prio) initScheduler es s) : Budgeted prio s :=
  h.invariant (budgeted_init prio) fun _ _ _ hb _ hs => hb.step hs

/-! ## What a call spends -/

section Spending
variable {prio : Pid → Nat} {s s' : Sched} {e : Call}

/-- A `get_proc` that takes from queue `i` serves the priority `i`. -/
theorem Budgeted.serves_taken {i q : Nat} {proc : Pid} (h : Budgeted prio s)
    (hget : getProc s = (s', some proc)) (ht : s.Taken s' i proc) :
    serves prio q s .get = (i == q) := by
  rw [serves, hget, ← h.prio_taken ht]
  rfl

/-- Between resets every process served costs its queue one unit. -/
theorem Budgeted.spends {p : Nat} (hb : Budgeted prio s) (hs : callStep prio s e = some s')
    (hreset : resets s e = false) :
    (if serves prio p s e then 1 else 0) + (s'.slot p).toNat ≤ (s.slot p).toNat := by
  rcases callStep_cases hs with ⟨hne, _, he⟩ | ⟨rfl, rfl, hnone, _⟩ | ⟨rfl, i, proc, hget, ht⟩
  · have hserves : serves prio p s e = false := by
      cases e with
      | add _ => rfl
      | put _ => rfl
      | get => exact absurd rfl hne
    rw [hserves, he.slot]
    simp
  · have hserves : serves prio p s' .get = false := by rw [serves, hnone]; rfl
    rw [hserves]
    simp
  · rw [hb.serves_taken hget ht]
    rcases ht.chosen with ⟨_, hpos, _, hslot⟩ | ⟨hex, _⟩
    · rw [hslot]
      by_cases hip : i = p
      · subst hip
        simp only [beq_self_eq_true, if_true, Function.update_self]
        omega
      · rw [Function.update_of_ne (Ne.symm hip)]
        simp [hip]
    · rw [resets, hex] at hreset
      exact nomatch hreset

/-- A reset pays for the process served by the same call. -/
theorem Budgeted.spends_full {p : Nat} (hp : p < maxPrio) (hb : Budgeted prio s)
    (hs : callStep prio s e = some s') :
    (if serves prio p s e then 1 else 0) + (s'.slot p).toNat ≤ maxPrio - p := by
  have hfull := hb.slot_le p hp
  cases hreset : resets s e with
  | false =>
      have hspend := hb.spends (p := p) hs hreset
      omega
  | true =>
      rcases callStep_cases hs with ⟨hne, _⟩ | ⟨rfl, rfl, _, hall⟩ | ⟨rfl, i, proc, hget, ht⟩
      · cases e with
        | add _ => exact nomatch hreset
        | put _ => exact nomatch hreset
        | get => exact absurd rfl hne
      · have hnone : (getProc s').2 = none := by assumption
        have hserves : serves prio p s' .get = false := by rw [serves, hnone]; rfl
        rw [hserves]
        simp only [Bool.false_eq_true, if_false]
        omega
      · rw [hb.serves_taken hget ht]
        rcases ht.chosen with ⟨hex, _⟩ | ⟨_, _, _, hslot⟩
        · rw [resets, hex] at hreset
          exact nomatch hreset
        · rw [hslot]
          by_cases hip : i = p
          · subst hip
            simp only [beq_self_eq_true, if_true, Function.update_self]
            omega
          · rw [Function.update_of_ne (Ne.symm hip), Sched.refilled_slot hp]
            simp [hip]

/-- From a reset to the next one a queue serves at most its full budget. -/
theorem Budgeted.served_le {p : Nat} {es : List Call} {s₁ s₂ : Sched} (hp : p < maxPrio)
    (hb : Budgeted prio s) (hs : callStep prio s e = some s₁)
    (hrun : Lts.Run (callStep prio) (fun s e => resets s e = false) s₁ es s₂) :
    Lts.count (callStep prio) (serves prio p) s (e :: es) ≤ maxPrio - p := by
  have hfirst := hb.spends_full hp hs
  have hrest : Lts.count (callStep prio) (serves prio p) s₁ es + (s₂.slot p).toNat ≤
      (s₁.slot p).toNat :=
    hrun.count_le (fun s => (s.slot p).toNat) (I := Budgeted prio)
      (fun _ _ _ hb _ hs => hb.step hs) (fun _ _ _ hb hok hs => hb.spends hs hok) (hb.step hs)
  rw [Lts.count_cons hs]
  omega

end Spending

/-! ## The policy -/

/-- What the policy says of a `get_proc` that returns `proc`, of priority `p`. -/
structure Chosen (s s' : Sched) (p : Nat) (proc : Pid) : Prop where
  prio_lt : p < maxPrio
  /-- It was the head of its queue, and the order of the others is kept. -/
  head : s.ready p = proc :: s'.ready p
  others : ∀ i, i ≠ p → s'.mlqReadyQueue i = s.mlqReadyQueue i
  /-- Its queue had budget and no queue before it had, or all budgets were spent. -/
  budget :
    (0 < s.slot p ∧ (∀ i < p, s.ready i ≠ [] → s.slot i = 0) ∧
      s'.slot = Function.update s.slot p (s.slot p - 1)) ∨
    ((∀ i < maxPrio, s.ready i ≠ [] → s.slot i = 0) ∧ (∀ i < p, s.ready i = []) ∧
      ∀ i < maxPrio, s'.slot i = (maxPrio : Int) - i - if i = p then 1 else 0)

theorem Budgeted.chosen {prio : Pid → Nat} {s s' : Sched} {i : Nat} {proc : Pid}
    (h : Budgeted prio s) (ht : s.Taken s' i proc) : Chosen s s' i proc := by
  refine ⟨ht.prio_lt, ht.head, ht.others, ?_⟩
  rcases ht.chosen with ⟨_, hpos, hbefore, hslot⟩ | ⟨_, hspent, hbefore, hslot⟩
  · refine Or.inl ⟨hpos, ?_, hslot⟩
    intro j hj hne
    exact h.slot_eq_zero (hj.trans ht.prio_lt) (hbefore j hj hne)
  · refine Or.inr ⟨fun j hj hne => h.slot_eq_zero hj (hspent j hj hne), hbefore, ?_⟩
    intro j hj
    rw [hslot, Function.update_apply, Sched.refilled_slot hj]
    split
    next hji => rw [hji]
    next => rw [Int.sub_zero]

/-- The dispatch policy, in every state the calls lead to: the bounds of the budgets, when
`get_proc` returns NULL, which process it returns and what it leaves alone, and what a queue gets
between two resets. -/
theorem mlq_policy (prio : Pid → Nat) (es : List Call) (s : Sched)
    (h : Lts.Reaches (callStep prio) initScheduler es s) :
    (∀ p < maxPrio, 0 ≤ s.slot p ∧ s.slot p ≤ maxPrio - p) ∧
    ((getProc s).2 = none ↔ ∀ p < maxPrio, s.ready p = []) ∧
    ((getProc s).2 = none → (getProc s).1 = s) ∧
    (∀ proc, (getProc s).2 = some proc → Chosen s (getProc s).1 (prio proc) proc) ∧
    (∀ e s₁ es' s₂, callStep prio s e = some s₁ →
      Lts.Run (callStep prio) (fun s e => resets s e = false) s₁ es' s₂ →
      ∀ p < maxPrio,
        Lts.count (callStep prio) (serves prio p) s (e :: es') ≤ maxPrio - p) := by
  have hb : Budgeted prio s := reach_budgeted h
  refine ⟨fun p hp => ⟨hb.slot_nonneg p hp, hb.slot_le p hp⟩, ?_⟩
  rw [← and_assoc, ← and_assoc]
  refine ⟨?_, fun e s₁ es' s₂ hs hrun p hp => hb.served_le hp hs hrun⟩
  rw [and_assoc]
  rcases getProc_taken s with ⟨hget, hall⟩ | ⟨i, proc, s', hget, ht, _⟩
  · rw [hget]
    exact ⟨⟨fun _ => hall, fun _ => rfl⟩, fun _ => rfl, fun _ hp => (nomatch hp)⟩
  · rw [hget]
    refine ⟨⟨fun hn => (nomatch hn), fun hall => ?_⟩, fun hn => (nomatch hn), ?_⟩
    · have hhead := ht.head
      rw [hall i ht.prio_lt] at hhead
      exact nomatch hhead
    · intro q hq
      obtain rfl : proc = q := Option.some.inj hq
      rw [hb.prio_taken ht]
      exact hb.chosen ht

/-- Of two queues the one of the smaller index is served, and pays with one slot of its budget. -/
theorem mlq_policy_first : ∃ s,
    Lts.Reaches (callStep fun p => p) initScheduler [.add 2, .add 1, .get] s ∧
    s.slot 1 = maxPrio - 2 ∧
    ((getProc s).2 = none ↔ ∀ p < maxPrio, s.ready p = []) := by
  obtain ⟨s, hs⟩ := Option.isSome_iff_exists.mp
    (by decide +kernel : (Lts.exec (callStep fun p => p) initScheduler
      [.add 2, .add 1, .get]).isSome)
  have hreach := Lts.reaches_of_exec hs
  exact ⟨s, hreach, Lts.exec_map (g := fun s => s.slot 1) hs (by decide +kernel),
    (mlq_policy _ _ s hreach).2.1⟩

/-! ## No starvation -/

/-- If the call is a `get_proc`, queue `q` has a process waiting and none of it is returned. -/
def PassedOver (prio : Pid → Nat) (q : Nat) (s : Sched) (e : Call) : Prop :=
  e = .get → s.ready q ≠ [] ∧ (getProc s).2.map prio ≠ some q

/-- What the queues of `I` may still spend before the next reset. -/
def Sched.left (s : Sched) (I : Finset Nat) : Nat := ∑ i ∈ I, (s.slot i).toNat

/-- What they may spend after a reset. -/
def fullBudget (I : Finset Nat) : Nat := ∑ i ∈ I, (maxPrio - i)

/-- How often queue `q` can still be passed over. -/
def Sched.patience (s : Sched) (q : Nat) : Nat :=
  if s.slot q = 0 then s.left ((Finset.range maxPrio).erase q) + fullBudget (Finset.range q)
  else s.left (Finset.range q)

section Starvation
variable {prio : Pid → Nat} {s s' : Sched} {e : Call} {q : Nat}

theorem Sched.left_lt {I : Finset Nat} {i : Nat} (hi : i ∈ I) (hpos : 0 < s.slot i)
    (hslot : s'.slot = Function.update s.slot i (s.slot i - 1)) : s'.left I < s.left I := by
  refine Finset.sum_lt_sum ?_ ⟨i, hi, ?_⟩
  · intro j _
    rw [hslot, Function.update_apply]
    split
    next hji => subst hji; omega
    next => exact Nat.le_refl _
  · rw [hslot, Function.update_self]
    omega

theorem Budgeted.left_le {I : Finset Nat} (h : Budgeted prio s) (hI : ∀ i ∈ I, i < maxPrio) :
    s.left I ≤ fullBudget I := by
  refine Finset.sum_le_sum fun i hi => ?_
  have hle := h.slot_le i (hI i hi)
  omega

/-- A reset that serves queue `i` leaves less than the full budgets. -/
theorem Sched.left_lt_full {I : Finset Nat} {i : Nat} (hi : i ∈ I) (hI : ∀ i ∈ I, i < maxPrio)
    (hslot : s'.slot = Function.update s.refilled.slot i (maxPrio - i - 1)) :
    s'.left I < fullBudget I := by
  refine Finset.sum_lt_sum ?_ ⟨i, hi, ?_⟩
  · intro j hj
    rw [hslot, Function.update_apply, Sched.refilled_slot (hI j hj)]
    split
    next hji => subst hji; omega
    next => omega
  · have hlt := hI i hi
    rw [hslot, Function.update_self]
    omega

/-- A call that passes over a waiting queue, seen from that queue: no reset while it has budget,
and a reset gives it budget. -/
theorem Budgeted.passed_cases (hq : q < maxPrio) (h : Budgeted prio s)
    (hok : PassedOver prio q s e) (hs : callStep prio s e = some s') :
    (e ≠ .get ∧ s'.slot = s.slot) ∨
    (e = .get ∧ ∃ i, i < maxPrio ∧ i ≠ q ∧
      ((s.exhausted = false ∧ 0 < s.slot i ∧ (s.slot q ≠ 0 → i < q) ∧
          s'.slot = Function.update s.slot i (s.slot i - 1)) ∨
        (s.exhausted = true ∧ s.slot q = 0 ∧ i < q ∧
          s'.slot = Function.update s.refilled.slot i (maxPrio - i - 1)))) := by
  rcases callStep_cases hs with ⟨hne, _, he⟩ | ⟨rfl, rfl, _, hall⟩ | ⟨rfl, i, proc, hget, ht⟩
  · exact Or.inl ⟨hne, he.slot⟩
  · exact absurd (hall q hq) (hok rfl).1
  · obtain ⟨hwait, hnot⟩ := hok rfl
    have hiq : i ≠ q := by
      intro hiq
      rw [hget] at hnot
      exact hnot (congrArg some ((h.prio_taken ht).trans hiq))
    refine Or.inr ⟨rfl, i, ht.prio_lt, hiq, ?_⟩
    rcases ht.chosen with ⟨hex, hpos, hbefore, hslot⟩ | ⟨hex, hspent, hbefore, hslot⟩
    · refine Or.inl ⟨hex, hpos, ?_, hslot⟩
      intro hslotq
      by_contra hlt
      have hqi : q < i := by omega
      exact hslotq (h.slot_eq_zero hq (hbefore q hqi hwait))
    · refine Or.inr ⟨hex, h.slot_eq_zero hq (hspent q hq hwait), ?_, hslot⟩
      by_contra hlt
      have hqi : q < i := by omega
      exact hwait (hbefore q hqi)

/-- Every `get_proc` that passes over the queue uses up some patience. -/
theorem Budgeted.patience_step (hq : q < maxPrio) (h : Budgeted prio s)
    (hok : PassedOver prio q s e) (hs : callStep prio s e = some s') :
    (if isGet s e then 1 else 0) + s'.patience q ≤ s.patience q := by
  have hlow : ∀ i ∈ Finset.range q, i < maxPrio := fun i hi => (Finset.mem_range.mp hi).trans hq
  rcases h.passed_cases hq hok hs with ⟨hne, hslot⟩ | ⟨rfl, i, hi, hiq, hcase⟩
  · have hget : isGet s e = false := by
      cases e with
      | add _ => rfl
      | put _ => rfl
      | get => exact absurd rfl hne
    rw [hget, Sched.patience, Sched.patience, Sched.left, Sched.left, hslot]
    simp [Sched.left]
  · have hone : (if isGet s .get then 1 else 0) = 1 := rfl
    rw [hone]
    rcases hcase with ⟨_, hpos, hbefore, hslot⟩ | ⟨_, hzero, hbefore, hslot⟩
    · -- a queue with budget spends one unit
      have hslotq : s'.slot q = s.slot q := by rw [hslot, Function.update_of_ne (Ne.symm hiq)]
      rw [Sched.patience, Sched.patience, hslotq]
      split
      next =>
        have hmem : i ∈ (Finset.range maxPrio).erase q :=
          Finset.mem_erase.mpr ⟨hiq, Finset.mem_range.mpr hi⟩
        have hlt := Sched.left_lt hmem hpos hslot
        omega
      next hne =>
        have hlt := Sched.left_lt (Finset.mem_range.mpr (hbefore hne)) hpos hslot
        omega
    · -- a reset: from now on only the queues before `q` come first
      have hslotq : s'.slot q ≠ 0 := by
        rw [hslot, Function.update_of_ne (Ne.symm hiq), Sched.refilled_slot hq]
        omega
      have hlt := Sched.left_lt_full (Finset.mem_range.mpr hbefore) hlow hslot
      rw [Sched.patience, Sched.patience, if_neg hslotq, if_pos hzero]
      omega

/-- A reset happens only while the queue has no budget, and gives it some. -/
theorem Budgeted.reset_step (hq : q < maxPrio) (h : Budgeted prio s)
    (hok : PassedOver prio q s e) (hs : callStep prio s e = some s') :
    (if resets s e then 1 else 0) + (if s'.slot q = 0 then 1 else 0) ≤
      if s.slot q = 0 then 1 else 0 := by
  rcases h.passed_cases hq hok hs with ⟨hne, hslot⟩ | ⟨rfl, i, hi, hiq, hcase⟩
  · have hreset : resets s e = false := by
      cases e with
      | add _ => rfl
      | put _ => rfl
      | get => exact absurd rfl hne
    rw [hreset, hslot]
    simp
  · rcases hcase with ⟨hex, _, _, hslot⟩ | ⟨hex, hzero, _, hslot⟩
    · rw [resets, hex, hslot, Function.update_of_ne (Ne.symm hiq)]
      simp
    · have hslotq : s'.slot q ≠ 0 := by
        rw [hslot, Function.update_of_ne (Ne.symm hiq), Sched.refilled_slot hq]
        omega
      rw [resets, hex, if_neg hslotq, if_pos hzero]
      simp

theorem Budgeted.patience_le (hq : q < maxPrio) (h : Budgeted prio s) :
    s.patience q ≤ fullBudget ((Finset.range maxPrio).erase q) + fullBudget (Finset.range q) := by
  have hother : s.left ((Finset.range maxPrio).erase q) ≤ _ :=
    h.left_le fun i hi => Finset.mem_range.mp (Finset.mem_of_mem_erase hi)
  have hlow : s.left (Finset.range q) ≤ _ :=
    h.left_le fun i hi => (Finset.mem_range.mp hi).trans hq
  rw [Sched.patience]
  split <;> omega

end Starvation

/-- A waiting queue is passed over at most as often as the other queues can be served before a
reset and the queues before it after one; in between the budgets are reset at most once. -/
theorem no_starvation (prio : Pid → Nat) (q : Nat) (hq : q < maxPrio)
    (es : List Call) (s : Sched) (h : Lts.Reaches (callStep prio) initScheduler es s)
    (es' : List Call) (s' : Sched) (hrun : Lts.Run (callStep prio) (PassedOver prio q) s es' s') :
    Lts.count (callStep prio) isGet s es' ≤
      ∑ p ∈ (Finset.range maxPrio).erase q, (maxPrio - p) + ∑ p ∈ Finset.range q, (maxPrio - p) ∧
    Lts.count (callStep prio) resets s es' ≤ 1 := by
  have hb : Budgeted prio s := reach_budgeted h
  constructor
  · have hcount : Lts.count (callStep prio) isGet s es' + s'.patience q ≤ s.patience q :=
      hrun.count_le (fun s => s.patience q) (I := Budgeted prio) (fun _ _ _ hb _ hs => hb.step hs)
        (fun _ _ _ hb hok hs => hb.patience_step hq hok hs) hb
    exact (Nat.le_add_right _ _).trans (hcount.trans (hb.patience_le hq))
  · have hcount : Lts.count (callStep prio) resets s es' + (if s'.slot q = 0 then 1 else 0) ≤
        if s.slot q = 0 then 1 else 0 :=
      hrun.count_le (fun s => if s.slot q = 0 then 1 else 0) (I := Budgeted prio)
        (fun _ _ _ hb _ hs => hb.step hs) (fun _ _ _ hb hok hs => hb.reset_step hq hok hs) hb
    have hone : (if s.slot q = 0 then 1 else 0) ≤ 1 := by split <;> decide
    omega

/-- The process of priority 1 waits while the one of priority 0 is served. -/
theorem no_starvation_once : ∃ s s',
    Lts.Reaches (callStep fun p => p) initScheduler [.add 1, .add 0] s ∧
    Lts.Run (callStep fun p => p) (PassedOver (fun p => p) 1) s [.get] s' ∧
    Lts.count (callStep fun p => p) resets s [.get] ≤ 1 := by
  obtain ⟨s, hs⟩ := Option.isSome_iff_exists.mp
    (by decide +kernel : (Lts.exec (callStep fun p => p) initScheduler [.add 1, .add 0]).isSome)
  have hreach := Lts.reaches_of_exec hs
  have hready : s.ready 1 = [1] := Lts.exec_map (g := fun s => s.ready 1) hs (by decide +kernel)
  have hserved : (getProc s).2 = some 0 :=
    Lts.exec_map (g := fun s => (getProc s).2) hs (by decide +kernel)
  have hok : PassedOver (fun p => p) 1 s .get := by
    intro _
    rw [hready, hserved]
    decide
  have hrun : Lts.Run (callStep fun p => p) (PassedOver (fun p => p) 1) s [.get] _ :=
    Lts.Run.nil.cons hok rfl
  exact ⟨s, _, hreach, hrun, (no_starvation _ 1 (by decide) _ s hreach _ _ hrun).2⟩

end SimpleOs
