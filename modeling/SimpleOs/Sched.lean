/-
# `SimpleOs.Sched` — the multi-level queue scheduler (`sched.c`, `MLQ_SCHED`)

The static queues and slot budgets are one record.  The functions run under
`queue_lock`, so each is one atomic step.

A process has the priority `prio` of its `pcb_t`; the loader stores it there
from the configuration without a range check, and `add_proc` and `put_proc`
index `mlq_ready_queue` with it.
-/
import SimpleOs.Queue

namespace SimpleOs

/-- `MAX_PRIO`. -/
def maxPrio : Nat := 140

/-- The static state of `sched.c`. -/
structure Sched where
  readyQueue : QueueT
  runQueue : QueueT
  runningList : QueueT
  mlqReadyQueue : Nat → QueueT
  slot : Nat → Int

/-- `init_scheduler`. -/
def initScheduler : Sched where
  readyQueue := .init
  runQueue := .init
  runningList := .init
  mlqReadyQueue := fun _ => .init
  slot := fun i => maxPrio - i

/-- `proc = dequeue(&mlq_ready_queue[prio]); slot[prio]--`. -/
def Sched.dispatch (s : Sched) (prio : Nat) : Sched × Option Pid :=
  let (q, proc) := (s.mlqReadyQueue prio).dequeue
  ({ s with
    mlqReadyQueue := Function.update s.mlqReadyQueue prio q
    slot := Function.update s.slot prio (s.slot prio - 1) }, proc)

/-- The two passes of `get_mlq_proc` over the queues. -/
def Sched.pick (s : Sched) : Sched × Option Pid :=
  match (List.range maxPrio).find?
      (fun prio => s.slot prio > 0 && !(s.mlqReadyQueue prio).empty) with
  | some prio => s.dispatch prio
  | none =>
      let hasProc := (List.range maxPrio).any (fun prio => !(s.mlqReadyQueue prio).empty)
      if hasProc then
        let s :=
          { s with slot := fun prio => if prio < maxPrio then maxPrio - prio else s.slot prio }
        match (List.range maxPrio).find? (fun prio => !(s.mlqReadyQueue prio).empty) with
        | some prio => s.dispatch prio
        | none => (s, none)
      else (s, none)

/-- `get_mlq_proc`. -/
def getMlqProc (s : Sched) : Sched × Option Pid :=
  match s.pick with
  | (s, some proc) => ({ s with runningList := s.runningList.enqueue (some proc) }, some proc)
  | (s, none) => (s, none)

/-- The common body of `put_mlq_proc` and `add_mlq_proc`: the ready queue of the process's
priority gets it.  Neither touches `running_list`. -/
def enqueueMlq (s : Sched) (proc : Pid) (prio : Nat) : Except Ub Sched :=
  if prio < maxPrio then
    .ok { s with
      mlqReadyQueue :=
        Function.update s.mlqReadyQueue prio ((s.mlqReadyQueue prio).enqueue (some proc)) }
  else .error .prioBounds

/-- `put_mlq_proc`. -/
def putMlqProc (s : Sched) (proc : Pid) (prio : Nat) : Except Ub Sched := enqueueMlq s proc prio

/-- `add_mlq_proc`. -/
def addMlqProc (s : Sched) (proc : Pid) (prio : Nat) : Except Ub Sched := enqueueMlq s proc prio

/-- `get_proc`. -/
def getProc (s : Sched) : Sched × Option Pid := getMlqProc s

/-- `put_proc`. -/
def putProc (s : Sched) (proc : Pid) (prio : Nat) : Except Ub Sched := putMlqProc s proc prio

/-- `add_proc`. -/
def addProc (s : Sched) (proc : Pid) (prio : Nat) : Except Ub Sched := addMlqProc s proc prio

/-- `remove_proc`. -/
def removeProc (s : Sched) (proc : Pid) : Sched :=
  { s with runningList := (s.runningList.purgequeue proc).1 }

/-! ## What the calls can do -/

/-- The processes in the ready queue of a priority. -/
def Sched.ready (s : Sched) (prio : Nat) : List Pid := (s.mlqReadyQueue prio).toList

/-- Every non-empty queue has used up its budget, and there is one: the next `get_proc` resets
the budgets. -/
def Sched.exhausted (s : Sched) : Bool :=
  ((List.range maxPrio).find? (fun prio =>
      s.slot prio > 0 && !(s.mlqReadyQueue prio).empty)).isNone &&
    (List.range maxPrio).any (fun prio => !(s.mlqReadyQueue prio).empty)

/-- The budgets after a reset. -/
def Sched.refilled (s : Sched) : Sched :=
  { s with slot := fun prio => if prio < maxPrio then maxPrio - prio else s.slot prio }

theorem Sched.refilled_slot {s : Sched} {i : Nat} (h : i < maxPrio) :
    s.refilled.slot i = maxPrio - i := if_pos h

/-- The head of the ready queue `prio` was taken and charged to the budget of that queue. -/
structure Sched.Taken (s s' : Sched) (prio : Nat) (proc : Pid) : Prop where
  prio_lt : prio < maxPrio
  head : s.ready prio = proc :: s'.ready prio
  others : ∀ i, i ≠ prio → s'.mlqReadyQueue i = s.mlqReadyQueue i
  chosen :
    (s.exhausted = false ∧ 0 < s.slot prio ∧ (∀ i < prio, s.ready i ≠ [] → s.slot i ≤ 0) ∧
      s'.slot = Function.update s.slot prio (s.slot prio - 1)) ∨
    (s.exhausted = true ∧ (∀ i < maxPrio, s.ready i ≠ [] → s.slot i ≤ 0) ∧
      (∀ i < prio, s.ready i = []) ∧
      s'.slot = Function.update s.refilled.slot prio (maxPrio - prio - 1))

theorem Sched.empty_eq_false {s : Sched} {prio : Nat} :
    (s.mlqReadyQueue prio).empty = false ↔ s.ready prio ≠ [] := by
  rw [Sched.ready, Ne, ← QueueT.empty_iff, Bool.not_eq_true]

/-- A dispatch from a non-empty queue takes its head. -/
theorem Sched.dispatch_cases {s : Sched} {prio : Nat} (h : s.ready prio ≠ []) :
    ∃ s' p, s.dispatch prio = (s', some p) ∧ s.ready prio = p :: s'.ready prio ∧
      (∀ i, i ≠ prio → s'.mlqReadyQueue i = s.mlqReadyQueue i) ∧
      s'.slot = Function.update s.slot prio (s.slot prio - 1) ∧
      s'.runningList = s.runningList := by
  obtain ⟨htail, hhead⟩ := QueueT.toList_dequeue (s.mlqReadyQueue prio)
  obtain ⟨p, rest, hl⟩ := List.exists_cons_of_ne_nil h
  have hl' : (s.mlqReadyQueue prio).toList = p :: rest := hl
  rw [hl'] at htail hhead
  refine ⟨(s.dispatch prio).1, p, Prod.ext rfl hhead, ?_, ?_, rfl, rfl⟩
  · have hrest : (s.dispatch prio).1.ready prio = rest := by
      simp only [Sched.ready, Sched.dispatch, Function.update_self]
      exact htail
    rw [hl, hrest]
  · intro i hi
    simp only [Sched.dispatch, Function.update_of_ne hi]

/-- Either every ready queue is empty and nothing happens, or the head of one of them is taken. -/
theorem Sched.pick_cases (s : Sched) :
    (s.pick = (s, none) ∧ ∀ prio < maxPrio, s.ready prio = []) ∨
    (∃ prio p s', s.pick = (s', some p) ∧ s.Taken s' prio p ∧ s'.runningList = s.runningList) := by
  rw [Sched.pick]
  split
  next prio hf =>
    -- the first pass found a queue with budget left
    have hex : s.exhausted = false := by rw [Sched.exhausted, hf]; rfl
    obtain ⟨hp, hmem, hbefore⟩ := List.find?_range_eq_some.mp hf
    simp only [Bool.and_eq_true, Bool.not_eq_true', Sched.empty_eq_false, decide_eq_true_eq] at hp
    obtain ⟨s', p, hd, hhead, hothers, hslot, hrun⟩ := Sched.dispatch_cases hp.2
    refine Or.inr ⟨prio, p, s', hd, ⟨List.mem_range.mp hmem, hhead, hothers, ?_⟩, hrun⟩
    refine Or.inl ⟨hex, hp.1, ?_, hslot⟩
    intro i hi hne
    have hfail := hbefore i hi
    simp only [Bool.not_eq_true', Bool.and_eq_false_iff, decide_eq_false_iff_not,
      Bool.not_eq_false'] at hfail
    rcases hfail with hfail | hfail
    · omega
    · rw [Sched.empty_eq_false.mpr hne] at hfail
      exact nomatch hfail
  next hf =>
    simp only
    split
    next hhas =>
      have hex : s.exhausted = true := by rw [Sched.exhausted, hf]; exact hhas
      have hspent : ∀ i < maxPrio, s.ready i ≠ [] → s.slot i ≤ 0 := by
        intro i hi hne
        have hfail := List.find?_eq_none.mp hf i (List.mem_range.mpr hi)
        simp only [Sched.empty_eq_false.mpr hne, Bool.not_false, Bool.and_true,
          decide_eq_true_eq] at hfail
        omega
      split
      next prio hf₂ =>
        -- the second pass, after the budgets were reset
        obtain ⟨hp, hmem, hbefore⟩ := List.find?_range_eq_some.mp hf₂
        simp only [Bool.not_eq_true'] at hp
        obtain ⟨s', p, hd, hhead, hothers, hslot, hrun⟩ :=
          Sched.dispatch_cases (s := s.refilled) (Sched.empty_eq_false.mp hp)
        have hprio : prio < maxPrio := List.mem_range.mp hmem
        refine Or.inr ⟨prio, p, s', hd, ⟨hprio, hhead, hothers, ?_⟩, hrun⟩
        refine Or.inr ⟨hex, hspent, ?_, ?_⟩
        · intro i hi
          by_contra hne
          have hfail := hbefore i hi
          rw [Sched.empty_eq_false.mpr hne] at hfail
          exact nomatch hfail
        · rw [hslot, Sched.refilled_slot hprio]
      next hf₂ =>
        rw [List.find?_eq_none] at hf₂
        obtain ⟨prio, hmem, hp⟩ := List.any_eq_true.mp hhas
        exact absurd hp (hf₂ prio hmem)
    next hhas =>
      refine Or.inl ⟨rfl, ?_⟩
      intro prio hprio
      by_contra hne
      refine hhas (List.any_eq_true.mpr ⟨prio, List.mem_range.mpr hprio, ?_⟩)
      rw [Sched.empty_eq_false.mpr hne]
      rfl

/-- `get_proc` either finds every ready queue empty and changes nothing, or moves the head of a
ready queue to `running_list`, if that has room. -/
theorem getProc_taken (s : Sched) :
    (getProc s = (s, none) ∧ ∀ prio < maxPrio, s.ready prio = []) ∨
    (∃ prio p s', getProc s = (s', some p) ∧ s.Taken s' prio p ∧
      s'.runningList = s.runningList.enqueue (some p)) := by
  rcases s.pick_cases with ⟨h, hall⟩ | ⟨prio, p, s', h, ht, hrun⟩
  · exact Or.inl ⟨by rw [getProc, getMlqProc, h], hall⟩
  · refine Or.inr ⟨prio, p, { s' with runningList := s'.runningList.enqueue (some p) }, ?_, ?_, ?_⟩
    · rw [getProc, getMlqProc, h]
    · exact ⟨ht.prio_lt, ht.head, ht.others, ht.chosen⟩
    · rw [← hrun]

/-- What `get_proc` does to the queues. -/
theorem getProc_cases (s : Sched) :
    (getProc s = (s, none) ∧ ∀ prio < maxPrio, (s.mlqReadyQueue prio).toList = []) ∨
    (∃ prio p rest, prio < maxPrio ∧ (s.mlqReadyQueue prio).toList = p :: rest ∧
      (getProc s).2 = some p ∧ ((getProc s).1.mlqReadyQueue prio).toList = rest ∧
      (∀ i, i ≠ prio → (getProc s).1.mlqReadyQueue i = s.mlqReadyQueue i) ∧
      (getProc s).1.runningList = s.runningList.enqueue (some p)) := by
  rcases getProc_taken s with h | ⟨prio, p, s', h, ht, hrun⟩
  · exact Or.inl h
  · rw [h]
    exact Or.inr ⟨prio, p, _, ht.prio_lt, ht.head, rfl, rfl, ht.others, hrun⟩

/-- `add_proc` and `put_proc` append to the ready queue of the priority, if that has room. -/
theorem enqueueMlq_ok {s s' : Sched} {proc : Pid} {prio : Nat}
    (h : enqueueMlq s proc prio = .ok s') :
    prio < maxPrio ∧ s'.runningList = s.runningList ∧ s'.slot = s.slot ∧
    (s'.mlqReadyQueue prio).toList =
      (if (s.mlqReadyQueue prio).toList.length < maxQueueSize
        then (s.mlqReadyQueue prio).toList ++ [proc] else (s.mlqReadyQueue prio).toList) ∧
    (∀ i, i ≠ prio → s'.mlqReadyQueue i = s.mlqReadyQueue i) := by
  rw [enqueueMlq] at h
  by_cases hprio : prio < maxPrio
  · rw [if_pos hprio] at h
    cases h
    refine ⟨hprio, rfl, rfl, ?_, ?_⟩
    · rw [← QueueT.toList_enqueue]
      simp only [Function.update_self]
    · intro i hi
      simp only [Function.update_of_ne hi]
  · rw [if_neg hprio] at h
    exact nomatch h

theorem removeProc_runningList (s : Sched) (proc : Pid) :
    (removeProc s proc).runningList.toList = s.runningList.toList.erase proc :=
  QueueT.toList_purgequeue s.runningList proc

end SimpleOs
