/-
# `SimpleOs.Emptiness` — `queue_empty` and `get_proc`

`queue_empty` scans the ready queues, and `get_proc` scans them twice, the first
time under the slot budgets.  The two agree on whether a process waits: the
second scan of `get_proc` does not look at the budgets.

They disagree on how to say so.  `queue_empty` returns -1 when it finds a process
and 1 when it does not, and both are true.
-/
import SimpleOs.Lib.Run
import SimpleOs.Sched

namespace SimpleOs

/-- `queue_empty`. -/
def queueEmpty (s : Sched) : Int :=
  if (List.range maxPrio).any (fun prio => !(s.mlqReadyQueue prio).empty) then -1
  else if s.readyQueue.empty && s.runQueue.empty then 1 else 0

/-- A call into the scheduler, with the priority the process has. -/
inductive SchedCall
  | add (proc : Pid) (prio : Nat)
  | put (proc : Pid) (prio : Nat)
  | get
  | remove (proc : Pid)
  deriving DecidableEq, Repr

/-- The scheduler after a call.  A priority outside the array of queues has no successor. -/
def schedStep (s : Sched) : SchedCall → Option Sched
  | .add proc prio => (addProc s proc prio).toOption
  | .put proc prio => (putProc s proc prio).toOption
  | .get => some (getProc s).1
  | .remove proc => some (removeProc s proc)

/-! ## The queues of the other scheduler -/

/-- `ready_queue` and `run_queue`, which `MLQ_SCHED` does not use, are as they were. -/
structure Sched.SameUnused (s s' : Sched) : Prop where
  readyQueue : s'.readyQueue = s.readyQueue
  runQueue : s'.runQueue = s.runQueue

section Unused
variable {s s' : Sched}

theorem Sched.pick_sameUnused (s : Sched) : s.SameUnused s.pick.1 := by
  rw [Sched.pick]
  split
  next => exact ⟨rfl, rfl⟩
  next =>
    simp only
    split
    next => split <;> exact ⟨rfl, rfl⟩
    next => exact ⟨rfl, rfl⟩

theorem getProc_sameUnused (s : Sched) : s.SameUnused (getProc s).1 := by
  have hpick := s.pick_sameUnused
  rw [getProc, getMlqProc]
  split
  next s' proc hp =>
    rw [hp] at hpick
    exact ⟨hpick.readyQueue, hpick.runQueue⟩
  next s' hp =>
    rw [hp] at hpick
    exact hpick

theorem enqueueMlq_sameUnused {proc : Pid} {prio : Nat}
    (h : (enqueueMlq s proc prio).toOption = some s') : s.SameUnused s' := by
  rw [enqueueMlq] at h
  split at h
  next =>
    obtain rfl := Option.some.inj h
    exact ⟨rfl, rfl⟩
  next => cases h

theorem schedStep_sameUnused {e : SchedCall} (h : schedStep s e = some s') : s.SameUnused s' := by
  cases e with
  | add proc prio => exact enqueueMlq_sameUnused h
  | put proc prio => exact enqueueMlq_sameUnused h
  | get =>
      obtain rfl := Option.some.inj h
      exact getProc_sameUnused s
  | remove proc =>
      obtain rfl := Option.some.inj h
      exact ⟨rfl, rfl⟩

/-- Nothing is ever put into them. -/
theorem reach_unused {es : List SchedCall} (h : Lts.Reaches schedStep initScheduler es s) :
    s.readyQueue.empty = true ∧ s.runQueue.empty = true := by
  refine h.invariant (P := fun s => s.readyQueue.empty = true ∧ s.runQueue.empty = true)
    ⟨rfl, rfl⟩ ?_
  intro s₁ e s₂ hempty _ hs
  have hsame := schedStep_sameUnused hs
  rw [hsame.readyQueue, hsame.runQueue]
  exact hempty

end Unused

/-! ## The two scans -/

section Scans
variable {s : Sched}

/-- Whatever the budgets are, `get_proc` returns NULL iff no process waits. -/
theorem getProc_none_iff : (getProc s).2 = none ↔ ∀ prio < maxPrio, s.ready prio = [] := by
  rcases getProc_taken s with ⟨hget, hall⟩ | ⟨prio, p, s', hget, ht, _⟩
  · rw [hget]
    exact iff_of_true rfl hall
  · rw [hget]
    refine iff_of_false (Option.some_ne_none p) fun hall => ?_
    have hhead := ht.head
    rw [hall prio ht.prio_lt] at hhead
    exact nomatch hhead

/-- `queue_empty` is true in both cases. -/
theorem queueEmpty_ne_zero (hunused : s.readyQueue.empty = true ∧ s.runQueue.empty = true) :
    queueEmpty s ≠ 0 := by
  rw [queueEmpty, hunused.1, hunused.2]
  split <;> decide

end Scans

/-- `queue_empty` says what `get_proc` would do exactly when no process waits. -/
theorem queue_empty_agrees (es : List SchedCall) (s : Sched)
    (h : Lts.Reaches schedStep initScheduler es s) :
    (queueEmpty s ≠ 0 ↔ (getProc s).2 = none) ↔ ∀ prio < maxPrio, s.ready prio = [] := by
  rw [← getProc_none_iff]
  exact iff_true_left (queueEmpty_ne_zero (reach_unused h))

/-- A process is added and taken again: none waits. -/
theorem queue_empty_agrees_taken : ∃ s,
    Lts.Reaches schedStep initScheduler [.add 1 5, .get] s ∧
    (queueEmpty s ≠ 0 ↔ (getProc s).2 = none) := by
  obtain ⟨s, hs⟩ := Option.isSome_iff_exists.mp
    (by decide : (Lts.exec schedStep initScheduler [.add 1 5, .get]).isSome)
  have hreach := Lts.reaches_of_exec hs
  have hnone : (getProc s).2 = none := Lts.exec_map (g := fun s => (getProc s).2) hs (by decide)
  exact ⟨s, hreach, (queue_empty_agrees _ s hreach).mpr (getProc_none_iff.mp hnone)⟩

/-- One process waits: `queue_empty` returns -1, which is true, and `get_proc` returns it. -/
theorem queue_empty_true_of_waiting : ∃ s,
    Lts.Reaches schedStep initScheduler [.add 1 5] s ∧
    queueEmpty s = -1 ∧ (getProc s).2 = some 1 ∧
    ¬ (queueEmpty s ≠ 0 ↔ (getProc s).2 = none) := by
  obtain ⟨s, hs⟩ := Option.isSome_iff_exists.mp
    (by decide : (Lts.exec schedStep initScheduler [.add 1 5]).isSome)
  have hempty : queueEmpty s = -1 := Lts.exec_map (g := queueEmpty) hs (by decide)
  have hget : (getProc s).2 = some 1 := Lts.exec_map (g := fun s => (getProc s).2) hs (by decide)
  refine ⟨s, Lts.reaches_of_exec hs, hempty, hget, ?_⟩
  rw [hempty, hget]
  decide

end SimpleOs
