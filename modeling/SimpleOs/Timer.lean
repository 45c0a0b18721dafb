/-
# `SimpleOs.Timer` — the timer and its devices (`timer.c`)

`timer_routine` waits until every attached device is done with the current
slot, advances `_time`, and lets the devices go one after the other.  A device
says it is done with `next_slot`, whose two halves are under two mutexes, or
leaves with `detach_event`.  Every critical section is one event here; one that
ends in `pthread_cond_wait` is not taken until its condition holds.

The owner of a device and the history of its calls are kept beside the
`timer_id_t`: how many calls it made and completed, and the number of the tick
after which the flag of each call was cleared.

The timer refines a barrier between its devices (`timerStep_refines`).
-/
import Mathlib.Data.List.Range
import SimpleOs.Lib.Barrier
import SimpleOs.Lib.Run

namespace SimpleOs

/-- `struct timer_id_t`, and what its owner did. -/
structure TimerId where
  done : Bool
  fsh : Bool
  /-- The owner is between the two halves of `next_slot`. -/
  waiting : Bool
  /-- The calls of `next_slot`: made, returned from. -/
  calls : Nat
  completed : Nat
  /-- For each flag that was cleared, the number of the tick that cleared it. -/
  cleared : List Nat
  deriving DecidableEq, Repr

/-- Where `timer_routine` is; `rest` is `temp` and what follows it in `dev_list`. -/
inductive TimerPc
  /-- Before `while (!timer_stop)`. -/
  | top
  /-- In the first `for` loop. -/
  | scan (rest : List Nat) (fsh event : Nat)
  /-- In the second `for` loop. -/
  | release (rest : List Nat) (fsh event : Nat)
  | exited
  deriving DecidableEq, Repr

/-- The static state of `timer.c`.  `ticks` counts the increments of `_time`. -/
structure Timer where
  devList : List Nat
  dev : Nat → TimerId
  time : UInt64
  ticks : Nat
  stop : Bool
  pc : TimerPc

/-- `attach_event`: the new device is the first of the list.  Devices are numbered in the order
in which they are attached. -/
def attachEvent (devList : List Nat) : List Nat := devList.length :: devList

/-- `dev_list` after `n` calls of `attach_event`. -/
def attached : Nat → List Nat
  | 0 => []
  | n + 1 => attachEvent (attached n)

/-- `start_timer`, with `n` devices attached. -/
def startTimer (n : Nat) : Timer where
  devList := attached n
  dev := fun _ =>
    { done := false, fsh := false, waiting := false, calls := 0, completed := 0, cleared := [] }
  time := 0
  ticks := 0
  stop := false
  pc := .top

/-- The steps of the threads that use the timer. -/
inductive TimerEvent
  /-- The next step of `timer_routine`. -/
  | tick
  /-- The first half of `next_slot`. -/
  | call (d : Nat)
  /-- The second half of `next_slot`. -/
  | ret (d : Nat)
  | detach (d : Nat)
  /-- `timer_stop = 1` in `stop_timer`. -/
  | stop
  deriving DecidableEq, Repr

def Timer.setDev (t : Timer) (d : Nat) (id : TimerId) : Timer :=
  { t with dev := Function.update t.dev d id }

/-- One step of `timer_routine`. -/
def timerRoutine (t : Timer) : Option Timer :=
  match t.pc with
  | .top => some { t with pc := if t.stop then .exited else .scan t.devList 0 0 }
  | .scan (temp :: rest) fsh event =>
      -- `while (!done && !fsh) pthread_cond_wait(..)`
      if !(t.dev temp).done && !(t.dev temp).fsh then none
      else some { t with
        pc := .scan rest (if (t.dev temp).fsh then fsh + 1 else fsh) (event + 1) }
  | .scan [] fsh event =>
      some { t with time := t.time + 1, ticks := t.ticks + 1, pc := .release t.devList fsh event }
  | .release (temp :: rest) fsh event =>
      let id := t.dev temp
      some { t.setDev temp { id with
          done := false
          cleared := if id.done then id.cleared ++ [t.ticks] else id.cleared } with
        pc := .release rest fsh event }
  | .release [] fsh event => some { t with pc := if fsh = event then .exited else .top }
  | .exited => none

/-- `next_slot`, up to the first unlock. -/
def nextSlotCall (t : Timer) (d : Nat) : Option Timer :=
  let id := t.dev d
  if d ∈ t.devList ∧ id.waiting = false ∧ id.fsh = false then
    some (t.setDev d { id with done := true, waiting := true, calls := id.calls + 1 })
  else none

/-- `next_slot`, from the second lock on. -/
def nextSlotRet (t : Timer) (d : Nat) : Option Timer :=
  let id := t.dev d
  -- `while (done) pthread_cond_wait(..)`
  if d ∈ t.devList ∧ id.waiting = true ∧ id.done = false then
    some (t.setDev d { id with waiting := false, completed := id.completed + 1 })
  else none

/-- `detach_event`, which a device does not call from within `next_slot` and calls once. -/
def detachEvent (t : Timer) (d : Nat) : Option Timer :=
  let id := t.dev d
  if d ∈ t.devList ∧ id.waiting = false ∧ id.fsh = false then
    some (t.setDev d { id with fsh := true })
  else none

/-- `current_time`. -/
def currentTime (t : Timer) : UInt64 := t.time

/-- One step of one thread. -/
def timerStep (t : Timer) : TimerEvent → Option Timer
  | .tick => timerRoutine t
  | .call d => nextSlotCall t d
  | .ret d => nextSlotRet t d
  | .detach d => detachEvent t d
  | .stop => some { t with stop := true }

/-! ## What a step can do -/

@[simp] theorem Timer.setDev_self (t : Timer) (d : Nat) (id : TimerId) :
    (t.setDev d id).dev d = id := Function.update_self ..

theorem Timer.setDev_of_ne (t : Timer) (id : TimerId) {d i : Nat} (h : i ≠ d) :
    (t.setDev d id).dev i = t.dev i := Function.update_of_ne h ..

theorem length_attached (n : Nat) : (attached n).length = n := by
  induction n with
  | zero => rfl
  | succ n ih => exact congrArg Nat.succ ih

theorem mem_attached {n d : Nat} : d ∈ attached n ↔ d < n := by
  induction n with
  | zero => exact ⟨fun h => absurd h List.not_mem_nil, fun h => absurd h (Nat.not_lt_zero d)⟩
  | succ n ih =>
      rw [attached, attachEvent, length_attached, List.mem_cons, ih]
      omega

theorem nodup_attached (n : Nat) : (attached n).Nodup := by
  induction n with
  | zero => exact List.nodup_nil
  | succ n ih =>
      rw [attached, attachEvent, length_attached]
      exact List.nodup_cons.mpr ⟨fun h => absurd (mem_attached.mp h) (Nat.lt_irrefl n), ih⟩

/-- The steps of `timer_routine`. -/
theorem timerRoutine_cases {t t' : Timer} (h : timerRoutine t = some t') :
    (t.pc = .top ∧ t' = { t with pc := .exited }) ∨
    (t.pc = .top ∧ t' = { t with pc := .scan t.devList 0 0 }) ∨
    (∃ temp rest fsh event fsh', t.pc = .scan (temp :: rest) fsh event ∧
      ((t.dev temp).done = true ∨ (t.dev temp).fsh = true) ∧
      t' = { t with pc := .scan rest fsh' (event + 1) }) ∨
    (∃ fsh event, t.pc = .scan [] fsh event ∧
      t' = { t with
        time := t.time + 1, ticks := t.ticks + 1, pc := .release t.devList fsh event }) ∨
    (∃ temp rest fsh event, t.pc = .release (temp :: rest) fsh event ∧
      t' = { t.setDev temp { t.dev temp with
          done := false
          cleared := if (t.dev temp).done then (t.dev temp).cleared ++ [t.ticks]
            else (t.dev temp).cleared } with
        pc := .release rest fsh event }) ∨
    (∃ fsh event, t.pc = .release [] fsh event ∧
      (t' = { t with pc := .exited } ∨ t' = { t with pc := .top })) := by
  rw [timerRoutine] at h
  split at h
  next hpc =>
    cases h
    split
    · exact Or.inl ⟨hpc, rfl⟩
    · exact Or.inr (Or.inl ⟨hpc, rfl⟩)
  next temp rest fsh event hpc =>
    split at h
    next => exact nomatch h
    next hready =>
      cases h
      refine Or.inr (Or.inr (Or.inl ⟨temp, rest, fsh, event, _, hpc, ?_, rfl⟩))
      cases hdone : (t.dev temp).done with
      | true => exact Or.inl rfl
      | false =>
          cases hfsh : (t.dev temp).fsh with
          | true => exact Or.inr rfl
          | false =>
              rw [hdone, hfsh] at hready
              exact absurd rfl hready
  next fsh event hpc =>
    cases h
    exact Or.inr (Or.inr (Or.inr (Or.inl ⟨fsh, event, hpc, rfl⟩)))
  next temp rest fsh event hpc =>
    cases h
    exact Or.inr (Or.inr (Or.inr (Or.inr (Or.inl ⟨temp, rest, fsh, event, hpc, rfl⟩))))
  next fsh event hpc =>
    cases h
    refine Or.inr (Or.inr (Or.inr (Or.inr (Or.inr ⟨fsh, event, hpc, ?_⟩))))
    split
    · exact Or.inl rfl
    · exact Or.inr rfl
  next => exact nomatch h

theorem nextSlotCall_cases {t t' : Timer} {d : Nat} (h : nextSlotCall t d = some t') :
    d ∈ t.devList ∧ (t.dev d).waiting = false ∧ (t.dev d).fsh = false ∧
    t' = t.setDev d { t.dev d with
      done := true, waiting := true, calls := (t.dev d).calls + 1 } := by
  rw [nextSlotCall] at h
  split at h
  next hg => cases h; exact ⟨hg.1, hg.2.1, hg.2.2, rfl⟩
  next => exact nomatch h

theorem nextSlotRet_cases {t t' : Timer} {d : Nat} (h : nextSlotRet t d = some t') :
    d ∈ t.devList ∧ (t.dev d).waiting = true ∧ (t.dev d).done = false ∧
    t' = t.setDev d { t.dev d with waiting := false, completed := (t.dev d).completed + 1 } := by
  rw [nextSlotRet] at h
  split at h
  next hg => cases h; exact ⟨hg.1, hg.2.1, hg.2.2, rfl⟩
  next => exact nomatch h

theorem detachEvent_cases {t t' : Timer} {d : Nat} (h : detachEvent t d = some t') :
    d ∈ t.devList ∧ (t.dev d).waiting = false ∧ (t.dev d).fsh = false ∧
    t' = t.setDev d { t.dev d with fsh := true } := by
  rw [detachEvent] at h
  split at h
  next hg => cases h; exact ⟨hg.1, hg.2.1, hg.2.2, rfl⟩
  next => exact nomatch h

/-- The device whose owner takes the step. -/
def TimerEvent.device : TimerEvent → Option Nat
  | .call d | .ret d | .detach d => some d
  | .tick | .stop => none

/-- The timer clears flags; it touches nothing else of a device. -/
theorem timerRoutine_dev {t t' : Timer} (h : timerRoutine t = some t') (d : Nat) :
    (t'.dev d).waiting = (t.dev d).waiting ∧ (t'.dev d).fsh = (t.dev d).fsh ∧
    (t'.dev d).calls = (t.dev d).calls := by
  rcases timerRoutine_cases h with ⟨_, rfl⟩ | ⟨_, rfl⟩ | ⟨_, _, _, _, _, _, _, rfl⟩ |
    ⟨_, _, _, rfl⟩ | ⟨temp, _, _, _, _, rfl⟩ | ⟨_, _, _, rfl | rfl⟩
  · exact ⟨rfl, rfl, rfl⟩
  · exact ⟨rfl, rfl, rfl⟩
  · exact ⟨rfl, rfl, rfl⟩
  · exact ⟨rfl, rfl, rfl⟩
  · rcases eq_or_ne d temp with rfl | hd
    · show ((t.setDev d _).dev d).waiting = _ ∧ ((t.setDev d _).dev d).fsh = _ ∧
        ((t.setDev d _).dev d).calls = _
      rw [Timer.setDev_self]
      exact ⟨rfl, rfl, rfl⟩
    · show ((t.setDev temp _).dev d).waiting = _ ∧ ((t.setDev temp _).dev d).fsh = _ ∧
        ((t.setDev temp _).dev d).calls = _
      rw [Timer.setDev_of_ne t _ hd]
      exact ⟨rfl, rfl, rfl⟩
  · exact ⟨rfl, rfl, rfl⟩
  · exact ⟨rfl, rfl, rfl⟩

/-- A device moves no other device and not the time. -/
theorem timerStep_device {t t' : Timer} {e : TimerEvent} {d : Nat} (h : timerStep t e = some t')
    (he : e.device = some d) : t'.ticks = t.ticks ∧ ∀ i, i ≠ d → t'.dev i = t.dev i := by
  cases e with
  | call i =>
      obtain ⟨_, _, _, rfl⟩ := nextSlotCall_cases h
      cases he
      exact ⟨rfl, fun i hi => t.setDev_of_ne _ hi⟩
  | ret i =>
      obtain ⟨_, _, _, rfl⟩ := nextSlotRet_cases h
      cases he
      exact ⟨rfl, fun i hi => t.setDev_of_ne _ hi⟩
  | detach i =>
      obtain ⟨_, _, _, rfl⟩ := detachEvent_cases h
      cases he
      exact ⟨rfl, fun i hi => t.setDev_of_ne _ hi⟩
  | tick => exact nomatch he
  | stop => exact nomatch he

/-! ## The invariant -/

/-- The devices the current loop has not come to. -/
def TimerPc.rest : TimerPc → List Nat
  | .scan rest _ _ => rest
  | .release rest _ _ => rest
  | _ => []

/-- The devices whose release is pending: the slot is over, the second loop has not come to them. -/
def TimerPc.unreleased : TimerPc → List Nat
  | .release rest _ _ => rest
  | _ => []

/-- Device `d` is `id`, in a state with `ticks` ticks and the timer at `pc`. -/
structure DeviceOk (ticks : Nat) (pc : TimerPc) (d : Nat) (id : TimerId) : Prop where
  /-- A set flag belongs to the call in progress. -/
  flag : id.done = true → id.waiting = true
  gone : id.fsh = true → id.waiting = false
  /-- The k-th flag was cleared after the k-th tick. -/
  cleared : id.cleared = List.range' 1 id.cleared.length
  calls : id.calls = id.cleared.length + id.done.toNat
  completed : id.completed + (id.waiting && !id.done).toNat = id.cleared.length
  released : id.fsh = false → d ∉ pc.unreleased → ticks = id.cleared.length
  pending : id.fsh = false → d ∈ pc.unreleased →
    id.done = true ∧ ticks = id.cleared.length + 1
  scanned : ∀ rest fsh event, pc = .scan rest fsh event → d ∉ rest →
    id.done = true ∨ id.fsh = true

/-- What holds in every reachable state of a timer with `n` devices. -/
structure TimerOk (n : Nat) (t : Timer) : Prop where
  devList : t.devList = attached n
  rest : t.pc.rest <:+ attached n
  time : t.time = UInt64.ofNat t.ticks
  dev : ∀ d < n, DeviceOk t.ticks t.pc d (t.dev d)

theorem timerOk_start (n : Nat) : TimerOk n (startTimer n) where
  devList := rfl
  rest := List.nil_suffix
  time := rfl
  dev := fun _ _ =>
    { flag := fun h => nomatch h
      gone := fun h => nomatch h
      cleared := rfl
      calls := rfl
      completed := rfl
      released := fun _ _ => rfl
      pending := fun _ h => nomatch h
      scanned := fun _ _ _ h => nomatch h }

section Steps
variable {n : Nat} {t t' : Timer} {ticks : Nat} {pc pc' : TimerPc} {d : Nat} {id : TimerId}

/-- The flag of a device that is not in `next_slot` is clear. -/
theorem DeviceOk.not_done (h : DeviceOk ticks pc d id) (hw : id.waiting = false) :
    id.done = false := by
  cases hd : id.done with
  | false => rfl
  | true => exact absurd (hw.symm.trans (h.flag hd)) Bool.false_ne_true

theorem DeviceOk.not_gone (h : DeviceOk ticks pc d id) (hw : id.waiting = true) :
    id.fsh = false := by
  cases hfsh : id.fsh with
  | false => rfl
  | true => exact absurd ((h.gone hfsh).symm.trans hw) Bool.false_ne_true

theorem DeviceOk.call (h : DeviceOk ticks pc d id) (hw : id.waiting = false)
    (hf : id.fsh = false) :
    DeviceOk ticks pc d { id with done := true, waiting := true, calls := id.calls + 1 } := by
  have hdone : id.done = false := h.not_done hw
  have hcalls := h.calls
  have hcompleted := h.completed
  rw [hdone] at hcalls
  rw [hw] at hcompleted
  exact {
    flag := fun _ => rfl
    gone := fun hfsh => absurd (hf.symm.trans hfsh) Bool.false_ne_true
    cleared := h.cleared
    calls := congrArg (· + 1) hcalls
    completed := hcompleted
    released := h.released
    pending := fun _ hmem => ⟨rfl, (h.pending hf hmem).2⟩
    scanned := fun _ _ _ _ _ => Or.inl rfl }

theorem DeviceOk.ret (h : DeviceOk ticks pc d id) (hw : id.waiting = true)
    (hd : id.done = false) :
    DeviceOk ticks pc d { id with waiting := false, completed := id.completed + 1 } := by
  have hcompleted := h.completed
  rw [hw, hd] at hcompleted
  exact {
    flag := fun hdone => absurd (hd.symm.trans hdone) Bool.false_ne_true
    gone := fun _ => rfl
    cleared := h.cleared
    calls := h.calls
    completed := hcompleted
    released := h.released
    pending := h.pending
    scanned := h.scanned }

theorem DeviceOk.detach (h : DeviceOk ticks pc d id) (hw : id.waiting = false) :
    DeviceOk ticks pc d { id with fsh := true } where
  flag := h.flag
  gone := fun _ => hw
  cleared := h.cleared
  calls := h.calls
  completed := h.completed
  released := fun hf => nomatch hf
  pending := fun hf => nomatch hf
  scanned := fun _ _ _ _ _ => Or.inr rfl

/-- The timer goes on; no release is pending before or after. -/
theorem DeviceOk.move (h : DeviceOk ticks pc d id) (hpc : d ∉ pc.unreleased)
    (hpc' : d ∉ pc'.unreleased)
    (hscan : ∀ rest fsh event, pc' = .scan rest fsh event → d ∉ rest →
      id.done = true ∨ id.fsh = true) : DeviceOk ticks pc' d id where
  flag := h.flag
  gone := h.gone
  cleared := h.cleared
  calls := h.calls
  completed := h.completed
  released := fun hf _ => h.released hf hpc
  pending := fun _ hmem => absurd hmem hpc'
  scanned := hscan

/-- The tick finds every device done or gone. -/
theorem DeviceOk.tick {rest : List Nat} {fsh event fsh' event' : Nat}
    (h : DeviceOk ticks (.scan [] fsh event) d id) (hd : d ∈ rest) :
    DeviceOk (ticks + 1) (.release rest fsh' event') d id where
  flag := h.flag
  gone := h.gone
  cleared := h.cleared
  calls := h.calls
  completed := h.completed
  released := fun _ hmem => absurd hd hmem
  pending := by
    intro hf _
    have hdone := (h.scanned [] fsh event rfl List.not_mem_nil).resolve_right
      (fun hfsh => Bool.false_ne_true (hf.symm.trans hfsh))
    exact ⟨hdone, congrArg (· + 1) (h.released hf List.not_mem_nil)⟩
  scanned := fun _ _ _ hpc => nomatch hpc

/-- The second loop comes to the device. -/
theorem DeviceOk.release {rest : List Nat} {fsh event : Nat}
    (h : DeviceOk ticks (.release (d :: rest) fsh event) d id) (hd : d ∉ rest) :
    DeviceOk ticks (.release rest fsh event) d { id with
      done := false
      cleared := if id.done then id.cleared ++ [ticks] else id.cleared } := by
  have hcalls := h.calls
  have hcompleted := h.completed
  have hflag := h.flag
  have hpending := fun hf => h.pending hf List.mem_cons_self
  have hclear := h.cleared
  cases hdone : id.done with
  | false =>
      -- only a device that is gone has no flag to clear
      rw [hdone] at hcalls hcompleted
      exact {
        flag := fun hf => nomatch hf
        gone := h.gone
        cleared := hclear
        calls := hcalls
        completed := hcompleted
        released := fun hf _ =>
          absurd (hdone.symm.trans (hpending hf).1) Bool.false_ne_true
        pending := fun _ hmem => absurd hmem hd
        scanned := fun _ _ _ hpc => nomatch hpc }
  | true =>
      have hw : id.waiting = true := hflag hdone
      have hf : id.fsh = false := h.not_gone hw
      have hticks : ticks = id.cleared.length + 1 := (hpending hf).2
      have hlen : (id.cleared ++ [ticks]).length = id.cleared.length + 1 := List.length_append
      rw [hdone] at hcalls hcompleted
      rw [hw] at hcompleted
      exact {
        flag := fun hfalse => nomatch hfalse
        gone := h.gone
        cleared := by
          show id.cleared ++ [ticks] = List.range' 1 (id.cleared ++ [ticks]).length
          rw [hlen, List.range'_concat, ← hclear, hticks, Nat.one_mul, Nat.add_comm 1]
        calls := by
          show id.calls = (id.cleared ++ [ticks]).length + 0
          rw [hlen]
          exact hcalls
        completed := by
          show id.completed + (id.waiting && !false).toNat = (id.cleared ++ [ticks]).length
          rw [hlen, hw]
          exact congrArg (· + 1) hcompleted
        released := by
          intro _ _
          show ticks = (id.cleared ++ [ticks]).length
          rw [hlen]
          exact hticks
        pending := fun _ hmem => absurd hmem hd
        scanned := fun _ _ _ hpc => nomatch hpc }

/-- The second loop comes to another device. -/
theorem DeviceOk.release_other {temp : Nat} {rest : List Nat} {fsh event : Nat}
    (h : DeviceOk ticks (.release (temp :: rest) fsh event) d id) (hd : d ≠ temp) :
    DeviceOk ticks (.release rest fsh event) d id where
  flag := h.flag
  gone := h.gone
  cleared := h.cleared
  calls := h.calls
  completed := h.completed
  released := fun hf hmem => h.released hf fun hc => (List.mem_cons.mp hc).elim hd hmem
  pending := fun hf hmem => h.pending hf (List.mem_cons_of_mem _ hmem)
  scanned := fun _ _ _ hpc => nomatch hpc

end Steps

/-- A device that is not gone and whose flag is clear has made one call per tick. -/
theorem DeviceOk.in_slot {ticks : Nat} {pc : TimerPc} {d : Nat} {id : TimerId}
    (h : DeviceOk ticks pc d id) (hdone : id.done = false) (hf : id.fsh = false) :
    id.calls = ticks := by
  have hcalls := h.calls
  rw [hdone] at hcalls
  have hnot : d ∉ pc.unreleased := fun hpend =>
    Bool.false_ne_true (hdone.symm.trans (h.pending hf hpend).1)
  exact hcalls.trans (h.released hf hnot).symm

/-- Between two calls as many were completed as made. -/
theorem DeviceOk.idle {ticks : Nat} {pc : TimerPc} {d : Nat} {id : TimerId}
    (h : DeviceOk ticks pc d id) (hw : id.waiting = false) : id.calls = id.completed := by
  have hcalls := h.calls
  have hcompleted := h.completed
  rw [h.not_done hw] at hcalls
  rw [hw] at hcompleted
  exact hcalls.trans hcompleted.symm

section Run
variable {n : Nat} {t t' : Timer} {e : TimerEvent}

/-- A critical section of device `d`. -/
theorem TimerOk.setDev {d : Nat} {id : TimerId} (h : TimerOk n t)
    (hd : DeviceOk t.ticks t.pc d (t.dev d) → DeviceOk t.ticks t.pc d id) :
    TimerOk n (t.setDev d id) where
  devList := h.devList
  rest := h.rest
  time := h.time
  dev := by
    intro i hi
    by_cases hid : i = d
    · subst hid
      show DeviceOk t.ticks t.pc i ((t.setDev i id).dev i)
      rw [Timer.setDev_self]
      exact hd (h.dev i hi)
    · show DeviceOk t.ticks t.pc i ((t.setDev d id).dev i)
      rw [Timer.setDev_of_ne t id hid]
      exact h.dev i hi

theorem TimerOk.routine (h : TimerOk n t) (hs : timerRoutine t = some t') : TimerOk n t' := by
  have hmem : ∀ d < n, d ∈ t.devList := fun d hd => by rw [h.devList]; exact mem_attached.mpr hd
  rcases timerRoutine_cases hs with ⟨hpc, rfl⟩ | ⟨hpc, rfl⟩ |
    ⟨temp, rest, fsh, event, fsh', hpc, hready, rfl⟩ | ⟨fsh, event, hpc, rfl⟩ |
    ⟨temp, rest, fsh, event, hpc, rfl⟩ | ⟨fsh, event, hpc, hnext⟩
  · -- `timer_stop` is set
    refine ⟨h.devList, List.nil_suffix, h.time, fun d hd => (h.dev d hd).move ?_ ?_ ?_⟩
    · rw [hpc]; exact List.not_mem_nil
    · exact List.not_mem_nil
    · exact fun _ _ _ hpc' => nomatch hpc'
  · refine ⟨h.devList, ?_, h.time, fun d hd => (h.dev d hd).move ?_ ?_ ?_⟩
    · show t.devList <:+ attached n
      simp only [h.devList, List.suffix_rfl]
    · rw [hpc]; exact List.not_mem_nil
    · exact List.not_mem_nil
    · intro rest fsh event hpc' hrest
      cases hpc'
      exact absurd (hmem d hd) hrest
  · -- the first loop has seen `temp`
    have hsuffix := h.rest
    rw [hpc] at hsuffix
    refine ⟨h.devList, (List.suffix_cons temp rest).trans hsuffix, h.time,
      fun d hd => (h.dev d hd).move ?_ ?_ ?_⟩
    · rw [hpc]; exact List.not_mem_nil
    · exact List.not_mem_nil
    · intro rest' fsh₁ event₁ hpc' hrest
      cases hpc'
      by_cases hdt : d = temp
      · rw [hdt]
        exact hready
      · exact (h.dev d hd).scanned _ _ _ hpc fun hc => (List.mem_cons.mp hc).elim hdt hrest
  · -- the tick
    refine ⟨h.devList, ?_, ?_, fun d hd => ?_⟩
    · show t.devList <:+ attached n
      simp only [h.devList, List.suffix_rfl]
    · show t.time + 1 = UInt64.ofNat (t.ticks + 1)
      rw [h.time, UInt64.ofNat_add]
      rfl
    · have hdev := h.dev d hd
      rw [hpc] at hdev
      exact hdev.tick (hmem d hd)
  · -- the second loop releases `temp`
    have hsuffix := h.rest
    rw [hpc] at hsuffix
    have hnodup := List.nodup_cons.mp (hsuffix.sublist.nodup (nodup_attached n))
    refine ⟨h.devList, (List.suffix_cons temp rest).trans hsuffix, h.time, fun d hd => ?_⟩
    have hdev := h.dev d hd
    rw [hpc] at hdev
    by_cases hdt : d = temp
    · subst hdt
      show DeviceOk t.ticks _ d ((t.setDev d _).dev d)
      rw [Timer.setDev_self]
      exact hdev.release hnodup.1
    · show DeviceOk t.ticks _ d ((t.setDev temp _).dev d)
      rw [Timer.setDev_of_ne t _ hdt]
      exact hdev.release_other hdt
  · have hkeep : ∀ pc, pc.rest = [] → pc.unreleased = [] →
        (∀ rest fsh event, pc ≠ .scan rest fsh event) → TimerOk n { t with pc := pc } := by
      intro pc hrest hun hscan
      refine ⟨h.devList, ?_, h.time, fun d hd => (h.dev d hd).move ?_ ?_ ?_⟩
      · show pc.rest <:+ attached n
        rw [hrest]
        exact List.nil_suffix
      · rw [hpc]; exact List.not_mem_nil
      · rw [hun]; exact List.not_mem_nil
      · exact fun _ _ _ hpc' => absurd hpc' (hscan _ _ _)
    rcases hnext with rfl | rfl
    · exact hkeep .exited rfl rfl (fun _ _ _ hpc' => nomatch hpc')
    · exact hkeep .top rfl rfl (fun _ _ _ hpc' => nomatch hpc')

theorem TimerOk.step (h : TimerOk n t) (hs : timerStep t e = some t') : TimerOk n t' := by
  cases e with
  | tick => exact h.routine hs
  | call d =>
      obtain ⟨_, hw, hf, rfl⟩ := nextSlotCall_cases hs
      exact h.setDev fun hd => hd.call hw hf
  | ret d =>
      obtain ⟨_, hw, hdone, rfl⟩ := nextSlotRet_cases hs
      exact h.setDev fun hd => hd.ret hw hdone
  | detach d =>
      obtain ⟨_, hw, _, rfl⟩ := detachEvent_cases hs
      exact h.setDev fun hd => hd.detach hw
  | stop =>
      obtain rfl : { t with stop := true } = t' := Option.some.inj hs
      exact ⟨h.devList, h.rest, h.time, h.dev⟩

theorem timerOk_of_reaches {es : List TimerEvent}
    (h : Lts.Reaches timerStep (startTimer n) es t) : TimerOk n t :=
  h.invariant (P := TimerOk n) (timerOk_start n) fun _ _ _ hok _ hs => hok.step hs

end Run

/-! ## The timer is a barrier -/

/-- What the devices can tell of the timer. -/
def Timer.barrier (t : Timer) : Barrier.State Nat where
  round := t.ticks
  arrived := fun d => (t.dev d).calls
  passed := fun d => (t.dev d).completed
  left := fun d => (t.dev d).fsh

theorem barrier_setDev (t : Timer) (d : Nat) (id : TimerId) : (t.setDev d id).barrier =
    { round := t.ticks
      arrived := Function.update t.barrier.arrived d id.calls
      passed := Function.update t.barrier.passed d id.completed
      left := Function.update t.barrier.left d id.fsh } := by
  refine Barrier.State.ext rfl ?_ ?_ ?_ <;> funext i
  · exact Function.apply_update (fun _ => TimerId.calls) t.dev d id i
  · exact Function.apply_update (fun _ => TimerId.completed) t.dev d id i
  · exact Function.apply_update (fun _ => TimerId.fsh) t.dev d id i

section Refinement
variable {n : Nat} {t t' : Timer} {e : TimerEvent}

/-- Before the tick, every device has called `next_slot` since the last tick or is gone. -/
theorem TimerOk.all_called {fsh event : Nat} (h : TimerOk n t) (hpc : t.pc = .scan [] fsh event)
    {d : Nat} (hd : d < n) : (t.dev d).fsh = true ∨
      ((t.dev d).cleared.length = t.ticks ∧ (t.dev d).calls = t.ticks + 1) := by
  have hdev := h.dev d hd
  cases hf : (t.dev d).fsh with
  | true => exact Or.inl rfl
  | false =>
      have hdone := (hdev.scanned [] fsh event hpc List.not_mem_nil).resolve_right
        (fun hfsh => Bool.false_ne_true (hf.symm.trans hfsh))
      have hticks := hdev.released hf (by rw [hpc]; exact List.not_mem_nil)
      have hcalls := hdev.calls
      rw [hdone, ← hticks] at hcalls
      exact Or.inr ⟨hticks.symm, hcalls⟩

/-- A step of a thread is a step of the barrier, or nothing the devices can tell. -/
theorem timerStep_refines (h : TimerOk n t) (hs : timerStep t e = some t') :
    t'.barrier = t.barrier ∨ Barrier.Step {d | d < n} t.barrier t'.barrier := by
  have hlt : ∀ {d}, d ∈ t.devList → d < n := fun hd => by
    rw [h.devList] at hd
    exact mem_attached.mp hd
  cases e with
  | tick =>
      rcases timerRoutine_cases hs with ⟨_, rfl⟩ | ⟨_, rfl⟩ | ⟨_, _, _, _, _, _, _, rfl⟩ |
        ⟨fsh, event, hpc, rfl⟩ | ⟨temp, _, _, _, _, rfl⟩ | ⟨_, _, _, rfl | rfl⟩
      · exact Or.inl rfl
      · exact Or.inl rfl
      · exact Or.inl rfl
      · refine Or.inr (.tick fun d hd => ?_)
        exact (h.all_called hpc hd).imp_right And.right
      · left
        show (t.setDev temp _).barrier = t.barrier
        rw [barrier_setDev]
        refine Barrier.State.ext rfl ?_ ?_ ?_ <;> exact Function.update_eq_self ..
      · exact Or.inl rfl
      · exact Or.inl rfl
  | call d =>
      obtain ⟨hmem, hw, hf, rfl⟩ := nextSlotCall_cases hs
      have heq : (t.setDev d { t.dev d with
            done := true, waiting := true, calls := (t.dev d).calls + 1 }).barrier =
          { t.barrier with
            arrived := Function.update t.barrier.arrived d (t.barrier.arrived d + 1) } :=
        (barrier_setDev ..).trans (Barrier.State.ext rfl rfl (Function.update_eq_self ..)
          (Function.update_eq_self ..))
      rw [heq]
      exact Or.inr (.arrive d (hlt hmem) hf ((h.dev d (hlt hmem)).idle hw))
  | ret d =>
      obtain ⟨hmem, hw, hdone, rfl⟩ := nextSlotRet_cases hs
      have heq : (t.setDev d { t.dev d with
            waiting := false, completed := (t.dev d).completed + 1 }).barrier =
          { t.barrier with
            passed := Function.update t.barrier.passed d (t.barrier.passed d + 1) } :=
        (barrier_setDev ..).trans (Barrier.State.ext rfl (Function.update_eq_self ..) rfl
          (Function.update_eq_self ..))
      have hdev := h.dev d (hlt hmem)
      have hcalls : (t.dev d).calls = (t.dev d).cleared.length := by
        have hcalls := hdev.calls
        rwa [hdone] at hcalls
      have hcompleted : (t.dev d).completed + 1 = (t.dev d).cleared.length := by
        have hcompleted := hdev.completed
        rwa [hw, hdone] at hcompleted
      rw [heq]
      exact Or.inr (.pass d (hlt hmem) (hcalls.trans hcompleted.symm)
        (Nat.le_of_eq (hdev.in_slot hdone (hdev.not_gone hw))))
  | detach d =>
      obtain ⟨hmem, hw, hf, rfl⟩ := detachEvent_cases hs
      have heq : (t.setDev d { t.dev d with fsh := true }).barrier =
          { t.barrier with left := Function.update t.barrier.left d true } :=
        (barrier_setDev ..).trans (Barrier.State.ext rfl (Function.update_eq_self ..)
          (Function.update_eq_self ..) rfl)
      rw [heq]
      exact Or.inr (.leave d (hlt hmem) hf ((h.dev d (hlt hmem)).idle hw))
  | stop =>
      obtain rfl : { t with stop := true } = t' := Option.some.inj hs
      exact Or.inl rfl

/-- Every run of the timer is a run of the barrier. -/
theorem timer_refines {es : List TimerEvent} (h : Lts.Reaches timerStep (startTimer n) es t) :
    Relation.ReflTransGen (Barrier.Step {d | d < n}) .init t.barrier := by
  induction h with
  | nil => exact .refl
  | snoc e hrun _ hs ih =>
      rcases timerStep_refines (timerOk_of_reaches hrun) hs with heq | hstep
      · rwa [heq]
      · exact ih.tail hstep

/-- A step that clears a set flag is the second loop coming to the device, in the slot of the
call that set the flag. -/
theorem TimerOk.flag_cleared {d : Nat} (h : TimerOk n t) (hd : d < n)
    (hs : timerStep t e = some t') (hset : (t.dev d).done = true)
    (hclear : (t'.dev d).done = false) :
    (t.dev d).calls = t.ticks ∧ (t'.dev d).cleared = (t.dev d).cleared ++ [t.ticks] := by
  have hno : (t'.dev d).done ≠ true := by rw [hclear]; exact Bool.false_ne_true
  -- the critical sections of the devices clear no flag
  have hkeep : ∀ {i id}, ((t.dev i).done = true → id.done = true) →
      ((t.setDev i id).dev d).done = true := by
    intro i id hid
    by_cases hdi : d = i
    · subst hdi
      rw [Timer.setDev_self]
      exact hid hset
    · rw [Timer.setDev_of_ne t id hdi]
      exact hset
  cases e with
  | tick =>
      rcases timerRoutine_cases hs with ⟨_, rfl⟩ | ⟨_, rfl⟩ | ⟨_, _, _, _, _, _, _, rfl⟩ |
        ⟨_, _, _, rfl⟩ | ⟨temp, rest, fsh, event, hpc, rfl⟩ | ⟨_, _, _, rfl | rfl⟩
      · exact absurd hset hno
      · exact absurd hset hno
      · exact absurd hset hno
      · exact absurd hset hno
      · by_cases hdt : d = temp
        · subst hdt
          have hdev := h.dev d hd
          have hf := hdev.not_gone (hdev.flag hset)
          have hcalls := hdev.calls
          rw [hpc] at hdev
          obtain ⟨_, hticks⟩ := hdev.pending hf List.mem_cons_self
          rw [hset] at hcalls
          refine ⟨hcalls.trans hticks.symm, ?_⟩
          show ((t.setDev d _).dev d).cleared = _
          rw [Timer.setDev_self]
          exact if_pos hset
        · refine absurd ?_ hno
          show ((t.setDev temp _).dev d).done = true
          rw [Timer.setDev_of_ne t _ hdt]
          exact hset
      · exact absurd hset hno
      · exact absurd hset hno
  | call i =>
      obtain ⟨_, _, _, rfl⟩ := nextSlotCall_cases hs
      exact (hno (hkeep fun _ => rfl)).elim
  | ret i =>
      obtain ⟨_, _, _, rfl⟩ := nextSlotRet_cases hs
      exact (hno (hkeep fun hi => hi)).elim
  | detach i =>
      obtain ⟨_, _, _, rfl⟩ := detachEvent_cases hs
      exact (hno (hkeep fun hi => hi)).elim
  | stop =>
      obtain rfl : { t with stop := true } = t' := Option.some.inj hs
      exact absurd hset hno

/-- `_time` moves by one, and only when every device has called `next_slot` since the previous
tick released it, or is gone. -/
theorem TimerOk.time_step (h : TimerOk n t) (hs : timerStep t e = some t') :
    (t'.time = t.time ∧ t'.ticks = t.ticks) ∨
    (t'.time = t.time + 1 ∧ t'.ticks = t.ticks + 1 ∧ ∀ d < n, (t.dev d).fsh = true ∨
      ((t.dev d).cleared.length = t.ticks ∧ (t.dev d).calls = t.ticks + 1)) := by
  cases e with
  | tick =>
      rcases timerRoutine_cases hs with ⟨_, rfl⟩ | ⟨_, rfl⟩ | ⟨_, _, _, _, _, _, _, rfl⟩ |
        ⟨_, _, hpc, rfl⟩ | ⟨_, _, _, _, _, rfl⟩ | ⟨_, _, _, rfl | rfl⟩
      · exact Or.inl ⟨rfl, rfl⟩
      · exact Or.inl ⟨rfl, rfl⟩
      · exact Or.inl ⟨rfl, rfl⟩
      · exact Or.inr ⟨rfl, rfl, fun d hd => h.all_called hpc hd⟩
      · exact Or.inl ⟨rfl, rfl⟩
      · exact Or.inl ⟨rfl, rfl⟩
      · exact Or.inl ⟨rfl, rfl⟩
  | call d => obtain ⟨_, _, _, rfl⟩ := nextSlotCall_cases hs; exact Or.inl ⟨rfl, rfl⟩
  | ret d => obtain ⟨_, _, _, rfl⟩ := nextSlotRet_cases hs; exact Or.inl ⟨rfl, rfl⟩
  | detach d => obtain ⟨_, _, _, rfl⟩ := detachEvent_cases hs; exact Or.inl ⟨rfl, rfl⟩
  | stop =>
      obtain rfl : { t with stop := true } = t' := Option.some.inj hs
      exact Or.inl ⟨rfl, rfl⟩

end Refinement

/-! ## In every run -/

/-- In every run: a device that is not gone has completed as many calls as there were ticks, or
one fewer; a tick happens only when every device that is not gone has called `next_slot` since
the last one; a flag is cleared in the slot of the call that set it; and the k-th call of a
device is matched with the k-th tick. -/
theorem timer_barrier (n : Nat) (es : List TimerEvent) (t : Timer)
    (h : Lts.Reaches timerStep (startTimer n) es t) :
    t.time = UInt64.ofNat t.ticks ∧
    (∀ d < n, (t.dev d).fsh = false →
      (t.dev d).completed ≤ t.ticks ∧ t.ticks ≤ (t.dev d).completed + 1) ∧
    (∀ e t', timerStep t e = some t' →
      (t'.time = t.time ∧ t'.ticks = t.ticks) ∨
      (t'.time = t.time + 1 ∧ t'.ticks = t.ticks + 1 ∧ ∀ d < n, (t.dev d).fsh = true ∨
        ((t.dev d).cleared.length = t.ticks ∧ (t.dev d).calls = t.ticks + 1))) ∧
    (∀ e t', timerStep t e = some t' → ∀ d < n,
      (t.dev d).done = true → (t'.dev d).done = false →
      (t.dev d).calls = t.ticks ∧ (t'.dev d).cleared = (t.dev d).cleared ++ [t.ticks]) ∧
    (∀ d < n, (t.dev d).cleared = List.range' 1 (t.dev d).cleared.length ∧
      (t.dev d).completed ≤ (t.dev d).cleared.length ∧
      (t.dev d).cleared.length ≤ (t.dev d).completed + 1) := by
  have hok := timerOk_of_reaches h
  refine ⟨hok.time, ?_, fun e t' hs => hok.time_step hs,
    fun e t' hs d hd hset hclear => hok.flag_cleared hd hs hset hclear, ?_⟩
  · -- the bounds are those of the barrier
    intro d hd hf
    have hin := Barrier.inStep_of_reaches (timer_refines h) d hd
    obtain ⟨hpassed, hround, _⟩ := hin.active hf
    exact ⟨hpassed, hround.trans hin.arrived_le⟩
  · intro d hd
    have hdev := hok.dev d hd
    refine ⟨hdev.cleared, ?_, ?_⟩
    · exact (Nat.le_add_right _ _).trans (Nat.le_of_eq hdev.completed)
    · rw [← hdev.completed]
      exact Nat.add_le_add_left (Bool.toNat_le _) _

/-- Two devices in a slot the timer has half released: device 1 has already made its second
call. -/
theorem timer_barrier_half : ∃ t, Lts.Reaches timerStep (startTimer 2)
      [.call 0, .tick, .call 1, .tick, .tick, .tick, .tick, .ret 1, .call 1] t ∧
    t.ticks = 1 ∧ (t.dev 0).completed = 0 ∧ (t.dev 1).completed = 1 ∧
    ∀ d < 2, (t.dev d).fsh = false →
      (t.dev d).completed ≤ t.ticks ∧ t.ticks ≤ (t.dev d).completed + 1 := by
  obtain ⟨t, ht⟩ := Option.isSome_iff_exists.mp
    (by decide +kernel : (Lts.exec timerStep (startTimer 2)
      [.call 0, .tick, .call 1, .tick, .tick, .tick, .tick, .ret 1, .call 1]).isSome)
  have hticks : t.ticks = 1 := Lts.exec_map (g := Timer.ticks) ht (by decide +kernel)
  have hzero : (t.dev 0).completed = 0 :=
    Lts.exec_map (g := fun t => (t.dev 0).completed) ht (by decide +kernel)
  have hone : (t.dev 1).completed = 1 :=
    Lts.exec_map (g := fun t => (t.dev 1).completed) ht (by decide +kernel)
  have hreach := Lts.reaches_of_exec ht
  exact ⟨t, hreach, hticks, hzero, hone, (timer_barrier 2 _ t hreach).2.1⟩

end SimpleOs
