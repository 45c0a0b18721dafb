/-
# `SimpleOs.QueueArray` — the process queue, slot by slot (`queue.c`)

The functions of `Queue` once more, with every access to `q->proc[i]` checked
against the `MAX_QUEUE_SIZE` slots of the array and every slot a pointer that may
be NULL.  What the slots hold at the start is anything.

`queue_refines_list`: whatever the calls, no access is outside the array, and the
calls are answered as a bounded list answers them.  `QueueT` answers them in the
same way (`queueT_replies`), so what the rest of the development proves about it
holds of the array.
-/
import SimpleOs.Lib.Run
import SimpleOs.Queue

namespace SimpleOs

/-! ## The array -/

/-- `struct queue_t`: the slots and the size. -/
structure QueueArray where
  proc : Nat → Option Pid
  size : Int

namespace QueueArray

/-- Reading `q->proc[i]`. -/
def load (q : QueueArray) (i : Int) : Except Ub (Option Pid) :=
  if 0 ≤ i ∧ i < maxQueueSize then .ok (q.proc i.toNat) else .error .queueBounds

/-- `q->proc[i] = proc`. -/
def store (q : QueueArray) (i : Int) (proc : Option Pid) : Except Ub QueueArray :=
  if 0 ≤ i ∧ i < maxQueueSize then .ok { q with proc := Function.update q.proc i.toNat proc }
  else .error .queueBounds

/-- `enqueue`. -/
def enqueue (q : QueueArray) (proc : Option Pid) : Except Ub QueueArray :=
  if proc = none ∨ q.size ≥ maxQueueSize then .ok q
  else do
    let q ← q.store q.size proc
    pure { q with size := q.size + 1 }

/-- The loop `for (; j < q->size - 1; j++) q->proc[j] = q->proc[j + 1]`, with the number of rounds
it has left. -/
def shift (q : QueueArray) (j : Int) : Nat → Except Ub QueueArray
  | 0 => .ok q
  | n + 1 => do
      let proc ← q.load (j + 1)
      let q ← q.store j proc
      q.shift (j + 1) n

/-- `dequeue`. -/
def dequeue (q : QueueArray) : Except Ub (QueueArray × Option Pid) :=
  if q.size = 0 then .ok (q, none)
  else do
    let proc ← q.load 0
    let q ← q.shift 0 (q.size - 1).toNat
    pure ({ q with size := q.size - 1 }, proc)

/-- The outer loop of `purgequeue`, with the number of slots it has left. -/
def purge (q : QueueArray) (proc : Option Pid) (i : Int) :
    Nat → Except Ub (QueueArray × Option Pid)
  | 0 => .ok (q, none)
  | n + 1 => do
      let slot ← q.load i
      if slot = proc then do
        let q ← q.shift i (q.size - 1 - i).toNat
        pure ({ q with size := q.size - 1 }, proc)
      else q.purge proc (i + 1) n

/-- `purgequeue`. -/
def purgequeue (q : QueueArray) (proc : Option Pid) : Except Ub (QueueArray × Option Pid) :=
  if proc = none then .ok (q, none) else q.purge proc 0 q.size.toNat

end QueueArray

/-! ## The bounded list -/

/-- A call; a process pointer may be NULL. -/
inductive QueueCall
  | enqueue (proc : Option Pid)
  | dequeue
  | purgequeue (proc : Option Pid)
  deriving DecidableEq, Repr

/-- The array after a call, and the pointer that is returned. -/
def queueCall (q : QueueArray) : QueueCall → Except Ub (QueueArray × Option Pid)
  | .enqueue proc => do
      let q ← q.enqueue proc
      pure (q, none)
  | .dequeue => q.dequeue
  | .purgequeue proc => q.purgequeue proc

/-- A list of at most `MAX_QUEUE_SIZE` processes: `enqueue` appends if there is room, `dequeue`
takes the head, `purgequeue` the first occurrence. -/
def listCall (l : List Pid) : QueueCall → List Pid × Option Pid
  | .enqueue none => (l, none)
  | .enqueue (some p) => (if l.length < maxQueueSize then l ++ [p] else l, none)
  | .dequeue => (l.tail, l.head?)
  | .purgequeue none => (l, none)
  | .purgequeue (some p) => (l.erase p, if p ∈ l then some p else none)

/-- The first `size` slots are the list, which fits. -/
structure QueueArray.Shows (q : QueueArray) (l : List Pid) : Prop where
  size : q.size = l.length
  fits : l.length ≤ maxQueueSize
  slot : ∀ i (h : i < l.length), q.proc i = some l[i]

namespace QueueArray

section Slots
variable {q : QueueArray} {l : List Pid} {p : Pid}

theorem load_ok {i : Nat} (h : i < maxQueueSize) : q.load i = .ok (q.proc i) :=
  if_pos ⟨Int.natCast_nonneg i, Int.ofNat_lt.mpr h⟩

theorem store_ok {i : Nat} (h : i < maxQueueSize) (proc : Option Pid) :
    q.store i proc = .ok { q with proc := Function.update q.proc i proc } :=
  if_pos ⟨Int.natCast_nonneg i, Int.ofNat_lt.mpr h⟩

/-- The loop moves `n` slots down by one, and the rest stays. -/
theorem shift_ok : ∀ (n : Nat) {q : QueueArray} {j : Nat}, j + n < maxQueueSize → ∃ proc',
    q.shift j n = .ok { q with proc := proc' } ∧
    ∀ i, proc' i = if j ≤ i ∧ i < j + n then q.proc (i + 1) else q.proc i := by
  intro n
  induction n with
  | zero =>
      intro q j _
      refine ⟨q.proc, rfl, fun i => ?_⟩
      rw [if_neg (by omega)]
  | succ n ih =>
      intro q j hj
      have hload : q.load ((j : Int) + 1) = .ok (q.proc (j + 1)) :=
        load_ok (by omega : j + 1 < maxQueueSize)
      obtain ⟨proc', hshift, hproc'⟩ :=
        @ih { q with proc := Function.update q.proc j (q.proc (j + 1)) } (j + 1) (by omega)
      refine ⟨proc', ?_, fun i => ?_⟩
      · rw [shift, hload]
        simp only [bind, Except.bind, store_ok (by omega : j < maxQueueSize)]
        exact hshift
      · simp only [Function.update_apply] at hproc'
        rw [hproc' i]
        by_cases hi : i = j
        · subst hi
          rw [if_neg (by omega), if_pos rfl, if_pos (by omega)]
        · by_cases hin : j + 1 ≤ i ∧ i < j + 1 + n
          · rw [if_pos hin, if_neg (by omega), if_pos (by omega)]
          · rw [if_neg hin, if_neg hi, if_neg (by omega)]

/-- Closing the gap at slot `i` removes element `i`. -/
theorem Shows.shift (h : q.Shows l) {i : Nat} (hi : i < l.length) : ∃ q',
    q.shift i (q.size - 1 - i).toNat = .ok q' ∧
    ({ q' with size := q'.size - 1 } : QueueArray).Shows (l.eraseIdx i) := by
  have hsize := h.size
  have hfits := h.fits
  have hn : (q.size - 1 - i).toNat = l.length - 1 - i := by omega
  obtain ⟨proc', hshift, hproc'⟩ := shift_ok (l.length - 1 - i) (q := q) (j := i) (by omega)
  rw [hn]
  refine ⟨_, hshift, ?_, ?_, ?_⟩
  · show q.size - 1 = _
    rw [List.length_eraseIdx_of_lt hi]
    omega
  · rw [List.length_eraseIdx_of_lt hi]
    omega
  · intro j hj
    rw [List.length_eraseIdx_of_lt hi] at hj
    show proc' j = _
    rw [hproc' j, List.getElem_eraseIdx]
    by_cases hlt : j < i
    · rw [if_neg (by omega), dif_pos hlt]
      exact h.slot j (by omega)
    · rw [if_pos (by omega), dif_neg hlt]
      exact h.slot (j + 1) (by omega)

end Slots

/-! ## The calls as list operations -/

section Calls
variable {q : QueueArray} {l : List Pid}

/-- `enqueue` appends while there is room. -/
theorem Shows.enqueue (h : q.Shows l) (p : Pid) : ∃ q', q.enqueue (some p) = .ok q' ∧
    q'.Shows (if l.length < maxQueueSize then l ++ [p] else l) := by
  have hsize := h.size
  by_cases hroom : l.length < maxQueueSize
  · refine ⟨{ proc := Function.update q.proc l.length (some p), size := q.size + 1 }, ?_, ?_⟩
    · rw [QueueArray.enqueue, if_neg (by simp only [reduceCtorEq, false_or]; omega), hsize,
        store_ok hroom]
      simp only [bind, Except.bind, pure, Except.pure, hsize]
    · rw [if_pos hroom]
      refine ⟨?_, ?_, fun i hi => ?_⟩
      · show q.size + 1 = _
        rw [List.length_append, List.length_singleton]
        omega
      · rw [List.length_append, List.length_singleton]
        exact hroom
      · rw [List.length_append, List.length_singleton] at hi
        show Function.update q.proc l.length (some p) i = _
        by_cases hlt : i < l.length
        · rw [Function.update_of_ne (by omega), List.getElem_append_left hlt]
          exact h.slot i hlt
        · obtain rfl : i = l.length := by omega
          rw [Function.update_self, List.getElem_concat_length rfl]
  · refine ⟨q, ?_, ?_⟩
    · exact if_pos (.inr (by omega))
    · rw [if_neg hroom]
      exact h

/-- `dequeue` takes the head. -/
theorem Shows.dequeue (h : q.Shows l) :
    ∃ q', q.dequeue = .ok (q', l.head?) ∧ q'.Shows l.tail := by
  have hsize := h.size
  cases l with
  | nil => exact ⟨q, if_pos hsize, h⟩
  | cons p l =>
      have hpos : 0 < (p :: l).length := Nat.zero_lt_succ _
      obtain ⟨q', hshift, hq'⟩ := h.shift hpos
      have hslot : q.proc 0 = some p := h.slot 0 hpos
      have hload : q.load 0 = .ok (some p) := by
        rw [← hslot]
        exact load_ok (by decide : 0 < maxQueueSize)
      rw [Nat.cast_zero, Int.sub_zero] at hshift
      refine ⟨_, ?_, hq'⟩
      rw [QueueArray.dequeue, if_neg (by rw [hsize, List.length_cons]; omega)]
      simp only [hload, hshift, bind, Except.bind, pure, Except.pure, List.head?_cons]

/-- The outer loop from slot `i` on, no slot before it holding the process: the first occurrence is
removed. -/
theorem Shows.purge (h : q.Shows l) (p : Pid) : ∀ (n i : Nat), i + n = l.length →
    (∀ j (hj : j < l.length), j < i → l[j] ≠ p) → ∃ q',
    q.purge (some p) i n = .ok (q', if p ∈ l then some p else none) ∧ q'.Shows (l.erase p) := by
  intro n
  induction n with
  | zero =>
      intro i hi hbefore
      have hmem : p ∉ l := by
        intro hmem
        obtain ⟨j, hj, hp⟩ := List.getElem_of_mem hmem
        exact hbefore j hj (by omega) hp
      rw [if_neg hmem, List.erase_of_not_mem hmem]
      exact ⟨q, rfl, h⟩
  | succ n ih =>
      intro i hi hbefore
      have hlt : i < l.length := by omega
      have hload : q.load i = .ok (some l[i]) := by
        have hfits := h.fits
        rw [load_ok (by omega), h.slot i hlt]
      by_cases hp : l[i] = p
      · have hidx : l.idxOf p = i :=
          (List.findIdx_eq hlt).mpr ⟨by simpa using hp, fun j hj => by
            simpa using hbefore j (by omega) hj⟩
        obtain ⟨q', hshift, hq'⟩ := h.shift hlt
        rw [if_pos (hp ▸ List.getElem_mem hlt), List.erase_eq_eraseIdx_of_idxOf hidx]
        refine ⟨_, ?_, hq'⟩
        simp only [QueueArray.purge, hload, hshift, hp, bind, Except.bind, pure, Except.pure,
          if_true]
      · have hne : some l[i] ≠ some p := fun hs => hp (Option.some.inj hs)
        obtain ⟨q', hpurge, hq'⟩ := ih (i + 1) (by omega) (by
          intro j hj hji
          by_cases heq : j = i
          · subst heq
            exact hp
          · exact hbefore j hj (by omega))
        refine ⟨q', ?_, hq'⟩
        simp only [QueueArray.purge, hload, bind, Except.bind, if_neg hne]
        exact hpurge

/-- `purgequeue` removes the first occurrence. -/
theorem Shows.purgequeue (h : q.Shows l) (p : Pid) : ∃ q',
    q.purgequeue (some p) = .ok (q', if p ∈ l then some p else none) ∧ q'.Shows (l.erase p) := by
  rw [QueueArray.purgequeue, if_neg (Option.some_ne_none p), h.size, Int.toNat_natCast]
  exact h.purge p l.length 0 (Nat.zero_add _) fun j _ hj => absurd hj (Nat.not_lt_zero j)

/-- One call, on the array and on the list. -/
theorem Shows.call (h : q.Shows l) (c : QueueCall) :
    ∃ q', queueCall q c = .ok (q', (listCall l c).2) ∧ q'.Shows (listCall l c).1 := by
  cases c with
  | enqueue proc =>
      cases proc with
      | none => exact ⟨q, rfl, h⟩
      | some p =>
          obtain ⟨q', heq, hq'⟩ := h.enqueue p
          refine ⟨q', ?_, hq'⟩
          simp only [queueCall, heq, bind, Except.bind, pure, Except.pure, listCall]
  | dequeue => exact h.dequeue
  | purgequeue proc =>
      cases proc with
      | none => exact ⟨q, rfl, h⟩
      | some p => exact h.purgequeue p

end Calls

end QueueArray

/-- Whatever the slots hold at the start and whatever the calls, no access leaves the array, the
replies are the list's, and the slots in use are the list, of at most `MAX_QUEUE_SIZE` elements. -/
theorem queue_refines_list (proc : Nat → Option Pid) (cs : List QueueCall) :
    ∃ q, Lts.repliesM queueCall ⟨proc, 0⟩ cs = .ok (q, (Lts.replies listCall [] cs).2) ∧
      q.Shows (Lts.replies listCall [] cs).1 := by
  have hinit : QueueArray.Shows ⟨proc, 0⟩ [] :=
    ⟨rfl, Nat.zero_le _, fun i hi => absurd hi (Nat.not_lt_zero i)⟩
  exact Lts.repliesM_sim (p := fun _ => True) (fun _ _ c h _ => h.call c) hinit
    fun _ _ => trivial

/-! ## The queue of the other modules -/

/-- `QueueT` after a call, and the pointer that is returned. -/
def queueTCall (q : QueueT) : QueueCall → QueueT × Option Pid
  | .enqueue proc => (q.enqueue proc, none)
  | .dequeue => q.dequeue
  | .purgequeue none => (q, none)
  | .purgequeue (some p) => q.purgequeue p

/-- `QueueT` answers as the list does, hence as the array does. -/
theorem queueT_replies (cs : List QueueCall) :
    (Lts.replies queueTCall QueueT.init cs).2 = (Lts.replies listCall [] cs).2 ∧
      (Lts.replies queueTCall QueueT.init cs).1.toList = (Lts.replies listCall [] cs).1 := by
  refine Lts.replies_sim (R := fun (q : QueueT) l => q.toList = l) (p := fun _ => True) ?_ rfl
    fun _ _ => trivial
  rintro q _ c rfl -
  cases c with
  | enqueue proc =>
      cases proc with
      | none => exact ⟨rfl, rfl⟩
      | some p => exact ⟨rfl, q.toList_enqueue p⟩
  | dequeue => exact ⟨q.toList_dequeue.2, q.toList_dequeue.1⟩
  | purgequeue proc =>
      cases proc with
      | none => exact ⟨rfl, rfl⟩
      | some p => exact ⟨q.purgequeue_reply p, q.toList_purgequeue p⟩

end SimpleOs
