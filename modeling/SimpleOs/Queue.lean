/-
# `SimpleOs.Queue` — the bounded process queue (`queue.c`)

A queue is an array of `MAX_QUEUE_SIZE` process pointers and a size.  Slots at
and above the size hold whatever an earlier shift or the static initialiser
left there; nothing reads them.  `toList` is the part in use, and the lemmas of
this file are the operations on it.

A process pointer is a pid, or `none` for NULL.  `q == NULL` is not
represented: every caller passes the address of a static queue.
-/
import Mathlib.Data.List.Basic
import Mathlib.Logic.Function.Basic
import SimpleOs.Basic

namespace SimpleOs

/-- `MAX_QUEUE_SIZE`. -/
def maxQueueSize : Nat := 50

/-- `struct queue_t`. -/
structure QueueT where
  proc : Nat → Pid
  size : Nat
  size_le : size ≤ maxQueueSize

namespace QueueT

/-- The slots in use. -/
def toList (q : QueueT) : List Pid := (List.range q.size).map q.proc

/-- A queue whose `size` was set to 0. -/
def init : QueueT := { proc := fun _ => 0, size := 0, size_le := Nat.zero_le _ }

/-- `empty`. -/
def empty (q : QueueT) : Bool := q.size == 0

/-- `enqueue`: a full queue drops the process. -/
def enqueue (q : QueueT) (proc : Option Pid) : QueueT :=
  match proc with
  | none => q
  | some p =>
      if h : q.size ≥ maxQueueSize then q
      else
        { proc := Function.update q.proc q.size p
          size := q.size + 1
          size_le := Nat.lt_of_not_le h }

/-- The inner loop `for (j = i; j < size - 1; j++) proc[j] = proc[j + 1]`. -/
def closeGap (proc : Nat → Pid) (i size : Nat) : Nat → Pid :=
  (List.range' i (size - 1 - i)).foldl (fun proc j => Function.update proc j (proc (j + 1))) proc

/-- `dequeue`. -/
def dequeue (q : QueueT) : QueueT × Option Pid :=
  if q.size = 0 then (q, none)
  else
    ({ proc := closeGap q.proc 0 q.size
       size := q.size - 1
       size_le := Nat.le_trans (Nat.sub_le _ _) q.size_le }, some (q.proc 0))

/-- `purgequeue`: the first slot that holds the process is closed. -/
def purgequeue (q : QueueT) (proc : Pid) : QueueT × Option Pid :=
  match (List.range q.size).find? (fun i => q.proc i == proc) with
  | none => (q, none)
  | some i =>
      ({ proc := closeGap q.proc i q.size
         size := q.size - 1
         size_le := Nat.le_trans (Nat.sub_le _ _) q.size_le }, some proc)

/-! ## The array operations as list operations -/

/-- The loop has not touched the slots it has not reached. -/
theorem foldl_shift_of_le (proc : Nat → Pid) (i n : Nat) {j : Nat} (hj : i + n ≤ j) :
    (List.range' i n).foldl (fun proc j => Function.update proc j (proc (j + 1))) proc j =
      proc j := by
  induction n with
  | zero => rfl
  | succ n ih =>
      rw [List.range'_concat, List.foldl_append, List.foldl_cons, List.foldl_nil,
        Function.update_of_ne (by omega), ih (by omega)]

/-- The loop moves every slot above `i` down by one, once. -/
theorem foldl_shift (proc : Nat → Pid) (i n j : Nat) :
    (List.range' i n).foldl (fun proc j => Function.update proc j (proc (j + 1))) proc j =
      if i ≤ j ∧ j < i + n then proc (j + 1) else proc j := by
  induction n with
  | zero => rw [if_neg (by omega)]; rfl
  | succ n ih =>
      rw [List.range'_concat, List.foldl_append, List.foldl_cons, List.foldl_nil,
        Function.update_apply, Nat.one_mul]
      by_cases hj : j = i + n
      · rw [if_pos hj, if_pos (by omega), foldl_shift_of_le proc i n (by omega), hj]
      · rw [if_neg hj, ih]
        by_cases hin : i ≤ j ∧ j < i + n
        · rw [if_pos hin, if_pos (by omega)]
        · rw [if_neg hin, if_neg (by omega)]

theorem toList_length (q : QueueT) : q.toList.length = q.size := by simp [toList]

theorem toList_init : init.toList = [] := rfl

theorem empty_iff (q : QueueT) : q.empty = true ↔ q.toList = [] := by
  rw [← List.length_eq_zero_iff, toList_length]
  simp [empty]

/-- `enqueue` appends while there is room. -/
theorem toList_enqueue (q : QueueT) (p : Pid) : (q.enqueue (some p)).toList =
    if q.toList.length < maxQueueSize then q.toList ++ [p] else q.toList := by
  rw [toList_length]
  by_cases h : q.size < maxQueueSize
  · have hn : ¬ q.size ≥ maxQueueSize := by omega
    rw [if_pos h, enqueue, dif_neg hn]
    simp only [toList, List.range_succ, List.map_append, List.map_cons, List.map_nil,
      Function.update_self]
    congr 1
    apply List.map_congr_left
    intro i hi
    rw [Function.update_of_ne (by have := List.mem_range.mp hi; omega)]
  · rw [if_neg h, enqueue, dif_pos (by omega)]

/-- `enqueue` writes the slot at the size, or nothing. -/
theorem enqueue_cases (q : QueueT) (p : Pid) :
    q.enqueue (some p) = q ∨ ((q.enqueue (some p)).size = q.size + 1 ∧
      (q.enqueue (some p)).proc = Function.update q.proc q.size p) := by
  rw [enqueue]
  split
  · exact Or.inl rfl
  · exact Or.inr ⟨rfl, rfl⟩

/-- Closing the gap at `i` removes element `i`. -/
theorem map_closeGap (proc : Nat → Pid) {i size : Nat} (hi : i < size) :
    (List.range (size - 1)).map (closeGap proc i size) =
      ((List.range size).map proc).eraseIdx i := by
  apply List.ext_getElem
  · simp [List.length_eraseIdx, hi]
  · intro j h₁ h₂
    have hj : j < size - 1 := by simpa using h₁
    rw [List.getElem_map, List.getElem_range, closeGap, foldl_shift, List.getElem_eraseIdx]
    by_cases hlt : j < i
    · rw [if_neg (by omega), dif_pos hlt]
      simp
    · rw [if_pos (by omega), dif_neg hlt]
      simp

/-- `dequeue` takes the head. -/
theorem toList_dequeue (q : QueueT) :
    q.dequeue.1.toList = q.toList.tail ∧ q.dequeue.2 = q.toList.head? := by
  by_cases h : q.size = 0
  · have hnil : q.toList = [] := by simp [toList, h]
    rw [dequeue, if_pos h, hnil]
    exact ⟨rfl, rfl⟩
  · have hpos : 0 < q.size := Nat.pos_of_ne_zero h
    rw [dequeue, if_neg h]
    constructor
    · show (List.range (q.size - 1)).map (closeGap q.proc 0 q.size) = _
      rw [map_closeGap q.proc hpos, List.eraseIdx_zero, toList]
    · have hrange : List.range q.size = 0 :: (List.range (q.size - 1)).map Nat.succ := by
        rw [← List.range_succ_eq_map, Nat.sub_add_cancel hpos]
      rw [toList, hrange]
      rfl

/-- `purgequeue` removes the first occurrence. -/
theorem toList_purgequeue (q : QueueT) (p : Pid) :
    (q.purgequeue p).1.toList = q.toList.erase p := by
  rw [purgequeue]
  cases hf : (List.range q.size).find? (fun i => q.proc i == p) with
  | none =>
      rw [List.find?_eq_none] at hf
      show q.toList = _
      rw [List.erase_of_not_mem]
      intro hmem
      obtain ⟨i, hi, hp⟩ := List.mem_map.mp hmem
      exact hf i hi (by simpa using hp)
  | some i =>
      rw [List.find?_range_eq_some] at hf
      obtain ⟨hp, hi, hbefore⟩ := hf
      have hi' : i < q.size := List.mem_range.mp hi
      show (List.range (q.size - 1)).map (closeGap q.proc i q.size) = _
      rw [map_closeGap q.proc hi']
      have hlen : i < q.toList.length := by rw [toList_length]; exact hi'
      have hidx : q.toList.idxOf p = i := by
        refine (List.findIdx_eq hlen).mpr ⟨by simpa [toList] using hp, fun j hj => ?_⟩
        have hne := hbefore j hj
        simpa [toList] using hne
      rw [List.erase_eq_eraseIdx_of_idxOf hidx]
      rfl

/-- `purgequeue` returns the process, or NULL if it is not there. -/
theorem purgequeue_reply (q : QueueT) (p : Pid) :
    (q.purgequeue p).2 = if p ∈ q.toList then some p else none := by
  have hmem : p ∈ q.toList ↔ ∃ i < q.size, q.proc i = p := by simp [toList]
  rw [purgequeue]
  cases hf : (List.range q.size).find? (fun i => q.proc i == p) with
  | none =>
      rw [List.find?_eq_none] at hf
      rw [if_neg]
      rw [hmem]
      rintro ⟨i, hi, hp⟩
      exact hf i (List.mem_range.mpr hi) (by simpa using hp)
  | some i =>
      rw [List.find?_range_eq_some] at hf
      rw [if_pos (hmem.mpr ⟨i, List.mem_range.mp hf.2.1, by simpa using hf.1⟩)]

end QueueT

end SimpleOs
