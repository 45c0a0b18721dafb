/-
# `SimpleOs.Basic` — machine integers, undefined behaviour, the result monad

`addr_t` and `arg_t` are 64-bit words; `int` and `uint32_t` are 32-bit.  Every
conversion the code makes on the way is one of three functions here: the value
after a trip through `int`, the value after a trip through `uint32_t`, and the
sign-extended byte.

A C function that can run into undefined behaviour returns `Except Ub`; an
error is not a status the program sees, it means that the program has left the
semantics.
-/
import Mathlib.Tactic.Common
import Mathlib.Tactic.Ring

namespace SimpleOs

/-- `addr_t` and `arg_t`. -/
abbrev Addr := BitVec 64

/-- `BYTE`, a plain (signed) `char`. -/
abbrev Byte := BitVec 8

/-- A process, named by its `pid`: the loader hands out `avail_pid++`, so a
`struct pcb_t *` and its `pid` name the same process. -/
abbrev Pid := Nat

/-- The undefined behaviour the code can run into. -/
inductive Ub
  | storageBounds  -- `mp->storage[addr]` outside the allocated array
  | symtblBounds   -- `mm->symrgtbl[rgid]` outside its entries
  | prioBounds     -- `mlq_ready_queue[prio]` outside the array of queues
  | pgdBounds      -- `mm->pgd[i]` outside the directory
  | queueBounds    -- `q->proc[i]` outside the array
  | wildPointer    -- following a NULL or an uninitialised pointer
  | intOverflow    -- an `int` sum or product that does not fit
  deriving DecidableEq, Repr

/-- The result of an `int` sum or product whose value is `x`. -/
def intResult (x : Int) : Except Ub Int :=
  if -2147483648 ≤ x ∧ x ≤ 2147483647 then .ok x else .error .intOverflow

/-- `PAGING_PAGESZ`. -/
def pagingPagesz : Nat := 256

/-- `PAGING64_PAGESZ`. -/
def paging64Pagesz : Nat := 4096

/-- `PAGING_MAX_SYMTBL_SZ`. -/
def pagingMaxSymtblSz : Nat := 30

/-! ## Conversions -/

/-- The value of an `addr_t` that was stored in an `int` and read back as an `addr_t`. -/
def viaInt (x : Addr) : Addr := (x.setWidth 32).signExtend 64

/-- The value of an `addr_t` that was passed as a `uint32_t`. -/
def viaU32 (x : Addr) : Addr := (x.setWidth 32).setWidth 64

theorem toNat_viaU32 (x : Addr) : (viaU32 x).toNat = x.toNat % 2 ^ 32 := by
  simp only [viaU32, BitVec.toNat_setWidth]
  omega

theorem viaU32_of_lt {x : Addr} (h : x.toNat < 2 ^ 32) : viaU32 x = x := by
  apply BitVec.eq_of_toNat_eq
  rw [toNat_viaU32, Nat.mod_eq_of_lt h]

/-- Trips through `int` in the low half keep the low 32 bits. -/
theorem toNat_viaInt_of_nonneg {x : Addr} (h : (x.setWidth 32).msb = false) :
    (viaInt x).toNat = x.toNat % 2 ^ 32 := by
  have hx : (x.setWidth 32).toNat = x.toNat % 2 ^ 32 := BitVec.toNat_setWidth ..
  rw [viaInt, BitVec.signExtend_eq_setWidth_of_msb_false h, BitVec.toNat_setWidth, hx]
  omega

theorem msb_setWidth_of_lt {x : Addr} (h : x.toNat < 2 ^ 31) : (x.setWidth 32).msb = false := by
  rw [BitVec.msb_eq_false_iff_two_mul_lt, BitVec.toNat_setWidth]
  omega

theorem viaInt_of_lt {x : Addr} (h : x.toNat < 2 ^ 31) : viaInt x = x := by
  apply BitVec.eq_of_toNat_eq
  rw [toNat_viaInt_of_nonneg (msb_setWidth_of_lt h)]
  omega

/-- The low part of a sign-extended word is the word. -/
theorem setWidth_signExtend {w n : Nat} (x : BitVec w) (h : w ≤ n) :
    (x.signExtend n).setWidth w = x := by
  apply BitVec.eq_of_getLsbD_eq
  intro i hi
  rw [BitVec.getLsbD_setWidth, BitVec.getLsbD_signExtend]
  simp [hi, Nat.lt_of_lt_of_le hi h]

/-- An `int` that is not negative is the word it was converted from. -/
theorem toNat_toInt_of_nonneg {x : BitVec 32} (h : 0 ≤ x.toInt) : x.toInt.toNat = x.toNat := by
  rw [BitVec.toInt_eq_toNat_cond] at h ⊢
  split at h
  next hlt => rw [if_pos hlt, Int.toNat_natCast]
  next hge =>
    have hx := x.isLt
    omega

theorem intResult_of {x : Int} (hlo : -2147483648 ≤ x) (hhi : x ≤ 2147483647) :
    intResult x = .ok x :=
  if_pos ⟨hlo, hhi⟩

/-! ## Inversion for `Except` -/

theorem bind_ok {ε α β : Type} {x : Except ε α} {f : α → Except ε β} {b : β} :
    (x >>= f) = .ok b ↔ ∃ a, x = .ok a ∧ f a = .ok b := by
  cases x with
  | error e => exact ⟨fun h => (nomatch h), fun ⟨_, h, _⟩ => nomatch h⟩
  | ok a => exact ⟨fun h => ⟨a, rfl, h⟩, fun ⟨_, h, hf⟩ => by cases h; exact hf⟩

theorem toOption_map_some {ε α β : Type} {x : Except ε α} {f : α → β} {b : β}
    (h : x.toOption.map f = some b) : ∃ a, x = .ok a ∧ b = f a := by
  cases x with
  | error _ => exact nomatch h
  | ok a => exact ⟨a, rfl, (Option.some.inj h).symm⟩

end SimpleOs
