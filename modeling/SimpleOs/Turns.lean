/-
# `SimpleOs.Turns` — `mmvm_lock` is taken and given back in turn

On every path through an instruction, whatever the other CPUs do in between: `exec_turns`.
Only `__alloc`, `__free` and `__write` touch the lock, and everything they call is code
without it.
-/
import SimpleOs.Access

namespace SimpleOs

open Mutex Code

namespace Access

variable {p : Pid}

/-! ## Code that leaves the lock alone -/

theorem withOwn_plain {α : Type} (f : Mm → Except Ub (Mm × α)) : (withOwn p f).Plain :=
  .attempt _ _

theorem memphyGetFreefp_plain (d : Dev) : (memphyGetFreefp d).Plain := by
  refine .bind (.load _ _) fun fp => ?_
  split
  · split
    · exact .pure _
    · exact .crash _
  · exact .bind (.store _ _) fun _ => .pure _

theorem allocPagesRange_plain (n : Nat) : (allocPagesRange n).Plain := by
  induction n with
  | zero => exact .pure _
  | succ n ih =>
      refine .bind (memphyGetFreefp_plain .ram) fun r => ?_
      cases r with
      | none => exact .pure _
      | some fpn => exact .bind ih fun _ => .pure _

theorem vmapLoop_plain (pgn n : Nat) (fs : List Nat) : (vmapLoop p pgn n fs).Plain := by
  induction n generalizing pgn fs with
  | zero => exact .pure _
  | succ n ih =>
      cases fs with
      | nil => exact .pure _
      | cons fpn fs =>
          exact .bind (withOwn_plain _) fun _ => .bind (withOwn_plain _) fun _ => ih (pgn + 1) fs

theorem vmMapRam_plain (mapstart : Addr) (incpgnum : Int) (retRg : VmRg) :
    (vmMapRam p mapstart incpgnum retRg).Plain := by
  refine .bind (allocPagesRange_plain _) fun r => ?_
  simp only []
  split
  · exact .pure _
  · split
    · exact .pure _
    · exact .bind (.bind (.ofExcept _) fun _ => .bind (vmapLoop_plain _ _ _) fun _ => .pure _)
        fun _ => .pure _

theorem incVmaLimit_plain (vmaid : Int) (incSz : Addr) : (incVmaLimit p vmaid incSz).Plain := by
  refine .bind (.load _ _) fun r => ?_
  cases r with
  | none => exact .pure _
  | some mm =>
      simp only []
      split
      · split
        · exact .pure _
        · refine .bind (vmMapRam_plain _ _ _) fun r => ?_
          split
          · exact .pure _
          · exact .bind (withOwn_plain _) fun _ => .pure _
      · exact .pure _

theorem vmapPgdMemset_plain (pgn n : Nat) : (vmapPgdMemset p pgn n).Plain := by
  induction n with
  | zero => exact .pure _
  | succ n ih => exact .bind ih fun _ => withOwn_plain _

theorem syscall_plain (nr : BitVec 32) (regs : ScRegs) (junk : Byte) :
    (syscall p nr regs junk).Plain := by
  rw [syscall]
  split
  · refine .bind (.load _ _) fun c => ?_
    cases c with
    | none => exact .pure _
    | some caller =>
        simp only []
        split
        · exact .bind (vmapPgdMemset_plain _ _) fun _ => .pure _
        · split
          · exact .bind (incVmaLimit_plain _ _) fun _ => .pure _
          · split
            · exact .bind (.attempt _ _) fun _ => .pure _
            · split
              · exact .bind (.attempt _ _) fun _ => .pure _
              · split
                · exact .bind (.attempt _ _) fun _ => .pure _
                · exact .pure _
  · exact .pure _

theorem pgGetpage_plain (pgn : Nat) (junk : Byte) : (pgGetpage pgn p junk).Plain := by
  refine .bind (withOwn_plain _) fun pte => ?_
  simp only []
  split
  · refine .bind (withOwn_plain _) fun r => ?_
    cases r with
    | none => exact .pure _
    | some vicpgn =>
        refine .bind (memphyGetFreefp_plain .swp) fun r => ?_
        cases r with
        | none => exact .pure _
        | some swpfpn =>
            have hinstall : ∀ vicfpn, (do
                pteSetFpn p pgn vicfpn
                enlistPgnNode p pgn
                let pte ← pteGetEntry p pgn
                pure (some (pagingFpn pte)) : Prog (Option Nat)).Plain := fun _ =>
              .bind (withOwn_plain _) fun _ => .bind (withOwn_plain _) fun _ =>
                .bind (withOwn_plain _) fun _ => .pure _
            refine .bind (withOwn_plain _) fun vicpte => ?_
            refine .bind (syscall_plain 17 _ junk) fun _ => ?_
            refine .bind (withOwn_plain _) fun _ => ?_
            split
            · exact .bind (.attempt _ _) fun _ =>
                .bind (.bind (.load _ _) fun _ => .store _ _) fun _ => hinstall _
            · exact hinstall _
  · exact .bind (withOwn_plain _) fun _ => .pure _

/-! ## The three that take it -/

theorem alloc_turns (vmaid rgid : Int) (size : Addr) (junk : Byte) :
    (alloc p vmaid rgid size junk).Turns false := by
  refine .lock (Plain.andThen (.load _ _) fun r => ?_)
  cases r with
  | none => exact .unlock (.pure _)
  | some mm =>
      simp only []
      split
      · exact .unlock (.pure _)
      · refine (withOwn_plain _).andThen fun r => ?_
        cases r with
        | some rgnode => exact (withOwn_plain _).andThen fun _ => .unlock (.pure _)
        | none =>
            refine Plain.andThen (.ofExcept _) fun _ => ?_
            refine (syscall_plain 17 _ junk).andThen fun r => ?_
            refine (withOwn_plain _).andThen fun _ => ?_
            split
            · exact (withOwn_plain _).andThen fun _ => .unlock (.pure _)
            · exact .unlock (.pure _)

theorem free_turns (vmaid rgid : Int) : (free p vmaid rgid).Turns false := by
  refine .lock ?_
  split
  · exact .unlock (.pure _)
  · refine Plain.andThen (.load _ _) fun r => ?_
    cases r with
    | none => exact .unlock (.pure _)
    | some mm =>
        refine (withOwn_plain _).andThen fun rgnode => ?_
        simp only []
        split
        · exact .unlock (.pure _)
        · exact (withOwn_plain _).andThen fun _ =>
            (withOwn_plain _).andThen fun _ => .unlock (.pure _)

theorem write_turns (vmaid rgid : Int) (offset : Addr) (value junk : Byte) :
    (write p vmaid rgid offset value junk).Turns false := by
  refine .lock (Plain.andThen (.load _ _) fun r => ?_)
  cases r with
  | none => exact .unlock (.pure _)
  | some mm =>
      simp only []
      split
      · refine (withOwn_plain _).andThen fun currg => ?_
        refine Plain.andThen (.bind (pgGetpage_plain _ junk) fun r => ?_) fun _ =>
          .unlock (.pure _)
        cases r with
        | none => exact .pure _
        | some fpn => exact .bind (syscall_plain 17 _ junk) fun _ => .pure _
      · exact .unlock (.pure _)

theorem read_plain (vmaid rgid : Int) (offset : Addr) (data junk : Byte) :
    (read p vmaid rgid offset data junk).Plain := by
  refine .bind (.load _ _) fun r => ?_
  cases r with
  | none => exact .pure _
  | some mm =>
      simp only []
      split
      · exact .pure _
      · refine .bind (.attempt _ _) fun ptr => .bind (.attempt _ _) fun currg => ?_
        refine .bind (.bind (pgGetpage_plain _ junk) fun r => ?_) fun _ => .pure _
        cases r with
        | none => exact .pure _
        | some fpn => exact .bind (syscall_plain 17 _ junk) fun _ => .pure _

/-- Every instruction takes the lock at most when it does not have it and returns without it. -/
theorem exec_turns (ins : Inst) (junk : Byte) : (exec p ins junk).Turns false := by
  cases hop : ins.opcode
  case alloc =>
      simp only [exec, hop]
      refine (alloc_turns _ _ _ _).bind fun r => ?_
      simp only []
      split <;> exact .pure _
  case free =>
      simp only [exec, hop]
      refine (free_turns _ _).bind fun r => ?_
      split <;> exact .pure _
  case read =>
      simp only [exec, hop]
      exact Plain.turns (.bind (.bind (read_plain _ _ _ _ _) fun _ => .pure _) fun _ => .pure _)
  case write =>
      simp only [exec, hop]
      refine (write_turns _ _ _ _ _).bind fun r => ?_
      split <;> exact .pure _
  case syscall =>
      simp only [exec, hop]
      exact Plain.turns (.bind (syscall_plain _ _ junk) fun _ => .pure _)
  all_goals
    simp only [exec, hop]
    exact .pure _

end Access

end SimpleOs
