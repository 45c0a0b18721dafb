/-
# `SimpleOs.Sections` — what an instruction reads and writes under `mmvm_lock`

The memory of its own process and the two devices; of the scheduler only whether its process
is on `running_list` (`procFrame`).  ALLOC, FREE and WRITE keep to that, and so does the system
call: `exec_framed`.  They take the lock first and give it back last: `exec_once`.  READ is the
exception in both: it takes no lock, and it reads the symbol table that `krnl->mm` points to,
whoever's that is.  Where that table is the same, READ does the same too: `exec_over`.
-/
import SimpleOs.Solo
import SimpleOs.Turns
import SimpleOs.Lib.Atomic

namespace SimpleOs

open Mutex Code

/-- What the code of process `p` writes, and what else it reads. -/
def procFrame : Frame Krnl Pid (Option Pid) where
  onto p k k' := { k' with
    mram := k.mram
    activeMswp := k.activeMswp
    ownMm := Function.update k'.ownMm p (k.ownMm p) }
  seen p k := findCaller k p
  onto_self := fun p k => by rw [Function.update_eq_self]
  onto_left := fun p k k' k'' => by simp only [Function.update_self]
  onto_right := fun p k k' k'' => by simp only [Function.update_idem]
  seen_onto := fun _ _ _ => rfl

/-- The symbol table that `krnl->mm` leads to. -/
def Krnl.table (k : Krnl) : Option (Nat → VmRg) := (k.mm.bind k.ownMm).map Mm.symrgtbl

namespace Access

variable {p : Pid}

section Over
variable (k k' : Krnl)

theorem onto_ownMm : (procFrame.onto p k k').ownMm p = k.ownMm p := Function.update_self _ _ _

theorem onto_ownMm_of_ne {q : Pid} (h : q ≠ p) :
    (procFrame.onto p k k').ownMm q = k'.ownMm q := Function.update_of_ne h _ _

theorem onto_dev (d : Dev) : (procFrame.onto p k k').dev d = k.dev d := by cases d <;> rfl

theorem onto_setDev (d : Dev) (mp : Memphy) :
    (procFrame.onto p k k').setDev d mp = procFrame.onto p (k.setDev d mp) k' := by
  cases d <;> rfl

theorem onto_setMm (mm : Mm) :
    (procFrame.onto p k k').setMm p mm = procFrame.onto p (k.setMm p mm) k' := by
  simp only [Krnl.setMm, procFrame, Function.update_idem, Function.update_self]

end Over

/-! ## Code that keeps to the frame -/

theorem withOwn_framed {α : Type} (f : Mm → Except Ub (Mm × α)) :
    (withOwn p f).Framed procFrame p := by
  refine .attempt fun k k' => ?_
  rw [onto_ownMm]
  cases k.ownMm p with
  | none => rfl
  | some mm =>
      show (f mm).bind _ = Except.map _ ((f mm).bind _)
      cases f mm with
      | error e => rfl
      | ok r =>
          show Except.ok ((procFrame.onto p k k').setMm p r.1, r.2) = _
          rw [onto_setMm]
          rfl

theorem loadOwn_framed : (loadOwn p).Framed procFrame p :=
  .load fun k k' _ => onto_ownMm k k'

theorem memphyGetFreefp_framed (d : Dev) : (memphyGetFreefp d).Framed procFrame p := by
  refine .bind (.load fun k k' _ => by rw [onto_dev]) fun fp => ?_
  split
  · split
    · exact .pure _
    · exact .crash _
  · refine .bind (.store fun k k' => ?_) fun _ => .pure _
    rw [onto_dev, onto_setDev]

theorem memphyPutFreefp_framed (d : Dev) (fpn : Nat) :
    (memphyPutFreefp d fpn).Framed procFrame p := by
  refine .bind (.load fun k k' _ => by rw [onto_dev]) fun fp => .store fun k k' => ?_
  rw [onto_dev, onto_setDev]

theorem allocPagesRange_framed (n : Nat) : (allocPagesRange n).Framed procFrame p := by
  induction n with
  | zero => exact .pure _
  | succ n ih =>
      refine .bind (memphyGetFreefp_framed .ram) fun r => ?_
      cases r with
      | none => exact .pure _
      | some fpn => exact .bind ih fun _ => .pure _

theorem vmapLoop_framed (pgn n : Nat) (fs : List Nat) :
    (vmapLoop p pgn n fs).Framed procFrame p := by
  induction n generalizing pgn fs with
  | zero => exact .pure _
  | succ n ih =>
      cases fs with
      | nil => exact .pure _
      | cons fpn fs =>
          exact .bind (withOwn_framed _) fun _ => .bind (withOwn_framed _) fun _ => ih (pgn + 1) fs

theorem vmMapRam_framed (mapstart : Addr) (incpgnum : Int) (retRg : VmRg) :
    (vmMapRam p mapstart incpgnum retRg).Framed procFrame p := by
  refine .bind (allocPagesRange_framed _) fun r => ?_
  simp only []
  split
  · exact .pure _
  · split
    · exact .pure _
    · exact .bind (.bind (.ofExcept _) fun _ => .bind (vmapLoop_framed _ _ _) fun _ => .pure _)
        fun _ => .pure _

theorem incVmaLimit_framed (vmaid : Int) (incSz : Addr) :
    (incVmaLimit p vmaid incSz).Framed procFrame p := by
  refine .bind loadOwn_framed fun r => ?_
  cases r with
  | none => exact .pure _
  | some mm =>
      simp only []
      split
      · split
        · exact .pure _
        · refine .bind (vmMapRam_framed _ _ _) fun r => ?_
          split
          · exact .pure _
          · exact .bind (withOwn_framed _) fun _ => .pure _
      · exact .pure _

theorem vmapPgdMemset_framed (pgn n : Nat) : (vmapPgdMemset p pgn n).Framed procFrame p := by
  induction n with
  | zero => exact .pure _
  | succ n ih => exact .bind ih fun _ => withOwn_framed _

/-- An access to the two devices alone. -/
theorem devices_framed {α : Type} {site : Site} {g : Krnl → Except Ub (Krnl × α)}
    (h : Memphy → Memphy → Except Ub (Memphy × Memphy × α))
    (hg : ∀ k, g k = (h k.mram k.activeMswp).map
      (fun r => ({ k with mram := r.1, activeMswp := r.2.1 }, r.2.2))) :
    (attempt site g).Framed procFrame p := by
  refine .attempt fun k k' => ?_
  rw [hg, hg]
  show (h k.mram k.activeMswp).map _ = _
  cases h k.mram k.activeMswp with
  | error e => rfl
  | ok r => rfl

theorem mmSwapPage_framed {site : Site} (vicfpn swpfpn : Nat) (junk : Byte) :
    (attempt site (fun k => mmSwapPage k vicfpn swpfpn junk)).Framed procFrame p := by
  refine devices_framed
    (fun mram swp => (swapCpPage mram vicfpn swp swpfpn junk).map (fun r => (r.1, r.2, 0)))
    fun k => ?_
  rw [mmSwapPage]
  cases swapCpPage k.mram vicfpn k.activeMswp swpfpn junk with
  | error e => rfl
  | ok r => rfl

theorem syscall_framed (nr : BitVec 32) (regs : ScRegs) (junk : Byte) :
    (syscall p nr regs junk).Framed procFrame p := by
  rw [syscall]
  split
  · refine .load_bind (fun k k' hseen => hseen.symm) fun k => ?_
    cases hc : findCaller k p with
    | none => exact .pure _
    | some caller =>
        obtain rfl := findCaller_some hc
        simp only []
        split
        · exact .bind (vmapPgdMemset_framed _ _) fun _ => .pure _
        · split
          · exact .bind (incVmaLimit_framed _ _) fun _ => .pure _
          · split
            · exact .bind (mmSwapPage_framed _ _ _) fun _ => .pure _
            · split
              · refine .bind (devices_framed (fun mram swp =>
                  (memphyRead mram (viaU32 regs.a2).toNat junk).map
                    (fun r => (r.1, swp, r.2.2))) fun k => ?_) fun _ => .pure _
                cases memphyRead k.mram (viaU32 regs.a2).toNat junk with
                | error e => rfl
                | ok r => rfl
              · split
                · refine .bind (devices_framed (fun mram swp =>
                    (memphyWrite mram (viaU32 regs.a2).toNat (regs.a3.setWidth 8)).map
                      (fun r => (r.1, swp, ()))) fun k => ?_) fun _ => .pure _
                  cases memphyWrite k.mram (viaU32 regs.a2).toNat (regs.a3.setWidth 8) with
                  | error e => rfl
                  | ok r => rfl
                · exact .pure _
  · exact .pure _

theorem pgGetpage_framed (pgn : Nat) (junk : Byte) :
    (pgGetpage pgn p junk).Framed procFrame p := by
  refine .bind (withOwn_framed _) fun pte => ?_
  simp only []
  split
  · refine .bind (withOwn_framed _) fun r => ?_
    cases r with
    | none => exact .pure _
    | some vicpgn =>
        refine .bind (memphyGetFreefp_framed .swp) fun r => ?_
        cases r with
        | none => exact .pure _
        | some swpfpn =>
            have hinstall : ∀ vicfpn, (do
                pteSetFpn p pgn vicfpn
                enlistPgnNode p pgn
                let pte ← pteGetEntry p pgn
                pure (some (pagingFpn pte)) : Prog (Option Nat)).Framed procFrame p := fun _ =>
              .bind (withOwn_framed _) fun _ => .bind (withOwn_framed _) fun _ =>
                .bind (withOwn_framed _) fun _ => .pure _
            refine .bind (withOwn_framed _) fun vicpte => ?_
            refine .bind (syscall_framed 17 _ junk) fun _ => ?_
            refine .bind (withOwn_framed _) fun _ => ?_
            split
            · refine .bind (devices_framed (fun mram swp =>
                (swapCpPage swp (pagingSwp pte) mram (pagingFpn vicpte) junk).map
                  (fun r => (r.2, r.1, ()))) fun k => ?_) fun _ =>
                .bind (memphyPutFreefp_framed _ _) fun _ => hinstall _
              cases swapCpPage k.activeMswp (pagingSwp pte) k.mram (pagingFpn vicpte) junk with
              | error e => rfl
              | ok r => rfl
            · exact hinstall _
  · exact .bind (withOwn_framed _) fun _ => .pure _

theorem alloc_framed (vmaid rgid : Int) (size : Addr) (junk : Byte) :
    (alloc p vmaid rgid size junk).Framed procFrame p := by
  refine .lock (.bind loadOwn_framed fun r => ?_)
  cases r with
  | none => exact .unlock (.pure _)
  | some mm =>
      simp only []
      split
      · exact .unlock (.pure _)
      · refine .bind (withOwn_framed _) fun r => ?_
        cases r with
        | some rgnode => exact .bind (withOwn_framed _) fun _ => .unlock (.pure _)
        | none =>
            refine .bind (.ofExcept _) fun _ => .bind (syscall_framed 17 _ junk) fun r => ?_
            refine .bind (withOwn_framed _) fun _ => ?_
            split
            · exact .bind (withOwn_framed _) fun _ => .unlock (.pure _)
            · exact .unlock (.pure _)

theorem free_framed (vmaid rgid : Int) : (free p vmaid rgid).Framed procFrame p := by
  refine .lock ?_
  split
  · exact .unlock (.pure _)
  · refine .bind loadOwn_framed fun r => ?_
    cases r with
    | none => exact .unlock (.pure _)
    | some mm =>
        refine .bind (withOwn_framed _) fun rgnode => ?_
        simp only []
        split
        · exact .unlock (.pure _)
        · exact .bind (withOwn_framed _) fun _ =>
            .bind (withOwn_framed _) fun _ => .unlock (.pure _)

theorem write_framed (vmaid rgid : Int) (offset : Addr) (value junk : Byte) :
    (write p vmaid rgid offset value junk).Framed procFrame p := by
  refine .lock (.bind loadOwn_framed fun r => ?_)
  cases r with
  | none => exact .unlock (.pure _)
  | some mm =>
      simp only []
      split
      · refine .bind (withOwn_framed _) fun currg => ?_
        refine .bind (.bind (pgGetpage_framed _ junk) fun r => ?_) fun _ => .unlock (.pure _)
        cases r with
        | none => exact .pure _
        | some fpn => exact .bind (syscall_framed 17 _ junk) fun _ => .pure _
      · exact .unlock (.pure _)

/-- Every instruction but READ keeps to the frame. -/
theorem exec_framed (ins : Inst) (junk : Byte) (hread : ins.opcode ≠ .read) :
    (exec p ins junk).Framed procFrame p := by
  cases hop : ins.opcode
  case read => exact absurd hop hread
  case alloc =>
      simp only [exec, hop]
      refine .bind (alloc_framed _ _ _ _) fun r => ?_
      simp only []
      split <;> exact .pure _
  case free =>
      simp only [exec, hop]
      refine .bind (free_framed _ _) fun r => ?_
      split <;> exact .pure _
  case write =>
      simp only [exec, hop]
      refine .bind (write_framed _ _ _ _ _) fun r => ?_
      split <;> exact .pure _
  case syscall =>
      simp only [exec, hop]
      exact .bind (syscall_framed _ _ junk) fun _ => .pure _
  all_goals
    simp only [exec, hop]
    exact .pure _

theorem pgGetval_framed (addr : BitVec 32) (data junk : Byte) :
    (pgGetval addr data p junk).Framed procFrame p := by
  refine .bind (pgGetpage_framed _ junk) fun r => ?_
  cases r with
  | none => exact .pure _
  | some fpn => exact .bind (syscall_framed 17 _ junk) fun _ => .pure _

/-- The region entry that `__read` loads is that of the table `krnl->mm` leads to. -/
theorem readEntry_table {k k' : Krnl} (h : k'.table = k.table) (rgid : Int) :
    (readEntry k' rgid >>= loadEntry k') = (readEntry k rgid >>= loadEntry k) := by
  have hentry : ∀ k : Krnl, (readEntry k rgid >>= loadEntry k) =
      match k.table with
      | none => .error .wildPointer
      | some symrgtbl =>
          if 0 ≤ rgid ∧ rgid < pagingMaxSymtblSz then .ok (symrgtbl rgid.toNat)
          else .error .symtblBounds := by
    intro k
    rw [readEntry, Krnl.table]
    cases k.mm with
    | none => rfl
    | some q =>
        show loadEntry k (q, rgid) = match (k.ownMm q).map Mm.symrgtbl with
          | none => _
          | some symrgtbl => _
        rw [loadEntry]
        cases k.ownMm q with
        | none => rfl
        | some mm => rfl
  rw [hentry, hentry, h]

theorem read_eq {k : Krnl} {mm : Mm} {rgid r : Int} {offset : Addr} {data junk : Byte}
    (hmm : k.ownMm p = some mm) (hr : getSymrgById rgid = some r) :
    SimpleOs.read k p 0 rgid offset data junk =
      (readEntry k r >>= loadEntry k) >>= fun currg =>
        SimpleOs.pgGetval k mm ((currg.rgStart + offset).setWidth 32) data p junk >>=
          fun res => pure (res.1, 0, res.2.2) := by
  simp only [SimpleOs.read, hmm, hr, bind_assoc]

/-- READ does the same whatever else `krnl->mm` points into, as long as the table is the same. -/
theorem read_over {k k' : Krnl} {rgid : Int} {offset : Addr} {data junk : Byte}
    (hseen : findCaller k p = findCaller k' p)
    (htable : (procFrame.onto p k k').table = k.table) :
    SimpleOs.read (procFrame.onto p k k') p 0 rgid offset data junk =
      (SimpleOs.read k p 0 rgid offset data junk).map
        (fun r => (procFrame.onto p r.1 k', r.2)) := by
  cases hmm : k.ownMm p with
  | none => simp only [SimpleOs.read, onto_ownMm, hmm]; rfl
  | some mm =>
      have hmm' := (onto_ownMm k k').trans hmm
      cases hr : getSymrgById rgid with
      | none => simp only [SimpleOs.read, hmm, hmm', hr]; rfl
      | some r =>
          rw [read_eq hmm' hr, read_eq hmm hr, readEntry_table htable]
          cases readEntry k r >>= loadEntry k with
          | error e => rfl
          | ok currg =>
              have hover := (pgGetval_framed (p := p) ((currg.rgStart + offset).setWidth 32) data
                junk).solo_over hseen
              rw [pgGetval_solo _ _ _ hmm', pgGetval_solo _ _ _ hmm] at hover
              show (SimpleOs.pgGetval (procFrame.onto p k k') mm _ data p junk >>= _) = _
              rw [hover]
              show _ = Except.map _ (SimpleOs.pgGetval k mm _ data p junk >>= _)
              cases SimpleOs.pgGetval k mm ((currg.rgStart + offset).setWidth 32) data p junk with
              | error e => rfl
              | ok res => rfl

/-- An instruction does the same whatever the rest of the kernel is, as long as its process is on
`running_list` or not and `krnl->mm` leads to the same table. -/
theorem exec_over (k k' : Krnl) (ins : Inst) (junk : Byte)
    (hseen : findCaller k p = findCaller k' p)
    (htable : (procFrame.onto p k k').table = k.table) :
    SimpleOs.exec (procFrame.onto p k k') p ins junk =
      (SimpleOs.exec k p ins junk).map (fun r => (procFrame.onto p r.1 k', r.2)) := by
  by_cases hread : ins.opcode = .read
  · simp only [SimpleOs.exec, hread, SimpleOs.libread, read_over hseen htable]
    cases SimpleOs.read k p 0 (ins.arg0.setWidth 32).toInt ins.arg1 junk junk with
    | error e => rfl
    | ok res => rfl
  · rw [← exec_solo, ← exec_solo]
    exact (exec_framed ins junk hread).solo_over hseen

/-- What an instruction changes is its part. -/
theorem exec_part {k k' : Krnl} {ins : Inst} {junk : Byte} {st : Int}
    (h : SimpleOs.exec k p ins junk = .ok (k', st)) : procFrame.onto p k' k = k' := by
  have hself := procFrame.onto_self p k
  have hover := exec_over k k ins junk rfl (congrArg Krnl.table hself)
  rw [hself, h] at hover
  exact (congrArg Prod.fst (Except.ok.inj hover)).symm
/-! ## Code with one critical section -/

theorem alloc_once (vmaid rgid : Int) (size : Addr) (junk : Byte) :
    (alloc p vmaid rgid size junk).Once false := by
  refine .lock (Plain.once (.load _ _) fun r => ?_)
  cases r with
  | none => exact .unlock _
  | some mm =>
      simp only []
      split
      · exact .unlock _
      · refine (withOwn_plain _).once fun r => ?_
        cases r with
        | some rgnode => exact (withOwn_plain _).once fun _ => .unlock _
        | none =>
            refine Plain.once (.ofExcept _) fun _ => (syscall_plain 17 _ junk).once fun r => ?_
            refine (withOwn_plain _).once fun _ => ?_
            split
            · exact (withOwn_plain _).once fun _ => .unlock _
            · exact .unlock _

theorem free_once (vmaid rgid : Int) : (free p vmaid rgid).Once false := by
  refine .lock ?_
  split
  · exact .unlock _
  · refine Plain.once (.load _ _) fun r => ?_
    cases r with
    | none => exact .unlock _
    | some mm =>
        refine (withOwn_plain _).once fun rgnode => ?_
        simp only []
        split
        · exact .unlock _
        · exact (withOwn_plain _).once fun _ => (withOwn_plain _).once fun _ => .unlock _

theorem write_once (vmaid rgid : Int) (offset : Addr) (value junk : Byte) :
    (write p vmaid rgid offset value junk).Once false := by
  refine .lock (Plain.once (.load _ _) fun r => ?_)
  cases r with
  | none => exact .unlock _
  | some mm =>
      simp only []
      split
      · refine (withOwn_plain _).once fun currg => ?_
        refine Plain.once (.bind (pgGetpage_plain _ junk) fun r => ?_) fun _ => .unlock _
        cases r with
        | none => exact .pure _
        | some fpn => exact .bind (syscall_plain 17 _ junk) fun _ => .pure _
      · exact .unlock _

end Access

/-- The instruction takes `mmvm_lock` for all it does, or does nothing. -/
def Inst.Locked (ins : Inst) : Prop := ins.opcode ≠ .read ∧ ins.opcode ≠ .syscall

instance (ins : Inst) : Decidable ins.Locked := inferInstanceAs (Decidable (_ ∧ _))

/-- An instruction that takes the lock takes it first and gives it back last. -/
theorem Access.exec_once {p : Pid} {ins : Inst} (junk : Byte) (h : ins.Locked) :
    (Access.exec p ins junk).Once false := by
  cases hop : ins.opcode
  case read => exact absurd hop h.1
  case syscall => exact absurd hop h.2
  case alloc =>
      simp only [exec, hop]
      refine .map (alloc_once _ _ _ _) fun r => ?_
      simp only []
      split <;> exact ⟨_, rfl⟩
  case free =>
      simp only [exec, hop]
      refine .map (free_once _ _) fun r => ?_
      split <;> exact ⟨_, rfl⟩
  case write =>
      simp only [exec, hop]
      refine .map (write_once _ _ _ _ _) fun r => ?_
      split <;> exact ⟨_, rfl⟩
  all_goals
    simp only [exec, hop]
    rfl

end SimpleOs
