/-
# `SimpleOs.Discipline` — the code keeps to the lock

One lemma for each function of `Access`, in its order: `_keeps` for what it does under the
lock, `_idle` for what it does without it when `Site.Ok` holds at the places in question.
`exec_sound` puts them together.
-/
import SimpleOs.Guard

namespace SimpleOs

open Mutex

namespace Access

section Code
variable {p : Pid} {own : Part}

/-! ## Devices and entries -/

/-- The head of a list is taken under the lock: no other frame is it. -/
theorem memphyGetFreefp_keeps (d : Dev) :
    mmvmLock.Keeps p (memphyGetFreefp d) (fun _ => True) := by
  intro v hv
  refine Spec.wp_seq (Q := fun fp h => fp.fpns = v.free d ∧ h = .held v) ?_ ?_
  · refine Spec.wp_load_held fun k _ hk => ⟨?_, rfl⟩
    rw [← hk]
    rfl
  · rintro fp _ ⟨hfp, rfl⟩
    cases hl : fp.fpns with
    | nil =>
        simp only []
        split
        · exact ⟨trivial, v, rfl, hv⟩
        · trivial
    | cons fpn rest =>
        rw [hl] at hfp
        refine Spec.wp_seq (Q := fun _ h => ∃ v', h = .held v' ∧ mmvmLock.inv v') ?_ ?_
        · refine Spec.wp_store_held fun k hok hk => ?_
          have hfree : fpn :: rest = (k.dev d).freeFpList.fpns := by
            rw [hfp, ← hk]
            rfl
          have hnodup : (fpn :: rest ++ (k.dev d).usedFpList).Nodup := by
            rw [hfree]
            exact Shared.Ok.nodup hok d
          have hsafe : mmvmLock.Safe p k (k.setDev d { k.dev d with
              freeFpList := { fp with fpns := rest }
              usedFpList := fpn :: (k.dev d).usedFpList }) :=
            safe_setDev hok (List.perm_middle.nodup_iff.mpr hnodup)
          exact ⟨hsafe, _, rfl, hsafe.inv⟩
        · rintro _ _ ⟨v', rfl, hv'⟩
          exact ⟨trivial, v', rfl, hv'⟩

/-- An empty list is left as it is. -/
theorem memphyGetFreefp_idle (d : Dev) :
    mmvmLock.Idle p (.free own) (memphyGetFreefp d) (fun r => r = none) := by
  refine .bind (R := fun fp : FpList => fp.fpns = []) (.load fun k _ _ hok => hok) fun fp hfp => ?_
  simp only [hfp]
  split
  · exact .pure rfl
  · trivial

theorem pteGetEntry_quiet (pgn : Nat) : mmvmLock.Quiet p (pteGetEntry p pgn)
    (fun pte => pte = 0 ∨ pagingPagePresent pte = true) := by
  refine withOwn_quiet fun mm mm' pte hz h => ?_
  rw [pteGetEntry_eq] at h
  cases h
  exact ⟨by simp only [Mm.part, Mm.touch_fifoPgn, funext (Mm.touch_pte mm · pgn)], hz pgn⟩

theorem pteGetEntry_idle (pgn : Nat) : mmvmLock.Idle p (.free own) (pteGetEntry p pgn)
    (fun pte => pte = own.pte pgn ∧ (pte = 0 ∨ pagingPagePresent pte = true)) := by
  refine withOwn_idle fun mm mm' pte hz hown h => ?_
  rw [pteGetEntry_eq] at h
  cases h
  exact ⟨by simp only [Mm.part, Mm.touch_fifoPgn, funext (Mm.touch_pte mm · pgn)],
    by rw [← hown]; rfl, hz pgn⟩

theorem intResult_quiet {x : Int} :
    mmvmLock.Quiet p (.ofExcept (intResult x)) (fun _ => True) :=
  .ofExcept fun _ _ => trivial

theorem setVma_quiet (vmaid : Int) (vma : VmArea) :
    mmvmLock.Quiet p (withOwn p (fun mm => .ok (mm.setVma vmaid vma, ()))) (fun _ => True) :=
  withOwn_quiet fun _ _ _ _ h => by cases h; exact ⟨rfl, trivial⟩

theorem pteSetFpn_keeps (pgn fpn : Nat) :
    mmvmLock.Keeps p (pteSetFpn p pgn fpn) (fun _ => True) :=
  withOwn_keeps fun _ _ _ hz h => by cases h; exact ⟨hz.setFpn pgn fpn, trivial⟩

theorem pteSetSwap_keeps (pgn swptyp swpoff : Nat) :
    mmvmLock.Keeps p (pteSetSwap p pgn swptyp swpoff) (fun _ => True) :=
  withOwn_keeps fun _ _ _ hz h => by cases h; exact ⟨hz.setSwap pgn swptyp swpoff, trivial⟩

theorem enlistPgnNode_keeps (pgn : Nat) :
    mmvmLock.Keeps p (enlistPgnNode p pgn) (fun _ => True) :=
  withOwn_keeps fun _ _ _ hz h => by cases h; exact ⟨hz, trivial⟩

/-! ## Mapping -/

theorem allocPagesRange_keeps (n : Nat) :
    mmvmLock.Keeps p (allocPagesRange n) (fun _ => True) := by
  induction n with
  | zero => exact .pure trivial
  | succ n ih =>
      refine (memphyGetFreefp_keeps .ram).bind fun r _ => ?_
      cases r with
      | none => exact .pure trivial
      | some fpn => exact ih.bind fun _ _ => .pure trivial

/-- With no free frame at hand nothing is taken: the request was for none, or it fails. -/
theorem allocPagesRange_idle (n : Nat) : mmvmLock.Idle p (.free own) (allocPagesRange n)
    (fun r => r.2 = -3000 ∨ n = 0) := by
  cases n with
  | zero => exact .pure (Or.inr rfl)
  | succ n =>
      refine (memphyGetFreefp_idle .ram).bind fun r hr => ?_
      subst hr
      exact .pure (Or.inl rfl)

theorem vmapLoop_keeps (pgn n : Nat) (fs : List Nat) :
    mmvmLock.Keeps p (vmapLoop p pgn n fs) (fun _ => True) := by
  induction n generalizing pgn fs with
  | zero => exact .pure trivial
  | succ n ih =>
      cases fs with
      | nil => exact .pure trivial
      | cons fpn fs =>
          exact (pteSetFpn_keeps pgn fpn).bind fun _ _ =>
            (enlistPgnNode_keeps pgn).bind fun _ _ => ih (pgn + 1) fs

theorem vmapPageRange_keeps (addr : Addr) (pgnum : Int) (fs : List Nat) :
    mmvmLock.Keeps p (vmapPageRange p addr pgnum fs) (fun _ => True) :=
  intResult_quiet.keeps.bind fun _ _ =>
    (vmapLoop_keeps _ _ fs).bind fun _ _ => .pure trivial

/-- The loop over no page does nothing. -/
theorem vmapPageRange_idle {pgnum : Int} (addr : Addr) (fs : List Nat) (hnone : pgnum.toNat = 0) :
    mmvmLock.Idle p (.free own) (vmapPageRange p addr pgnum fs) (fun _ => True) := by
  rw [vmapPageRange, hnone]
  exact intResult_quiet.idle.bind fun _ _ => .pure trivial

theorem vmMapRam_keeps (mapstart : Addr) (incpgnum : Int) (retRg : VmRg) :
    mmvmLock.Keeps p (vmMapRam p mapstart incpgnum retRg) (fun _ => True) := by
  refine (allocPagesRange_keeps _).bind fun r _ => ?_
  simp only []
  split
  · exact .pure trivial
  · split
    · exact .pure trivial
    · exact (vmapPageRange_keeps _ _ _).bind fun _ _ => .pure trivial

theorem vmMapRam_idle (mapstart : Addr) (incpgnum : Int) (retRg : VmRg) :
    mmvmLock.Idle p (.free own) (vmMapRam p mapstart incpgnum retRg) (fun _ => True) := by
  refine (allocPagesRange_idle _).bind fun r hr => ?_
  simp only []
  split
  · exact .pure trivial
  · split
    · exact .pure trivial
    · rename_i hret
      -- no page was asked for
      exact (vmapPageRange_idle _ _ (hr.resolve_left hret)).bind fun _ _ => .pure trivial

/-! ## Growth -/

theorem incVmaLimit_keeps (vmaid : Int) (incSz : Addr) :
    mmvmLock.Keeps p (incVmaLimit p vmaid incSz) (fun _ => True) := by
  refine loadOwn_quiet.keeps.bind fun r _ => ?_
  cases r with
  | none => exact .pure trivial
  | some mm =>
      simp only []
      split
      · split
        · exact .pure trivial
        · refine (vmMapRam_keeps _ _ _).bind fun r _ => ?_
          split
          · exact .pure trivial
          · exact (setVma_quiet _ _).keeps.bind fun _ _ => .pure trivial
      · exact .pure trivial

theorem incVmaLimit_idle (vmaid : Int) (incSz : Addr) :
    mmvmLock.Idle p (.free own) (incVmaLimit p vmaid incSz) (fun _ => True) := by
  refine loadOwn_quiet.idle.bind fun r _ => ?_
  cases r with
  | none => exact .pure trivial
  | some mm =>
      simp only []
      split
      · split
        · exact .pure trivial
        · refine (vmMapRam_idle _ _ _).bind fun r _ => ?_
          split
          · exact .pure trivial
          · exact (setVma_quiet _ _).idle.bind fun _ _ => .pure trivial
      · exact .pure trivial

/-! ## Clearing -/

theorem vmapPgdMemset_keeps (pgn n : Nat) :
    mmvmLock.Keeps p (vmapPgdMemset p pgn n) (fun _ => True) := by
  induction n with
  | zero => exact .pure trivial
  | succ n ih =>
      refine ih.bind fun _ _ => withOwn_keeps fun mm mm' _ hz h => ?_
      cases h
      refine ⟨fun m => ?_, trivial⟩
      rcases pte_clear mm (pgn + n) m with ⟨_, hm⟩ | ⟨_, hm⟩
      · exact Or.inl hm
      · rw [hm]
        exact hz m

/-- Entries that are zero are cleared to zero. -/
theorem vmapPgdMemset_idle (pgn n : Nat) (hzero : ∀ i < n, own.pte (pgn + i) = 0) :
    mmvmLock.Idle p (.free own) (vmapPgdMemset p pgn n) (fun _ => True) := by
  induction n with
  | zero => exact .pure trivial
  | succ n ih =>
      refine (ih fun i hi => hzero i (Nat.lt_succ_of_lt hi)).bind fun _ _ => ?_
      refine withOwn_idle fun mm mm' _ _ hown h => ?_
      cases h
      refine ⟨?_, trivial⟩
      subst hown
      have hpte : ({ mm with pgd := mm.pgd.modify (pgn + n) (fun _ => 0) } : Mm).pte = mm.pte := by
        funext m
        rcases pte_clear mm (pgn + n) m with ⟨hs, hm⟩ | ⟨_, hm⟩
        · rw [hm, pte_congr mm hs]
          exact (hzero n (Nat.lt_succ_self n)).symm
        · exact hm
      simp only [Mm.part, hpte]

/-! ## The memory system call -/

/-- The copy of a page and the access to a byte change no list. -/
theorem swapPage_quiet (src dst : Nat) (junk : Byte) :
    mmvmLock.Quiet p (Code.attempt .plain (fun k => mmSwapPage k src dst junk) : Prog Int)
      (fun _ => True) := by
  refine .attempt fun k k' _ _ h => ?_
  rw [mmSwapPage, bind_ok] at h
  obtain ⟨⟨mram, activeMswp⟩, hcopy, hret⟩ := h
  cases hret
  obtain ⟨hsrc, hdst⟩ := swapCpPage_lists hcopy
  exact ⟨same_bytes hsrc hdst, trivial⟩

theorem ioRead_quiet (addr : Nat) (junk : Byte) :
    mmvmLock.Quiet p (Code.attempt .plain (fun k => do
      let (mram, _, value) ← memphyRead k.mram addr junk
      pure ({ k with mram }, value)) : Prog Byte) (fun _ => True) := by
  refine .attempt fun k k' _ _ h => ?_
  rw [bind_ok] at h
  obtain ⟨⟨mram, st, value⟩, hread, hret⟩ := h
  cases hret
  exact ⟨same_bytes (memphyRead_lists hread) rfl, trivial⟩

theorem ioWrite_quiet (addr : Nat) (data : Byte) :
    mmvmLock.Quiet p (Code.attempt .plain (fun k => do
      let (mram, _) ← memphyWrite k.mram addr data
      pure ({ k with mram }, ())) : Prog Unit) (fun _ => True) := by
  refine .attempt fun k k' _ _ h => ?_
  rw [bind_ok] at h
  obtain ⟨⟨mram, st⟩, hwrite, hret⟩ := h
  cases hret
  exact ⟨same_bytes (memphyWrite_lists hwrite) rfl, trivial⟩

theorem sysMemmap_keeps (regs : ScRegs) (junk : Byte) :
    mmvmLock.Keeps p (sysMemmap p regs junk) (fun _ => True) := by
  refine Spec.Quiet.keeps (R := fun c => ∀ q, c = some q → q = p)
    (.load fun k _ q hq => findCaller_some hq) |>.bind fun c hc => ?_
  cases c with
  | none => exact .pure trivial
  | some caller =>
      obtain rfl := hc caller rfl
      simp only []
      split
      · exact (vmapPgdMemset_keeps _ _).bind fun _ _ => .pure trivial
      · split
        · exact (incVmaLimit_keeps _ _).bind fun _ _ => .pure trivial
        · split
          · exact (swapPage_quiet _ _ _).keeps.bind fun _ _ => .pure trivial
          · split
            · exact (ioRead_quiet _ _).keeps.bind fun _ _ => .pure trivial
            · split
              · exact (ioWrite_quiet _ _).keeps.bind fun _ _ => .pure trivial
              · exact .pure trivial

theorem sysMemmap_idle (regs : ScRegs) (junk : Byte) :
    mmvmLock.Idle p (.free own) (sysMemmap p regs junk) (fun _ => True) := by
  -- what the scan leaves to be known: who was found, and that a request to map clears zeros
  refine .bind (R := fun c : Option Pid => ∀ q, c = some q → q = p ∧
    ((regs.a1.setWidth 32).toInt = sysmemMapOp → ∀ i < (regs.a3.setWidth 32).toInt.toNat,
      own.pte ((viaU32 regs.a2).toNat / pagingPagesz + i) = 0)) ?_ fun c hc => ?_
  · refine .load fun k _ hown hok q hq => ⟨findCaller_some hq, fun hmap i hi => ?_⟩
    have hfound : findCaller k p ≠ none := by
      rw [hq]
      exact Option.some_ne_none q
    rw [← hown]
    exact hok hfound hmap i hi
  · cases c with
    | none => exact .pure trivial
    | some caller =>
        obtain ⟨rfl, hzero⟩ := hc caller rfl
        simp only []
        split
        · rename_i hmap
          exact (vmapPgdMemset_idle _ _ (hzero hmap)).bind fun _ _ => .pure trivial
        · split
          · exact (incVmaLimit_idle _ _).bind fun _ _ => .pure trivial
          · split
            · exact (swapPage_quiet _ _ _).idle.bind fun _ _ => .pure trivial
            · split
              · exact (ioRead_quiet _ _).idle.bind fun _ _ => .pure trivial
              · split
                · exact (ioWrite_quiet _ _).idle.bind fun _ _ => .pure trivial
                · exact .pure trivial

theorem syscall_keeps (nr : BitVec 32) (regs : ScRegs) (junk : Byte) :
    mmvmLock.Keeps p (syscall p nr regs junk) (fun _ => True) := by
  rw [syscall]
  split
  · exact sysMemmap_keeps regs junk
  · exact .pure trivial

theorem syscall_idle (nr : BitVec 32) (regs : ScRegs) (junk : Byte) :
    mmvmLock.Idle p (.free own) (syscall p nr regs junk) (fun _ => True) := by
  rw [syscall]
  split
  · exact sysMemmap_idle regs junk
  · exact .pure trivial

/-! ## The library -/

theorem pgGetpage_keeps (pgn : Nat) (junk : Byte) :
    mmvmLock.Keeps p (pgGetpage pgn p junk) (fun _ => True) := by
  refine (pteGetEntry_quiet pgn).keeps.bind fun pte hpte => ?_
  simp only []
  split
  · rename_i habsent
    -- an entry that is not present is zero, so nothing will be swapped in
    have hzero : pte = 0 := hpte.resolve_right (by simpa using habsent)
    refine .bind (R := fun _ => True) (withOwn_keeps fun mm mm' r hz h => ?_) fun r _ => ?_
    · obtain rfl : (findVictimPage mm).1 = mm' := congrArg Prod.fst (Except.ok.inj h)
      exact ⟨findVictimPage_pteOk hz, trivial⟩
    · cases r with
      | none => exact .pure trivial
      | some vicpgn =>
          refine (memphyGetFreefp_keeps .swp).bind fun r _ => ?_
          cases r with
          | none => exact .pure trivial
          | some swpfpn =>
              refine (pteGetEntry_quiet vicpgn).keeps.bind fun vicpte _ => ?_
              refine (syscall_keeps 17 _ junk).bind fun _ _ => ?_
              refine (pteSetSwap_keeps vicpgn 0 swpfpn).bind fun _ _ => ?_
              rw [if_neg (not_not.mpr hzero)]
              refine (pteSetFpn_keeps pgn _).bind fun _ _ => ?_
              refine (enlistPgnNode_keeps pgn).bind fun _ _ => ?_
              exact (pteGetEntry_quiet pgn).keeps.bind fun _ _ => .pure trivial
  · exact (pteGetEntry_quiet pgn).keeps.bind fun _ _ => .pure trivial

/-- A page with an entry is there; without one, and with no page to evict, the fault fails. -/
theorem pgGetpage_idle (pgn : Nat) (junk : Byte) (h : own.pte pgn ≠ 0 ∨ own.fifoPgn = []) :
    mmvmLock.Idle p (.free own) (pgGetpage pgn p junk) (fun _ => True) := by
  refine (pteGetEntry_idle pgn).bind fun pte hpte => ?_
  obtain ⟨rfl, hpte⟩ := hpte
  simp only []
  split
  · rename_i habsent
    have hzero : own.pte pgn = 0 := hpte.resolve_right (by simpa using habsent)
    have hnil : own.fifoPgn = [] := h.resolve_left (fun hne => hne hzero)
    refine .bind (R := fun r => r = none) (withOwn_idle fun mm mm' r _ hown hr => ?_)
      fun r hr => ?_
    · subst hown
      rw [findVictimPage_nil hnil] at hr
      cases hr
      exact ⟨rfl, rfl⟩
    · subst hr
      exact .pure trivial
  · exact (pteGetEntry_quiet pgn).idle.bind fun _ _ => .pure trivial

theorem pgSetval_keeps (addr : BitVec 32) (value junk : Byte) :
    mmvmLock.Keeps p (pgSetval addr value p junk) (fun _ => True) := by
  refine (pgGetpage_keeps _ junk).bind fun r _ => ?_
  cases r with
  | none => exact .pure trivial
  | some fpn => exact (syscall_keeps 17 _ junk).bind fun _ _ => .pure trivial

theorem pgGetval_idle (addr : BitVec 32) (data junk : Byte)
    (h : own.pte (pagingPgn addr) ≠ 0 ∨ own.fifoPgn = []) :
    mmvmLock.Idle p (.free own) (pgGetval addr data p junk) (fun _ => True) := by
  refine (pgGetpage_idle _ junk h).bind fun r _ => ?_
  cases r with
  | none => exact .pure trivial
  | some fpn => exact (syscall_idle 17 _ junk).bind fun _ _ => .pure trivial

/-- Regions and symbols are not guarded. -/
theorem getFreeVmrgArea_quiet (vmaid size : Int) :
    mmvmLock.Quiet p (withOwn p (fun mm => .ok (getFreeVmrgArea mm vmaid size)))
      (fun _ => True) := by
  refine withOwn_quiet fun mm mm' r _ h => ⟨?_, trivial⟩
  obtain rfl : (getFreeVmrgArea mm vmaid size).1 = mm' := congrArg Prod.fst (Except.ok.inj h)
  rw [getFreeVmrgArea]
  split
  · rfl
  · split <;> rfl

theorem setSymrg_quiet (rgid : Int) (rg : VmRg) :
    mmvmLock.Quiet p (withOwn p (fun mm => do pure (← mm.setSymrg rgid rg, ())))
      (fun _ => True) := by
  refine withOwn_quiet fun mm mm' _ _ h => ⟨?_, trivial⟩
  rw [bind_ok] at h
  obtain ⟨mm₁, hset, hret⟩ := h
  cases hret
  rw [(Mm.setSymrg_ok hset).2.2]
  rfl

theorem enlistVmFreergList_quiet (rg : VmRg) :
    mmvmLock.Quiet p (withOwn p (fun mm => do
      let (mm, _) ← enlistVmFreergList mm rg
      pure (mm, ()))) (fun _ => True) := by
  refine withOwn_quiet fun mm mm' _ _ h => ⟨?_, trivial⟩
  rw [bind_ok] at h
  obtain ⟨⟨mm₁, st⟩, hen, hret⟩ := h
  cases hret
  rw [enlistVmFreergList] at hen
  split at hen
  · cases hen
  · split at hen
    · cases hen; rfl
    · cases hen; rfl

theorem symrg_quiet (rgid : Int) :
    mmvmLock.Quiet p (withOwn p (fun mm => do pure (mm, ← mm.symrg rgid)))
      (fun _ => True) := by
  refine withOwn_quiet fun mm mm' _ _ h => ⟨?_, trivial⟩
  rw [bind_ok] at h
  obtain ⟨rg, _, hret⟩ := h
  cases hret
  rfl

theorem alloc_sound (vmaid rgid : Int) (size : Addr) (junk : Byte) :
    mmvmLock.Sound p (alloc p vmaid rgid size junk) := by
  refine .lock (.bind loadOwn_quiet.keeps fun r _ => ?_)
  cases r with
  | none => exact .unlock _
  | some mm =>
      simp only []
      split
      · exact .unlock _
      · refine .bind (getFreeVmrgArea_quiet _ _).keeps fun r _ => ?_
        cases r with
        | some rgnode => exact .bind (setSymrg_quiet _ _).keeps fun _ _ => .unlock _
        | none =>
            refine .bind intResult_quiet.keeps fun _ _ => ?_
            refine .bind (syscall_keeps 17 _ junk) fun r _ => ?_
            refine .bind (setSymrg_quiet _ _).keeps fun _ _ => ?_
            split
            · exact .bind (enlistVmFreergList_quiet _).keeps fun _ _ => .unlock _
            · exact .unlock _

theorem free_sound (vmaid rgid : Int) : mmvmLock.Sound p (free p vmaid rgid) := by
  refine .lock ?_
  split
  · exact .unlock _
  · refine .bind loadOwn_quiet.keeps fun r _ => ?_
    cases r with
    | none => exact .unlock _
    | some mm =>
        refine .bind (symrg_quiet rgid).keeps fun rgnode _ => ?_
        simp only []
        split
        · exact .unlock _
        · exact .bind (setSymrg_quiet _ _).keeps fun _ _ =>
            .bind (enlistVmFreergList_quiet _).keeps fun _ _ => .unlock _

theorem write_sound (vmaid rgid : Int) (offset : Addr) (value junk : Byte) :
    mmvmLock.Sound p (write p vmaid rgid offset value junk) := by
  refine .lock (.bind loadOwn_quiet.keeps fun r _ => ?_)
  cases r with
  | none => exact .unlock _
  | some mm =>
      simp only []
      split
      · exact .bind (symrg_quiet _).keeps fun _ _ =>
          .bind (pgSetval_keeps _ _ _) fun _ _ => .unlock _
      · exact .unlock _

theorem read_idle (vmaid rgid : Int) (offset : Addr) (data junk : Byte) :
    mmvmLock.Idle p (.free own) (read p vmaid rgid offset data junk) (fun _ => True) := by
  refine loadOwn_quiet.idle.bind fun r _ => ?_
  cases r with
  | none => exact .pure trivial
  | some mm =>
      simp only []
      split
      · exact .pure trivial
      · refine .bind (R := fun _ => True) (Spec.Quiet.attempt fun k k' ptr _ h => ?_).idle
          fun ptr _ => ?_
        · rw [bind_ok] at h
          obtain ⟨ptr', _, hret⟩ := h
          cases hret
          exact ⟨.refl k, trivial⟩
        · -- the entry decides which page is read
          refine .bind (R := fun currg : VmRg =>
            own.pte (pagingPgn ((currg.rgStart + offset).setWidth 32)) ≠ 0 ∨ own.fifoPgn = [])
            (.attempt fun k k' currg _ hown hok h => ?_) fun currg hpage => ?_
          · rw [bind_ok] at h
            obtain ⟨rg, hload, hret⟩ := h
            cases hret
            have hpage : Site.Ok (.entry p ptr offset) k := hok
            simp only [Site.Ok, hload] at hpage
            rw [← hown]
            exact ⟨.refl k, hpage⟩
          · exact (pgGetval_idle _ _ _ hpage).bind fun _ _ => .pure trivial

/-! ## Instructions -/

/-- Whoever runs the code of an instruction takes the lock when it does not have it, gives it back
before it is done, and outside of it changes nothing that is guarded. -/
theorem exec_sound (ins : Inst) (junk : Byte) : mmvmLock.Sound p (exec p ins junk) := by
  cases hop : ins.opcode
  case alloc =>
      simp only [exec, hop]
      refine (alloc_sound _ _ _ _).map fun r => ?_
      simp only []
      split
      · exact ⟨_, rfl⟩
      · exact ⟨_, rfl⟩
  case free =>
      simp only [exec, hop]
      refine (free_sound _ _).map fun r => ?_
      split
      · exact ⟨_, rfl⟩
      · exact ⟨_, rfl⟩
  case write =>
      simp only [exec, hop]
      refine (write_sound _ _ _ _ _).map fun r => ?_
      split
      · exact ⟨_, rfl⟩
      · exact ⟨_, rfl⟩
  case read =>
      simp only [exec, hop]
      exact Spec.Idle.sound (R := fun _ => True) fun own =>
        .bind (R := fun _ => True) ((read_idle _ _ _ _ _).bind fun _ _ => .pure trivial)
          fun _ _ => .pure trivial
  case syscall =>
      simp only [exec, hop]
      exact Spec.Idle.sound (R := fun _ => True) fun own =>
        (syscall_idle _ _ junk).bind fun _ _ => .pure trivial
  all_goals
    simp only [exec, hop]
    exact Spec.Idle.sound (R := fun _ => True) fun own => .pure trivial

end Code

end Access

end SimpleOs
