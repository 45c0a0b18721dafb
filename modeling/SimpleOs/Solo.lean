/-
# `SimpleOs.Solo` — the instructions run alone

Run from beginning to end with no other CPU in between, the code of `Access` computes what
the functions of the model compute: `exec_solo`.  One lemma for each function, in the order
of `Access`; whoever calls it uses the lemma.
-/
import SimpleOs.Access

namespace SimpleOs

open Mutex Code

/-- A structure stored back. -/
theorem Krnl.setMm_own {k : Krnl} {p : Pid} {mm : Mm} (h : k.ownMm p = some mm) :
    k.setMm p mm = k := by
  rw [Krnl.setMm, ← h, Function.update_eq_self]

@[simp] theorem Krnl.setDev_dev (k : Krnl) (d : Dev) : k.setDev d (k.dev d) = k := by
  cases d <;> rfl

namespace Access

section Solo
variable {k : Krnl} {p : Pid} {mm : Mm}

theorem withOwn_solo {α : Type} (f : Mm → Except Ub (Mm × α)) (h : k.ownMm p = some mm) :
    (withOwn p f).solo k = (f mm).map (fun r => (k.setMm p r.1, r.2)) := by
  rw [withOwn, solo_attempt, h]
  show (f mm >>= _) = _
  cases f mm with
  | error e => rfl
  | ok r => rfl

theorem withOwn_solo_ok {α : Type} (g : Mm → Mm × α) (h : k.ownMm p = some mm) :
    (withOwn p (fun mm => .ok (g mm))).solo k = .ok (k.setMm p (g mm).1, (g mm).2) :=
  withOwn_solo _ h

theorem withOwn_solo_none {α : Type} (f : Mm → Except Ub (Mm × α)) (h : k.ownMm p = none) :
    (withOwn p f).solo k = .error .wildPointer := by
  rw [withOwn, solo_attempt, h]

/-! ## Devices and entries -/

theorem memphyGetFreefp_solo (d : Dev) : (memphyGetFreefp d).solo k =
    (SimpleOs.memphyGetFreefp (k.dev d)).map (fun r => (k.setDev d r.1, r.2)) := by
  rw [memphyGetFreefp, solo_bind, solo_load, SimpleOs.memphyGetFreefp]
  simp only [Except.bind]
  cases hl : (k.dev d).freeFpList.fpns with
  | nil =>
      cases hc : (k.dev d).freeFpList.closed with
      | true =>
          simp only [if_true, solo_pure, Except.map, Krnl.setDev_dev]
      | false => rfl
  | cons fpn rest => rfl

theorem memphyPutFreefp_solo (d : Dev) (fpn : Nat) : (memphyPutFreefp d fpn).solo k =
    .ok (k.setDev d (SimpleOs.memphyPutFreefp (k.dev d) fpn), ()) := rfl

theorem pteGetEntry_solo (pgn : Nat) (h : k.ownMm p = some mm) : (pteGetEntry p pgn).solo k =
    .ok (k.setMm p (SimpleOs.pteGetEntry mm pgn).1, (SimpleOs.pteGetEntry mm pgn).2) :=
  withOwn_solo _ h

theorem pteSetFpn_solo (pgn fpn : Nat) (h : k.ownMm p = some mm) : (pteSetFpn p pgn fpn).solo k =
    .ok (k.setMm p (SimpleOs.pteSetFpn mm pgn fpn), ()) :=
  withOwn_solo _ h

theorem pteSetSwap_solo (pgn swptyp swpoff : Nat) (h : k.ownMm p = some mm) :
    (pteSetSwap p pgn swptyp swpoff).solo k =
      .ok (k.setMm p (SimpleOs.pteSetSwap mm pgn swptyp swpoff), ()) :=
  withOwn_solo _ h

theorem enlistPgnNode_solo (pgn : Nat) (h : k.ownMm p = some mm) :
    (enlistPgnNode p pgn).solo k = .ok (k.setMm p (mm.enlist pgn), ()) :=
  withOwn_solo _ h

/-! ## Mapping -/

theorem allocPagesRange_solo (n : Nat) : (allocPagesRange n).solo k =
    (SimpleOs.allocPagesRange k.mram n).map (fun r => ({ k with mram := r.1 }, r.2)) := by
  induction n generalizing k with
  | zero => rfl
  | succ n ih =>
      rw [allocPagesRange, solo_bind, memphyGetFreefp_solo, SimpleOs.allocPagesRange]
      show Except.bind ((SimpleOs.memphyGetFreefp k.mram).map _) _ = _
      cases SimpleOs.memphyGetFreefp k.mram with
      | error e => rfl
      | ok r =>
          obtain ⟨mram, r⟩ := r
          cases r with
          | none => rfl
          | some fpn =>
              show (allocPagesRange n >>= _).solo { k with mram } = _
              rw [solo_bind, ih]
              show _ = (SimpleOs.allocPagesRange mram n >>= _).map _
              cases SimpleOs.allocPagesRange mram n with
              | error e => rfl
              | ok r => rfl

theorem vmapLoop_solo (pgn n : Nat) (fs : List Nat) (h : k.ownMm p = some mm) :
    (vmapLoop p pgn n fs).solo k = .ok (k.setMm p (SimpleOs.vmapLoop mm pgn n fs).1,
      (SimpleOs.vmapLoop mm pgn n fs).2) := by
  induction n generalizing k mm pgn fs with
  | zero =>
      show Except.ok (k, _) = _
      rw [SimpleOs.vmapLoop, Krnl.setMm_own h]
  | succ n ih =>
      cases fs with
      | nil =>
          show Except.ok (k, _) = _
          rw [SimpleOs.vmapLoop, Krnl.setMm_own h]
      | cons fpn fs =>
          rw [vmapLoop, solo_bind, pteSetFpn_solo _ _ h]
          show (enlistPgnNode p pgn >>= _).solo (k.setMm p (SimpleOs.pteSetFpn mm pgn fpn)) = _
          rw [solo_bind, enlistPgnNode_solo pgn (Krnl.setMm_self _ _ _), Krnl.setMm_setMm]
          show (vmapLoop p (pgn + 1) n fs).solo _ = _
          rw [ih (pgn + 1) fs (Krnl.setMm_self _ _ _), Krnl.setMm_setMm, SimpleOs.vmapLoop]

theorem vmapPageRange_solo (addr : Addr) (pgnum : Int) (fs : List Nat) (h : k.ownMm p = some mm) :
    (vmapPageRange p addr pgnum fs).solo k =
      (SimpleOs.vmapPageRange mm addr pgnum fs).map (fun r => (k.setMm p r.1, r.2)) := by
  rw [vmapPageRange, solo_bind, solo_ofExcept, SimpleOs.vmapPageRange]
  cases intResult (pgnum * pagingPagesz) with
  | error e => rfl
  | ok bytes =>
      show (vmapLoop p _ _ fs >>= _).solo k = _
      rw [solo_bind, vmapLoop_solo _ _ fs h]
      rfl

theorem vmMapRam_solo (mapstart : Addr) (incpgnum : Int) (retRg : VmRg)
    (h : k.ownMm p = some mm) : (vmMapRam p mapstart incpgnum retRg).solo k =
      (SimpleOs.vmMapRam k.mram mm mapstart incpgnum retRg).map
        (fun r => ({ k with mram := r.1 }.setMm p r.2.1, r.2.2)) := by
  rw [vmMapRam, solo_bind, allocPagesRange_solo, SimpleOs.vmMapRam]
  cases SimpleOs.allocPagesRange k.mram incpgnum.toNat with
  | error e => rfl
  | ok r =>
      obtain ⟨mram, frmLst, retAlloc⟩ := r
      have hown : ({ k with mram } : Krnl).ownMm p = some mm := h
      -- the statuses are unsigned, so the first of the two tests always fails
      simp only [Except.map, Except.bind, bind]
      by_cases hret : retAlloc = -3000
      · rw [if_pos hret, if_pos hret]
        show Except.ok (_, _) = Except.ok (_, _)
        rw [Krnl.setMm_own hown]
      · rw [if_neg hret, if_neg hret]
        show (vmapPageRange p mapstart incpgnum frmLst >>= _).solo _ = _
        rw [solo_bind, vmapPageRange_solo _ _ _ hown]
        cases SimpleOs.vmapPageRange mm mapstart incpgnum frmLst with
        | error e => rfl
        | ok r => rfl

theorem incVmaLimit_solo (vmaid : Int) (incSz : Addr) :
    (incVmaLimit p vmaid incSz).solo k = SimpleOs.incVmaLimit k p vmaid incSz := by
  rw [incVmaLimit, solo_bind, loadOwn, solo_load, SimpleOs.incVmaLimit]
  cases h : k.ownMm p with
  | none => rfl
  | some mm =>
      simp only [Except.bind]
      cases getVmAreaNodeAtBrk mm vmaid incSz with
      | none => rfl
      | some area =>
          cases mm.getVmaByNum vmaid with
          | none => rfl
          | some curVma =>
              simp only []
              by_cases hval : validateOverlapVmArea mm vmaid area.rgStart area.rgEnd < 0
              · rw [if_pos hval, if_pos hval]
                rfl
              · rw [if_neg hval, if_neg hval, solo_bind, vmMapRam_solo _ _ _ h]
                cases SimpleOs.vmMapRam k.mram mm area.rgStart
                    ((pagingPageAlignsz incSz / 256).setWidth 32).toInt area with
                | error e => rfl
                | ok r =>
                    obtain ⟨mram, mm', area', ret⟩ := r
                    simp only [Except.map, Except.bind, bind]
                    by_cases hret : ret < 0
                    · rw [if_pos hret, if_pos hret]
                      rfl
                    · rw [if_neg hret, if_neg hret]
                      show (withOwn p _ >>= _).solo _ = _
                      rw [solo_bind, withOwn_solo _ (Krnl.setMm_self _ _ _)]
                      rfl

theorem memsetLoop_solo (pgn n : Nat) (h : k.ownMm p = some mm) : (vmapPgdMemset p pgn n).solo k =
    .ok (k.setMm p ((List.range n).foldl
      (fun mm i => { mm with pgd := mm.pgd.modify (pgn + i) (fun _ => 0) }) mm), ()) := by
  induction n with
  | zero =>
      show Except.ok (k, ()) = _
      rw [List.range_zero, List.foldl_nil, Krnl.setMm_own h]
  | succ n ih =>
      rw [vmapPgdMemset, solo_bind, ih, List.range_succ, List.foldl_append, List.foldl_cons,
        List.foldl_nil]
      show (withOwn p _).solo _ = _
      rw [withOwn_solo _ (Krnl.setMm_self _ _ _), Except.map, Krnl.setMm_setMm]

theorem memsetLoop_solo_none (pgn n : Nat) (h : k.ownMm p = none) :
    (vmapPgdMemset p pgn n).solo k = if n = 0 then .ok (k, ()) else .error .wildPointer := by
  induction n with
  | zero => rfl
  | succ n ih =>
      rw [vmapPgdMemset, solo_bind, ih, if_neg (Nat.succ_ne_zero n)]
      split
      · exact withOwn_solo_none _ h
      · rfl

theorem vmapPgdMemset_solo (addr : Addr) (pgnum : Int) :
    (vmapPgdMemset p (addr.toNat / pagingPagesz) pgnum.toNat).solo k =
      (memsetCaller k p addr pgnum).map (fun k => (k, ())) := by
  rw [memsetCaller]
  cases h : k.ownMm p with
  | none =>
      rw [memsetLoop_solo_none _ _ h]
      show _ = Except.map _ (if pgnum ≤ 0 then _ else _)
      by_cases hn : pgnum ≤ 0
      · rw [if_pos (Int.toNat_of_nonpos hn), if_pos hn]
        rfl
      · rw [if_neg (by omega), if_neg hn]
        rfl
  | some mm => rw [memsetLoop_solo _ _ h]; rfl

/-! ## The memory system call -/

theorem sysMemmap_solo (regs : ScRegs) (junk : Byte) :
    (sysMemmap p regs junk).solo k = SimpleOs.sysMemmap k p regs junk := by
  rw [sysMemmap, SimpleOs.sysMemmap]
  show (Code.load (.scan p regs) (fun k => findCaller k p) >>= _).solo k = _
  rw [solo_bind, solo_load]
  simp only [Except.bind]
  cases findCaller k p with
  | none => rfl
  | some caller =>
      simp only []
      split
      · rw [solo_bind, vmapPgdMemset_solo]
        cases memsetCaller k caller (viaU32 regs.a2) (regs.a3.setWidth 32).toInt with
        | error e => rfl
        | ok k' => rfl
      · split
        · rw [solo_bind, incVmaLimit_solo]
          rfl
        · split
          · rw [solo_bind, solo_attempt]
            rfl
          · split
            · rw [solo_bind, solo_attempt]
              cases memphyRead k.mram (viaU32 regs.a2).toNat junk with
              | error e => rfl
              | ok r => rfl
            · split
              · rw [solo_bind, solo_attempt]
                cases memphyWrite k.mram (viaU32 regs.a2).toNat (regs.a3.setWidth 8) with
                | error e => rfl
                | ok r => rfl
              · rfl

theorem syscall_solo (nr : BitVec 32) (regs : ScRegs) (junk : Byte) :
    (syscall p nr regs junk).solo k = SimpleOs.syscall k p nr regs junk := by
  rw [syscall, SimpleOs.syscall]
  split
  · exact sysMemmap_solo regs junk
  · rfl

/-- The request to save a frame touches no structure. -/
theorem swp_ownMm {k' : Krnl} {a2 a3 : Addr} {regs : ScRegs} {junk : Byte} {ret : Int}
    (h : SimpleOs.syscall k p 17 { a1 := 3, a2, a3 } junk = .ok (k', regs, ret)) :
    k'.ownMm = k.ownMm := by
  rw [SimpleOs.syscall, if_pos rfl] at h
  cases hf : findCaller k p with
  | none =>
      rw [sysMemmap_lost hf] at h
      cases h
      rfl
  | some caller =>
      have hop : SimpleOs.sysMemmap k p { a1 := 3, a2, a3 } junk =
          (mmSwapPage k (viaU32 a2).toNat (viaU32 a3).toNat junk >>= fun r =>
            pure (r.1, { a1 := 3, a2, a3 }, 0)) := by
        rw [SimpleOs.sysMemmap, hf]
        rfl
      rw [hop, bind_ok] at h
      obtain ⟨⟨k₁, st⟩, hswap, hret⟩ := h
      cases hret
      rw [mmSwapPage, bind_ok] at hswap
      obtain ⟨⟨mram, activeMswp⟩, _, hret⟩ := hswap
      cases hret
      rfl

/-! ## The library -/

/-- The end of a fault: the frame goes to page `pgn`, which is enlisted. -/
theorem install_solo (pgn fpn : Nat) (h : k.ownMm p = some mm) :
    (do pteSetFpn p pgn fpn
        enlistPgnNode p pgn
        let pte ← pteGetEntry p pgn
        pure (some (pagingFpn pte)) : Prog (Option Nat)).solo k =
      .ok (k.setMm p (SimpleOs.pteGetEntry ((SimpleOs.pteSetFpn mm pgn fpn).enlist pgn) pgn).1,
        some (pagingFpn
          (SimpleOs.pteGetEntry ((SimpleOs.pteSetFpn mm pgn fpn).enlist pgn) pgn).2)) := by
  rw [solo_bind, pteSetFpn_solo _ _ h, Except.bind]
  rw [solo_bind, enlistPgnNode_solo _ (Krnl.setMm_self _ _ _), Except.bind, Krnl.setMm_setMm]
  rw [solo_bind, pteGetEntry_solo _ (Krnl.setMm_self _ _ _), Except.bind, Krnl.setMm_setMm]
  rfl

theorem pgGetpage_solo (pgn : Nat) (junk : Byte) (h : k.ownMm p = some mm) :
    (pgGetpage pgn p junk).solo k = SimpleOs.pgGetpage k mm pgn p junk := by
  rw [pgGetpage, solo_bind, pteGetEntry_solo pgn h, SimpleOs.pgGetpage]
  obtain ⟨mm₁, pte⟩ := SimpleOs.pteGetEntry mm pgn
  simp only [Except.bind]
  cases pagingPagePresent pte with
  | true =>
      show (pteGetEntry p pgn >>= _).solo (k.setMm p mm₁) = _
      rw [solo_bind, pteGetEntry_solo pgn (Krnl.setMm_self _ _ _), Krnl.setMm_setMm]
      rfl
  | false =>
      show (withOwn p (fun mm => .ok (findVictimPage mm)) >>= _).solo (k.setMm p mm₁) = _
      rw [solo_bind, withOwn_solo_ok _ (Krnl.setMm_self _ _ _), Krnl.setMm_setMm]
      obtain ⟨mm₂, v⟩ := findVictimPage mm₁
      cases v with
      | none => rfl
      | some vicpgn =>
          show (memphyGetFreefp .swp >>= _).solo (k.setMm p mm₂) = _
          rw [solo_bind, memphyGetFreefp_solo]
          show Except.bind ((SimpleOs.memphyGetFreefp k.activeMswp).map _) _ = _
          cases SimpleOs.memphyGetFreefp k.activeMswp with
          | error e => rfl
          | ok r =>
              obtain ⟨activeMswp, r⟩ := r
              cases r with
              | none => rfl
              | some swpfpn =>
                  show (pteGetEntry p vicpgn >>= _).solo ({ k with activeMswp }.setMm p mm₂) = _
                  rw [solo_bind, pteGetEntry_solo vicpgn (Krnl.setMm_self _ _ _), Krnl.setMm_setMm]
                  show Code.solo (syscall p 17 _ junk >>= _) _ =
                    (SimpleOs.syscall _ p 17 _ junk >>= _)
                  rw [solo_bind, syscall_solo]
                  obtain ⟨mm₃, vicpte⟩ := SimpleOs.pteGetEntry mm₂ vicpgn
                  cases hs : SimpleOs.syscall ({ k with activeMswp }.setMm p mm₃) p 17
                    { a1 := 3, a2 := BitVec.ofNat 64 (pagingFpn vicpte),
                      a3 := BitVec.ofNat 64 swpfpn } junk with
                  | error e => rfl
                  | ok res =>
                      obtain ⟨k₂, regs, ret⟩ := res
                      have hown : k₂.ownMm p = some mm₃ := by
                        rw [swp_ownMm hs]
                        exact Krnl.setMm_self _ _ _
                      show (pteSetSwap p vicpgn 0 swpfpn >>= _).solo k₂ = _
                      rw [solo_bind, pteSetSwap_solo _ _ _ hown]
                      show Code.solo (if pte ≠ 0 then _ else _)
                        (k₂.setMm p (SimpleOs.pteSetSwap mm₃ vicpgn 0 swpfpn)) = _
                      by_cases hz : pte = 0
                      · rw [if_neg (not_not.mpr hz), install_solo _ _ (Krnl.setMm_self _ _ _),
                          Krnl.setMm_setMm]
                        simp only [bind, Except.bind, hz]
                        rfl
                      · rw [if_pos hz, solo_bind, solo_attempt]
                        show Except.bind (swapCpPage k₂.activeMswp (pagingSwp pte) k₂.mram
                          (pagingFpn vicpte) junk >>= _) _ = _
                        simp only [bind, Except.bind, if_pos hz]
                        cases swapCpPage k₂.activeMswp (pagingSwp pte) k₂.mram
                            (pagingFpn vicpte) junk with
                        | error e => rfl
                        | ok r =>
                            obtain ⟨activeMswp', mram⟩ := r
                            show (memphyPutFreefp .swp (pagingSwp pte) >>= _).solo
                              ({ k₂ with activeMswp := activeMswp', mram }.setMm p
                                (SimpleOs.pteSetSwap mm₃ vicpgn 0 swpfpn)) = _
                            rw [solo_bind, memphyPutFreefp_solo]
                            refine (install_solo (k := { k₂ with
                              activeMswp := SimpleOs.memphyPutFreefp activeMswp' (pagingSwp pte)
                              mram }.setMm p (SimpleOs.pteSetSwap mm₃ vicpgn 0 swpfpn))
                              pgn (pagingFpn vicpte) (Krnl.setMm_self _ _ _)).trans ?_
                            rw [Krnl.setMm_setMm]
                            rfl

theorem pgGetval_solo (addr : BitVec 32) (data junk : Byte) (h : k.ownMm p = some mm) :
    (pgGetval addr data p junk).solo k = SimpleOs.pgGetval k mm addr data p junk := by
  rw [pgGetval, solo_bind, pgGetpage_solo _ _ h, SimpleOs.pgGetval]
  cases SimpleOs.pgGetpage k mm (pagingPgn addr) p junk with
  | error e => rfl
  | ok res =>
      obtain ⟨k₁, r⟩ := res
      cases r with
      | none => rfl
      | some fpn =>
          show (syscall p 17 _ junk >>= _).solo k₁ = _
          rw [solo_bind, syscall_solo]
          rfl

theorem pgSetval_solo (addr : BitVec 32) (value junk : Byte) (h : k.ownMm p = some mm) :
    (pgSetval addr value p junk).solo k = SimpleOs.pgSetval k mm addr value p junk := by
  rw [pgSetval, solo_bind, pgGetpage_solo _ _ h, SimpleOs.pgSetval]
  cases SimpleOs.pgGetpage k mm (pagingPgn addr) p junk with
  | error e => rfl
  | ok res =>
      obtain ⟨k₁, r⟩ := res
      cases r with
      | none => rfl
      | some fpn =>
          show (syscall p 17 _ junk >>= _).solo k₁ = _
          rw [solo_bind, syscall_solo]
          rfl

theorem read_solo (vmaid rgid : Int) (offset : Addr) (data junk : Byte) :
    (read p vmaid rgid offset data junk).solo k =
      SimpleOs.read k p vmaid rgid offset data junk := by
  rw [read, solo_bind, loadOwn, solo_load, SimpleOs.read]
  cases h : k.ownMm p with
  | none => rfl
  | some mm =>
      simp only [Except.bind]
      cases getSymrgById rgid with
      | none => rfl
      | some rgid =>
          show (Code.attempt Site.plain _ >>= _).solo k = (readEntry k rgid >>= _)
          rw [solo_bind, solo_attempt]
          show Except.bind (readEntry k rgid >>= _) _ = _
          cases readEntry k rgid with
          | error e => rfl
          | ok ptr =>
              show Code.solo (Code.attempt (.entry p ptr offset) (fun k => do
                pure (k, ← loadEntry k ptr)) >>= fun currg =>
                  pgGetval ((currg.rgStart + offset).setWidth 32) data p junk >>= fun r =>
                    pure ((0, r.2) : Int × Byte)) k = (loadEntry k ptr >>= _)
              rw [solo_bind, solo_attempt]
              show Except.bind (loadEntry k ptr >>= _) _ = _
              cases loadEntry k ptr with
              | error e => rfl
              | ok currg =>
                  show (pgGetval _ data p junk >>= _).solo k = _
                  rw [solo_bind, pgGetval_solo _ _ _ h]
                  rfl

theorem write_solo (vmaid rgid : Int) (offset : Addr) (value junk : Byte) :
    (write p vmaid rgid offset value junk).solo k =
      SimpleOs.write k p vmaid rgid offset value junk := by
  rw [write, solo_bind, solo_lock, Except.bind, solo_bind, loadOwn, solo_load, SimpleOs.write]
  cases h : k.ownMm p with
  | none => rfl
  | some mm =>
      simp only [Except.bind]
      cases getSymrgById rgid with
      | none => rfl
      | some rgid =>
          cases mm.getVmaByNum vmaid with
          | none => rfl
          | some vma =>
              show (withOwn p _ >>= _).solo k = (mm.symrg rgid >>= _)
              rw [solo_bind, withOwn_solo _ h]
              cases mm.symrg rgid with
              | error e => rfl
              | ok currg =>
                  show (pgSetval _ value p junk >>= _).solo (k.setMm p mm) = _
                  rw [Krnl.setMm_own h, solo_bind, pgSetval_solo _ _ _ h]
                  show _ = (SimpleOs.pgSetval k mm _ value p junk >>= _)
                  cases SimpleOs.pgSetval k mm ((currg.rgStart + offset).setWidth 32) value p
                      junk with
                  | error e => rfl
                  | ok r => rfl

theorem alloc_solo (vmaid rgid : Int) (size : Addr) (junk : Byte) :
    (alloc p vmaid rgid size junk).solo k = SimpleOs.alloc k p vmaid rgid size junk := by
  rw [alloc, solo_bind, solo_lock, Except.bind, solo_bind, loadOwn, solo_load, SimpleOs.alloc]
  cases h : k.ownMm p with
  | none => rfl
  | some mm =>
      simp only [Except.bind]
      cases mm.getVmaByNum vmaid with
      | none => rfl
      | some curVma =>
          show Code.solo (withOwn p _ >>= _) k = _
          rw [solo_bind, withOwn_solo_ok _ h]
          obtain ⟨mm₁, r⟩ := getFreeVmrgArea mm vmaid (size.setWidth 32).toInt
          cases r with
          | some rgnode =>
              show Code.solo (withOwn p _ >>= _) (k.setMm p mm₁) = (mm₁.setSymrg rgid rgnode >>= _)
              rw [solo_bind, withOwn_solo _ (Krnl.setMm_self _ _ _)]
              cases mm₁.setSymrg rgid rgnode with
              | error e => rfl
              | ok mm₂ =>
                  show Except.ok (((k.setMm p mm₁).setMm p mm₂), _) = _
                  rw [Krnl.setMm_setMm]
                  rfl
          | none =>
              show Code.solo (Code.ofExcept _ >>= _) (k.setMm p mm₁) = (intResult _ >>= _)
              rw [solo_bind, solo_ofExcept]
              cases intResult (incSz size + 1) with
              | error e => rfl
              | ok _ =>
                  show Code.solo (syscall p 17 _ junk >>= _) (k.setMm p mm₁) =
                    (SimpleOs.syscall (k.setMm p mm₁) p 17 _ junk >>= _)
                  rw [solo_bind, syscall_solo]
                  cases SimpleOs.syscall (k.setMm p mm₁) p 17
                      { a1 := 2, a2 := BitVec.ofInt 64 vmaid, a3 := size } junk with
                  | error e => rfl
                  | ok res =>
                      obtain ⟨k₁, regs, ret⟩ := res
                      show _ = Except.bind (.ok (k₁, regs, ret)) _
                      simp only [Except.bind]
                      cases h₁ : k₁.ownMm p with
                      | none =>
                          rw [solo_bind, withOwn_solo_none _ h₁]
                          rfl
                      | some mm₂ =>
                          rw [solo_bind, withOwn_solo _ h₁]
                          show _ = (mm₂.setSymrg rgid
                            ⟨viaInt curVma.sbrk, viaInt curVma.sbrk + size⟩ >>= _)
                          cases mm₂.setSymrg rgid
                              ⟨viaInt curVma.sbrk, viaInt curVma.sbrk + size⟩ with
                          | error e => rfl
                          | ok mm₃ =>
                              show Code.solo (if regs.a3 > size then _ else _) (k₁.setMm p mm₃) =
                                (if regs.a3 > size then _ else _)
                              by_cases hgt : regs.a3 > size
                              · rw [if_pos hgt, if_pos hgt, solo_bind,
                                  withOwn_solo _ (Krnl.setMm_self _ _ _)]
                                cases enlistVmFreergList mm₃
                                    ⟨viaInt curVma.sbrk + size,
                                      viaInt curVma.sbrk + regs.a3⟩ with
                                | error e => rfl
                                | ok r =>
                                    show Except.ok ((k₁.setMm p mm₃).setMm p r.1, _) = _
                                    rw [Krnl.setMm_setMm]
                                    rfl
                              · rw [if_neg hgt, if_neg hgt]
                                rfl

theorem free_solo (vmaid rgid : Int) :
    (free p vmaid rgid).solo k = SimpleOs.free k p vmaid rgid := by
  rw [free, solo_bind, solo_lock, Except.bind, SimpleOs.free]
  show Code.solo (if _ then _ else _) k = _
  by_cases hb : rgid < 0 ∨ rgid > pagingMaxSymtblSz
  · rw [if_pos hb, if_pos hb]
    rfl
  · rw [if_neg hb, if_neg hb, solo_bind, loadOwn, solo_load]
    cases h : k.ownMm p with
    | none => rfl
    | some mm =>
        show Code.solo (withOwn p _ >>= _) k = (mm.symrg rgid >>= _)
        rw [solo_bind, withOwn_solo _ h]
        cases mm.symrg rgid with
        | error e => rfl
        | ok rgnode =>
            show Code.solo (if _ then _ else _) (k.setMm p mm) = (if _ then _ else _)
            rw [Krnl.setMm_own h]
            by_cases hz : rgnode.rgStart = 0 ∧ rgnode.rgEnd = 0
            · rw [if_pos hz, if_pos hz]
              rfl
            · rw [if_neg hz, if_neg hz]
              show Code.solo (withOwn p _ >>= _) k = (mm.setSymrg rgid _ >>= _)
              rw [solo_bind, withOwn_solo _ h]
              cases mm.setSymrg rgid { rgStart := 0, rgEnd := 0 } with
              | error e => rfl
              | ok mm₁ =>
                  show Code.solo (withOwn p _ >>= _) (k.setMm p mm₁) =
                    (enlistVmFreergList mm₁ rgnode >>= _)
                  rw [solo_bind, withOwn_solo _ (Krnl.setMm_self _ _ _)]
                  cases enlistVmFreergList mm₁ rgnode with
                  | error e => rfl
                  | ok r =>
                      show Except.ok ((k.setMm p mm₁).setMm p r.1, _) = _
                      rw [Krnl.setMm_setMm]
                      rfl

/-- With nobody in between, an instruction does what `exec` says. -/
theorem exec_solo (ins : Inst) (junk : Byte) :
    (exec p ins junk).solo k = SimpleOs.exec k p ins junk := by
  cases hop : ins.opcode
  case alloc =>
      simp only [exec, SimpleOs.exec, hop]
      rw [liballoc, solo_bind, alloc_solo, SimpleOs.liballoc]
      cases SimpleOs.alloc k p 0 (ins.arg1.setWidth 32).toInt ins.arg0 junk with
      | error e => rfl
      | ok r =>
          show Code.solo (if _ then _ else _) r.1 = (if _ then _ else _)
          split <;> rfl
  case free =>
      simp only [exec, SimpleOs.exec, hop]
      rw [libfree, solo_bind, free_solo, SimpleOs.libfree]
      cases SimpleOs.free k p 0 (ins.arg0.setWidth 32).toInt with
      | error e => rfl
      | ok r =>
          show Code.solo (if _ then _ else _) r.1 = (if _ then _ else _)
          split <;> rfl
  case read =>
      simp only [exec, SimpleOs.exec, hop]
      rw [solo_bind, libread, solo_bind, read_solo, SimpleOs.libread]
      cases SimpleOs.read k p 0 (ins.arg0.setWidth 32).toInt ins.arg1 junk junk with
      | error e => rfl
      | ok r => rfl
  case write =>
      simp only [exec, SimpleOs.exec, hop]
      rw [libwrite, solo_bind, write_solo, SimpleOs.libwrite]
      cases SimpleOs.write k p 0 (ins.arg1.setWidth 32).toInt ins.arg2 (ins.arg0.setWidth 8)
          junk with
      | error e => rfl
      | ok r =>
          show Code.solo (if _ then _ else _) r.1 = (if _ then _ else _)
          split <;> rfl
  case syscall =>
      simp only [exec, SimpleOs.exec, hop]
      rw [libsyscall, solo_bind, syscall_solo]
      rfl
  -- the remaining instructions are stubs
  all_goals
    simp only [exec, SimpleOs.exec, hop]
    rfl

end Solo

end Access

end SimpleOs
