/-
# `SimpleOs.Guard` — what `mmvm_lock` guards

The lists of the two devices, and for every process its replacement list and its entries
(`Krnl.shared`).  Frames on the lists are distinct, and an entry is zero or present.

`exec_sound` goes through the code of `Access` once.  `__alloc`, `__free` and `__write` hold the
lock for all they do.  `__read` and `libsyscall` do not take it; `Site.Ok` says, access by
access, when they leave everything alone all the same: `__read` when its page has an entry or
there is no page to evict, a mapping request when it clears entries that are zero, a growth
when there is no free frame to take.
-/
import SimpleOs.Access
import SimpleOs.Fault

namespace SimpleOs

open Mutex

/-! ## What is guarded -/

/-- A process's replacement list and its entries. -/
structure Part where
  fifoPgn : List Nat
  pte : Nat → BitVec 32

def Mm.part (mm : Mm) : Part := ⟨mm.fifoPgn, mm.pte⟩

/-- The part of a process; without an `own_mm` it is that of a new one. -/
def Krnl.part (k : Krnl) (p : Pid) : Part :=
  match k.ownMm p with
  | none => ⟨[], fun _ => 0⟩
  | some mm => mm.part

/-- Everything that `mmvm_lock` guards. -/
structure Shared where
  free : Dev → List Nat
  used : Dev → List Nat
  part : Pid → Part

def Krnl.shared (k : Krnl) : Shared where
  free d := (k.dev d).freeFpList.fpns
  used d := (k.dev d).usedFpList
  part := k.part

/-- No frame is listed twice, and an entry is zero or present. -/
structure Shared.Ok (v : Shared) : Prop where
  nodup : ∀ d, (v.free d ++ v.used d).Nodup
  pte : ∀ p pgn, (v.part p).pte pgn = 0 ∨ pagingPagePresent ((v.part p).pte pgn) = true

/-- When an access without the lock is the start of nothing that changes what is guarded. -/
def Site.Ok : Site → Krnl → Prop
  | .plain, _ => True
  | .entry caller ptr offset, k =>
      match loadEntry k ptr with
      | .error _ => True
      | .ok currg =>
          (k.part caller).pte (pagingPgn ((currg.rgStart + offset).setWidth 32)) ≠ 0 ∨
            (k.part caller).fifoPgn = []
  | .scan pid regs, k =>
      findCaller k pid ≠ none → (regs.a1.setWidth 32).toInt = sysmemMapOp →
        ∀ i < (regs.a3.setWidth 32).toInt.toNat,
          (k.part pid).pte ((viaU32 regs.a2).toNat / pagingPagesz + i) = 0
  | .head d, k => (k.dev d).freeFpList.fpns = []

instance (site : Site) (k : Krnl) : Decidable (site.Ok k) :=
  match site with
  | .plain => isTrue trivial
  | .entry caller ptr offset =>
      match h : loadEntry k ptr with
      | .error _ => isTrue (by simp only [Site.Ok, h])
      | .ok currg =>
          decidable_of_iff
            ((k.part caller).pte (pagingPgn ((currg.rgStart + offset).setWidth 32)) ≠ 0 ∨
              (k.part caller).fifoPgn = []) (by simp only [Site.Ok, h])
  | .scan _ _ => inferInstanceAs (Decidable (_ → _ → _))
  | .head _ => inferInstanceAs (Decidable (_ = _))

/-- The lock with what it guards; no access touches the scheduler or makes a process. -/
def mmvmLock : Spec Site Krnl Shared Pid Part (Sched × (Pid → Bool)) where
  view := Krnl.shared
  part p v := v.part p
  inv := Shared.Ok
  ok := Site.Ok
  fixed k := (k.sched, fun p => (k.ownMm p).isSome)

theorem boot_shared_ok (memramsz memswpsz : Addr) (ramJunk swpJunk : Bool) :
    (boot memramsz memswpsz ramJunk swpJunk).krnl.shared.Ok where
  nodup := by
    have hnew : ∀ (maxSize : Addr) (junk : Bool),
        ((initMemphy maxSize true junk).freeFpList.fpns ++
          (initMemphy maxSize true junk).usedFpList).Nodup := by
      intro maxSize junk
      have hused : (initMemphy maxSize true junk).usedFpList = [] := by
        simp only [initMemphy, memphyFormat]
        split <;> rfl
      rw [hused, List.append_nil, initMemphy_fpns]
      exact List.nodup_range
    intro d
    cases d with
    | ram => exact hnew memramsz ramJunk
    | swp => exact hnew memswpsz swpJunk
  pte := fun _ _ => Or.inl rfl

/-! ## What an access does to it -/

/-- The lists of a device. -/
def Memphy.lists (mp : Memphy) : FpList × List Nat := (mp.freeFpList, mp.usedFpList)

theorem memphyRead_lists {mp mp' : Memphy} {addr : Nat} {value value' : Byte} {st : Int}
    (h : memphyRead mp addr value = .ok (mp', st, value')) : mp'.lists = mp.lists := by
  rw [memphyRead] at h
  split at h
  · split at h
    · cases h; rfl
    · cases h
  · rw [memphySeqRead] at h
    split at h
    · cases h; rfl
    · split at h
      · cases h; rfl
      · cases h

theorem memphyWrite_lists {mp mp' : Memphy} {addr : Nat} {data : Byte} {st : Int}
    (h : memphyWrite mp addr data = .ok (mp', st)) : mp'.lists = mp.lists := by
  rw [memphyWrite] at h
  split at h
  · split at h
    · cases h; rfl
    · cases h
  · rw [memphySeqWrite] at h
    split at h
    · cases h; rfl
    · split at h
      · cases h; rfl
      · cases h

theorem swapCpPage_lists {mpsrc mpdst : Memphy} {srcfpn dstfpn : Nat} {junk : Byte}
    {r : Memphy × Memphy} (h : swapCpPage mpsrc srcfpn mpdst dstfpn junk = .ok r) :
    r.1.lists = mpsrc.lists ∧ r.2.lists = mpdst.lists := by
  rw [swapCpPage] at h
  generalize List.range pagingPagesz = cells at h
  induction cells generalizing mpsrc mpdst with
  | nil => cases h; exact ⟨rfl, rfl⟩
  | cons cellidx cells ih =>
      rw [List.foldlM_cons, bind_ok] at h
      obtain ⟨⟨mpsrc', mpdst'⟩, hcell, hrest⟩ := h
      rw [bind_ok] at hcell
      obtain ⟨⟨mp, st, data⟩, hread, hcell⟩ := hcell
      rw [bind_ok] at hcell
      obtain ⟨⟨mp', st'⟩, hwrite, hret⟩ := hcell
      cases hret
      obtain ⟨hsrc, hdst⟩ := ih hrest
      exact ⟨hsrc.trans (memphyRead_lists hread), hdst.trans (memphyWrite_lists hwrite)⟩

section Accesses
variable {k : Krnl} {p : Pid} {mm mm' : Mm}

theorem Krnl.part_of (h : k.ownMm p = some mm) : k.part p = mm.part := by
  rw [Krnl.part, h]

theorem Shared.Ok.pteOk (h : k.shared.Ok) (hmm : k.ownMm p = some mm) : mm.PteOk := by
  intro pgn
  have hpte := h.pte p pgn
  rwa [show k.shared.part p = mm.part from Krnl.part_of hmm] at hpte

theorem Krnl.setMm_part_of_ne {q : Pid} (h : q ≠ p) : (k.setMm p mm).part q = k.part q := by
  rw [Krnl.part, Krnl.setMm_of_ne _ _ _ h, Krnl.part]

theorem fixed_setMm (h : k.ownMm p = some mm) :
    mmvmLock.fixed (k.setMm p mm') = mmvmLock.fixed k := by
  show (k.sched, _) = (k.sched, _)
  congr 1
  funext q
  by_cases hq : q = p
  · subst hq
    rw [Krnl.setMm_self, h]
    rfl
  · rw [Krnl.setMm_of_ne _ _ _ hq]

/-- A structure that looks the same is stored. -/
theorem same_setMm (h : k.ownMm p = some mm) (hpart : mm'.part = mm.part) :
    mmvmLock.Same k (k.setMm p mm') where
  fixed := fixed_setMm h
  view := by
    have hall : (k.setMm p mm').part = k.part := by
      funext q
      by_cases hq : q = p
      · subst hq
        rw [Krnl.part_of (Krnl.setMm_self _ _ _), Krnl.part_of h, hpart]
      · exact Krnl.setMm_part_of_ne hq
    show Krnl.shared _ = Krnl.shared _
    simp only [Krnl.shared, hall]
    rfl

/-- A structure with good entries is stored. -/
theorem safe_setMm (h : k.ownMm p = some mm) (hok : k.shared.Ok) (hz : mm'.PteOk) :
    mmvmLock.Safe p k (k.setMm p mm') where
  fixed := fixed_setMm h
  inv := {
    nodup := by
      intro d
      have hd := hok.nodup d
      cases d <;> exact hd
    pte := by
      intro q pgn
      show ((k.setMm p mm').part q).pte pgn = 0 ∨
        pagingPagePresent (((k.setMm p mm').part q).pte pgn) = true
      by_cases hq : q = p
      · subst hq
        rw [Krnl.part_of (Krnl.setMm_self _ _ _)]
        exact hz pgn
      · rw [Krnl.setMm_part_of_ne hq]
        exact hok.pte q pgn }
  part := fun _ hq => Krnl.setMm_part_of_ne hq

/-- A device whose lists are good is stored. -/
theorem safe_setDev {d : Dev} {mp : Memphy} (hok : k.shared.Ok)
    (hnodup : (mp.freeFpList.fpns ++ mp.usedFpList).Nodup) :
    mmvmLock.Safe p k (k.setDev d mp) := by
  have hram := hok.nodup .ram
  have hswp := hok.nodup .swp
  cases d with
  | ram =>
      exact ⟨rfl, ⟨fun d => by cases d; exacts [hnodup, hswp], hok.pte⟩, fun _ _ => rfl⟩
  | swp =>
      exact ⟨rfl, ⟨fun d => by cases d; exacts [hram, hnodup], hok.pte⟩, fun _ _ => rfl⟩

/-- The bytes of the devices are not guarded. -/
theorem same_bytes {mram activeMswp : Memphy} (hram : mram.lists = k.mram.lists)
    (hswp : activeMswp.lists = k.activeMswp.lists) :
    mmvmLock.Same k { k with mram, activeMswp } where
  fixed := rfl
  view := by
    obtain ⟨hfree, hused⟩ := Prod.mk.inj hram
    obtain ⟨hfree', hused'⟩ := Prod.mk.inj hswp
    show Krnl.shared _ = Krnl.shared _
    simp only [Krnl.shared]
    congr 1
    · funext d
      cases d with
      | ram => exact congrArg FpList.fpns hfree
      | swp => exact congrArg FpList.fpns hfree'
    · funext d
      cases d with
      | ram => exact hused
      | swp => exact hused'

end Accesses

namespace Access

section Rules
variable {p : Pid} {own : Part} {α : Type} {R : α → Prop} {f : Mm → Except Ub (Mm × α)}

theorem withOwn_ok {k k' : Krnl} {a : α}
    (h : (match k.ownMm p with
      | none => .error .wildPointer
      | some mm => do
          let (mm, a) ← f mm
          pure (k.setMm p mm, a) : Except Ub (Krnl × α)) = .ok (k', a)) :
    ∃ mm mm', k.ownMm p = some mm ∧ f mm = .ok (mm', a) ∧ k' = k.setMm p mm' := by
  cases hmm : k.ownMm p with
  | none =>
      rw [hmm] at h
      exact nomatch h
  | some mm =>
      simp only [hmm, bind_ok] at h
      obtain ⟨⟨mm', b⟩, hf, hret⟩ := h
      cases hret
      exact ⟨mm, mm', rfl, hf, rfl⟩

/-- What nobody else can see of the structure may change at any time. -/
theorem withOwn_quiet (hf : ∀ mm mm' a, mm.PteOk → f mm = .ok (mm', a) →
    mm'.part = mm.part ∧ R a) : mmvmLock.Quiet p (withOwn p f) R := by
  refine .attempt fun k k' a hok hk => ?_
  obtain ⟨mm, mm', hmm, hfm, rfl⟩ := withOwn_ok hk
  obtain ⟨hpart, ha⟩ := hf mm mm' a (Shared.Ok.pteOk hok hmm) hfm
  exact ⟨same_setMm hmm hpart, ha⟩

/-- Under the lock the structure may change. -/
theorem withOwn_keeps (hf : ∀ mm mm' a, mm.PteOk → f mm = .ok (mm', a) → mm'.PteOk ∧ R a) :
    mmvmLock.Keeps p (withOwn p f) R := by
  refine .attempt fun k k' a hok hk => ?_
  obtain ⟨mm, mm', hmm, hfm, rfl⟩ := withOwn_ok hk
  obtain ⟨hz, ha⟩ := hf mm mm' a (Shared.Ok.pteOk hok hmm) hfm
  exact ⟨safe_setMm hmm hok hz, ha⟩

/-- Without the lock a process still knows its own part. -/
theorem withOwn_idle (hf : ∀ mm mm' a, mm.PteOk → mm.part = own → f mm = .ok (mm', a) →
    mm'.part = mm.part ∧ R a) : mmvmLock.Idle p (.free own) (withOwn p f) R := by
  refine .attempt fun k k' a hok hown _ hk => ?_
  obtain ⟨mm, mm', hmm, hfm, rfl⟩ := withOwn_ok hk
  obtain ⟨hpart, ha⟩ :=
    hf mm mm' a (Shared.Ok.pteOk hok hmm) ((Krnl.part_of hmm).symm.trans hown) hfm
  exact ⟨same_setMm hmm hpart, ha⟩

theorem loadOwn_quiet : mmvmLock.Quiet p (loadOwn p) (fun _ => True) := .load fun _ _ => trivial

end Rules

end Access

end SimpleOs
