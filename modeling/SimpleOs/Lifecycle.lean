/-
# `SimpleOs.Lifecycle` — which ids FREE accepts

An entry of the symbol table is unused when it reads (0, 0); there is no other
mark.  `init_mm` writes none of the entries, so a new process has in use
whatever `malloc` left there, and an ALLOC of no bytes at address 0 records a
region that reads as unused.

Where neither happens, `free_lawful`: in every run of the machine the entries in
use are the ids whose last successful operation was an ALLOC, and FREE accepts
these and moves their regions to the free list.
-/
import SimpleOs.AllocSize
import SimpleOs.ReadBack

namespace SimpleOs

/-! ## Entries in use -/

/-- The entry reads as unused. -/
def VmRg.Unused (rg : VmRg) : Prop := rg.rgStart = 0 ∧ rg.rgEnd = 0

instance (rg : VmRg) : Decidable rg.Unused := inferInstanceAs (Decidable (_ ∧ _))

/-- The last successful operation of `p` on id `r` was an ALLOC. -/
def Live (p : Pid) (r : BitVec 32) (log : Log) : Prop := (regionSize p r log).isSome

/-- The region the request is given starts at address 0 and has no bytes: it comes from the first
free region that fits the size as an `int`, or else from the break as an `int`. -/
def AllocAtZero (mm : Mm) (size : Addr) : Prop :=
  match mm.freerg.find? (fun g => g.Fits (viaInt size)) with
  | some g => g.rgStart = 0 ∧ viaInt size = 0
  | none => viaInt mm.sbrk = 0 ∧ size = 0

/-- The region is at the head of the free regions now; an empty one adds nothing. -/
def AddsOnce (rg : VmRg) (rgs rgs' : List VmRg) : Prop :=
  if rg.Empty then rgs' = rgs else rgs' = rg :: rgs

/-- FREE of any id in the table returns 0 iff the id is live; refused it changes nothing, accepted
it clears the entry and adds the region to the free regions. -/
def FreeLawful (k : Krnl) (p : Pid) (mm : Mm) (log : Log) : Prop :=
  ∀ (ins : Inst) (junk : Byte), ins.opcode = .free →
    (ins.arg0.setWidth 32).toNat < pagingMaxSymtblSz →
    ∃ k' st, exec k p ins junk = .ok (k', st) ∧
      (st = 0 ↔ Live p (ins.arg0.setWidth 32) log) ∧
      (st ≠ 0 → k' = k) ∧
      (st = 0 → ∃ mm', k'.ownMm p = some mm' ∧
        mm'.symrgtbl = Function.update mm.symrgtbl ins.freeId { rgStart := 0, rgEnd := 0 } ∧
        AddsOnce (mm.symrgtbl ins.freeId) mm.freerg mm'.freerg)

section Entries
variable {k k' : Krnl} {p q : Pid} {mm mm' : Mm} {ins : Inst} {junk : Byte} {st : Int}
  {r : BitVec 32} {log : Log}

theorem unused_prefix {a size : Addr} :
    VmRg.Unused { rgStart := a, rgEnd := a + size } ↔ a = 0 ∧ size = 0 := by
  constructor
  · rintro ⟨hstart, hend⟩
    have ha : a = 0 := hstart
    have hsum : a + size = 0 := hend
    rw [ha] at hsum
    exact ⟨ha, (BitVec.zero_add size).symm.trans hsum⟩
  · rintro ⟨rfl, rfl⟩
    exact ⟨rfl, rfl⟩

theorem not_allocAtZero {size : Addr} (h : viaInt size ≠ 0) : ¬ AllocAtZero mm size := by
  rw [AllocAtZero]
  split
  · exact fun hc => h hc.2
  · rintro ⟨_, rfl⟩
    exact h rfl

/-- The recorded region reads as unused iff the request was given no bytes at address 0. -/
theorem unused_iff_allocAtZero (hmm : k.ownMm p = some mm) (hs : mm.Single)
    (hp : ∀ g ∈ mm.freerg, g.Proper) (hop : ins.opcode = .alloc)
    (h : exec k p ins junk = .ok (k', st)) (hmm' : k'.ownMm p = some mm') :
    (mm'.symrgtbl ins.allocId).Unused ↔ AllocAtZero mm ins.arg0 := by
  obtain ⟨_, _, mm₁, hmm₁, _, hcase⟩ := exec_alloc_cases hmm hs hop h
  obtain rfl : mm₁ = mm' := Option.some.inj (hmm₁.symm.trans hmm')
  rcases hcase with ⟨rg, hf, _, hsym⟩ | ⟨hf, _, hsym⟩
  · obtain ⟨rgs, hfit, _⟩ := Mm.found_some hs hf
    obtain ⟨pre, g, post, hsplit, hpre, hg, rfl, _⟩ := firstFit_cases hfit
    rw [hsym, Function.update_self, AllocAtZero, hsplit, find?_fits_some hpre hg]
    exact unused_prefix
  · have hfit := (Mm.found_none hs (fun g hg => (hp g hg).ne_neg_one) hf).1
    rw [hsym, Function.update_self, AllocAtZero, find?_fits_none hfit]
    exact unused_prefix

theorem FreeLawful.status (h : FreeLawful k p mm log) (hop : ins.opcode = .free)
    (hid : (ins.arg0.setWidth 32).toNat < pagingMaxSymtblSz)
    (hst : (exec k p ins junk).toOption.map (·.2) = some st) :
    st = 0 ↔ Live p (ins.arg0.setWidth 32) log := by
  obtain ⟨k', st', hexec, hiff, _⟩ := h ins junk hop hid
  rw [hexec] at hst
  obtain rfl : st' = st := Option.some.inj hst
  exact hiff

/-! ## The log -/

/-- What another process does makes no id live. -/
theorem live_cons_of_ne (h : q ≠ p) : Live p r ((q, ins) :: log) ↔ Live p r log := by
  rw [Live, Live, regionSize, if_neg (fun hc => h hc.1), if_neg (fun hc => h hc.1)]

theorem live_alloc (hop : ins.opcode = .alloc) (hr : ins.arg1.setWidth 32 = r) :
    Live p r ((p, ins) :: log) := by
  rw [Live, regionSize, if_pos ⟨rfl, hop, hr⟩]
  rfl

theorem not_live_free (hop : ins.opcode = .free) (hr : ins.arg0.setWidth 32 = r) :
    ¬ Live p r ((p, ins) :: log) := by
  rw [Live, regionSize, if_neg (fun hc => by rw [hop] at hc; exact nomatch hc.2.1),
    if_pos ⟨rfl, hop, hr⟩]
  exact Bool.noConfusion

/-- An instruction that is about another id, or about none. -/
theorem live_cons_other (ha : ins.opcode = .alloc → ins.arg1.setWidth 32 ≠ r)
    (hf : ins.opcode = .free → ins.arg0.setWidth 32 ≠ r) :
    Live p r ((p, ins) :: log) ↔ Live p r log := by
  rw [Live, Live, regionSize, if_neg (fun hc => ha hc.2.1 hc.2.2),
    if_neg (fun hc => hf hc.2.1 hc.2.2)]

/-- A process that never ran has no live id. -/
theorem not_live_of_forall (h : ∀ ins, (p, ins) ∉ log) : ¬ Live p r log := by
  induction log with
  | nil => exact Bool.noConfusion
  | cons e log ih =>
      obtain ⟨q, ins⟩ := e
      have hq : q ≠ p := by
        rintro rfl
        exact h ins List.mem_cons_self
      rw [live_cons_of_ne hq]
      exact ih (fun ins' hin => h ins' (List.mem_cons_of_mem _ hin))

theorem Log.next_run {s : Sys} {c : Nat} (hc : s.cpu c = .restored p)
    (h : exec s.krnl p ins junk = .ok (k', st)) :
    log.next s (.run c ins junk) = if st = 0 then (p, ins) :: log else log := by
  simp only [Log.next, hc, h]
  split
  next heq =>
    obtain ⟨_, rfl⟩ := Prod.mk.inj (Except.ok.inj heq)
    rfl
  next hne =>
    rw [if_neg]
    rintro rfl
    exact hne _ rfl

/-- What an instruction does to the entries is what it does to the live ids. -/
theorem exec_live (hw : k.Wf) (hmm : k.ownMm p = some mm) (hp : ∀ g ∈ mm.freerg, g.Proper)
    (hzero : ins.opcode = .alloc → ¬ AllocAtZero mm ins.arg0)
    (h : exec k p ins junk = .ok (k', st)) (hmm' : k'.ownMm p = some mm')
    (hentry : ¬ (mm.symrgtbl r.toNat).Unused ↔ Live p r log) :
    ¬ (mm'.symrgtbl r.toNat).Unused ↔ Live p r (if st = 0 then (p, ins) :: log else log) := by
  have hs := (hw.own p mm hmm).single
  by_cases ha : ins.opcode = .alloc
  · obtain ⟨rfl, ⟨_, hid⟩, mm₁, hmm₁, _, hcase⟩ := exec_alloc_cases hmm hs ha h
    obtain rfl : mm₁ = mm' := Option.some.inj (hmm₁.symm.trans hmm')
    rw [if_pos rfl]
    by_cases heq : ins.arg1.setWidth 32 = r
    · have hused : ¬ (mm₁.symrgtbl r.toNat).Unused := by
        rw [← heq, ← hid, unused_iff_allocAtZero hmm hs hp ha h hmm']
        exact hzero ha
      exact iff_of_true hused (live_alloc ha heq)
    · have hne : r.toNat ≠ ins.allocId := by
        rw [hid]
        exact fun hn => heq (BitVec.eq_of_toNat_eq hn.symm)
      have hsame : mm₁.symrgtbl r.toNat = mm.symrgtbl r.toNat := by
        rcases hcase with ⟨_, _, _, hsym⟩ | ⟨_, _, hsym⟩
        all_goals rw [hsym, Function.update_of_ne hne]
      rw [hsame, hentry, live_cons_other (fun _ => heq) (fun hf => by rw [ha] at hf; cases hf)]
  by_cases hf : ins.opcode = .free
  · rcases exec_free_cases hmm hs hf h with
      ⟨rfl, rfl⟩ | ⟨rfl, ⟨_, hid⟩, _, mm₁, hmm₁, hsym, _⟩
    · obtain rfl : mm = mm' := Option.some.inj (hmm.symm.trans hmm')
      rw [if_neg (by decide)]
      exact hentry
    · obtain rfl : mm₁ = mm' := Option.some.inj (hmm₁.symm.trans hmm')
      rw [if_pos rfl, hsym]
      by_cases heq : ins.arg0.setWidth 32 = r
      · rw [← heq, ← hid, Function.update_self]
        exact iff_of_false (fun hn => hn ⟨rfl, rfl⟩) (not_live_free hf rfl)
      · have hne : r.toNat ≠ ins.freeId := by
          rw [hid]
          exact fun hn => heq (BitVec.eq_of_toNat_eq hn.symm)
        rw [Function.update_of_ne hne, hentry, live_cons_other (fun hop => absurd hop ha)
          (fun _ => heq)]
  · obtain ⟨mm₁, hmm₁, hsame, _⟩ := exec_sameRegions hw hmm ha hf h
    obtain rfl : mm₁ = mm' := Option.some.inj (hmm₁.symm.trans hmm')
    rw [hsame.sym, hentry]
    split
    · exact (live_cons_other (fun hop => absurd hop ha) (fun hop => absurd hop hf)).symm
    · exact Iff.rfl

end Entries

/-! ## In every run -/

/-- New processes find their entries unused, and no ALLOC is given an empty region at address
0. -/
def LifeOk (x : Sys × Log) : Event → Prop
  | .create _ _ symrgtbl => ∀ i < pagingMaxSymtblSz, (symrgtbl i).Unused
  | .run c ins _ => ∀ p mm, x.1.cpu c = .restored p → x.1.krnl.ownMm p = some mm →
      ins.opcode = .alloc → ¬ AllocAtZero mm ins.arg0
  | _ => True

/-- The entries in use are the live ids. -/
structure LifeInv (x : Sys × Log) : Prop where
  wf : x.1.Wf
  proper : ∀ p mm, x.1.krnl.ownMm p = some mm → ∀ g ∈ mm.freerg, g.Proper
  /-- Only processes that have been created are in the log. -/
  ran : ∀ p ins, (p, ins) ∈ x.2 → (x.1.krnl.ownMm p).isSome
  entry : ∀ p mm r, x.1.krnl.ownMm p = some mm → r.toNat < pagingMaxSymtblSz →
    (¬ (mm.symrgtbl r.toNat).Unused ↔ Live p r x.2)

section Runs
variable {memramsz memswpsz : Addr} {ramJunk swpJunk : Bool} {es : List Event} {s : Sys}
  {log : Log}

/-- Events that run no instruction keep structures and log. -/
theorem LifeInv.keep {x x' : Sys × Log} (h : LifeInv x) (hw : x'.1.Wf)
    (hown : x'.1.krnl.ownMm = x.1.krnl.ownMm) (hlog : x'.2 = x.2) : LifeInv x' := by
  refine ⟨hw, ?_, ?_, ?_⟩
  · rw [hown]; exact h.proper
  · rw [hown, hlog]; exact h.ran
  · rw [hown, hlog]; exact h.entry

theorem LifeInv.step {x x' : Sys × Log} {e : Event} (h : LifeInv x) (hok : LifeOk x e)
    (hstep : logStep x e = some x') : LifeInv x' := by
  obtain ⟨s', hs, rfl⟩ := Option.map_eq_some_iff.mp hstep
  have hw := h.wf.step hs
  cases e with
  | create p prio symrgtbl =>
      obtain ⟨_, hnone, rfl⟩ := step_create hs
      have hfresh : ∀ ins, (p, ins) ∉ x.2 := by
        intro ins hin
        have hsome := h.ran p ins hin
        rw [hnone] at hsome
        exact Bool.noConfusion hsome
      have hold : ∀ {q mm}, (x.1.krnl.setMm p (initMm symrgtbl)).ownMm q = some mm →
          (q = p ∧ mm = initMm symrgtbl) ∨ x.1.krnl.ownMm q = some mm := by
        intro q mm hmm
        by_cases hqp : q = p
        · subst hqp
          exact Or.inl ⟨rfl, (Option.some.inj ((Krnl.setMm_self _ q _).symm.trans hmm)).symm⟩
        · exact Or.inr ((Krnl.setMm_of_ne _ p _ hqp).symm.trans hmm)
      refine ⟨hw, ?_, ?_, ?_⟩
      · intro q mm hmm
        rcases hold hmm with ⟨rfl, rfl⟩ | hmm
        · exact initMm_proper symrgtbl
        · exact h.proper q mm hmm
      · intro q ins hin
        by_cases hqp : q = p
        · subst hqp
          exact absurd hin (hfresh ins)
        · show ((x.1.krnl.setMm p _).ownMm q).isSome
          rw [Krnl.setMm_of_ne _ p _ hqp]
          exact h.ran q ins hin
      · intro q mm r hmm hr
        rcases hold hmm with ⟨rfl, rfl⟩ | hmm
        · exact iff_of_false (fun hn => hn (hok r.toNat hr)) (not_live_of_forall hfresh)
        · exact h.entry q mm r hmm hr
  | add => obtain ⟨_, _, _, _, rfl⟩ := step_add hs; exact h.keep hw rfl rfl
  | get c => obtain ⟨_, ⟨_, rfl⟩ | ⟨_, _, rfl⟩⟩ := step_get hs <;> exact h.keep hw rfl rfl
  | put c => obtain ⟨_, _, _, _, rfl⟩ := step_put hs; exact h.keep hw rfl rfl
  | finish c => obtain ⟨_, _, rfl⟩ := step_finish hs; exact h.keep hw rfl rfl
  | restore c => obtain ⟨_, _, rfl⟩ := step_restore hs; exact h.keep hw rfl rfl
  | run c ins junk =>
      obtain ⟨p, k', st, hc, hrun, rfl⟩ := step_run hs
      obtain ⟨mm₀, hmm₀⟩ := Option.isSome_iff_exists.mp (h.wf.held c p (by rw [hc]; rfl))
      have hlog : x.2.next x.1 (.run c ins junk) = if st = 0 then (p, ins) :: x.2 else x.2 :=
        Log.next_run hc hrun
      have hold : ∀ {q mm}, q ≠ p → k'.ownMm q = some mm → x.1.krnl.ownMm q = some mm :=
        fun hqp hmm => (exec_ownMm_of_ne h.wf.krnl hmm₀ hqp hrun).symm.trans hmm
      refine ⟨hw, ?_, ?_, ?_⟩
      · intro q mm hmm
        by_cases hqp : q = p
        · subst hqp
          obtain ⟨mm₁, hmm₁, hstep⟩ := exec_regions h.wf.krnl hmm₀ hrun
          obtain rfl : mm₁ = mm := Option.some.inj (hmm₁.symm.trans hmm)
          exact hstep.proper (h.wf.krnl.own q mm₀ hmm₀).single (h.proper q mm₀ hmm₀)
        · exact h.proper q mm (hold hqp hmm)
      · intro q ins' hin
        have hmem : q = p ∨ (q, ins') ∈ x.2 := by
          have hin' : (q, ins') ∈ x.2.next x.1 (.run c ins junk) := hin
          rw [hlog] at hin'
          split at hin'
          · rcases List.mem_cons.mp hin' with heq | hin'
            · exact Or.inl (Prod.mk.inj heq).1
            · exact Or.inr hin'
          · exact Or.inr hin'
        refine exec_ownMm_isSome h.wf.krnl hmm₀ hrun ?_
        rcases hmem with rfl | hin'
        · rw [hmm₀]
          rfl
        · exact h.ran q ins' hin'
      · intro q mm r hmm hr
        show _ ↔ Live q r (x.2.next x.1 (.run c ins junk))
        rw [hlog]
        by_cases hqp : q = p
        · subst hqp
          exact exec_live h.wf.krnl hmm₀ (h.proper q mm₀ hmm₀) (hok q mm₀ hc hmm₀) hrun hmm
            (h.entry q mm₀ r hmm₀ hr)
        · rw [h.entry q mm r (hold hqp hmm) hr]
          split
          · exact (live_cons_of_ne (fun heq => hqp heq.symm)).symm
          · exact Iff.rfl

/-- In a state whose entries in use are the live ids FREE is lawful. -/
theorem LifeInv.freeLawful {x : Sys × Log} {p : Pid} {mm : Mm} (h : LifeInv x)
    (hmm : x.1.krnl.ownMm p = some mm) : FreeLawful x.1.krnl p mm x.2 := by
  intro ins junk hop hid
  have hs := (h.wf.krnl.own p mm hmm).single
  have hint : (ins.arg0.setWidth 32 : BitVec 32).toInt = (ins.arg0.setWidth 32).toNat := by
    rw [BitVec.toInt_eq_toNat_cond, if_pos]
    simp only [pagingMaxSymtblSz] at hid
    omega
  have hfreeId : ins.freeId = (ins.arg0.setWidth 32).toNat := by
    rw [Inst.freeId, hint, Int.toNat_natCast]
  have hlive : ¬ (mm.symrgtbl ins.freeId).Unused ↔ Live p (ins.arg0.setWidth 32) x.2 := by
    rw [hfreeId]
    exact h.entry p mm _ hmm hid
  have hfree := @free_inTable x.1.krnl p mm (ins.arg0.setWidth 32).toInt hmm hs (by omega)
    (by omega)
  by_cases hunused : (mm.symrgtbl ins.freeId).Unused
  · have hexec : exec x.1.krnl p ins junk = .ok (x.1.krnl, -1) := by
      simp only [exec, hop, libfree, hfree.trans (if_pos hunused)]
      rfl
    refine ⟨_, _, hexec, iff_of_false (by decide) (fun hl => hlive.mpr hl hunused),
      fun _ => rfl, ?_⟩
    exact fun h0 => absurd h0 (by decide)
  · have hexec : exec x.1.krnl p ins junk = .ok (x.1.krnl.setMm p ((mm.setEntry ins.freeId
        { rgStart := 0, rgEnd := 0 }).enlistFree (mm.symrgtbl ins.freeId)), 0) := by
      simp only [exec, hop, libfree, hfree.trans (if_neg hunused)]
      rfl
    refine ⟨_, _, hexec, iff_of_true rfl (hlive.mp hunused), fun h0 => absurd rfl h0, fun _ => ?_⟩
    rcases exec_free_cases hmm hs hop hexec with
      ⟨hst, _⟩ | ⟨_, _, _, mm', hmm', hsym, hfreerg, _⟩
    · exact absurd hst (by decide)
    · refine ⟨mm', hmm', hsym, ?_⟩
      rw [AddsOnce]
      split
      next hempty => exact hfreerg.trans (if_pos hempty)
      next hempty => exact hfreerg.trans (if_neg hempty)

end Runs

/-- In every run in which new processes find their entries unused and no ALLOC is given an empty
region at address 0, FREE is lawful for every process. -/
theorem free_lawful (memramsz memswpsz : Addr) (ramJunk swpJunk : Bool) (es : List Event)
    (s : Sys) (log : Log)
    (h : Lts.Run logStep LifeOk (boot memramsz memswpsz ramJunk swpJunk, []) es (s, log))
    (p : Pid) (mm : Mm) (hmm : s.krnl.ownMm p = some mm) : FreeLawful s.krnl p mm log := by
  have hboot : LifeInv (boot memramsz memswpsz ramJunk swpJunk, []) := by
    refine ⟨boot_wf _ _ _ _, ?_, ?_, ?_⟩
    · intro q own hown
      exact nomatch (hown : none = some own)
    · intro q ins hin
      exact nomatch hin
    · intro q own r hown
      exact nomatch (hown : none = some own)
  have hinv : LifeInv (s, log) :=
    h.invariant hboot (fun _ _ _ hinv hok hstep => hinv.step hok hstep)
  exact hinv.freeLawful hmm

/-- A process that has allocated 300 bytes frees them. -/
theorem free_lawful_live : ∃ s log mm k',
    Lts.Run logStep LifeOk (boot 1024 512 true true, [])
      (loadOn 0 0 ++ [.run 0 ⟨.alloc, 300, 3, 0, 0⟩ 0]) (s, log) ∧
    s.krnl.ownMm 0 = some mm ∧ exec s.krnl 0 ⟨.free, 3, 0, 0, 0⟩ 0 = .ok (k', 0) := by
  obtain ⟨⟨s, log⟩, hs⟩ := Option.isSome_iff_exists.mp
    (by decide +kernel : (Lts.exec logStep (boot 1024 512 true true, [])
      (loadOn 0 0 ++ [.run 0 ⟨.alloc, 300, 3, 0, 0⟩ 0])).isSome)
  have hok : ∀ e ∈ loadOn 0 0 ++ [.run 0 ⟨.alloc, 300, 3, 0, 0⟩ 0], ∀ x, LifeOk x e := by
    intro e he x
    simp only [loadOn, List.cons_append, List.nil_append, List.mem_cons, List.not_mem_nil,
      or_false] at he
    rcases he with rfl | rfl | rfl | rfl | rfl
    · exact fun _ _ => ⟨rfl, rfl⟩
    · trivial
    · trivial
    · trivial
    · exact fun _ mm _ _ _ => not_allocAtZero (by decide)
  have hrun := (Lts.reaches_of_exec hs).of_reaches hok
  have hsome : (s.krnl.ownMm 0).isSome = true :=
    Lts.exec_map (g := fun x => (x.1.krnl.ownMm 0).isSome) hs (by decide +kernel)
  have hlive : (regionSize 0 3 log).isSome = true :=
    Lts.exec_map (g := fun x => (regionSize 0 3 x.2).isSome) hs (by decide +kernel)
  obtain ⟨mm, hmm⟩ := Option.isSome_iff_exists.mp hsome
  obtain ⟨k', st, hexec, hiff, _⟩ := free_lawful 1024 512 true true _ s log hrun 0 mm hmm
    ⟨.free, 3, 0, 0, 0⟩ 0 rfl (by decide)
  obtain rfl : st = 0 := hiff.mpr hlive
  exact ⟨s, log, mm, k', hrun, hmm, hexec⟩

/-- `malloc` left [4096, 8192) in entry 5: FREE of an id that was never allocated returns 0.  And
an id given an empty region at address 0 cannot be freed. -/
theorem free_unlawful :
    (∃ es s log mm, Lts.Reaches logStep (boot 1024 512 true true, []) es (s, log) ∧
      s.krnl.ownMm 0 = some mm ∧ ¬ Live 0 5 log ∧ ¬ FreeLawful s.krnl 0 mm log) ∧
    (∃ es s log mm, Lts.Reaches logStep (boot 1024 512 true true, []) es (s, log) ∧
      s.krnl.ownMm 0 = some mm ∧ Live 0 5 log ∧ ¬ FreeLawful s.krnl 0 mm log) := by
  refine ⟨⟨[.create 0 0 (fun _ => ⟨4096, 8192⟩)], ?_⟩,
    ⟨loadOn 0 0 ++ [.run 0 ⟨.alloc, 0, 5, 0, 0⟩ 0], ?_⟩⟩
  · obtain ⟨⟨s, log⟩, hs⟩ := Option.isSome_iff_exists.mp
      (by decide +kernel : (Lts.exec logStep (boot 1024 512 true true, [])
        [.create 0 0 (fun _ => ⟨4096, 8192⟩)]).isSome)
    have hdead : (regionSize 0 5 log).isSome = false :=
      Lts.exec_map (g := fun x => (regionSize 0 5 x.2).isSome) hs (by decide +kernel)
    have hst : (exec s.krnl 0 ⟨.free, 5, 0, 0, 0⟩ 0).toOption.map (·.2) = some 0 :=
      Lts.exec_map (g := fun x => (exec x.1.krnl 0 ⟨.free, 5, 0, 0, 0⟩ 0).toOption.map (·.2)) hs
        (by decide +kernel)
    have hsome : (s.krnl.ownMm 0).isSome = true :=
      Lts.exec_map (g := fun x => (x.1.krnl.ownMm 0).isSome) hs (by decide +kernel)
    obtain ⟨mm, hmm⟩ := Option.isSome_iff_exists.mp hsome
    refine ⟨s, log, mm, Lts.reaches_of_exec hs, hmm, ?_, ?_⟩
    · rw [Live, hdead]
      exact Bool.noConfusion
    · intro hlaw
      have hlive : Live 0 5 log := (hlaw.status rfl (by decide) hst).mp rfl
      rw [Live, hdead] at hlive
      exact Bool.noConfusion hlive
  · obtain ⟨⟨s, log⟩, hs⟩ := Option.isSome_iff_exists.mp
      (by decide +kernel : (Lts.exec logStep (boot 1024 512 true true, [])
        (loadOn 0 0 ++ [.run 0 ⟨.alloc, 0, 5, 0, 0⟩ 0])).isSome)
    have hlive : (regionSize 0 5 log).isSome = true :=
      Lts.exec_map (g := fun x => (regionSize 0 5 x.2).isSome) hs (by decide +kernel)
    have hst : (exec s.krnl 0 ⟨.free, 5, 0, 0, 0⟩ 0).toOption.map (·.2) = some (-1) :=
      Lts.exec_map (g := fun x => (exec x.1.krnl 0 ⟨.free, 5, 0, 0, 0⟩ 0).toOption.map (·.2)) hs
        (by decide +kernel)
    have hsome : (s.krnl.ownMm 0).isSome = true :=
      Lts.exec_map (g := fun x => (x.1.krnl.ownMm 0).isSome) hs (by decide +kernel)
    obtain ⟨mm, hmm⟩ := Option.isSome_iff_exists.mp hsome
    refine ⟨s, log, mm, Lts.reaches_of_exec hs, hmm, hlive, ?_⟩
    intro hlaw
    exact absurd ((hlaw.status rfl (by decide) hst).mpr hlive) (by decide)

end SimpleOs
