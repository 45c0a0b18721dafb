/-
# `SimpleOs.Reach` — runs of the machine

One inversion lemma per event, the invariant `Sys.Wf` of every reachable state,
and the rule for properties of the kernel: `Stable.reach`.
-/
import SimpleOs.Rule
import SimpleOs.Lib.Run

namespace SimpleOs

/-! ## What an event does -/

section Step
variable {s s' : Sys}

theorem step_create {p : Pid} {prio : Nat} {symrgtbl : Nat → VmRg}
    (h : step s (.create p prio symrgtbl) = some s') :
    s.pending = none ∧ s.krnl.ownMm p = none ∧
    s' = { s with
      krnl := { s.krnl.setMm p (initMm symrgtbl) with mm := some p }
      prio := Function.update s.prio p prio
      pending := some p } := by
  simp only [step] at h
  split at h
  next hc =>
    cases h
    exact ⟨Option.isNone_iff_eq_none.mp hc.1, Option.isNone_iff_eq_none.mp hc.2, rfl⟩
  next => exact nomatch h

theorem step_add (h : step s .add = some s') :
    ∃ p sched, s.pending = some p ∧ addProc s.krnl.sched p (s.prio p) = .ok sched ∧
      s' = { s.setSched sched with pending := none, live := s.live ++ [p] } := by
  simp only [step] at h
  split at h
  next => exact nomatch h
  next p hp =>
    split at h
    next => exact nomatch h
    next sched hs => cases h; exact ⟨p, sched, hp, hs, rfl⟩

theorem step_get {c : Nat} (h : step s (.get c) = some s') :
    s.cpu c = .idle ∧
    (((getProc s.krnl.sched).2 = none ∧ s' = s.setSched (getProc s.krnl.sched).1) ∨
     (∃ p, (getProc s.krnl.sched).2 = some p ∧
      s' = (s.setSched (getProc s.krnl.sched).1).setCpu c (.holding p))) := by
  simp only [step] at h
  split at h
  next hc =>
    refine ⟨hc, ?_⟩
    split at h
    next sched hg => cases h; rw [hg]; exact Or.inl ⟨rfl, rfl⟩
    next sched p hg => cases h; rw [hg]; exact Or.inr ⟨p, rfl, rfl⟩
  next => exact nomatch h

theorem step_put {c : Nat} (h : step s (.put c) = some s') :
    ∃ p sched, s.cpu c = .holding p ∧ putProc s.krnl.sched p (s.prio p) = .ok sched ∧
      s' = (s.setSched sched).setCpu c .idle := by
  simp only [step] at h
  split at h
  next p hc =>
    split at h
    next => exact nomatch h
    next sched hs => cases h; exact ⟨p, sched, hc, hs, rfl⟩
  next => exact nomatch h

theorem step_finish {c : Nat} (h : step s (.finish c) = some s') :
    ∃ p, s.cpu c = .holding p ∧
      s' = { (s.setSched (removeProc s.krnl.sched p)).setCpu c .idle with
        live := s.live.erase p } := by
  simp only [step] at h
  split at h
  next p hc => cases h; exact ⟨p, hc, rfl⟩
  next => exact nomatch h

theorem step_restore {c : Nat} (h : step s (.restore c) = some s') :
    ∃ p, s.cpu c = .holding p ∧
      s' = ({ s with krnl := { s.krnl with
        mm := if (s.krnl.ownMm p).isSome then some p else s.krnl.mm } } : Sys).setCpu c
          (.restored p) := by
  simp only [step] at h
  split at h
  next p hc => cases h; exact ⟨p, hc, rfl⟩
  next => exact nomatch h

theorem step_run {c : Nat} {ins : Inst} {junk : Byte} (h : step s (.run c ins junk) = some s') :
    ∃ p k' st, s.cpu c = .restored p ∧ exec s.krnl p ins junk = .ok (k', st) ∧
      s' = ({ s with krnl := k' } : Sys).setCpu c (.holding p) := by
  simp only [step] at h
  split at h
  next p hc =>
    split at h
    next => exact nomatch h
    next k' st hs => cases h; exact ⟨p, k', st, hc, hs, rfl⟩
  next => exact nomatch h

end Step

/-! ## What can be done -/

section Enabled
variable {s : Sys} {c : Nat} {p : Pid} {sched : Sched}

theorem step_create_of {prio : Nat} {symrgtbl : Nat → VmRg} (hpend : s.pending = none)
    (hnone : s.krnl.ownMm p = none) : step s (.create p prio symrgtbl) = some { s with
      krnl := { s.krnl.setMm p (initMm symrgtbl) with mm := some p }
      prio := Function.update s.prio p prio
      pending := some p } := by
  rw [step, hpend, hnone]
  rfl

theorem step_add_of (hpend : s.pending = some p)
    (hadd : addProc s.krnl.sched p (s.prio p) = .ok sched) : step s .add =
      some { s.setSched sched with pending := none, live := s.live ++ [p] } := by
  simp only [step, hpend, hadd]

theorem step_get_none (hc : s.cpu c = .idle) (hget : getProc s.krnl.sched = (sched, none)) :
    step s (.get c) = some (s.setSched sched) := by
  simp only [step, hc, hget]

theorem step_get_some (hc : s.cpu c = .idle) (hget : getProc s.krnl.sched = (sched, some p)) :
    step s (.get c) = some ((s.setSched sched).setCpu c (.holding p)) := by
  simp only [step, hc, hget]

theorem step_put_of (hc : s.cpu c = .holding p)
    (hput : putProc s.krnl.sched p (s.prio p) = .ok sched) :
    step s (.put c) = some ((s.setSched sched).setCpu c .idle) := by
  simp only [step, hc, hput]

theorem step_finish_of (hc : s.cpu c = .holding p) : step s (.finish c) =
    some { (s.setSched (removeProc s.krnl.sched p)).setCpu c .idle with
      live := s.live.erase p } := by
  simp only [step, hc]

theorem step_restore_of (hc : s.cpu c = .holding p) : step s (.restore c) =
    some (({ s with krnl := { s.krnl with
      mm := if (s.krnl.ownMm p).isSome then some p else s.krnl.mm } } : Sys).setCpu c
        (.restored p)) := by
  simp only [step, hc]

theorem step_run_of {ins : Inst} {junk : Byte} {krnl : Krnl} {st : Int}
    (hc : s.cpu c = .restored p) (hexec : exec s.krnl p ins junk = .ok (krnl, st)) :
    step s (.run c ins junk) = some (({ s with krnl } : Sys).setCpu c (.holding p)) := by
  simp only [step, hc, hexec]

end Enabled

/-! ## The invariant of the machine -/

/-- What holds in every reachable state: besides the kernel, that every process the loader or the
scheduler can name has its structure. -/
structure Sys.Wf (s : Sys) : Prop where
  krnl : s.krnl.Wf
  pending : ∀ p, s.pending = some p → (s.krnl.ownMm p).isSome
  ready : ∀ i, ∀ p ∈ (s.krnl.sched.mlqReadyQueue i).toList, (s.krnl.ownMm p).isSome
  held : ∀ c p, (s.cpu c).proc = some p → (s.krnl.ownMm p).isSome
  mm : ∀ p, (s.krnl.ownMm p).isSome → ∃ q, s.krnl.mm = some q ∧ (s.krnl.ownMm q).isSome

theorem boot_wf (memramsz memswpsz : Addr) (ramJunk swpJunk : Bool) :
    (boot memramsz memswpsz ramJunk swpJunk).Wf where
  krnl := {
    ram := initMemphy_random memramsz ramJunk
    swp := initMemphy_random memswpsz swpJunk
    ramFree := by
      intro f hf
      have h : (boot memramsz memswpsz ramJunk swpJunk).krnl.mram.freeFpList.fpns = _ :=
        initMemphy_fpns memramsz true ramJunk
      rw [h] at hf
      exact List.mem_range.mp hf
    ramLen := by
      have h : (boot memramsz memswpsz ramJunk swpJunk).krnl.mram.freeFpList.fpns = _ :=
        initMemphy_fpns memramsz true ramJunk
      rw [h, List.length_range]
      exact Nat.le_refl _
    swpFree := by
      intro f hf
      have h : (boot memramsz memswpsz ramJunk swpJunk).krnl.activeMswp.freeFpList.fpns = _ :=
        initMemphy_fpns memswpsz true swpJunk
      rw [h] at hf
      exact List.mem_range.mp hf
    own := fun _ _ h => nomatch h }
  pending := fun _ h => nomatch h
  ready := fun _ _ h => nomatch h
  held := fun _ _ h => nomatch h
  mm := fun _ h => nomatch h

/-- A CPU that is given a process. -/
theorem setCpu_proc {s : Sys} {c c' : Nat} {cpu : Cpu} {p : Pid}
    (h : ((s.setCpu c cpu).cpu c').proc = some p) :
    (c' = c ∧ cpu.proc = some p) ∨ (c' ≠ c ∧ (s.cpu c').proc = some p) := by
  by_cases hc : c' = c
  · subst hc
    rw [Sys.setCpu] at h
    simp only [Function.update_self] at h
    exact Or.inl ⟨rfl, h⟩
  · rw [Sys.setCpu] at h
    simp only [Function.update_of_ne hc] at h
    exact Or.inr ⟨hc, h⟩

/-- Every process in a ready queue after `add_proc` or `put_proc` was there before or is the one
passed. -/
theorem enqueueMlq_mem {sched sched' : Sched} {p q : Pid} {prio i : Nat}
    (h : enqueueMlq sched p prio = .ok sched') (hq : q ∈ (sched'.mlqReadyQueue i).toList) :
    q = p ∨ q ∈ (sched.mlqReadyQueue i).toList := by
  obtain ⟨_, _, _, hl, ho⟩ := enqueueMlq_ok h
  by_cases hi : i = prio
  · subst hi
    rw [hl] at hq
    split at hq
    · rcases List.mem_append.mp hq with hq | hq
      · exact Or.inr hq
      · exact Or.inl (List.mem_singleton.mp hq)
    · exact Or.inr hq
  · rw [ho i hi] at hq
    exact Or.inr hq

/-- Every process in a ready queue after `get_proc` was there before, and so was the one it
returns. -/
theorem getProc_mem (sched : Sched) :
    (∀ i, ∀ q ∈ ((getProc sched).1.mlqReadyQueue i).toList, q ∈ (sched.mlqReadyQueue i).toList) ∧
    (∀ p, (getProc sched).2 = some p → ∃ i, p ∈ (sched.mlqReadyQueue i).toList) := by
  rcases getProc_cases sched with ⟨h, _⟩ | ⟨prio, p, rest, _, hl, hres, hl', ho, _⟩
  · rw [h]
    exact ⟨fun _ _ hq => hq, fun _ hp => nomatch hp⟩
  · refine ⟨?_, ?_⟩
    · intro i q hq
      by_cases hi : i = prio
      · subst hi
        rw [hl'] at hq
        rw [hl]
        exact List.mem_cons_of_mem _ hq
      · rwa [ho i hi] at hq
    · intro p' hp'
      rw [hres] at hp'
      cases hp'
      exact ⟨prio, by rw [hl]; exact List.mem_cons_self⟩

/-- Properties that only concern the kernel's queues and CPUs carry over when the structures
stay. -/
theorem Sys.Wf.setSched {s : Sys} (h : s.Wf) (sched : Sched)
    (hr : ∀ i, ∀ p ∈ (sched.mlqReadyQueue i).toList, (s.krnl.ownMm p).isSome) :
    (s.setSched sched).Wf :=
  ⟨wf_stable.sched h.krnl h.krnl, h.pending, hr, h.held, h.mm⟩

theorem Sys.Wf.setCpu {s : Sys} (h : s.Wf) (c : Nat) (cpu : Cpu)
    (hc : ∀ p, cpu.proc = some p → (s.krnl.ownMm p).isSome) : (s.setCpu c cpu).Wf :=
  ⟨h.krnl, h.pending, h.ready, fun c' p hp => by
    rcases setCpu_proc hp with ⟨_, hp⟩ | ⟨_, hp⟩
    · exact hc p hp
    · exact h.held c' p hp, h.mm⟩

theorem Sys.Wf.step {s s' : Sys} {e : Event} (h : s.Wf) (hs : step s e = some s') : s'.Wf := by
  cases e with
  | create p prio symrgtbl =>
      obtain ⟨hpend, hnone, rfl⟩ := step_create hs
      have hk : (s.krnl.setMm p (initMm symrgtbl)).Wf := wf_stable.create h.krnl h.krnl hnone
      have hmono : ∀ q, (s.krnl.ownMm q).isSome →
          ((s.krnl.setMm p (initMm symrgtbl)).ownMm q).isSome := by
        intro q hq
        by_cases hqp : q = p
        · subst hqp; rw [Krnl.setMm_self]; rfl
        · rw [Krnl.setMm_of_ne _ _ _ hqp]; exact hq
      have hself : ((s.krnl.setMm p (initMm symrgtbl)).ownMm p).isSome := by
        rw [Krnl.setMm_self]; rfl
      exact {
        krnl := wf_stable.ptr hk hk hself
        pending := fun q hq => by cases hq; exact hself
        ready := fun i q hq => hmono q (h.ready i q hq)
        held := fun c q hq => hmono q (h.held c q hq)
        mm := fun _ _ => ⟨p, rfl, hself⟩ }
  | add =>
      obtain ⟨p, sched, hpend, hadd, rfl⟩ := step_add hs
      have hw := h.setSched sched (fun i q hq => by
        rcases enqueueMlq_mem hadd hq with rfl | hq
        · exact h.pending q hpend
        · exact h.ready i q hq)
      exact ⟨hw.krnl, fun _ hq => (nomatch hq), hw.ready, hw.held, hw.mm⟩
  | get c =>
      obtain ⟨_, hcase⟩ := step_get hs
      obtain ⟨hmem, hres⟩ := getProc_mem s.krnl.sched
      have hw := h.setSched (getProc s.krnl.sched).1
        (fun i q hq => h.ready i q (hmem i q hq))
      rcases hcase with ⟨_, rfl⟩ | ⟨p, hp, rfl⟩
      · exact hw
      · refine hw.setCpu c _ (fun q hq => ?_)
        cases hq
        obtain ⟨i, hi⟩ := hres _ hp
        exact h.ready i _ hi
  | put c =>
      obtain ⟨p, sched, hc, hput, rfl⟩ := step_put hs
      have hw := h.setSched sched (fun i q hq => by
        rcases enqueueMlq_mem hput hq with rfl | hq
        · exact h.held c q (by rw [hc]; rfl)
        · exact h.ready i q hq)
      exact hw.setCpu c _ (fun q hq => nomatch hq)
  | finish c =>
      obtain ⟨p, _, rfl⟩ := step_finish hs
      have hw := (h.setSched (removeProc s.krnl.sched p) h.ready).setCpu c .idle
        (fun q hq => nomatch hq)
      exact ⟨hw.krnl, hw.pending, hw.ready, hw.held, hw.mm⟩
  | restore c =>
      obtain ⟨p, hc, rfl⟩ := step_restore hs
      have hp := h.held c p (by rw [hc]; rfl)
      rw [if_pos hp]
      have hw : ({ s with krnl := { s.krnl with mm := some p } } : Sys).Wf :=
        ⟨wf_stable.ptr h.krnl h.krnl hp, h.pending, h.ready, h.held, fun _ _ => ⟨p, rfl, hp⟩⟩
      exact hw.setCpu c _ (fun q hq => by cases hq; exact hp)
  | run c ins junk =>
      obtain ⟨p, k', st, hc, hexec, rfl⟩ := step_run hs
      have hp := h.held c p (by rw [hc]; rfl)
      obtain ⟨mm, hmm⟩ := Option.isSome_iff_exists.mp hp
      have hsome := fun q => exec_ownMm_isSome (q := q) h.krnl hmm hexec
      obtain ⟨hsched, hptr⟩ := exec_sched h.krnl hmm hexec
      have hw : ({ s with krnl := k' } : Sys).Wf := {
        krnl := (wf_closed p).exec h.krnl h.krnl hmm (Guards.none_allows _ p ins) hexec
        pending := fun q hq => hsome q (h.pending q hq)
        ready := by
          intro i q hq
          rw [hsched] at hq
          exact hsome q (h.ready i q hq)
        held := fun c' q hq => hsome q (h.held c' q hq)
        mm := by
          intro _ _
          obtain ⟨q, hq, hq'⟩ := h.mm p hp
          exact ⟨q, by rw [hptr, hq], hsome q hq'⟩ }
      exact hw.setCpu c _ (fun q hq => by cases hq; exact hsome _ hp)

/-! ## The rule for runs -/

/-- The instruction an event runs makes no move that `g` does not admit. -/
def Guards.Ok (g : Guards) (s : Sys) (e : Event) : Prop :=
  ∀ c ins junk p, e = .run c ins junk → s.cpu c = .restored p → g.Allows s.krnl p ins

/-- A stable property survives every permitted event. -/
theorem Stable.preserved {g : Guards} {I : Krnl → Prop} (hI : Stable g I) {s s' : Sys} {e : Event}
    (hk : I s.krnl) (h : s.Wf) (hok : g.Ok s e) (hs : step s e = some s') : I s'.krnl := by
  cases e with
  | create p prio symrgtbl =>
      obtain ⟨_, hnone, rfl⟩ := step_create hs
      have hk₁ : I (s.krnl.setMm p (initMm symrgtbl)) := hI.create hk h.krnl hnone
      have hw₁ : (s.krnl.setMm p (initMm symrgtbl)).Wf := wf_stable.create h.krnl h.krnl hnone
      exact hI.ptr hk₁ hw₁ (by rw [Krnl.setMm_self]; rfl)
  | add =>
      obtain ⟨_, _, _, _, rfl⟩ := step_add hs
      exact hI.sched hk h.krnl
  | get c =>
      obtain ⟨_, ⟨_, rfl⟩ | ⟨_, _, rfl⟩⟩ := step_get hs
      · exact hI.sched hk h.krnl
      · exact hI.sched hk h.krnl
  | put c =>
      obtain ⟨_, _, _, _, rfl⟩ := step_put hs
      exact hI.sched hk h.krnl
  | finish c =>
      obtain ⟨_, _, rfl⟩ := step_finish hs
      exact hI.sched hk h.krnl
  | restore c =>
      obtain ⟨p, hc, rfl⟩ := step_restore hs
      have hp := h.held c p (by rw [hc]; rfl)
      rw [if_pos hp]
      exact hI.ptr hk h.krnl hp
  | run c ins junk =>
      obtain ⟨p, k', st, hc, hexec, rfl⟩ := step_run hs
      obtain ⟨mm, hmm⟩ := Option.isSome_iff_exists.mp (h.held c p (by rw [hc]; rfl))
      exact (hI.moves p).exec hk h.krnl hmm (hok c ins junk p rfl hc) hexec

section Runs
variable {memramsz memswpsz : Addr} {ramJunk swpJunk : Bool} {es : List Event} {s : Sys}

/-- Every reachable state is well-formed. -/
theorem reach_wf {ok : Sys → Event → Prop}
    (h : Lts.Run step ok (boot memramsz memswpsz ramJunk swpJunk) es s) : s.Wf :=
  h.invariant (boot_wf _ _ _ _) (fun _ _ _ hw _ hs => hw.step hs)

/-- A stable property that holds after boot holds after every permitted run. -/
theorem Stable.reach {g : Guards} {I : Krnl → Prop} (hI : Stable g I)
    {ok : Sys → Event → Prop} (hok : ∀ s e, ok s e → g.Ok s e)
    (h₀ : I (boot memramsz memswpsz ramJunk swpJunk).krnl)
    (h : Lts.Run step ok (boot memramsz memswpsz ramJunk swpJunk) es s) : I s.krnl := by
  have hboth := h.invariant (P := fun s => s.Wf ∧ I s.krnl) ⟨boot_wf _ _ _ _, h₀⟩
    (fun s e s' hw he hs => ⟨hw.1.step hs, hI.preserved hw.2 hw.1 (hok s e he) hs⟩)
  exact hboth.2

/-- The two devices keep their numbers of frames. -/
theorem numfp_stable (a b : Nat) :
    Stable Guards.none (fun k => k.mram.numfp = a ∧ k.activeMswp.numfp = b) where
  moves := fun _ => ⟨fun h _ _ _ => h, fun h _ _ _ _ _ => h, fun h _ _ _ => h,
    fun h _ _ _ _ _ _ _ => h, fun h _ _ _ => h, fun h _ => h, fun h _ => h⟩
  create := fun h _ _ => h
  ptr := fun h _ _ => h
  sched := fun h _ => h

theorem Guards.none_ok (s : Sys) (e : Event) : Guards.none.Ok s e :=
  fun _ ins _ p _ _ => Guards.none_allows s.krnl p ins

theorem reach_numfp {ok : Sys → Event → Prop}
    (h : Lts.Run step ok (boot memramsz memswpsz ramJunk swpJunk) es s) :
    s.krnl.mram.numfp = (boot memramsz memswpsz ramJunk swpJunk).krnl.mram.numfp ∧
    s.krnl.activeMswp.numfp = (boot memramsz memswpsz ramJunk swpJunk).krnl.activeMswp.numfp :=
  (numfp_stable _ _).reach (fun _ _ _ => Guards.none_ok _ _) ⟨rfl, rfl⟩ h

/-- Free lists that end in NULL keep doing so. -/
theorem closed_stable : Stable Guards.none
    (fun k => k.mram.freeFpList.closed = true ∧ k.activeMswp.freeFpList.closed = true) where
  moves := fun _ => ⟨fun h _ _ _ => h, fun h _ _ _ _ _ => h, fun h _ _ _ => h,
    fun h _ _ _ _ _ _ _ => h, fun h _ _ _ => h, fun h _ => h, fun h _ => h⟩
  create := fun h _ _ => h
  ptr := fun h _ _ => h
  sched := fun h _ => h

/-- Only on a device of one frame does it matter what `malloc` left in the node. -/
theorem reach_closed {ok : Sys → Event → Prop}
    (hram : (initMemphy memramsz true ramJunk).numfp ≠ 1 ∨ ramJunk = true)
    (hswp : (initMemphy memswpsz true swpJunk).numfp ≠ 1 ∨ swpJunk = true)
    (h : Lts.Run step ok (boot memramsz memswpsz ramJunk swpJunk) es s) :
    s.krnl.mram.freeFpList.closed = true ∧ s.krnl.activeMswp.freeFpList.closed = true :=
  closed_stable.reach (fun _ _ _ => Guards.none_ok _ _)
    ⟨initMemphy_closed _ _ _ hram, initMemphy_closed _ _ _ hswp⟩ h

/-- Frames leave the free list of RAM from its head, and none comes back. -/
theorem ramFree_stable (fs : List Nat) :
    Stable Guards.none (fun k => k.mram.freeFpList.fpns <:+ fs) where
  moves := fun _ => {
    quiet := fun h _ _ _ => h
    grow := fun h _ _ _ _ _ => (List.drop_suffix _ _).trans h
    starve := fun _ _ _ _ => List.nil_suffix
    fault := fun h _ _ _ _ _ _ _ => h
    clear := fun h _ _ _ => h
    ram := fun h _ => h
    swp := fun h _ => h }
  create := fun h _ _ => h
  ptr := fun h _ _ => h
  sched := fun h _ => h

/-- What is free in RAM is what `MEMPHY_format` listed last, in its order. -/
theorem reach_ramFree {ok : Sys → Event → Prop}
    (h : Lts.Run step ok (boot memramsz memswpsz ramJunk swpJunk) es s) :
    s.krnl.mram.freeFpList.fpns <:+ (initMemphy memramsz true ramJunk).freeFpList.fpns :=
  (ramFree_stable _).reach (fun _ _ _ => Guards.none_ok _ _) (List.suffix_refl _) h

/-- An event makes a structure only for the process it creates. -/
theorem step_ownMm {s s' : Sys} {e : Event} {q : Pid} (hw : s.Wf) (hs : step s e = some s')
    (hq : (s'.krnl.ownMm q).isSome) :
    (s.krnl.ownMm q).isSome ∨ ∃ prio symrgtbl, e = .create q prio symrgtbl := by
  cases e with
  | create p prio symrgtbl =>
      obtain ⟨_, _, rfl⟩ := step_create hs
      by_cases hqp : q = p
      · subst hqp
        exact Or.inr ⟨_, _, rfl⟩
      · exact Or.inl (by rwa [← Krnl.setMm_of_ne s.krnl p (initMm symrgtbl) hqp])
  | add => obtain ⟨_, _, _, _, rfl⟩ := step_add hs; exact Or.inl hq
  | get c => obtain ⟨_, ⟨_, rfl⟩ | ⟨_, _, rfl⟩⟩ := step_get hs <;> exact Or.inl hq
  | put c => obtain ⟨_, _, _, _, rfl⟩ := step_put hs; exact Or.inl hq
  | finish c => obtain ⟨_, _, rfl⟩ := step_finish hs; exact Or.inl hq
  | restore c => obtain ⟨_, _, rfl⟩ := step_restore hs; exact Or.inl hq
  | run c ins junk =>
      obtain ⟨p, k', st, hc, hexec, rfl⟩ := step_run hs
      have hp := hw.held c p (by rw [hc]; rfl)
      obtain ⟨mm, hmm⟩ := Option.isSome_iff_exists.mp hp
      by_cases hqp : q = p
      · exact Or.inl (hqp ▸ hp)
      · exact Or.inl (by rwa [← exec_ownMm_of_ne hw.krnl hmm hqp hexec])

/-- No event takes a structure away. -/
theorem step_ownMm_isSome {s s' : Sys} {e : Event} {q : Pid} (hw : s.Wf)
    (hs : step s e = some s') (hq : (s.krnl.ownMm q).isSome) : (s'.krnl.ownMm q).isSome := by
  cases e with
  | create p prio symrgtbl =>
      obtain ⟨_, _, rfl⟩ := step_create hs
      by_cases hqp : q = p
      · subst hqp
        show ((s.krnl.setMm q (initMm symrgtbl)).ownMm q).isSome
        rw [Krnl.setMm_self]
        rfl
      · show ((s.krnl.setMm p (initMm symrgtbl)).ownMm q).isSome
        rwa [Krnl.setMm_of_ne _ _ _ hqp]
  | add => obtain ⟨_, _, _, _, rfl⟩ := step_add hs; exact hq
  | get c => obtain ⟨_, ⟨_, rfl⟩ | ⟨_, _, rfl⟩⟩ := step_get hs <;> exact hq
  | put c => obtain ⟨_, _, _, _, rfl⟩ := step_put hs; exact hq
  | finish c => obtain ⟨_, _, rfl⟩ := step_finish hs; exact hq
  | restore c => obtain ⟨_, _, rfl⟩ := step_restore hs; exact hq
  | run c ins junk =>
      obtain ⟨p, k', st, hc, hexec, rfl⟩ := step_run hs
      obtain ⟨mm, hmm⟩ := Option.isSome_iff_exists.mp (hw.held c p (by rw [hc]; rfl))
      exact exec_ownMm_isSome hw.krnl hmm hexec hq

/-- Every structure belongs to a process that the loader has created. -/
theorem reach_created {ok : Sys → Event → Prop} {q : Pid}
    (h : Lts.Run step ok (boot memramsz memswpsz ramJunk swpJunk) es s)
    (hq : (s.krnl.ownMm q).isSome) : ∃ prio symrgtbl, Event.create q prio symrgtbl ∈ es := by
  induction h with
  | nil => exact nomatch hq
  | snoc e hrun _ hs ih =>
      rcases step_ownMm (reach_wf hrun) hs hq with hold | ⟨prio, symrgtbl, rfl⟩
      · obtain ⟨prio, symrgtbl, hmem⟩ := ih hold
        exact ⟨prio, symrgtbl, List.mem_append_left _ hmem⟩
      · exact ⟨prio, symrgtbl, List.mem_append_right _ (List.mem_singleton.mpr rfl)⟩

end Runs

/-! ## Permitted instructions -/

section Permitted
variable {g : Guards} {s : Sys} {c : Nat} {p : Pid} {mm : Mm} {ins : Inst} {junk : Byte}

/-- Of an ALLOC the guards ask about the growth it may need. -/
theorem Guards.ok_alloc (hc : s.cpu c = .restored p) (hmm : s.krnl.ownMm p = some mm)
    (hop : ins.opcode = .alloc)
    (hg : mm.found ins.arg0 = .none → g.AllowsGrow s.krnl mm (viaU32 ins.arg0)) :
    g.Ok s (.run c ins junk) := by
  intro c' ins' junk' p' he hc'
  cases he
  obtain rfl : p = p' := by rw [hc] at hc'; exact Cpu.restored.inj hc'
  refine ⟨?_, ?_, ?_⟩
  · intro mm' sz hmm' hreq _
    obtain rfl : mm = mm' := Option.some.inj (hmm.symm.trans hmm')
    simp only [growRequest, hop] at hreq
    split at hreq
    · split at hreq
      next hf =>
        cases hreq
        exact hg (Option.isNone_iff_eq_none.mp hf)
      next => cases hreq
    · cases hreq
  · intro mm' addr _ haddr
    simp only [accessAddr, hop] at haddr
    cases haddr
  · intro mm' addr n _ hclear
    simp only [clearRequest, hop] at hclear
    cases hclear

/-- Of a READ or WRITE they ask about the fault it may cause. -/
theorem Guards.ok_access (hc : s.cpu c = .restored p) (hmm : s.krnl.ownMm p = some mm)
    (hop : ins.opcode = .read ∨ ins.opcode = .write)
    (hg : ∀ addr, accessAddr s.krnl mm ins = some addr → g.AllowsFault s.krnl mm (pagingPgn addr)) :
    g.Ok s (.run c ins junk) := by
  intro c' ins' junk' p' he hc'
  cases he
  obtain rfl : p = p' := by rw [hc] at hc'; exact Cpu.restored.inj hc'
  refine ⟨?_, ?_, ?_⟩
  · intro mm' sz _ hreq _
    rcases hop with hop | hop
    all_goals
      simp only [growRequest, hop, ite_self] at hreq
      cases hreq
  · intro mm' addr hmm' haddr
    obtain rfl : mm = mm' := Option.some.inj (hmm.symm.trans hmm')
    exact hg addr haddr
  · intro mm' addr n _ hclear
    rcases hop with hop | hop
    all_goals
      simp only [clearRequest, hop] at hclear
      cases hclear

end Permitted

/-! ## Loading -/

/-- The events that load process `p`, whose table `malloc` returned zeroed, and bring it to run on
CPU `c`. -/
def loadOn (c : Nat) (p : Pid) : List Event :=
  [.create p 0 (fun _ => { rgStart := 0, rgEnd := 0 }), .add, .get c, .restore c]

/-- What loading the first process on the first CPU leads to. -/
theorem exec_loadOn (memramsz memswpsz : Addr) (ramJunk swpJunk : Bool) :
    ∃ s, Lts.exec step (boot memramsz memswpsz ramJunk swpJunk) (loadOn 0 0) = some s ∧
      s.cpu 0 = .restored 0 ∧
      s.krnl.ownMm 0 = some (initMm (fun _ => { rgStart := 0, rgEnd := 0 })) ∧
      s.krnl.sched.runningList.toList = [0] ∧
      s.krnl.mram = initMemphy memramsz true ramJunk ∧
      s.krnl.activeMswp = initMemphy memswpsz true swpJunk :=
  ⟨_, rfl, rfl, rfl, rfl, rfl, rfl⟩

/-- Loading makes no move that guards are about. -/
theorem loadOn_ok (g : Guards) {c : Nat} {p : Pid} : ∀ e ∈ loadOn c p, ∀ s, g.Ok s e := by
  intro e he s c' ins junk p' hrun
  subst hrun
  simp [loadOn] at he

/-- Loading and then one permitted event. -/
theorem run_loadOn {ok : Sys → Event → Prop} {memramsz memswpsz : Addr} {ramJunk swpJunk : Bool}
    {c : Nat} {p : Pid} {e : Event} {s' : Sys} (hload : ∀ e ∈ loadOn c p, ∀ s, ok s e)
    (hs' : Lts.exec step (boot memramsz memswpsz ramJunk swpJunk) (loadOn c p ++ [e]) = some s')
    (hok : ∀ s, Lts.exec step (boot memramsz memswpsz ramJunk swpJunk) (loadOn c p) = some s →
      ok s e) :
    Lts.Run step ok (boot memramsz memswpsz ramJunk swpJunk) (loadOn c p ++ [e]) s' := by
  obtain ⟨s, hs, he⟩ := Lts.exec_append_some hs'
  have hrun := (Lts.reaches_of_exec hs).of_reaches hload
  exact hrun.snoc e (hok s hs) (by simpa [Lts.exec] using he)

end SimpleOs
