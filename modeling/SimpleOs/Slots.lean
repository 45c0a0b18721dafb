/-
# `SimpleOs.Slots` — the threads and the time slot they are in

`Synced` ties where a thread is to what the timer knows of its device: the
device is between the two halves of `next_slot` exactly when the thread is in
`next_slot`, and gone exactly when the thread has exited.  It needs nothing of
the configuration.

A thread that is neither has made one call per tick (`Synced.in_slot`); the
timer advances only when every thread is in `next_slot`, for the slot that
ends, or has exited (`Synced.tick_cases`).
-/
import SimpleOs.Completion

namespace SimpleOs

/-- The thread of device `d` is in `next_slot`; the loader is the last device. -/
def Os.Waiting (cfg : OsCfg) (s : Os) (d : Nat) : Prop :=
  if d = cfg.numCpus then ∃ added, s.ld.loc = .wait added else (s.cpu d).loc = .wait

/-- The thread of device `d` has called `detach_event`. -/
def Os.Exited (cfg : OsCfg) (s : Os) (d : Nat) : Prop :=
  if d = cfg.numCpus then s.ld.loc = .exited else (s.cpu d).loc = .exited

/-- The threads are where the timer believes them to be. -/
structure Synced (cfg : OsCfg) (s : Os) : Prop where
  timer : TimerOk (cfg.numCpus + 1) s.timer
  waiting : ∀ d ≤ cfg.numCpus, (s.timer.dev d).waiting = true ↔ s.Waiting cfg d
  gone : ∀ d ≤ cfg.numCpus, (s.timer.dev d).fsh = true ↔ s.Exited cfg d

theorem synced_start (cfg : OsCfg) : Synced cfg cfg.start where
  timer := timerOk_start _
  waiting := by
    intro d _
    rw [Os.Waiting]
    refine iff_of_false Bool.false_ne_true ?_
    split
    · exact fun ⟨_, h⟩ => nomatch h
    · exact CpuLoc.noConfusion
  gone := by
    intro d _
    rw [Os.Exited]
    refine iff_of_false Bool.false_ne_true ?_
    split <;> intro h <;> cases h

section Threads
variable {cfg : OsCfg} {s s' : Os} {c d : Nat}

theorem Os.waiting_cpu (hc : c < cfg.numCpus) : s.Waiting cfg c ↔ (s.cpu c).loc = .wait := by
  rw [Os.Waiting, if_neg (Nat.ne_of_lt hc)]

theorem Os.exited_cpu (hc : c < cfg.numCpus) : s.Exited cfg c ↔ (s.cpu c).loc = .exited := by
  rw [Os.Exited, if_neg (Nat.ne_of_lt hc)]

theorem Os.waiting_ld : s.Waiting cfg cfg.numCpus ↔ ∃ added, s.ld.loc = .wait added := by
  rw [Os.Waiting, if_pos rfl]

theorem Os.exited_ld : s.Exited cfg cfg.numCpus ↔ s.ld.loc = .exited := by
  rw [Os.Exited, if_pos rfl]

/-- A step of CPU `c` moves no other thread. -/
theorem CpuMove.frame (hm : CpuMove cfg s c s') :
    s'.ld = s.ld ∧ s'.done = s.done ∧ s'.loaded = s.loaded ∧
    ∀ i, i ≠ c → s'.cpu i = s.cpu i := by
  have hcpu : ∀ {sched finished pc log timer t} (i : Nat), i ≠ c →
      ({ s with sched, finished, pc, log, timer }.setCpu c t).cpu i = s.cpu i :=
    fun i hi => Function.update_of_ne hi ..
  cases hm with
  | idle _ _ => exact ⟨rfl, rfl, rfl, hcpu⟩
  | dispatch _ _ _ _ _ => exact ⟨rfl, rfl, rfl, hcpu⟩
  | finish _ _ _ _ => exact ⟨rfl, rfl, rfl, hcpu⟩
  | put _ _ _ _ _ => exact ⟨rfl, rfl, rfl, hcpu⟩
  | stop _ _ _ => exact ⟨rfl, rfl, rfl, hcpu⟩
  | skip _ _ _ => exact ⟨rfl, rfl, rfl, hcpu⟩
  | keep _ _ _ _ _ => exact ⟨rfl, rfl, rfl, hcpu⟩
  | exec _ _ _ _ => exact ⟨rfl, rfl, rfl, hcpu⟩
  | timer _ _ _ _ _ => exact ⟨rfl, rfl, rfl, hcpu⟩

/-- Neither of the two places the timer knows of. -/
def CpuLoc.inside : CpuLoc → Bool
  | .wait | .exited => false
  | _ => true

theorem CpuLoc.ne_wait {l : CpuLoc} (h : l.inside = true) : l ≠ .wait := by
  rintro rfl
  cases h

theorem CpuLoc.ne_exited {l : CpuLoc} (h : l.inside = true) : l ≠ .exited := by
  rintro rfl
  cases h

/-- A step of CPU `c` is a critical section of its device, or the timer does not see it. -/
theorem CpuMove.timer_cases (hm : CpuMove cfg s c s') :
    (s'.timer = s.timer ∧ (s.cpu c).loc.inside = true ∧ (s'.cpu c).loc.inside = true) ∨
    ∃ e timer loc, timerStep s.timer e = some timer ∧
      s' = { s with timer }.setCpu c { s.cpu c with loc } ∧
      ((s.cpu c).loc = .slot ∧ e = .call c ∧ loc = .wait ∨
        (s.cpu c).loc = .wait ∧ e = .ret c ∧ loc = .top ∨
        (s.cpu c).loc = .detach ∧ e = .detach c ∧ loc = .exited) := by
  have hself : ∀ {sched finished pc log} (t : CpuThread),
      ({ s with sched, finished, pc, log }.setCpu c t).cpu c = t :=
    fun t => Os.setCpu_self ..
  have hat : ∀ {l : CpuLoc}, (s.cpu c).loc = l → l.inside = true →
      (s.cpu c).loc.inside = true := fun hl hin => by rw [hl]; exact hin
  have hpoll : ((s.cpu c).loc = .top ∧ (s.cpu c).proc = none ∨ (s.cpu c).loc = .get) →
      (s.cpu c).loc.inside = true := fun h => h.elim (fun h => hat h.1 rfl) (fun h => hat h rfl)
  cases hm with
  | idle hl _ => exact Or.inl ⟨rfl, hpoll hl, by rw [Os.setCpu_self]; rfl⟩
  | dispatch _ _ _ hl _ => exact Or.inl ⟨rfl, hpoll hl, by rw [hself]; rfl⟩
  | finish _ hl _ _ => exact Or.inl ⟨rfl, hat hl rfl, by rw [hself]; rfl⟩
  | put _ _ hl _ _ => exact Or.inl ⟨rfl, hat hl rfl, by rw [hself]; rfl⟩
  | stop hl _ _ => exact Or.inl ⟨rfl, hat hl rfl, by rw [Os.setCpu_self]; rfl⟩
  | skip hl _ _ => exact Or.inl ⟨rfl, hat hl rfl, by rw [Os.setCpu_self]; rfl⟩
  | keep _ _ _ _ hl =>
      rw [Os.setCpu_self]
      rcases hl with ⟨hl, rfl⟩ | ⟨hl, rfl⟩ | ⟨hl, rfl, _⟩ <;> exact Or.inl ⟨rfl, hat hl rfl, rfl⟩
  | exec _ hl _ _ => exact Or.inl ⟨rfl, hat hl rfl, by rw [hself]; rfl⟩
  | timer e timer loc hl hs => exact Or.inr ⟨e, timer, loc, hs, rfl, hl⟩

/-- Neither of the two places the timer knows of. -/
def LdLoc.inside : LdLoc → Bool
  | .wait _ | .exited => false
  | _ => true

theorem LdLoc.ne_wait {l : LdLoc} (h : l.inside = true) (added : Bool) : l ≠ .wait added := by
  rintro rfl
  cases h

theorem LdLoc.ne_exited {l : LdLoc} (h : l.inside = true) : l ≠ .exited := by
  rintro rfl
  cases h

/-- A step of the loader is a critical section of its device, or the timer does not see it. -/
theorem LdMove.timer_cases (hm : LdMove cfg s s') : s'.cpu = s.cpu ∧
    ((s'.timer = s.timer ∧ s.ld.loc.inside = true ∧ s'.ld.loc.inside = true) ∨
    ∃ e timer loc, timerStep s.timer e = some timer ∧
      s' = { s with timer, ld := { s.ld with loc } } ∧
      ((∃ added, s.ld.loc = .slot added ∧ e = .call cfg.numCpus ∧ loc = .wait added) ∨
        (∃ added, s.ld.loc = .wait added ∧ e = .ret cfg.numCpus ∧
          loc = if added then .top else .time) ∨
        (s.ld.loc = .detach ∧ e = .detach cfg.numCpus ∧ loc = .exited))) := by
  have hat : ∀ {l : LdLoc}, s.ld.loc = l → l.inside = true → s.ld.loc.inside = true :=
    fun hl hin => by rw [hl]; exact hin
  cases hm with
  | next hl _ => exact ⟨rfl, Or.inl ⟨rfl, hat hl rfl, rfl⟩⟩
  | last hl _ => exact ⟨rfl, Or.inl ⟨rfl, hat hl rfl, rfl⟩⟩
  | early hl => exact ⟨rfl, Or.inl ⟨rfl, hat hl rfl, rfl⟩⟩
  | due hl => exact ⟨rfl, Or.inl ⟨rfl, hat hl rfl, rfl⟩⟩
  | add _ hl _ => exact ⟨rfl, Or.inl ⟨rfl, hat hl rfl, rfl⟩⟩
  | done hl => exact ⟨rfl, Or.inl ⟨rfl, hat hl rfl, rfl⟩⟩
  | call added timer hl hs =>
      exact ⟨rfl, Or.inr ⟨.call cfg.numCpus, timer, _, hs, rfl, Or.inl ⟨added, hl, rfl, rfl⟩⟩⟩
  | ret added timer hl hs =>
      exact ⟨rfl, Or.inr ⟨.ret cfg.numCpus, timer, _, hs, rfl,
        Or.inr (Or.inl ⟨added, hl, rfl, rfl⟩)⟩⟩
  | detach timer hl hs =>
      exact ⟨rfl, Or.inr ⟨.detach cfg.numCpus, timer, _, hs, rfl, Or.inr (Or.inr ⟨hl, rfl, rfl⟩)⟩⟩

/-! ## The step lemma -/

/-- A step of a thread the timer does not see. -/
theorem Synced.away (h : Synced cfg s) (htimer : s'.timer = s.timer)
    (hwait : ∀ d ≤ cfg.numCpus, s'.Waiting cfg d ↔ s.Waiting cfg d)
    (hexit : ∀ d ≤ cfg.numCpus, s'.Exited cfg d ↔ s.Exited cfg d) : Synced cfg s' where
  timer := by rw [htimer]; exact h.timer
  waiting := fun d hd => by rw [htimer]; exact (h.waiting d hd).trans (hwait d hd).symm
  gone := fun d hd => by rw [htimer]; exact (h.gone d hd).trans (hexit d hd).symm

/-- A critical section of device `d`, after which its thread is at another place. -/
theorem Synced.device {e : TimerEvent} {timer : Timer} (h : Synced cfg s)
    (hs : timerStep s.timer e = some timer) (he : e.device = some d) (htimer : s'.timer = timer)
    (hself : ((timer.dev d).waiting = true ↔ s'.Waiting cfg d) ∧
      ((timer.dev d).fsh = true ↔ s'.Exited cfg d))
    (hothers : ∀ i, i ≠ d → (s'.Waiting cfg i ↔ s.Waiting cfg i) ∧
      (s'.Exited cfg i ↔ s.Exited cfg i)) : Synced cfg s' where
  timer := by rw [htimer]; exact h.timer.step hs
  waiting := by
    intro i hi
    rw [htimer]
    by_cases hid : i = d
    · subst hid
      exact hself.1
    · rw [(timerStep_device hs he).2 i hid]
      exact (h.waiting i hi).trans (hothers i hid).1.symm
  gone := by
    intro i hi
    rw [htimer]
    by_cases hid : i = d
    · subst hid
      exact hself.2
    · rw [(timerStep_device hs he).2 i hid]
      exact (h.gone i hi).trans (hothers i hid).2.symm

/-- What the timer knows of the device after one of its critical sections. -/
theorem device_after {t t' : Timer} {e : TimerEvent} (h : timerStep t e = some t') :
    (∀ d, e = .call d → (t'.dev d).waiting = true ∧ (t'.dev d).fsh = false) ∧
    (∀ d, e = .ret d → (t'.dev d).waiting = false ∧ (t'.dev d).fsh = (t.dev d).fsh) ∧
    (∀ d, e = .detach d → (t'.dev d).waiting = false ∧ (t'.dev d).fsh = true) := by
  refine ⟨?_, ?_, ?_⟩
  · rintro d rfl
    obtain ⟨_, _, hf, rfl⟩ := nextSlotCall_cases h
    rw [Timer.setDev_self]
    exact ⟨rfl, hf⟩
  · rintro d rfl
    obtain ⟨_, _, _, rfl⟩ := nextSlotRet_cases h
    rw [Timer.setDev_self]
    exact ⟨rfl, rfl⟩
  · rintro d rfl
    obtain ⟨_, hw, _, rfl⟩ := detachEvent_cases h
    rw [Timer.setDev_self]
    exact ⟨hw, rfl⟩

theorem Synced.cpu (h : Synced cfg s) (hc : c < cfg.numCpus) (hm : CpuMove cfg s c s') :
    Synced cfg s' := by
  obtain ⟨hld, _, _, hcpu⟩ := hm.frame
  have hothers : ∀ i, i ≠ c → (s'.Waiting cfg i ↔ s.Waiting cfg i) ∧
      (s'.Exited cfg i ↔ s.Exited cfg i) := by
    intro i hi
    simp only [Os.Waiting, Os.Exited, hld, hcpu i hi, and_self]
  rcases hm.timer_cases with ⟨htimer, hin, hin'⟩ | ⟨e, timer, loc, hs, rfl, hcase⟩
  · have hself : (s'.Waiting cfg c ↔ s.Waiting cfg c) ∧ (s'.Exited cfg c ↔ s.Exited cfg c) := by
      rw [Os.waiting_cpu hc, Os.waiting_cpu hc, Os.exited_cpu hc, Os.exited_cpu hc]
      exact ⟨iff_of_false (CpuLoc.ne_wait hin') (CpuLoc.ne_wait hin),
        iff_of_false (CpuLoc.ne_exited hin') (CpuLoc.ne_exited hin)⟩
    refine h.away htimer (fun d _ => ?_) (fun d _ => ?_)
    · by_cases hd : d = c
      · rw [hd]; exact hself.1
      · exact (hothers d hd).1
    · by_cases hd : d = c
      · rw [hd]; exact hself.2
      · exact (hothers d hd).2
  · have hloc : (({ s with timer }.setCpu c { s.cpu c with loc }).cpu c).loc = loc := by
      rw [Os.setCpu_self]
    obtain ⟨hcall, hret, hdetach⟩ := device_after hs
    rcases hcase with ⟨hl, rfl, rfl⟩ | ⟨hl, rfl, rfl⟩ | ⟨hl, rfl, rfl⟩
    · refine h.device hs rfl rfl ?_ hothers
      obtain ⟨hw, hf⟩ := hcall c rfl
      rw [Os.waiting_cpu hc, Os.exited_cpu hc, hloc, hw, hf]
      exact ⟨iff_of_true rfl rfl, iff_of_false Bool.false_ne_true CpuLoc.noConfusion⟩
    · refine h.device hs rfl rfl ?_ hothers
      obtain ⟨hw, hf⟩ := hret c rfl
      have hgone : ¬ s.Exited cfg c := by
        rw [Os.exited_cpu hc, hl]
        exact CpuLoc.noConfusion
      rw [Os.waiting_cpu hc, Os.exited_cpu hc, hloc, hw, hf, h.gone c hc.le]
      exact ⟨iff_of_false Bool.false_ne_true CpuLoc.noConfusion,
        iff_of_false hgone CpuLoc.noConfusion⟩
    · refine h.device hs rfl rfl ?_ hothers
      obtain ⟨hw, hf⟩ := hdetach c rfl
      rw [Os.waiting_cpu hc, Os.exited_cpu hc, hloc, hw, hf]
      exact ⟨iff_of_false Bool.false_ne_true CpuLoc.noConfusion, iff_of_true rfl rfl⟩

theorem Synced.loader (h : Synced cfg s) (hm : LdMove cfg s s') : Synced cfg s' := by
  obtain ⟨hcpu, hcase⟩ := hm.timer_cases
  have hothers : ∀ i, i ≠ cfg.numCpus → (s'.Waiting cfg i ↔ s.Waiting cfg i) ∧
      (s'.Exited cfg i ↔ s.Exited cfg i) := by
    intro i hi
    rw [Os.Waiting, Os.Waiting, Os.Exited, Os.Exited, if_neg hi, if_neg hi, if_neg hi, if_neg hi,
      hcpu]
    exact ⟨Iff.rfl, Iff.rfl⟩
  rcases hcase with ⟨htimer, hin, hin'⟩ | ⟨e, timer, loc, hs, rfl, hcase⟩
  · have hself : (s'.Waiting cfg cfg.numCpus ↔ s.Waiting cfg cfg.numCpus) ∧
        (s'.Exited cfg cfg.numCpus ↔ s.Exited cfg cfg.numCpus) := by
      rw [Os.waiting_ld, Os.waiting_ld, Os.exited_ld, Os.exited_ld]
      exact ⟨iff_of_false (fun ⟨added, hl⟩ => LdLoc.ne_wait hin' added hl)
          (fun ⟨added, hl⟩ => LdLoc.ne_wait hin added hl),
        iff_of_false (LdLoc.ne_exited hin') (LdLoc.ne_exited hin)⟩
    refine h.away htimer (fun d _ => ?_) (fun d _ => ?_)
    · by_cases hd : d = cfg.numCpus
      · rw [hd]; exact hself.1
      · exact (hothers d hd).1
    · by_cases hd : d = cfg.numCpus
      · rw [hd]; exact hself.2
      · exact (hothers d hd).2
  · obtain ⟨hcall, hret, hdetach⟩ := device_after hs
    rcases hcase with ⟨added, hl, rfl, rfl⟩ | ⟨added, hl, rfl, rfl⟩ | ⟨hl, rfl, rfl⟩
    · refine h.device hs rfl rfl ?_ hothers
      obtain ⟨hw, hf⟩ := hcall _ rfl
      rw [Os.waiting_ld, Os.exited_ld, hw, hf]
      exact ⟨iff_of_true rfl ⟨added, rfl⟩, iff_of_false Bool.false_ne_true LdLoc.noConfusion⟩
    · refine h.device hs rfl rfl ?_ hothers
      obtain ⟨hw, hf⟩ := hret _ rfl
      have hgone : ¬ s.Exited cfg cfg.numCpus := by
        rw [Os.exited_ld, hl]
        exact LdLoc.noConfusion
      rw [Os.waiting_ld, Os.exited_ld, hw, hf, h.gone _ le_rfl]
      cases added with
      | false =>
          exact ⟨iff_of_false Bool.false_ne_true (fun ⟨_, hl⟩ => nomatch hl),
            iff_of_false hgone LdLoc.noConfusion⟩
      | true =>
          exact ⟨iff_of_false Bool.false_ne_true (fun ⟨_, hl⟩ => nomatch hl),
            iff_of_false hgone LdLoc.noConfusion⟩
    · refine h.device hs rfl rfl ?_ hothers
      obtain ⟨hw, hf⟩ := hdetach _ rfl
      rw [Os.waiting_ld, Os.exited_ld, hw, hf]
      exact ⟨iff_of_false Bool.false_ne_true (fun ⟨_, hl⟩ => nomatch hl), iff_of_true rfl rfl⟩

theorem Synced.tick {timer : Timer} (h : Synced cfg s) (hs : timerRoutine s.timer = some timer) :
    Synced cfg { s with timer } where
  timer := h.timer.step (e := .tick) hs
  waiting := fun d hd => by rw [(timerRoutine_dev hs d).1]; exact h.waiting d hd
  gone := fun d hd => by rw [(timerRoutine_dev hs d).2.1]; exact h.gone d hd

theorem Synced.step {e : OsEvent} (h : Synced cfg s) (hs : osStep cfg s e = some s') :
    Synced cfg s' := by
  cases e with
  | cpu c =>
      rw [osStep] at hs
      split at hs
      next hc => exact h.cpu hc (cpuRoutine_move hs)
      next => cases hs
  | loader => exact h.loader (ldRoutine_move hs)
  | timer =>
      obtain ⟨timer, ht, rfl⟩ := Option.map_eq_some_iff.mp hs
      exact h.tick ht
  | stop =>
      rw [osStep] at hs
      split at hs
      next =>
        obtain rfl := Option.some.inj hs
        exact ⟨h.timer.step (e := .stop) rfl, h.waiting, h.gone⟩
      next => cases hs

theorem synced_of_reaches {es : List OsEvent} (h : Lts.Reaches (osStep cfg) cfg.start es s) :
    Synced cfg s :=
  h.invariant (P := Synced cfg) (synced_start cfg) fun _ _ _ hok _ hs => hok.step hs

/-- Only the loader moves the loader, sets `done` and loads. -/
theorem osStep_others {e : OsEvent} (hs : osStep cfg s e = some s') (he : e ≠ .loader) :
    s'.ld = s.ld ∧ s'.done = s.done ∧ s'.loaded = s.loaded := by
  cases e with
  | cpu c =>
      rw [osStep] at hs
      split at hs
      next =>
        obtain ⟨hld, hdone, hloaded, _⟩ := (cpuRoutine_move hs).frame
        exact ⟨hld, hdone, hloaded⟩
      next => cases hs
  | loader => exact absurd rfl he
  | timer =>
      obtain ⟨timer, _, rfl⟩ := Option.map_eq_some_iff.mp hs
      exact ⟨rfl, rfl, rfl⟩
  | stop =>
      rw [osStep] at hs
      split at hs
      next =>
        obtain rfl := Option.some.inj hs
        exact ⟨rfl, rfl, rfl⟩
      next => cases hs

/-- Where the threads are, for any configuration. -/
theorem control_of_reaches {es : List OsEvent} (h : Lts.Reaches (osStep cfg) cfg.start es s) :
    Control cfg s := by
  refine h.invariant (P := Control cfg) (control_start cfg) fun s e s' hctl _ hs => ?_
  cases e with
  | cpu c =>
      rw [osStep] at hs
      split at hs
      next hc => exact hctl.cpu hc (cpuRoutine_move hs)
      next => cases hs
  | loader => exact hctl.loader (ldRoutine_move hs)
  | timer =>
      obtain ⟨timer, ht, rfl⟩ := Option.map_eq_some_iff.mp hs
      exact hctl.tick ht
  | stop =>
      rw [osStep] at hs
      split at hs
      next =>
        obtain rfl := Option.some.inj hs
        exact hctl.others (hctl.timer.step (e := .stop) rfl) (fun _ _ => ⟨rfl, rfl⟩) rfl id
          hctl.ldGone hctl.done hctl.i_le hctl.before hctl.after
      next => cases hs

/-! ## Calls and ticks -/

/-- A thread that is not in `next_slot` and has not exited has made one call per tick. -/
theorem Synced.in_slot (h : Synced cfg s) (hd : d ≤ cfg.numCpus) (hw : ¬ s.Waiting cfg d)
    (hg : ¬ s.Exited cfg d) : (s.timer.dev d).calls = s.timer.ticks := by
  have hdev := h.timer.dev d (Nat.lt_succ_of_le hd)
  have hwait := Bool.eq_false_iff.mpr (mt (h.waiting d hd).mp hw)
  exact hdev.in_slot (hdev.not_done hwait) (Bool.eq_false_iff.mpr (mt (h.gone d hd).mp hg))

/-- A thread in `next_slot` has made one call per tick, or one more. -/
theorem Synced.calls_cases (h : Synced cfg s) (hd : d ≤ cfg.numCpus) (hw : s.Waiting cfg d) :
    (s.timer.dev d).calls = s.timer.ticks ∨ (s.timer.dev d).calls = s.timer.ticks + 1 := by
  have hdev := h.timer.dev d (Nat.lt_succ_of_le hd)
  have hf := hdev.not_gone ((h.waiting d hd).mpr hw)
  have hcalls := hdev.calls
  by_cases hpend : d ∈ s.timer.pc.unreleased
  · obtain ⟨hdone, hticks⟩ := hdev.pending hf hpend
    rw [hdone] at hcalls
    exact Or.inl (hcalls.trans hticks.symm)
  · have hticks := hdev.released hf hpend
    cases hdone : (s.timer.dev d).done with
    | false => exact Or.inl (hdev.in_slot hdone hf)
    | true =>
        rw [hdone, ← hticks] at hcalls
        exact Or.inr hcalls

/-- A step of the timer leaves `_time` alone, or ends the slot: every thread is in `next_slot`,
called in this slot, or has exited. -/
theorem Synced.tick_cases {timer : Timer} (h : Synced cfg s)
    (hs : timerRoutine s.timer = some timer) :
    timer.ticks = s.timer.ticks ∨
    (timer.ticks = s.timer.ticks + 1 ∧ ∀ d ≤ cfg.numCpus, s.Exited cfg d ∨
      (s.Waiting cfg d ∧ (s.timer.dev d).calls = s.timer.ticks + 1)) := by
  rcases h.timer.time_step (e := .tick) hs with ⟨_, hticks⟩ | ⟨_, hticks, hall⟩
  · exact Or.inl hticks
  · refine Or.inr ⟨hticks, fun d hd => ?_⟩
    rcases hall d (Nat.lt_succ_of_le hd) with hgone | ⟨_, hcalls⟩
    · exact Or.inl ((h.gone d hd).mp hgone)
    · by_cases hg : s.Exited cfg d
      · exact Or.inl hg
      · refine Or.inr ⟨?_, hcalls⟩
        by_contra hw
        rw [h.in_slot hd hw hg] at hcalls
        exact absurd hcalls (Nat.succ_ne_self _).symm

/-! ## When the timer stops -/

/-- The first loop counts the devices it has come to and those of them that are gone; the routine
returns, or is told to, only when all of them are. -/
structure Counted (cfg : OsCfg) (s : Os) : Prop where
  scan : ∀ rest fsh event, s.timer.pc = .scan rest fsh event → ∃ seen,
    s.timer.devList = seen ++ rest ∧ event = seen.length ∧
    fsh = seen.countP (fun d => (s.timer.dev d).fsh)
  last : (∃ rest n, s.timer.pc = .release rest n n) ∨ s.timer.pc = .exited ∨
    s.timer.stop = true → ∀ d ≤ cfg.numCpus, s.Exited cfg d

theorem counted_start (cfg : OsCfg) : Counted cfg cfg.start where
  scan := fun _ _ _ h => nomatch h
  last := by
    rintro (⟨_, _, h⟩ | h | h)
    · cases h
    · cases h
    · cases h

/-- A step of a device leaves the counts alone: one that was counted as done is in `next_slot`. -/
theorem Counted.device {e : TimerEvent} {timer : Timer} (h : Counted cfg s) (hsync : Synced cfg s)
    (hs : timerStep s.timer e = some timer) (he : e.device = some d) (hd : d ≤ cfg.numCpus)
    (htimer : s'.timer = timer)
    (hexit : ∀ i ≤ cfg.numCpus, s.Exited cfg i → s'.Exited cfg i) : Counted cfg s' := by
  have hrest : timer.pc = s.timer.pc ∧ timer.stop = s.timer.stop ∧
      timer.devList = s.timer.devList := by
    cases e with
    | call i => obtain ⟨_, _, _, rfl⟩ := nextSlotCall_cases hs; exact ⟨rfl, rfl, rfl⟩
    | ret i => obtain ⟨_, _, _, rfl⟩ := nextSlotRet_cases hs; exact ⟨rfl, rfl, rfl⟩
    | detach i => obtain ⟨_, _, _, rfl⟩ := detachEvent_cases hs; exact ⟨rfl, rfl, rfl⟩
    | tick => cases he
    | stop => cases he
  obtain ⟨hpc, hstop, hlist⟩ := hrest
  subst htimer
  refine ⟨fun rest fsh event hscan => ?_, fun hlast => ?_⟩
  · rw [hpc] at hscan
    obtain ⟨seen, hseen, hevent, hfsh⟩ := h.scan rest fsh event hscan
    refine ⟨seen, hlist.trans hseen, hevent, hfsh.trans (List.countP_congr fun i hi => ?_)⟩
    by_cases hid : i = d
    · subst hid
      have hdev := hsync.timer.dev i (Nat.lt_succ_of_le hd)
      have hnot : i ∉ rest := by
        have hnodup := nodup_attached (cfg.numCpus + 1)
        rw [← hsync.timer.devList, hseen] at hnodup
        exact fun hmem => (List.nodup_append.mp hnodup).2.2 i hi i hmem rfl
      have hscanned := hdev.scanned rest fsh event hscan hnot
      cases e with
      | call i =>
          cases he
          obtain ⟨_, _, _, heq⟩ := nextSlotCall_cases hs
          rw [heq, Timer.setDev_self]
      | ret i =>
          cases he
          obtain ⟨_, _, _, heq⟩ := nextSlotRet_cases hs
          rw [heq, Timer.setDev_self]
      | detach i =>
          cases he
          obtain ⟨_, hw, hf, _⟩ := detachEvent_cases hs
          rw [hdev.not_done hw, hf] at hscanned
          exact (hscanned.elim Bool.false_ne_true Bool.false_ne_true).elim
      | tick => cases he
      | stop => cases he
    · rw [(timerStep_device hs he).2 i hid]
  · rw [hpc, hstop] at hlast
    exact fun i hi => hexit i hi (h.last hlast i hi)

theorem Counted.tick {timer : Timer} (h : Counted cfg s) (hsync : Synced cfg s)
    (hs : timerRoutine s.timer = some timer) : Counted cfg { s with timer } := by
  have hstop : s.timer.stop = true → ∀ d ≤ cfg.numCpus, s.Exited cfg d :=
    fun hst => h.last (Or.inr (Or.inr hst))
  rw [timerRoutine] at hs
  split at hs
  next hpc =>
    obtain rfl := Option.some.inj hs
    cases hst : s.timer.stop with
    | true =>
        refine ⟨fun _ _ _ hscan => ?_, fun _ => hstop hst⟩
        rw [if_pos rfl] at hscan
        cases hscan
    | false =>
        refine ⟨fun rest fsh event hscan => ?_, fun hlast => ?_⟩
        · rw [if_neg Bool.false_ne_true] at hscan
          cases hscan
          exact ⟨[], rfl, rfl, rfl⟩
        · rw [if_neg Bool.false_ne_true] at hlast
          rcases hlast with ⟨_, _, hl⟩ | hl | hl
          · cases hl
          · cases hl
          · cases hl
  next temp rest fsh event hpc =>
    split at hs
    next => cases hs
    next =>
      obtain rfl := Option.some.inj hs
      refine ⟨fun rest' fsh' event' hscan => ?_, fun hlast => ?_⟩
      · cases hscan
        obtain ⟨seen, hlist, hevent, hfsh⟩ := h.scan _ _ _ hpc
        refine ⟨seen ++ [temp], ?_, ?_, ?_⟩
        · rw [List.append_assoc]
          exact hlist
        · rw [List.length_append, ← hevent]
          rfl
        · show (if _ then _ else _) = _
          rw [List.countP_append, ← hfsh, List.countP_singleton]
          split
          · rfl
          · rfl
      · rcases hlast with ⟨_, _, hl⟩ | hl | hl
        · cases hl
        · cases hl
        · exact hstop hl
  next fsh event hpc =>
    obtain rfl := Option.some.inj hs
    obtain ⟨seen, hlist, hevent, hfsh⟩ := h.scan _ _ _ hpc
    refine ⟨fun _ _ _ hscan => ?_, fun hlast => ?_⟩
    · cases hscan
    rcases hlast with ⟨_, _, hl⟩ | hl | hl
    · -- as many are gone as there are
      cases hl
      rw [List.append_nil] at hlist
      have hall := List.countP_eq_length.mp (hfsh.symm.trans hevent)
      intro d hd
      refine (hsync.gone d hd).mp (hall d ?_)
      rw [← hlist, hsync.timer.devList]
      exact mem_attached.mpr (Nat.lt_succ_of_le hd)
    · cases hl
    · exact hstop hl
  next temp rest fsh event hpc =>
    obtain rfl := Option.some.inj hs
    refine ⟨fun _ _ _ hscan => ?_, fun hlast => ?_⟩
    · cases hscan
    rcases hlast with ⟨_, _, hl⟩ | hl | hl
    · cases hl
      exact h.last (Or.inl ⟨_, _, hpc⟩)
    · cases hl
    · exact hstop hl
  next fsh event hpc =>
    obtain rfl := Option.some.inj hs
    by_cases heq : fsh = event
    · subst heq
      refine ⟨fun _ _ _ hscan => ?_, fun _ => h.last (Or.inl ⟨_, _, hpc⟩)⟩
      rw [if_pos rfl] at hscan
      cases hscan
    · refine ⟨fun _ _ _ hscan => ?_, fun hlast => ?_⟩
      · rw [if_neg heq] at hscan
        cases hscan
      · rw [if_neg heq] at hlast
        rcases hlast with ⟨_, _, hl⟩ | hl | hl
        · cases hl
        · cases hl
        · exact hstop hl
  next => cases hs

/-- The tick after which every thread has exited is the last. -/
theorem Counted.last_tick {timer : Timer} (h : Counted cfg s) (hsync : Synced cfg s)
    (hs : timerRoutine s.timer = some timer) (hticks : timer.ticks ≠ s.timer.ticks)
    (hall : ∀ d ≤ cfg.numCpus, s.Exited cfg d) : ∃ rest n, timer.pc = .release rest n n := by
  rcases timerRoutine_cases hs with ⟨_, rfl⟩ | ⟨_, rfl⟩ | ⟨_, _, _, _, _, _, _, rfl⟩ |
    ⟨fsh, event, hpc, rfl⟩ | ⟨_, _, _, _, _, rfl⟩ | ⟨_, _, _, rfl | rfl⟩
  · exact absurd rfl hticks
  · exact absurd rfl hticks
  · exact absurd rfl hticks
  · obtain ⟨seen, hlist, hevent, hfsh⟩ := h.scan _ _ _ hpc
    rw [List.append_nil] at hlist
    have heq : fsh = event := by
      rw [hfsh, hevent, List.countP_eq_length]
      intro d hd
      rw [← hlist, hsync.timer.devList, mem_attached] at hd
      exact (hsync.gone d (Nat.le_of_lt_succ hd)).mpr (hall d (Nat.le_of_lt_succ hd))
    subst heq
    exact ⟨_, _, rfl⟩
  · exact absurd rfl hticks
  · exact absurd rfl hticks
  · exact absurd rfl hticks

theorem Counted.step {e : OsEvent} (h : Counted cfg s) (hsync : Synced cfg s)
    (hs : osStep cfg s e = some s') : Counted cfg s' := by
  have hsync' := hsync.step hs
  cases e with
  | cpu c =>
      rw [osStep] at hs
      split at hs
      next hc =>
        have hm := cpuRoutine_move hs
        obtain ⟨hld, _, _, hcpu⟩ := hm.frame
        rcases hm.timer_cases with ⟨htimer, _⟩ | ⟨e, timer, loc, ht, rfl, hcase⟩
        · refine ⟨by rw [htimer]; exact h.scan, fun hlast d hd => ?_⟩
          rw [htimer] at hlast
          rw [← hsync'.gone d hd, htimer, hsync.gone d hd]
          exact h.last hlast d hd
        · have he : e.device = some c := by
            rcases hcase with ⟨_, rfl, _⟩ | ⟨_, rfl, _⟩ | ⟨_, rfl, _⟩ <;> rfl
          refine h.device hsync ht he hc.le rfl fun i hi hexit => ?_
          by_cases hic : i = c
          · subst hic
            rw [Os.exited_cpu hc] at hexit
            rcases hcase with ⟨hl, _⟩ | ⟨hl, _⟩ | ⟨hl, _⟩ <;> rw [hl] at hexit <;> cases hexit
          · rw [Os.Exited, hld, hcpu i hic]
            exact hexit
      next => cases hs
  | loader =>
      have hm := ldRoutine_move hs
      obtain ⟨hcpu, hcase⟩ := hm.timer_cases
      rcases hcase with ⟨htimer, _⟩ | ⟨e, timer, loc, ht, rfl, hcase⟩
      · refine ⟨by rw [htimer]; exact h.scan, fun hlast d hd => ?_⟩
        rw [htimer] at hlast
        rw [← hsync'.gone d hd, htimer, hsync.gone d hd]
        exact h.last hlast d hd
      · have he : e.device = some cfg.numCpus := by
          rcases hcase with ⟨_, _, rfl, _⟩ | ⟨_, _, rfl, _⟩ | ⟨_, rfl, _⟩ <;> rfl
        refine h.device hsync ht he le_rfl rfl fun i hi hexit => ?_
        by_cases hic : i = cfg.numCpus
        · subst hic
          rw [Os.exited_ld] at hexit
          rcases hcase with ⟨_, hl, _⟩ | ⟨_, hl, _⟩ | ⟨hl, _⟩ <;> rw [hl] at hexit <;> cases hexit
        · rw [Os.Exited, if_neg hic] at hexit ⊢
          exact hexit
  | timer =>
      obtain ⟨timer, ht, rfl⟩ := Option.map_eq_some_iff.mp hs
      exact h.tick hsync ht
  | stop =>
      rw [osStep] at hs
      split at hs
      next hall =>
        obtain rfl := Option.some.inj hs
        refine ⟨h.scan, fun _ d hd => ?_⟩
        rcases Nat.lt_or_eq_of_le hd with hlt | rfl
        · exact (Os.exited_cpu hlt).mpr (hall.1 d hlt)
        · exact Os.exited_ld.mpr hall.2
      next => cases hs

theorem counted_of_reaches {es : List OsEvent} (h : Lts.Reaches (osStep cfg) cfg.start es s) :
    Counted cfg s := by
  have hboth : Synced cfg s ∧ Counted cfg s :=
    h.invariant (P := fun s => Synced cfg s ∧ Counted cfg s)
      ⟨synced_start cfg, counted_start cfg⟩ fun _ _ _ hok _ hs =>
        ⟨hok.1.step hs, hok.2.step hok.1 hs⟩
  exact hboth.2

end Threads

end SimpleOs
