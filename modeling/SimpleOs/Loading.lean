/-
# `SimpleOs.Loading` — in which time slot every process is loaded

The loader looks at `current_time()` once per slot and calls `next_slot` until
it is not below `start_time[i]`; after `add_proc` it calls `next_slot` once
more.  Whatever the CPUs and the timer do in between, that fixes the slot of
every `add_proc` (`loading_times`), and the slot in which `done` is set.

The time is a `uint64_t` that wraps around; ticks are counted without it.
-/
import SimpleOs.Slots

namespace SimpleOs

/-- The first tick from `now` on at which `current_time()` is not below `start`. -/
def due (now : Nat) (start : UInt64) : Nat := now + (start.toNat - now % 2 ^ 64)

/-- The tick at which the loader comes to process `i`. -/
def OsCfg.arrive (cfg : OsCfg) : Nat → Nat
  | 0 => 0
  | i + 1 => due (cfg.arrive i) (cfg.proc i).startTime + 1

/-- The tick at which the loader calls `add_proc` for process `i`. -/
def OsCfg.loadTick (cfg : OsCfg) (i : Nat) : Nat := due (cfg.arrive i) (cfg.proc i).startTime

/-- The tick at which the loader sets `done`. -/
def OsCfg.doneTick (cfg : OsCfg) : Nat := cfg.arrive cfg.numProcesses

/-! ## Waiting for `start_time` -/

section Due
variable {now : Nat} {start : UInt64}

theorem due_of_not_lt (h : ¬ UInt64.ofNat now < start) : due now start = now := by
  rw [UInt64.lt_iff_toNat_lt, UInt64.toNat_ofNat'] at h
  rw [due]
  omega

/-- One more slot spent waiting changes nothing. -/
theorem due_succ (h : UInt64.ofNat now < start) : due (now + 1) start = due now start := by
  have hmax := start.toNat_lt
  rw [UInt64.lt_iff_toNat_lt, UInt64.toNat_ofNat'] at h
  rw [due, due]
  omega

theorem le_due (now : Nat) (start : UInt64) : now ≤ due now start := Nat.le_add_right _ _

/-- Without overflow the wait ends at `start` or has ended. -/
theorem due_eq_max (h : now < 2 ^ 64) : due now start = max now start.toNat := by
  rw [due, Nat.mod_eq_of_lt h]
  omega

end Due

theorem OsCfg.arrive_succ (cfg : OsCfg) (i : Nat) : cfg.arrive (i + 1) = cfg.loadTick i + 1 := rfl

/-- The loader comes to one process after the other. -/
theorem OsCfg.arrive_mono (cfg : OsCfg) {i j : Nat} (h : i ≤ j) : cfg.arrive i ≤ cfg.arrive j := by
  induction h with
  | refl => exact Nat.le_refl _
  | step _ ih => exact (ih.trans (le_due _ _)).trans (Nat.le_succ _)

/-! ## The invariant -/

/-- Where the loader should be, at `ticks` ticks and after `calls` calls of `next_slot`. -/
def OsCfg.OnTime (cfg : OsCfg) (ld : LdThread) (ticks calls : Nat) : Prop :=
  match ld.loc with
  | .top | .done | .detach => ticks = cfg.arrive ld.i
  | .time => cfg.arrive ld.i ≤ ticks ∧ due ticks (cfg.proc ld.i).startTime = cfg.loadTick ld.i
  | .add => ticks = cfg.loadTick ld.i
  | .slot false =>
      cfg.arrive ld.i ≤ ticks ∧ due (ticks + 1) (cfg.proc ld.i).startTime = cfg.loadTick ld.i
  | .slot true => ticks + 1 = cfg.arrive ld.i
  | .wait false =>
      cfg.arrive ld.i ≤ ticks ∧ due calls (cfg.proc ld.i).startTime = cfg.loadTick ld.i
  | .wait true => calls = cfg.arrive ld.i
  | .exited => cfg.arrive ld.i ≤ ticks

/-- The loader is on time. -/
def Os.OnTime (cfg : OsCfg) (s : Os) : Prop :=
  cfg.OnTime s.ld s.timer.ticks (s.timer.dev cfg.numCpus).calls

section OnTime
variable {cfg : OsCfg} {s s' : Os}

/-- The step of the loader that looks at the time. -/
theorem ldRoutine_time (hloc : s.ld.loc = .time) (h : ldRoutine cfg s = some s') :
    (currentTime s.timer < (cfg.proc s.ld.i).startTime ∧
      s' = { s with ld := { s.ld with loc := .slot false } }) ∨
    (¬ currentTime s.timer < (cfg.proc s.ld.i).startTime ∧
      s' = { s with ld := { s.ld with loc := .add } }) := by
  rw [ldRoutine, hloc] at h
  obtain rfl := Option.some.inj h
  by_cases hearly : currentTime s.timer < (cfg.proc s.ld.i).startTime
  · exact Or.inl ⟨hearly, by simp only [hearly, if_true]⟩
  · exact Or.inr ⟨hearly, by simp only [hearly]; rfl⟩

/-- The loader, outside of `next_slot`, has made one call per tick. -/
theorem Synced.ld_calls (h : Synced cfg s) (hin : s.ld.loc.inside = true) :
    (s.timer.dev cfg.numCpus).calls = s.timer.ticks := by
  refine h.in_slot le_rfl ?_ ?_
  · rw [Os.waiting_ld]
    exact fun ⟨added, hl⟩ => LdLoc.ne_wait hin added hl
  · rw [Os.exited_ld]
    exact LdLoc.ne_exited hin

theorem Os.OnTime.loader (h : s.OnTime cfg) (hsync : Synced cfg s)
    (hs : ldRoutine cfg s = some s') : s'.OnTime cfg := by
  have hat : ∀ {l : LdLoc}, s.ld.loc = l → l.inside = true →
      (s.timer.dev cfg.numCpus).calls = s.timer.ticks := fun hl hin =>
    hsync.ld_calls (by rw [hl]; exact hin)
  cases ldRoutine_move hs with
  | next hl _ =>
      rw [Os.OnTime, OsCfg.OnTime, hl] at h
      have hticks : s.timer.ticks = cfg.arrive s.ld.i := h
      refine ⟨Nat.le_of_eq hticks.symm, ?_⟩
      show due s.timer.ticks _ = cfg.loadTick s.ld.i
      rw [hticks]
      rfl
  | last hl _ =>
      rw [Os.OnTime, OsCfg.OnTime, hl] at h
      exact h
  | early hl =>
      rw [Os.OnTime, OsCfg.OnTime, hl] at h
      obtain ⟨harrive, hdue⟩ := h
      rcases ldRoutine_time hl hs with ⟨hearly, _⟩ | ⟨_, heq⟩
      · rw [currentTime, hsync.timer.time] at hearly
        exact ⟨harrive, (due_succ hearly).trans hdue⟩
      · exact nomatch congrArg (fun s : Os => s.ld.loc) heq
  | due hl =>
      rw [Os.OnTime, OsCfg.OnTime, hl] at h
      rcases ldRoutine_time hl hs with ⟨_, heq⟩ | ⟨hlate, _⟩
      · exact nomatch congrArg (fun s : Os => s.ld.loc) heq
      · rw [currentTime, hsync.timer.time] at hlate
        exact (due_of_not_lt hlate).symm.trans h.2
  | add sched hl _ =>
      rw [Os.OnTime, OsCfg.OnTime, hl] at h
      exact congrArg (· + 1) h
  | call added timer hl hcall =>
      rw [Os.OnTime, OsCfg.OnTime, hl] at h
      have hcalls := hat hl (by cases added <;> rfl)
      obtain ⟨_, _, _, rfl⟩ := nextSlotCall_cases hcall
      have hnew : ((s.timer.setDev cfg.numCpus { s.timer.dev cfg.numCpus with
          done := true, waiting := true
          calls := (s.timer.dev cfg.numCpus).calls + 1 }).dev cfg.numCpus).calls =
          s.timer.ticks + 1 := by
        rw [Timer.setDev_self, ← hcalls]
      rw [Os.OnTime, OsCfg.OnTime, hnew]
      cases added with
      | false => exact h
      | true => exact h
  | ret added timer hl hret =>
      rw [Os.OnTime, OsCfg.OnTime, hl] at h
      obtain ⟨_, hw, hdone, rfl⟩ := nextSlotRet_cases hret
      have hdev := hsync.timer.dev cfg.numCpus (Nat.lt_succ_self _)
      have hcalls := hdev.in_slot hdone (hdev.not_gone hw)
      rw [Os.OnTime, OsCfg.OnTime]
      cases added with
      | false =>
          obtain ⟨harrive, hdue⟩ := h
          rw [hcalls] at hdue
          exact ⟨harrive, hdue⟩
      | true => exact hcalls.symm.trans h
  | done hl =>
      rw [Os.OnTime, OsCfg.OnTime, hl] at h
      exact h
  | detach timer hl hdetach =>
      rw [Os.OnTime, OsCfg.OnTime, hl] at h
      obtain ⟨_, _, _, rfl⟩ := detachEvent_cases hdetach
      exact Nat.le_of_eq (Eq.symm h)

theorem Os.OnTime.congr (h : s.OnTime cfg) (hld : s'.ld = s.ld)
    (hticks : s'.timer.ticks = s.timer.ticks)
    (hcalls : (s'.timer.dev cfg.numCpus).calls = (s.timer.dev cfg.numCpus).calls) :
    s'.OnTime cfg := by
  rw [Os.OnTime, hld, hticks, hcalls]
  exact h

/-- A tick finds the loader in `next_slot`, or gone. -/
theorem Os.OnTime.tick {timer : Timer} (h : s.OnTime cfg) (hsync : Synced cfg s)
    (hs : timerRoutine s.timer = some timer) : Os.OnTime cfg { s with timer } := by
  have hcalls := (timerRoutine_dev hs cfg.numCpus).2.2
  rcases hsync.tick_cases hs with hticks | ⟨hticks, hall⟩
  · exact h.congr rfl hticks hcalls
  · have hle : s.timer.ticks ≤ timer.ticks := by omega
    rw [Os.OnTime, OsCfg.OnTime] at h ⊢
    rcases hall cfg.numCpus le_rfl with hexit | ⟨hwait, _⟩
    · have hl : s.ld.loc = .exited := Os.exited_ld.mp hexit
      rw [hl] at h
      simp only [hl]
      exact Nat.le_trans h hle
    · obtain ⟨added, hl⟩ := Os.waiting_ld.mp hwait
      rw [hl] at h
      simp only [hl, hcalls]
      cases added with
      | false => exact ⟨h.1.trans hle, h.2⟩
      | true => exact h

theorem Os.OnTime.step {e : OsEvent} (h : s.OnTime cfg) (hsync : Synced cfg s)
    (hs : osStep cfg s e = some s') : s'.OnTime cfg := by
  cases e with
  | cpu c =>
      rw [osStep] at hs
      split at hs
      next hc =>
        have hm := cpuRoutine_move hs
        rcases hm.timer_cases with ⟨htimer, _⟩ | ⟨e, timer, loc, ht, rfl, hcase⟩
        · exact h.congr hm.frame.1 (by rw [htimer]) (by rw [htimer])
        · have he : e.device = some c := by
            rcases hcase with ⟨_, rfl, _⟩ | ⟨_, rfl, _⟩ | ⟨_, rfl, _⟩ <;> rfl
          obtain ⟨hticks, hdev⟩ := timerStep_device ht he
          exact h.congr rfl hticks (congrArg TimerId.calls (hdev _ (Nat.ne_of_gt hc)))
      next => cases hs
  | loader => exact h.loader hsync hs
  | timer =>
      obtain ⟨timer, ht, rfl⟩ := Option.map_eq_some_iff.mp hs
      exact h.tick hsync ht
  | stop =>
      rw [osStep] at hs
      split at hs
      next =>
        obtain rfl := Option.some.inj hs
        exact h
      next => cases hs

theorem onTime_of_reaches {es : List OsEvent} (h : Lts.Reaches (osStep cfg) cfg.start es s) :
    s.OnTime cfg := by
  have hboth : Synced cfg s ∧ s.OnTime cfg :=
    h.invariant (P := fun s => Synced cfg s ∧ s.OnTime cfg) ⟨synced_start cfg, rfl⟩
      fun _ _ _ hok _ hs => ⟨hok.1.step hs, hok.2.step hok.1 hs⟩
  exact hboth.2

/-- The loader has come to process `i`, or to the `next_slot` before it. -/
theorem Os.OnTime.arrive_le (h : s.OnTime cfg) (hsync : Synced cfg s) :
    cfg.arrive s.ld.i ≤ s.timer.ticks + 1 := by
  rw [Os.OnTime, OsCfg.OnTime] at h
  split at h
  next => omega
  next => omega
  next => omega
  next => exact h.1.trans (Nat.le_succ _)
  next =>
    have hle : cfg.arrive s.ld.i ≤ cfg.loadTick s.ld.i := le_due _ _
    omega
  next => exact h.1.trans (Nat.le_succ _)
  next => omega
  next => exact h.1.trans (Nat.le_succ _)
  next hl =>
    have hwait := hsync.calls_cases le_rfl (Os.waiting_ld.mpr ⟨true, hl⟩)
    omega
  next => omega

/-- The loader is not past the slot of the process it is at. -/
theorem Os.OnTime.le_loadTick (h : s.OnTime cfg) (hsync : Synced cfg s)
    (hafter : s.ld.loc.after = false) : s.timer.ticks ≤ cfg.loadTick s.ld.i := by
  have hle : cfg.arrive s.ld.i ≤ cfg.loadTick s.ld.i := le_due _ _
  rw [Os.OnTime, OsCfg.OnTime] at h
  split at h
  next => omega
  next hl => rw [hl] at hafter; cases hafter
  next hl => rw [hl] at hafter; cases hafter
  next => exact h.2 ▸ le_due _ _
  next => omega
  next => exact h.2 ▸ (Nat.le_succ _).trans (le_due _ _)
  next => omega
  next hl =>
    have hwait := hsync.calls_cases le_rfl (Os.waiting_ld.mpr ⟨false, hl⟩)
    have hdue := le_due (s.timer.dev cfg.numCpus).calls (cfg.proc s.ld.i).startTime
    omega
  next hl =>
    have hwait := hsync.calls_cases le_rfl (Os.waiting_ld.mpr ⟨true, hl⟩)
    omega
  next hl => rw [hl] at hafter; cases hafter

/-- The processes the loader has added are those before the one it is at, and past `done = 1` the
flag is set. -/
theorem loaded_of_reaches {es : List OsEvent} (h : Lts.Reaches (osStep cfg) cfg.start es s) :
    s.loaded = List.range s.ld.i ∧
    (s.ld.loc = .detach ∨ s.ld.loc = .exited → s.done = true) := by
  refine h.invariant (P := fun s => s.loaded = List.range s.ld.i ∧
    (s.ld.loc = .detach ∨ s.ld.loc = .exited → s.done = true))
    ⟨rfl, fun hl => (hl.elim LdLoc.noConfusion LdLoc.noConfusion)⟩ ?_
  rintro s e s' ⟨hl, hdone⟩ _ hs
  by_cases he : e = .loader
  · subst he
    have hno : ∀ {l : LdLoc}, l ≠ .detach → l ≠ .exited → l = .detach ∨ l = .exited →
        s'.done = true := fun hd he hl => (hl.elim hd he).elim
    cases ldRoutine_move hs with
    | add _ _ _ =>
        exact ⟨(congrArg (· ++ [s.ld.i]) hl).trans List.range_succ.symm,
          hno LdLoc.noConfusion LdLoc.noConfusion⟩
    | next _ _ => exact ⟨hl, hno LdLoc.noConfusion LdLoc.noConfusion⟩
    | last _ _ => exact ⟨hl, hno LdLoc.noConfusion LdLoc.noConfusion⟩
    | early _ => exact ⟨hl, hno LdLoc.noConfusion LdLoc.noConfusion⟩
    | due _ => exact ⟨hl, hno LdLoc.noConfusion LdLoc.noConfusion⟩
    | call _ _ _ _ => exact ⟨hl, hno LdLoc.noConfusion LdLoc.noConfusion⟩
    | ret added _ _ _ =>
        refine ⟨hl, ?_⟩
        cases added with
        | false => exact hno LdLoc.noConfusion LdLoc.noConfusion
        | true => exact hno LdLoc.noConfusion LdLoc.noConfusion
    | done _ => exact ⟨hl, fun _ => rfl⟩
    | detach _ hloc _ => exact ⟨hl, fun _ => hdone (Or.inl hloc)⟩
  · obtain ⟨hld, hd, hloaded⟩ := osStep_others hs he
    rw [hld, hd, hloaded]
    exact ⟨hl, hdone⟩

/-- A process that has been added was not added early. -/
theorem Os.OnTime.loadTick_le (h : s.OnTime cfg) (hsync : Synced cfg s) {p : Nat}
    (hp : p < s.ld.i) : cfg.loadTick p ≤ s.timer.ticks := by
  have hmono := cfg.arrive_mono (Nat.succ_le_of_lt hp)
  rw [cfg.arrive_succ] at hmono
  have hle := h.arrive_le hsync
  omega

/-- `done` is not set early. -/
theorem Os.OnTime.doneTick_le (h : s.OnTime cfg) (hctl : Control cfg s) (hset : s.done = true) :
    cfg.doneTick ≤ s.timer.ticks := by
  have hi : s.ld.i = cfg.numProcesses := by
    rcases hctl.done hset with hl | hl <;> exact hctl.after (by rw [hl]; rfl)
  rw [Os.OnTime, OsCfg.OnTime] at h
  rw [OsCfg.doneTick, ← hi]
  rcases hctl.done hset with hl | hl
  · rw [hl] at h
    exact Nat.le_of_eq (Eq.symm h)
  · rw [hl] at h
    exact h

/-- A process that is not loaded has not missed its slot. -/
theorem Os.OnTime.le_loadTick_of_le (h : s.OnTime cfg) (hsync : Synced cfg s)
    (hctl : Control cfg s) {p : Nat} (hp : p < cfg.numProcesses) (hle : s.ld.i ≤ p) :
    s.timer.ticks ≤ cfg.loadTick p := by
  have hbefore : s.ld.loc.after = false := by
    refine Bool.eq_false_iff.mpr fun hafter => ?_
    exact absurd (hctl.after hafter ▸ hp) (Nat.not_lt.mpr hle)
  have hload := h.le_loadTick hsync hbefore
  rcases Nat.eq_or_lt_of_le hle with heq | hlt
  · rwa [← heq]
  · have hmono := cfg.arrive_mono (Nat.succ_le_of_lt hlt)
    rw [cfg.arrive_succ] at hmono
    have hdue : cfg.arrive p ≤ cfg.loadTick p := le_due _ _
    omega

/-- Before `done` is set, the slot in which it will be is not over. -/
theorem Os.OnTime.le_doneTick (h : s.OnTime cfg) (hsync : Synced cfg s) (hctl : Control cfg s)
    (hloc : s.ld.loc ≠ .detach) (hloc' : s.ld.loc ≠ .exited) :
    s.timer.ticks ≤ cfg.doneTick := by
  have hmono := cfg.arrive_mono hctl.i_le
  by_cases hbefore : s.ld.loc.after = false
  · rcases Nat.lt_or_ge s.ld.i cfg.numProcesses with hlt | hge
    · have hle := h.le_loadTick hsync hbefore
      have hnext := cfg.arrive_mono (Nat.succ_le_of_lt hlt)
      rw [cfg.arrive_succ] at hnext
      rw [OsCfg.doneTick]
      omega
    · have hmid : s.ld.loc.before ≠ true := fun hb => absurd (hctl.before hb) (Nat.not_lt.mpr hge)
      rw [OsCfg.doneTick]
      rw [Os.OnTime, OsCfg.OnTime] at h
      split at h
      next => omega
      next => omega
      next hl => exact absurd hl hloc
      next hl => rw [hl] at hmid; exact absurd rfl hmid
      next hl => rw [hl] at hmid; exact absurd rfl hmid
      next hl => rw [hl] at hmid; exact absurd rfl hmid
      next => omega
      next hl => rw [hl] at hmid; exact absurd rfl hmid
      next hl =>
        have hwait := hsync.calls_cases le_rfl (Os.waiting_ld.mpr ⟨true, hl⟩)
        omega
      next hl => exact absurd hl hloc'
  · have hl : s.ld.loc = .done := by
      revert hbefore hloc hloc'
      cases s.ld.loc <;> simp [LdLoc.after]
    rw [Os.OnTime, OsCfg.OnTime, hl] at h
    rw [OsCfg.doneTick]
    exact (Nat.le_of_eq h).trans hmono

end OnTime

/-- The slot of the next process: its `start_time`, or the slot after that of the process before
it. -/
theorem OsCfg.loadTick_succ (cfg : OsCfg) (p : Nat) (h : cfg.loadTick p + 1 < 2 ^ 64) :
    cfg.loadTick (p + 1) = max (cfg.loadTick p + 1) (cfg.proc (p + 1)).startTime.toNat :=
  due_eq_max h

/-- Whatever the CPUs do, process `p` is added in the slot `loadTick p` and `done` is set in the
slot `doneTick`: neither is done in an earlier slot, and both are done before a later one. -/
theorem loading_times (cfg : OsCfg) (es : List OsEvent) (s : Os)
    (h : Lts.Reaches (osStep cfg) cfg.start es s) :
    (∀ p ∈ s.loaded, cfg.loadTick p ≤ s.timer.ticks) ∧
    (∀ p < cfg.numProcesses, cfg.loadTick p < s.timer.ticks → p ∈ s.loaded) ∧
    (s.done = true → cfg.doneTick ≤ s.timer.ticks) ∧
    (cfg.doneTick < s.timer.ticks → s.done = true) := by
  have hsync := synced_of_reaches h
  have htime := onTime_of_reaches h
  have hctl := control_of_reaches h
  obtain ⟨hloaded, hdone⟩ := loaded_of_reaches h
  refine ⟨fun p hp => ?_, fun p hp hlt => ?_, htime.doneTick_le hctl, fun hlt => ?_⟩
  · rw [hloaded] at hp
    exact htime.loadTick_le hsync (List.mem_range.mp hp)
  · rw [hloaded, List.mem_range]
    by_contra hge
    have hle := htime.le_loadTick_of_le hsync hctl hp (Nat.not_lt.mp hge)
    omega
  · by_contra hnot
    have hle := htime.le_doneTick hsync hctl (fun hl => hnot (hdone (Or.inl hl)))
      (fun hl => hnot (hdone (Or.inr hl)))
    omega

/-- One CPU, and a second process that starts in the third slot. -/
def lateProcesses : OsCfg :=
  { numCpus := 1, timeSlot := 1, ldProcesses :=
      [{ startTime := 0, prio := 0, size := 3 }, { startTime := 2, prio := 0, size := 1 }] }

/-- The loader waits for a slot and adds the second process, which takes the CPU from the first. -/
def lateProcessesRun : List OsEvent :=
  List.replicate 4 .loader ++ List.replicate 4 (.cpu 0) ++ List.replicate 7 .timer ++
  List.replicate 4 .loader ++ List.replicate 6 (.cpu 0) ++ List.replicate 7 .timer ++
  List.replicate 3 .loader ++ List.replicate 5 (.cpu 0)

theorem loading_times_late : ∃ s,
    Lts.Reaches (osStep lateProcesses) lateProcesses.start lateProcessesRun s ∧
    s.log = [(0, 0, 0), (0, 0, 1), (0, 1, 0)] ∧ s.timer.ticks = 2 ∧ 1 ∈ s.loaded ∧
    lateProcesses.loadTick 1 = 2 ∧ lateProcesses.loadTick 1 ≤ s.timer.ticks := by
  obtain ⟨s, hs⟩ := Option.isSome_iff_exists.mp
    (by decide +kernel :
      (Lts.exec (osStep lateProcesses) lateProcesses.start lateProcessesRun).isSome)
  have hlog : s.log = [(0, 0, 0), (0, 0, 1), (0, 1, 0)] :=
    Lts.exec_map (g := Os.log) hs (by decide +kernel)
  have hticks : s.timer.ticks = 2 :=
    Lts.exec_map (g := fun s => s.timer.ticks) hs (by decide +kernel)
  have hloaded : s.loaded = [0, 1] := Lts.exec_map (g := Os.loaded) hs (by decide +kernel)
  have hreach := Lts.reaches_of_exec hs
  have hmem : 1 ∈ s.loaded := hloaded ▸ List.mem_cons_of_mem _ List.mem_cons_self
  have hload : lateProcesses.loadTick 1 = max (0 + 1) 2 := lateProcesses.loadTick_succ 0 (by decide)
  exact ⟨s, hreach, hlog, hticks, hmem, hload,
    (loading_times lateProcesses _ s hreach).1 1 hmem⟩

end SimpleOs
