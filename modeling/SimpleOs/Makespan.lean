/-
# `SimpleOs.Makespan` — how many slots a run takes

A tick takes one off what is owed to each process that was served (`owed_tick`).
In a slot after `doneTick` the machine leaves no process waiting: a CPU that
ends the slot without having left holds a process, and when a CPU has left, the
others are as many as the unfinished processes (`Paced`).  So from then on the
slots are the rounds of a list scheduler (`rounds_of_reaches`), and the bound
on those is a bound on `_time`.
-/
import SimpleOs.Lib.Greedy
import SimpleOs.Pace

namespace SimpleOs

instance (t : CpuThread) : Decidable t.Attends :=
  inferInstanceAs (Decidable (¬ (_ ∨ _) ∧ ¬ (_ ∧ _)))

def OsCfg.jobs (cfg : OsCfg) : Finset Pid := Finset.range cfg.numProcesses

/-- The processes that were served in the current slot. -/
def Os.served (cfg : OsCfg) (s : Os) : Finset Pid := cfg.jobs.filter (s.Served cfg)

def Os.unfinished (cfg : OsCfg) (s : Os) : Finset Pid := cfg.jobs.filter (· ∉ s.finished)

def Os.attending (cfg : OsCfg) (s : Os) : Finset Nat :=
  (Finset.range cfg.numCpus).filter fun c => (s.cpu c).Attends

/-- What ties the slots to the ready queues. -/
structure Paced (cfg : OsCfg) (s : Os) : Prop where
  /-- Whoever is to be run needs a slot. -/
  pending : ∀ p, ¬ s.Touched cfg p → s.pc p < cfg.slots p
  /-- No CPU idles through a slot after the one in which `done` is set. -/
  busy : ∀ c < cfg.numCpus, s.Spent c → (s.cpu c).proc = none → s.timer.ticks ≤ cfg.doneTick
  /-- When a CPU has found the queues empty, the others are enough. -/
  enough : cfg.doneTick ≤ s.timer.ticks → ∀ c < cfg.numCpus, ¬ (s.cpu c).Attends →
    (s.unfinished cfg).card ≤ (s.attending cfg).card

theorem paced_start (cfg : OsCfg) : Paced cfg cfg.start where
  pending := fun _ _ => Nat.lt_of_lt_of_le Nat.zero_lt_one (Nat.le_max_left _ _)
  busy := fun _ _ h => (h.elim (fun h => nomatch h) (fun h => nomatch h.1))
  enough := fun _ _ _ h => absurd (attends_of_loc CpuLoc.noConfusion CpuLoc.noConfusion
    (Or.inl CpuLoc.noConfusion)) h

section Steps
variable {cfg : OsCfg} {s s' : Os} {c : Nat} {p q : Pid}

/-- CPU `c` attends after a step as it did before, or it is the step that finds nothing. -/
theorem CpuMove.attends (hm : CpuMove cfg s c s') (hatt : (s.cpu c).Attends) :
    (s'.cpu c).Attends ∨ (s'.finished = s.finished ∧ (∀ i < maxPrio, s.sched.ready i = []) ∧
      ((s.cpu c).proc = none ∨ (s.cpu c).loc = .get)) := by
  have hself : ∀ {sched finished pc log timer} (t : CpuThread), t.Attends →
      (({ s with sched, finished, pc, log, timer }.setCpu c t).cpu c).Attends := by
    intro sched finished pc log timer t ht
    rw [Os.setCpu_self]
    exact ht
  have hgo : ∀ {t : CpuThread}, t.loc ≠ .detach → t.loc ≠ .exited →
      t.loc ≠ .recheck ∨ t.proc ≠ none → t.Attends := attends_of_loc
  cases hm with
  | idle hl hall => exact Or.inr ⟨rfl, hall, hl.imp And.right id⟩
  | dispatch prio p sched _ _ =>
      exact Or.inl (hself _
        (hgo CpuLoc.noConfusion CpuLoc.noConfusion (Or.inr (Option.some_ne_none p))))
  | finish p _ _ _ =>
      exact Or.inl (hself _ (hgo CpuLoc.noConfusion CpuLoc.noConfusion (Or.inl CpuLoc.noConfusion)))
  | put p sched _ _ _ =>
      exact Or.inl (hself _ (hgo CpuLoc.noConfusion CpuLoc.noConfusion (Or.inl CpuLoc.noConfusion)))
  | stop hl hproc _ => exact absurd ⟨hl, hproc⟩ hatt.2
  | skip hl hproc _ => exact absurd ⟨hl, hproc⟩ hatt.2
  | keep p timeLeft loc hproc hl =>
      have hsome : (s.cpu c).proc ≠ none := by rw [hproc]; exact Option.some_ne_none p
      rcases hl with ⟨_, rfl⟩ | ⟨_, rfl⟩ | ⟨_, rfl, _⟩ <;>
        exact Or.inl (hself _ (hgo CpuLoc.noConfusion CpuLoc.noConfusion (Or.inr hsome)))
  | exec p _ _ _ =>
      exact Or.inl (hself _ (hgo CpuLoc.noConfusion CpuLoc.noConfusion (Or.inl CpuLoc.noConfusion)))
  | timer e timer loc hl _ =>
      rcases hl with ⟨_, _, rfl⟩ | ⟨_, _, rfl⟩ | ⟨hl, _, _⟩
      · exact Or.inl (hself _
          (hgo CpuLoc.noConfusion CpuLoc.noConfusion (Or.inl CpuLoc.noConfusion)))
      · exact Or.inl (hself _
          (hgo CpuLoc.noConfusion CpuLoc.noConfusion (Or.inl CpuLoc.noConfusion)))
      · exact absurd (Or.inl hl) hatt.1

/-- More CPUs attend to no more processes. -/
theorem Paced.enough_mono (h : Paced cfg s) (hticks : s'.timer.ticks = s.timer.ticks)
    (hatt : ∀ c, (s.cpu c).Attends → (s'.cpu c).Attends)
    (hfin : ∀ p ∈ s.finished, p ∈ s'.finished) (hdone : cfg.doneTick ≤ s'.timer.ticks) (i : Nat)
    (hi : i < cfg.numCpus) (hnot : ¬ (s'.cpu i).Attends) :
    (s'.unfinished cfg).card ≤ (s'.attending cfg).card := by
  have hle := h.enough (hticks ▸ hdone) i hi fun ha => hnot (hatt i ha)
  have hsub : s'.unfinished cfg ⊆ s.unfinished cfg := fun p hp =>
    Finset.mem_filter.mpr ⟨(Finset.mem_filter.mp hp).1, fun hmem =>
      (Finset.mem_filter.mp hp).2 (hfin p hmem)⟩
  have hsup : s.attending cfg ⊆ s'.attending cfg := fun c hc =>
    Finset.mem_filter.mpr ⟨(Finset.mem_filter.mp hc).1, hatt c (Finset.mem_filter.mp hc).2⟩
  exact (Finset.card_le_card hsub).trans (hle.trans (Finset.card_le_card hsup))

/-- The process CPU `c` holds, if any. -/
def Os.inHand (s : Os) (c : Nat) : Pid := (s.cpu c).proc.getD 0

/-- When the queues are empty and nothing is still to come, every unfinished process is in the
hands of a CPU. -/
theorem enough_of_idle (hsync : Synced cfg s) (hok : OsOk cfg s) (htime : s.OnTime cfg)
    (hfits : cfg.Fits) (hdone : cfg.doneTick ≤ s.timer.ticks)
    (hall : ∀ i < maxPrio, s.sched.ready i = []) :
    (s.unfinished cfg).card ≤ ((s.attending cfg).filter fun c =>
      (s.cpu c).proc ≠ none ∧ (s.cpu c).loc ≠ .get).card := by
  obtain ⟨place, hloc⟩ := hok.located
  refine (Finset.card_le_card fun p hp => ?_).trans
    (Finset.card_image_le (s := (s.attending cfg).filter fun c =>
      (s.cpu c).proc ≠ none ∧ (s.cpu c).loc ≠ .get) (f := s.inHand))
  obtain ⟨hp, hfin⟩ := Finset.mem_filter.mp hp
  have hlt : p < cfg.numProcesses := Finset.mem_range.mp hp
  cases hplace : place p with
  | unloaded =>
      have hle := htime.le_loadTick_of_le hsync hok.control hlt ((hloc.unloaded p).mp hplace)
      have hmono := cfg.arrive_mono (Nat.succ_le_of_lt hlt)
      rw [cfg.arrive_succ] at hmono
      rw [OsCfg.doneTick] at hdone
      omega
  | ready =>
      have hmem := (hloc.ready (cfg.proc p).prio p).mpr ⟨hplace, rfl⟩
      rw [hall _ (hfits.prio_lt hlt)] at hmem
      exact absurd hmem List.not_mem_nil
  | hand c =>
      obtain ⟨hproc, hget⟩ := (hloc.held c p).mpr hplace
      have hsome : (s.cpu c).proc ≠ none := by rw [hproc]; exact Option.some_ne_none p
      have hc : c < cfg.numCpus :=
        Nat.lt_of_not_le fun hge => hsome (hok.control.beyond c hge)
      have hatt : (s.cpu c).Attends :=
        ⟨fun hst => hsome (hok.control.stopped c hst).1, fun hnull => hsome hnull.2⟩
      refine Finset.mem_image.mpr ⟨c, ?_, ?_⟩
      · exact Finset.mem_filter.mpr
          ⟨Finset.mem_filter.mpr ⟨Finset.mem_range.mpr hc, hatt⟩, hsome, hget⟩
      · rw [Os.inHand, hproc]
        rfl
  | finished => exact absurd ((hloc.finished p).mpr hplace) hfin

/-- A CPU ends a slot without a process only if `done` was not set when it looked. -/
theorem CpuMove.idles (hm : CpuMove cfg s c s') (hspent : s'.Spent c)
    (hnone : (s'.cpu c).proc = none) :
    s.done = false ∨ s.Spent c ∧ (s.cpu c).proc = none := by
  have hno : ∀ {sched finished pc log timer} {t : CpuThread} {P : Prop},
      ({ s with sched, finished, pc, log, timer }.setCpu c t).Spent c →
      t.loc ≠ .slot → t.loc ≠ .wait → P :=
    fun hs hns hnw => absurd hs (not_spent (Os.setCpu_self ..) hns hnw)
  cases hm with
  | idle _ _ => exact hno hspent CpuLoc.noConfusion CpuLoc.noConfusion
  | dispatch _ _ _ _ _ => exact hno hspent CpuLoc.noConfusion CpuLoc.noConfusion
  | finish _ _ _ _ => exact hno hspent CpuLoc.noConfusion CpuLoc.noConfusion
  | put _ _ _ _ _ => exact hno hspent CpuLoc.noConfusion CpuLoc.noConfusion
  | stop _ _ _ => exact hno hspent CpuLoc.noConfusion CpuLoc.noConfusion
  | skip _ _ hdone => exact Or.inl hdone
  | keep p _ _ hproc _ =>
      rw [Os.setCpu_self, hproc] at hnone
      exact nomatch hnone
  | exec p _ hproc _ =>
      rw [Os.setCpu_self, hproc] at hnone
      exact nomatch hnone
  | timer e timer loc hl _ =>
      rw [Os.setCpu_self] at hnone
      rcases hl with ⟨hl, _, rfl⟩ | ⟨_, _, rfl⟩ | ⟨_, _, rfl⟩
      · exact Or.inr ⟨Or.inl hl, hnone⟩
      · exact hno hspent CpuLoc.noConfusion CpuLoc.noConfusion
      · exact hno hspent CpuLoc.noConfusion CpuLoc.noConfusion

theorem Paced.cpu (h : Paced cfg s) (hc : c < cfg.numCpus)
    (hs : cpuRoutine cfg s c = some s') (hsync : Synced cfg s) (hok : OsOk cfg s)
    (htime : s.OnTime cfg) (hfits : cfg.Fits)
    (hset : s.ld.loc = .detach ∨ s.ld.loc = .exited → s.done = true) : Paced cfg s' := by
  have hm := cpuRoutine_move hs
  obtain ⟨_, _, _, hcpu⟩ := hm.frame
  obtain ⟨hticks, hspent⟩ := hm.spent_others
  refine ⟨(hm.slots hc hs hsync hok).pending h.pending, fun i hi hi' hnone => ?_,
    fun hdone i hi hnot => ?_⟩
  · rw [hticks]
    by_cases hic : i = c
    · subst hic
      rcases hm.idles hi' hnone with hdone | ⟨hi', hnone⟩
      · have hno : ¬ (s.ld.loc = .detach ∨ s.ld.loc = .exited) := fun hl =>
          Bool.false_ne_true (hdone.symm.trans (hset hl))
        exact htime.le_doneTick hsync hok.control (fun hl => hno (Or.inl hl))
          fun hl => hno (Or.inr hl)
      · exact h.busy i hi hi' hnone
    · exact h.busy i hi ((hspent i hic).mp hi') (by rw [← hcpu i hic]; exact hnone)
  · by_cases hatt : (s.cpu c).Attends → (s'.cpu c).Attends
    · refine h.enough_mono hticks (fun j hj => ?_) ?_ hdone i hi hnot
      · by_cases hjc : j = c
        · subst hjc
          exact hatt hj
        · rw [hcpu j hjc]
          exact hj
      · intro p hp
        cases hm with
        | finish q _ _ _ => exact List.mem_append_left _ hp
        | idle _ _ => exact hp
        | dispatch _ _ _ _ _ => exact hp
        | put _ _ _ _ _ => exact hp
        | stop _ _ _ => exact hp
        | skip _ _ _ => exact hp
        | keep _ _ _ _ _ => exact hp
        | exec _ _ _ _ => exact hp
        | timer _ _ _ _ _ => exact hp
    · obtain ⟨hatt, hnatt⟩ := Classical.not_imp.mp hatt
      obtain ⟨hfin, hall, hfree⟩ := (hm.attends hatt).resolve_left hnatt
      have hle := enough_of_idle hsync hok htime hfits (hticks ▸ hdone) hall
      have heq : s'.unfinished cfg = s.unfinished cfg := by
        rw [Os.unfinished, Os.unfinished, hfin]
      rw [heq]
      refine hle.trans (Finset.card_le_card fun j hj => ?_)
      obtain ⟨hj, hproc, hget⟩ := Finset.mem_filter.mp hj
      obtain ⟨hjn, hj⟩ := Finset.mem_filter.mp hj
      have hjc : j ≠ c := by
        rintro rfl
        exact hfree.elim hproc hget
      exact Finset.mem_filter.mpr ⟨hjn, by rw [hcpu j hjc]; exact hj⟩

/-- A step that moves no CPU and no time. -/
theorem Paced.same (h : Paced cfg s) (hcpu : s'.cpu = s.cpu) (hfin : s'.finished = s.finished)
    (hpc : s'.pc = s.pc) (hticks : s'.timer.ticks = s.timer.ticks)
    (hcalls : ∀ i < cfg.numCpus, (s'.timer.dev i).calls = (s.timer.dev i).calls) :
    Paced cfg s' := by
  have hsame := sameFor_of_cpu hcpu hfin hpc hticks hcalls
  refine ⟨fun q hq => ?_, fun i hi hspent hnone => ?_, fun hdone i hi hnot => ?_⟩
  · rw [hpc]
    exact h.pending q fun ht => hq ((hsame q).1.mpr ht)
  · rw [hticks]
    rw [spent_congr (congrFun hcpu i) (hcalls i hi) hticks] at hspent
    exact h.busy i hi hspent (by rw [← hcpu]; exact hnone)
  · exact h.enough_mono hticks (fun c hc => by rw [hcpu]; exact hc)
      (fun p hp => by rw [hfin]; exact hp) hdone i hi hnot

/-! ## At a tick -/

/-- The slot is over: the CPUs that have not left have been served. -/
def Os.Over (cfg : OsCfg) (s : Os) : Prop :=
  ∀ d ≤ cfg.numCpus, s.Exited cfg d ∨
    (s.Waiting cfg d ∧ (s.timer.dev d).calls = s.timer.ticks + 1)

theorem Os.Over.cpu (h : s.Over cfg) (hc : c < cfg.numCpus) :
    (s.cpu c).loc = .exited ∨ ((s.cpu c).loc = .wait ∧ s.Spent c) := by
  rcases h c hc.le with hexit | ⟨hwait, hcalls⟩
  · exact Or.inl ((Os.exited_cpu hc).mp hexit)
  · have hl := (Os.waiting_cpu hc).mp hwait
    exact Or.inr ⟨hl, Or.inr ⟨hl, hcalls⟩⟩

/-- Nobody was served in the slot that begins. -/
theorem Os.Over.not_spent {timer : Timer} (h : s.Over cfg) (hc : c < cfg.numCpus)
    (hticks : timer.ticks = s.timer.ticks + 1)
    (hcalls : (timer.dev c).calls = (s.timer.dev c).calls) :
    ¬ Os.Spent { s with timer } c := by
  rintro (hslot | ⟨hwait, hnext⟩)
  · rcases h.cpu hc with hl | ⟨hl, _⟩
    · exact CpuLoc.noConfusion (hl.symm.trans hslot)
    · exact CpuLoc.noConfusion (hl.symm.trans hslot)
  · rcases h c hc.le with hexit | ⟨_, hcall⟩
    · exact CpuLoc.noConfusion (((Os.exited_cpu hc).mp hexit).symm.trans hwait)
    · have hsame : (timer.dev c).calls = timer.ticks + 1 := hnext
      omega

theorem Paced.tick {timer : Timer} (h : Paced cfg s) (hover : s.Over cfg) (hok : OsOk cfg s)
    (htime : s.OnTime cfg) (hticks : timer.ticks = s.timer.ticks + 1)
    (hcalls : ∀ i, (timer.dev i).calls = (s.timer.dev i).calls) :
    Paced cfg { s with timer } := by
  refine ⟨h.pending, fun i hi hspent => ?_, fun hdone i hi hnot => ?_⟩
  · exact absurd hspent (hover.not_spent hi hticks (hcalls i))
  · -- a CPU that has left saw `done` set
    have hset : s.done = true := by
      rcases hover.cpu hi with hl | ⟨hl, _⟩
      · exact (hok.control.stopped i (Or.inr hl)).2
      · refine absurd (attends_of_loc ?_ ?_ (Or.inl ?_)) hnot <;>
        · show (s.cpu i).loc ≠ _
          rw [hl]
          exact CpuLoc.noConfusion
    exact h.enough (htime.doneTick_le hok.control hset) i hi hnot

/-! ## One slot -/

/-- What is known of every reachable state. -/
structure Known (cfg : OsCfg) (s : Os) : Prop where
  sync : Synced cfg s
  ok : OsOk cfg s
  time : s.OnTime cfg
  counted : Counted cfg s
  set : s.ld.loc = .detach ∨ s.ld.loc = .exited → s.done = true

theorem known_of_reaches {es : List OsEvent} (hcpus : 1 ≤ cfg.numCpus) (hfits : cfg.Fits)
    (h : Lts.Reaches (osStep cfg) cfg.start es s) : Known cfg s :=
  ⟨synced_of_reaches h, osOk_of_reaches hcpus hfits h, onTime_of_reaches h, counted_of_reaches h,
    (loaded_of_reaches h).2⟩

/-- A step within a slot leaves what is owed alone; any other ends the slot. -/
theorem Paced.step_cases {e : OsEvent} (h : Paced cfg s) (hk : Known cfg s) (hfits : cfg.Fits)
    (hs : osStep cfg s e = some s') :
    (s'.timer.ticks = s.timer.ticks ∧ s'.owed cfg = s.owed cfg ∧ Paced cfg s') ∨
    ∃ timer, timerRoutine s.timer = some timer ∧ s' = { s with timer } ∧
      timer.ticks = s.timer.ticks + 1 ∧ s.Over cfg ∧ Paced cfg s' := by
  cases e with
  | cpu c =>
      rw [osStep] at hs
      split at hs
      next hc =>
        have hm := cpuRoutine_move hs
        exact Or.inl ⟨hm.spent_others.1, funext ((hm.slots hc hs hk.sync hk.ok).owed h.pending),
          h.cpu hc hs hk.sync hk.ok hk.time hfits hk.set⟩
      next => cases hs
  | loader =>
      obtain ⟨hcpu, hfin, hpc, hticks, hcalls⟩ := (ldRoutine_move hs).slots
      exact Or.inl ⟨hticks, funext fun q => (sameFor_of_cpu hcpu hfin hpc hticks hcalls q).owed,
        h.same hcpu hfin hpc hticks hcalls⟩
  | timer =>
      obtain ⟨timer, ht, rfl⟩ := Option.map_eq_some_iff.mp hs
      have hcalls := fun i => (timerRoutine_dev ht i).2.2
      rcases hk.sync.tick_cases ht with hticks | ⟨hticks, hover⟩
      · have hsame : ∀ q, s.SameFor cfg { s with timer } q :=
          sameFor_of_cpu rfl rfl rfl hticks fun i _ => hcalls i
        exact Or.inl ⟨hticks, funext fun q => (hsame q).owed,
          h.same rfl rfl rfl hticks fun i _ => hcalls i⟩
      · exact Or.inr ⟨timer, ht, rfl, hticks, hover,
          h.tick hover hk.ok hk.time hticks hcalls⟩
  | stop =>
      rw [osStep] at hs
      split at hs
      next =>
        obtain rfl := Option.some.inj hs
        exact Or.inl ⟨rfl, funext fun q =>
          (sameFor_of_cpu rfl rfl rfl rfl (fun _ _ => rfl) q).owed,
          h.same rfl rfl rfl rfl fun _ _ => rfl⟩
      next => cases hs

theorem paced_of_reaches {es : List OsEvent} (hcpus : 1 ≤ cfg.numCpus) (hfits : cfg.Fits)
    (h : Lts.Reaches (osStep cfg) cfg.start es s) : Paced cfg s := by
  induction h with
  | nil => exact paced_start cfg
  | snoc e hrun _ hs ih =>
      rcases ih.step_cases (known_of_reaches hcpus hfits hrun) hfits hs with
        ⟨_, _, h⟩ | ⟨_, _, _, _, _, h⟩
      · exact h
      · exact h

/-- A process that was served is loaded and not finished. -/
theorem OsOk.served (hok : OsOk cfg s) (h : s.Served cfg p) : p < s.ld.i ∧ p ∉ s.finished := by
  obtain ⟨place, hloc⟩ := hok.located
  obtain ⟨c, _, hspent, hproc⟩ := h
  have hp : s.Holds c p := ⟨hproc, fun hget => by
    rcases hspent with hl | ⟨hl, _⟩ <;> exact CpuLoc.noConfusion (hget.symm.trans hl)⟩
  refine ⟨Nat.lt_of_not_le fun hle => ?_, (hloc.alone hp).1⟩
  exact Place.noConfusion (((hloc.held c p).mp hp).symm.trans ((hloc.unloaded p).mpr hle))

theorem OsOk.mem_served (hok : OsOk cfg s) : p ∈ s.served cfg ↔ s.Served cfg p :=
  ⟨fun h => (Finset.mem_filter.mp h).2, fun h => Finset.mem_filter.mpr
    ⟨Finset.mem_range.mpr ((hok.served h).1.trans_le hok.control.i_le), h⟩⟩

theorem OsOk.owed_pos (hok : OsOk cfg s) (hp : p ∈ s.served cfg) : 0 < s.owed cfg p := by
  rw [Os.owed, if_pos (hok.mem_served.mp hp)]
  exact Nat.succ_pos _

/-- A finished process needs no slot. -/
theorem OsOk.owed_finished (hok : OsOk cfg s) (hp : p ∈ s.finished) : s.owed cfg p = 0 := by
  have htouch : s.Touched cfg p := Or.inl hp
  rw [Os.owed, Os.left, if_pos htouch, hok.progress.finished p hp, Nat.sub_self,
    if_neg fun hs => (hok.served hs).2 hp]

/-- A tick takes a slot off each process that was served. -/
theorem owed_tick {timer : Timer} (hok : OsOk cfg s) (hover : s.Over cfg)
    (hticks : timer.ticks = s.timer.ticks + 1)
    (hcalls : ∀ i, (timer.dev i).calls = (s.timer.dev i).calls) :
    Os.owed cfg { s with timer } = Greedy.serve (s.served cfg) (s.owed cfg) := by
  funext q
  have hnot : ¬ Os.Served cfg { s with timer } q := fun ⟨i, hi, hspent, _⟩ =>
    hover.not_spent hi hticks (hcalls i) hspent
  have hleft : Os.left cfg { s with timer } q = s.left cfg q := rfl
  simp only [Greedy.serve, hok.mem_served]
  rw [Os.owed, Os.owed, if_neg hnot, hleft]
  by_cases hq : s.Served cfg q
  · rw [if_pos hq, if_pos hq]
    rfl
  · rw [if_neg hq, if_neg hq]

theorem card_served_le (cfg : OsCfg) (s : Os) : (s.served cfg).card ≤ cfg.numCpus := by
  have hsub : s.served cfg ⊆ (Finset.range cfg.numCpus).image s.inHand := fun p hp => by
    obtain ⟨c, hc, _, hproc⟩ := (Finset.mem_filter.mp hp).2
    refine Finset.mem_image.mpr ⟨c, Finset.mem_range.mpr hc, ?_⟩
    rw [Os.inHand, hproc]
    rfl
  have hcard := (Finset.card_le_card hsub).trans Finset.card_image_le
  rwa [Finset.card_range] at hcard

/-- After `doneTick` every CPU that has not left holds a process at the end of the slot. -/
theorem Paced.card_attending (h : Paced cfg s) (hok : OsOk cfg s) (hover : s.Over cfg)
    (hlate : cfg.doneTick < s.timer.ticks) :
    (s.attending cfg).card ≤ (s.served cfg).card := by
  obtain ⟨place, hloc⟩ := hok.located
  have hproc : ∀ c ∈ s.attending cfg, s.Spent c ∧ (s.cpu c).loc = .wait ∧
      (s.cpu c).proc = some (s.inHand c) := by
    intro c hc
    obtain ⟨hc, hatt⟩ := Finset.mem_filter.mp hc
    have hc := Finset.mem_range.mp hc
    rcases hover.cpu hc with hl | ⟨hl, hspent⟩
    · exact absurd (Or.inr hl) hatt.1
    · refine ⟨hspent, hl, ?_⟩
      cases hp : (s.cpu c).proc with
      | none => exact absurd (h.busy c hc hspent hp) (Nat.not_le.mpr hlate)
      | some p => rw [Os.inHand, hp]; rfl
  refine Finset.card_le_card_of_injOn s.inHand (fun c hc => ?_) fun c hc d hd heq => ?_
  · obtain ⟨hspent, _, hp⟩ := hproc c hc
    exact hok.mem_served.mpr
      ⟨c, Finset.mem_range.mp (Finset.mem_filter.mp hc).1, hspent, hp⟩
  · obtain ⟨_, hl, hp⟩ := hproc c hc
    obtain ⟨_, hl', hp'⟩ := hproc d hd
    have hheld : s.Holds c (s.inHand c) := ⟨hp, by rw [hl]; exact CpuLoc.noConfusion⟩
    have hheld' : s.Holds d (s.inHand c) :=
      ⟨heq ▸ hp', by rw [hl']; exact CpuLoc.noConfusion⟩
    exact ((hloc.alone hheld).2 d hheld').symm

/-- A slot after `doneTick` in which a CPU is left is a round of a list scheduler. -/
theorem Paced.round (h : Paced cfg s) (hok : OsOk cfg s) (hover : s.Over cfg)
    (hlate : cfg.doneTick < s.timer.ticks) (hc : c < cfg.numCpus)
    (hl : (s.cpu c).loc ≠ .exited) :
    Greedy.Round cfg.numCpus cfg.jobs (s.served cfg) (s.owed cfg) where
  sub := Finset.filter_subset _ _
  nonempty := by
    have hspent := ((hover.cpu hc).resolve_left hl).2
    cases hp : (s.cpu c).proc with
    | none => exact absurd (h.busy c hc hspent hp) (Nat.not_le.mpr hlate)
    | some p => exact ⟨p, hok.mem_served.mpr ⟨c, hc, hspent, hp⟩⟩
  work := fun _ => hok.owed_pos
  greedy := by
    have hcard := h.card_attending hok hover hlate
    by_cases hall : ∀ i < cfg.numCpus, (s.cpu i).Attends
    · refine Or.inl (Nat.le_antisymm (card_served_le cfg s) ?_)
      have heq : s.attending cfg = Finset.range cfg.numCpus :=
        Finset.filter_true_of_mem fun i hi => hall i (Finset.mem_range.mp hi)
      rwa [heq, Finset.card_range] at hcard
    · obtain ⟨i, hi⟩ := not_forall.mp hall
      obtain ⟨hi, hnot⟩ := Classical.not_imp.mp hi
      have hsub : s.served cfg ⊆ s.unfinished cfg := fun p hp =>
        Finset.mem_filter.mpr ⟨(Finset.mem_filter.mp hp).1,
          (hok.served (hok.mem_served.mp hp)).2⟩
      have heq := Finset.eq_of_subset_of_card_le hsub
        ((h.enough hlate.le i hi hnot).trans hcard)
      refine Or.inr fun p hp hpos => ?_
      by_contra hserved
      have hfin : p ∈ s.finished := by
        by_contra hfin
        rw [heq] at hserved
        exact hserved (Finset.mem_filter.mpr ⟨hp, hfin⟩)
      exact absurd hpos (by rw [hok.owed_finished hfin]; exact Nat.lt_irrefl 0)

/-! ## All slots -/

theorem left_le (cfg : OsCfg) (s : Os) (p : Pid) : s.left cfg p ≤ cfg.slots p := by
  have hle : (cfg.proc p).size ≤ cfg.slots p := Nat.le_max_right _ _
  rw [Os.left]
  split <;> omega

/-- The timer is in its last loop, or has returned. -/
def Timer.Ending (t : Timer) : Prop := (∃ rest n, t.pc = .release rest n n) ∨ t.pc = .exited

theorem Timer.Ending.routine {t t' : Timer} (h : t.Ending) (hs : timerRoutine t = some t') :
    t'.Ending ∧ t'.ticks = t.ticks := by
  rcases h with ⟨rest, n, hpc⟩ | hpc
  · rw [timerRoutine, hpc] at hs
    cases rest with
    | nil =>
        obtain rfl := Option.some.inj hs
        exact ⟨Or.inr (if_pos rfl), rfl⟩
    | cons temp rest =>
        obtain rfl := Option.some.inj hs
        exact ⟨Or.inl ⟨rest, n, rfl⟩, rfl⟩
  · rw [timerRoutine, hpc] at hs
    cases hs

theorem timerStep_pc {t t' : Timer} {e : TimerEvent} (h : timerStep t e = some t')
    (he : e ≠ .tick) : t'.pc = t.pc := by
  cases e with
  | tick => exact absurd rfl he
  | call d => obtain ⟨_, _, _, rfl⟩ := nextSlotCall_cases h; rfl
  | ret d => obtain ⟨_, _, _, rfl⟩ := nextSlotRet_cases h; rfl
  | detach d => obtain ⟨_, _, _, rfl⟩ := detachEvent_cases h; rfl
  | stop => obtain rfl := Option.some.inj h; rfl

/-- A step of the machine leaves the timer alone or is a step of it. -/
theorem osStep_timer {e : OsEvent} (hs : osStep cfg s e = some s') :
    s'.timer = s.timer ∨ ∃ te, timerStep s.timer te = some s'.timer := by
  cases e with
  | cpu c =>
      rw [osStep] at hs
      split at hs
      next =>
        rcases (cpuRoutine_move hs).timer_cases with ⟨htimer, _⟩ | ⟨e, timer, loc, ht, rfl, _⟩
        · exact Or.inl htimer
        · exact Or.inr ⟨e, ht⟩
      next => cases hs
  | loader =>
      obtain ⟨_, ⟨htimer, _⟩ | ⟨e, timer, loc, ht, rfl, _⟩⟩ := (ldRoutine_move hs).timer_cases
      · exact Or.inl htimer
      · exact Or.inr ⟨e, ht⟩
  | timer =>
      obtain ⟨timer, ht, rfl⟩ := Option.map_eq_some_iff.mp hs
      exact Or.inr ⟨.tick, ht⟩
  | stop =>
      rw [osStep] at hs
      split at hs
      next =>
        obtain rfl := Option.some.inj hs
        exact Or.inr ⟨.stop, rfl⟩
      next => cases hs

theorem Timer.Ending.step {e : OsEvent} (h : s.timer.Ending) (hs : osStep cfg s e = some s') :
    s'.timer.Ending := by
  rcases osStep_timer hs with htimer | ⟨te, ht⟩
  · rwa [htimer]
  · by_cases hte : te = .tick
    · subst hte
      exact (h.routine ht).1
    · rw [Timer.Ending, timerStep_pc ht hte]
      exact h

/-- From the slot after `doneTick` on, every slot is a round of a list scheduler, up to the one
in which the last threads leave. -/
theorem rounds_of_reaches {es : List OsEvent} (hcpus : 1 ≤ cfg.numCpus) (hfits : cfg.Fits)
    (h : Lts.Reaches (osStep cfg) cfg.start es s) :
    ∃ k left₀, (∀ p, left₀ p ≤ cfg.slots p) ∧
      Greedy.Rounds cfg.numCpus cfg.jobs left₀ k (s.owed cfg) ∧
      (s.timer.ticks ≤ cfg.doneTick + 1 + k ∨
        s.timer.ticks ≤ cfg.doneTick + 2 + k ∧ s.timer.Ending) := by
  induction h with
  | nil =>
      refine ⟨0, _, fun p => ?_, .zero, Or.inl (Nat.zero_le _)⟩
      have hnot : ¬ cfg.start.Served cfg p := by
        rintro ⟨_, _, hl | ⟨hl, _⟩, _⟩
        · exact CpuLoc.noConfusion hl
        · exact CpuLoc.noConfusion hl
      rw [Os.owed, if_neg hnot]
      exact left_le cfg _ p
  | @snoc es s s' e hrun _ hs ih =>
      obtain ⟨k, left₀, hle, hrounds, hticks⟩ := ih
      have hk := known_of_reaches hcpus hfits hrun
      have hp := paced_of_reaches hcpus hfits hrun
      rcases hp.step_cases hk hfits hs with ⟨hsame, howed, _⟩ |
        ⟨timer, ht, rfl, hnext, hover, _⟩
      · refine ⟨k, left₀, hle, howed ▸ hrounds, ?_⟩
        rw [hsame]
        exact hticks.imp id fun hend => ⟨hend.1, hend.2.step hs⟩
      · have hcalls := fun i => (timerRoutine_dev ht i).2.2
        have howed := owed_tick hk.ok hover hnext hcalls
        have hnot : ¬ s.timer.Ending := fun hend => by
          have hsame := (hend.routine ht).2
          omega
        have hbefore := hticks.resolve_right fun hend => hnot hend.2
        show ∃ k left₀, _ ∧ Greedy.Rounds _ _ _ _ (Os.owed cfg { s with timer }) ∧
          (timer.ticks ≤ _ ∨ timer.ticks ≤ _ ∧ timer.Ending)
        rcases Nat.lt_or_ge cfg.doneTick s.timer.ticks with hlate | hearly
        · by_cases hall : ∀ c < cfg.numCpus, (s.cpu c).loc = .exited
          · -- the slot in which the last threads left
            have hexit : ∀ d ≤ cfg.numCpus, s.Exited cfg d := by
              intro d hd
              rcases hover d hd with hexit | ⟨hwait, _⟩
              · exact hexit
              · rcases Nat.lt_or_eq_of_le hd with hlt | rfl
                · exact (Os.exited_cpu hlt).mpr (hall d hlt)
                · obtain ⟨added, hl⟩ := Os.waiting_ld.mp hwait
                  have hle := hk.time.le_doneTick hk.sync hk.ok.control
                    (by rw [hl]; exact LdLoc.noConfusion) (by rw [hl]; exact LdLoc.noConfusion)
                  exact absurd hle (Nat.not_le.mpr hlate)
            have hend := hk.counted.last_tick hk.sync ht (by omega) hexit
            have hnone : s.served cfg = ∅ := by
              refine Finset.filter_false_of_mem ?_
              rintro p _ ⟨c, hc, hl | ⟨hl, _⟩, _⟩ <;>
                exact CpuLoc.noConfusion ((hall c hc).symm.trans hl)
            rw [hnone, Greedy.serve_empty] at howed
            exact ⟨k, left₀, hle, howed ▸ hrounds, Or.inr ⟨by omega, Or.inl hend⟩⟩
          · obtain ⟨c, hc⟩ := not_forall.mp hall
            obtain ⟨hc, hl⟩ := Classical.not_imp.mp hc
            have hround := hp.round hk.ok hover hlate hc hl
            exact ⟨k + 1, left₀, hle, howed ▸ hrounds.round _ hround, Or.inl (by omega)⟩
        · -- the rounds have not begun
          refine ⟨0, _, fun p => ?_, .zero, Or.inl (by omega)⟩
          have hnot : ¬ Os.Served cfg { s with timer } p := by
            rintro ⟨i, hi, hspent, _⟩
            exact hover.not_spent hi hnext (hcalls i) hspent
          rw [Os.owed, if_neg hnot]
          exact left_le cfg _ p

/-- What has not been served yet, in total and of each process. -/
structure Unserved (cfg : OsCfg) (s : Os) : Prop where
  total : ∑ p ∈ cfg.jobs, cfg.slots p ≤ ∑ p ∈ cfg.jobs, s.owed cfg p + cfg.numCpus * s.timer.ticks
  each : ∀ p < cfg.numProcesses,
    cfg.slots p ≤ s.owed cfg p + (s.timer.ticks - cfg.loadTick p)

theorem unserved_of_reaches {es : List OsEvent} (hcpus : 1 ≤ cfg.numCpus) (hfits : cfg.Fits)
    (h : Lts.Reaches (osStep cfg) cfg.start es s) : Unserved cfg s := by
  induction h with
  | nil =>
      have hfull : ∀ p, cfg.slots p ≤ cfg.start.owed cfg p := fun p => by
        have hnot : ¬ cfg.start.Touched cfg p := fun ht =>
          ht.elim (fun hmem => nomatch hmem) fun ⟨_, _, hpast⟩ => nomatch hpast.1
        rw [Os.owed, Os.left, if_neg hnot]
        exact Nat.le_add_right _ _
      exact ⟨(Finset.sum_le_sum fun p _ => hfull p).trans (Nat.le_add_right _ _),
        fun p _ => (hfull p).trans (Nat.le_add_right _ _)⟩
  | @snoc es s s' e hrun _ hs ih =>
      have hk := known_of_reaches hcpus hfits hrun
      rcases (paced_of_reaches hcpus hfits hrun).step_cases hk hfits hs with
        ⟨hsame, howed, _⟩ | ⟨timer, ht, rfl, hnext, hover, _⟩
      · refine ⟨?_, fun p hp => ?_⟩
        · rw [howed, hsame]
          exact ih.total
        · rw [howed, hsame]
          exact ih.each p hp
      · have howed := owed_tick hk.ok hover hnext fun i => (timerRoutine_dev ht i).2.2
        have hticks : Timer.ticks (Os.timer { s with timer }) = s.timer.ticks + 1 := hnext
        refine ⟨?_, fun p hp => ?_⟩
        · have hsub : s.served cfg ⊆ cfg.jobs := Finset.filter_subset _ _
          have hsum := Greedy.sum_serve hsub fun _ => hk.ok.owed_pos
          have hcard := card_served_le cfg s
          have htotal := ih.total
          rw [howed, hticks, Nat.mul_add, Nat.mul_one]
          omega
        · have heach := ih.each p hp
          rw [howed, hticks, Greedy.serve]
          split
          next hserved =>
            -- a process that is served is loaded
            have hload := hk.time.loadTick_le hk.sync (hk.ok.served (hk.ok.mem_served.mp hserved)).1
            omega
          next => omega

end Steps

theorem rounds_le {cfg : OsCfg} {s : Os} {es : List OsEvent} (hcpus : 1 ≤ cfg.numCpus)
    (hfits : cfg.Fits) (h : Lts.Reaches (osStep cfg) cfg.start es s) :
    ∃ k, s.timer.ticks ≤ cfg.doneTick + 2 + k ∧
      cfg.numCpus * k ≤ ∑ p ∈ cfg.jobs, cfg.slots p + cfg.numCpus * cfg.jobs.sup cfg.slots := by
  obtain ⟨k, left₀, hle, hrounds, hticks⟩ := rounds_of_reaches hcpus hfits h
  have hlen := hrounds.length_le
  have hmono : Greedy.potential cfg.numCpus cfg.jobs left₀ ≤
      Greedy.potential cfg.numCpus cfg.jobs cfg.slots := Greedy.potential_mono fun p _ => hle p
  rw [Greedy.potential, Greedy.potential] at hlen hmono
  refine ⟨k, ?_, by omega⟩
  rcases hticks with h | ⟨h, _⟩ <;> omega

/-- However the threads are interleaved, `_time` stays below the slot in which `done` is set and
the time a list scheduler needs for all the work. -/
theorem ticks_le (cfg : OsCfg) (hcpus : 1 ≤ cfg.numCpus) (hfits : cfg.Fits) (es : List OsEvent)
    (s : Os) (h : Lts.Reaches (osStep cfg) cfg.start es s) :
    cfg.numCpus * s.timer.ticks ≤ ∑ p ∈ cfg.jobs, cfg.slots p +
      cfg.numCpus * (cfg.doneTick + 2 + cfg.jobs.sup cfg.slots) := by
  obtain ⟨k, htime, hrounds⟩ := rounds_le hcpus hfits h
  have hmul := Nat.mul_le_mul_left cfg.numCpus htime
  rw [Nat.mul_add] at hmul
  rw [Nat.mul_add]
  omega

/-- A process is not reported finished before it had its slots, counted from the one in which it
was loaded; and all are not before the CPUs had the time for all of them. -/
theorem ticks_ge (cfg : OsCfg) (hcpus : 1 ≤ cfg.numCpus) (hfits : cfg.Fits) (es : List OsEvent)
    (s : Os) (h : Lts.Reaches (osStep cfg) cfg.start es s) :
    (∀ p ∈ s.finished, cfg.loadTick p + cfg.slots p ≤ s.timer.ticks) ∧
    ((∀ p < cfg.numProcesses, p ∈ s.finished) →
      ∑ p ∈ cfg.jobs, cfg.slots p ≤ cfg.numCpus * s.timer.ticks) := by
  have hok := osOk_of_reaches hcpus hfits h
  have hun := unserved_of_reaches hcpus hfits h
  obtain ⟨place, hloc⟩ := hok.located
  refine ⟨fun p hp => ?_, fun hall => ?_⟩
  · have hlt : p < cfg.numProcesses := by
      refine Nat.lt_of_lt_of_le (Nat.lt_of_not_le fun hle => ?_) hok.control.i_le
      exact Place.noConfusion (((hloc.finished p).mp hp).symm.trans ((hloc.unloaded p).mpr hle))
    have heach := hun.each p hlt
    rw [hok.owed_finished hp] at heach
    have hpos : 1 ≤ cfg.slots p := Nat.le_max_left _ _
    omega
  · have htotal := hun.total
    have hzero : ∑ p ∈ cfg.jobs, s.owed cfg p = 0 :=
      Finset.sum_eq_zero fun p hp => hok.owed_finished (hall p (Finset.mem_range.mp hp))
    rwa [hzero, Nat.zero_add] at htotal

/-- Two CPUs and three instructions: two slots for the processes, one for the CPUs to stop in. -/
theorem ticks_le_two : ∃ s,
    Lts.Reaches (osStep twoProcesses) twoProcesses.start twoProcessesRun s ∧
    s.timer.ticks = 2 ∧ 2 * s.timer.ticks ≤ 3 + 2 * (2 + 2 + 2) := by
  obtain ⟨s, hs⟩ := Option.isSome_iff_exists.mp
    (by decide +kernel :
      (Lts.exec (osStep twoProcesses) twoProcesses.start twoProcessesRun).isSome)
  have hticks : s.timer.ticks = 2 :=
    Lts.exec_map (g := fun s => s.timer.ticks) hs (by decide +kernel)
  have hreach := Lts.reaches_of_exec hs
  exact ⟨s, hreach, hticks, ticks_le twoProcesses (by decide) twoProcesses_fits _ s hreach⟩

theorem ticks_ge_two : ∃ s,
    Lts.Reaches (osStep twoProcesses) twoProcesses.start twoProcessesRun s ∧
    s.finished = [1, 0] ∧ twoProcesses.loadTick 1 + twoProcesses.slots 1 ≤ s.timer.ticks ∧
    3 ≤ 2 * s.timer.ticks := by
  obtain ⟨s, hs⟩ := Option.isSome_iff_exists.mp
    (by decide +kernel :
      (Lts.exec (osStep twoProcesses) twoProcesses.start twoProcessesRun).isSome)
  have hfin : s.finished = [1, 0] := Lts.exec_map (g := Os.finished) hs (by decide +kernel)
  have hreach := Lts.reaches_of_exec hs
  obtain ⟨heach, hall⟩ := ticks_ge twoProcesses (by decide) twoProcesses_fits _ s hreach
  refine ⟨s, hreach, hfin, heach 1 (hfin ▸ List.mem_cons_self), hall fun p hp => ?_⟩
  have hp2 : p < 2 := hp
  rw [hfin]
  obtain rfl | rfl : p = 0 ∨ p = 1 := by omega
  · exact List.mem_cons_of_mem _ List.mem_cons_self
  · exact List.mem_cons_self

end SimpleOs
