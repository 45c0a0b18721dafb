/-
# `SimpleOs.Termination` — `main` returns

`Os.rank` counts how far the threads are: the calls of `next_slot` a device has
completed and its place in the loop, the ticks and the place of the timer.
Every step raises it, `stop_timer` apart; as no device is ahead of the timer
and `_time` is bounded (`rounds_le`), so is the length of a run.

No run is stuck before its end: the timer waits for one device, and the thread
of that device can take its next step (`exists_step`).
-/
import SimpleOs.Makespan

namespace SimpleOs

/-- How far `cpu_routine` is in its loop. -/
def CpuLoc.rank : CpuLoc → Nat
  | .top => 0
  | .get => 1
  | .recheck => 2
  | .run => 3
  | .slot => 4
  | .wait => 5
  | .detach => 3
  | .exited => 4

/-- How far `ld_routine` is in its loop. -/
def LdLoc.rank : LdLoc → Nat
  | .top => 0
  | .time => 1
  | .add => 2
  | .slot _ => 3
  | .wait _ => 4
  | .done => 1
  | .detach => 2
  | .exited => 3

/-- How far `timer_routine` is since the last tick, with `m` devices. -/
def TimerPc.rank (m : Nat) : TimerPc → Nat
  | .release rest _ _ => m - rest.length
  | .top => m + 1
  | .exited => m + 2
  | .scan rest _ _ => m + 2 + (m - rest.length)

def Timer.rank (m : Nat) (t : Timer) : Nat := (2 * m + 3) * t.ticks + t.pc.rank m

def Os.cpuRank (s : Os) (c : Nat) : Nat := 6 * (s.timer.dev c).completed + (s.cpu c).loc.rank

def Os.ldRank (cfg : OsCfg) (s : Os) : Nat :=
  5 * (s.timer.dev cfg.numCpus).completed + s.ld.loc.rank

/-- How far the machine is. -/
def Os.rank (cfg : OsCfg) (s : Os) : Nat :=
  ∑ c ∈ Finset.range cfg.numCpus, s.cpuRank c + s.ldRank cfg + s.timer.rank (cfg.numCpus + 1)

/-- Every thread has returned. -/
def Os.Returned (cfg : OsCfg) (s : Os) : Prop :=
  (∀ d ≤ cfg.numCpus, s.Exited cfg d) ∧ s.timer.pc = .exited

/-! ## Every step counts -/

section Rank
variable {cfg : OsCfg} {s s' : Os} {c : Nat}

/-- The calls a device has returned from change when it returns from one. -/
theorem completed_step {t t' : Timer} {e : TimerEvent} (h : timerStep t e = some t') (d : Nat) :
    (t'.dev d).completed = (t.dev d).completed + if e = .ret d then 1 else 0 := by
  have hset : ∀ {i : Nat} {id : TimerId}, id.completed = (t.dev i).completed →
      ((t.setDev i id).dev d).completed = (t.dev d).completed := by
    intro i id hid
    by_cases hd : d = i
    · subst hd
      rw [Timer.setDev_self, hid]
    · rw [Timer.setDev_of_ne t id hd]
  cases e with
  | tick =>
      rcases timerRoutine_cases h with ⟨_, rfl⟩ | ⟨_, rfl⟩ | ⟨_, _, _, _, _, _, _, rfl⟩ |
        ⟨_, _, _, rfl⟩ | ⟨_, _, _, _, _, rfl⟩ | ⟨_, _, _, rfl | rfl⟩
      · rfl
      · rfl
      · rfl
      · rfl
      · exact hset rfl
      · rfl
      · rfl
  | call i =>
      obtain ⟨_, _, _, rfl⟩ := nextSlotCall_cases h
      exact hset rfl
  | ret i =>
      obtain ⟨_, _, _, rfl⟩ := nextSlotRet_cases h
      by_cases hd : d = i
      · subst hd
        rw [Timer.setDev_self, if_pos rfl]
      · rw [Timer.setDev_of_ne t _ hd, if_neg fun heq => hd (TimerEvent.ret.inj heq).symm]
        rfl
  | detach i =>
      obtain ⟨_, _, _, rfl⟩ := detachEvent_cases h
      exact hset rfl
  | stop =>
      obtain rfl := Option.some.inj h
      rfl

theorem timerRoutine_rank {m : Nat} {t t' : Timer} (hok : TimerOk m t)
    (h : timerRoutine t = some t') : t.rank m < t'.rank m := by
  have hrest := hok.rest.length_le
  rw [length_attached] at hrest
  have hlist : t.devList.length = m := by rw [hok.devList, length_attached]
  rcases timerRoutine_cases h with ⟨hpc, rfl⟩ | ⟨hpc, rfl⟩ | ⟨_, _, _, _, _, hpc, _, rfl⟩ |
    ⟨_, _, hpc, rfl⟩ | ⟨_, _, _, _, hpc, rfl⟩ | ⟨_, _, hpc, rfl | rfl⟩ <;>
  simp only [Timer.rank, hpc, TimerPc.rank, TimerPc.rest, List.length_cons, List.length_nil,
    hlist, Timer.setDev, Nat.mul_add] at hrest ⊢ <;> omega

/-- A device does not move the timer. -/
theorem rank_device {m : Nat} {t t' : Timer} {e : TimerEvent} {d : Nat}
    (h : timerStep t e = some t') (he : e.device = some d) : t'.rank m = t.rank m := by
  have hpc := timerStep_pc h (by rintro rfl; cases he)
  rw [Timer.rank, Timer.rank, hpc, (timerStep_device h he).1]

theorem CpuMove.rank (hm : CpuMove cfg s c s') : s.cpuRank c < s'.cpuRank c := by
  have hself : ∀ {sched finished pc log} {t : CpuThread} (l m : CpuLoc), (s.cpu c).loc = l →
      t.loc = m → l.rank < m.rank →
      s.cpuRank c < ({ s with sched, finished, pc, log }.setCpu c t).cpuRank c := by
    intro sched finished pc log t l m hl ht hlt
    rw [Os.cpuRank, Os.cpuRank, Os.setCpu_self, hl, ht]
    exact Nat.add_lt_add_left hlt _
  cases hm with
  | idle hl _ =>
      rcases hl with ⟨hl, _⟩ | hl
      · exact hself .top .recheck hl rfl (by decide)
      · exact hself .get .recheck hl rfl (by decide)
  | dispatch _ _ _ hl _ =>
      rcases hl with ⟨hl, _⟩ | hl
      · exact hself .top .recheck hl rfl (by decide)
      · exact hself .get .recheck hl rfl (by decide)
  | finish _ hl _ _ => exact hself .top .get hl rfl (by decide)
  | put _ _ hl _ _ => exact hself .top .get hl rfl (by decide)
  | stop hl _ _ => exact hself .recheck .detach hl rfl (by decide)
  | skip hl _ _ => exact hself .recheck .slot hl rfl (by decide)
  | keep _ _ _ _ hl =>
      rcases hl with ⟨hl, rfl⟩ | ⟨hl, rfl⟩ | ⟨hl, rfl, _⟩
      · exact hself .top .recheck hl rfl (by decide)
      · exact hself .recheck .run hl rfl (by decide)
      · exact hself .run .slot hl rfl (by decide)
  | exec _ hl _ _ => exact hself .run .slot hl rfl (by decide)
  | timer e timer loc hl ht =>
      have hdone := completed_step ht c
      rw [Os.cpuRank, Os.cpuRank, Os.setCpu_self]
      show _ < 6 * (timer.dev c).completed + loc.rank
      rcases hl with ⟨hl, rfl, rfl⟩ | ⟨hl, rfl, rfl⟩ | ⟨hl, rfl, rfl⟩
      · rw [hdone, hl]
        simp [CpuLoc.rank]
      · rw [hdone, hl, if_pos rfl]
        simp only [CpuLoc.rank]
        omega
      · rw [hdone, hl]
        simp [CpuLoc.rank]

theorem LdMove.rank (hm : LdMove cfg s s') : s.ldRank cfg < s'.ldRank cfg := by
  have hat : ∀ l m : LdLoc, s.ld.loc = l → l.rank < m.rank → s.ldRank cfg <
      5 * (s.timer.dev cfg.numCpus).completed + m.rank := by
    intro l m hl hlt
    rw [Os.ldRank, hl]
    exact Nat.add_lt_add_left hlt _
  have hdev : ∀ {e : TimerEvent} {timer : Timer}, timerStep s.timer e = some timer →
      (timer.dev cfg.numCpus).completed =
        (s.timer.dev cfg.numCpus).completed + if e = .ret cfg.numCpus then 1 else 0 :=
    fun hs => completed_step hs cfg.numCpus
  cases hm with
  | next hl _ => exact hat .top .time hl (by decide)
  | last hl _ => exact hat .top .done hl (by decide)
  | early hl => exact hat .time (.slot false) hl (by decide)
  | due hl => exact hat .time .add hl (by decide)
  | add _ hl _ => exact hat .add (.slot true) hl (by decide)
  | done hl => exact hat .done .detach hl (by decide)
  | call added timer hl hs =>
      have hsame := hdev (e := .call cfg.numCpus) hs
      show _ < 5 * (timer.dev cfg.numCpus).completed + _
      rw [hsame]
      exact hat (.slot added) (.wait added) hl (Nat.lt_succ_self 3)
  | ret added timer hl hs =>
      have hnext := hdev (e := .ret cfg.numCpus) hs
      rw [if_pos rfl] at hnext
      show _ < 5 * (timer.dev cfg.numCpus).completed + _
      rw [hnext, Os.ldRank, hl]
      simp only [LdLoc.rank]
      omega
  | detach timer hl hs =>
      have hsame := hdev (e := .detach cfg.numCpus) hs
      show _ < 5 * (timer.dev cfg.numCpus).completed + _
      rw [hsame]
      exact hat .detach .exited hl (by decide)

/-- Every step but `stop_timer` gets the machine further. -/
theorem osStep_rank {e : OsEvent} (hsync : Synced cfg s) (hs : osStep cfg s e = some s')
    (he : e ≠ .stop) : s.rank cfg < s'.rank cfg := by
  cases e with
  | cpu c =>
      rw [osStep] at hs
      split at hs
      next hc =>
        have hm := cpuRoutine_move hs
        obtain ⟨hld, _, _, hcpu⟩ := hm.frame
        have hothers : (∀ i, i ≠ c → (s'.timer.dev i).completed = (s.timer.dev i).completed) ∧
            s'.timer.rank (cfg.numCpus + 1) = s.timer.rank (cfg.numCpus + 1) := by
          rcases hm.timer_cases with ⟨htimer, _⟩ | ⟨e, timer, loc, ht, rfl, hcase⟩
          · exact ⟨fun i _ => by rw [htimer], by rw [htimer]⟩
          · have he : e.device = some c := by
              rcases hcase with ⟨_, rfl, _⟩ | ⟨_, rfl, _⟩ | ⟨_, rfl, _⟩ <;> rfl
            exact ⟨fun i hi => congrArg TimerId.completed ((timerStep_device ht he).2 i hi),
              rank_device ht he⟩
        have hsum : ∑ i ∈ Finset.range cfg.numCpus, s.cpuRank i <
            ∑ i ∈ Finset.range cfg.numCpus, s'.cpuRank i := by
          refine Finset.sum_lt_sum (fun i _ => ?_) ⟨c, Finset.mem_range.mpr hc, hm.rank⟩
          by_cases hic : i = c
          · exact hic ▸ hm.rank.le
          · rw [Os.cpuRank, Os.cpuRank, hothers.1 i hic, hcpu i hic]
        have hldRank : s'.ldRank cfg = s.ldRank cfg := by
          rw [Os.ldRank, Os.ldRank, hothers.1 _ (Nat.ne_of_gt hc), hld]
        rw [Os.rank, Os.rank, hldRank, hothers.2]
        omega
      next => cases hs
  | loader =>
      have hm := ldRoutine_move hs
      obtain ⟨hcpu, hcase⟩ := hm.timer_cases
      have hothers : (∀ i < cfg.numCpus,
          (s'.timer.dev i).completed = (s.timer.dev i).completed) ∧
          s'.timer.rank (cfg.numCpus + 1) = s.timer.rank (cfg.numCpus + 1) := by
        rcases hcase with ⟨htimer, _⟩ | ⟨e, timer, loc, ht, rfl, hcase⟩
        · exact ⟨fun i _ => by rw [htimer], by rw [htimer]⟩
        · have he : e.device = some cfg.numCpus := by
            rcases hcase with ⟨_, _, rfl, _⟩ | ⟨_, _, rfl, _⟩ | ⟨_, rfl, _⟩ <;> rfl
          exact ⟨fun i hi => congrArg TimerId.completed
            ((timerStep_device ht he).2 i (Nat.ne_of_lt hi)), rank_device ht he⟩
      have hsum : ∑ i ∈ Finset.range cfg.numCpus, s'.cpuRank i =
          ∑ i ∈ Finset.range cfg.numCpus, s.cpuRank i :=
        Finset.sum_congr rfl fun i hi => by
          rw [Os.cpuRank, Os.cpuRank, hothers.1 i (Finset.mem_range.mp hi), hcpu]
      have hrank := hm.rank
      rw [Os.rank, Os.rank, hsum, hothers.2]
      omega
  | timer =>
      obtain ⟨timer, ht, rfl⟩ := Option.map_eq_some_iff.mp hs
      have hrank := timerRoutine_rank hsync.timer ht
      have hcompleted : ∀ i, (timer.dev i).completed = (s.timer.dev i).completed := fun i =>
        completed_step (e := .tick) ht i
      have hsum : ∑ i ∈ Finset.range cfg.numCpus, Os.cpuRank { s with timer } i =
          ∑ i ∈ Finset.range cfg.numCpus, s.cpuRank i :=
        Finset.sum_congr rfl fun i _ => by rw [Os.cpuRank, Os.cpuRank, hcompleted]
      have hld : Os.ldRank cfg { s with timer } = s.ldRank cfg := by
        rw [Os.ldRank, Os.ldRank, hcompleted]
      rw [Os.rank, Os.rank, hsum, hld]
      exact Nat.add_lt_add_left hrank _
  | stop => exact absurd rfl he

theorem osStep_rank_stop (hs : osStep cfg s .stop = some s') : s'.rank cfg = s.rank cfg := by
  rw [osStep] at hs
  split at hs
  next =>
    obtain rfl := Option.some.inj hs
    rfl
  next => cases hs

/-- No device is ahead of the timer. -/
theorem completed_le {es : List OsEvent} (h : Lts.Reaches (osStep cfg) cfg.start es s) :
    ∀ d ≤ cfg.numCpus, (s.timer.dev d).completed ≤ s.timer.ticks := by
  induction h with
  | nil => exact fun _ _ => Nat.le_refl 0
  | @snoc es s s' e hrun _ hs ih =>
      have hsync := synced_of_reaches hrun
      intro d hd
      have hle := ih d hd
      rcases osStep_timer hs with htimer | ⟨te, ht⟩
      · rw [htimer]
        exact hle
      · have hnext := completed_step ht d
        have hticks : s.timer.ticks ≤ s'.timer.ticks := by
          rcases hsync.timer.time_step ht with ⟨_, heq⟩ | ⟨_, heq, _⟩ <;> omega
        by_cases hte : te = .ret d
        · -- a device returns from the call of a slot that is over
          subst hte
          obtain ⟨_, hw, hdone, _⟩ := nextSlotRet_cases ht
          have hdev := hsync.timer.dev d (Nat.lt_succ_of_le hd)
          have hcalls := hdev.in_slot hdone (hdev.not_gone hw)
          have hall := hdev.calls
          have hback := hdev.completed
          rw [hdone] at hall hback
          rw [hw] at hback
          rw [if_pos rfl] at hnext
          simp only [Bool.toNat_false, Bool.not_false, Bool.and_self, Bool.toNat_true]
            at hall hback
          omega
        · rw [if_neg hte] at hnext
          omega

theorem CpuLoc.rank_le (l : CpuLoc) : l.rank ≤ 5 := by cases l <;> decide

theorem LdLoc.rank_le (l : LdLoc) : l.rank ≤ 4 := by
  cases l with
  | slot _ => exact Nat.le_succ 3
  | wait _ => exact Nat.le_refl 4
  | _ => decide

theorem TimerPc.rank_le (m : Nat) (pc : TimerPc) : pc.rank m ≤ 2 * m + 2 := by
  cases pc <;> simp only [TimerPc.rank] <;> omega

/-- How far the machine can be at a time. -/
def OsCfg.rankAt (cfg : OsCfg) (ticks : Nat) : Nat :=
  cfg.numCpus * (6 * ticks + 5) + (5 * ticks + 4) +
    ((2 * (cfg.numCpus + 1) + 3) * ticks + (2 * (cfg.numCpus + 1) + 2))

theorem OsCfg.rankAt_mono (cfg : OsCfg) {m n : Nat} (h : m ≤ n) :
    cfg.rankAt m ≤ cfg.rankAt n := by
  have hcpus := Nat.mul_le_mul_left cfg.numCpus (show 6 * m + 5 ≤ 6 * n + 5 by omega)
  have htimer := Nat.mul_le_mul_left (2 * (cfg.numCpus + 1) + 3) h
  rw [OsCfg.rankAt, OsCfg.rankAt]
  omega

theorem rank_le {es : List OsEvent} (h : Lts.Reaches (osStep cfg) cfg.start es s) :
    s.rank cfg ≤ cfg.rankAt s.timer.ticks := by
  have hle := completed_le h
  have hcpus : ∑ c ∈ Finset.range cfg.numCpus, s.cpuRank c ≤
      cfg.numCpus * (6 * s.timer.ticks + 5) := by
    have hall : ∑ c ∈ Finset.range cfg.numCpus, s.cpuRank c ≤
        ∑ _c ∈ Finset.range cfg.numCpus, (6 * s.timer.ticks + 5) :=
      Finset.sum_le_sum fun c hc => by
        have hc := hle c (Finset.mem_range.mp hc).le
        have hloc := (s.cpu c).loc.rank_le
        rw [Os.cpuRank]
        omega
    rwa [Finset.sum_const_nat fun _ _ => rfl, Finset.card_range] at hall
  have hld := hle cfg.numCpus le_rfl
  have hldLoc := s.ld.loc.rank_le
  have hpc := s.timer.pc.rank_le (cfg.numCpus + 1)
  rw [Os.rank, Os.ldRank, Timer.rank, OsCfg.rankAt]
  omega

end Rank

/-! ## No run is stuck -/

section Enabled
variable {cfg : OsCfg} {s s' : Os} {c : Nat}

theorem CpuMove.run_proc (hm : CpuMove cfg s c s') (hl : (s'.cpu c).loc = .run) :
    (s'.cpu c).proc ≠ none := by
  have hno : ∀ {sched finished pc log timer} {t : CpuThread} {P : Prop},
      (({ s with sched, finished, pc, log, timer }.setCpu c t).cpu c).loc = .run →
      t.loc ≠ .run → P := by
    intro sched finished pc log timer t P hl hne
    rw [Os.setCpu_self] at hl
    exact absurd hl hne
  cases hm with
  | keep p _ _ hproc _ =>
      rw [Os.setCpu_self]
      show (s.cpu c).proc ≠ none
      rw [hproc]
      exact Option.some_ne_none p
  | idle _ _ => exact hno hl CpuLoc.noConfusion
  | dispatch _ _ _ _ _ => exact hno hl CpuLoc.noConfusion
  | finish _ _ _ _ => exact hno hl CpuLoc.noConfusion
  | put _ _ _ _ _ => exact hno hl CpuLoc.noConfusion
  | stop _ _ _ => exact hno hl CpuLoc.noConfusion
  | skip _ _ _ => exact hno hl CpuLoc.noConfusion
  | exec _ _ _ _ => exact hno hl CpuLoc.noConfusion
  | timer _ _ _ hcase _ =>
      rcases hcase with ⟨_, _, rfl⟩ | ⟨_, _, rfl⟩ | ⟨_, _, rfl⟩ <;>
        exact hno hl CpuLoc.noConfusion

/-- `run` is called with a process. -/
theorem run_proc {es : List OsEvent} (h : Lts.Reaches (osStep cfg) cfg.start es s) (c : Nat) :
    (s.cpu c).loc = .run → (s.cpu c).proc ≠ none := by
  refine h.invariant (P := fun s => (s.cpu c).loc = .run → (s.cpu c).proc ≠ none)
    (fun hl => CpuLoc.noConfusion hl) fun s e s' ih _ hs => ?_
  cases e with
  | cpu i =>
      rw [osStep] at hs
      split at hs
      next =>
        have hm := cpuRoutine_move hs
        by_cases hi : c = i
        · subst hi
          exact hm.run_proc
        · obtain ⟨_, _, _, hcpu⟩ := hm.frame
          rw [hcpu c hi]
          exact ih
      next => cases hs
  | loader => rw [(ldRoutine_move hs).timer_cases.1]; exact ih
  | timer =>
      obtain ⟨timer, _, rfl⟩ := Option.map_eq_some_iff.mp hs
      exact ih
  | stop =>
      rw [osStep] at hs
      split at hs
      next =>
        obtain rfl := Option.some.inj hs
        exact ih
      next => cases hs

theorem enqueueMlq_isOk (sched : Sched) {p : Pid} {prio : Nat} (h : prio < maxPrio)
    (f : Sched → Os) : ((enqueueMlq sched p prio).toOption.map f).isSome := by
  rw [enqueueMlq, if_pos h]
  rfl

theorem onTimer_isSome {e : TimerEvent} (h : (timerStep s.timer e).isSome) (f : Os → Os) :
    ((s.onTimer e).map f).isSome := by
  rw [Option.isSome_map, Os.onTimer, Option.isSome_map]
  exact h

/-- The critical sections of a device are open to its thread, but for the wait in the second half
of `next_slot`. -/
theorem Synced.device_isSome (h : Synced cfg s) {d : Nat} (hd : d ≤ cfg.numCpus) :
    (¬ s.Waiting cfg d → ¬ s.Exited cfg d →
      (timerStep s.timer (.call d)).isSome ∧ (timerStep s.timer (.detach d)).isSome) ∧
    (s.Waiting cfg d → (s.timer.dev d).done = false → (timerStep s.timer (.ret d)).isSome) := by
  have hmem : d ∈ s.timer.devList := by
    rw [h.timer.devList]
    exact mem_attached.mpr (Nat.lt_succ_of_le hd)
  constructor
  · intro hw hg
    have hw := Bool.eq_false_iff.mpr (mt (h.waiting d hd).mp hw)
    have hg := Bool.eq_false_iff.mpr (mt (h.gone d hd).mp hg)
    simp only [timerStep, nextSlotCall, detachEvent]
    rw [if_pos ⟨hmem, hw, hg⟩, if_pos ⟨hmem, hw, hg⟩]
    exact ⟨rfl, rfl⟩
  · intro hw hdone
    simp only [timerStep, nextSlotRet]
    rw [if_pos ⟨hmem, (h.waiting d hd).mpr hw, hdone⟩]
    rfl

/-- A CPU that has not exited takes its next step, unless the timer has not let it go. -/
theorem cpu_isSome (hk : Known cfg s) (hfits : cfg.Fits)
    (hrun : (s.cpu c).loc = .run → (s.cpu c).proc ≠ none) (hc : c < cfg.numCpus)
    (hexit : (s.cpu c).loc ≠ .exited)
    (hwait : (s.cpu c).loc = .wait → (s.timer.dev c).done = false) :
    (osStep cfg s (.cpu c)).isSome := by
  obtain ⟨hdev, hret⟩ := hk.sync.device_isSome hc.le
  rw [Os.waiting_cpu hc, Os.exited_cpu hc] at hdev
  rw [Os.waiting_cpu hc] at hret
  rw [osStep, if_pos hc, cpuRoutine]
  cases hl : (s.cpu c).loc with
  | top =>
      show (cpuTop cfg s c).isSome
      rw [cpuTop]
      split
      next => rfl
      next p hproc =>
        split
        next => rfl
        next =>
          split
          next =>
            obtain ⟨place, hloc⟩ := hk.ok.located
            have hp : s.Holds c p := ⟨hproc, by rw [hl]; exact CpuLoc.noConfusion⟩
            have hlt : p < cfg.numProcesses := by
              refine Nat.lt_of_lt_of_le (Nat.lt_of_not_le fun hle => ?_) hk.ok.control.i_le
              exact Place.noConfusion
                (((hloc.held c p).mp hp).symm.trans ((hloc.unloaded p).mpr hle))
            exact enqueueMlq_isOk _ (hfits.prio_lt hlt) _
          next => rfl
  | get => rfl
  | recheck => rfl
  | run =>
      obtain ⟨p, hproc⟩ := Option.ne_none_iff_exists'.mp (hrun hl)
      simp only [hproc]
      rfl
  | slot =>
      exact onTimer_isSome (hdev (by rw [hl]; exact CpuLoc.noConfusion)
        (by rw [hl]; exact CpuLoc.noConfusion)).1 _
  | wait => exact onTimer_isSome (hret hl (hwait hl)) _
  | detach =>
      exact onTimer_isSome (hdev (by rw [hl]; exact CpuLoc.noConfusion)
        (by rw [hl]; exact CpuLoc.noConfusion)).2 _
  | exited => exact absurd hl hexit

theorem ld_isSome (hk : Known cfg s) (hfits : cfg.Fits) (hexit : s.ld.loc ≠ .exited)
    (hwait : (∃ added, s.ld.loc = .wait added) → (s.timer.dev cfg.numCpus).done = false) :
    (osStep cfg s .loader).isSome := by
  obtain ⟨hdev, hret⟩ := hk.sync.device_isSome (Nat.le_refl cfg.numCpus)
  rw [Os.waiting_ld, Os.exited_ld] at hdev
  rw [Os.waiting_ld] at hret
  rw [osStep, ldRoutine]
  cases hl : s.ld.loc with
  | top => rfl
  | time => rfl
  | add =>
      have hlt := hk.ok.control.before (by rw [hl]; rfl)
      exact enqueueMlq_isOk _ (hfits.prio_lt hlt) _
  | slot added =>
      exact onTimer_isSome (hdev (by rw [hl]; rintro ⟨_, h⟩; cases h)
        (by rw [hl]; exact LdLoc.noConfusion)).1 _
  | wait added => exact onTimer_isSome (hret ⟨added, hl⟩ (hwait ⟨added, hl⟩)) _
  | done => rfl
  | detach =>
      exact onTimer_isSome (hdev (by rw [hl]; rintro ⟨_, h⟩; cases h)
        (by rw [hl]; exact LdLoc.noConfusion)).2 _
  | exited => exact absurd hl hexit

/-- Some thread can take a step until all have returned: the timer, or the thread of the device
the timer waits for. -/
theorem exists_step (hk : Known cfg s) (hfits : cfg.Fits)
    (hrun : ∀ c, (s.cpu c).loc = .run → (s.cpu c).proc ≠ none) :
    s.Returned cfg ∨ ∃ e, e ≠ .stop ∧ (osStep cfg s e).isSome := by
  have htick : (timerRoutine s.timer).isSome →
      s.Returned cfg ∨ ∃ e, e ≠ .stop ∧ (osStep cfg s e).isSome := fun h =>
    Or.inr ⟨.timer, OsEvent.noConfusion, by rw [osStep, Os.onTimer, Option.isSome_map]; exact h⟩
  cases hpc : s.timer.pc with
  | top => exact htick (by rw [timerRoutine, hpc]; rfl)
  | release rest fsh event =>
      refine htick ?_
      rw [timerRoutine, hpc]
      cases rest <;> rfl
  | exited => exact Or.inl ⟨hk.counted.last (Or.inr (Or.inl hpc)), hpc⟩
  | scan rest fsh event =>
      cases rest with
      | nil => exact htick (by rw [timerRoutine, hpc]; rfl)
      | cons temp rest =>
          by_cases hready : (s.timer.dev temp).done = false ∧ (s.timer.dev temp).fsh = false
          · obtain ⟨hdone, hfsh⟩ := hready
            have hmem : temp ∈ attached (cfg.numCpus + 1) := by
              refine hk.sync.timer.rest.subset ?_
              rw [hpc]
              exact List.mem_cons_self
            have hd := Nat.le_of_lt_succ (mem_attached.mp hmem)
            have hexit : ¬ s.Exited cfg temp := fun hexit =>
              Bool.false_ne_true (hfsh.symm.trans ((hk.sync.gone temp hd).mpr hexit))
            rcases Nat.lt_or_eq_of_le hd with hlt | heq
            · rw [Os.exited_cpu hlt] at hexit
              exact Or.inr ⟨.cpu temp, OsEvent.noConfusion,
                cpu_isSome hk hfits (hrun temp) hlt hexit fun _ => hdone⟩
            · rw [heq, Os.exited_ld] at hexit
              exact Or.inr ⟨.loader, OsEvent.noConfusion,
                ld_isSome hk hfits hexit fun _ => heq ▸ hdone⟩
          · refine htick ?_
            rw [timerRoutine, hpc]
            show Option.isSome (if _ then _ else _)
            rw [if_neg fun h => hready (by simpa using h)]
            rfl

end Enabled

/-! ## Every run ends -/

/-- A bound on `_time`. -/
def OsCfg.tickBound (cfg : OsCfg) : Nat :=
  cfg.doneTick + 2 + (∑ p ∈ cfg.jobs, cfg.slots p) / cfg.numCpus + cfg.jobs.sup cfg.slots

/-- A bound on the steps of a run. -/
def OsCfg.stepBound (cfg : OsCfg) : Nat := cfg.rankAt cfg.tickBound

section Ends
variable {cfg : OsCfg} {s : Os} {es : List OsEvent}

theorem ticks_le_bound (hcpus : 1 ≤ cfg.numCpus) (hfits : cfg.Fits)
    (h : Lts.Reaches (osStep cfg) cfg.start es s) : s.timer.ticks ≤ cfg.tickBound := by
  obtain ⟨k, htime, hrounds⟩ := rounds_le hcpus hfits h
  rw [Nat.mul_comm] at hrounds
  have hdiv := (Nat.le_div_iff_mul_le hcpus).mpr hrounds
  rw [Nat.add_mul_div_left _ _ hcpus] at hdiv
  rw [OsCfg.tickBound]
  omega

theorem countP_le (hcpus : 1 ≤ cfg.numCpus) (hfits : cfg.Fits)
    (h : Lts.Reaches (osStep cfg) cfg.start es s) :
    es.countP (fun e => e ≠ .stop) ≤ cfg.stepBound := by
  have hcount := h.countP_le (I := Synced cfg) (p := fun e => e ≠ .stop) (Os.rank cfg)
    (fun _ _ _ hsync _ hs => hsync.step hs)
    (fun s e s' hsync _ hs => by
      by_cases he : e = .stop
      · subst he
        rw [osStep_rank_stop hs, if_neg (by decide), Nat.zero_add]
      · rw [if_pos (decide_eq_true he), Nat.add_comm]
        exact osStep_rank hsync hs he)
    (synced_start cfg)
  have hrank := rank_le h
  have hmono := cfg.rankAt_mono (ticks_le_bound hcpus hfits h)
  rw [OsCfg.stepBound]
  omega

/-- Whatever was done so far, the threads can go on to the end. -/
theorem exists_end (hcpus : 1 ≤ cfg.numCpus) (hfits : cfg.Fits)
    (h : Lts.Reaches (osStep cfg) cfg.start es s) :
    ∃ es' s', Lts.Reaches (osStep cfg) s es' s' ∧ s'.Returned cfg := by
  generalize hn : cfg.stepBound - es.countP (fun e => e ≠ .stop) = n
  induction n using Nat.strong_induction_on generalizing es s with
  | _ n ih =>
    rcases exists_step (known_of_reaches hcpus hfits h) hfits (run_proc h) with
      hend | ⟨e, he, hs⟩
    · exact ⟨[], s, .nil, hend⟩
    · obtain ⟨s₁, hs⟩ := Option.isSome_iff_exists.mp hs
      have hnext := h.snoc e trivial hs
      have hle := countP_le hcpus hfits hnext
      have hcount : (es ++ [e]).countP (fun e => e ≠ .stop) =
          es.countP (fun e => e ≠ .stop) + 1 := by
        rw [List.countP_append, List.countP_singleton, if_pos (decide_eq_true he)]
      obtain ⟨es', s', hrun, hend⟩ := ih _ (by omega) hnext rfl
      exact ⟨e :: es', s', .cons trivial hs hrun, hend⟩

/-- There, every process is finished and has executed its whole program. -/
theorem returned_all (hcpus : 1 ≤ cfg.numCpus) (hfits : cfg.Fits)
    (h : Lts.Reaches (osStep cfg) cfg.start es s) (hend : s.Returned cfg) {p : Pid}
    (hp : p < cfg.numProcesses) :
    p ∈ s.finished ∧ s.executed p = List.range (cfg.proc p).size := by
  have hok := osOk_of_reaches hcpus hfits h
  have hstop : ∀ c < cfg.numCpus, (s.cpu c).Stopped := fun c hc =>
    Or.inr ((Os.exited_cpu hc).mp (hend.1 c hc.le))
  have hmem := (hok.all_finished hcpus hstop).2 p hp
  exact ⟨hmem, by rw [hok.progress.executed, hok.progress.finished p hmem]⟩

end Ends

/-- However the threads are interleaved, a run has at most `stepBound` steps, not counting `main`'s
`stop_timer` at the end; no run is stuck before every thread has returned; every run can be
continued to such an end; and there, every process is finished and has executed its whole
program. -/
theorem run_terminates (cfg : OsCfg) (hcpus : 1 ≤ cfg.numCpus) (hfits : cfg.Fits)
    (es : List OsEvent) (s : Os) (h : Lts.Reaches (osStep cfg) cfg.start es s) :
    es.countP (fun e => e ≠ .stop) ≤ cfg.stepBound ∧
    (s.Returned cfg ∨ ∃ e, e ≠ .stop ∧ (osStep cfg s e).isSome) ∧
    (∃ es' s', Lts.Reaches (osStep cfg) s es' s' ∧ s'.Returned cfg) ∧
    (s.Returned cfg → ∀ p < cfg.numProcesses,
      p ∈ s.finished ∧ s.executed p = List.range (cfg.proc p).size) := by
  have hk := known_of_reaches hcpus hfits h
  exact ⟨countP_le hcpus hfits h, exists_step hk hfits (run_proc h),
    exists_end hcpus hfits h, fun hend p hp => returned_all hcpus hfits h hend hp⟩

/-- Two CPUs that exchange a process, up to the end. -/
theorem run_terminates_two : ∃ s es' s',
    Lts.Reaches (osStep twoProcesses) twoProcesses.start twoProcessesRun s ∧
    twoProcessesRun.countP (fun e => e ≠ .stop) ≤ twoProcesses.stepBound ∧
    Lts.Reaches (osStep twoProcesses) s es' s' ∧ s'.Returned twoProcesses := by
  obtain ⟨s, hs⟩ := Option.isSome_iff_exists.mp
    (by decide +kernel :
      (Lts.exec (osStep twoProcesses) twoProcesses.start twoProcessesRun).isSome)
  have hreach := Lts.reaches_of_exec hs
  obtain ⟨hcount, _, ⟨es', s', hrun, hend⟩, _⟩ :=
    run_terminates twoProcesses (by decide) twoProcesses_fits _ s hreach
  exact ⟨s, es', s', hreach, hcount, hrun, hend⟩

end SimpleOs
