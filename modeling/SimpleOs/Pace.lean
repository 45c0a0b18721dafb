/-
# `SimpleOs.Pace` — the slots a process takes

A process takes as many slots as its program has instructions, and one if it
has none (`OsCfg.slots`).  `Os.owed` is what a process still needs as of the
beginning of the current slot: what `run` takes off the program is added to the
slot, so that no step of a thread changes it (`SlotMove.owed`).
-/
import SimpleOs.Loading

namespace SimpleOs

/-- The slots process `p` takes. -/
def OsCfg.slots (cfg : OsCfg) (p : Pid) : Nat := max 1 (cfg.proc p).size

/-- After `run`, up to the check at the top of the loop. -/
def CpuLoc.past : CpuLoc → Bool
  | .slot | .wait | .top => true
  | _ => false

/-- CPU `c` has been through `run` with process `p`. -/
def Os.Past (s : Os) (c : Nat) (p : Pid) : Prop :=
  (s.cpu c).proc = some p ∧ (s.cpu c).loc.past = true

/-- Process `p` is finished, or the CPU that holds it has been through `run` with it. -/
def Os.Touched (cfg : OsCfg) (s : Os) (p : Pid) : Prop :=
  p ∈ s.finished ∨ ∃ c < cfg.numCpus, s.Past c p

/-- CPU `c` is through with the current slot. -/
def Os.Spent (s : Os) (c : Nat) : Prop :=
  (s.cpu c).loc = .slot ∨
    (s.cpu c).loc = .wait ∧ (s.timer.dev c).calls = s.timer.ticks + 1

/-- Process `p` was served in the current slot. -/
def Os.Served (cfg : OsCfg) (s : Os) (p : Pid) : Prop :=
  ∃ c < cfg.numCpus, s.Spent c ∧ (s.cpu c).proc = some p

instance (s : Os) (c : Nat) (p : Pid) : Decidable (s.Past c p) :=
  inferInstanceAs (Decidable (_ ∧ _))

instance (cfg : OsCfg) (s : Os) (p : Pid) : Decidable (s.Touched cfg p) :=
  inferInstanceAs (Decidable (_ ∨ ∃ c < cfg.numCpus, s.Past c p))

instance (s : Os) (c : Nat) : Decidable (s.Spent c) :=
  inferInstanceAs (Decidable (_ ∨ _ ∧ _))

instance (cfg : OsCfg) (s : Os) (p : Pid) : Decidable (s.Served cfg p) :=
  inferInstanceAs (Decidable (∃ c < cfg.numCpus, s.Spent c ∧ (s.cpu c).proc = some p))

/-- The slots process `p` still needs.  An empty program needs one until it had it. -/
def Os.left (cfg : OsCfg) (s : Os) (p : Pid) : Nat :=
  (if s.Touched cfg p then (cfg.proc p).size else cfg.slots p) - s.pc p

/-- The slots it needed at the beginning of the current one. -/
def Os.owed (cfg : OsCfg) (s : Os) (p : Pid) : Nat :=
  s.left cfg p + if s.Served cfg p then 1 else 0

/-! ## What a step does to the slots -/

section Steps
variable {cfg : OsCfg} {s s' : Os} {c : Nat} {p q : Pid}

/-- Nothing that counts for process `q` changed. -/
def Os.SameFor (cfg : OsCfg) (s s' : Os) (q : Pid) : Prop :=
  (s'.Touched cfg q ↔ s.Touched cfg q) ∧ (s'.Served cfg q ↔ s.Served cfg q) ∧ s'.pc q = s.pc q

theorem Os.SameFor.owed (h : s.SameFor cfg s' q) : s'.owed cfg q = s.owed cfg q := by
  obtain ⟨ht, hs, hpc⟩ := h
  simp only [Os.owed, Os.left, ht, hs, hpc]

theorem touched_split (hc : c < cfg.numCpus) : s.Touched cfg q ↔
    (q ∈ s.finished ∨ s.Past c q) ∨ ∃ i < cfg.numCpus, i ≠ c ∧ s.Past i q := by
  constructor
  · rintro (hfin | ⟨i, hi, hpast⟩)
    · exact Or.inl (Or.inl hfin)
    · by_cases hic : i = c
      · exact Or.inl (Or.inr (hic ▸ hpast))
      · exact Or.inr ⟨i, hi, hic, hpast⟩
  · rintro ((hfin | hpast) | ⟨i, hi, _, hpast⟩)
    · exact Or.inl hfin
    · exact Or.inr ⟨c, hc, hpast⟩
    · exact Or.inr ⟨i, hi, hpast⟩

theorem served_split (hc : c < cfg.numCpus) : s.Served cfg q ↔
    (s.Spent c ∧ (s.cpu c).proc = some q) ∨
    ∃ i < cfg.numCpus, i ≠ c ∧ s.Spent i ∧ (s.cpu i).proc = some q := by
  constructor
  · rintro ⟨i, hi, hspent⟩
    by_cases hic : i = c
    · exact Or.inl (hic ▸ hspent)
    · exact Or.inr ⟨i, hi, hic, hspent⟩
  · rintro (hspent | ⟨i, hi, _, hspent⟩)
    · exact ⟨c, hc, hspent⟩
    · exact ⟨i, hi, hspent⟩

theorem spent_congr (hcpu : s'.cpu c = s.cpu c)
    (hcalls : (s'.timer.dev c).calls = (s.timer.dev c).calls)
    (hticks : s'.timer.ticks = s.timer.ticks) : s'.Spent c ↔ s.Spent c := by
  rw [Os.Spent, Os.Spent, hcpu, hcalls, hticks]

theorem not_spent {t : CpuThread} (ht : s.cpu c = t) (hs : t.loc ≠ .slot) (hw : t.loc ≠ .wait) :
    ¬ s.Spent c := by
  rw [Os.Spent, ht]
  exact fun h => h.elim hs fun h => hw h.1

/-- The other CPUs, after a step of CPU `c`. -/
theorem CpuMove.spent_others (hm : CpuMove cfg s c s') : s'.timer.ticks = s.timer.ticks ∧
    ∀ i, i ≠ c → (s'.Spent i ↔ s.Spent i) := by
  obtain ⟨_, _, _, hcpu⟩ := hm.frame
  rcases hm.timer_cases with ⟨htimer, _⟩ | ⟨e, timer, loc, hs, rfl, hcase⟩
  · exact ⟨by rw [htimer], fun i hi =>
      spent_congr (hcpu i hi) (by rw [htimer]) (by rw [htimer])⟩
  · have he : e.device = some c := by
      rcases hcase with ⟨_, rfl, _⟩ | ⟨_, rfl, _⟩ | ⟨_, rfl, _⟩ <;> rfl
    obtain ⟨hticks, hdev⟩ := timerStep_device hs he
    exact ⟨hticks, fun i hi =>
      spent_congr (hcpu i hi) (congrArg TimerId.calls (hdev i hi)) hticks⟩

theorem CpuMove.touched (hm : CpuMove cfg s c s') (hc : c < cfg.numCpus)
    (h : (q ∈ s'.finished ∨ s'.Past c q) ↔ (q ∈ s.finished ∨ s.Past c q)) :
    s'.Touched cfg q ↔ s.Touched cfg q := by
  obtain ⟨_, _, _, hcpu⟩ := hm.frame
  rw [touched_split hc, touched_split hc, h]
  refine or_congr_right (exists_congr fun i =>
    and_congr_right fun _ => and_congr_right fun hi => ?_)
  rw [Os.Past, Os.Past, hcpu i hi]

theorem CpuMove.served (hm : CpuMove cfg s c s') (hc : c < cfg.numCpus)
    (h : (s'.Spent c ∧ (s'.cpu c).proc = some q) ↔ (s.Spent c ∧ (s.cpu c).proc = some q)) :
    s'.Served cfg q ↔ s.Served cfg q := by
  obtain ⟨_, _, _, hcpu⟩ := hm.frame
  obtain ⟨_, hothers⟩ := hm.spent_others
  rw [served_split hc, served_split hc, h]
  refine or_congr_right (exists_congr fun i =>
    and_congr_right fun _ => and_congr_right fun hi => ?_)
  rw [hothers i hi, hcpu i hi]

/-- What a step of a CPU does to the slots. -/
inductive SlotMove (cfg : OsCfg) (s s' : Os) : Prop
  | same : (∀ q, s.SameFor cfg s' q) → SlotMove cfg s s'
  /-- Process `p`, with instructions left, is to be run again. -/
  | again (p : Pid) : s.pc p < (cfg.proc p).size → s'.pc p = s.pc p →
      (s'.Served cfg p ↔ s.Served cfg p) → (∀ q, q ≠ p → s.SameFor cfg s' q) → SlotMove cfg s s'
  /-- Process `p` is run. -/
  | run (p : Pid) : ¬ s.Touched cfg p → ¬ s.Served cfg p → s'.Touched cfg p → s'.Served cfg p →
      s'.pc p = (if s.pc p < (cfg.proc p).size then s.pc p + 1 else s.pc p) →
      (∀ q, q ≠ p → s.SameFor cfg s' q) → SlotMove cfg s s'

/-- A process at its end is not run again. -/
theorem cpuTop_guard (hloc : (s.cpu c).loc = .top) (hproc : (s.cpu c).proc = some p)
    (hs : cpuRoutine cfg s c = some s') (hfin : s'.finished = s.finished) :
    s.pc p ≠ (cfg.proc p).size := by
  intro hend
  rw [cpuRoutine, hloc] at hs
  simp only [cpuTop, hproc, hend, if_true] at hs
  obtain rfl := Option.some.inj hs
  exact absurd (List.self_eq_append_right.mp hfin.symm) (List.cons_ne_nil _ _)

/-- A process in the hands of a CPU is in no other's and not finished. -/
theorem Located.alone {place : Pid → Place} (h : Located cfg s place) (hp : s.Holds c p) :
    p ∉ s.finished ∧ ∀ i, s.Holds i p → i = c := by
  have hplace := (h.held c p).mp hp
  obtain ⟨_, hheld, hfin, _⟩ := h.apart hplace
  refine ⟨hfin Place.noConfusion, fun i hi => ?_⟩
  by_contra hne
  exact hheld i (fun heq => hne (Place.hand.inj heq).symm) hi

theorem not_past {t : CpuThread} (ht : s.cpu c = t) (hl : t.loc.past = false) (q : Pid) :
    ¬ s.Past c q := by
  rw [Os.Past, ht, hl]
  exact fun h => Bool.false_ne_true h.2

theorem not_past_none {t : CpuThread} (ht : s.cpu c = t) (hproc : t.proc = none) (q : Pid) :
    ¬ s.Past c q := by
  rw [Os.Past, ht, hproc]
  exact fun h => nomatch h.1

theorem past_iff {t : CpuThread} (ht : s.cpu c = t) (hproc : t.proc = some p)
    (hl : t.loc.past = true) (q : Pid) : s.Past c q ↔ q = p := by
  rw [Os.Past, ht, hproc, hl]
  exact ⟨fun h => (Option.some.inj h.1).symm, fun h => ⟨congrArg some h.symm, rfl⟩⟩

/-- A process on its way to `run` has not had its slot. -/
theorem OsOk.fresh (hok : OsOk cfg s) (hproc : (s.cpu c).proc = some p) (hl : (s.cpu c).loc = .run)
    (hspent : ¬ s.Spent c) : ¬ s.Touched cfg p ∧ ¬ s.Served cfg p := by
  obtain ⟨place, hloc⟩ := hok.located
  have hp : s.Holds c p := ⟨hproc, by rw [hl]; exact CpuLoc.noConfusion⟩
  obtain ⟨hfin, halone⟩ := hloc.alone hp
  constructor
  · rintro (hmem | ⟨i, _, hi, hpast⟩)
    · exact hfin hmem
    · have hic := halone i ⟨hi, fun hget => by rw [hget] at hpast; cases hpast⟩
      rw [hic, hl] at hpast
      cases hpast
  · rintro ⟨i, _, hi, hproci⟩
    have hic := halone i ⟨hproci, fun hget => by
      rcases hi with hi | ⟨hi, _⟩ <;> exact CpuLoc.noConfusion (hget.symm.trans hi)⟩
    exact hspent (hic ▸ hi)

/-- A step of a CPU that neither comes from `run` nor goes past it. -/
theorem CpuMove.unseen (hm : CpuMove cfg s c s') (hc : c < cfg.numCpus)
    (hpast : ∀ q, ¬ s.Past c q) (hspent : ¬ s.Spent c) (hpast' : ∀ q, ¬ s'.Past c q)
    (hspent' : ∀ q, ¬ (s'.Spent c ∧ (s'.cpu c).proc = some q))
    (hfin : s'.finished = s.finished) (hpc : s'.pc = s.pc) : SlotMove cfg s s' := by
  refine .same fun q => ⟨hm.touched hc ?_, hm.served hc ?_, congrFun hpc q⟩
  · rw [hfin, or_iff_left (hpast' q), or_iff_left (hpast q)]
  · exact iff_of_false (hspent' q) fun h => hspent h.1

/-- A step of a CPU whose process is to be run again. -/
theorem CpuMove.again (hm : CpuMove cfg s c s') (hc : c < cfg.numCpus)
    (hl : (s.cpu c).loc = .top) (hproc : (s.cpu c).proc = some p)
    (hlt : s.pc p < (cfg.proc p).size) (hpast' : ∀ q, ¬ s'.Past c q) (hspent' : ¬ s'.Spent c)
    (hfin : s'.finished = s.finished) (hpc : s'.pc = s.pc) : SlotMove cfg s s' := by
  have hspent : ¬ s.Spent c := not_spent rfl (by rw [hl]; exact CpuLoc.noConfusion)
    (by rw [hl]; exact CpuLoc.noConfusion)
  have hserved : ∀ q, s'.Served cfg q ↔ s.Served cfg q := fun q =>
    hm.served hc (iff_of_false (fun h => hspent' h.1) fun h => hspent h.1)
  refine .again p hlt (congrFun hpc p) (hserved p) fun q hq =>
    ⟨hm.touched hc ?_, hserved q, congrFun hpc q⟩
  rw [hfin, or_iff_left (hpast' q), past_iff rfl hproc (by rw [hl]; rfl), or_iff_left hq]

/-- A step of a CPU through `run`. -/
theorem CpuMove.ran (hm : CpuMove cfg s c s') (hc : c < cfg.numCpus) (hok : OsOk cfg s)
    (hl : (s.cpu c).loc = .run) (hproc : (s.cpu c).proc = some p) (hl' : (s'.cpu c).loc = .slot)
    (hproc' : (s'.cpu c).proc = some p) (hfin : s'.finished = s.finished)
    (hpc : s'.pc p = if s.pc p < (cfg.proc p).size then s.pc p + 1 else s.pc p)
    (hpcs : ∀ q, q ≠ p → s'.pc q = s.pc q) : SlotMove cfg s s' := by
  have hspent : ¬ s.Spent c := not_spent rfl (by rw [hl]; exact CpuLoc.noConfusion)
    (by rw [hl]; exact CpuLoc.noConfusion)
  obtain ⟨htouch, hserved⟩ := hok.fresh hproc hl hspent
  have hpast : s'.Past c p := (past_iff rfl hproc' (by rw [hl']; rfl) p).mpr rfl
  refine .run p htouch hserved (Or.inr ⟨c, hc, hpast⟩) ⟨c, hc, Or.inl hl', hproc'⟩ hpc
    fun q hq => ⟨hm.touched hc ?_, hm.served hc ?_, hpcs q hq⟩
  · rw [hfin, past_iff rfl hproc' (by rw [hl']; rfl), or_iff_left hq,
      or_iff_left (not_past rfl (by rw [hl]; rfl) q)]
  · refine iff_of_false (fun h => hq ?_) fun h => hspent h.1
    exact Option.some.inj (h.2.symm.trans hproc')

theorem CpuMove.slots (hm : CpuMove cfg s c s') (hc : c < cfg.numCpus)
    (hs : cpuRoutine cfg s c = some s') (hsync : Synced cfg s) (hok : OsOk cfg s) :
    SlotMove cfg s s' := by
  have hat : ∀ {l : CpuLoc}, (s.cpu c).loc = l → l ≠ .slot → l ≠ .wait → ¬ s.Spent c :=
    fun hl hns hnw => not_spent rfl (by rw [hl]; exact hns) (by rw [hl]; exact hnw)
  have hidle : ((s.cpu c).loc = .top ∧ (s.cpu c).proc = none ∨ (s.cpu c).loc = .get) →
      (∀ q, ¬ s.Past c q) ∧ ¬ s.Spent c := by
    rintro (⟨hl, hproc⟩ | hl)
    · exact ⟨not_past_none rfl hproc, hat hl CpuLoc.noConfusion CpuLoc.noConfusion⟩
    · exact ⟨not_past rfl (by rw [hl]; rfl), hat hl CpuLoc.noConfusion CpuLoc.noConfusion⟩
  -- CPU `c` after the step
  have hself : ∀ {sched finished pc log timer} (t : CpuThread),
      ({ s with sched, finished, pc, log, timer }.setCpu c t).cpu c = t :=
    fun t => Os.setCpu_self ..
  have hrun : ∀ {sched finished pc log timer} {t : CpuThread}, t.loc ≠ .slot → t.loc ≠ .wait →
      ¬ ({ s with sched, finished, pc, log, timer }.setCpu c t).Spent c :=
    fun hns hnw => not_spent (hself _) hns hnw
  have hlt : ∀ {p}, s.pc p ≠ (cfg.proc p).size → s.pc p < (cfg.proc p).size :=
    fun hne => lt_of_le_of_ne (hok.progress.pc_le _) hne
  cases hm with
  | idle hl hall =>
      obtain ⟨hpast, hspent⟩ := hidle hl
      refine CpuMove.unseen (.idle hl hall) hc hpast hspent (not_past (hself _) rfl)
        (fun q h => ?_) rfl rfl
      exact hrun CpuLoc.noConfusion CpuLoc.noConfusion h.1
  | dispatch prio p sched hl ht =>
      obtain ⟨hpast, hspent⟩ := hidle hl
      refine CpuMove.unseen (.dispatch prio p sched hl ht) hc hpast hspent
        (not_past (hself _) rfl) (fun q h => ?_) rfl rfl
      exact hrun CpuLoc.noConfusion CpuLoc.noConfusion h.1
  | finish p hl hproc hend =>
      have hm : CpuMove cfg s c _ := .finish p hl hproc hend
      refine .same fun q => ⟨hm.touched hc ?_, hm.served hc ?_, rfl⟩
      · rw [past_iff rfl hproc (by rw [hl]; rfl)]
        show (q ∈ s.finished ++ [p] ∨ _) ↔ _
        rw [or_iff_left (not_past (hself _) rfl q), List.mem_append, List.mem_singleton]
      · refine iff_of_false (fun h => hrun CpuLoc.noConfusion CpuLoc.noConfusion h.1) fun h => ?_
        exact hat hl CpuLoc.noConfusion CpuLoc.noConfusion h.1
  | put p sched hl hproc hput =>
      exact CpuMove.again (.put p sched hl hproc hput) hc hl hproc
        (hlt (cpuTop_guard hl hproc hs rfl)) (not_past (hself _) rfl)
        (hrun CpuLoc.noConfusion CpuLoc.noConfusion) rfl rfl
  | stop hl hproc hdone =>
      refine CpuMove.unseen (.stop hl hproc hdone) hc (not_past_none rfl hproc)
        (hat hl CpuLoc.noConfusion CpuLoc.noConfusion) (not_past_none (hself _) hproc)
        (fun q h => ?_) rfl rfl
      exact hrun CpuLoc.noConfusion CpuLoc.noConfusion h.1
  | skip hl hproc hdone =>
      refine CpuMove.unseen (.skip hl hproc hdone) hc (not_past_none rfl hproc)
        (hat hl CpuLoc.noConfusion CpuLoc.noConfusion) (not_past_none (hself _) hproc)
        (fun q h => ?_) rfl rfl
      rw [Os.setCpu_self, hproc] at h
      exact nomatch h.2
  | keep p timeLeft loc hproc hcase =>
      have hm : CpuMove cfg s c _ := .keep p timeLeft loc hproc hcase
      rcases hcase with ⟨hl, rfl⟩ | ⟨hl, rfl⟩ | ⟨hl, rfl, hend⟩
      · exact hm.again hc hl hproc (hlt (cpuTop_guard hl hproc hs rfl))
          (not_past (hself _) rfl) (hrun CpuLoc.noConfusion CpuLoc.noConfusion) rfl rfl
      · refine hm.unseen hc (not_past rfl (by rw [hl]; rfl))
          (hat hl CpuLoc.noConfusion CpuLoc.noConfusion) (not_past (hself _) rfl)
          (fun q h => ?_) rfl rfl
        exact hrun CpuLoc.noConfusion CpuLoc.noConfusion h.1
      · refine hm.ran hc hok hl hproc ?_ ?_ rfl ?_ fun _ _ => rfl
        · rw [Os.setCpu_self]
        · rw [Os.setCpu_self]; exact hproc
        · rw [if_neg hend]; rfl
  | exec p hl hproc hless =>
      have hm : CpuMove cfg s c _ := .exec p hl hproc hless
      refine hm.ran hc hok hl hproc ?_ ?_ rfl ?_ fun q hq => ?_
      · rw [hself]
      · rw [hself]; exact hproc
      · rw [if_pos hless]
        exact Function.update_self ..
      · exact Function.update_of_ne hq ..
  | timer e timer loc hcase ht =>
      have hm : CpuMove cfg s c _ := .timer e timer loc hcase ht
      -- the process stays, in the critical sections of a CPU that has one
      have hsame : ∀ {l : CpuLoc}, (s.cpu c).loc = l → l.past = loc.past →
          (({ s with timer }.setCpu c { s.cpu c with loc }).Spent c ↔ s.Spent c) →
          SlotMove cfg s ({ s with timer }.setCpu c { s.cpu c with loc }) := by
        intro l hl hpast hspent
        refine .same fun q => ⟨hm.touched hc ?_, hm.served hc ?_, rfl⟩
        · rw [Os.Past, Os.Past, hself, hl, hpast]
          rfl
        · rw [hspent, hself]
      rcases hcase with ⟨hl, rfl, rfl⟩ | ⟨hl, rfl, rfl⟩ | ⟨hl, rfl, rfl⟩
      · refine hsame hl rfl (iff_of_true (Or.inr ⟨by rw [hself], ?_⟩) (Or.inl hl))
        have hcalls := hsync.in_slot hc.le (by rw [Os.waiting_cpu hc, hl]; exact CpuLoc.noConfusion)
          (by rw [Os.exited_cpu hc, hl]; exact CpuLoc.noConfusion)
        obtain ⟨_, _, _, rfl⟩ := nextSlotCall_cases ht
        show ((s.timer.setDev c _).dev c).calls = s.timer.ticks + 1
        rw [Timer.setDev_self, hcalls]
      · refine hsame hl rfl (iff_of_false (hrun CpuLoc.noConfusion CpuLoc.noConfusion) ?_)
        obtain ⟨_, hw, hdone, _⟩ := nextSlotRet_cases ht
        have hdev := hsync.timer.dev c (Nat.lt_succ_of_lt hc)
        have hcalls := hdev.in_slot hdone (hdev.not_gone hw)
        rintro (hslot | ⟨_, hnext⟩)
        · exact CpuLoc.noConfusion (hl.symm.trans hslot)
        · exact absurd (hcalls.symm.trans hnext) (Nat.succ_ne_self _).symm
      · exact hsame hl rfl (iff_of_false (hrun CpuLoc.noConfusion CpuLoc.noConfusion)
          (hat hl CpuLoc.noConfusion CpuLoc.noConfusion))

/-- A step of a CPU leaves what is owed alone: what `run` takes off the program it adds to the
slot. -/
theorem SlotMove.owed (hm : SlotMove cfg s s')
    (h : ∀ p, ¬ s.Touched cfg p → s.pc p < cfg.slots p) (q : Pid) :
    s'.owed cfg q = s.owed cfg q := by
  cases hm with
  | same hsame => exact (hsame q).owed
  | again p hlt hpc hserved hsame =>
      by_cases hq : q = p
      · subst hq
        have hslots : cfg.slots q = (cfg.proc q).size := Nat.max_eq_right (Nat.one_le_of_lt hlt)
        simp only [Os.owed, Os.left, hslots, ite_self, hserved, hpc]
      · exact (hsame q hq).owed
  | run p htouch hserved htouch' hserved' hpc hsame =>
      by_cases hq : q = p
      · subst hq
        have hlt := h q htouch
        simp only [Os.owed, Os.left, if_pos htouch', if_pos hserved', if_neg htouch,
          if_neg hserved, hpc]
        rw [OsCfg.slots] at hlt ⊢
        split <;> omega
      · exact (hsame q hq).owed

theorem SlotMove.pending (hm : SlotMove cfg s s')
    (h : ∀ p, ¬ s.Touched cfg p → s.pc p < cfg.slots p) (q : Pid)
    (hq : ¬ s'.Touched cfg q) : s'.pc q < cfg.slots q := by
  have hsame : s.SameFor cfg s' q → s'.pc q < cfg.slots q := fun ⟨ht, _, hpc⟩ =>
    hpc ▸ h q fun hs => hq (ht.mpr hs)
  cases hm with
  | same hall => exact hsame (hall q)
  | again p hlt hpc _ hall =>
      by_cases hqp : q = p
      · subst hqp
        rw [hpc]
        exact hlt.trans_le (Nat.le_max_right _ _)
      · exact hsame (hall q hqp)
  | run p _ _ htouch' _ _ hall =>
      by_cases hqp : q = p
      · exact absurd (hqp ▸ htouch') hq
      · exact hsame (hall q hqp)

/-- A step that moves no CPU and no time. -/
theorem sameFor_of_cpu (hcpu : s'.cpu = s.cpu) (hfin : s'.finished = s.finished)
    (hpc : s'.pc = s.pc) (hticks : s'.timer.ticks = s.timer.ticks)
    (hcalls : ∀ i < cfg.numCpus, (s'.timer.dev i).calls = (s.timer.dev i).calls) (q : Pid) :
    s.SameFor cfg s' q := by
  refine ⟨?_, ?_, congrFun hpc q⟩
  · simp only [Os.Touched, Os.Past, hcpu, hfin]
  · refine exists_congr fun i => and_congr_right fun hi => ?_
    rw [spent_congr (congrFun hcpu i) (hcalls i hi) hticks, hcpu]

/-- A step of the loader. -/
theorem LdMove.slots (hm : LdMove cfg s s') : s'.cpu = s.cpu ∧ s'.finished = s.finished ∧
    s'.pc = s.pc ∧ s'.timer.ticks = s.timer.ticks ∧
    ∀ i < cfg.numCpus, (s'.timer.dev i).calls = (s.timer.dev i).calls := by
  have hdev : ∀ {e : TimerEvent} {timer : Timer}, e.device = some cfg.numCpus →
      timerStep s.timer e = some timer → timer.ticks = s.timer.ticks ∧
      ∀ i < cfg.numCpus, (timer.dev i).calls = (s.timer.dev i).calls := by
    intro e timer he hs
    obtain ⟨hticks, hothers⟩ := timerStep_device hs he
    exact ⟨hticks, fun i hi => congrArg TimerId.calls (hothers i (Nat.ne_of_lt hi))⟩
  cases hm with
  | call _ timer _ hs => exact ⟨rfl, rfl, rfl, hdev (e := .call cfg.numCpus) rfl hs⟩
  | ret _ timer _ hs => exact ⟨rfl, rfl, rfl, hdev (e := .ret cfg.numCpus) rfl hs⟩
  | detach timer _ hs => exact ⟨rfl, rfl, rfl, hdev (e := .detach cfg.numCpus) rfl hs⟩
  | next _ _ => exact ⟨rfl, rfl, rfl, rfl, fun _ _ => rfl⟩
  | last _ _ => exact ⟨rfl, rfl, rfl, rfl, fun _ _ => rfl⟩
  | early _ => exact ⟨rfl, rfl, rfl, rfl, fun _ _ => rfl⟩
  | due _ => exact ⟨rfl, rfl, rfl, rfl, fun _ _ => rfl⟩
  | add _ _ _ => exact ⟨rfl, rfl, rfl, rfl, fun _ _ => rfl⟩
  | done _ => exact ⟨rfl, rfl, rfl, rfl, fun _ _ => rfl⟩

end Steps

end SimpleOs
