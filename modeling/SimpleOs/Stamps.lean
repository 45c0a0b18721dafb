/-
# `SimpleOs.Stamps` — one instruction a slot

`stampStep` keeps beside the log in which slot each instruction was executed.
A CPU that has executed one is through with the slot (`CpuMove.spent_keep`), and
holds the process until the slot ends; so nobody else executes one of that
process, and neither does the CPU.
-/
import SimpleOs.Makespan

namespace SimpleOs

/-- Who executed an instruction, and in which slot. -/
structure Stamp where
  cpu : Nat
  proc : Pid
  slot : Nat
  deriving DecidableEq, Repr

/-- One step of the machine, with the slots of the instructions kept beside it. -/
def stampStep (cfg : OsCfg) (x : Os × List Stamp) (e : OsEvent) : Option (Os × List Stamp) :=
  (osStep cfg x.1 e).map fun s' => (s', x.2 ++ (s'.log.drop x.1.log.length).map fun l =>
    { cpu := l.1, proc := l.2.1, slot := x.1.timer.ticks })

/-- The instructions so far, and who is through with the current slot. -/
structure StampsOk (cfg : OsCfg) (x : Os × List Stamp) : Prop where
  log : x.2.map (fun t => (t.cpu, t.proc)) = x.1.log.map fun l => (l.1, l.2.1)
  past : ∀ t ∈ x.2, t.slot ≤ x.1.timer.ticks
  now : ∀ t ∈ x.2, t.slot = x.1.timer.ticks →
    x.1.Spent t.cpu ∧ (x.1.cpu t.cpu).proc = some t.proc ∧ t.cpu < cfg.numCpus
  order : x.2.Pairwise fun t u =>
    t.slot ≤ u.slot ∧ (t.cpu = u.cpu ∨ t.proc = u.proc → t.slot < u.slot)

section Stamps
variable {cfg : OsCfg} {s s' : Os} {c : Nat} {p : Pid} {ts : List Stamp}

/-- A CPU that is through with the slot stays so, with its process, until the slot ends. -/
theorem CpuMove.spent_keep (hm : CpuMove cfg s c s') (hc : c < cfg.numCpus) (hsync : Synced cfg s)
    (h : s.Spent c) : s'.Spent c ∧ (s'.cpu c).proc = (s.cpu c).proc := by
  have hno : ∀ {l : CpuLoc} {P : Prop}, (s.cpu c).loc = l → l ≠ .slot → l ≠ .wait → P :=
    fun hl hns hnw => absurd h (not_spent rfl (by rw [hl]; exact hns) (by rw [hl]; exact hnw))
  have hidle : ∀ {P : Prop}, ((s.cpu c).loc = .top ∧ (s.cpu c).proc = none ∨
      (s.cpu c).loc = .get) → P := fun hl => hl.elim
    (fun hl => hno hl.1 CpuLoc.noConfusion CpuLoc.noConfusion)
    (fun hl => hno hl CpuLoc.noConfusion CpuLoc.noConfusion)
  have hspent := (hm.spent_others).1
  cases hm with
  | idle hl _ => exact hidle hl
  | dispatch _ _ _ hl _ => exact hidle hl
  | finish _ hl _ _ => exact hno hl CpuLoc.noConfusion CpuLoc.noConfusion
  | put _ _ hl _ _ => exact hno hl CpuLoc.noConfusion CpuLoc.noConfusion
  | stop hl _ _ => exact hno hl CpuLoc.noConfusion CpuLoc.noConfusion
  | skip hl _ _ => exact hno hl CpuLoc.noConfusion CpuLoc.noConfusion
  | keep _ _ _ _ hl =>
      rcases hl with ⟨hl, _⟩ | ⟨hl, _⟩ | ⟨hl, _⟩ <;>
        exact hno hl CpuLoc.noConfusion CpuLoc.noConfusion
  | exec _ hl _ _ => exact hno hl CpuLoc.noConfusion CpuLoc.noConfusion
  | timer e timer loc hl ht =>
      rcases hl with ⟨hl, rfl, rfl⟩ | ⟨hl, rfl, rfl⟩ | ⟨hl, _, _⟩
      · have hcalls := hsync.in_slot hc.le (by rw [Os.waiting_cpu hc, hl]; exact CpuLoc.noConfusion)
          (by rw [Os.exited_cpu hc, hl]; exact CpuLoc.noConfusion)
        obtain ⟨_, _, _, rfl⟩ := nextSlotCall_cases ht
        refine ⟨Or.inr ⟨by rw [Os.setCpu_self], ?_⟩, by rw [Os.setCpu_self]⟩
        show ((s.timer.setDev c _).dev c).calls = s.timer.ticks + 1
        rw [Timer.setDev_self, hcalls]
      · obtain ⟨_, hw, hdone, _⟩ := nextSlotRet_cases ht
        have hdev := hsync.timer.dev c (Nat.lt_succ_of_lt hc)
        have hcalls := hdev.in_slot hdone (hdev.not_gone hw)
        rcases h with hslot | ⟨_, hnext⟩
        · exact CpuLoc.noConfusion (hl.symm.trans hslot)
        · exact absurd (hcalls.symm.trans hnext) (Nat.succ_ne_self _).symm
      · exact hno hl CpuLoc.noConfusion CpuLoc.noConfusion

/-- What a step of CPU `c` adds to the log. -/
theorem CpuMove.log_cases (hm : CpuMove cfg s c s') : s'.log = s.log ∨
    ∃ p, (s.cpu c).loc = .run ∧ (s.cpu c).proc = some p ∧ s'.log = s.log ++ [(c, p, s.pc p)] ∧
      s'.Spent c ∧ (s'.cpu c).proc = some p := by
  cases hm with
  | exec p hl hproc _ =>
      exact Or.inr ⟨p, hl, hproc, rfl, Or.inl (by rw [Os.setCpu_self]),
        by rw [Os.setCpu_self]; exact hproc⟩
  | idle _ _ => exact Or.inl rfl
  | dispatch _ _ _ _ _ => exact Or.inl rfl
  | finish _ _ _ _ => exact Or.inl rfl
  | put _ _ _ _ _ => exact Or.inl rfl
  | stop _ _ _ => exact Or.inl rfl
  | skip _ _ _ => exact Or.inl rfl
  | keep _ _ _ _ _ => exact Or.inl rfl
  | timer _ _ _ _ _ => exact Or.inl rfl

/-- A step that adds no instruction and ends no slot. -/
theorem StampsOk.keep (h : StampsOk cfg (s, ts)) (hlog : s'.log = s.log)
    (hticks : s'.timer.ticks = s.timer.ticks)
    (hspent : ∀ i < cfg.numCpus, s.Spent i → s'.Spent i ∧ (s'.cpu i).proc = (s.cpu i).proc) :
    StampsOk cfg (s', ts) where
  log := h.log.trans (by rw [hlog])
  past := by rw [hticks]; exact h.past
  now := fun t ht hslot => by
    rw [hticks] at hslot
    obtain ⟨hs, hproc, hc⟩ := h.now t ht hslot
    obtain ⟨hs', hproc'⟩ := hspent t.cpu hc hs
    exact ⟨hs', hproc'.trans hproc, hc⟩
  order := h.order

/-- An instruction, of a CPU that has not executed one in this slot and of a process that was not
run in it. -/
theorem StampsOk.exec (h : StampsOk cfg (s, ts)) (hm : CpuMove cfg s c s') (hc : c < cfg.numCpus)
    (hk : Known cfg s) (hl : (s.cpu c).loc = .run) (hproc : (s.cpu c).proc = some p)
    (hlog : s'.log = s.log ++ [(c, p, s.pc p)]) (hspent : s'.Spent c)
    (hproc' : (s'.cpu c).proc = some p) :
    StampsOk cfg (s', ts ++ [{ cpu := c, proc := p, slot := s.timer.ticks }]) := by
  obtain ⟨hticks, hothers⟩ := hm.spent_others
  obtain ⟨_, _, _, hcpu⟩ := hm.frame
  have hnot : ¬ s.Spent c := not_spent rfl (by rw [hl]; exact CpuLoc.noConfusion)
    (by rw [hl]; exact CpuLoc.noConfusion)
  obtain ⟨_, hserved⟩ := hk.ok.fresh hproc hl hnot
  refine ⟨?_, ?_, ?_, ?_⟩
  · show _ = s'.log.map _
    rw [hlog, List.map_append, List.map_append, h.log]
    rfl
  · intro t ht
    show t.slot ≤ s'.timer.ticks
    rw [hticks]
    rcases List.mem_append.mp ht with ht | ht
    · exact h.past t ht
    · rw [List.mem_singleton.mp ht]
  · intro t ht hslot
    rcases List.mem_append.mp ht with ht | ht
    · obtain ⟨hs, hp, hlt⟩ := h.now t ht (hslot.trans hticks)
      have hne : t.cpu ≠ c := fun heq => hnot (heq ▸ hs)
      exact ⟨(hothers _ hne).mpr hs, (congrArg CpuThread.proc (hcpu _ hne)).trans hp, hlt⟩
    · rw [List.mem_singleton.mp ht]
      exact ⟨hspent, hproc', hc⟩
  · refine List.pairwise_append.mpr ⟨h.order, List.pairwise_singleton _ _, fun t ht u hu => ?_⟩
    rw [List.mem_singleton.mp hu]
    refine ⟨h.past t ht, fun hsame => lt_of_le_of_ne (h.past t ht) fun hslot => ?_⟩
    obtain ⟨hs, hp, hlt⟩ := h.now t ht hslot
    rcases hsame with heq | heq
    · have hcpu : t.cpu = c := heq
      exact hnot (hcpu ▸ hs)
    · have hpid : t.proc = p := heq
      exact hserved ⟨t.cpu, hlt, hs, hpid ▸ hp⟩

theorem StampsOk.step {x x' : Os × List Stamp} {e : OsEvent} (h : StampsOk cfg x)
    (hk : Known cfg x.1) (hs : stampStep cfg x e = some x') : StampsOk cfg x' := by
  obtain ⟨s', hos, rfl⟩ := Option.map_eq_some_iff.mp hs
  obtain ⟨s, ts⟩ := x
  have hsame : ∀ s' : Os, s'.log = s.log → (s'.log.drop s.log.length).map
      (fun l => ({ cpu := l.1, proc := l.2.1, slot := s.timer.ticks } : Stamp)) = [] := by
    intro s' hlog
    rw [hlog, List.drop_length]
    rfl
  have hquiet : s'.log = s.log → s'.timer.ticks = s.timer.ticks →
      (∀ i < cfg.numCpus, s.Spent i → s'.Spent i ∧ (s'.cpu i).proc = (s.cpu i).proc) →
      StampsOk cfg (s', ts ++ (s'.log.drop s.log.length).map
        fun l => { cpu := l.1, proc := l.2.1, slot := s.timer.ticks }) := by
    intro hlog hticks hspent
    rw [hsame _ hlog, List.append_nil]
    exact h.keep hlog hticks hspent
  cases e with
  | cpu c =>
      rw [osStep] at hos
      split at hos
      next hc =>
        have hm := cpuRoutine_move hos
        obtain ⟨hticks, hothers⟩ := hm.spent_others
        obtain ⟨_, _, _, hcpu⟩ := hm.frame
        rcases hm.log_cases with hlog | ⟨p, hl, hproc, hlog, hspent, hproc'⟩
        · refine hquiet hlog hticks fun i hi hspent => ?_
          by_cases hic : i = c
          · subst hic
            exact hm.spent_keep hc hk.sync hspent
          · exact ⟨(hothers i hic).mpr hspent, congrArg CpuThread.proc (hcpu i hic)⟩
        · have hdrop : s'.log.drop s.log.length = [(c, p, s.pc p)] := by
            rw [hlog, List.drop_left]
          show StampsOk cfg (s', ts ++ (s'.log.drop s.log.length).map _)
          rw [hdrop]
          exact h.exec hm hc hk hl hproc hlog hspent hproc'
      next => cases hos
  | loader =>
      have hm := ldRoutine_move hos
      obtain ⟨hcpu, _, _, hticks, hcalls⟩ := hm.slots
      have hlog : s'.log = s.log := by cases hm <;> rfl
      exact hquiet hlog hticks fun i hi hspent =>
        ⟨(spent_congr (congrFun hcpu i) (hcalls i hi) hticks).mpr hspent, by rw [hcpu]⟩
  | timer =>
      obtain ⟨timer, ht, rfl⟩ := Option.map_eq_some_iff.mp hos
      rcases hk.sync.tick_cases ht with hticks | ⟨hticks, _⟩
      · refine hquiet rfl hticks fun i _ hspent => ⟨?_, rfl⟩
        have hsame : Os.Spent { s with timer } i ↔ s.Spent i :=
          spent_congr rfl (timerRoutine_dev ht i).2.2 hticks
        exact hsame.mpr hspent
      · have hnil := hsame { s with timer } rfl
        show StampsOk cfg ({ s with timer }, ts ++ _)
        rw [hnil, List.append_nil]
        refine ⟨h.log, fun t hmem => ?_, fun t hmem hslot => ?_, h.order⟩
        · have hle := h.past t hmem
          exact hle.trans (Nat.le_of_lt (Nat.lt_of_lt_of_eq (Nat.lt_succ_self _) hticks.symm))
        · have hle : t.slot ≤ s.timer.ticks := h.past t hmem
          have heq : t.slot = timer.ticks := hslot
          have hnext : timer.ticks = s.timer.ticks + 1 := hticks
          omega
  | stop =>
      rw [osStep] at hos
      split at hos
      next =>
        obtain rfl := Option.some.inj hos
        exact hquiet rfl rfl fun i _ hspent => ⟨(spent_congr rfl rfl rfl).mpr hspent, rfl⟩
      next => cases hos

end Stamps

/-- In every run, with the slots of the instructions kept: the instructions of a CPU are in
different slots, in order, and so are those of a process. -/
theorem one_instr_a_slot (cfg : OsCfg) (hcpus : 1 ≤ cfg.numCpus) (hfits : cfg.Fits)
    (es : List OsEvent) (x : Os × List Stamp)
    (h : Lts.Reaches (stampStep cfg) (cfg.start, []) es x) :
    x.2.map (fun t => (t.cpu, t.proc)) = x.1.log.map (fun l => (l.1, l.2.1)) ∧
    x.2.Pairwise fun t u =>
      t.slot ≤ u.slot ∧ (t.cpu = u.cpu ∨ t.proc = u.proc → t.slot < u.slot) := by
  have hok : StampsOk cfg x := by
    induction h with
    | nil => exact ⟨rfl, fun _ h => (nomatch h), fun _ h => (nomatch h), List.Pairwise.nil⟩
    | snoc e hrun _ hs ih =>
        have hforget : Lts.Reaches (osStep cfg) cfg.start _ _ :=
          hrun.forget (fun _ _ => True) Prod.fst fun x e => by
            rw [stampStep, Option.map_map]
            exact Option.map_id'
        exact ih.step (known_of_reaches hcpus hfits hforget) hs
  exact ⟨hok.log, hok.order⟩

/-- One CPU and one process of two instructions. -/
def twoInstrs : OsCfg :=
  { numCpus := 1, timeSlot := 2, ldProcesses := [{ startTime := 0, prio := 0, size := 2 }] }

/-- Two slots, up to the second instruction. -/
def twoInstrsRun : List OsEvent :=
  List.replicate 4 .loader ++ List.replicate 4 (.cpu 0) ++ List.replicate 7 .timer ++
    List.replicate 4 (.cpu 0)

theorem one_instr_a_slot_two : ∃ x,
    Lts.Reaches (stampStep twoInstrs) (twoInstrs.start, []) twoInstrsRun x ∧
    x.2 = [{ cpu := 0, proc := 0, slot := 0 }, { cpu := 0, proc := 0, slot := 1 }] ∧
    x.2.Pairwise fun t u =>
      t.slot ≤ u.slot ∧ (t.cpu = u.cpu ∨ t.proc = u.proc → t.slot < u.slot) := by
  obtain ⟨x, hx⟩ := Option.isSome_iff_exists.mp
    (by decide +kernel :
      (Lts.exec (stampStep twoInstrs) (twoInstrs.start, []) twoInstrsRun).isSome)
  have hstamps := Lts.exec_map (g := Prod.snd) (a := [{ cpu := 0, proc := 0, slot := 0 },
    { cpu := 0, proc := 0, slot := 1 }]) hx (by decide +kernel)
  have hreach := Lts.reaches_of_exec hx
  have hfits : twoInstrs.Fits :=
    ⟨by decide, fun _ => (List.length_filter_le _ _).trans (by decide)⟩
  exact ⟨x, hreach, hstamps, (one_instr_a_slot twoInstrs (by decide) hfits _ x hreach).2⟩

end SimpleOs
