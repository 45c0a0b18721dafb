/-
# `SimpleOs.Completion` — every process runs to completion before the machine stops

Three invariants of the machine.

`Located`: every process is in one place, which a step changes for one process
at most: it is not loaded, in the ready queue of its priority, in the hand of a
CPU, or finished.

`Progress`: the instructions a process executed are those before its program
counter, in order.

`Attended`: a CPU stops on two observations, that `get_proc` had nothing for it
and that `done` is set.  Once the barrier that ends the slot of the last
`add_proc` is passed, a process in a ready queue is attended by a CPU that has
not made the first observation since.  Before that barrier `done` is not set;
at the barrier every CPU waits in `next_slot`, and so attends to the queues.
-/
import Mathlib.Data.List.Nodup
import Mathlib.Data.List.Perm.Subperm
import SimpleOs.Os

namespace SimpleOs

/-! ## Where the processes are -/

/-- Where a process is. -/
inductive Place
  | unloaded
  | ready
  | hand (c : Nat)
  | finished
  deriving DecidableEq

/-- CPU `c` holds process `p`: between `get_proc` and `put_proc` or `remove_proc`. -/
def Os.Holds (s : Os) (c : Nat) (p : Pid) : Prop :=
  (s.cpu c).proc = some p ∧ (s.cpu c).loc ≠ .get

/-- The processes are where `place` says. -/
structure Located (cfg : OsCfg) (s : Os) (place : Pid → Place) : Prop where
  nodup : ∀ i, (s.sched.ready i).Nodup
  ready : ∀ i p, p ∈ s.sched.ready i ↔ place p = .ready ∧ (cfg.proc p).prio = i
  held : ∀ c p, s.Holds c p ↔ place p = .hand c
  finished : ∀ p, p ∈ s.finished ↔ place p = .finished
  finished_nodup : s.finished.Nodup
  loaded : s.loaded = List.range s.ld.i
  unloaded : ∀ p, place p = .unloaded ↔ s.ld.i ≤ p

theorem located_start (cfg : OsCfg) : Located cfg cfg.start (fun _ => .unloaded) where
  nodup := fun _ => List.nodup_nil
  ready := fun _ _ => ⟨fun h => absurd h List.not_mem_nil, fun h => Place.noConfusion h.1⟩
  held := fun _ _ => ⟨fun h => absurd h.1.symm (Option.some_ne_none _), Place.noConfusion⟩
  finished := fun _ => ⟨fun h => absurd h List.not_mem_nil, Place.noConfusion⟩
  finished_nodup := List.nodup_nil
  loaded := rfl
  unloaded := fun p => ⟨fun _ => Nat.zero_le p, fun _ => rfl⟩

/-- No two priorities have more processes between them than a queue has slots. -/
def OsCfg.Fits (cfg : OsCfg) : Prop :=
  (∀ l ∈ cfg.ldProcesses, l.prio < maxPrio) ∧
  ∀ i, (cfg.ldProcesses.filter (fun l => l.prio = i)).length ≤ maxQueueSize

section Located
variable {cfg : OsCfg} {s s' : Os} {place : Pid → Place} {c : Nat}

/-- The processes of the configuration, by index. -/
theorem ldProcesses_eq (cfg : OsCfg) :
    cfg.ldProcesses = (List.range cfg.numProcesses).map cfg.proc := by
  apply List.ext_getElem
  · rw [List.length_map, List.length_range]
    rfl
  · intro i h₁ h₂
    rw [List.getElem_map, List.getElem_range, OsCfg.proc, List.getD_eq_getElem?_getD,
      List.getElem?_eq_getElem h₁, Option.getD_some]

theorem OsCfg.Fits.prio_lt (h : cfg.Fits) {p : Pid} (hp : p < cfg.numProcesses) :
    (cfg.proc p).prio < maxPrio := by
  refine h.1 _ ?_
  rw [ldProcesses_eq]
  exact List.mem_map_of_mem (List.mem_range.mpr hp)

/-- There is room in the ready queue of a process that is not in it. -/
theorem Located.room (h : Located cfg s place) (hfits : cfg.Fits)
    (hi : s.ld.i ≤ cfg.numProcesses) {p : Pid} (hp : p < cfg.numProcesses)
    (hplace : place p ≠ .ready) :
    (s.sched.ready (cfg.proc p).prio).length < maxQueueSize := by
  let prio := (cfg.proc p).prio
  have hnot : p ∉ s.sched.ready prio := fun hmem => hplace ((h.ready _ _).mp hmem).1
  have hnodup := List.nodup_cons.mpr ⟨hnot, h.nodup prio⟩
  have hsub : p :: s.sched.ready prio ⊆
      (List.range cfg.numProcesses).filter (fun q => (cfg.proc q).prio = prio) := by
    refine List.cons_subset.mpr ⟨?_, ?_⟩
    · exact List.mem_filter.mpr ⟨List.mem_range.mpr hp, decide_eq_true rfl⟩
    · intro q hq
      obtain ⟨hready, hprio⟩ := (h.ready _ _).mp hq
      have hq' : q < s.ld.i := by
        refine Nat.lt_of_not_le fun hle => ?_
        rw [(h.unloaded q).mpr hle] at hready
        exact nomatch hready
      exact List.mem_filter.mpr
        ⟨List.mem_range.mpr (hq'.trans_le hi), decide_eq_true hprio⟩
  have hlen := (List.subperm_of_subset hnodup hsub).length_le
  have hshare := hfits.2 prio
  rw [ldProcesses_eq, List.filter_map, List.length_map] at hshare
  exact Nat.lt_of_succ_le (hlen.trans hshare)

/-- Steps that move no process. -/
theorem Located.same (h : Located cfg s place) (hready : ∀ i, s'.sched.ready i = s.sched.ready i)
    (hheld : ∀ i p, s'.Holds i p ↔ s.Holds i p) (hfin : s'.finished = s.finished)
    (hloaded : s'.loaded = s.loaded) (hi : s'.ld.i = s.ld.i) : Located cfg s' place where
  nodup := fun i => by rw [hready]; exact h.nodup i
  ready := fun i p => by rw [hready]; exact h.ready i p
  held := fun i p => (hheld i p).trans (h.held i p)
  finished := fun p => by rw [hfin]; exact h.finished p
  finished_nodup := by rw [hfin]; exact h.finished_nodup
  loaded := by rw [hloaded, hi]; exact h.loaded
  unloaded := fun p => by rw [hi]; exact h.unloaded p

/-- What CPU `c` holds after a step of its own; the others hold what they held. -/
theorem holds_setCpu (t : CpuThread) (i : Nat) (p : Pid) : (s.setCpu c t).Holds i p ↔
    (i = c ∧ t.proc = some p ∧ t.loc ≠ .get) ∨ (i ≠ c ∧ s.Holds i p) := by
  by_cases hi : i = c
  · subst hi
    simp [Os.Holds]
  · simp [Os.Holds, Os.setCpu_of_ne s t hi, hi]

/-- CPU `c` held nothing and holds nothing. -/
theorem holds_setCpu_none {t : CpuThread} (h : ∀ p, ¬ s.Holds c p)
    (ht : t.proc = none ∨ t.loc = .get) (i : Nat) (p : Pid) :
    (s.setCpu c t).Holds i p ↔ s.Holds i p := by
  rw [holds_setCpu]
  constructor
  · rintro (⟨_, hproc, hloc⟩ | ⟨_, hp⟩)
    · rcases ht with hnone | hget
      · rw [hnone] at hproc
        exact nomatch hproc
      · exact absurd hget hloc
    · exact hp
  · intro hp
    by_cases hi : i = c
    · subst hi
      exact absurd hp (h p)
    · exact Or.inr ⟨hi, hp⟩

/-- CPU `c` keeps its process. -/
theorem holds_setCpu_same {t : CpuThread} (hproc : t.proc = (s.cpu c).proc)
    (hloc : t.loc ≠ .get) (hloc' : (s.cpu c).loc ≠ .get) (i : Nat) (p : Pid) :
    (s.setCpu c t).Holds i p ↔ s.Holds i p := by
  rw [holds_setCpu, hproc]
  by_cases hi : i = c
  · subst hi
    simp [Os.Holds, hloc, hloc']
  · simp [hi]

/-- Process `p` went to `new`, and nobody else went anywhere. -/
structure Moved (cfg : OsCfg) (s s' : Os) (p : Pid) (new : Place) : Prop where
  nodup : ∀ i, (s'.sched.ready i).Nodup
  ready : ∀ i, p ∈ s'.sched.ready i ↔ new = .ready ∧ (cfg.proc p).prio = i
  ready_others : ∀ i q, q ≠ p → (q ∈ s'.sched.ready i ↔ q ∈ s.sched.ready i)
  held : ∀ c, s'.Holds c p ↔ new = .hand c
  held_others : ∀ c q, q ≠ p → (s'.Holds c q ↔ s.Holds c q)
  finished : p ∈ s'.finished ↔ new = .finished
  finished_others : ∀ q, q ≠ p → (q ∈ s'.finished ↔ q ∈ s.finished)
  finished_nodup : s'.finished.Nodup
  loaded : s'.loaded = List.range s'.ld.i
  unloaded : new = .unloaded ↔ s'.ld.i ≤ p
  unloaded_others : ∀ q, q ≠ p → (s'.ld.i ≤ q ↔ s.ld.i ≤ q)

/-- The move of one process. -/
theorem Located.moved {p : Pid} {new : Place} (h : Located cfg s place)
    (hm : Moved cfg s s' p new) : Located cfg s' (Function.update place p new) where
  nodup := hm.nodup
  ready := by
    intro i q
    rcases eq_or_ne q p with rfl | hq
    · rw [Function.update_self]
      exact hm.ready i
    · rw [Function.update_of_ne hq]
      exact (hm.ready_others i q hq).trans (h.ready i q)
  held := by
    intro i q
    rcases eq_or_ne q p with rfl | hq
    · rw [Function.update_self]
      exact hm.held i
    · rw [Function.update_of_ne hq]
      exact (hm.held_others i q hq).trans (h.held i q)
  finished := by
    intro q
    rcases eq_or_ne q p with rfl | hq
    · rw [Function.update_self]
      exact hm.finished
    · rw [Function.update_of_ne hq]
      exact (hm.finished_others q hq).trans (h.finished q)
  finished_nodup := hm.finished_nodup
  loaded := hm.loaded
  unloaded := by
    intro q
    rcases eq_or_ne q p with rfl | hq
    · rw [Function.update_self]
      exact hm.unloaded
    · rw [Function.update_of_ne hq]
      exact (h.unloaded q).trans (hm.unloaded_others q hq).symm

/-- The queues after a process was appended to one. -/
theorem Located.enqueued {p : Pid} {prio : Nat} {sched : Sched} (h : Located cfg s place)
    (hput : enqueueMlq s.sched p prio = .ok sched)
    (hroom : (s.sched.ready prio).length < maxQueueSize) (hplace : place p ≠ .ready) :
    (∀ i, (sched.ready i).Nodup) ∧
    ∀ i q, q ∈ sched.ready i ↔ (q = p ∧ i = prio) ∨ q ∈ s.sched.ready i := by
  obtain ⟨_, _, _, hl, ho⟩ := enqueueMlq_ok hput
  have hsame : sched.ready prio = s.sched.ready prio ++ [p] := hl.trans (if_pos hroom)
  have hothers : ∀ i, i ≠ prio → sched.ready i = s.sched.ready i := fun i hi =>
    congrArg QueueT.toList (ho i hi)
  have hnot : p ∉ s.sched.ready prio := fun hmem => hplace ((h.ready _ _).mp hmem).1
  constructor
  · intro i
    rcases eq_or_ne i prio with rfl | hi
    · rw [hsame]
      exact List.nodup_append.mpr ⟨h.nodup i, List.nodup_singleton p, fun a ha b hb hab =>
        hnot (List.mem_singleton.mp hb ▸ hab ▸ ha)⟩
    · rw [hothers i hi]
      exact h.nodup i
  · intro i q
    rcases eq_or_ne i prio with rfl | hi
    · rw [hsame, List.mem_append, List.mem_singleton]
      simp [or_comm]
    · rw [hothers i hi]
      simp [hi]

/-- The queues after the head of one was taken. -/
theorem Located.taken {p : Pid} {prio : Nat} {sched : Sched} (h : Located cfg s place)
    (ht : s.sched.Taken sched prio p) :
    place p = .ready ∧ (∀ i, (sched.ready i).Nodup) ∧
    ∀ i q, q ∈ sched.ready i ↔ q ≠ p ∧ q ∈ s.sched.ready i := by
  have hmem : p ∈ s.sched.ready prio := by rw [ht.head]; exact List.mem_cons_self
  obtain ⟨hplace, hprio⟩ := (h.ready _ _).mp hmem
  have hnodup := h.nodup prio
  rw [ht.head] at hnodup
  obtain ⟨hnot, hrest⟩ := List.nodup_cons.mp hnodup
  have hothers : ∀ i, i ≠ prio → sched.ready i = s.sched.ready i := fun i hi =>
    congrArg QueueT.toList (ht.others i hi)
  refine ⟨hplace, ?_, ?_⟩
  · intro i
    rcases eq_or_ne i prio with rfl | hi
    · exact hrest
    · rw [hothers i hi]
      exact h.nodup i
  · intro i q
    rcases eq_or_ne i prio with rfl | hi
    · rw [ht.head, List.mem_cons]
      constructor
      · exact fun hq => ⟨fun heq => hnot (heq ▸ hq), Or.inr hq⟩
      · exact fun hq => hq.2.resolve_left hq.1
    · rw [hothers i hi]
      refine ⟨fun hq => ⟨?_, hq⟩, And.right⟩
      -- a process waits in the queue of its own priority
      rintro rfl
      exact hi (((h.ready _ _).mp hq).2.symm.trans hprio)

/-- A process has one place. -/
theorem Located.apart (h : Located cfg s place) {p : Pid} {l : Place} (hp : place p = l) :
    (l ≠ .ready → ∀ i, p ∉ s.sched.ready i) ∧ (∀ c, l ≠ .hand c → ¬ s.Holds c p) ∧
    (l ≠ .finished → p ∉ s.finished) ∧ (l ≠ .unloaded → ¬ s.ld.i ≤ p) := by
  subst hp
  exact ⟨fun hl i hmem => hl ((h.ready i p).mp hmem).1,
    fun c hl hheld => hl ((h.held c p).mp hheld),
    fun hl hmem => hl ((h.finished p).mp hmem), fun hl hle => hl ((h.unloaded p).mpr hle)⟩

theorem Located.dispatch {prio : Nat} {p : Pid} {sched : Sched} {t : CpuThread}
    (h : Located cfg s place) (hnone : ∀ p, ¬ s.Holds c p) (ht : s.sched.Taken sched prio p)
    (hproc : t.proc = some p) (hloc : t.loc ≠ .get) :
    Located cfg ({ s with sched }.setCpu c t) (Function.update place p (.hand c)) := by
  obtain ⟨hplace, hnodup, hready⟩ := h.taken ht
  obtain ⟨_, hheld, hfin, hunl⟩ := h.apart hplace
  refine h.moved {
    nodup := hnodup
    ready := fun i => (hready i p).trans
      ⟨fun hq => absurd rfl hq.1, fun hq => Place.noConfusion hq.1⟩
    ready_others := fun i q hq => (hready i q).trans (and_iff_right hq)
    held := ?_
    held_others := ?_
    finished := ⟨fun hmem => absurd hmem (hfin Place.noConfusion), Place.noConfusion⟩
    finished_others := fun _ _ => Iff.rfl
    finished_nodup := h.finished_nodup
    loaded := h.loaded
    unloaded := ⟨Place.noConfusion, fun hle => absurd hle (hunl Place.noConfusion)⟩
    unloaded_others := fun _ _ => Iff.rfl }
  · intro i
    rw [holds_setCpu]
    constructor
    · rintro (⟨rfl, _⟩ | ⟨_, hi⟩)
      · rfl
      · exact absurd hi (hheld i Place.noConfusion)
    · intro heq
      cases heq
      exact Or.inl ⟨rfl, hproc, hloc⟩
  · intro i q hq
    rw [holds_setCpu, hproc]
    constructor
    · rintro (⟨_, heq, _⟩ | ⟨_, hi⟩)
      · exact absurd (Option.some.inj heq).symm hq
      · exact hi
    · intro hi
      refine Or.inr ⟨?_, hi⟩
      rintro rfl
      exact hnone q hi

/-- CPU `c` gave its process away. -/
theorem Located.released (h : Located cfg s place) {p : Pid} {t : CpuThread}
    (hp : s.Holds c p) (ht : t.loc = .get) :
    (∀ i, ¬ (s.setCpu c t).Holds i p) ∧
    ∀ i q, q ≠ p → ((s.setCpu c t).Holds i q ↔ s.Holds i q) := by
  have hplace := (h.held c p).mp hp
  constructor
  · intro i hi
    rcases (holds_setCpu t i p).mp hi with ⟨_, _, hloc⟩ | ⟨hne, hi⟩
    · exact hloc ht
    · have heq : Place.hand c = Place.hand i := hplace.symm.trans ((h.held i p).mp hi)
      exact hne (Place.hand.inj heq).symm
  · intro i q hq
    rw [holds_setCpu]
    constructor
    · rintro (⟨_, _, hloc⟩ | ⟨_, hi⟩)
      · exact absurd ht hloc
      · exact hi
    · intro hi
      refine Or.inr ⟨?_, hi⟩
      rintro rfl
      exact hq (Option.some.inj (hi.1.symm.trans hp.1))

theorem Located.put {p : Pid} {sched : Sched} {t : CpuThread} (h : Located cfg s place)
    (hp : s.Holds c p) (hput : enqueueMlq s.sched p (cfg.proc p).prio = .ok sched)
    (hroom : (s.sched.ready (cfg.proc p).prio).length < maxQueueSize) (ht : t.loc = .get) :
    Located cfg ({ s with sched }.setCpu c t) (Function.update place p .ready) := by
  have hplace := (h.held c p).mp hp
  have hnot : place p ≠ .ready := fun heq => Place.noConfusion (hplace.symm.trans heq)
  obtain ⟨hnodup, hready⟩ := h.enqueued hput hroom hnot
  obtain ⟨hqueue, _, hfin, hunl⟩ := h.apart hplace
  obtain ⟨hgone, hothers⟩ := h.released hp ht
  exact h.moved {
    nodup := hnodup
    ready := by
      intro i
      refine (hready i p).trans ⟨?_, fun hi => Or.inl ⟨rfl, hi.2.symm⟩⟩
      rintro (⟨_, hi⟩ | hmem)
      · exact ⟨rfl, hi.symm⟩
      · exact absurd hmem (hqueue Place.noConfusion i)
    ready_others := fun i q hq => (hready i q).trans (or_iff_right fun hpq => hq hpq.1)
    held := fun i => ⟨fun hi => absurd hi (hgone i), Place.noConfusion⟩
    held_others := hothers
    finished := ⟨fun hmem => absurd hmem (hfin Place.noConfusion), Place.noConfusion⟩
    finished_others := fun _ _ => Iff.rfl
    finished_nodup := h.finished_nodup
    loaded := h.loaded
    unloaded := ⟨Place.noConfusion, fun hle => absurd hle (hunl Place.noConfusion)⟩
    unloaded_others := fun _ _ => Iff.rfl }

theorem Located.finish {p : Pid} {t : CpuThread} (h : Located cfg s place)
    (hp : s.Holds c p) (ht : t.loc = .get) :
    Located cfg ({ s with
      sched := removeProc s.sched p, finished := s.finished ++ [p] }.setCpu c t)
      (Function.update place p .finished) := by
  have hplace := (h.held c p).mp hp
  obtain ⟨hqueue, _, hfin, hunl⟩ := h.apart hplace
  obtain ⟨hgone, hothers⟩ := h.released hp ht
  exact h.moved {
    nodup := h.nodup
    ready := fun i =>
      ⟨fun hmem => absurd hmem (hqueue Place.noConfusion i), fun hi => Place.noConfusion hi.1⟩
    ready_others := fun _ _ _ => Iff.rfl
    held := fun i => ⟨fun hi => absurd hi (hgone i), Place.noConfusion⟩
    held_others := hothers
    finished := ⟨fun _ => rfl, fun _ => List.mem_append_right _ List.mem_cons_self⟩
    finished_others := fun q hq => by
      show q ∈ s.finished ++ [p] ↔ _
      rw [List.mem_append, List.mem_singleton]
      exact or_iff_left hq
    finished_nodup := List.nodup_append.mpr ⟨h.finished_nodup, List.nodup_singleton p,
      fun a ha b hb hab => hfin Place.noConfusion (List.mem_singleton.mp hb ▸ hab ▸ ha)⟩
    loaded := h.loaded
    unloaded := ⟨Place.noConfusion, fun hle => absurd hle (hunl Place.noConfusion)⟩
    unloaded_others := fun _ _ => Iff.rfl }

theorem Located.add {sched : Sched} {loc : LdLoc} (h : Located cfg s place)
    (hadd : enqueueMlq s.sched s.ld.i (cfg.proc s.ld.i).prio = .ok sched)
    (hroom : (s.sched.ready (cfg.proc s.ld.i).prio).length < maxQueueSize) :
    Located cfg { s with
      sched, loaded := s.loaded ++ [s.ld.i], ld := { i := s.ld.i + 1, loc } }
      (Function.update place s.ld.i .ready) := by
  have hplace := (h.unloaded s.ld.i).mpr (Nat.le_refl _)
  have hnot : place s.ld.i ≠ .ready := fun heq => Place.noConfusion (hplace.symm.trans heq)
  obtain ⟨hnodup, hready⟩ := h.enqueued hadd hroom hnot
  obtain ⟨hqueue, hheld, hfin, _⟩ := h.apart hplace
  exact h.moved {
    nodup := hnodup
    ready := by
      intro i
      refine (hready i _).trans ⟨?_, fun hi => Or.inl ⟨rfl, hi.2.symm⟩⟩
      rintro (⟨_, hi⟩ | hmem)
      · exact ⟨rfl, hi.symm⟩
      · exact absurd hmem (hqueue Place.noConfusion i)
    ready_others := fun i q hq => (hready i q).trans (or_iff_right fun hpq => hq hpq.1)
    held := fun i => ⟨fun hi => absurd hi (hheld i Place.noConfusion), Place.noConfusion⟩
    held_others := fun _ _ _ => Iff.rfl
    finished := ⟨fun hmem => absurd hmem (hfin Place.noConfusion), Place.noConfusion⟩
    finished_others := fun _ _ => Iff.rfl
    finished_nodup := h.finished_nodup
    loaded := by
      show s.loaded ++ [s.ld.i] = List.range (s.ld.i + 1)
      rw [List.range_succ, h.loaded]
    unloaded := ⟨Place.noConfusion, fun hle => absurd hle (Nat.not_succ_le_self _)⟩
    unloaded_others := fun q hq =>
      ⟨fun hle => Nat.le_of_succ_le hle, fun hle => Nat.lt_of_le_of_ne hle hq.symm⟩ }

/-- A step of a CPU. -/
theorem Located.cpu (h : Located cfg s place) (hfits : cfg.Fits)
    (hi : s.ld.i ≤ cfg.numProcesses) (hm : CpuMove cfg s c s') :
    ∃ place', Located cfg s' place' := by
  have hnone : ((s.cpu c).loc = .top ∧ (s.cpu c).proc = none ∨ (s.cpu c).loc = .get) →
      ∀ p, ¬ s.Holds c p := by
    rintro (⟨_, hproc⟩ | hget) p ⟨hp, hloc⟩
    · exact Option.some_ne_none p (hp.symm.trans hproc)
    · exact hloc hget
  cases hm with
  | idle hcase _ =>
      exact ⟨place, h.same (fun _ => rfl) (holds_setCpu_none (hnone hcase) (Or.inl rfl)) rfl rfl
        rfl⟩
  | dispatch prio p sched hcase ht =>
      exact ⟨_, h.dispatch (hnone hcase) ht rfl CpuLoc.noConfusion⟩
  | finish p hloc hproc _ =>
      have hp : s.Holds c p := ⟨hproc, by rw [hloc]; exact CpuLoc.noConfusion⟩
      exact ⟨_, h.finish hp rfl⟩
  | put p sched hloc hproc hput =>
      have hp : s.Holds c p := ⟨hproc, by rw [hloc]; exact CpuLoc.noConfusion⟩
      have hplace := (h.held c p).mp hp
      have hlt : p < cfg.numProcesses := by
        refine Nat.lt_of_lt_of_le (Nat.lt_of_not_le fun hle => ?_) hi
        exact Place.noConfusion (hplace.symm.trans ((h.unloaded p).mpr hle))
      have hroom := h.room hfits hi hlt fun heq => Place.noConfusion (hplace.symm.trans heq)
      exact ⟨_, h.put hp hput hroom rfl⟩
  | stop hloc hproc _ =>
      refine ⟨place, h.same (fun _ => rfl) (holds_setCpu_same rfl ?_ ?_) rfl rfl rfl⟩
      · exact CpuLoc.noConfusion
      · rw [hloc]; exact CpuLoc.noConfusion
  | skip hloc hproc _ =>
      refine ⟨place, h.same (fun _ => rfl) (holds_setCpu_same rfl ?_ ?_) rfl rfl rfl⟩
      · exact CpuLoc.noConfusion
      · rw [hloc]; exact CpuLoc.noConfusion
  | keep p timeLeft loc hproc hcase =>
      refine ⟨place, h.same (fun _ => rfl) (holds_setCpu_same rfl ?_ ?_) rfl rfl rfl⟩
      · rcases hcase with ⟨_, rfl⟩ | ⟨_, rfl⟩ | ⟨_, rfl, _⟩ <;> exact CpuLoc.noConfusion
      · rcases hcase with ⟨hloc, _⟩ | ⟨hloc, _⟩ | ⟨hloc, _, _⟩ <;> rw [hloc] <;>
          exact CpuLoc.noConfusion
  | exec p hloc hproc _ =>
      refine ⟨place, h.same (fun _ => rfl) (holds_setCpu_same rfl ?_ ?_) rfl rfl rfl⟩
      · exact CpuLoc.noConfusion
      · show (s.cpu c).loc ≠ .get
        rw [hloc]
        exact CpuLoc.noConfusion
  | timer e timer loc hcase _ =>
      refine ⟨place, h.same (fun _ => rfl) (holds_setCpu_same rfl ?_ ?_) rfl rfl rfl⟩
      · rcases hcase with ⟨_, _, rfl⟩ | ⟨_, _, rfl⟩ | ⟨_, _, rfl⟩ <;> exact CpuLoc.noConfusion
      · show (s.cpu c).loc ≠ .get
        rcases hcase with ⟨hloc, _⟩ | ⟨hloc, _⟩ | ⟨hloc, _⟩ <;> rw [hloc] <;>
          exact CpuLoc.noConfusion

/-- A step of the loader. -/
theorem Located.loader (h : Located cfg s place) (hfits : cfg.Fits)
    (hi : s.ld.i ≤ cfg.numProcesses) (hadd : s.ld.loc = .add → s.ld.i < cfg.numProcesses)
    (hm : LdMove cfg s s') : ∃ place', Located cfg s' place' := by
  cases hm with
  | add sched hloc hput =>
      have hplace := (h.unloaded s.ld.i).mpr (Nat.le_refl _)
      have hroom := h.room hfits hi (hadd hloc) fun heq =>
        Place.noConfusion (hplace.symm.trans heq)
      exact ⟨_, h.add hput hroom⟩
  | next _ _ => exact ⟨place, h.same (fun _ => rfl) (fun _ _ => Iff.rfl) rfl rfl rfl⟩
  | last _ _ => exact ⟨place, h.same (fun _ => rfl) (fun _ _ => Iff.rfl) rfl rfl rfl⟩
  | early _ => exact ⟨place, h.same (fun _ => rfl) (fun _ _ => Iff.rfl) rfl rfl rfl⟩
  | due _ => exact ⟨place, h.same (fun _ => rfl) (fun _ _ => Iff.rfl) rfl rfl rfl⟩
  | call _ _ _ _ => exact ⟨place, h.same (fun _ => rfl) (fun _ _ => Iff.rfl) rfl rfl rfl⟩
  | ret _ _ _ _ => exact ⟨place, h.same (fun _ => rfl) (fun _ _ => Iff.rfl) rfl rfl rfl⟩
  | done _ => exact ⟨place, h.same (fun _ => rfl) (fun _ _ => Iff.rfl) rfl rfl rfl⟩
  | detach _ _ _ => exact ⟨place, h.same (fun _ => rfl) (fun _ _ => Iff.rfl) rfl rfl rfl⟩

end Located

/-! ## How far they are -/

/-- The instructions of process `p` that were executed, oldest first. -/
def Os.executed (s : Os) (p : Pid) : List Nat :=
  (s.log.filter (fun x => x.2.1 = p)).map (fun x => x.2.2)

/-- The instructions before the program counter were executed, in order and once each. -/
structure Progress (cfg : OsCfg) (s : Os) : Prop where
  pc_le : ∀ p, s.pc p ≤ (cfg.proc p).size
  executed : ∀ p, s.executed p = List.range (s.pc p)
  finished : ∀ p ∈ s.finished, s.pc p = (cfg.proc p).size

theorem progress_start (cfg : OsCfg) : Progress cfg cfg.start where
  pc_le := fun _ => Nat.zero_le _
  executed := fun _ => rfl
  finished := fun _ h => absurd h List.not_mem_nil

section Progress
variable {cfg : OsCfg} {s s' : Os} {c : Nat}

theorem Progress.same (h : Progress cfg s) (hpc : s'.pc = s.pc) (hlog : s'.log = s.log)
    (hfin : s'.finished = s.finished) : Progress cfg s' where
  pc_le := by rw [hpc]; exact h.pc_le
  executed := fun p => by rw [hpc, Os.executed, hlog]; exact h.executed p
  finished := by rw [hpc, hfin]; exact h.finished

/-- One instruction of process `p`. -/
theorem executed_exec (p q : Pid) (k : Nat) :
    { s with log := s.log ++ [(c, p, k)] }.executed q =
      if q = p then s.executed q ++ [k] else s.executed q := by
  rw [Os.executed, List.filter_append, List.map_append]
  rcases eq_or_ne q p with rfl | hq
  · have hpos : decide ((c, q, k).2.1 = q) = true := decide_eq_true rfl
    rw [if_pos rfl, List.filter_singleton, hpos]
    rfl
  · have hneg : decide ((c, p, k).2.1 = q) = false := decide_eq_false hq.symm
    rw [if_neg hq, List.filter_singleton, hneg]
    exact List.append_nil _

theorem Progress.cpu (h : Progress cfg s) (hm : CpuMove cfg s c s') : Progress cfg s' := by
  cases hm with
  | finish p _ _ hend =>
      refine ⟨h.pc_le, h.executed, ?_⟩
      intro q hq
      rcases List.mem_append.mp hq with hq | hq
      · exact h.finished q hq
      · rw [List.mem_singleton.mp hq]
        exact hend
  | exec p _ _ hlt =>
      refine ⟨?_, ?_, ?_⟩ <;> intro q
      · show Function.update s.pc p (s.pc p + 1) q ≤ _
        rcases eq_or_ne q p with rfl | hq
        · rw [Function.update_self]
          exact hlt
        · rw [Function.update_of_ne hq]
          exact h.pc_le q
      · show { s with log := s.log ++ [(c, p, s.pc p)] }.executed q =
          List.range (Function.update s.pc p (s.pc p + 1) q)
        rw [executed_exec, h.executed]
        rcases eq_or_ne q p with rfl | hq
        · rw [if_pos rfl, Function.update_self, List.range_succ]
        · rw [if_neg hq, Function.update_of_ne hq]
      · intro hq
        show Function.update s.pc p (s.pc p + 1) q = _
        have hend := h.finished q hq
        rcases eq_or_ne q p with rfl | hne
        · exact absurd hlt (Nat.not_lt.mpr (Nat.le_of_eq hend.symm))
        · rw [Function.update_of_ne hne]
          exact hend
  | idle _ _ => exact h.same rfl rfl rfl
  | dispatch _ _ _ _ _ => exact h.same rfl rfl rfl
  | put _ _ _ _ _ => exact h.same rfl rfl rfl
  | stop _ _ _ => exact h.same rfl rfl rfl
  | skip _ _ _ => exact h.same rfl rfl rfl
  | keep _ _ _ _ _ => exact h.same rfl rfl rfl
  | timer _ _ _ _ _ => exact h.same rfl rfl rfl

theorem Progress.loader (h : Progress cfg s) (hm : LdMove cfg s s') : Progress cfg s' := by
  cases hm <;> exact h.same rfl rfl rfl

end Progress

/-! ## Where the threads are -/

/-- CPU thread `t` has left its loop. -/
def CpuThread.Stopped (t : CpuThread) : Prop := t.loc = .detach ∨ t.loc = .exited

/-- In the body of the loop of `ld_routine`, before `add_proc`. -/
def LdLoc.before : LdLoc → Bool
  | .time | .add | .slot false | .wait false => true
  | _ => false

/-- After the loop of `ld_routine`. -/
def LdLoc.after : LdLoc → Bool
  | .done | .detach | .exited => true
  | _ => false

/-- The threads and what the timer knows of them. -/
structure Control (cfg : OsCfg) (s : Os) : Prop where
  timer : TimerOk (cfg.numCpus + 1) s.timer
  waits : ∀ c < cfg.numCpus, (s.timer.dev c).waiting = true → (s.cpu c).loc = .wait
  gone : ∀ c < cfg.numCpus, (s.timer.dev c).fsh = true → (s.cpu c).loc = .exited
  ldGone : (s.timer.dev cfg.numCpus).fsh = true → s.ld.loc = .exited
  stopped : ∀ c, (s.cpu c).Stopped → (s.cpu c).proc = none ∧ s.done = true
  beyond : ∀ c, cfg.numCpus ≤ c → (s.cpu c).proc = none
  done : s.done = true → s.ld.loc = .detach ∨ s.ld.loc = .exited
  i_le : s.ld.i ≤ cfg.numProcesses
  before : s.ld.loc.before = true → s.ld.i < cfg.numProcesses
  after : s.ld.loc.after = true → s.ld.i = cfg.numProcesses

theorem control_start (cfg : OsCfg) : Control cfg cfg.start where
  timer := timerOk_start _
  waits := fun _ _ h => nomatch h
  gone := fun _ _ h => nomatch h
  ldGone := fun h => nomatch h
  stopped := fun _ h => h.elim (fun h => nomatch h) (fun h => nomatch h)
  beyond := fun _ _ => rfl
  done := fun h => nomatch h
  i_le := Nat.zero_le _
  before := fun h => nomatch h
  after := fun h => nomatch h

section Control
variable {cfg : OsCfg} {s s' : Os} {c : Nat}

/-- CPU `c` goes on. -/
theorem Control.thread {t : CpuThread} (h : Control cfg s) (hc : c < cfg.numCpus)
    (htimer : TimerOk (cfg.numCpus + 1) s'.timer)
    (hdev : ∀ i, i ≠ c → s'.timer.dev i = s.timer.dev i) (hdone : s'.done = s.done)
    (hld : s'.ld = s.ld) (hcpu : s'.cpu = Function.update s.cpu c t)
    (hwait : (s'.timer.dev c).waiting = true → t.loc = .wait)
    (hgone : (s'.timer.dev c).fsh = true → t.loc = .exited)
    (hstop : t.Stopped → t.proc = none ∧ s.done = true) : Control cfg s' where
  timer := htimer
  waits := by
    intro i hi hw
    rw [hcpu]
    rcases eq_or_ne i c with rfl | hic
    · rw [Function.update_self]
      exact hwait hw
    · rw [hdev i hic] at hw
      rw [Function.update_of_ne hic]
      exact h.waits i hi hw
  gone := by
    intro i hi hf
    rw [hcpu]
    rcases eq_or_ne i c with rfl | hic
    · rw [Function.update_self]
      exact hgone hf
    · rw [hdev i hic] at hf
      rw [Function.update_of_ne hic]
      exact h.gone i hi hf
  ldGone := by rw [hdev _ (Nat.ne_of_gt hc), hld]; exact h.ldGone
  stopped := by
    intro i
    rw [hcpu, hdone]
    rcases eq_or_ne i c with rfl | hic
    · rw [Function.update_self]
      exact hstop
    · rw [Function.update_of_ne hic]
      exact h.stopped i
  beyond := by
    intro i hi
    have hic : i ≠ c := fun hic => absurd hc (Nat.not_lt.mpr (hic ▸ hi))
    rw [hcpu, Function.update_of_ne hic]
    exact h.beyond i hi
  done := by rw [hdone, hld]; exact h.done
  i_le := by rw [hld]; exact h.i_le
  before := by rw [hld]; exact h.before
  after := by rw [hld]; exact h.after

/-- CPU `c` goes on, away from the timer. -/
theorem Control.away {t : CpuThread} (h : Control cfg s) (hc : c < cfg.numCpus)
    (htimer : s'.timer = s.timer) (hdone : s'.done = s.done) (hld : s'.ld = s.ld)
    (hcpu : s'.cpu = Function.update s.cpu c t) (hwait : (s.cpu c).loc ≠ .wait)
    (hexit : (s.cpu c).loc ≠ .exited)
    (hstop : t.Stopped → t.proc = none ∧ s.done = true) : Control cfg s' := by
  refine h.thread hc ?_ (fun i _ => by rw [htimer]) hdone hld hcpu ?_ ?_ hstop
  · rw [htimer]
    exact h.timer
  · rw [htimer]
    exact fun hw => absurd (h.waits c hc hw) hwait
  · rw [htimer]
    exact fun hf => absurd (h.gone c hc hf) hexit

theorem Control.cpu (h : Control cfg s) (hc : c < cfg.numCpus) (hm : CpuMove cfg s c s') :
    Control cfg s' := by
  have hloc : ∀ {l : CpuLoc}, (s.cpu c).loc = l → l ≠ .wait → l ≠ .exited →
      (s.cpu c).loc ≠ .wait ∧ (s.cpu c).loc ≠ .exited := fun hl hw he => by
    rw [hl]
    exact ⟨hw, he⟩
  have hlive : ∀ {t : CpuThread}, t.loc ≠ .detach → t.loc ≠ .exited →
      t.Stopped → t.proc = none ∧ s.done = true := fun hd he hst => (hst.elim hd he).elim
  have hcase : ((s.cpu c).loc = .top ∧ (s.cpu c).proc = none ∨ (s.cpu c).loc = .get) →
      (s.cpu c).loc ≠ .wait ∧ (s.cpu c).loc ≠ .exited := by
    rintro (⟨hl, _⟩ | hl)
    · exact hloc hl CpuLoc.noConfusion CpuLoc.noConfusion
    · exact hloc hl CpuLoc.noConfusion CpuLoc.noConfusion
  cases hm with
  | idle hl _ =>
      exact h.away hc rfl rfl rfl rfl (hcase hl).1 (hcase hl).2
        (hlive CpuLoc.noConfusion CpuLoc.noConfusion)
  | dispatch prio p sched hl _ =>
      exact h.away hc rfl rfl rfl rfl (hcase hl).1 (hcase hl).2
        (hlive CpuLoc.noConfusion CpuLoc.noConfusion)
  | finish p hl _ _ =>
      obtain ⟨hw, he⟩ := hloc hl CpuLoc.noConfusion CpuLoc.noConfusion
      exact h.away hc rfl rfl rfl rfl hw he (hlive CpuLoc.noConfusion CpuLoc.noConfusion)
  | put p sched hl _ _ =>
      obtain ⟨hw, he⟩ := hloc hl CpuLoc.noConfusion CpuLoc.noConfusion
      exact h.away hc rfl rfl rfl rfl hw he (hlive CpuLoc.noConfusion CpuLoc.noConfusion)
  | stop hl hproc hdone =>
      obtain ⟨hw, he⟩ := hloc hl CpuLoc.noConfusion CpuLoc.noConfusion
      exact h.away hc rfl rfl rfl rfl hw he fun _ => ⟨hproc, hdone⟩
  | skip hl _ _ =>
      obtain ⟨hw, he⟩ := hloc hl CpuLoc.noConfusion CpuLoc.noConfusion
      exact h.away hc rfl rfl rfl rfl hw he (hlive CpuLoc.noConfusion CpuLoc.noConfusion)
  | keep p timeLeft loc _ hl =>
      rcases hl with ⟨hl, rfl⟩ | ⟨hl, rfl⟩ | ⟨hl, rfl, _⟩ <;>
      · obtain ⟨hw, he⟩ := hloc hl CpuLoc.noConfusion CpuLoc.noConfusion
        exact h.away hc rfl rfl rfl rfl hw he (hlive CpuLoc.noConfusion CpuLoc.noConfusion)
  | exec p hl _ _ =>
      obtain ⟨hw, he⟩ := hloc hl CpuLoc.noConfusion CpuLoc.noConfusion
      exact h.away hc rfl rfl rfl rfl hw he (hlive CpuLoc.noConfusion CpuLoc.noConfusion)
  | timer e timer loc hl hs =>
      rcases hl with ⟨hl, rfl, rfl⟩ | ⟨hl, rfl, rfl⟩ | ⟨hl, rfl, rfl⟩
      · obtain ⟨_, _, hf, rfl⟩ := nextSlotCall_cases hs
        refine h.thread hc (h.timer.step hs) (timerStep_device hs rfl).2 rfl rfl rfl
          (fun _ => rfl) ?_ (hlive CpuLoc.noConfusion CpuLoc.noConfusion)
        show ((s.timer.setDev c _).dev c).fsh = true → _
        rw [Timer.setDev_self]
        exact fun hfsh => absurd (hf.symm.trans hfsh) Bool.false_ne_true
      · obtain ⟨_, hw, _, rfl⟩ := nextSlotRet_cases hs
        have hf := (h.timer.dev c (Nat.lt_succ_of_lt hc)).not_gone hw
        refine h.thread hc (h.timer.step hs) (timerStep_device hs rfl).2 rfl rfl rfl
          ?_ ?_ (hlive CpuLoc.noConfusion CpuLoc.noConfusion)
        · show ((s.timer.setDev c _).dev c).waiting = true → _
          rw [Timer.setDev_self]
          exact fun hwait => nomatch hwait
        · show ((s.timer.setDev c _).dev c).fsh = true → _
          rw [Timer.setDev_self]
          exact fun hfsh => absurd (hf.symm.trans hfsh) Bool.false_ne_true
      · obtain ⟨_, hw, _, rfl⟩ := detachEvent_cases hs
        refine h.thread hc (h.timer.step hs) (timerStep_device hs rfl).2 rfl rfl rfl
          ?_ (fun _ => rfl) fun _ => h.stopped c (Or.inl hl)
        show ((s.timer.setDev c _).dev c).waiting = true → _
        rw [Timer.setDev_self]
        exact fun hwait => absurd (hw.symm.trans hwait) Bool.false_ne_true

/-- The loader or the timer goes on. -/
theorem Control.others (h : Control cfg s) (htimer : TimerOk (cfg.numCpus + 1) s'.timer)
    (hdev : ∀ i < cfg.numCpus, (s'.timer.dev i).waiting = (s.timer.dev i).waiting ∧
      (s'.timer.dev i).fsh = (s.timer.dev i).fsh)
    (hcpu : s'.cpu = s.cpu) (hdone : s.done = true → s'.done = true)
    (hgone : (s'.timer.dev cfg.numCpus).fsh = true → s'.ld.loc = .exited)
    (hend : s'.done = true → s'.ld.loc = .detach ∨ s'.ld.loc = .exited)
    (hi : s'.ld.i ≤ cfg.numProcesses)
    (hbefore : s'.ld.loc.before = true → s'.ld.i < cfg.numProcesses)
    (hafter : s'.ld.loc.after = true → s'.ld.i = cfg.numProcesses) : Control cfg s' where
  timer := htimer
  waits := by
    intro i hi hw
    rw [(hdev i hi).1] at hw
    rw [hcpu]
    exact h.waits i hi hw
  gone := by
    intro i hi hf
    rw [(hdev i hi).2] at hf
    rw [hcpu]
    exact h.gone i hi hf
  ldGone := hgone
  stopped := by
    rw [hcpu]
    exact fun i hst => (h.stopped i hst).imp_right hdone
  beyond := by
    rw [hcpu]
    exact h.beyond
  done := hend
  i_le := hi
  before := hbefore
  after := hafter

theorem Control.not_gone (h : Control cfg s) (hloc : s.ld.loc ≠ .exited) :
    (s.timer.dev cfg.numCpus).fsh = false := by
  cases hf : (s.timer.dev cfg.numCpus).fsh with
  | false => rfl
  | true => exact absurd (h.ldGone hf) hloc

theorem Control.not_done (h : Control cfg s) (hloc : s.ld.loc ≠ .detach)
    (hloc' : s.ld.loc ≠ .exited) : s.done = false := by
  cases hd : s.done with
  | false => rfl
  | true => exact ((h.done hd).elim hloc hloc').elim

/-- The loader goes on, away from the timer and not past its loop. -/
theorem Control.load {ld : LdThread} (h : Control cfg s) (htimer : s'.timer = s.timer)
    (hcpu : s'.cpu = s.cpu) (hdone : s'.done = s.done) (hld : s'.ld = ld)
    (hloc : s.ld.loc ≠ .detach) (hloc' : s.ld.loc ≠ .exited) (hi : ld.i ≤ cfg.numProcesses)
    (hbefore : ld.loc.before = true → ld.i < cfg.numProcesses)
    (hafter : ld.loc.after = true → ld.i = cfg.numProcesses) : Control cfg s' := by
  refine h.others ?_ (fun i _ => by rw [htimer]; exact ⟨rfl, rfl⟩) hcpu ?_ ?_ ?_ ?_ ?_ ?_
  · rw [htimer]; exact h.timer
  · rw [hdone]; exact id
  · rw [htimer, h.not_gone hloc']; exact fun hf => nomatch hf
  · rw [hdone, h.not_done hloc hloc']; exact fun hd => nomatch hd
  · rw [hld]; exact hi
  · rw [hld]; exact hbefore
  · rw [hld]; exact hafter

/-- The loader goes on, with a critical section of the timer. -/
theorem Control.loadDevice {ld : LdThread} {e : TimerEvent} {timer : Timer} (h : Control cfg s)
    (he : e.device = some cfg.numCpus) (hs : timerStep s.timer e = some timer)
    (hgone : (timer.dev cfg.numCpus).fsh = true → ld.loc = .exited)
    (hend : s.done = true → ld.loc = .detach ∨ ld.loc = .exited) (hi : ld.i ≤ cfg.numProcesses)
    (hbefore : ld.loc.before = true → ld.i < cfg.numProcesses)
    (hafter : ld.loc.after = true → ld.i = cfg.numProcesses) :
    Control cfg { s with timer, ld } := by
  refine h.others (h.timer.step hs) ?_ rfl id hgone hend hi hbefore hafter
  intro i hi
  have hdev := (timerStep_device hs he).2 i (Nat.ne_of_lt hi)
  show (timer.dev i).waiting = _ ∧ (timer.dev i).fsh = _
  rw [hdev]
  exact ⟨rfl, rfl⟩

theorem Control.loader (h : Control cfg s) (hm : LdMove cfg s s') : Control cfg s' := by
  cases hm with
  | next hloc hlt =>
      exact h.load rfl rfl rfl rfl (by rw [hloc]; exact LdLoc.noConfusion)
        (by rw [hloc]; exact LdLoc.noConfusion) h.i_le (fun _ => hlt) (fun hl => nomatch hl)
  | last hloc hge =>
      have hi : s.ld.i = cfg.numProcesses := Nat.le_antisymm h.i_le (Nat.not_lt.mp hge)
      exact h.load rfl rfl rfl rfl (by rw [hloc]; exact LdLoc.noConfusion)
        (by rw [hloc]; exact LdLoc.noConfusion) h.i_le (fun hl => nomatch hl) (fun _ => hi)
  | early hloc =>
      have hlt := h.before (by rw [hloc]; rfl)
      exact h.load rfl rfl rfl rfl (by rw [hloc]; exact LdLoc.noConfusion)
        (by rw [hloc]; exact LdLoc.noConfusion) h.i_le (fun _ => hlt) (fun hl => nomatch hl)
  | due hloc =>
      have hlt := h.before (by rw [hloc]; rfl)
      exact h.load rfl rfl rfl rfl (by rw [hloc]; exact LdLoc.noConfusion)
        (by rw [hloc]; exact LdLoc.noConfusion) h.i_le (fun _ => hlt) (fun hl => nomatch hl)
  | add sched hloc _ =>
      have hlt := h.before (by rw [hloc]; rfl)
      exact h.load rfl rfl rfl rfl (by rw [hloc]; exact LdLoc.noConfusion)
        (by rw [hloc]; exact LdLoc.noConfusion) hlt (fun hl => nomatch hl) (fun hl => nomatch hl)
  | call added timer hloc hcall =>
      have hdone := h.not_done (by rw [hloc]; exact LdLoc.noConfusion)
        (by rw [hloc]; exact LdLoc.noConfusion)
      obtain ⟨_, _, hf, htimer⟩ := nextSlotCall_cases hcall
      refine h.loadDevice (e := .call cfg.numCpus) rfl hcall ?_ ?_ h.i_le ?_ ?_
      · rw [htimer, Timer.setDev_self]
        exact fun hfsh => absurd (hf.symm.trans hfsh) Bool.false_ne_true
      · rw [hdone]
        exact fun hd => nomatch hd
      · intro hl
        refine h.before ?_
        rw [hloc]
        cases added with
        | false => rfl
        | true => exact nomatch hl
      · exact fun hl => nomatch hl
  | ret added timer hloc hret =>
      have hdone := h.not_done (by rw [hloc]; exact LdLoc.noConfusion)
        (by rw [hloc]; exact LdLoc.noConfusion)
      have hf := h.not_gone (by rw [hloc]; exact LdLoc.noConfusion)
      obtain ⟨_, _, _, htimer⟩ := nextSlotRet_cases hret
      refine h.loadDevice (e := .ret cfg.numCpus) rfl hret ?_ ?_ h.i_le ?_ ?_
      · rw [htimer, Timer.setDev_self]
        exact fun hfsh => absurd (hf.symm.trans hfsh) Bool.false_ne_true
      · rw [hdone]
        exact fun hd => nomatch hd
      · intro hl
        refine h.before ?_
        rw [hloc]
        cases added with
        | false => rfl
        | true => exact nomatch hl
      · intro hl
        cases added with
        | false => exact nomatch hl
        | true => exact nomatch hl
  | done hloc =>
      have hi := h.after (by rw [hloc]; rfl)
      have hf := h.not_gone (by rw [hloc]; exact LdLoc.noConfusion)
      refine h.others h.timer (fun _ _ => ⟨rfl, rfl⟩) rfl (fun _ => rfl) ?_ (fun _ => Or.inl rfl)
        h.i_le (fun hl => nomatch hl) (fun _ => hi)
      exact fun hfsh => absurd (hf.symm.trans hfsh) Bool.false_ne_true
  | detach timer hloc hdetach =>
      have hi := h.after (by rw [hloc]; rfl)
      exact h.loadDevice (e := .detach cfg.numCpus) rfl hdetach (fun _ => rfl) (fun _ => Or.inr rfl)
        h.i_le (fun hl => nomatch hl) (fun _ => hi)

/-- A step of the timer. -/
theorem Control.tick {timer : Timer} (h : Control cfg s)
    (hs : timerRoutine s.timer = some timer) : Control cfg { s with timer } := by
  have hdev := timerRoutine_dev hs
  refine h.others (h.timer.step (e := .tick) hs) (fun i _ => ⟨(hdev i).1, (hdev i).2.1⟩) rfl id ?_
    h.done h.i_le h.before h.after
  show (timer.dev cfg.numCpus).fsh = true → _
  rw [(hdev cfg.numCpus).2.1]
  exact h.ldGone

end Control

/-! ## Who looks after the ready queues -/

/-- CPU thread `t` will call `get_proc` before it can stop. -/
def CpuThread.Attends (t : CpuThread) : Prop :=
  ¬ t.Stopped ∧ ¬ (t.loc = .recheck ∧ t.proc = none)

/-- The slot of the last `add_proc` is over. -/
def Os.Sealed (cfg : OsCfg) (s : Os) : Prop :=
  s.ld.i = cfg.numProcesses ∧ s.ld.loc ≠ .slot true ∧
  (s.ld.loc = .wait true → (s.timer.dev cfg.numCpus).calls ≤ s.timer.ticks)

/-- From then on somebody looks after a ready queue that is not empty. -/
def Attended (cfg : OsCfg) (s : Os) : Prop :=
  s.Sealed cfg → ∀ i, s.sched.ready i ≠ [] → ∃ c < cfg.numCpus, (s.cpu c).Attends

theorem attends_of_loc {t : CpuThread} (hd : t.loc ≠ .detach) (he : t.loc ≠ .exited)
    (hr : t.loc ≠ .recheck ∨ t.proc ≠ none) : t.Attends :=
  ⟨fun hst => hst.elim hd he, fun hnull => hr.elim (fun h => h hnull.1) (fun h => h hnull.2)⟩

theorem attended_start {cfg : OsCfg} (hcpus : 1 ≤ cfg.numCpus) : Attended cfg cfg.start :=
  fun _ _ _ => ⟨0, hcpus, attends_of_loc CpuLoc.noConfusion CpuLoc.noConfusion
    (Or.inl CpuLoc.noConfusion)⟩

section Attended
variable {cfg : OsCfg} {s s' : Os} {place : Pid → Place} {c : Nat}

/-- What the loader sees of the timer decides whether the slot is over. -/
theorem Sealed.congr (hld : s'.ld = s.ld)
    (hcalls : (s'.timer.dev cfg.numCpus).calls = (s.timer.dev cfg.numCpus).calls)
    (hticks : s'.timer.ticks = s.timer.ticks) (h : s'.Sealed cfg) : s.Sealed cfg := by
  rw [Os.Sealed, hld, hcalls, hticks] at h
  exact h

/-- A CPU that does not look after the queues goes on and leaves them alone. -/
theorem Attended.rest (h : Attended cfg s) (hc : ¬ (s.cpu c).Attends) {t : CpuThread}
    (hseal : s'.Sealed cfg → s.Sealed cfg) (hsched : s'.sched = s.sched)
    (hcpu : s'.cpu = Function.update s.cpu c t) : Attended cfg s' := by
  intro hs i hi
  rw [hsched] at hi
  obtain ⟨c', hc', hatt⟩ := h (hseal hs) i hi
  refine ⟨c', hc', ?_⟩
  have hne : c' ≠ c := fun heq => hc (heq ▸ hatt)
  rw [hcpu, Function.update_of_ne hne]
  exact hatt

/-- CPU `c` looks after the queues. -/
theorem Attended.self {t : CpuThread} (hc : c < cfg.numCpus)
    (hcpu : s'.cpu = Function.update s.cpu c t) (hatt : t.Attends) : Attended cfg s' := by
  intro _ _ _
  refine ⟨c, hc, ?_⟩
  rw [hcpu, Function.update_self]
  exact hatt

theorem Attended.cpu (h : Attended cfg s) (hloc : Located cfg s place) (hfits : cfg.Fits)
    (hi : s.ld.i ≤ cfg.numProcesses) (hc : c < cfg.numCpus) (hm : CpuMove cfg s c s') :
    Attended cfg s' := by
  cases hm with
  | idle _ hall =>
      -- `get_proc` found nothing: there is nothing to look after
      intro _ i hne
      obtain ⟨p, hp⟩ := List.exists_mem_of_ne_nil _ hne
      obtain ⟨hplace, hprio⟩ := (hloc.ready i p).mp hp
      have hlt : p < cfg.numProcesses := by
        refine Nat.lt_of_lt_of_le (Nat.lt_of_not_le fun hle => ?_) hi
        exact Place.noConfusion (hplace.symm.trans ((hloc.unloaded p).mpr hle))
      have hmax := hfits.prio_lt hlt
      rw [hprio] at hmax
      exact absurd (hall i hmax) hne
  | dispatch prio p sched _ _ =>
      exact .self hc rfl (attends_of_loc CpuLoc.noConfusion CpuLoc.noConfusion
        (Or.inr (Option.some_ne_none p)))
  | finish p _ _ _ =>
      exact .self hc rfl (attends_of_loc CpuLoc.noConfusion CpuLoc.noConfusion
        (Or.inl CpuLoc.noConfusion))
  | put p sched _ _ _ =>
      exact .self hc rfl (attends_of_loc CpuLoc.noConfusion CpuLoc.noConfusion
        (Or.inl CpuLoc.noConfusion))
  | stop hl hproc _ => exact h.rest (fun hatt => hatt.2 ⟨hl, hproc⟩) id rfl rfl
  | skip _ _ _ =>
      exact .self hc rfl (attends_of_loc CpuLoc.noConfusion CpuLoc.noConfusion
        (Or.inl CpuLoc.noConfusion))
  | keep p timeLeft loc hproc hl =>
      have hsome : (s.cpu c).proc ≠ none := by rw [hproc]; exact Option.some_ne_none p
      refine .self hc rfl ?_
      rcases hl with ⟨_, rfl⟩ | ⟨_, rfl⟩ | ⟨_, rfl, _⟩ <;>
        exact attends_of_loc CpuLoc.noConfusion CpuLoc.noConfusion (Or.inr hsome)
  | exec p _ _ _ =>
      exact .self hc rfl (attends_of_loc CpuLoc.noConfusion CpuLoc.noConfusion
        (Or.inl CpuLoc.noConfusion))
  | timer e timer loc hl hs =>
      rcases hl with ⟨_, _, rfl⟩ | ⟨_, _, rfl⟩ | ⟨hl, rfl, rfl⟩
      · exact .self hc rfl (attends_of_loc CpuLoc.noConfusion CpuLoc.noConfusion
          (Or.inl CpuLoc.noConfusion))
      · exact .self hc rfl (attends_of_loc CpuLoc.noConfusion CpuLoc.noConfusion
          (Or.inl CpuLoc.noConfusion))
      · obtain ⟨hticks, hdev⟩ := timerStep_device hs rfl
        have hcalls := congrArg TimerId.calls (hdev _ (Nat.ne_of_gt hc))
        exact h.rest (fun hatt => hatt.1 (Or.inl hl)) (Sealed.congr rfl hcalls hticks) rfl rfl

/-- Nobody is added once the slot of the last `add_proc` is over. -/
theorem Attended.loader (h : Attended cfg s) (hctl : Control cfg s) (hm : LdMove cfg s s') :
    Attended cfg s' := by
  have hmid : ∀ {P : Prop}, s.ld.loc.before = true → s.ld.i = cfg.numProcesses → P :=
    fun hb hi => absurd (hctl.before hb) (Nat.not_lt.mpr (Nat.le_of_eq hi.symm))
  cases hm with
  | next hloc hlt => exact fun hs => absurd hlt (Nat.not_lt.mpr (Nat.le_of_eq hs.1.symm))
  | last hloc _ =>
      exact fun hs => h ⟨hs.1, by rw [hloc]; exact LdLoc.noConfusion,
        by rw [hloc]; exact fun heq => LdLoc.noConfusion heq⟩
  | early hloc => exact fun hs => hmid (by rw [hloc]; rfl) hs.1
  | due hloc => exact fun hs => hmid (by rw [hloc]; rfl) hs.1
  | add sched _ _ => exact fun hs => absurd rfl hs.2.1
  | call added timer hloc hcall =>
      intro hs
      cases added with
      | false => exact hmid (by rw [hloc]; rfl) hs.1
      | true =>
          -- the loader has just called: the slot is not over
          obtain ⟨_, hw, hf, htimer⟩ := nextSlotCall_cases hcall
          have hdev := hctl.timer.dev cfg.numCpus (Nat.lt_succ_self _)
          have hslot := hdev.in_slot (hdev.not_done hw) hf
          have hle : (timer.dev cfg.numCpus).calls ≤ timer.ticks := hs.2.2 rfl
          rw [htimer, Timer.setDev_self] at hle
          have hle' : (s.timer.dev cfg.numCpus).calls + 1 ≤ s.timer.ticks := hle
          rw [hslot] at hle'
          exact absurd hle' (Nat.not_succ_le_self _)
  | ret added timer hloc hret =>
      intro hs
      cases added with
      | false => exact hmid (by rw [hloc]; rfl) hs.1
      | true =>
          obtain ⟨_, hw, hdone, _⟩ := nextSlotRet_cases hret
          have hdev := hctl.timer.dev cfg.numCpus (Nat.lt_succ_self _)
          have hslot := hdev.in_slot hdone (hdev.not_gone hw)
          exact h ⟨hs.1, by rw [hloc]; exact LdLoc.noConfusion, fun _ => Nat.le_of_eq hslot⟩
  | done hloc =>
      exact fun hs => h ⟨hs.1, by rw [hloc]; exact LdLoc.noConfusion,
        by rw [hloc]; exact fun heq => LdLoc.noConfusion heq⟩
  | detach timer hloc _ =>
      exact fun hs => h ⟨hs.1, by rw [hloc]; exact LdLoc.noConfusion,
        by rw [hloc]; exact fun heq => LdLoc.noConfusion heq⟩

/-- At the tick that ends that slot every CPU waits in `next_slot`. -/
theorem Attended.tick {timer : Timer} (h : Attended cfg s) (hctl : Control cfg s)
    (hcpus : 1 ≤ cfg.numCpus) (hs : timerRoutine s.timer = some timer) :
    Attended cfg { s with timer } := by
  intro hseal i hi
  by_cases hbefore : s.Sealed cfg
  · exact h hbefore i hi
  · obtain ⟨hnum, hslot, hwait⟩ := hseal
    have hcalls := (timerRoutine_dev hs cfg.numCpus).2.2
    -- the loader waits in its last `next_slot`
    have hloc : s.ld.loc = .wait true := by
      by_contra hne
      exact hbefore ⟨hnum, hslot, fun heq => absurd heq hne⟩
    have hle : (s.timer.dev cfg.numCpus).calls ≤ timer.ticks := by
      rw [← hcalls]
      exact hwait hloc
    rcases hctl.timer.time_step (e := .tick) hs with ⟨_, hticks⟩ | ⟨_, _, hall⟩
    · rw [hticks] at hle
      exact absurd ⟨hnum, hslot, fun _ => hle⟩ hbefore
    · have hdone := hctl.not_done (by rw [hloc]; exact LdLoc.noConfusion)
        (by rw [hloc]; exact LdLoc.noConfusion)
      refine ⟨0, hcpus, ?_⟩
      rcases hall 0 (Nat.succ_pos _) with hgone | ⟨hlen, hcall⟩
      · have hstop := hctl.stopped 0 (Or.inr (hctl.gone 0 hcpus hgone))
        exact absurd (hdone.symm.trans hstop.2) Bool.false_ne_true
      · have hdev := hctl.timer.dev 0 (Nat.succ_pos _)
        have hflag : (s.timer.dev 0).done = true := by
          cases hd : (s.timer.dev 0).done with
          | true => rfl
          | false =>
              have heq := hdev.calls
              rw [hd, hlen, hcall] at heq
              exact absurd heq (Nat.succ_ne_self _)
        have hl := hctl.waits 0 hcpus (hdev.flag hflag)
        refine attends_of_loc ?_ ?_ (Or.inl ?_) <;>
        · show (s.cpu 0).loc ≠ _
          rw [hl]
          exact CpuLoc.noConfusion

end Attended

/-! ## In every run -/

/-- What holds in every reachable state. -/
structure OsOk (cfg : OsCfg) (s : Os) : Prop where
  control : Control cfg s
  located : ∃ place, Located cfg s place
  progress : Progress cfg s
  attended : Attended cfg s

section Runs
variable {cfg : OsCfg} {s s' : Os} {e : OsEvent}

theorem OsOk.step (h : OsOk cfg s) (hcpus : 1 ≤ cfg.numCpus) (hfits : cfg.Fits)
    (hs : osStep cfg s e = some s') : OsOk cfg s' := by
  obtain ⟨hctl, ⟨place, hloc⟩, hprog, hatt⟩ := h
  cases e with
  | cpu c =>
      rw [osStep] at hs
      split at hs
      next hc =>
        have hm := cpuRoutine_move hs
        exact ⟨hctl.cpu hc hm, hloc.cpu hfits hctl.i_le hm, hprog.cpu hm,
          hatt.cpu hloc hfits hctl.i_le hc hm⟩
      next => exact nomatch hs
  | loader =>
      have hm := ldRoutine_move hs
      have hadd : s.ld.loc = .add → s.ld.i < cfg.numProcesses := fun hl =>
        hctl.before (by rw [hl]; rfl)
      exact ⟨hctl.loader hm, hloc.loader hfits hctl.i_le hadd hm, hprog.loader hm,
        hatt.loader hctl hm⟩
  | timer =>
      obtain ⟨timer, ht, rfl⟩ := Option.map_eq_some_iff.mp hs
      exact ⟨hctl.tick ht, ⟨place, hloc.same (fun _ => rfl) (fun _ _ => Iff.rfl) rfl rfl rfl⟩,
        hprog.same rfl rfl rfl, hatt.tick hctl hcpus ht⟩
  | stop =>
      rw [osStep] at hs
      split at hs
      next =>
        obtain rfl := Option.some.inj hs
        refine ⟨?_, ⟨place, hloc.same (fun _ => rfl) (fun _ _ => Iff.rfl) rfl rfl rfl⟩,
          hprog.same rfl rfl rfl, hatt⟩
        exact hctl.others (hctl.timer.step (e := .stop) rfl) (fun _ _ => ⟨rfl, rfl⟩) rfl id
          hctl.ldGone hctl.done hctl.i_le hctl.before hctl.after
      next => exact nomatch hs

theorem osOk_of_reaches {es : List OsEvent} (hcpus : 1 ≤ cfg.numCpus) (hfits : cfg.Fits)
    (h : Lts.Reaches (osStep cfg) cfg.start es s) : OsOk cfg s :=
  h.invariant (P := OsOk cfg)
    ⟨control_start cfg, ⟨_, located_start cfg⟩, progress_start cfg, attended_start hcpus⟩
    fun _ _ _ hok _ hs => hok.step hcpus hfits hs

/-- Once all CPUs have stopped, every process is finished. -/
theorem OsOk.all_finished (h : OsOk cfg s) (hcpus : 1 ≤ cfg.numCpus)
    (hstop : ∀ c < cfg.numCpus, (s.cpu c).Stopped) :
    s.ld.i = cfg.numProcesses ∧ ∀ p < cfg.numProcesses, p ∈ s.finished := by
  obtain ⟨place, hloc⟩ := h.located
  have hdone := (h.control.stopped 0 (hstop 0 hcpus)).2
  have hend := h.control.done hdone
  have hi : s.ld.i = cfg.numProcesses := by
    rcases hend with hl | hl <;> exact h.control.after (by rw [hl]; rfl)
  have hsealed : s.Sealed cfg := by
    rcases hend with hl | hl <;>
      exact ⟨hi, by rw [hl]; exact LdLoc.noConfusion,
        by rw [hl]; exact fun heq => LdLoc.noConfusion heq⟩
  refine ⟨hi, fun p hp => (hloc.finished p).mpr ?_⟩
  cases hplace : place p with
  | unloaded =>
      have hle := (hloc.unloaded p).mp hplace
      rw [hi] at hle
      exact absurd hp (Nat.not_lt.mpr hle)
  | ready =>
      have hmem := (hloc.ready (cfg.proc p).prio p).mpr ⟨hplace, rfl⟩
      obtain ⟨c, hc, hatt⟩ := h.attended hsealed _ (List.ne_nil_of_mem hmem)
      exact absurd (hstop c hc) hatt.1
  | hand c =>
      have hheld := ((hloc.held c p).mpr hplace).1
      have hnone : (s.cpu c).proc = none := by
        rcases Nat.lt_or_ge c cfg.numCpus with hc | hc
        · exact (h.control.stopped c (hstop c hc)).1
        · exact h.control.beyond c hc
      rw [hnone] at hheld
      exact nomatch hheld
  | finished => rfl

/-- An instruction is executed by the CPU that holds the process, and no other holds it. -/
theorem OsOk.exclusive (h : OsOk cfg s) (hs : osStep cfg s e = some s') {c k : Nat} {p : Pid}
    (hlog : s'.log = s.log ++ [(c, p, k)]) : s.Holds c p ∧ ∀ i, i ≠ c → ¬ s.Holds i p := by
  obtain ⟨place, hloc⟩ := h.located
  have hno : ∀ {P : Prop}, s.log = s.log ++ [(c, p, k)] → P := fun heq =>
    absurd (List.self_eq_append_right.mp heq) (List.cons_ne_nil _ _)
  have hheld : s.Holds c p := by
    cases e with
    | cpu i =>
        rw [osStep] at hs
        split at hs
        next =>
          cases cpuRoutine_move hs with
          | exec q hl hproc _ =>
              have heq : [(i, q, s.pc q)] = [(c, p, k)] := List.append_cancel_left hlog
              obtain ⟨rfl, hq⟩ := Prod.mk.inj (List.cons.inj heq).1
              obtain ⟨rfl, _⟩ := Prod.mk.inj hq
              exact ⟨hproc, by rw [hl]; exact CpuLoc.noConfusion⟩
          | idle _ _ => exact hno hlog
          | dispatch _ _ _ _ _ => exact hno hlog
          | finish _ _ _ _ => exact hno hlog
          | put _ _ _ _ _ => exact hno hlog
          | stop _ _ _ => exact hno hlog
          | skip _ _ _ => exact hno hlog
          | keep _ _ _ _ _ => exact hno hlog
          | timer _ _ _ _ _ => exact hno hlog
        next => exact nomatch hs
    | loader => cases ldRoutine_move hs <;> exact hno hlog
    | timer =>
        obtain ⟨timer, _, rfl⟩ := Option.map_eq_some_iff.mp hs
        exact hno hlog
    | stop =>
        rw [osStep] at hs
        split at hs
        next =>
          obtain rfl := Option.some.inj hs
          exact hno hlog
        next => exact nomatch hs
  refine ⟨hheld, fun i hne hi => ?_⟩
  have heq : Place.hand c = Place.hand i :=
    ((hloc.held c p).mp hheld).symm.trans ((hloc.held i p).mp hi)
  exact hne (Place.hand.inj heq).symm

end Runs

/-- With at least one CPU and room in the queues: in every reachable state in which all CPUs have
stopped, every process was loaded, executed each of its instructions once and in order, and was
reported finished once; and in every run an instruction of a process is executed by the one CPU
that holds the process. -/
theorem runs_to_completion (cfg : OsCfg) (hcpus : 1 ≤ cfg.numCpus) (hfits : cfg.Fits)
    (es : List OsEvent) (s : Os) (h : Lts.Reaches (osStep cfg) cfg.start es s) :
    ((∀ c < cfg.numCpus, (s.cpu c).Stopped) →
      s.loaded = List.range cfg.numProcesses ∧
      ∀ p < cfg.numProcesses, s.executed p = List.range (cfg.proc p).size ∧
        s.finished.count p = 1) ∧
    (∀ e s' c p k, osStep cfg s e = some s' → s'.log = s.log ++ [(c, p, k)] →
      s.Holds c p ∧ ∀ i, i ≠ c → ¬ s.Holds i p) := by
  have hok := osOk_of_reaches hcpus hfits h
  refine ⟨fun hstop => ?_, fun e s' c p k hs hlog => hok.exclusive hs hlog⟩
  obtain ⟨hi, hall⟩ := hok.all_finished hcpus hstop
  obtain ⟨place, hloc⟩ := hok.located
  refine ⟨by rw [hloc.loaded, hi], fun p hp => ⟨?_, ?_⟩⟩
  · rw [hok.progress.executed, hok.progress.finished p (hall p hp)]
  · exact List.count_eq_one_of_mem hloc.finished_nodup (hall p hp)

/-- Two CPUs, and two processes on one priority.  The first needs two time slices. -/
def twoProcesses : OsCfg :=
  { numCpus := 2, timeSlot := 1, ldProcesses :=
      [{ startTime := 0, prio := 0, size := 2 }, { startTime := 0, prio := 0, size := 1 }] }

theorem twoProcesses_fits : twoProcesses.Fits :=
  ⟨by decide, fun _ => (List.length_filter_le _ _).trans (by decide)⟩

/-- A turn of the timer, with three devices. -/
def timerTurn : List OsEvent := List.replicate 9 .timer

/-- The first process runs on CPU 0; there it is preempted, the second takes its place, and it
goes on on CPU 1; in the third slot both are done. -/
def twoProcessesRun : List OsEvent :=
  List.replicate 4 .loader ++ List.replicate 4 (.cpu 0) ++ List.replicate 3 (.cpu 1) ++ timerTurn ++
  List.replicate 5 .loader ++ List.replicate 6 (.cpu 0) ++ List.replicate 5 (.cpu 1) ++ timerTurn ++
  List.replicate 4 .loader ++ List.replicate 5 (.cpu 0) ++ List.replicate 5 (.cpu 1)

theorem runs_to_completion_two : ∃ s,
    Lts.Reaches (osStep twoProcesses) twoProcesses.start twoProcessesRun s ∧
    s.log = [(0, 0, 0), (0, 1, 0), (1, 0, 1)] ∧ (∀ c < 2, (s.cpu c).Stopped) ∧
    (s.executed 0 = [0, 1] ∧ s.finished.count 0 = 1) ∧
    s.executed 1 = [0] ∧ s.finished.count 1 = 1 := by
  obtain ⟨s, hs⟩ := Option.isSome_iff_exists.mp
    (by decide +kernel :
      (Lts.exec (osStep twoProcesses) twoProcesses.start twoProcessesRun).isSome)
  have hlog : s.log = [(0, 0, 0), (0, 1, 0), (1, 0, 1)] :=
    Lts.exec_map (g := Os.log) hs (by decide +kernel)
  have hzero : (s.cpu 0).loc = .exited :=
    Lts.exec_map (g := fun s => (s.cpu 0).loc) hs (by decide +kernel)
  have hone : (s.cpu 1).loc = .exited :=
    Lts.exec_map (g := fun s => (s.cpu 1).loc) hs (by decide +kernel)
  have hstop : ∀ c < 2, (s.cpu c).Stopped := by
    intro c hc
    obtain rfl | rfl : c = 0 ∨ c = 1 := by omega
    · exact Or.inr hzero
    · exact Or.inr hone
  have hreach := Lts.reaches_of_exec hs
  have hall :=
    ((runs_to_completion twoProcesses (by decide) twoProcesses_fits _ s hreach).1 hstop).2
  exact ⟨s, hreach, hlog, hstop, hall 0 (by decide), hall 1 (by decide)⟩

end SimpleOs
