/-
# `SimpleOs.RunningList` — when `running_list` is the processes on the CPUs

`get_proc` adds a process to `running_list`, `remove_proc` takes it off, and
`put_proc` does neither.  So the list is exact until the first preemption, or
until `get_proc` finds the list full and `enqueue` drops the entry;
`ListOk` excludes these two, and no other step makes the list inexact.

The memory system call looks its caller up in this list.
-/
import SimpleOs.Places

namespace SimpleOs

/-- `running_list`, as a list. -/
def Sys.running (s : Sys) : List Pid := s.krnl.sched.runningList.toList

/-- `running_list` holds the processes on the CPUs, each once, and no other. -/
structure RunningExact (s : Sys) : Prop where
  once : ∀ c p, s.Held c p → s.running.count p = 1
  only : ∀ p ∈ s.running, ∃ c, s.Held c p

/-- The step is no preemption, and no dispatch that finds the list full. -/
def ListOk (s : Sys) : Event → Prop
  | .put _ => False
  | .get _ => (getProc s.krnl.sched).2 = none ∨ s.running.length < maxQueueSize
  | _ => True

instance (s : Sys) : ∀ e, Decidable (ListOk s e)
  | .put _ => isFalse id
  | .get _ => inferInstanceAs (Decidable (_ ∨ _))
  | .create .. | .add | .finish _ | .restore _ | .run .. => isTrue trivial

theorem boot_runningExact (memramsz memswpsz : Addr) (ramJunk swpJunk : Bool) :
    RunningExact (boot memramsz memswpsz ramJunk swpJunk) where
  once := fun _ _ h => nomatch h
  only := fun _ h => nomatch h

/-- Steps that change neither the list nor who is held. -/
theorem RunningExact.congr {s s' : Sys} (h : RunningExact s) (hr : s'.running = s.running)
    (hh : ∀ c p, s'.Held c p ↔ s.Held c p) : RunningExact s' where
  once := fun c p hc => by rw [hr]; exact h.once c p ((hh c p).mp hc)
  only := by
    intro p hp
    rw [hr] at hp
    obtain ⟨c, hc⟩ := h.only p hp
    exact ⟨c, (hh c p).mpr hc⟩

/-- The list after `get_proc` returned `p`. -/
theorem getProc_running {sched : Sched} {p : Pid} (h : (getProc sched).2 = some p) :
    (∃ i, p ∈ (sched.mlqReadyQueue i).toList) ∧
    (getProc sched).1.runningList.toList =
      if sched.runningList.toList.length < maxQueueSize then sched.runningList.toList ++ [p]
      else sched.runningList.toList := by
  rcases getProc_cases sched with ⟨hnone, _⟩ | ⟨prio, q, rest, _, hl, hres, _, _, hrun⟩
  · rw [hnone] at h
    exact nomatch h
  · rw [hres] at h
    cases h
    exact ⟨⟨prio, by rw [hl]; exact List.mem_cons_self⟩, by rw [hrun, QueueT.toList_enqueue]⟩

/-- When `get_proc` returns nobody it changes nothing. -/
theorem getProc_none {sched : Sched} (h : (getProc sched).2 = none) :
    (getProc sched).1 = sched := by
  rcases getProc_cases sched with ⟨hnone, _⟩ | ⟨_, _, _, _, _, hres, _⟩
  · rw [hnone]
  · rw [hres] at h
    exact nomatch h

section Step
variable {s s' : Sys}

/-- A process in a ready queue is not in the list. -/
theorem RunningExact.not_running (h : RunningExact s) (hpl : Placed s) {p : Pid} {i : Nat}
    (hp : p ∈ s.ready i) : p ∉ s.running := by
  intro hmem
  obtain ⟨c, hc⟩ := h.only p hmem
  exact hpl.apart c p hc i hp

theorem RunningExact.get {c : Nat} (h : RunningExact s) (hpl : Placed s)
    (hs : step s (.get c) = some s') : RunningExact s' ↔ ListOk s (.get c) := by
  obtain ⟨hidle, ⟨hnone, rfl⟩ | ⟨p, hp, rfl⟩⟩ := step_get hs
  · have hsched := getProc_none hnone
    refine ⟨fun _ => Or.inl hnone, fun _ => h.congr ?_ (fun _ _ => Iff.rfl)⟩
    show (getProc s.krnl.sched).1.runningList.toList = _
    rw [hsched]
    rfl
  · obtain ⟨⟨i, hi⟩, hlist⟩ := getProc_running hp
    have hout : p ∉ s.running := h.not_running hpl hi
    have hnew : ((s.setSched (getProc s.krnl.sched).1).setCpu c (.holding p)).Held c p :=
      held_setCpu.mpr (Or.inl ⟨rfl, rfl⟩)
    by_cases hroom : s.running.length < maxQueueSize
    · refine ⟨fun _ => Or.inr hroom, fun _ => ?_⟩
      have hrun : ((s.setSched (getProc s.krnl.sched).1).setCpu c (.holding p)).running =
          s.running ++ [p] := hlist.trans (if_pos hroom)
      constructor
      · intro c' q hq
        rw [hrun, List.count_append]
        rcases held_setCpu.mp hq with ⟨_, hq'⟩ | ⟨_, hq'⟩
        · cases hq'
          rw [List.count_eq_zero.mpr hout, List.count_singleton_self]
        · have hqp : q ≠ p := fun hqp => hpl.apart c' q hq' i (hqp ▸ hi)
          rw [h.once c' q hq', List.count_eq_zero.mpr (by simpa using hqp)]
      · intro q hq
        rw [hrun] at hq
        rcases List.mem_append.mp hq with hq | hq
        · obtain ⟨c', hc'⟩ := h.only q hq
          refine ⟨c', held_setCpu.mpr (Or.inr ⟨?_, hc'⟩)⟩
          rintro rfl
          rw [Sys.Held, hidle] at hc'
          cases hc'
        · rw [List.mem_singleton.mp hq]
          exact ⟨c, hnew⟩
    · -- the entry is dropped: the process is held and not listed
      refine ⟨fun h' => ?_, fun hok => ?_⟩
      · have hone := h'.once c p hnew
        have hrun : ((s.setSched (getProc s.krnl.sched).1).setCpu c (.holding p)).running =
            s.running := hlist.trans (if_neg hroom)
        rw [hrun, List.count_eq_zero.mpr hout] at hone
        cases hone
      · rcases hok with hnone | hlt
        · rw [hp] at hnone
          cases hnone
        · exact absurd hlt hroom

theorem RunningExact.put {c : Nat} (h : RunningExact s) (hpl : Placed s)
    (hs : step s (.put c) = some s') : ¬ RunningExact s' := by
  obtain ⟨p, sched, hc, hput, rfl⟩ := step_put hs
  have hp : s.Held c p := by rw [Sys.Held, hc]; rfl
  intro h'
  -- the process stays listed, and nobody holds it any more
  have hmem : p ∈ s.running := List.count_pos_iff.mp (by rw [h.once c p hp]; exact Nat.one_pos)
  have hrun : ((s.setSched sched).setCpu c .idle).running = s.running :=
    congrArg QueueT.toList (enqueueMlq_ok hput).2.1
  obtain ⟨c', hc'⟩ := h'.only p (by rw [hrun]; exact hmem)
  rcases held_setCpu.mp hc' with ⟨_, hq⟩ | ⟨hne, hq⟩
  · cases hq
  · exact hne (hpl.hand c' c p hq hp)

theorem RunningExact.finish {c : Nat} (h : RunningExact s) (hpl : Placed s)
    (hs : step s (.finish c) = some s') : RunningExact s' := by
  obtain ⟨p, hc, rfl⟩ := step_finish hs
  have hp : s.Held c p := by rw [Sys.Held, hc]; rfl
  have hrun : s.krnl.sched.runningList.toList.erase p = s.running.erase p := rfl
  have hother : ∀ {c' q}, c' ≠ c → s.Held c' q → q ≠ p :=
    fun hne hq hqp => hne (hpl.hand _ c p (hqp ▸ hq) hp)
  constructor
  · intro c' q hq
    rcases held_setCpu.mp hq with ⟨_, hq⟩ | ⟨hne, hq⟩
    · cases hq
    · show (removeProc s.krnl.sched p).runningList.toList.count q = 1
      rw [removeProc_runningList, hrun, List.count_erase_of_ne (hother hne hq)]
      exact h.once c' q hq
  · intro q hq
    have hq' : q ∈ s.running.erase p := by rwa [← hrun, ← removeProc_runningList]
    have hqp : q ≠ p := by
      rintro rfl
      have hzero : (s.running.erase q).count q = 0 := by
        rw [List.count_erase_self, h.once c q hp]
      exact List.count_eq_zero.mp hzero hq'
    obtain ⟨c', hc'⟩ := h.only q (List.mem_of_mem_erase hq')
    refine ⟨c', held_setCpu.mpr (Or.inr ⟨?_, hc'⟩)⟩
    rintro rfl
    exact hqp (Option.some.inj (hc'.symm.trans hp))

/-- A step from an exact list leaves an exact list iff it is one of those permitted. -/
theorem RunningExact.step {e : Event} (h : RunningExact s) (hpl : Placed s) (hw : s.Wf)
    (hs : SimpleOs.step s e = some s') : RunningExact s' ↔ ListOk s e := by
  cases e with
  | create p prio symrgtbl =>
      obtain ⟨_, _, rfl⟩ := step_create hs
      exact ⟨fun _ => trivial, fun _ => h.congr rfl (fun _ _ => Iff.rfl)⟩
  | add =>
      obtain ⟨p, sched, _, hadd, rfl⟩ := step_add hs
      exact ⟨fun _ => trivial, fun _ =>
        h.congr (congrArg QueueT.toList (enqueueMlq_ok hadd).2.1) (fun _ _ => Iff.rfl)⟩
  | get c => exact h.get hpl hs
  | put c => exact ⟨h.put hpl hs, fun hok => nomatch hok⟩
  | finish c => exact ⟨fun _ => trivial, fun _ => h.finish hpl hs⟩
  | restore c =>
      obtain ⟨p, hc, rfl⟩ := step_restore hs
      exact ⟨fun _ => trivial, fun _ =>
        h.congr rfl (held_setCpu_same (.restored p) (by rw [hc]; rfl))⟩
  | run c ins junk =>
      obtain ⟨p, k', st, hc, hexec, rfl⟩ := step_run hs
      obtain ⟨mm, hmm⟩ := Option.isSome_iff_exists.mp (hw.held c p (by rw [hc]; rfl))
      obtain ⟨hsched, _⟩ := exec_sched hw.krnl hmm hexec
      refine ⟨fun _ => trivial, fun _ =>
        h.congr ?_ (held_setCpu_same (.holding p) (by rw [hc]; rfl))⟩
      show k'.sched.runningList.toList = _
      rw [hsched]
      rfl

end Step

/-! ## In every run -/

theorem reach_runningExact {memramsz memswpsz : Addr} {ramJunk swpJunk : Bool} {es : List Event}
    {s : Sys} (h : Lts.Run step ListOk (boot memramsz memswpsz ramJunk swpJunk) es s) :
    RunningExact s := by
  have hall := h.invariant (P := fun s => (s.Wf ∧ Placed s) ∧ RunningExact s)
    ⟨⟨boot_wf _ _ _ _, boot_placed _ _ _ _⟩, boot_runningExact _ _ _ _⟩
    (fun _ _ _ hw hok hs => ⟨⟨hw.1.1.step hs, hw.1.2.step hw.1.1 hs⟩,
      (hw.2.step hw.1.2 hw.1.1 hs).mpr hok⟩)
  exact hall.2

/-- In a run of permitted steps the list is exact and the lookup finds every process on a CPU; the
first step that is not permitted ends this. -/
theorem running_list_exact (memramsz memswpsz : Addr) (ramJunk swpJunk : Bool) :
    ∀ es s, Lts.Run step ListOk (boot memramsz memswpsz ramJunk swpJunk) es s →
      RunningExact s ∧ (∀ c p, s.Held c p → findCaller s.krnl p = some p) ∧
      ∀ e s', step s e = some s' → (RunningExact s' ↔ ListOk s e) := by
  intro es s h
  have hexact := reach_runningExact h
  refine ⟨hexact, fun c p hp => ?_, fun e s' hs => hexact.step (reach_placed h) (reach_wf h) hs⟩
  have hmem : p ∈ s.krnl.sched.runningList.toList :=
    List.count_pos_iff.mp (by rw [← Sys.running, hexact.once c p hp]; exact Nat.one_pos)
  rw [findCaller_eq, if_pos hmem]

/-- Each of two CPUs runs a process, and the first finishes its own. -/
def twoLoaded : List Event :=
  loadOn 0 1 ++ loadOn 1 2 ++
    [.run 0 ⟨.calc, 0, 0, 0, 0⟩ 0, .run 1 ⟨.calc, 0, 0, 0, 0⟩ 0, .finish 0]

/-- The list is exact, and a preemption of the other ends this. -/
theorem running_list_exact_two : ∃ s,
    Lts.Reaches step (boot 512 512 true true) twoLoaded s ∧
    s.running = [2] ∧ RunningExact s ∧ findCaller s.krnl 2 = some 2 ∧
    ∃ s', step s (.put 1) = some s' ∧ ¬ RunningExact s' := by
  obtain ⟨s, hs⟩ := Option.isSome_iff_exists.mp
    (by decide +kernel : (Lts.check step ListOk (boot 512 512 true true) twoLoaded).isSome)
  have hrun := Lts.run_of_check hs
  have hlist : s.running = [2] := Lts.check_map (g := Sys.running) hs (by decide +kernel)
  have hcpu : (s.cpu 1).proc = some 2 :=
    Lts.check_map (g := fun s => (s.cpu 1).proc) hs (by decide +kernel)
  obtain ⟨s', hput⟩ := Option.isSome_iff_exists.mp
    (Lts.check_map (g := fun s => (step s (.put 1)).isSome) hs (by decide +kernel))
  obtain ⟨hexact, hfind, hiff⟩ := running_list_exact 512 512 true true _ s hrun
  exact ⟨s, hrun.reaches, hlist, hexact, hfind 1 2 hcpu, s', hput,
    fun h => (hiff _ s' hput).mp h⟩

/-- A process is preempted and dispatched again: it is listed twice. -/
theorem preempted_listed_twice : ∃ s,
    Lts.Reaches step (boot 512 512 true true) (loadOn 0 1 ++
      [.run 0 ⟨.calc, 0, 0, 0, 0⟩ 0, .put 0, .get 0]) s ∧ s.running = [1, 1] ∧
    ¬ RunningExact s := by
  obtain ⟨s, hs⟩ := Option.isSome_iff_exists.mp
    (by decide +kernel : (Lts.exec step (boot 512 512 true true) (loadOn 0 1 ++
      [.run 0 ⟨.calc, 0, 0, 0, 0⟩ 0, .put 0, .get 0])).isSome)
  have hrun : s.running = [1, 1] := Lts.exec_map (g := fun s => s.running) hs (by decide +kernel)
  have hcpu : s.cpu 0 = .holding 1 := Lts.exec_map (g := fun s => s.cpu 0) hs (by decide +kernel)
  refine ⟨s, Lts.reaches_of_exec hs, hrun, fun h => ?_⟩
  have hone := h.once 0 1 (by rw [Sys.Held, hcpu]; rfl)
  rw [hrun] at hone
  exact absurd hone (by decide)

end SimpleOs
