/-
# `SimpleOs.Whole` — the threads, their programs and the memory together

`Os` has the threads without what the instructions do, and `Machine` has the
instructions without the threads: programs, `pc`, `time_left` and the timer.
`Whole` runs both.  A step of a thread that calls the scheduler or `run` is a
step of the machine too; `create` and `restore`, which touch only memory, are
steps of the loader and of a CPU at the place where the code makes them.

`whole_refines`: a run of the whole is a run of `Os` and one of `Machine`, which
agree on the scheduler and on what every CPU holds, and the machine runs the
instructions of the programs that the threads' log names, in that order.
`whole_covers`: every run of `Os` is that of a whole, up to an instruction whose
behaviour is undefined.
-/
import SimpleOs.Places
import SimpleOs.Termination

namespace SimpleOs

/-! ## The model -/

/-- The process that a CPU holds: after `remove_proc` and `put_proc`, `proc` is stale. -/
def CpuThread.hand (t : CpuThread) : Option Pid := if t.loc = .get then none else t.proc

/-- The threads and the machine; `log` is the run of the machine so far. -/
structure Whole where
  os : Os
  sys : Sys
  log : List Event

def Whole.start (cfg : OsCfg) (sys : Sys) : Whole where
  os := cfg.start
  sys := sys
  log := []

/-- `code->text[pc]` of process `p`.  At the end of the program `run` returns at once: that is
what `CALC` does. -/
def Os.fetch (cfg : OsCfg) (text : Pid → Nat → Inst) (s : Os) (p : Pid) : Inst :=
  if s.pc p < (cfg.proc p).size then text p (s.pc p) else ⟨.calc, 0, 0, 0, 0⟩

/-- What CPU `c` does to the machine in its next step. -/
def Os.cpuCall (cfg : OsCfg) (text : Pid → Nat → Inst) (junk : Byte) (s : Os) (c : Nat) :
    Option Event :=
  let t := s.cpu c
  match t.loc with
  | .top =>
      match t.proc with
      | none => some (.get c)
      | some p =>
          if s.pc p = (cfg.proc p).size then some (.finish c)
          else if t.timeLeft = 0 then some (.put c)
          else none
  | .get => some (.get c)
  | .run => t.proc.map fun p => .run c (s.fetch cfg text p) junk
  | .recheck => none
  | .slot => none
  | .wait => none
  | .detach => none
  | .exited => none

/-- What a thread does to the machine in its next step. -/
def Os.call (cfg : OsCfg) (text : Pid → Nat → Inst) (junk : Byte) (s : Os) :
    OsEvent → Option Event
  | .cpu c => s.cpuCall cfg text junk c
  | .loader => if s.ld.loc = .add then some .add else none
  | .timer => none
  | .stop => none

inductive WholeEvent
  /-- A step of `Os`; `junk` is what an instruction reads from a byte that nothing wrote. -/
  | thread (e : OsEvent) (junk : Byte)
  /-- The loader, before `add_proc`: `malloc` and `init_mm`. -/
  | create (symrgtbl : Nat → VmRg)
  /-- A CPU, before `run`: `krnl->mm = proc->own_mm`. -/
  | restore (c : Nat)

/-- The threads are at `os`, and the machine takes event `e`, if there is one. -/
def Whole.advance (w : Whole) (os : Os) : Option Event → Option Whole
  | none => some { w with os }
  | some e => (step w.sys e).map fun sys => ⟨os, sys, w.log ++ [e]⟩

def wholeStep (cfg : OsCfg) (text : Pid → Nat → Inst) (w : Whole) : WholeEvent → Option Whole
  | .thread e junk =>
      (osStep cfg w.os e).bind fun os => w.advance os (w.os.call cfg text junk e)
  | .create symrgtbl =>
      let p := w.os.ld.i
      if w.os.ld.loc = .add then
        w.advance w.os (some (.create p (cfg.proc p).prio symrgtbl))
      else none
  | .restore c =>
      if (w.os.cpu c).loc = .run then w.advance w.os (some (.restore c)) else none

def WholeEvent.thread? : WholeEvent → Option OsEvent
  | .thread e _ => some e
  | .create _ => none
  | .restore _ => none

/-- The steps of `Os` in a run. -/
def threads (es : List WholeEvent) : List OsEvent := es.filterMap WholeEvent.thread?

theorem threads_append (es es' : List WholeEvent) :
    threads (es ++ es') = threads es ++ threads es' :=
  List.filterMap_append

theorem threads_thread (es : List WholeEvent) (e : OsEvent) (junk : Byte) :
    threads (es ++ [.thread e junk]) = threads es ++ [e] := threads_append es _

/-- A step that touches only memory. -/
theorem threads_memory (es : List WholeEvent) {e : WholeEvent} (h : e.thread? = none) :
    threads (es ++ [e]) = threads es := by
  rw [threads_append, threads, threads, List.filterMap_cons_none h]
  exact List.append_nil _

/-- The instructions that the machine ran, beside the threads' log: those of the programs, in the
order of the log.  At the end of a program none is left to run. -/
inductive Ran (text : Pid → Nat → Inst) : List Event → List (Nat × Pid × Nat) → Prop
  | nil : Ran text [] []
  | exec {log : List Event} {done : List (Nat × Pid × Nat)} (c : Nat) (p : Pid) (k : Nat)
      (junk : Byte) :
      Ran text log done → Ran text (log ++ [.run c (text p k) junk]) (done ++ [(c, p, k)])
  | ended {log : List Event} {done : List (Nat × Pid × Nat)} (c : Nat) (junk : Byte) :
      Ran text log done → Ran text (log ++ [.run c ⟨.calc, 0, 0, 0, 0⟩ junk]) done
  | other {log : List Event} {done : List (Nat × Pid × Nat)} (e : Event) :
      (∀ c ins junk, e ≠ .run c ins junk) → Ran text log done → Ran text (log ++ [e]) done

/-! ## What a step of a CPU calls -/

section Calls
variable {cfg : OsCfg} {text : Pid → Nat → Inst} {junk : Byte} {s s' : Os} {c : Nat}

/-- The steps of CPU `c`, with what each does to the machine. -/
inductive CpuCall (cfg : OsCfg) (text : Pid → Nat → Inst) (junk : Byte) (s : Os) (c : Nat) :
    Option Event → Os → Prop
  | get : (s.cpu c).hand = none → CpuCall cfg text junk s c (some (.get c)) (cpuGet s c)
  | finish (p : Pid) :
      (s.cpu c).loc = .top → (s.cpu c).hand = some p →
      CpuCall cfg text junk s c (some (.finish c))
        ({ s with sched := removeProc s.sched p, finished := s.finished ++ [p] }.setCpu c
          { s.cpu c with timeLeft := 0, loc := .get })
  | put (p : Pid) (sched : Sched) :
      (s.cpu c).loc = .top → (s.cpu c).hand = some p →
      putProc s.sched p (cfg.proc p).prio = .ok sched →
      CpuCall cfg text junk s c (some (.put c))
        ({ s with sched }.setCpu c { s.cpu c with loc := .get })
  | run (p : Pid) :
      (s.cpu c).loc = .run → (s.cpu c).hand = some p →
      CpuCall cfg text junk s c (some (.run c (s.fetch cfg text p) junk))
        ((s.run cfg c p).setCpu c
          { s.cpu c with timeLeft := (s.cpu c).timeLeft - 1, loc := .slot })
  | quiet (timer : Timer) (t : CpuThread) :
      (s.cpu c).loc ≠ .run → t.hand = (s.cpu c).hand →
      CpuCall cfg text junk s c none ({ s with timer }.setCpu c t)

theorem hand_get {t : CpuThread} (h : t.loc = .get) : t.hand = none := if_pos h

theorem hand_of_loc {t : CpuThread} (h : t.loc ≠ .get) : t.hand = t.proc := if_neg h

/-- A CPU that goes on with what it holds. -/
theorem hand_congr {t t' : CpuThread} (hproc : t'.proc = t.proc) (hloc' : t'.loc ≠ .get)
    (hloc : t.loc ≠ .get) : t'.hand = t.hand := by
  rw [hand_of_loc hloc', hand_of_loc hloc, hproc]

theorem cpuTop_call (hloc : (s.cpu c).loc = .top) (h : cpuTop cfg s c = some s') :
    CpuCall cfg text junk s c (s.cpuCall cfg text junk c) s' := by
  have hhand := hand_of_loc (t := s.cpu c) (by rw [hloc]; exact CpuLoc.noConfusion)
  rw [cpuTop] at h
  rw [Os.cpuCall, hloc]
  split at h
  next hproc =>
    obtain rfl := Option.some.inj h
    rw [hproc]
    exact .get (hhand.trans hproc)
  next p hproc =>
    rw [hproc]
    split at h
    next hend =>
      obtain rfl := Option.some.inj h
      simp only [if_pos hend]
      exact .finish p hloc (hhand.trans hproc)
    next hend =>
      simp only [if_neg hend]
      split at h
      next htime =>
        obtain ⟨sched, hput, rfl⟩ := toOption_map_some h
        rw [if_pos htime]
        exact .put p sched hloc (hhand.trans hproc) hput
      next htime =>
        obtain rfl := Option.some.inj h
        rw [if_neg htime]
        refine .quiet s.timer _ (by rw [hloc]; exact CpuLoc.noConfusion) ?_
        exact hand_congr rfl CpuLoc.noConfusion (by rw [hloc]; exact CpuLoc.noConfusion)

theorem cpuRecheck_call (hloc : (s.cpu c).loc = .recheck) :
    CpuCall cfg text junk s c (s.cpuCall cfg text junk c) (cpuRecheck cfg s c) := by
  have hget : (s.cpu c).loc ≠ .get := by rw [hloc]; exact CpuLoc.noConfusion
  have hrun : (s.cpu c).loc ≠ .run := by rw [hloc]; exact CpuLoc.noConfusion
  have hcall : s.cpuCall cfg text junk c = none := by rw [Os.cpuCall, hloc]
  rw [hcall, cpuRecheck]
  split
  next =>
    refine .quiet s.timer _ hrun (hand_congr rfl ?_ hget)
    cases s.done <;> exact CpuLoc.noConfusion
  next => exact .quiet s.timer _ hrun (hand_congr rfl CpuLoc.noConfusion hget)

theorem cpuRoutine_call (text : Pid → Nat → Inst) (junk : Byte)
    (h : cpuRoutine cfg s c = some s') :
    CpuCall cfg text junk s c (s.cpuCall cfg text junk c) s' := by
  have hquiet : ∀ {e : TimerEvent} {loc : CpuLoc}, loc ≠ .get → (s.cpu c).loc ≠ .get →
      (s.cpu c).loc ≠ .run →
      (s.onTimer e).map (·.setCpu c { s.cpu c with loc }) = some s' →
      CpuCall cfg text junk s c none s' := by
    intro e loc hnew hold hrun h
    obtain ⟨timer, _, rfl⟩ := onTimer_some h
    exact .quiet timer _ hrun (hand_congr rfl hnew hold)
  rw [cpuRoutine] at h
  split at h
  next hloc => exact cpuTop_call hloc h
  next hloc =>
    obtain rfl := Option.some.inj h
    rw [Os.cpuCall, hloc]
    exact .get (hand_get hloc)
  next hloc =>
    obtain rfl := Option.some.inj h
    exact cpuRecheck_call hloc
  next hloc =>
    obtain ⟨p, hproc, rfl⟩ := Option.map_eq_some_iff.mp h
    have hcall : s.cpuCall cfg text junk c = some (.run c (s.fetch cfg text p) junk) := by
      rw [Os.cpuCall, hloc, hproc]
      rfl
    rw [hcall]
    refine .run p hloc ?_
    rw [hand_of_loc (by rw [hloc]; exact CpuLoc.noConfusion), hproc]
  next hloc =>
    rw [Os.cpuCall, hloc]
    rw [hloc] at hquiet
    exact hquiet CpuLoc.noConfusion CpuLoc.noConfusion CpuLoc.noConfusion h
  next hloc =>
    rw [Os.cpuCall, hloc]
    rw [hloc] at hquiet
    exact hquiet CpuLoc.noConfusion CpuLoc.noConfusion CpuLoc.noConfusion h
  next hloc =>
    rw [Os.cpuCall, hloc]
    rw [hloc] at hquiet
    exact hquiet CpuLoc.noConfusion CpuLoc.noConfusion CpuLoc.noConfusion h
  next => cases h

end Calls

/-! ## What holds of the two together -/

/-- A CPU of the threads and the same CPU of the machine. -/
inductive CpuAgrees : CpuThread → Cpu → Prop
  | idle {t : CpuThread} : t.hand = none → CpuAgrees t .idle
  | holding {t : CpuThread} {p : Pid} : t.hand = some p → CpuAgrees t (.holding p)
  | restored {t : CpuThread} {p : Pid} : t.hand = some p → t.loc = .run → CpuAgrees t (.restored p)

theorem CpuAgrees.proc {t : CpuThread} {cpu : Cpu} (h : CpuAgrees t cpu) : cpu.proc = t.hand := by
  cases h with
  | idle hhand => exact hhand.symm
  | holding hhand => exact hhand.symm
  | restored hhand _ => exact hhand.symm

theorem CpuAgrees.eq_idle {t : CpuThread} {cpu : Cpu} (h : CpuAgrees t cpu)
    (hhand : t.hand = none) : cpu = .idle := by
  cases cpu with
  | idle => rfl
  | holding p => exact nomatch h.proc.trans hhand
  | restored p => exact nomatch h.proc.trans hhand

theorem CpuAgrees.eq_holding {t : CpuThread} {cpu : Cpu} {p : Pid} (h : CpuAgrees t cpu)
    (hhand : t.hand = some p) (hloc : t.loc ≠ .run) : cpu = .holding p := by
  cases h with
  | idle hnone => exact nomatch hnone.symm.trans hhand
  | holding hq => rw [Option.some.inj (hq.symm.trans hhand)]
  | restored _ hrun => exact absurd hrun hloc

/-- A CPU that does not run and goes on with what it holds. -/
theorem CpuAgrees.same {t t' : CpuThread} {cpu : Cpu} (h : CpuAgrees t cpu) (hloc : t.loc ≠ .run)
    (hhand : t'.hand = t.hand) : CpuAgrees t' cpu := by
  cases h with
  | idle hnone => exact .idle (hhand.trans hnone)
  | holding hq => exact .holding (hhand.trans hq)
  | restored _ hrun => exact absurd hrun hloc

/-- What every run of the whole keeps. -/
structure Joined (cfg : OsCfg) (w : Whole) : Prop where
  wf : w.sys.Wf
  sched : w.sys.krnl.sched = w.os.sched
  cpu : ∀ c, CpuAgrees (w.os.cpu c) (w.sys.cpu c)
  pending : ∀ p, w.sys.pending = some p → p = w.os.ld.i ∧ w.os.ld.loc = .add
  created : ∀ p, (w.sys.krnl.ownMm p).isSome ↔ p < w.os.ld.i ∨ w.sys.pending = some p
  prio : ∀ p, (w.sys.krnl.ownMm p).isSome → w.sys.prio p = (cfg.proc p).prio

theorem joined_start (cfg : OsCfg) (memramsz memswpsz : Addr) (ramJunk swpJunk : Bool) :
    Joined cfg (.start cfg (boot memramsz memswpsz ramJunk swpJunk)) where
  wf := boot_wf memramsz memswpsz ramJunk swpJunk
  sched := rfl
  cpu := fun _ => .idle rfl
  pending := fun _ h => nomatch h
  created := fun _ => ⟨fun h => (nomatch h), fun h => by
    rcases h with h | h
    · exact absurd h (Nat.not_lt_zero _)
    · exact nomatch h⟩
  prio := fun _ h => nomatch h

section Together
variable {cfg : OsCfg} {text : Pid → Nat → Inst} {w w' : Whole}

theorem Joined.proc (h : Joined cfg w) (c : Nat) : (w.sys.cpu c).proc = (w.os.cpu c).hand :=
  (h.cpu c).proc

/-- A step that the machine does not see. -/
theorem Joined.quiet {os : Os} (h : Joined cfg w) (hsched : os.sched = w.os.sched)
    (hcpu : ∀ c, CpuAgrees (os.cpu c) (w.sys.cpu c)) (hi : os.ld.i = w.os.ld.i)
    (hadd : w.os.ld.loc = .add → os.ld.loc = .add) : Joined cfg { w with os } where
  wf := h.wf
  sched := h.sched.trans hsched.symm
  cpu := hcpu
  pending := fun p hp => ⟨(h.pending p hp).1.trans hi.symm, hadd (h.pending p hp).2⟩
  created := fun p => by rw [hi]; exact h.created p
  prio := h.prio

/-- Where one CPU of both is updated. -/
theorem cpuAgrees_update {threads : Nat → CpuThread} {cpus : Nat → Cpu} {c : Nat} {t : CpuThread}
    {cpu : Cpu} (h : ∀ i, CpuAgrees (threads i) (cpus i)) (hc : CpuAgrees t cpu) (i : Nat) :
    CpuAgrees (Function.update threads c t i) (Function.update cpus c cpu i) := by
  by_cases hi : i = c
  · subst hi
    rw [Function.update_self, Function.update_self]
    exact hc
  · rw [Function.update_of_ne hi, Function.update_of_ne hi]
    exact h i

/-- An instruction gives no process its structure, and takes it from none. -/
theorem exec_created {k k' : Krnl} {p q : Pid} {ins : Inst} {junk : Byte} {st : Int}
    (hw : k.Wf) (hp : (k.ownMm p).isSome) (h : exec k p ins junk = .ok (k', st)) :
    (k'.ownMm q).isSome ↔ (k.ownMm q).isSome := by
  obtain ⟨mm, hmm⟩ := Option.isSome_iff_exists.mp hp
  refine ⟨fun hq => ?_, exec_ownMm_isSome hw hmm h⟩
  by_cases hqp : q = p
  · rw [hqp]
    exact hp
  · rwa [exec_ownMm_of_ne hw hmm hqp h] at hq

theorem Joined.create {symrgtbl : Nat → VmRg} {sys : Sys} {log : List Event} (h : Joined cfg w)
    (hloc : w.os.ld.loc = .add)
    (hs : step w.sys (.create w.os.ld.i (cfg.proc w.os.ld.i).prio symrgtbl) = some sys) :
    Joined cfg ⟨w.os, sys, log⟩ := by
  have hwf := h.wf.step hs
  obtain ⟨hpend, hnone, rfl⟩ := step_create hs
  have hof : ∀ {q}, q ≠ w.os.ld.i →
      (w.sys.krnl.setMm w.os.ld.i (initMm symrgtbl)).ownMm q = w.sys.krnl.ownMm q :=
    fun hq => Krnl.setMm_of_ne _ _ _ hq
  refine ⟨hwf, h.sched, h.cpu, fun p hp => ?_, fun p => ?_, fun p hp => ?_⟩
  · exact ⟨(Option.some.inj hp).symm, hloc⟩
  · by_cases hpi : p = w.os.ld.i
    · subst hpi
      exact ⟨fun _ => Or.inr rfl, fun _ => by
        show ((w.sys.krnl.setMm w.os.ld.i (initMm symrgtbl)).ownMm w.os.ld.i).isSome
        rw [Krnl.setMm_self]
        rfl⟩
    · show ((w.sys.krnl.setMm w.os.ld.i (initMm symrgtbl)).ownMm p).isSome ↔ _
      rw [hof hpi, h.created p, hpend]
      refine or_congr_right ⟨fun hn => (nomatch hn), fun hp => ?_⟩
      exact absurd (Option.some.inj hp).symm hpi
  · by_cases hpi : p = w.os.ld.i
    · subst hpi
      exact Function.update_self ..
    · exact (Function.update_of_ne hpi ..).trans (h.prio p (by rw [← hof hpi]; exact hp))

theorem Joined.restore {c : Nat} {sys : Sys} {log : List Event} (h : Joined cfg w)
    (hloc : (w.os.cpu c).loc = .run) (hs : step w.sys (.restore c) = some sys) :
    Joined cfg ⟨w.os, sys, log⟩ := by
  have hwf := h.wf.step hs
  obtain ⟨p, hp, rfl⟩ := step_restore hs
  refine ⟨hwf, h.sched, fun i => ?_, h.pending, h.created, h.prio⟩
  have hhand : (w.os.cpu c).hand = some p := by
    rw [← h.proc c, hp]
    rfl
  have hupd := cpuAgrees_update (c := c) h.cpu (.restored hhand hloc) i
  rwa [Function.update_eq_self] at hupd

theorem advance_none {os : Os} (h : w.advance os none = some w') : w' = { w with os } :=
  (Option.some.inj h).symm

theorem advance_some {os : Os} {e : Event} (h : w.advance os (some e) = some w') :
    ∃ sys, step w.sys e = some sys ∧ w' = ⟨os, sys, w.log ++ [e]⟩ := by
  obtain ⟨sys, hs, rfl⟩ := Option.map_eq_some_iff.mp h
  exact ⟨sys, hs, rfl⟩

theorem cpuGet_eq (s : Os) (c : Nat) : cpuGet s c =
    { s with sched := (getProc s.sched).1 }.setCpu c
      { s.cpu c with proc := (getProc s.sched).2, loc := .recheck } := rfl

theorem os_run_sched (cfg : OsCfg) (s : Os) (c : Nat) (p : Pid) :
    (s.run cfg c p).sched = s.sched ∧ (s.run cfg c p).cpu = s.cpu ∧
    (s.run cfg c p).ld = s.ld := by
  rw [Os.run]
  split
  · exact ⟨rfl, rfl, rfl⟩
  · exact ⟨rfl, rfl, rfl⟩

theorem Joined.get {c : Nat} {sys : Sys} {log : List Event} (h : Joined cfg w)
    (hs : step w.sys (.get c) = some sys) : Joined cfg ⟨cpuGet w.os c, sys, log⟩ := by
  have hwf := h.wf.step hs
  obtain ⟨hidle, hcase⟩ := step_get hs
  rw [h.sched] at hcase
  rw [cpuGet_eq]
  have hhand : ∀ {proc : Option Pid}, proc = (getProc w.os.sched).2 →
      { w.os.cpu c with proc := (getProc w.os.sched).2, loc := .recheck : CpuThread }.hand =
        proc := fun hproc => (hand_of_loc CpuLoc.noConfusion).trans hproc.symm
  rcases hcase with ⟨hnone, rfl⟩ | ⟨p, hsome, rfl⟩
  · refine ⟨hwf, rfl, fun i => ?_, h.pending, h.created, h.prio⟩
    have hupd := cpuAgrees_update (c := c) h.cpu (.idle (hhand hnone.symm)) i
    rwa [← hidle, Function.update_eq_self] at hupd
  · refine ⟨hwf, rfl, fun i => ?_, h.pending, h.created, h.prio⟩
    exact cpuAgrees_update h.cpu (.holding (hhand hsome.symm)) i

/-- A CPU gives its process away. -/
theorem Joined.release {c : Nat} {sys : Sys} {sched : Sched} {log : List Event} {os : Os}
    {timeLeft : Int} (h : Joined cfg w) (hwf : sys.Wf)
    (hkrnl : sys.krnl = { w.sys.krnl with sched }) (hcpu : sys.cpu = (w.sys.setCpu c .idle).cpu)
    (hpend : sys.pending = w.sys.pending) (hprio : sys.prio = w.sys.prio)
    (hos : os.sched = sched) (hcpu' : os.cpu = w.os.cpu) (hld : os.ld = w.os.ld) :
    Joined cfg ⟨os.setCpu c { w.os.cpu c with timeLeft, loc := .get }, sys, log⟩ where
  wf := hwf
  sched := by rw [hkrnl]; exact hos.symm
  cpu := fun i => by
    rw [hcpu, Os.setCpu, hcpu']
    exact cpuAgrees_update h.cpu (.idle (hand_get rfl)) i
  pending := fun p hp => by
    rw [hpend] at hp
    rw [Os.setCpu, hld]
    exact h.pending p hp
  created := fun p => by
    rw [hkrnl, hpend, Os.setCpu, hld]
    exact h.created p
  prio := fun p hp => by
    rw [hkrnl] at hp
    rw [hprio]
    exact h.prio p hp

theorem Joined.exec {c : Nat} {p : Pid} {ins : Inst} {junk : Byte} {sys : Sys} {log : List Event}
    {timeLeft : Int} (h : Joined cfg w) (hhand : (w.os.cpu c).hand = some p)
    (hloc : (w.os.cpu c).loc = .run) (hs : step w.sys (.run c ins junk) = some sys) :
    Joined cfg
      ⟨(w.os.run cfg c p).setCpu c { w.os.cpu c with timeLeft, loc := .slot }, sys, log⟩ := by
  have hwf := h.wf.step hs
  obtain ⟨q, k', st, hc, hexec, rfl⟩ := step_run hs
  have hq : q = p := by
    have hproc := h.proc c
    rw [hc, hhand] at hproc
    exact Option.some.inj hproc
  subst hq
  have hown : (w.sys.krnl.ownMm q).isSome := h.wf.held c q (by rw [hc]; rfl)
  obtain ⟨mm, hmm⟩ := Option.isSome_iff_exists.mp hown
  have hcreated : ∀ r, (k'.ownMm r).isSome ↔ (w.sys.krnl.ownMm r).isSome :=
    fun _ => exec_created h.wf.krnl hown hexec
  obtain ⟨hsched, hcpu, hld⟩ := os_run_sched cfg w.os c q
  have hget : (w.os.cpu c).loc ≠ .get := by rw [hloc]; exact CpuLoc.noConfusion
  have hslot : { w.os.cpu c with timeLeft, loc := .slot : CpuThread }.hand = some q :=
    (hand_of_loc CpuLoc.noConfusion).trans ((hand_of_loc hget).symm.trans hhand)
  refine ⟨hwf, ?_, fun i => ?_, fun r hr => ?_, fun r => ?_, fun r hr => ?_⟩
  · exact (exec_sched h.wf.krnl hmm hexec).1.trans (h.sched.trans hsched.symm)
  · rw [Os.setCpu, hcpu]
    exact cpuAgrees_update h.cpu (.holding hslot) i
  · rw [Os.setCpu, hld]
    exact h.pending r hr
  · rw [Os.setCpu, hld]
    exact (hcreated r).trans (h.created r)
  · exact h.prio r ((hcreated r).mp hr)

theorem Joined.cpuCall {c : Nat} {junk : Byte} {e : Option Event} {os : Os} (h : Joined cfg w)
    (hm : CpuCall cfg text junk w.os c e os) (hs : w.advance os e = some w') : Joined cfg w' := by
  cases hm with
  | get _ =>
      obtain ⟨sys, hstep, rfl⟩ := advance_some hs
      exact h.get hstep
  | finish p hloc hhand =>
      obtain ⟨sys, hstep, rfl⟩ := advance_some hs
      have hwf := h.wf.step hstep
      obtain ⟨q, hc, rfl⟩ := step_finish hstep
      have hq := (h.cpu c).eq_holding hhand (by rw [hloc]; exact CpuLoc.noConfusion)
      obtain rfl := Cpu.holding.inj (hc.symm.trans hq)
      refine h.release hwf rfl rfl rfl rfl ?_ rfl rfl
      rw [h.sched]
  | put p sched hloc hhand hput =>
      obtain ⟨sys, hstep, rfl⟩ := advance_some hs
      have hwf := h.wf.step hstep
      obtain ⟨q, sched', hc, hput', rfl⟩ := step_put hstep
      have hq := (h.cpu c).eq_holding hhand (by rw [hloc]; exact CpuLoc.noConfusion)
      obtain rfl := Cpu.holding.inj (hc.symm.trans hq)
      rw [h.sched, h.prio q (h.wf.held c q (by rw [hc]; rfl)), hput] at hput'
      obtain rfl := Except.ok.inj hput'
      exact h.release hwf rfl rfl rfl rfl rfl rfl rfl
  | run p hloc hhand =>
      obtain ⟨sys, hstep, rfl⟩ := advance_some hs
      exact h.exec hhand hloc hstep
  | quiet timer t hloc hhand =>
      obtain rfl := advance_none hs
      refine h.quiet rfl (fun i => ?_) rfl id
      have hupd := cpuAgrees_update (c := c) h.cpu ((h.cpu c).same hloc hhand) i
      rwa [Function.update_eq_self] at hupd

theorem Joined.add {sched : Sched} {sys : Sys} {log : List Event} (h : Joined cfg w)
    (hadd : addProc w.os.sched w.os.ld.i (cfg.proc w.os.ld.i).prio = .ok sched)
    (hs : step w.sys .add = some sys) :
    Joined cfg ⟨{ w.os with
      sched
      loaded := w.os.loaded ++ [w.os.ld.i]
      ld := { i := w.os.ld.i + 1, loc := .slot true } }, sys, log⟩ := by
  have hwf := h.wf.step hs
  obtain ⟨p, sched', hpend, hadd', rfl⟩ := step_add hs
  obtain ⟨rfl, _⟩ := h.pending p hpend
  rw [h.sched, h.prio _ (h.wf.pending _ hpend), hadd] at hadd'
  obtain rfl := Except.ok.inj hadd'
  refine ⟨hwf, rfl, h.cpu, fun p hp => (nomatch hp), fun p => ?_, h.prio⟩
  refine (h.created p).trans ?_
  rw [hpend]
  show p < w.os.ld.i ∨ some w.os.ld.i = some p ↔ p < w.os.ld.i + 1 ∨ none = some p
  constructor
  · rintro (hlt | heq)
    · exact Or.inl (Nat.lt_succ_of_lt hlt)
    · exact Or.inl (Nat.lt_succ_of_le (Option.some.inj heq).ge)
  · rintro (hlt | heq)
    · rcases Nat.lt_succ_iff_lt_or_eq.mp hlt with hlt | rfl
      · exact Or.inl hlt
      · exact Or.inr rfl
    · exact nomatch heq

theorem Joined.loader {junk : Byte} {os : Os} (h : Joined cfg w) (hm : LdMove cfg w.os os)
    (hs : w.advance os (w.os.call cfg text junk .loader) = some w') : Joined cfg w' := by
  have hother : w.os.ld.loc ≠ .add → os.sched = w.os.sched → os.cpu = w.os.cpu →
      os.ld.i = w.os.ld.i → Joined cfg w' := by
    intro hloc hsched hcpu hi
    rw [Os.call, if_neg hloc] at hs
    obtain rfl := advance_none hs
    exact h.quiet hsched (fun i => by rw [hcpu]; exact h.cpu i) hi fun hadd => absurd hadd hloc
  cases hm with
  | next hloc _ => exact hother (by rw [hloc]; exact LdLoc.noConfusion) rfl rfl rfl
  | last hloc _ => exact hother (by rw [hloc]; exact LdLoc.noConfusion) rfl rfl rfl
  | early hloc => exact hother (by rw [hloc]; exact LdLoc.noConfusion) rfl rfl rfl
  | due hloc => exact hother (by rw [hloc]; exact LdLoc.noConfusion) rfl rfl rfl
  | add sched hloc hadd =>
      rw [Os.call, if_pos hloc] at hs
      obtain ⟨sys, hstep, rfl⟩ := advance_some hs
      exact h.add hadd hstep
  | call added timer hloc _ => exact hother (by rw [hloc]; exact LdLoc.noConfusion) rfl rfl rfl
  | ret added timer hloc _ => exact hother (by rw [hloc]; exact LdLoc.noConfusion) rfl rfl rfl
  | done hloc => exact hother (by rw [hloc]; exact LdLoc.noConfusion) rfl rfl rfl
  | detach timer hloc _ => exact hother (by rw [hloc]; exact LdLoc.noConfusion) rfl rfl rfl

/-- The steps of the whole. -/
theorem wholeStep_cases {e : WholeEvent} (h : wholeStep cfg text w e = some w') :
    (∃ ev junk os, e = .thread ev junk ∧ osStep cfg w.os ev = some os ∧
      w.advance os (w.os.call cfg text junk ev) = some w') ∨
    (∃ symrgtbl sys, e = .create symrgtbl ∧ w.os.ld.loc = .add ∧
      step w.sys (.create w.os.ld.i (cfg.proc w.os.ld.i).prio symrgtbl) = some sys ∧
      w' = ⟨w.os, sys, w.log ++ [.create w.os.ld.i (cfg.proc w.os.ld.i).prio symrgtbl]⟩) ∨
    (∃ c sys, e = .restore c ∧ (w.os.cpu c).loc = .run ∧
      step w.sys (.restore c) = some sys ∧ w' = ⟨w.os, sys, w.log ++ [.restore c]⟩) := by
  cases e with
  | thread ev junk =>
      obtain ⟨os, hos, hadv⟩ := Option.bind_eq_some_iff.mp h
      exact Or.inl ⟨ev, junk, os, rfl, hos, hadv⟩
  | create symrgtbl =>
      obtain ⟨hloc, hadv⟩ := Option.ite_none_right_eq_some.mp h
      obtain ⟨sys, hs, hw⟩ := advance_some hadv
      exact Or.inr (Or.inl ⟨symrgtbl, sys, rfl, hloc, hs, hw⟩)
  | restore c =>
      obtain ⟨hloc, hadv⟩ := Option.ite_none_right_eq_some.mp h
      obtain ⟨sys, hs, hw⟩ := advance_some hadv
      exact Or.inr (Or.inr ⟨c, sys, rfl, hloc, hs, hw⟩)

theorem wholeStep_create {symrgtbl : Nat → VmRg} {sys : Sys} (hloc : w.os.ld.loc = .add)
    (hs : step w.sys (.create w.os.ld.i (cfg.proc w.os.ld.i).prio symrgtbl) = some sys) :
    wholeStep cfg text w (.create symrgtbl) =
      some ⟨w.os, sys, w.log ++ [.create w.os.ld.i (cfg.proc w.os.ld.i).prio symrgtbl]⟩ := by
  simp only [wholeStep, if_pos hloc, Whole.advance, hs, Option.map_some]

theorem wholeStep_restore {c : Nat} {sys : Sys} (hloc : (w.os.cpu c).loc = .run)
    (hs : step w.sys (.restore c) = some sys) :
    wholeStep cfg text w (.restore c) = some ⟨w.os, sys, w.log ++ [.restore c]⟩ := by
  simp only [wholeStep, if_pos hloc, Whole.advance, hs, Option.map_some]

theorem osStep_cpu {s s' : Os} {c : Nat} (h : osStep cfg s (.cpu c) = some s') :
    cpuRoutine cfg s c = some s' :=
  (Option.ite_none_right_eq_some.mp h).2

theorem osStep_stop {s s' : Os} (h : osStep cfg s .stop = some s') :
    s.onTimer .stop = some s' :=
  (Option.ite_none_right_eq_some.mp h).2

theorem onTimer_same {s s' : Os} {e : TimerEvent} (h : s.onTimer e = some s') :
    ∃ timer, s' = { s with timer } := by
  obtain ⟨timer, _, rfl⟩ := Option.map_eq_some_iff.mp h
  exact ⟨timer, rfl⟩

theorem Joined.thread {ev : OsEvent} {junk : Byte} {os : Os} (h : Joined cfg w)
    (hos : osStep cfg w.os ev = some os)
    (hs : w.advance os (w.os.call cfg text junk ev) = some w') : Joined cfg w' := by
  cases ev with
  | cpu c => exact h.cpuCall (cpuRoutine_call text junk (osStep_cpu hos)) hs
  | loader => exact h.loader (ldRoutine_move hos) hs
  | timer =>
      obtain ⟨timer, rfl⟩ := onTimer_same hos
      obtain rfl := advance_none hs
      exact h.quiet rfl h.cpu rfl id
  | stop =>
      obtain ⟨timer, rfl⟩ := onTimer_same (osStep_stop hos)
      obtain rfl := advance_none hs
      exact h.quiet rfl h.cpu rfl id

theorem Joined.step {e : WholeEvent} (h : Joined cfg w) (hs : wholeStep cfg text w e = some w') :
    Joined cfg w' := by
  rcases wholeStep_cases hs with ⟨_, _, _, _, hos, hadv⟩ | ⟨_, _, _, hloc, hstep, rfl⟩ |
    ⟨_, _, _, hloc, hstep, rfl⟩
  · exact h.thread hos hadv
  · exact h.create hloc hstep
  · exact h.restore hloc hstep

/-! ## What the machine runs -/

theorem Ran.cpuCall {c : Nat} {junk : Byte} {e : Option Event} {os : Os}
    (h : Ran text w.log w.os.log) (hm : CpuCall cfg text junk w.os c e os)
    (hs : w.advance os e = some w') : Ran text w'.log w'.os.log := by
  cases hm with
  | get _ =>
      obtain ⟨sys, _, rfl⟩ := advance_some hs
      exact .other _ (fun _ _ _ => Event.noConfusion) h
  | finish p _ _ =>
      obtain ⟨sys, _, rfl⟩ := advance_some hs
      exact .other _ (fun _ _ _ => Event.noConfusion) h
  | put p sched _ _ _ =>
      obtain ⟨sys, _, rfl⟩ := advance_some hs
      exact .other _ (fun _ _ _ => Event.noConfusion) h
  | run p _ _ =>
      obtain ⟨sys, _, rfl⟩ := advance_some hs
      by_cases hlt : w.os.pc p < (cfg.proc p).size
      · rw [Os.fetch, if_pos hlt, Os.run, if_neg (Nat.not_le.mpr hlt)]
        exact .exec c p _ junk h
      · rw [Os.fetch, if_neg hlt, Os.run, if_pos (Nat.not_lt.mp hlt)]
        exact .ended c junk h
  | quiet timer t _ _ =>
      obtain rfl := advance_none hs
      exact h

theorem LdMove.log_eq {s s' : Os} (hm : LdMove cfg s s') : s'.log = s.log := by
  cases hm <;> rfl

theorem Ran.thread {ev : OsEvent} {junk : Byte} {os : Os} (h : Ran text w.log w.os.log)
    (hos : osStep cfg w.os ev = some os)
    (hs : w.advance os (w.os.call cfg text junk ev) = some w') : Ran text w'.log w'.os.log := by
  cases ev with
  | cpu c => exact h.cpuCall (cpuRoutine_call text junk (osStep_cpu hos)) hs
  | loader =>
      rw [← (ldRoutine_move hos).log_eq] at h
      by_cases hloc : w.os.ld.loc = .add
      · rw [Os.call, if_pos hloc] at hs
        obtain ⟨sys, _, rfl⟩ := advance_some hs
        exact .other _ (fun _ _ _ => Event.noConfusion) h
      · rw [Os.call, if_neg hloc] at hs
        obtain rfl := advance_none hs
        exact h
  | timer =>
      obtain ⟨timer, rfl⟩ := onTimer_same hos
      obtain rfl := advance_none hs
      exact h
  | stop =>
      obtain ⟨timer, rfl⟩ := onTimer_same (osStep_stop hos)
      obtain rfl := advance_none hs
      exact h

theorem Ran.step {e : WholeEvent} (h : Ran text w.log w.os.log)
    (hs : wholeStep cfg text w e = some w') : Ran text w'.log w'.os.log := by
  rcases wholeStep_cases hs with ⟨_, _, _, _, hos, hadv⟩ | ⟨_, _, _, _, _, rfl⟩ |
    ⟨_, _, _, _, _, rfl⟩
  · exact h.thread hos hadv
  · exact .other _ (fun _ _ _ => Event.noConfusion) h
  · exact .other _ (fun _ _ _ => Event.noConfusion) h

/-- The machine takes what a step hands it. -/
theorem advance_reaches {sys₀ : Sys} {os : Os} {e : Option Event}
    (h : Lts.Reaches SimpleOs.step sys₀ w.log w.sys) (hs : w.advance os e = some w') :
    Lts.Reaches SimpleOs.step sys₀ w'.log w'.sys ∧ w'.os = os := by
  cases e with
  | none =>
      obtain rfl := advance_none hs
      exact ⟨h, rfl⟩
  | some e =>
      obtain ⟨sys, hstep, rfl⟩ := advance_some hs
      exact ⟨h.snoc e trivial hstep, rfl⟩

/-- The two runs of which a run of the whole is made. -/
theorem Whole.projections {sys₀ : Sys} {es : List WholeEvent}
    (h : Lts.Reaches (wholeStep cfg text) (.start cfg sys₀) es w) :
    Lts.Reaches (osStep cfg) cfg.start (threads es) w.os ∧
    Lts.Reaches SimpleOs.step sys₀ w.log w.sys := by
  induction h with
  | nil => exact ⟨.nil, .nil⟩
  | snoc e _ _ hs ih =>
      obtain ⟨hos, hsys⟩ := ih
      rcases wholeStep_cases hs with ⟨ev, junk, os, rfl, hev, hadv⟩ | ⟨_, _, rfl, _, hstep, rfl⟩ |
        ⟨_, _, rfl, _, hstep, rfl⟩
      · obtain ⟨hsys', rfl⟩ := advance_reaches hsys hadv
        rw [threads_thread]
        exact ⟨hos.snoc ev trivial hev, hsys'⟩
      · rw [threads_memory _ rfl]
        exact ⟨hos, hsys.snoc _ trivial hstep⟩
      · rw [threads_memory _ rfl]
        exact ⟨hos, hsys.snoc _ trivial hstep⟩

theorem joined_of_reaches {memramsz memswpsz : Addr} {ramJunk swpJunk : Bool}
    {es : List WholeEvent}
    (h : Lts.Reaches (wholeStep cfg text)
      (.start cfg (boot memramsz memswpsz ramJunk swpJunk)) es w) : Joined cfg w :=
  h.invariant (joined_start cfg memramsz memswpsz ramJunk swpJunk)
    (fun _ _ _ hj _ hs => hj.step hs)

theorem ran_of_reaches {sys₀ : Sys} {es : List WholeEvent}
    (h : Lts.Reaches (wholeStep cfg text) (.start cfg sys₀) es w) : Ran text w.log w.os.log :=
  h.invariant (P := fun w => Ran text w.log w.os.log) .nil (fun _ _ _ hr _ hs => hr.step hs)

/-! ## What the threads can do -/

/-- What `malloc` and an unwritten byte give, as chosen for every state. -/
def WholeEvent.Chosen (symrgtbl : Whole → Nat → VmRg) (junk : Whole → Byte) (w : Whole) :
    WholeEvent → Prop
  | .thread _ b => b = junk w
  | .create table => table = symrgtbl w
  | .restore _ => True

/-- CPU `c` is in `run`, at an instruction with undefined behaviour. -/
def Whole.Undefined (cfg : OsCfg) (text : Pid → Nat → Inst) (junk : Whole → Byte) (w : Whole)
    (c : Nat) : Prop :=
  ∃ p ub, (w.os.cpu c).loc = .run ∧ w.sys.cpu c = .restored p ∧
    exec w.sys.krnl p (w.os.fetch cfg text p) (junk w) = .error ub

theorem Joined.get_isSome (h : Joined cfg w) {c : Nat} (hhand : (w.os.cpu c).hand = none) :
    (SimpleOs.step w.sys (.get c)).isSome := by
  have hidle := (h.cpu c).eq_idle hhand
  rcases hget : getProc w.sys.krnl.sched with ⟨sched, _ | p⟩
  · rw [step_get_none hidle hget]
    rfl
  · rw [step_get_some hidle hget]
    rfl

/-- Except for `run`, the machine can do what a CPU does. -/
theorem Joined.cpu_isSome {c : Nat} {junk : Byte} {e : Event} {os : Os} (h : Joined cfg w)
    (hloc : (w.os.cpu c).loc ≠ .run) (hm : CpuCall cfg text junk w.os c (some e) os) :
    (SimpleOs.step w.sys e).isSome := by
  cases hm with
  | get hhand => exact h.get_isSome hhand
  | finish p _ hhand =>
      rw [step_finish_of ((h.cpu c).eq_holding hhand hloc)]
      rfl
  | put p sched _ hhand hput =>
      have hc := (h.cpu c).eq_holding hhand hloc
      rw [← h.sched, ← h.prio p (h.wf.held c p (by rw [hc]; rfl))] at hput
      rw [step_put_of hc hput]
      rfl
  | run p hrun _ => exact absurd hrun hloc

/-- The loader can create its process. -/
theorem Joined.create_isSome (h : Joined cfg w) (hpend : w.sys.pending = none) (prio : Nat)
    (symrgtbl : Nat → VmRg) :
    (SimpleOs.step w.sys (.create w.os.ld.i prio symrgtbl)).isSome := by
  have hnone : w.sys.krnl.ownMm w.os.ld.i = none := by
    refine Option.not_isSome_iff_eq_none.mp fun hsome => ?_
    rcases (h.created _).mp hsome with hlt | hp
    · exact Nat.lt_irrefl _ hlt
    · exact nomatch hpend.symm.trans hp
  rw [step_create_of hpend hnone]
  rfl

/-- And add the process that it has created. -/
theorem Joined.add_isSome {sched : Sched} (h : Joined cfg w)
    (hpend : w.sys.pending = some w.os.ld.i)
    (hadd : addProc w.os.sched w.os.ld.i (cfg.proc w.os.ld.i).prio = .ok sched) :
    (SimpleOs.step w.sys .add).isSome := by
  rw [← h.sched, ← h.prio _ (h.wf.pending _ hpend)] at hadd
  rw [step_add_of hpend hadd]
  rfl

section Follows
variable {symrgtbl : Whole → Nat → VmRg} {junk : Whole → Byte} {os : Os}

/-- From `w`, the threads can take step `ev` to `os`, unless the step is an instruction with
undefined behaviour. -/
def Whole.Follows (cfg : OsCfg) (text : Pid → Nat → Inst) (symrgtbl : Whole → Nat → VmRg)
    (junk : Whole → Byte) (w : Whole) (ev : OsEvent) (os : Os) : Prop :=
  ∃ es w', Lts.Run (wholeStep cfg text) (fun w e => e.Chosen symrgtbl junk w) w es w' ∧
    ((threads es = [ev] ∧ w'.os = os) ∨
     (threads es = [] ∧ ∃ c, ev = .cpu c ∧ w'.Undefined cfg text junk c))

/-- A step that the machine does not see. -/
theorem follows_quiet {ev : OsEvent} (hos : osStep cfg w.os ev = some os)
    (hcall : w.os.call cfg text (junk w) ev = none) :
    w.Follows cfg text symrgtbl junk ev os := by
  have hs : wholeStep cfg text w (.thread ev (junk w)) = some { w with os } := by
    rw [wholeStep, hos, hcall]
    rfl
  have hchosen : (WholeEvent.thread ev (junk w)).Chosen symrgtbl junk w := rfl
  exact ⟨_, _, .cons hchosen hs .nil, Or.inl ⟨rfl, rfl⟩⟩

/-- A step that calls what the machine can take. -/
theorem follows_call {ev : OsEvent} {e : Event} (hos : osStep cfg w.os ev = some os)
    (hcall : w.os.call cfg text (junk w) ev = some e) (hs : (SimpleOs.step w.sys e).isSome) :
    w.Follows cfg text symrgtbl junk ev os := by
  obtain ⟨sys, hs⟩ := Option.isSome_iff_exists.mp hs
  have hs : wholeStep cfg text w (.thread ev (junk w)) = some ⟨os, sys, w.log ++ [e]⟩ := by
    rw [wholeStep, hos, hcall]
    show (SimpleOs.step w.sys e).map _ = _
    rw [hs]
    rfl
  have hchosen : (WholeEvent.thread ev (junk w)).Chosen symrgtbl junk w := rfl
  exact ⟨_, _, .cons hchosen hs .nil, Or.inl ⟨rfl, rfl⟩⟩

/-- A step after one that touches only memory. -/
theorem follows_after {ev : OsEvent} (e : WholeEvent) (he : e.Chosen symrgtbl junk w)
    (hmem : e.thread? = none) (hs : wholeStep cfg text w e = some w')
    (h : w'.Follows cfg text symrgtbl junk ev os) : w.Follows cfg text symrgtbl junk ev os := by
  obtain ⟨es, w₁, hrun, hcase⟩ := h
  have hthreads : threads (e :: es) = threads es := List.filterMap_cons_none hmem
  exact ⟨e :: es, w₁, .cons he hs hrun, by rwa [hthreads]⟩

/-- `run`, once `krnl->mm` is restored. -/
theorem follows_run {c : Nat} {p : Pid} (hos : osStep cfg w.os (.cpu c) = some os)
    (hloc : (w.os.cpu c).loc = .run) (hproc : (w.os.cpu c).proc = some p)
    (hc : w.sys.cpu c = .restored p) : w.Follows cfg text symrgtbl junk (.cpu c) os := by
  have hcall : w.os.call cfg text (junk w) (.cpu c) =
      some (.run c (w.os.fetch cfg text p) (junk w)) := by
    rw [Os.call, Os.cpuCall, hloc, hproc]
    rfl
  rcases hexec : exec w.sys.krnl p (w.os.fetch cfg text p) (junk w) with ub | ⟨krnl, st⟩
  · exact ⟨[], w, .nil, Or.inr ⟨rfl, c, rfl, p, ub, hloc, hc, hexec⟩⟩
  · refine follows_call hos hcall ?_
    rw [step_run_of hc hexec]
    rfl

theorem Joined.cpu_follows {c : Nat} (h : Joined cfg w)
    (hos : osStep cfg w.os (.cpu c) = some os) :
    w.Follows cfg text symrgtbl junk (.cpu c) os := by
  have hm := cpuRoutine_call text (junk w) (osStep_cpu hos)
  by_cases hloc : (w.os.cpu c).loc = .run
  · obtain ⟨p, hproc⟩ : ∃ p, (w.os.cpu c).proc = some p := by
      have hsome := osStep_cpu hos
      rw [cpuRoutine, hloc] at hsome
      obtain ⟨p, hproc, _⟩ := Option.map_eq_some_iff.mp hsome
      exact ⟨p, hproc⟩
    have hheld : (w.sys.cpu c).proc = some p := by
      rw [h.proc c, hand_of_loc (by rw [hloc]; exact CpuLoc.noConfusion), hproc]
    cases hc : w.sys.cpu c with
    | idle =>
        rw [hc] at hheld
        exact absurd hheld (Option.some_ne_none p).symm
    | holding q =>
        rw [hc] at hheld
        obtain rfl := Option.some.inj hheld
        refine follows_after (.restore c) trivial rfl (wholeStep_restore hloc (step_restore_of hc))
          (follows_run hos hloc hproc ?_)
        exact Function.update_self ..
    | restored q =>
        rw [hc] at hheld
        obtain rfl := Option.some.inj hheld
        exact follows_run hos hloc hproc hc
  · cases hcall : w.os.cpuCall cfg text (junk w) c with
    | none => exact follows_quiet hos hcall
    | some e =>
        rw [hcall] at hm
        exact follows_call hos hcall (h.cpu_isSome hloc hm)

theorem Joined.add_follows {sched : Sched} (h : Joined cfg w)
    (hos : osStep cfg w.os .loader = some os) (hloc : w.os.ld.loc = .add)
    (hadd : addProc w.os.sched w.os.ld.i (cfg.proc w.os.ld.i).prio = .ok sched) :
    w.Follows cfg text symrgtbl junk .loader os := by
  cases hpend : w.sys.pending with
  | some p =>
      obtain rfl := (h.pending p hpend).1
      exact follows_call hos (if_pos hloc) (h.add_isSome hpend hadd)
  | none =>
      obtain ⟨sys, hs⟩ := Option.isSome_iff_exists.mp
        (h.create_isSome hpend (cfg.proc w.os.ld.i).prio (symrgtbl w))
      have hw : wholeStep cfg text w (.create (symrgtbl w)) = some _ := wholeStep_create hloc hs
      have hj := h.step hw
      have hpend' : sys.pending = some w.os.ld.i := by
        obtain ⟨_, _, rfl⟩ := step_create hs
        rfl
      exact follows_after (.create (symrgtbl w)) rfl rfl hw
        (follows_call hos (if_pos hloc) (hj.add_isSome hpend' hadd))

/-- The machine does not hold the threads up. -/
theorem Joined.follows (symrgtbl : Whole → Nat → VmRg) (junk : Whole → Byte) {ev : OsEvent}
    (h : Joined cfg w) (hos : osStep cfg w.os ev = some os) :
    w.Follows cfg text symrgtbl junk ev os := by
  cases ev with
  | cpu c => exact h.cpu_follows hos
  | loader =>
      by_cases hloc : w.os.ld.loc = .add
      · have hadd := hos
        rw [osStep, ldRoutine, hloc] at hadd
        obtain ⟨sched, hadd, _⟩ := toOption_map_some hadd
        exact h.add_follows hos hloc hadd
      · exact follows_quiet hos (if_neg hloc)
  | timer => exact follows_quiet hos rfl
  | stop => exact follows_quiet hos rfl

/-- From `w`, the threads can go on as `es`, unless an instruction on the way has undefined
behaviour. -/
def Whole.Covers (cfg : OsCfg) (text : Pid → Nat → Inst) (symrgtbl : Whole → Nat → VmRg)
    (junk : Whole → Byte) (w : Whole) (es : List OsEvent) (os : Os) : Prop :=
  ∃ es' w', Lts.Run (wholeStep cfg text) (fun w e => e.Chosen symrgtbl junk w) w es' w' ∧
    ((threads es' = es ∧ w'.os = os) ∨
     (∃ c later, es = threads es' ++ .cpu c :: later ∧ w'.Undefined cfg text junk c))

theorem Joined.reach {ok : Whole → WholeEvent → Prop} {es : List WholeEvent} (h : Joined cfg w)
    (hrun : Lts.Run (wholeStep cfg text) ok w es w') : Joined cfg w' :=
  hrun.invariant h (fun _ _ _ hj _ hs => hj.step hs)

theorem Joined.covers (text : Pid → Nat → Inst) (symrgtbl : Whole → Nat → VmRg)
    (junk : Whole → Byte) {es : List OsEvent} (h : Joined cfg w)
    (hos : Lts.Reaches (osStep cfg) w.os es os) : w.Covers cfg text symrgtbl junk es os := by
  induction hos with
  | nil => exact ⟨[], w, .nil, Or.inl ⟨rfl, rfl⟩⟩
  | @snoc es os₁ os₂ e _ _ hs ih =>
      obtain ⟨es₁, w₁, hrun₁, ⟨hthreads, rfl⟩ | ⟨c, later, hes, hub⟩⟩ := ih
      · obtain ⟨es₂, w₂, hrun₂, ⟨hev, hos⟩ | ⟨hev, c, rfl, hub⟩⟩ :=
          (h.reach hrun₁).follows symrgtbl junk hs
        · refine ⟨_, w₂, hrun₁.append hrun₂, Or.inl ⟨?_, hos⟩⟩
          rw [threads_append, hthreads, hev]
        · refine ⟨_, w₂, hrun₁.append hrun₂, Or.inr ⟨c, [], ?_, hub⟩⟩
          rw [threads_append, hthreads, hev, List.append_nil]
      · refine ⟨es₁, w₁, hrun₁, Or.inr ⟨c, later ++ [e], ?_, hub⟩⟩
        rw [hes, List.append_assoc, List.cons_append]

end Follows

/-- The threads can go on to the end, unless an instruction on the way has undefined behaviour. -/
theorem exists_whole_end {memramsz memswpsz : Addr} {ramJunk swpJunk : Bool}
    {es : List WholeEvent} (hcpus : 1 ≤ cfg.numCpus) (hfits : cfg.Fits)
    (symrgtbl : Whole → Nat → VmRg) (junk : Whole → Byte)
    (h : Lts.Reaches (wholeStep cfg text)
      (.start cfg (boot memramsz memswpsz ramJunk swpJunk)) es w) :
    ∃ es' w', Lts.Run (wholeStep cfg text) (fun w e => e.Chosen symrgtbl junk w) w es' w' ∧
      (w'.os.Returned cfg ∨ ∃ c, w'.Undefined cfg text junk c) := by
  obtain ⟨es₁, s, hrun, hend⟩ := exists_end hcpus hfits (Whole.projections h).1
  obtain ⟨es', w', hrun', ⟨_, rfl⟩ | ⟨c, _, _, hub⟩⟩ :=
    (joined_of_reaches h).covers text symrgtbl junk hrun
  · exact ⟨es', w', hrun', Or.inl hend⟩
  · exact ⟨es', w', hrun', Or.inr ⟨c, hub⟩⟩

theorem hand_eq_some {t : CpuThread} {p : Pid} :
    t.hand = some p ↔ t.proc = some p ∧ t.loc ≠ .get := by
  rw [CpuThread.hand]
  split
  next h => exact ⟨fun hp => (nomatch hp), fun hp => absurd h hp.2⟩
  next h => exact ⟨fun hp => ⟨hp, h⟩, fun hp => hp.1⟩

end Together

/-! ## The results -/

/-- In every run of the threads, their programs and the memory: the threads make a run of `Os`,
and the memory a run of `Machine`; the two agree on the scheduler, on the process every CPU
holds, and on the processes that exist; and the machine runs the instructions of the programs that
the threads' log names, in its order. -/
theorem whole_refines (cfg : OsCfg) (text : Pid → Nat → Inst) (memramsz memswpsz : Addr)
    (ramJunk swpJunk : Bool) (es : List WholeEvent) (w : Whole)
    (h : Lts.Reaches (wholeStep cfg text)
      (.start cfg (boot memramsz memswpsz ramJunk swpJunk)) es w) :
    Lts.Reaches (osStep cfg) cfg.start (threads es) w.os ∧
    Lts.Reaches step (boot memramsz memswpsz ramJunk swpJunk) w.log w.sys ∧
    w.sys.krnl.sched = w.os.sched ∧
    (∀ c p, w.sys.Held c p ↔ w.os.Holds c p) ∧
    (∀ p, (w.sys.krnl.ownMm p).isSome ↔ p < w.os.ld.i ∨ w.sys.pending = some p) ∧
    Ran text w.log w.os.log := by
  have hj := joined_of_reaches h
  obtain ⟨hos, hsys⟩ := Whole.projections h
  refine ⟨hos, hsys, hj.sched, fun c p => ?_, hj.created, ran_of_reaches h⟩
  rw [Sys.Held, hj.proc c]
  exact hand_eq_some

/-- One CPU and one process of one instruction. -/
def oneProcess : OsCfg :=
  { numCpus := 1, timeSlot := 1, ldProcesses := [{ startTime := 0, prio := 0, size := 1 }] }

theorem oneProcess_fits : oneProcess.Fits :=
  ⟨by decide, fun _ => (List.length_filter_le _ _).trans (by decide)⟩

/-- One slot in which the process runs, and the next, in which the CPU stops. -/
def oneProcessRun : List OsEvent :=
  List.replicate 4 .loader ++ List.replicate 4 (.cpu 0) ++ List.replicate 7 .timer ++
    List.replicate 3 .loader ++ List.replicate 5 (.cpu 0)

/-- One process that allocates 100 bytes, one slot long and to the end. -/
def oneAlloc : Pid → Nat → Inst := fun _ _ => ⟨.alloc, 100, 0, 0, 0⟩

def oneAllocRun : List WholeEvent :=
  [.thread .loader 0, .thread .loader 0, .create (fun _ => ⟨0, 0⟩), .thread .loader 0,
    .thread .loader 0, .thread (.cpu 0) 0, .thread (.cpu 0) 0, .restore 0, .thread (.cpu 0) 0,
    .thread (.cpu 0) 0] ++
  List.replicate 7 (.thread .timer 0) ++ List.replicate 3 (.thread .loader 0) ++
  List.replicate 5 (.thread (.cpu 0) 0)

theorem whole_refines_oneAlloc : ∃ w,
    Lts.Reaches (wholeStep oneProcess oneAlloc) (.start oneProcess (boot 1024 1024 false false))
      oneAllocRun w ∧
    Lts.Reaches (osStep oneProcess) oneProcess.start oneProcessRun w.os ∧
    Lts.Reaches step (boot 1024 1024 false false) w.log w.sys ∧
    Ran oneAlloc w.log [(0, 0, 0)] ∧ (w.sys.krnl.ownMm 0).isSome := by
  obtain ⟨w, hw⟩ := Option.isSome_iff_exists.mp
    (by decide +kernel : (Lts.exec (wholeStep oneProcess oneAlloc)
      (.start oneProcess (boot 1024 1024 false false)) oneAllocRun).isSome)
  have hlog : w.os.log = [(0, 0, 0)] :=
    Lts.exec_map (g := fun w => w.os.log) hw (by decide +kernel)
  have hi : w.os.ld.i = 1 := Lts.exec_map (g := fun w => w.os.ld.i) hw (by decide +kernel)
  have hreach := Lts.reaches_of_exec hw
  obtain ⟨hos, hsys, _, _, hcreated, hran⟩ :=
    whole_refines oneProcess oneAlloc 1024 1024 false false oneAllocRun w hreach
  rw [hlog] at hran
  exact ⟨w, hreach, hos, hsys, hran, (hcreated 0).mpr (Or.inl (by rw [hi]; decide))⟩

/-- Every run of the threads is that of a whole, whatever `malloc` and unwritten bytes give: the
memory can follow each step, except an instruction with undefined behaviour. -/
theorem whole_covers (cfg : OsCfg) (text : Pid → Nat → Inst) (memramsz memswpsz : Addr)
    (ramJunk swpJunk : Bool) (symrgtbl : Whole → Nat → VmRg) (junk : Whole → Byte)
    (es : List OsEvent) (s : Os) (h : Lts.Reaches (osStep cfg) cfg.start es s) :
    (Whole.start cfg (boot memramsz memswpsz ramJunk swpJunk)).Covers cfg text symrgtbl junk es s :=
  (joined_start cfg memramsz memswpsz ramJunk swpJunk).covers text symrgtbl junk h

/-- With free lists that end in NULL the allocation is defined, whether frames are left or not. -/
theorem oneAlloc_defined {cfg : OsCfg} {es : List WholeEvent} {w : Whole}
    (h : Lts.Reaches (wholeStep cfg oneAlloc) (.start cfg (boot 1024 1024 false false)) es w)
    (junk : Whole → Byte) (c : Nat) : ¬ w.Undefined cfg oneAlloc junk c := by
  rintro ⟨p, ub, _, hc, hexec⟩
  have hsys := (Whole.projections h).2
  have hw := reach_wf hsys
  obtain ⟨mm, hmm⟩ := Option.isSome_iff_exists.mp (hw.held c p (by rw [hc]; rfl))
  rw [Os.fetch] at hexec
  split at hexec
  next =>
    obtain ⟨⟨_, _, _⟩, halloc⟩ := alloc_defined 100 (junk w) hmm
      (hw.krnl.own p mm hmm).single (le_refl (0 : Int)) (by decide) (fun _ => by decide)
      hw.krnl.free_lt (Or.inr (reach_closed (Or.inl (by decide)) (Or.inl (by decide)) hsys).1)
    rw [oneAlloc, exec, liballoc_of_alloc halloc] at hexec
    cases hexec
  next => cases hexec

theorem whole_covers_oneAlloc : ∃ es w,
    Lts.Reaches (wholeStep oneProcess oneAlloc) (.start oneProcess (boot 1024 1024 false false))
      es w ∧
    threads es = oneProcessRun ∧ Ran oneAlloc w.log [(0, 0, 0)] := by
  obtain ⟨s, hs⟩ := Option.isSome_iff_exists.mp
    (by decide +kernel :
      (Lts.exec (osStep oneProcess) oneProcess.start oneProcessRun).isSome)
  have hlog : s.log = [(0, 0, 0)] := Lts.exec_map (g := Os.log) hs (by decide +kernel)
  obtain ⟨es, w, hrun, ⟨hthreads, rfl⟩ | ⟨c, _, _, hub⟩⟩ :=
    whole_covers oneProcess oneAlloc 1024 1024 false false (fun _ _ => ⟨0, 0⟩) (fun _ => 0)
      oneProcessRun s (Lts.reaches_of_exec hs)
  · exact ⟨es, w, hrun.reaches, hthreads, hlog ▸ ran_of_reaches hrun.reaches⟩
  · exact absurd hub (oneAlloc_defined hrun.reaches _ c)

/-- However the threads, their programs and the memory have run so far, they can go on to the end,
where every thread has returned and every process has executed its whole program, in memory too;
unless an instruction on the way has undefined behaviour. -/
theorem whole_completes (cfg : OsCfg) (hcpus : 1 ≤ cfg.numCpus) (hfits : cfg.Fits)
    (text : Pid → Nat → Inst) (memramsz memswpsz : Addr) (ramJunk swpJunk : Bool)
    (symrgtbl : Whole → Nat → VmRg) (junk : Whole → Byte) (es : List WholeEvent) (w : Whole)
    (h : Lts.Reaches (wholeStep cfg text)
      (.start cfg (boot memramsz memswpsz ramJunk swpJunk)) es w) :
    ∃ es' w', Lts.Run (wholeStep cfg text) (fun w e => e.Chosen symrgtbl junk w) w es' w' ∧
      ((w'.os.Returned cfg ∧ Ran text w'.log w'.os.log ∧
        ∀ p < cfg.numProcesses, w'.os.executed p = List.range (cfg.proc p).size) ∨
       ∃ c, w'.Undefined cfg text junk c) := by
  obtain ⟨es', w', hrun, hcase⟩ := exists_whole_end hcpus hfits symrgtbl junk h
  refine ⟨es', w', hrun, hcase.imp_left fun hend => ?_⟩
  have hreach := h.append hrun.reaches
  exact ⟨hend, ran_of_reaches hreach, fun p hp =>
    (returned_all hcpus hfits (Whole.projections hreach).1 hend hp).2⟩

theorem whole_completes_oneAlloc : ∃ es w,
    Lts.Reaches (wholeStep oneProcess oneAlloc) (.start oneProcess (boot 1024 1024 false false))
      es w ∧
    w.os.Returned oneProcess ∧ Ran oneAlloc w.log w.os.log ∧ w.os.executed 0 = [0] := by
  obtain ⟨es, w, hrun, ⟨hend, hran, hall⟩ | ⟨c, hub⟩⟩ :=
    whole_completes oneProcess (by decide) oneProcess_fits oneAlloc 1024 1024 false false
      (fun _ _ => ⟨0, 0⟩) (fun _ => 0) [] _ .nil
  · exact ⟨es, w, hrun.reaches, hend, hran, hall 0 (by decide)⟩
  · exact absurd hub (oneAlloc_defined hrun.reaches _ c)

end SimpleOs
