/-
# `SimpleOs.Os` — the CPUs, the loader and the timer together (`os.c`)

Every thread is a program counter and its local variables.  A step is one
critical section (a call into the scheduler, half of `next_slot`, one turn of a
loop of the timer), one access to a shared variable that no lock protects
(`done`, `_time`), or one instruction of a process.  What a thread does between
two such points it does alone.

`run` advances the program counter of the process; what the instruction does to
memory is left out, and so is its status, which nobody reads.  A process is
named by its index in the configuration.
-/
import SimpleOs.Sched
import SimpleOs.Timer

namespace SimpleOs

/-- An entry of `ld_processes`, and the `code->size` of the program at its path. -/
structure LdProcess where
  startTime : UInt64
  prio : Nat
  size : Nat
  deriving DecidableEq, Inhabited

/-- What `read_config` reads. -/
structure OsCfg where
  numCpus : Nat
  timeSlot : Int
  ldProcesses : List LdProcess

/-- `num_processes`. -/
def OsCfg.numProcesses (cfg : OsCfg) : Nat := cfg.ldProcesses.length

def OsCfg.proc (cfg : OsCfg) (p : Pid) : LdProcess := cfg.ldProcesses.getD p default

/-- Where `cpu_routine` is. -/
inductive CpuLoc
  /-- At the top of the loop. -/
  | top
  /-- After `remove_proc` or `put_proc`, before `get_proc`; `proc` is stale. -/
  | get
  /-- After `get_proc`. -/
  | recheck
  /-- Before `run`. -/
  | run
  /-- Before `next_slot`. -/
  | slot
  /-- In `next_slot`. -/
  | wait
  /-- After the loop: `CPU %d stopped` is printed. -/
  | detach
  | exited
  deriving DecidableEq, Repr

/-- The local variables of `cpu_routine`. -/
structure CpuThread where
  proc : Option Pid
  timeLeft : Int
  loc : CpuLoc
  deriving DecidableEq, Repr

/-- Where `ld_routine` is; `added` tells the two calls of `next_slot` apart. -/
inductive LdLoc
  /-- At the top of the loop. -/
  | top
  /-- Before `current_time() < start_time[i]`. -/
  | time
  | add
  | slot (added : Bool)
  | wait (added : Bool)
  /-- Before `done = 1`. -/
  | done
  | detach
  | exited
  deriving DecidableEq, Repr

structure LdThread where
  i : Nat
  loc : LdLoc
  deriving DecidableEq, Repr

/-- The whole machine.  `loaded`, `finished` and `log` are its history: the processes added to
the scheduler, those reported finished, and the instructions executed, each with its CPU and its
index in the program. -/
structure Os where
  timer : Timer
  sched : Sched
  done : Bool
  cpu : Nat → CpuThread
  ld : LdThread
  pc : Pid → Nat
  loaded : List Pid
  finished : List Pid
  log : List (Nat × Pid × Nat)

/-- After `main` created the threads: the CPUs are the first devices, the loader is the last. -/
def OsCfg.start (cfg : OsCfg) : Os where
  timer := startTimer (cfg.numCpus + 1)
  sched := initScheduler
  done := false
  cpu := fun _ => { proc := none, timeLeft := 0, loc := .top }
  ld := { i := 0, loc := .top }
  pc := fun _ => 0
  loaded := []
  finished := []
  log := []

def Os.setCpu (s : Os) (c : Nat) (t : CpuThread) : Os :=
  { s with cpu := Function.update s.cpu c t }

/-- A critical section of `timer.c`. -/
def Os.onTimer (s : Os) (e : TimerEvent) : Option Os :=
  (timerStep s.timer e).map fun timer => { s with timer }

/-- `run`, of process `p` on CPU `c`. -/
def Os.run (cfg : OsCfg) (s : Os) (c : Nat) (p : Pid) : Os :=
  if s.pc p ≥ (cfg.proc p).size then s
  else { s with
    pc := Function.update s.pc p (s.pc p + 1)
    log := s.log ++ [(c, p, s.pc p)] }

/-- `proc = get_proc()`. -/
def cpuGet (s : Os) (c : Nat) : Os :=
  let (sched, proc) := getProc s.sched
  { s with sched }.setCpu c { s.cpu c with proc, loc := .recheck }

/-- The status of the current process, up to the first lock. -/
def cpuTop (cfg : OsCfg) (s : Os) (c : Nat) : Option Os :=
  let t := s.cpu c
  match t.proc with
  | none => some (cpuGet s c)
  | some p =>
      if s.pc p = (cfg.proc p).size then
        some ({ s with sched := removeProc s.sched p, finished := s.finished ++ [p] }.setCpu c
          { t with timeLeft := 0, loc := .get })
      else if t.timeLeft = 0 then
        (putProc s.sched p (cfg.proc p).prio).toOption.map fun sched =>
          { s with sched }.setCpu c { t with loc := .get }
      else some (s.setCpu c { t with loc := .recheck })

/-- The recheck.  Without a process it reads `done`; so does the first branch of the loop. -/
def cpuRecheck (cfg : OsCfg) (s : Os) (c : Nat) : Os :=
  let t := s.cpu c
  match t.proc with
  | none => s.setCpu c { t with loc := if s.done then .detach else .slot }
  | some _ => s.setCpu c { t with
      timeLeft := if t.timeLeft = 0 then cfg.timeSlot else t.timeLeft
      loc := .run }

/-- One step of `cpu_routine`. -/
def cpuRoutine (cfg : OsCfg) (s : Os) (c : Nat) : Option Os :=
  let t := s.cpu c
  match t.loc with
  | .top => cpuTop cfg s c
  | .get => some (cpuGet s c)
  | .recheck => some (cpuRecheck cfg s c)
  | .run =>
      t.proc.map fun p =>
        (s.run cfg c p).setCpu c { t with timeLeft := t.timeLeft - 1, loc := .slot }
  | .slot => (s.onTimer (.call c)).map (·.setCpu c { t with loc := .wait })
  | .wait => (s.onTimer (.ret c)).map (·.setCpu c { t with loc := .top })
  | .detach => (s.onTimer (.detach c)).map (·.setCpu c { t with loc := .exited })
  | .exited => none

/-- One step of `ld_routine`.  `load` does not return NULL: it exits instead. -/
def ldRoutine (cfg : OsCfg) (s : Os) : Option Os :=
  let t := s.ld
  match t.loc with
  | .top => some { s with ld := { t with loc := if t.i < cfg.numProcesses then .time else .done } }
  | .time =>
      let early := currentTime s.timer < (cfg.proc t.i).startTime
      some { s with ld := { t with loc := if early then .slot false else .add } }
  | .add =>
      (addProc s.sched t.i (cfg.proc t.i).prio).toOption.map fun sched =>
        { s with
          sched
          loaded := s.loaded ++ [t.i]
          ld := { i := t.i + 1, loc := .slot true } }
  | .slot added =>
      (s.onTimer (.call cfg.numCpus)).map ({ · with ld := { t with loc := .wait added } })
  | .wait added =>
      (s.onTimer (.ret cfg.numCpus)).map
        ({ · with ld := { t with loc := if added then .top else .time } })
  | .done => some { s with done := true, ld := { t with loc := .detach } }
  | .detach => (s.onTimer (.detach cfg.numCpus)).map ({ · with ld := { t with loc := .exited } })
  | .exited => none

/-- Who takes a step. -/
inductive OsEvent
  | cpu (c : Nat)
  | loader
  | timer
  /-- `stop_timer` in `main`, after all threads were joined. -/
  | stop
  deriving DecidableEq, Repr

/-- One step of the machine. -/
def osStep (cfg : OsCfg) (s : Os) : OsEvent → Option Os
  | .cpu c => if c < cfg.numCpus then cpuRoutine cfg s c else none
  | .loader => ldRoutine cfg s
  | .timer => s.onTimer .tick
  | .stop =>
      if (∀ c < cfg.numCpus, (s.cpu c).loc = .exited) ∧ s.ld.loc = .exited then s.onTimer .stop
      else none

/-! ## What a step can do -/

@[simp] theorem Os.setCpu_self (s : Os) (c : Nat) (t : CpuThread) : (s.setCpu c t).cpu c = t :=
  Function.update_self ..

theorem Os.setCpu_of_ne (s : Os) (t : CpuThread) {c i : Nat} (h : i ≠ c) :
    (s.setCpu c t).cpu i = s.cpu i := Function.update_of_ne h ..

section Moves
variable {cfg : OsCfg} {s s' : Os} {c : Nat}

/-- The steps of CPU `c`. -/
inductive CpuMove (cfg : OsCfg) (s : Os) (c : Nat) : Os → Prop
  | idle :
      ((s.cpu c).loc = .top ∧ (s.cpu c).proc = none ∨ (s.cpu c).loc = .get) →
      (∀ i < maxPrio, s.sched.ready i = []) →
      CpuMove cfg s c (s.setCpu c { s.cpu c with proc := none, loc := .recheck })
  | dispatch (prio : Nat) (p : Pid) (sched : Sched) :
      ((s.cpu c).loc = .top ∧ (s.cpu c).proc = none ∨ (s.cpu c).loc = .get) →
      s.sched.Taken sched prio p →
      CpuMove cfg s c ({ s with sched }.setCpu c { s.cpu c with proc := some p, loc := .recheck })
  | finish (p : Pid) :
      (s.cpu c).loc = .top → (s.cpu c).proc = some p → s.pc p = (cfg.proc p).size →
      CpuMove cfg s c
        ({ s with sched := removeProc s.sched p, finished := s.finished ++ [p] }.setCpu c
          { s.cpu c with timeLeft := 0, loc := .get })
  | put (p : Pid) (sched : Sched) :
      (s.cpu c).loc = .top → (s.cpu c).proc = some p →
      enqueueMlq s.sched p (cfg.proc p).prio = .ok sched →
      CpuMove cfg s c ({ s with sched }.setCpu c { s.cpu c with loc := .get })
  | stop :
      (s.cpu c).loc = .recheck → (s.cpu c).proc = none → s.done = true →
      CpuMove cfg s c (s.setCpu c { s.cpu c with loc := .detach })
  | skip :
      (s.cpu c).loc = .recheck → (s.cpu c).proc = none → s.done = false →
      CpuMove cfg s c (s.setCpu c { s.cpu c with loc := .slot })
  | keep (p : Pid) (timeLeft : Int) (loc : CpuLoc) :
      (s.cpu c).proc = some p →
      ((s.cpu c).loc = .top ∧ loc = .recheck ∨ (s.cpu c).loc = .recheck ∧ loc = .run ∨
        (s.cpu c).loc = .run ∧ loc = .slot ∧ ¬ s.pc p < (cfg.proc p).size) →
      CpuMove cfg s c (s.setCpu c { s.cpu c with timeLeft, loc })
  | exec (p : Pid) :
      (s.cpu c).loc = .run → (s.cpu c).proc = some p → s.pc p < (cfg.proc p).size →
      CpuMove cfg s c
        ({ s with
            pc := Function.update s.pc p (s.pc p + 1)
            log := s.log ++ [(c, p, s.pc p)] }.setCpu c
          { s.cpu c with timeLeft := (s.cpu c).timeLeft - 1, loc := .slot })
  | timer (e : TimerEvent) (timer : Timer) (loc : CpuLoc) :
      ((s.cpu c).loc = .slot ∧ e = .call c ∧ loc = .wait ∨
        (s.cpu c).loc = .wait ∧ e = .ret c ∧ loc = .top ∨
        (s.cpu c).loc = .detach ∧ e = .detach c ∧ loc = .exited) →
      timerStep s.timer e = some timer →
      CpuMove cfg s c ({ s with timer }.setCpu c { s.cpu c with loc })

theorem onTimer_some {e : TimerEvent} {f : Os → Os} (h : (s.onTimer e).map f = some s') :
    ∃ timer, timerStep s.timer e = some timer ∧ s' = f { s with timer } := by
  obtain ⟨s₁, hs₁, rfl⟩ := Option.map_eq_some_iff.mp h
  obtain ⟨timer, ht, rfl⟩ := Option.map_eq_some_iff.mp hs₁
  exact ⟨timer, ht, rfl⟩

theorem cpuGet_move
    (h : (s.cpu c).loc = .top ∧ (s.cpu c).proc = none ∨ (s.cpu c).loc = .get) :
    CpuMove cfg s c (cpuGet s c) := by
  rcases getProc_taken s.sched with ⟨hget, hall⟩ | ⟨prio, p, sched, hget, ht, _⟩
  · have heq : cpuGet s c = s.setCpu c { s.cpu c with proc := none, loc := .recheck } := by
      rw [cpuGet, hget]
    rw [heq]
    exact .idle h hall
  · have heq : cpuGet s c =
        { s with sched }.setCpu c { s.cpu c with proc := some p, loc := .recheck } := by
      rw [cpuGet, hget]
    rw [heq]
    exact .dispatch prio p sched h ht

theorem cpuTop_move (hloc : (s.cpu c).loc = .top) (h : cpuTop cfg s c = some s') :
    CpuMove cfg s c s' := by
  rw [cpuTop] at h
  split at h
  next hproc =>
    obtain rfl := Option.some.inj h
    exact cpuGet_move (Or.inl ⟨hloc, hproc⟩)
  next p hproc =>
    split at h
    next hend =>
      obtain rfl := Option.some.inj h
      exact .finish p hloc hproc hend
    next =>
      split at h
      next =>
        obtain ⟨sched, hput, rfl⟩ := toOption_map_some h
        exact .put p sched hloc hproc hput
      next =>
        obtain rfl := Option.some.inj h
        exact .keep p _ _ hproc (Or.inl ⟨hloc, rfl⟩)

theorem cpuRecheck_move (hloc : (s.cpu c).loc = .recheck) :
    CpuMove cfg s c (cpuRecheck cfg s c) := by
  rw [cpuRecheck]
  split
  next hproc =>
    cases hdone : s.done with
    | true => exact .stop hloc hproc hdone
    | false => exact .skip hloc hproc hdone
  next p hproc => exact .keep p _ _ hproc (Or.inr (Or.inl ⟨hloc, rfl⟩))

theorem cpuRoutine_move (h : cpuRoutine cfg s c = some s') : CpuMove cfg s c s' := by
  rw [cpuRoutine] at h
  split at h
  next hloc => exact cpuTop_move hloc h
  next hloc =>
    obtain rfl := Option.some.inj h
    exact cpuGet_move (Or.inr hloc)
  next hloc =>
    obtain rfl := Option.some.inj h
    exact cpuRecheck_move hloc
  next hloc =>
    obtain ⟨p, hproc, rfl⟩ := Option.map_eq_some_iff.mp h
    by_cases hlt : s.pc p < (cfg.proc p).size
    · rw [Os.run, if_neg (Nat.not_le.mpr hlt)]
      exact .exec p hloc hproc hlt
    · rw [Os.run, if_pos (Nat.not_lt.mp hlt)]
      exact .keep p _ _ hproc (Or.inr (Or.inr ⟨hloc, rfl, hlt⟩))
  next hloc =>
    obtain ⟨timer, ht, rfl⟩ := onTimer_some h
    exact .timer _ timer _ (Or.inl ⟨hloc, rfl, rfl⟩) ht
  next hloc =>
    obtain ⟨timer, ht, rfl⟩ := onTimer_some h
    exact .timer _ timer _ (Or.inr (Or.inl ⟨hloc, rfl, rfl⟩)) ht
  next hloc =>
    obtain ⟨timer, ht, rfl⟩ := onTimer_some h
    exact .timer _ timer _ (Or.inr (Or.inr ⟨hloc, rfl, rfl⟩)) ht
  next => exact nomatch h

/-- The steps of the loader. -/
inductive LdMove (cfg : OsCfg) (s : Os) : Os → Prop
  | next : s.ld.loc = .top → s.ld.i < cfg.numProcesses →
      LdMove cfg s { s with ld := { s.ld with loc := .time } }
  | last : s.ld.loc = .top → ¬ s.ld.i < cfg.numProcesses →
      LdMove cfg s { s with ld := { s.ld with loc := .done } }
  | early : s.ld.loc = .time → LdMove cfg s { s with ld := { s.ld with loc := .slot false } }
  | due : s.ld.loc = .time → LdMove cfg s { s with ld := { s.ld with loc := .add } }
  | add (sched : Sched) : s.ld.loc = .add →
      enqueueMlq s.sched s.ld.i (cfg.proc s.ld.i).prio = .ok sched →
      LdMove cfg s { s with
        sched
        loaded := s.loaded ++ [s.ld.i]
        ld := { i := s.ld.i + 1, loc := .slot true } }
  | call (added : Bool) (timer : Timer) : s.ld.loc = .slot added →
      nextSlotCall s.timer cfg.numCpus = some timer →
      LdMove cfg s { s with timer, ld := { s.ld with loc := .wait added } }
  | ret (added : Bool) (timer : Timer) : s.ld.loc = .wait added →
      nextSlotRet s.timer cfg.numCpus = some timer →
      LdMove cfg s { s with timer, ld := { s.ld with loc := if added then .top else .time } }
  | done : s.ld.loc = .done →
      LdMove cfg s { s with done := true, ld := { s.ld with loc := .detach } }
  | detach (timer : Timer) : s.ld.loc = .detach →
      detachEvent s.timer cfg.numCpus = some timer →
      LdMove cfg s { s with timer, ld := { s.ld with loc := .exited } }

theorem ldRoutine_move (h : ldRoutine cfg s = some s') : LdMove cfg s s' := by
  rw [ldRoutine] at h
  split at h
  next hloc =>
    obtain rfl := Option.some.inj h
    split
    next hlt => exact .next hloc hlt
    next hge => exact .last hloc hge
  next hloc =>
    obtain rfl := Option.some.inj h
    split
    · exact .early hloc
    · exact .due hloc
  next hloc =>
    obtain ⟨sched, hadd, rfl⟩ := toOption_map_some h
    exact .add sched hloc hadd
  next added hloc =>
    obtain ⟨timer, ht, rfl⟩ := onTimer_some h
    exact .call added timer hloc ht
  next added hloc =>
    obtain ⟨timer, ht, rfl⟩ := onTimer_some h
    exact .ret added timer hloc ht
  next hloc =>
    obtain rfl := Option.some.inj h
    exact .done hloc
  next hloc =>
    obtain ⟨timer, ht, rfl⟩ := onTimer_some h
    exact .detach timer hloc ht
  next => exact nomatch h

end Moves

end SimpleOs
