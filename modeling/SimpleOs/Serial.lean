/-
# `SimpleOs.Serial` — interleaved instructions are a run of one instruction at a time

`Traced` runs the CPUs of `Smp` and writes down, event by event, a run of `Machine`: an
instruction is entered when it gives `mmvm_lock` back, or at once if it never takes it.
`Serializes.snoc`: as long as only instructions that take the lock are begun, the machine can
make that run, and it comes to the kernel of the CPUs whenever the lock is free.

While a CPU has the lock, the machine has not run its instruction yet.  It is `Behind` by the
part of that process, and an access that goes wrong then goes wrong in the machine too: what
instructions do at the same time they could do one after the other.
-/
import SimpleOs.Sections
import SimpleOs.Smp

namespace SimpleOs

open Mutex Code

/-! ## The machine beside the CPUs -/

/-- The CPUs, the instruction that each has begun, and the run of the machine so far. -/
structure Traced where
  smp : Smp
  ins : Nat → Option (Inst × Byte)
  log : List Event

def Traced.start (sys : Sys) : Traced where
  smp := .start sys
  ins := fun _ => none
  log := []

def SmpEvent.Locked : SmpEvent → Prop
  | .begin _ ins _ => ins.Locked
  | _ => True

instance : DecidablePred SmpEvent.Locked
  | .begin _ ins _ => inferInstanceAs (Decidable ins.Locked)
  | .sys _ => isTrue trivial
  | .tick _ => isTrue trivial

/-- The events of the machine that a step completes; `code` is what the CPUs run after it. -/
def Traced.commit (t : Traced) (code : Nat → Option (Pid × Prog Int)) : SmpEvent → List Event
  | .sys e => [e]
  | .begin c ins junk =>
      match code c with
      | some (_, .done _) => [.run c ins junk]
      | _ => []
  | .tick c =>
      match t.smp.code c, t.ins c with
      | some (_, .release _), some (ins, junk) => [.run c ins junk]
      | _, _ => []

/-- The instruction that each CPU has begun last. -/
def Traced.insAfter (t : Traced) : SmpEvent → Nat → Option (Inst × Byte)
  | .begin c ins junk => Function.update t.ins c (some (ins, junk))
  | _ => t.ins

def tracedStep (t : Traced) (e : SmpEvent) : Option Traced :=
  (smpStep t.smp e).map fun smp => ⟨smp, t.insAfter e, t.log ++ t.commit smp.code e⟩

/-- What CPU `c` holds in the machine, where an instruction that has returned is over. -/
def Smp.serialCpu (s : Smp) (c : Nat) : Cpu :=
  match s.code c with
  | some (p, .done _) => .holding p
  | _ => s.sys.cpu c

/-- The machine beside the CPUs, when its kernel is `krnl`. -/
def Smp.serial (s : Smp) (krnl : Krnl) : Sys := { s.sys with krnl, cpu := s.serialCpu }

section SerialCpu
variable {s : Smp} {c : Nat} {p : Pid} {code : Prog Int}

theorem Smp.serialCpu_none (h : s.code c = none) : s.serialCpu c = s.sys.cpu c := by
  rw [serialCpu, h]

theorem Smp.serialCpu_done {a : Int} (h : s.code c = some (p, .done a)) :
    s.serialCpu c = .holding p := by
  rw [serialCpu, h]

theorem Smp.serialCpu_some (h : s.code c = some (p, code)) (hne : ∀ a, code ≠ .done a) :
    s.serialCpu c = s.sys.cpu c := by
  rw [serialCpu, h]
  cases code with
  | done a => exact absurd rfl (hne a)
  | _ => rfl

/-- Other CPUs are not concerned. -/
theorem Smp.serialCpu_congr {s' : Smp} (hcode : s'.code c = s.code c)
    (hcpu : s'.sys.cpu c = s.sys.cpu c) : s'.serialCpu c = s.serialCpu c := by
  rw [serialCpu, serialCpu, hcode, hcpu]

/-- A CPU between instructions changes its hold. -/
theorem Smp.serialCpu_setCpu {sys : Sys} {cpu : Cpu} (hnone : s.code c = none)
    (hcpu : sys.cpu = Function.update s.sys.cpu c cpu) :
    ({ s with sys } : Smp).serialCpu = Function.update s.serialCpu c cpu := by
  funext c'
  by_cases hc : c' = c
  · subst hc
    rw [serialCpu_none (s := { s with sys }) hnone, Function.update_self, hcpu,
      Function.update_self]
  · rw [Function.update_of_ne hc]
    refine serialCpu_congr rfl ?_
    show sys.cpu c' = _
    rw [hcpu, Function.update_of_ne hc]

/-- In the middle of an instruction the machine does not move. -/
theorem Smp.serial_goOn {m : Krnl} (krnl : Krnl) (owner : Option Nat)
    (hc : s.serialCpu c = s.sys.cpu c) (hne : ∀ a, code ≠ .done a) :
    (Smp.setCode ⟨{ s.sys with krnl }, owner, s.code⟩ c (some (p, code))).serial m =
      s.serial m := by
  have hcpu : (Smp.setCode ⟨{ s.sys with krnl }, owner, s.code⟩ c (some (p, code))).serialCpu =
      s.serialCpu := by
    funext c'
    by_cases hc' : c' = c
    · subst hc'
      rw [serialCpu_some (Function.update_self _ _ _) hne, hc]
      rfl
    · exact serialCpu_congr (Function.update_of_ne hc' _ _) rfl
  rw [serial, serial, hcpu]
  rfl

/-- Once an instruction has returned, its CPU holds the process in the machine. -/
theorem Smp.serial_return {m : Krnl} (krnl : Krnl) (owner : Option Nat) {a : Int} :
    (Smp.setCode ⟨{ s.sys with krnl }, owner, s.code⟩ c (some (p, .done a))).serial m =
      (s.serial m).setCpu c (.holding p) := by
  have hcpu : (Smp.setCode ⟨{ s.sys with krnl }, owner, s.code⟩ c
      (some (p, .done a))).serialCpu = Function.update s.serialCpu c (.holding p) := by
    funext c'
    by_cases hc' : c' = c
    · subst hc'
      rw [serialCpu_done (Function.update_self _ _ _), Function.update_self]
    · rw [Function.update_of_ne hc']
      exact serialCpu_congr (Function.update_of_ne hc' _ _) rfl
  rw [serial, hcpu]
  rfl

/-- In the machine it has held it since. -/
theorem Smp.serial_done {m : Krnl} {a : Int} (hc : s.code c = some (p, .done a)) :
    ({ s with sys := s.sys.setCpu c (.holding p) }.setCode c none).serial m = s.serial m := by
  have hcpu : ({ s with sys := s.sys.setCpu c (.holding p) }.setCode c none).serialCpu =
      s.serialCpu := by
    funext c'
    by_cases hc' : c' = c
    · subst hc'
      rw [serialCpu_none (Function.update_self _ _ _), serialCpu_done hc]
      exact Function.update_self _ _ _
    · exact serialCpu_congr (Function.update_of_ne hc' _ _) (Function.update_of_ne hc' _ _)
  rw [serial, serial, hcpu]
  rfl

end SerialCpu

/-! ## Outside of instructions

Both make the step, whatever has become of the memory of a process that a CPU is running. -/

/-- A change of the kernel that no step outside of instructions takes notice of. -/
structure Blind (φ : Krnl → Krnl) (k : Krnl) : Prop where
  sched : (φ k).sched = k.sched
  mm : (φ k).mm = k.mm
  isSome : ∀ p, ((φ k).ownMm p).isSome = (k.ownMm p).isSome
  setSched : ∀ sched, φ { k with sched } = { φ k with sched }
  setMm : ∀ mm, φ { k with mm } = { φ k with mm }
  create : ∀ p mm, k.ownMm p = none →
    φ { k.setMm p mm with mm := some p } = { (φ k).setMm p mm with mm := some p }

theorem Blind.id (k : Krnl) : Blind (fun k => k) k :=
  ⟨rfl, rfl, fun _ => rfl, fun _ => rfl, fun _ => rfl, fun _ _ _ => rfl⟩

theorem Blind.onto {p : Pid} {m k : Krnl} (hm : (m.ownMm p).isSome) (hk : (k.ownMm p).isSome) :
    Blind (procFrame.onto p m) k where
  sched := rfl
  mm := rfl
  isSome := by
    intro q
    by_cases hq : q = p
    · subst hq
      rw [Access.onto_ownMm, hm, hk]
    · rw [Access.onto_ownMm_of_ne _ _ hq]
  setSched := fun _ => rfl
  setMm := fun _ => rfl
  create := by
    intro q mm hnone
    have hq : q ≠ p := by
      rintro rfl
      rw [hnone] at hk
      cases hk
    simp only [Krnl.setMm, procFrame]
    rw [Function.update_comm hq]

/-- The machine beside the CPUs makes every step they make outside of instructions. -/
theorem serial_sys {s : Smp} {sys : Sys} {e : Event} {φ : Krnl → Krnl}
    (hφ : Blind φ s.sys.krnl) (hcode : ∀ c, (∀ p, s.sys.cpu c ≠ .restored p) → s.code c = none)
    (he : ∀ c ins junk, e ≠ .run c ins junk) (hs : step s.sys e = some sys) :
    step (s.serial (φ s.sys.krnl)) e = some (({ s with sys } : Smp).serial (φ sys.krnl)) := by
  have hsched : (s.serial (φ s.sys.krnl)).krnl.sched = s.sys.krnl.sched := hφ.sched
  have hidle : ∀ {c}, s.sys.cpu c = .idle → s.code c = none ∧ s.serialCpu c = .idle := by
    intro c hc
    have hnone := hcode c fun p hr => Cpu.noConfusion (hc.symm.trans hr)
    exact ⟨hnone, (Smp.serialCpu_none hnone).trans hc⟩
  have hholding : ∀ {c p}, s.sys.cpu c = .holding p →
      s.code c = none ∧ s.serialCpu c = .holding p := by
    intro c p hc
    have hnone := hcode c fun p hr => Cpu.noConfusion (hc.symm.trans hr)
    exact ⟨hnone, (Smp.serialCpu_none hnone).trans hc⟩
  -- the machine after a step that gives CPU `c` something else to hold
  have hset : ∀ {c cpu} (sys' : Sys) {krnl : Krnl}, s.code c = none →
      sys'.cpu = Function.update s.sys.cpu c cpu → krnl = φ sys'.krnl →
      ({ sys' with krnl, cpu := Function.update s.serialCpu c cpu } : Sys) =
        ({ s with sys := sys' } : Smp).serial (φ sys'.krnl) := by
    rintro c cpu sys' _ hnone hcpu rfl
    rw [Smp.serial, Smp.serialCpu_setCpu hnone hcpu]
  cases e with
  | create p prio symrgtbl =>
      obtain ⟨hpend, hnone, rfl⟩ := step_create hs
      have hnone' : (φ s.sys.krnl).ownMm p = none := by
        rw [← Option.not_isSome_iff_eq_none, hφ.isSome, hnone]
        exact Bool.false_ne_true
      rw [step_create_of (s := s.serial (φ s.sys.krnl)) hpend hnone']
      simp only [Smp.serial]
      rw [hφ.create p _ hnone]
      rfl
  | add =>
      obtain ⟨p, sched, hpend, hadd, rfl⟩ := step_add hs
      rw [step_add_of (s := s.serial (φ s.sys.krnl)) hpend (by rw [hsched]; exact hadd)]
      exact congrArg some (congrArg (fun krnl => { s.serial krnl with
        pending := none, live := s.sys.live ++ [p] }) (hφ.setSched sched).symm)
  | get c =>
      obtain ⟨hc, hcases⟩ := step_get hs
      obtain ⟨hnone, hcpu⟩ := hidle hc
      obtain ⟨hget, rfl⟩ | ⟨p, hget, rfl⟩ := hcases
      · rw [step_get_none (s := s.serial (φ s.sys.krnl)) hcpu
          (by rw [hsched]; exact Prod.ext rfl hget)]
        exact congrArg some (congrArg s.serial (hφ.setSched _).symm)
      · rw [step_get_some (s := s.serial (φ s.sys.krnl)) hcpu
          (by rw [hsched]; exact Prod.ext rfl hget)]
        exact congrArg some (hset ((s.sys.setSched _).setCpu c (.holding p)) hnone rfl
          (hφ.setSched _).symm)
  | put c =>
      obtain ⟨p, sched, hc, hput, rfl⟩ := step_put hs
      obtain ⟨hnone, hcpu⟩ := hholding hc
      rw [step_put_of (s := s.serial (φ s.sys.krnl)) hcpu (by rw [hsched]; exact hput)]
      exact congrArg some (hset ((s.sys.setSched sched).setCpu c .idle) hnone rfl
        (hφ.setSched _).symm)
  | finish c =>
      obtain ⟨p, hc, rfl⟩ := step_finish hs
      obtain ⟨hnone, hcpu⟩ := hholding hc
      rw [step_finish_of (s := s.serial (φ s.sys.krnl)) hcpu, hsched]
      exact congrArg some (hset { (s.sys.setSched _).setCpu c .idle with
        live := s.sys.live.erase p } hnone rfl (hφ.setSched _).symm)
  | restore c =>
      obtain ⟨p, hc, rfl⟩ := step_restore hs
      obtain ⟨hnone, hcpu⟩ := hholding hc
      rw [step_restore_of (s := s.serial (φ s.sys.krnl)) hcpu]
      have hmm : (if ((φ s.sys.krnl).ownMm p).isSome then some p else (φ s.sys.krnl).mm) =
          if (s.sys.krnl.ownMm p).isSome then some p else s.sys.krnl.mm := by
        rw [hφ.isSome, hφ.mm]
      refine congrArg some (hset (Sys.setCpu { s.sys with krnl := { s.sys.krnl with
        mm := if (s.sys.krnl.ownMm p).isSome then some p else s.sys.krnl.mm } } c (.restored p))
        hnone rfl ?_)
      refine Eq.trans ?_ (hφ.setMm _).symm
      rw [← hmm]
      rfl
  | run c ins junk => exact absurd rfl (he c ins junk)

/-- Whether a process is found depends on its being listed alone. -/
theorem findCaller_congr {k k' : Krnl} {p : Pid}
    (h : p ∈ k'.sched.runningList.toList ↔ p ∈ k.sched.runningList.toList) :
    findCaller k' p = findCaller k p := by
  rw [findCaller_eq, findCaller_eq, if_congr h rfl rfl]

/-- A step outside of instructions leaves alone what a process that a CPU is running has, and
whether it is on `running_list`. -/
theorem step_frame {s s' : Sys} {e : Event} {c : Nat} {p : Pid} (hpl : Placed s)
    (hc : s.cpu c = .restored p) (he : ∀ c ins junk, e ≠ .run c ins junk)
    (hs : step s e = some s') :
    procFrame.onto p s.krnl s'.krnl = s'.krnl ∧
    findCaller s'.krnl p = findCaller s.krnl p := by
  have hheld : s.Held c p := by rw [Sys.Held, hc]; rfl
  have hsame : ∀ sched, procFrame.onto p s.krnl { s.krnl with sched } = { s.krnl with sched } :=
    fun sched => by simp only [procFrame, Function.update_eq_self]
  cases e with
  | create q prio symrgtbl =>
      obtain ⟨_, hnone, rfl⟩ := step_create hs
      have hq : p ≠ q := by
        rintro rfl
        have hsome := hpl.created p (hpl.held_live c p hheld)
        rw [hnone] at hsome
        exact Bool.false_ne_true hsome
      refine ⟨?_, rfl⟩
      simp only [procFrame, Krnl.setMm]
      rw [Function.update_comm hq.symm, Function.update_eq_self]
  | add =>
      obtain ⟨q, sched, _, hadd, rfl⟩ := step_add hs
      refine ⟨hsame sched, findCaller_congr ?_⟩
      show p ∈ sched.runningList.toList ↔ _
      rw [(enqueueMlq_ok hadd).2.1]
  | get c' =>
      obtain ⟨_, hcases⟩ := step_get hs
      have hlist : p ∈ (getProc s.krnl.sched).1.runningList.toList ↔
          p ∈ s.krnl.sched.runningList.toList := by
        rcases getProc_cases s.krnl.sched with ⟨hget, _⟩ | ⟨i, q, rest, _, hready, _, _, _, hrun⟩
        · rw [hget]
        · have hq : p ≠ q := by
            rintro rfl
            refine hpl.apart c p hheld i ?_
            rw [Sys.ready, hready]
            exact List.mem_cons_self
          rw [hrun, QueueT.toList_enqueue]
          split
          · rw [List.mem_append, List.mem_singleton, or_iff_left hq]
          · exact Iff.rfl
      obtain ⟨_, rfl⟩ | ⟨q, _, rfl⟩ := hcases
      · exact ⟨hsame _, findCaller_congr hlist⟩
      · exact ⟨hsame _, findCaller_congr hlist⟩
  | put c' =>
      obtain ⟨q, sched, _, hput, rfl⟩ := step_put hs
      refine ⟨hsame sched, findCaller_congr ?_⟩
      show p ∈ sched.runningList.toList ↔ _
      rw [(enqueueMlq_ok hput).2.1]
  | finish c' =>
      obtain ⟨q, hc', rfl⟩ := step_finish hs
      have hq : p ≠ q := by
        rintro rfl
        obtain rfl := hpl.hand c c' p hheld (by rw [Sys.Held, hc']; rfl)
        exact Cpu.noConfusion (hc.symm.trans hc')
      refine ⟨hsame _, findCaller_congr ?_⟩
      show p ∈ (removeProc s.krnl.sched q).runningList.toList ↔ _
      rw [removeProc_runningList, List.mem_erase_of_ne hq]
  | restore c' =>
      obtain ⟨q, _, rfl⟩ := step_restore hs
      refine ⟨?_, rfl⟩
      simp only [procFrame, Sys.setCpu, Function.update_eq_self]
  | run c' ins junk => exact absurd rfl (he c' ins junk)

/-! ## The simulation -/

/-- What `tick` does, by the code that the CPU runs. -/
theorem tick_cases {s s' : Smp} {c : Nat} (hs : tick s c = some s') :
    (∃ p a, s.code c = some (p, .done a) ∧
      s' = { s with sys := s.sys.setCpu c (.holding p) }.setCode c none) ∨
    (∃ p n, s.code c = some (p, .acquire n) ∧ s.owner = none ∧
      s' = { s with owner := some c }.setCode c (some (p, n))) ∨
    (∃ p n, s.code c = some (p, .release n) ∧ s.owner = some c ∧
      s' = { s with owner := none }.setCode c (some (p, n))) ∨
    (∃ p site f n krnl, s.code c = some (p, .access site f n) ∧ f s.sys.krnl = .ok krnl ∧
      s' = { s with sys := { s.sys with krnl } }.setCode c (some (p, n s.sys.krnl))) := by
  rw [tick] at hs
  split at hs
  · cases hs
  · rename_i p a hc
    exact Or.inl ⟨p, a, hc, (Option.some.inj hs).symm⟩
  · cases hs
  · rename_i p n hc
    split at hs
    · rename_i hfree
      exact Or.inr (Or.inl ⟨p, n, hc, hfree, (Option.some.inj hs).symm⟩)
    · cases hs
  · rename_i p n hc
    split at hs
    · rename_i hheld
      exact Or.inr (Or.inr (Or.inl ⟨p, n, hc, hheld, (Option.some.inj hs).symm⟩))
    · cases hs
  · rename_i p site f n hc
    split at hs
    · cases hs
    · rename_i krnl hf
      exact Or.inr (Or.inr (Or.inr ⟨p, site, f, n, krnl, hc, hf, (Option.some.inj hs).symm⟩))

/-- CPU `c` runs an instruction of `p` that goes on with `n` once it has the lock. -/
def Traced.Begun (t : Traced) (c : Nat) (p : Pid) (n : Prog Int) : Prop :=
  ∃ ins junk, t.ins c = some (ins, junk) ∧ Access.exec p ins junk = .acquire n ∧
    n.Framed procFrame p

/-- The machine beside the CPUs has the kernel `m`: theirs, or behind it by what the CPU that has
the lock has done. -/
structure Serial (t : Traced) (m : Krnl) : Prop where
  wf : t.smp.Wf
  once : ∀ c p code, t.smp.code c = some (p, code) →
    code.Once (decide (t.smp.owner = some c))
  waiting : ∀ c p n, t.smp.code c = some (p, .acquire n) → t.Begun c p n
  free : t.smp.owner = none → m = t.smp.sys.krnl
  held : ∀ c p code, t.smp.owner = some c → t.smp.code c = some (p, code) →
    (m.ownMm p).isSome ∧ ∃ n, t.Begun c p n ∧ Behind procFrame p n code m t.smp.sys.krnl

theorem Serial.start {sys : Sys} (hw : (Smp.start sys).Wf) : Serial (.start sys) sys.krnl where
  wf := hw
  once := fun _ _ _ hc => nomatch hc
  waiting := fun _ _ _ hc => nomatch hc
  free := fun _ => rfl
  held := fun _ _ _ ho => nomatch ho

section Step
variable {t t' : Traced} {m m' : Krnl} {c : Nat} {p : Pid} {code code' : Prog Int}

/-- Only the CPU that has the lock makes accesses. -/
theorem Serial.ok (h : Serial t m) (e : SmpEvent) : t.smp.Ok e := by
  cases e with
  | sys e => trivial
  | begin c ins junk => trivial
  | tick c =>
      rw [Smp.Ok]
      split
      · rename_i p site f n hc
        exact Or.inl (of_decide_eq_true (h.once c p _ hc).1)
      · trivial

theorem Serial.restored (h : Serial t m) (hc : t.smp.code c = some (p, code)) :
    t.smp.sys.cpu c = .restored p := h.wf.restored c p code hc

theorem Serial.isSome (h : Serial t m) (hc : t.smp.code c = some (p, code)) :
    (t.smp.sys.krnl.ownMm p).isSome := by
  refine h.wf.placed.created p (h.wf.placed.held_live c p ?_)
  rw [Sys.Held, h.restored hc]
  rfl

theorem Serial.sys {e : Event} {smp : Smp} {log : List Event} (h : Serial t m)
    (hs : smpStep t.smp (.sys e) = some smp) :
    ∃ m', step (t.smp.serial m) e = some (smp.serial m') ∧ Serial ⟨smp, t.ins, log⟩ m' := by
  have hwf := h.wf.step (h.ok _) hs
  obtain ⟨he, sys, hsys, rfl⟩ := smpStep_sys hs
  have hcode : ∀ c, (∀ p, t.smp.sys.cpu c ≠ .restored p) → t.smp.code c = none := by
    intro c hne
    cases hc : t.smp.code c with
    | none => rfl
    | some r => exact absurd (h.restored hc) (hne r.1)
  rcases Option.eq_none_or_eq_some t.smp.owner with howner | ⟨c, howner⟩
  · obtain rfl := h.free howner
    refine ⟨sys.krnl, serial_sys (Blind.id _) hcode he hsys, hwf, h.once, h.waiting,
      fun _ => rfl, fun c _ _ ho => ?_⟩
    cases howner.symm.trans ho
  · obtain ⟨⟨p, code⟩, hc⟩ := Option.isSome_iff_exists.mp (h.wf.threads.owner c howner)
    obtain ⟨hsome, n, hbegun, hbehind⟩ := h.held c p code howner hc
    obtain ⟨hpart, hseen⟩ := step_frame h.wf.placed (h.restored hc) he hsys
    have hm : procFrame.onto p m t.smp.sys.krnl = m := by
      rw [← hbehind.part, procFrame.onto_right, procFrame.onto_self]
    have hstep := serial_sys (Blind.onto hsome (h.isSome hc)) hcode he hsys
    rw [hm] at hstep
    refine ⟨_, hstep, hwf, h.once, h.waiting, fun ho => ?_, fun c' p' code' ho hc' => ?_⟩
    · cases howner.symm.trans ho
    · obtain rfl := Option.some.inj (howner.symm.trans ho)
      cases hc.symm.trans hc'
      refine ⟨?_, n, hbegun, hbehind.env hpart hseen⟩
      rw [Access.onto_ownMm]
      exact hsome

/-- The CPUs after CPU `c` went on with `code'`, with the lock or having given it back. -/
theorem Serial.goOn (h : Serial t m) (hwf : t'.smp.Wf) (hins : t'.ins = t.ins)
    (hcode : t'.smp.code = Function.update t.smp.code c (some (p, code')))
    (hmine : ∀ c', t'.smp.owner = some c' → c' = c)
    (hother : ∀ c', t.smp.owner = some c' → c' = c)
    (honce : code'.Once (decide (t'.smp.owner = some c))) (hwait : ∀ n, code' ≠ .acquire n)
    (hfree : t'.smp.owner = none → m' = t'.smp.sys.krnl)
    (hheld : t'.smp.owner = some c →
      (m'.ownMm p).isSome ∧ ∃ n, t.Begun c p n ∧ Behind procFrame p n code' m' t'.smp.sys.krnl) :
    Serial t' m' where
  wf := hwf
  once := by
    intro c' p' code₁ hc'
    rw [hcode] at hc'
    rcases update_some hc' with ⟨rfl, heq⟩ | ⟨hne, hold⟩
    · cases heq
      exact honce
    · have hoff := h.once c' p' code₁ hold
      rw [decide_eq_false fun ho => hne (hother c' ho)] at hoff
      rw [decide_eq_false fun ho => hne (hmine c' ho)]
      exact hoff
  waiting := by
    intro c' p' n hc'
    rw [hcode] at hc'
    rcases update_some hc' with ⟨rfl, heq⟩ | ⟨_, hold⟩
    · cases heq
      exact absurd rfl (hwait n)
    · rw [Traced.Begun, hins]
      exact h.waiting c' p' n hold
  free := hfree
  held := by
    intro c' p' code₁ ho hc'
    obtain rfl := hmine c' ho
    rw [hcode, Function.update_self] at hc'
    cases hc'
    rw [show t'.Begun = t.Begun by unfold Traced.Begun; rw [hins]]
    exact hheld ho

/-- An instruction that takes no lock is over in the machine as soon as it is begun. -/
theorem Serial.begin {ins : Inst} {junk : Byte} {smp : Smp} {log : List Event} (h : Serial t m)
    (hlocked : ins.Locked) (hs : smpStep t.smp (.begin c ins junk) = some smp) :
    Lts.Reaches step (t.smp.serial m) (t.commit smp.code (.begin c ins junk)) (smp.serial m) ∧
    Serial ⟨smp, t.insAfter (.begin c ins junk), log⟩ m := by
  have hwf := h.wf.step (h.ok _) hs
  obtain ⟨p, hcpu, hnone, rfl⟩ := smpStep_begin hs
  have howner : t.smp.owner ≠ some c := by
    intro ho
    have hsome := h.wf.threads.owner c ho
    rw [show t.smp.threads.code c = none from hnone] at hsome
    exact nomatch hsome
  have hother : ∀ c' p' n, c' ≠ c → t.Begun c' p' n →
      Traced.Begun ⟨t.smp.setCode c (some (p, Access.exec p ins junk)),
        t.insAfter (.begin c ins junk), log⟩ c' p' n := by
    rintro c' p' n hne ⟨ins', junk', hins, hexec, hframed⟩
    exact ⟨ins', junk', (Function.update_of_ne hne _ _).trans hins, hexec, hframed⟩
  have hstay : ∀ {code : Prog Int}, (∀ a, code ≠ .done a) →
      (t.smp.setCode c (some (p, code))).serial m = t.smp.serial m := fun hne =>
    Smp.serial_goOn t.smp.sys.krnl t.smp.owner (Smp.serialCpu_none hnone) hne
  constructor
  · rw [Traced.commit, show (t.smp.setCode c (some (p, Access.exec p ins junk))).code c =
      some (p, Access.exec p ins junk) from Function.update_self _ _ _]
    cases hexec : Access.exec p ins junk with
    | done a =>
        have hsolo : exec m p ins junk = .ok (m, a) := by
          rw [← Access.exec_solo, hexec]
          rfl
        refine .snoc (Event.run c ins junk) .nil trivial ?_
        rw [step_run_of (s := t.smp.serial m) ((Smp.serialCpu_none hnone).trans hcpu) hsolo]
        exact congrArg some (Smp.serial_return t.smp.sys.krnl t.smp.owner).symm
    | _ =>
        rw [hstay (fun a hd => by cases hd)]
        exact .nil
  · refine ⟨hwf, fun c' p' code hc' => ?_, fun c' p' n hc' => ?_, h.free,
      fun c' p' code ho hc' => ?_⟩
    · rcases update_some hc' with ⟨rfl, heq⟩ | ⟨_, hold⟩
      · cases heq
        show Code.Once (decide (t.smp.owner = some c')) _
        rw [decide_eq_false howner]
        exact Access.exec_once junk hlocked
      · exact h.once c' p' code hold
    · rcases update_some hc' with ⟨rfl, heq⟩ | ⟨hne, hold⟩
      · obtain ⟨rfl, hexec⟩ := Prod.mk.inj heq
        have hframed := Access.exec_framed (p := p) ins junk hlocked.1
        rw [hexec] at hframed
        exact ⟨ins, junk, Function.update_self _ _ _, hexec, hframed⟩
      · exact hother c' p' n hne (h.waiting c' p' n hold)
    · have hne : c' ≠ c := by
        rintro rfl
        exact howner ho
      have hold : t.smp.code c' = some (p', code) := by
        rw [← hc']
        exact (Function.update_of_ne hne _ _).symm
      obtain ⟨hsome, n, hbegun, hbehind⟩ := h.held c' p' code ho hold
      exact ⟨hsome, n, hother c' p' n hne hbegun, hbehind⟩

/-- A step of a CPU: the machine moves when the lock is given back, and then by the whole
instruction. -/
theorem Serial.tick {smp : Smp} {log : List Event} (h : Serial t m)
    (hs : smpStep t.smp (.tick c) = some smp) :
    ∃ m', Lts.Reaches step (t.smp.serial m) (t.commit smp.code (.tick c)) (smp.serial m') ∧
      Serial ⟨smp, t.ins, log⟩ m' := by
  have hwf := h.wf.step (h.ok _) hs
  obtain ⟨p, a, hc, rfl⟩ | ⟨p, n, hc, hfree, rfl⟩ | ⟨p, n, hc, hheld, rfl⟩ |
    ⟨p, site, f, n, krnl, hc, hf, rfl⟩ := tick_cases hs
  · -- the instruction returns; in the machine it has returned before
    refine ⟨m, ?_, hwf, fun c' p' code hc' => ?_, fun c' p' n hc' => ?_, h.free,
      fun c' p' code ho hc' => ?_⟩
    · rw [Traced.commit, hc, Smp.serial_done hc]
      exact .nil
    · exact h.once c' p' code (update_none hc').2
    · exact h.waiting c' p' n (update_none hc').2
    · exact h.held c' p' code ho (update_none hc').2
  · -- the lock is taken: from here on the machine is behind
    obtain rfl := h.free hfree
    have honce := (h.once c p _ hc).2
    have hbegun := h.waiting c p n hc
    have hne : ∀ c', t.smp.owner ≠ some c' := fun c' ho => nomatch hfree.symm.trans ho
    refine ⟨t.smp.sys.krnl, ?_, h.goOn hwf rfl rfl (fun c' ho => (Option.some.inj ho).symm)
      (fun c' ho => absurd ho (hne c')) ?_ ?_ (fun ho => nomatch ho) fun _ => ?_⟩
    · rw [Traced.commit, hc, Smp.serial_goOn t.smp.sys.krnl (some c)
        (Smp.serialCpu_some hc (fun a hd => by cases hd)) honce.not_done]
      exact .nil
    · show n.Once (decide (some c = some c))
      rw [decide_eq_true rfl]
      exact honce
    · rintro n' rfl
      cases honce.1
    · obtain ⟨_, _, _, _, hframed⟩ := hbegun
      exact ⟨h.isSome hc, n, h.waiting c p n hc, .start hframed _⟩
  · -- the lock is given back: the machine runs the instruction
    obtain ⟨_, a, rfl⟩ := h.once c p _ hc
    obtain ⟨_, n, ⟨ins, junk, hins, hexec, _⟩, hbehind⟩ := h.held c p _ hheld hc
    have hsolo : exec m p ins junk = .ok (t.smp.sys.krnl, a) := by
      rw [← Access.exec_solo, hexec]
      exact hbehind.release
    have hcpu : (t.smp.serial m).cpu c = .restored p :=
      (Smp.serialCpu_some hc (fun a hd => by cases hd)).trans (h.restored hc)
    refine ⟨t.smp.sys.krnl, ?_, h.goOn hwf rfl rfl (fun _ ho => nomatch ho)
      (fun c' ho => (Option.some.inj (hheld.symm.trans ho)).symm) rfl (fun n => nofun)
      (fun _ => rfl) (fun ho => nomatch ho)⟩
    rw [Traced.commit, hc, hins]
    refine .snoc (Event.run c ins junk) .nil trivial ?_
    rw [step_run_of hcpu hsolo]
    exact congrArg some (Smp.serial_return t.smp.sys.krnl none).symm
  · -- an access under the lock
    obtain ⟨hmine, honce⟩ := h.once c p _ hc
    have hheld := of_decide_eq_true hmine
    obtain ⟨hsome, n₀, hbegun, hbehind⟩ := h.held c p _ hheld hc
    have hone : ∀ c', t.smp.owner = some c' → c' = c := fun c' ho =>
      (Option.some.inj (hheld.symm.trans ho)).symm
    refine ⟨m, ?_, h.goOn hwf rfl rfl hone hone ?_ (fun n' heq => ?_) (fun ho => ?_)
      (fun _ => ⟨hsome, n₀, hbegun, hbehind.access hf⟩)⟩
    · rw [Traced.commit, hc, Smp.serial_goOn krnl t.smp.owner
        (Smp.serialCpu_some hc (fun a hd => by cases hd)) (honce _).not_done]
      exact .nil
    · show Code.Once (decide (t.smp.owner = some c)) _
      rw [hmine]
      exact honce _
    · have hacq := honce t.smp.sys.krnl
      rw [heq] at hacq
      cases hacq.1
    · cases hheld.symm.trans ho

theorem Serial.step {e : SmpEvent} (h : Serial t m) (hlocked : e.Locked)
    (hs : tracedStep t e = some t') :
    ∃ m', Lts.Reaches SimpleOs.step (t.smp.serial m) (t.commit t'.smp.code e)
      (t'.smp.serial m') ∧ Serial t' m' := by
  obtain ⟨smp, hsmp, rfl⟩ := Option.map_eq_some_iff.mp hs
  cases e with
  | sys e =>
      obtain ⟨m', hstep, hserial⟩ := h.sys hsmp
      exact ⟨m', .snoc e .nil trivial hstep, hserial⟩
  | begin c ins junk => exact ⟨m, h.begin hlocked hsmp⟩
  | tick c => exact h.tick hsmp

end Step

/-! ## Nothing lost, nothing twice -/

/-- The instruction, if it is one of CPU `c`. -/
def Event.instOf (c : Nat) : Event → Option (Inst × Byte)
  | .run c' ins junk => if c' = c then some (ins, junk) else none
  | _ => none

def SmpEvent.instOf (c : Nat) : SmpEvent → Option (Inst × Byte)
  | .begin c' ins junk => if c' = c then some (ins, junk) else none
  | _ => none

/-- The event, if it is not the run of an instruction. -/
def Event.outside : Event → Option Event
  | .run _ _ _ => none
  | e => some e

def SmpEvent.outside : SmpEvent → Option Event
  | .sys e => e.outside
  | _ => none

/-- The instruction of CPU `c` that the machine has not run yet. -/
def Traced.unfinished (t : Traced) (c : Nat) : List (Inst × Byte) :=
  match t.smp.code c with
  | none | some (_, .done _) => []
  | _ => (t.ins c).toList

section Account
variable {t t' : Traced} {m : Krnl} {c : Nat} {p : Pid} {code : Prog Int}

theorem Traced.unfinished_none (h : t.smp.code c = none) : t.unfinished c = [] := by
  rw [unfinished, h]

theorem Traced.unfinished_done {a : Int} (h : t.smp.code c = some (p, .done a)) :
    t.unfinished c = [] := by
  rw [unfinished, h]

theorem Traced.unfinished_some (h : t.smp.code c = some (p, code)) (hne : ∀ a, code ≠ .done a) :
    t.unfinished c = (t.ins c).toList := by
  rw [unfinished, h]
  cases code with
  | done a => exact absurd rfl (hne a)
  | _ => rfl

theorem Traced.unfinished_congr (hcode : t'.smp.code c = t.smp.code c)
    (hins : t'.ins c = t.ins c) : t'.unfinished c = t.unfinished c := by
  rw [unfinished, unfinished, hcode, hins]

theorem Event.instOf_self {ins : Inst} {junk : Byte} :
    Event.instOf c (.run c ins junk) = some (ins, junk) := if_pos rfl

theorem Event.instOf_other {c' : Nat} {ins : Inst} {junk : Byte} (hne : c' ≠ c) :
    Event.instOf c (.run c' ins junk) = none := if_neg hne

/-- A step of one CPU completes no instruction of another. -/
theorem Traced.commit_begin_other {code : Nat → Option (Pid × Prog Int)} {c' : Nat} {ins : Inst}
    {junk : Byte} (hne : c' ≠ c) :
    (t.commit code (.begin c' ins junk)).filterMap (Event.instOf c) = [] := by
  rw [commit]
  split
  · rw [List.filterMap_cons_none (Event.instOf_other hne), List.filterMap_nil]
  · rfl

theorem Traced.commit_tick_other {code : Nat → Option (Pid × Prog Int)} {c' : Nat}
    (hne : c' ≠ c) : (t.commit code (.tick c')).filterMap (Event.instOf c) = [] := by
  rw [commit]
  split
  · rw [List.filterMap_cons_none (Event.instOf_other hne), List.filterMap_nil]
  · rfl

/-- What CPU `c` has begun and the machine not run yet, before and after a step. -/
theorem Serial.account {e : SmpEvent} (h : Serial t m) (hs : tracedStep t e = some t') (c : Nat) :
    (t.commit t'.smp.code e).filterMap (Event.instOf c) ++ t'.unfinished c =
      t.unfinished c ++ (e.instOf c).toList := by
  obtain ⟨smp, hsmp, rfl⟩ := Option.map_eq_some_iff.mp hs
  cases e with
  | sys e =>
      obtain ⟨he, sys, _, rfl⟩ := smpStep_sys hsmp
      have hnone : Event.instOf c e = none := by
        cases e with
        | run c' ins junk => exact absurd rfl (he c' ins junk)
        | _ => rfl
      show [e].filterMap (Event.instOf c) ++ t.unfinished c = t.unfinished c ++ []
      rw [List.filterMap_cons_none hnone, List.filterMap_nil, List.nil_append, List.append_nil]
  | begin c' ins junk =>
      obtain ⟨p, _, hnone, rfl⟩ := smpStep_begin hsmp
      by_cases hc : c' = c
      · subst hc
        have hcode : (t.smp.setCode c' (some (p, Access.exec p ins junk))).code c' =
            some (p, Access.exec p ins junk) := Function.update_self _ _ _
        rw [Traced.unfinished_none hnone, SmpEvent.instOf, if_pos rfl, Traced.commit, hcode]
        cases Access.exec p ins junk with
        | done a =>
            rw [Traced.unfinished_done (Function.update_self _ _ _),
              List.filterMap_cons_some Event.instOf_self]
            rfl
        | _ =>
            rw [Traced.unfinished_some (Function.update_self _ _ _) (fun a hd => by cases hd)]
            exact congrArg Option.toList
              (Function.update_self c' (some (ins, junk)) t.ins)
      · rw [Traced.commit_begin_other hc, SmpEvent.instOf, if_neg hc, List.nil_append]
        rw [Option.toList_none, List.append_nil]
        exact Traced.unfinished_congr (Function.update_of_ne (Ne.symm hc) _ _)
          (Function.update_of_ne (Ne.symm hc) _ _)
  | tick c' =>
      show _ = t.unfinished c ++ []
      rw [List.append_nil]
      by_cases hc : c' = c
      · subst hc
        obtain ⟨p, a, hc, rfl⟩ | ⟨p, n, hc, _, rfl⟩ | ⟨p, n, hc, hheld, rfl⟩ |
          ⟨p, site, f, n, krnl, hc, _, rfl⟩ := tick_cases hsmp
        · rw [Traced.commit, hc, Traced.unfinished_done hc]
          exact Traced.unfinished_none (Function.update_self _ _ _)
        · rw [Traced.commit, hc, Traced.unfinished_some hc (fun a hd => by cases hd)]
          exact Traced.unfinished_some (Function.update_self _ _ _) (h.once c' p _ hc).2.not_done
        · obtain ⟨_, a, rfl⟩ := h.once c' p _ hc
          obtain ⟨_, _, ⟨ins, junk, hins, _, _⟩, _⟩ := h.held c' p _ hheld hc
          rw [Traced.commit, hc, hins, Traced.unfinished_some hc (fun a hd => by cases hd), hins,
            Traced.unfinished_done (Function.update_self _ _ _), List.append_nil,
            List.filterMap_cons_some Event.instOf_self]
          rfl
        · rw [Traced.commit, hc, Traced.unfinished_some hc (fun a hd => by cases hd)]
          exact Traced.unfinished_some (Function.update_self _ _ _)
            ((h.once c' p _ hc).2 _).not_done
      · rw [Traced.commit_tick_other hc, List.nil_append]
        refine Traced.unfinished_congr ?_ rfl
        obtain ⟨_, _, _, rfl⟩ | ⟨_, _, _, _, _, _, rfl, _⟩ := tick_sys hsmp
        · exact Function.update_of_ne (Ne.symm hc) _ _
        · exact Function.update_of_ne (Ne.symm hc) _ _

/-- The steps outside of instructions, before and after a step. -/
theorem Traced.account_outside {e : SmpEvent} (hs : tracedStep t e = some t') :
    (t.commit t'.smp.code e).filterMap Event.outside = e.outside.toList := by
  cases e with
  | sys e =>
      show [e].filterMap Event.outside = e.outside.toList
      cases e <;> rfl
  | begin c ins junk =>
      rw [commit]
      split
      · rfl
      · rfl
  | tick c =>
      rw [commit]
      split
      · rfl
      · rfl

end Account

/-! ## In every run -/

/-- What a run of the CPUs comes to. -/
structure Serializes (sys : Sys) (es : List SmpEvent) (t : Traced) (m : Krnl) : Prop where
  serial : Serial t m
  reaches : Lts.Reaches step sys t.log (t.smp.serial m)
  insts : ∀ c, t.log.filterMap (Event.instOf c) ++ t.unfinished c =
    es.filterMap (SmpEvent.instOf c)
  outside : t.log.filterMap Event.outside = es.filterMap SmpEvent.outside

theorem Serializes.snoc {sys : Sys} {es : List SmpEvent} {t t' : Traced} {m : Krnl}
    {e : SmpEvent} (h : Serializes sys es t m) (hlocked : e.Locked)
    (hs : tracedStep t e = some t') : ∃ m', Serializes sys (es ++ [e]) t' m' := by
  obtain ⟨m', hrun, hserial⟩ := h.serial.step hlocked hs
  have hlog : t'.log = t.log ++ t.commit t'.smp.code e := by
    obtain ⟨smp, _, rfl⟩ := Option.map_eq_some_iff.mp hs
    rfl
  refine ⟨m', hserial, ?_, fun c => ?_, ?_⟩
  · rw [hlog]
    exact h.reaches.append hrun
  · rw [hlog, List.filterMap_append, List.append_assoc, h.serial.account hs c,
      ← List.append_assoc, h.insts, List.filterMap_append]
    cases hi : e.instOf c with
    | none => rw [List.filterMap_cons_none hi]; rfl
    | some r => rw [List.filterMap_cons_some hi]; rfl
  · rw [hlog, List.filterMap_append, List.filterMap_append, h.outside,
      Traced.account_outside hs]
    cases he : e.outside with
    | none => rw [List.filterMap_cons_none he]; rfl
    | some r => rw [List.filterMap_cons_some he]; rfl

theorem Serializes.start {sys : Sys} (hw : (Smp.start sys).Wf) :
    Serializes sys [] (.start sys) sys.krnl :=
  ⟨.start hw, .nil, fun _ => rfl, rfl⟩

end SimpleOs
