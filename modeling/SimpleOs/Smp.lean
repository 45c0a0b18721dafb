/-
# `SimpleOs.Smp` — CPUs that run instructions at the same time

The machine of `Machine`, with the run of an instruction cut into the accesses of `Access`:
a CPU begins an instruction and then makes one access at a time, and between two of them the
loader and the other CPUs go on.  A CPU that wants `mmvm_lock` waits while another has it.
Left alone, it does what the one event of `Machine` does: `run_alone`.

`smp_turns` holds in every run: the lock is taken only by who does not have it, and nobody
returns with it.  `lock_discipline` needs `Smp.Ok`, since `__read` and `libsyscall` take no
lock: as long as the accesses without the lock meet `Site.Ok`, whoever changes a list or an
entry has the lock, and no frame is handed out twice.  Two growths that take none hand out one
frame twice: `frame_handed_out_twice`.
-/
import SimpleOs.Discipline
import SimpleOs.Places
import SimpleOs.Solo
import SimpleOs.Turns

namespace SimpleOs

open Mutex

/-- The machine, `mmvm_lock`, and the code that every CPU has still to run. -/
structure Smp where
  sys : Sys
  owner : Option Nat
  code : Nat → Option (Pid × Prog Int)

/-- No CPU is in the middle of anything. -/
def Smp.start (sys : Sys) : Smp where
  sys := sys
  owner := none
  code := fun _ => none

inductive SmpEvent
  /-- A step of the machine that is not the run of an instruction. -/
  | sys (e : Event)
  /-- A CPU: `run` is called. -/
  | begin (c : Nat) (ins : Inst) (junk : Byte)
  /-- A CPU: one step of the code it runs. -/
  | tick (c : Nat)

def Smp.setCode (s : Smp) (c : Nat) (code : Option (Pid × Prog Int)) : Smp :=
  { s with code := Function.update s.code c code }

/-- One step of the code that CPU `c` runs. -/
def tick (s : Smp) (c : Nat) : Option Smp :=
  match s.code c with
  | none => none
  | some (p, .done _) => some ({ s with sys := s.sys.setCpu c (.holding p) }.setCode c none)
  | some (_, .crash _) => none
  | some (p, .acquire n) =>
      if s.owner = none then some ({ s with owner := some c }.setCode c (some (p, n))) else none
  | some (p, .release n) =>
      if s.owner = some c then some ({ s with owner := none }.setCode c (some (p, n))) else none
  | some (p, .access _ f n) =>
      match f s.sys.krnl with
      | .error _ => none
      | .ok krnl => some ({ s with sys := { s.sys with krnl } }.setCode c (some (p, n s.sys.krnl)))

def smpStep (s : Smp) : SmpEvent → Option Smp
  | .sys (.run _ _ _) => none
  | .sys e => (step s.sys e).map (fun sys => { s with sys })
  | .begin c ins junk =>
      match s.sys.cpu c, s.code c with
      | .restored p, none => some (s.setCode c (some (p, Access.exec p ins junk)))
      | _, _ => none
  | .tick c => tick s c

/-- An access without the lock leaves everything that is guarded alone. -/
def Smp.Ok (s : Smp) : SmpEvent → Prop
  | .tick c =>
      match s.code c with
      | some (_, .access site _ _) => s.owner = some c ∨ site.Ok s.sys.krnl
      | _ => True
  | _ => True

instance (s : Smp) (e : SmpEvent) : Decidable (s.Ok e) :=
  match e with
  | .tick c =>
      match h : s.code c with
      | some (_, .access site _ _) =>
          decidable_of_iff (s.owner = some c ∨ site.Ok s.sys.krnl) (by simp only [Smp.Ok, h])
      | some (_, .done _) | some (_, .crash _) | some (_, .acquire _) | some (_, .release _)
      | none => isTrue (by simp only [Smp.Ok, h])
  | .sys _ | .begin _ _ _ => isTrue trivial

/-! ## The threads -/

/-- What the CPUs run. -/
def Smp.threads (s : Smp) : State Site Krnl Ub Int Pid Nat := ⟨s.sys.krnl, s.owner, s.code⟩

/-- The steps of the CPUs that `tick` makes. -/
theorem tick_step {s s' : Smp} {c : Nat} {ext : Krnl → Krnl → Prop} {ok : Site → Krnl → Prop}
    {start : State Site Krnl Ub Int Pid Nat → Pid → Prog Int → Prop} (hs : tick s c = some s')
    (hok : ∀ p site f n, s.code c = some (p, .access site f n) → s.owner ≠ some c →
      ok site s.sys.krnl) : Step ext ok start s.threads s'.threads := by
  rw [tick] at hs
  split at hs
  · exact nomatch hs
  · rename_i p a hc
    obtain rfl := Option.some.inj hs
    exact .exit hc
  · exact nomatch hs
  · rename_i p n hc
    split at hs
    · rename_i hfree
      obtain rfl := Option.some.inj hs
      exact .acquire hc hfree
    · exact nomatch hs
  · rename_i p n hc
    split at hs
    · rename_i hheld
      obtain rfl := Option.some.inj hs
      exact .release hc hheld
    · exact nomatch hs
  · rename_i p site f n hc
    split at hs
    · exact nomatch hs
    · rename_i krnl hf
      obtain rfl := Option.some.inj hs
      exact .access hc (hok p site f n hc) hf

/-- Whatever a thread does outside of an instruction leaves everything that is guarded alone. -/
theorem step_shared {s s' : Sys} {e : Event} (he : ∀ c ins junk, e ≠ .run c ins junk)
    (hs : step s e = some s') : s'.krnl.shared = s.krnl.shared := by
  cases e with
  | create p prio symrgtbl =>
      obtain ⟨_, hnone, rfl⟩ := step_create hs
      have hpart : (s.krnl.setMm p (initMm symrgtbl)).part = s.krnl.part := by
        funext q
        by_cases hq : q = p
        · subst hq
          rw [Krnl.part_of (Krnl.setMm_self _ _ _), Krnl.part, hnone, Mm.part,
            funext (initMm_pte symrgtbl)]
          rfl
        · exact Krnl.setMm_part_of_ne hq
      show (⟨_, _, (s.krnl.setMm p (initMm symrgtbl)).part⟩ : Shared) = _
      rw [hpart]
      rfl
  | add => obtain ⟨_, _, _, _, rfl⟩ := step_add hs; rfl
  | get c =>
      obtain ⟨_, ⟨_, rfl⟩ | ⟨_, _, rfl⟩⟩ := step_get hs
      · rfl
      · rfl
  | put c => obtain ⟨_, _, _, _, rfl⟩ := step_put hs; rfl
  | finish c => obtain ⟨_, _, rfl⟩ := step_finish hs; rfl
  | restore c => obtain ⟨_, _, rfl⟩ := step_restore hs; rfl
  | run c ins junk => exact absurd rfl (he c ins junk)

/-- An event of the machine is not the run of an instruction. -/
theorem smpStep_sys {s s' : Smp} {e : Event} (hs : smpStep s (.sys e) = some s') :
    (∀ c ins junk, e ≠ .run c ins junk) ∧
    ∃ sys, step s.sys e = some sys ∧ s' = { s with sys } := by
  cases e with
  | run c ins junk => exact nomatch hs
  | _ =>
      obtain ⟨sys, hsys, rfl⟩ := Option.map_eq_some_iff.mp hs
      refine ⟨?_, sys, hsys, rfl⟩
      intro _ _ _ he
      exact nomatch he

theorem smpStep_begin {s s' : Smp} {c : Nat} {ins : Inst} {junk : Byte}
    (hs : smpStep s (.begin c ins junk) = some s') :
    ∃ p, s.sys.cpu c = .restored p ∧ s.code c = none ∧
      s' = s.setCode c (some (p, Access.exec p ins junk)) := by
  rw [smpStep] at hs
  split at hs
  · rename_i p hc hnone
    exact ⟨p, hc, hnone, (Option.some.inj hs).symm⟩
  · exact nomatch hs

/-- Every step of the machine is a step of the CPUs. -/
theorem smpStep_threads {s s' : Smp} {e : SmpEvent} (ok : Site → Krnl → Prop)
    (start : State Site Krnl Ub Int Pid Nat → Pid → Prog Int → Prop)
    (hs : smpStep s e = some s')
    (hstart : ∀ c p ins junk, s.sys.cpu c = .restored p → s.code c = none →
      start s.threads p (Access.exec p ins junk))
    (hok : ∀ c p site f n, e = .tick c → s.code c = some (p, .access site f n) →
      s.owner ≠ some c → ok site s.sys.krnl) :
    Step (fun k k' => k'.shared = k.shared) ok start s.threads s'.threads := by
  cases e with
  | sys e =>
      obtain ⟨he, sys, hsys, rfl⟩ := smpStep_sys hs
      exact .env (step_shared he hsys)
  | begin c ins junk =>
      obtain ⟨p, hc, hnone, rfl⟩ := smpStep_begin hs
      exact .spawn hnone (hstart c p ins junk hc hnone)
  | tick c => exact tick_step hs fun p site f n => hok c p site f n rfl

/-! ## Alone

Between `begin` and the return, with nobody in between, the run of an instruction is the one
event of `Machine`. -/

/-- `s` with CPU `c` in the middle of an instruction of `p`, and the kernel and the lock as they
are then. -/
def Smp.inside (s : Smp) (c : Nat) (p : Pid) (krnl : Krnl) (owner : Option Nat)
    (code : Prog Int) : Smp where
  sys := { s.sys with krnl }
  owner := owner
  code := Function.update s.code c (some (p, code))

section Alone
variable {s : Smp} {c : Nat} {p : Pid} {k : Krnl} {owner : Option Nat}

@[simp] theorem Smp.inside_code (code : Prog Int) :
    (s.inside c p k owner code).code c = some (p, code) := Function.update_self _ _ _

theorem tick_acquire (n : Prog Int) :
    tick (s.inside c p k none (.acquire n)) c = some (s.inside c p k (some c) n) := by
  rw [tick, Smp.inside_code]
  simp only [Smp.setCode, Smp.inside, Function.update_idem, if_true]

theorem tick_release (n : Prog Int) :
    tick (s.inside c p k (some c) (.release n)) c = some (s.inside c p k none n) := by
  rw [tick, Smp.inside_code]
  simp only [Smp.setCode, Smp.inside, Function.update_idem, if_true]

theorem tick_access {site : Site} {f : Krnl → Except Ub Krnl} {k' : Krnl} (n : Krnl → Prog Int)
    (hf : f k = .ok k') :
    tick (s.inside c p k owner (.access site f n)) c = some (s.inside c p k' owner (n k)) := by
  rw [tick, Smp.inside_code]
  simp only [Smp.setCode, Smp.inside, Function.update_idem, hf]

/-- Code that takes turns and is left alone runs to its end as `Code.solo` says. -/
theorem ticks_alone {code : Prog Int} {a : Int} {k' : Krnl} (hlock : owner = none ∨ owner = some c)
    (hturns : code.Turns (decide (owner = some c))) (hsolo : code.solo k = .ok (k', a)) :
    ∃ n, Lts.Reaches smpStep (s.inside c p k owner code) (List.replicate n (.tick c))
      (s.inside c p k' none (.done a)) := by
  induction code generalizing k owner with
  | done b =>
      obtain rfl : owner = none := hlock.resolve_right (of_decide_eq_false hturns)
      cases hsolo
      exact ⟨0, .nil⟩
  | crash e => cases hsolo
  | acquire n ih =>
      obtain rfl : owner = none := hlock.resolve_right (of_decide_eq_false hturns.1)
      have hturns' : n.Turns (decide (some c = some c)) := by
        rw [decide_eq_true rfl]
        exact hturns.2
      obtain ⟨m, hm⟩ := ih (Or.inr rfl) hturns' hsolo
      exact ⟨m + 1, .cons trivial (tick_acquire n) hm⟩
  | release n ih =>
      obtain rfl : owner = some c := of_decide_eq_true hturns.1
      have hturns' : n.Turns (decide (none = some c)) := hturns.2
      obtain ⟨m, hm⟩ := ih (Or.inl rfl) hturns' hsolo
      exact ⟨m + 1, .cons trivial (tick_release n) hm⟩
  | access site f n ih =>
      rw [Code.solo] at hsolo
      cases hf : f k with
      | error e =>
          rw [hf] at hsolo
          cases hsolo
      | ok k₁ =>
          rw [hf] at hsolo
          obtain ⟨m, hm⟩ := ih k hlock (hturns k) hsolo
          exact ⟨m + 1, .cons trivial (tick_access n hf) hm⟩

/-- An instruction that nobody interrupts is one event of the machine. -/
theorem run_alone {ins : Inst} {junk : Byte} {sys : Sys} (hcode : s.code c = none)
    (hfree : s.owner = none) (hs : step s.sys (.run c ins junk) = some sys) :
    ∃ n, Lts.Reaches smpStep s (.begin c ins junk :: List.replicate n (.tick c))
      { s with sys } := by
  obtain ⟨p, k, st, hc, hexec, rfl⟩ := step_run hs
  have hbegin : smpStep s (.begin c ins junk) =
      some (s.inside c p s.sys.krnl none (Access.exec p ins junk)) := by
    rw [smpStep, hc, hcode, ← hfree]
    rfl
  obtain ⟨n, hn⟩ := ticks_alone (s := s) (p := p) (Or.inl rfl) (Access.exec_turns ins junk)
    ((Access.exec_solo ins junk).trans hexec)
  have hdone : smpStep (s.inside c p k none (.done st)) (.tick c) =
      some { s with sys := ({ s.sys with krnl := k } : Sys).setCpu c (.holding p) } := by
    rw [smpStep, tick, Smp.inside_code]
    simp only [Smp.setCode, Smp.inside, Function.update_idem]
    rw [← hcode, Function.update_eq_self, hfree]
  refine ⟨n + 1, .cons trivial hbegin ?_⟩
  rw [List.replicate_succ']
  exact .snoc _ hn trivial hdone

end Alone

/-! ## Turns -/

/-- In every run, whatever the accesses do: a CPU takes the lock only when it does not have it,
gives it back only when it has it, and returns without it. -/
theorem smp_turns {sys : Sys} {es : List SmpEvent} {s : Smp}
    (h : Lts.Reaches smpStep (.start sys) es s) : Turning s.threads := by
  refine h.invariant (P := fun s => Turning s.threads) ⟨?_, ?_⟩ fun s e s' ht _ hs => ?_
  · exact fun _ _ _ hc => nomatch hc
  · exact fun _ ho => nomatch ho
  · have hstep := smpStep_threads (fun _ _ => True) (fun _ _ c => c.Turns false) hs
      (fun _ p ins junk _ _ => Access.exec_turns ins junk) (fun _ _ _ _ _ _ _ _ => trivial)
    exact ht.step (fun _ _ _ hc => hc) hstep

/-! ## The lock and what it guards -/

/-- Every CPU keeps to the lock, and no two of them run the same process. -/
structure Smp.Wf (s : Smp) : Prop where
  threads : Inv mmvmLock s.threads
  placed : Placed s.sys
  pending : ∀ p, s.sys.pending = some p → (s.sys.krnl.ownMm p).isSome
  restored : ∀ c p code, s.code c = some (p, code) → s.sys.cpu c = .restored p

theorem start_wf (memramsz memswpsz : Addr) (ramJunk swpJunk : Bool) :
    (Smp.start (boot memramsz memswpsz ramJunk swpJunk)).Wf where
  threads := {
    inv := boot_shared_ok _ _ _ _
    code := fun _ _ _ hc => nomatch hc
    apart := fun _ _ _ _ _ hc => nomatch hc
    owner := fun _ ho => nomatch ho }
  placed := boot_placed _ _ _ _
  pending := fun _ hp => nomatch hp
  restored := fun _ _ _ hc => nomatch hc

/-- What a step of a CPU does to the machine: its process comes back, or at most the kernel
changes, by an access. -/
theorem tick_sys {s s' : Smp} {c : Nat} (hs : tick s c = some s') :
    (∃ p a, s.code c = some (p, .done a) ∧
      s' = { s with sys := s.sys.setCpu c (.holding p) }.setCode c none) ∨
    (∃ p code code' owner krnl, s.code c = some (p, code) ∧
      s' = Smp.setCode ⟨{ s.sys with krnl }, owner, s.code⟩ c (some (p, code')) ∧
      (krnl = s.sys.krnl ∨ ∃ site f n, code = .access site f n ∧ f s.sys.krnl = .ok krnl)) := by
  rw [tick] at hs
  split at hs
  · exact nomatch hs
  · rename_i p a hc
    exact Or.inl ⟨p, a, hc, (Option.some.inj hs).symm⟩
  · exact nomatch hs
  · rename_i p n hc
    split at hs
    · exact Or.inr ⟨p, _, n, _, s.sys.krnl, hc, (Option.some.inj hs).symm, Or.inl rfl⟩
    · exact nomatch hs
  · rename_i p n hc
    split at hs
    · exact Or.inr ⟨p, _, n, _, s.sys.krnl, hc, (Option.some.inj hs).symm, Or.inl rfl⟩
    · exact nomatch hs
  · rename_i p site f n hc
    split at hs
    · exact nomatch hs
    · rename_i krnl hf
      exact Or.inr ⟨p, _, _, _, krnl, hc, (Option.some.inj hs).symm,
        Or.inr ⟨site, f, n, rfl, hf⟩⟩

/-- The lock of the accesses a step may make without it. -/
theorem Smp.Ok.site {s : Smp} {c : Nat} {p : Pid} {site : Site} {f : Krnl → Except Ub Krnl}
    {n : Krnl → Prog Int} (h : s.Ok (.tick c)) (hc : s.code c = some (p, .access site f n))
    (howner : s.owner ≠ some c) : site.Ok s.sys.krnl := by
  simp only [Smp.Ok, hc] at h
  exact h.resolve_left howner

section Wf
variable {s s' : Smp} {c : Nat}

/-- A step of a CPU touches no queue and makes no process. -/
theorem Smp.Wf.tick_fixed (h : s.Wf) (hok : s.Ok (.tick c)) (hs : tick s c = some s') :
    mmvmLock.fixed s'.sys.krnl = mmvmLock.fixed s.sys.krnl := by
  obtain ⟨p, a, _, rfl⟩ | ⟨p, code, code', owner, krnl, hc, rfl, hkrnl⟩ := tick_sys hs
  · rfl
  · rcases hkrnl with rfl | ⟨site, f, n, rfl, hf⟩
    · rfl
    · exact (h.threads.access hc (hok.site hc) hf).1.fixed

/-- No other CPU runs a process that CPU `c` is about to run. -/
theorem Smp.Wf.fresh (h : s.Wf) {p : Pid} (hc : s.sys.cpu c = .restored p)
    (hnone : s.code c = none) (t : Nat) (code : Prog Int) : s.code t ≠ some (p, code) := by
  intro ht
  have hheld : s.sys.Held t p := by rw [Sys.Held, h.restored t p code ht]; rfl
  obtain rfl := h.placed.hand t c p hheld (by rw [Sys.Held, hc]; rfl)
  cases hnone.symm.trans ht

theorem Smp.Wf.tick (h : s.Wf) (hok : s.Ok (.tick c)) (hthreads : Inv mmvmLock s'.threads)
    (hs : SimpleOs.tick s c = some s') : s'.Wf := by
  have hfixed := h.tick_fixed hok hs
  obtain ⟨hsched, hsome⟩ := Prod.mk.inj hfixed
  have hown : ∀ p, (s.sys.krnl.ownMm p).isSome → (s'.sys.krnl.ownMm p).isSome :=
    fun p hp => (congrFun hsome p).trans hp
  have hready : ∀ i, s'.sys.ready i = s.sys.ready i := by
    intro i
    show (s'.sys.krnl.sched.mlqReadyQueue i).toList = _
    rw [hsched]
    rfl
  obtain ⟨p, a, hc, rfl⟩ | ⟨p, code, code', owner, krnl, hc, rfl, _⟩ := tick_sys hs
  · refine ⟨hthreads, h.placed.congr hready rfl (held_setCpu_same _ ?_) rfl rfl hown,
      fun q hq => hown q (h.pending q hq), fun t q code ht => ?_⟩
    · rw [h.restored c p _ hc]
      rfl
    · obtain ⟨hne, ht⟩ := update_none ht
      show Function.update s.sys.cpu c (.holding p) t = .restored q
      rw [Function.update_of_ne hne]
      exact h.restored t q code ht
  · refine ⟨hthreads, h.placed.congr hready rfl (fun _ _ => Iff.rfl) rfl rfl hown,
      fun q hq => hown q (h.pending q hq), fun t q code₁ ht => ?_⟩
    rcases update_some ht with ⟨rfl, heq⟩ | ⟨_, ht⟩
    · cases heq
      exact h.restored t p code hc
    · exact h.restored t q code₁ ht

/-- A process is created before it is added. -/
theorem step_pending {s s' : Sys} {e : Event}
    (h : ∀ p, s.pending = some p → (s.krnl.ownMm p).isSome)
    (he : ∀ c ins junk, e ≠ .run c ins junk) (hs : step s e = some s') (p : Pid)
    (hp : s'.pending = some p) : (s'.krnl.ownMm p).isSome := by
  cases e with
  | create q prio symrgtbl =>
      obtain ⟨_, _, rfl⟩ := step_create hs
      obtain rfl := Option.some.inj hp
      show ((s.krnl.setMm q _).ownMm q).isSome
      rw [Krnl.setMm_self]
      rfl
  | add => obtain ⟨_, _, _, _, rfl⟩ := step_add hs; exact nomatch hp
  | get c =>
      obtain ⟨_, ⟨_, rfl⟩ | ⟨_, _, rfl⟩⟩ := step_get hs
      · exact h p hp
      · exact h p hp
  | put c => obtain ⟨_, _, _, _, rfl⟩ := step_put hs; exact h p hp
  | finish c => obtain ⟨_, _, rfl⟩ := step_finish hs; exact h p hp
  | restore c => obtain ⟨_, _, rfl⟩ := step_restore hs; exact h p hp
  | run c ins junk => exact absurd rfl (he c ins junk)

/-- A CPU that is about to run stays so until it runs. -/
theorem step_restored {s s' : Sys} {e : Event} {c : Nat} {p : Pid}
    (h : s.cpu c = .restored p) (he : ∀ c ins junk, e ≠ .run c ins junk)
    (hs : step s e = some s') : s'.cpu c = .restored p := by
  have hother : ∀ c' cpu, s.cpu c' ≠ .restored p →
      Function.update s.cpu c' cpu c = .restored p := by
    intro c' cpu hne
    rw [Function.update_of_ne (by rintro rfl; exact hne h)]
    exact h
  cases e with
  | create q prio symrgtbl => obtain ⟨_, _, rfl⟩ := step_create hs; exact h
  | add => obtain ⟨_, _, _, _, rfl⟩ := step_add hs; exact h
  | get c' =>
      obtain ⟨hidle, ⟨_, rfl⟩ | ⟨_, _, rfl⟩⟩ := step_get hs
      · exact h
      · exact hother c' _ (by rw [hidle]; exact Cpu.noConfusion)
  | put c' =>
      obtain ⟨_, _, hc, _, rfl⟩ := step_put hs
      exact hother c' _ (by rw [hc]; exact Cpu.noConfusion)
  | finish c' =>
      obtain ⟨_, hc, rfl⟩ := step_finish hs
      exact hother c' _ (by rw [hc]; exact Cpu.noConfusion)
  | restore c' =>
      obtain ⟨_, hc, rfl⟩ := step_restore hs
      exact hother c' _ (by rw [hc]; exact Cpu.noConfusion)
  | run c ins junk => exact absurd rfl (he c ins junk)

theorem Smp.Wf.step {e : SmpEvent} (h : s.Wf) (hok : s.Ok e) (hs : smpStep s e = some s') :
    s'.Wf := by
  have hthreads : Inv mmvmLock s'.threads := by
    have hstep := smpStep_threads mmvmLock.ok (fun th p c =>
      (∀ t c', th.code t ≠ some (p, c')) ∧ mmvmLock.Sound p c) hs
      (fun c p ins junk hc hnone => ⟨h.fresh hc hnone, Access.exec_sound ins junk⟩)
      (by rintro c p site f n rfl hc howner; exact hok.site hc howner)
    exact h.threads.step (fun _ _ hview => hview) (fun _ _ _ hst => hst) hstep
  cases e with
  | sys e =>
      obtain ⟨he, sys, hsys, rfl⟩ := smpStep_sys hs
      exact ⟨hthreads, h.placed.between h.pending he hsys, step_pending h.pending he hsys,
        fun c p code hc => step_restored (h.restored c p code hc) he hsys⟩
  | begin c ins junk =>
      obtain ⟨p, hc, hnone, rfl⟩ := smpStep_begin hs
      refine ⟨hthreads, h.placed, h.pending, fun t q code ht => ?_⟩
      rcases update_some ht with ⟨rfl, heq⟩ | ⟨_, ht⟩
      · cases heq
        exact hc
      · exact h.restored t q code ht
  | tick c => exact h.tick hok hthreads hs

end Wf

/-! ## In every run -/

/-- Who takes the lock does not have it, who gives it back has it, and who returns, or runs
nothing, does not have it.  No frame is listed twice: those handed out are distinct and no longer
free. -/
structure Smp.Disciplined (s : Smp) : Prop where
  acquire : ∀ c p n, s.code c = some (p, .acquire n) → s.owner ≠ some c
  release : ∀ c p n, s.code c = some (p, .release n) → s.owner = some c
  done : ∀ c p a, s.code c = some (p, .done a) → s.owner ≠ some c
  idle : ∀ c, s.code c = none → s.owner ≠ some c
  once : ∀ d, ((s.sys.krnl.dev d).freeFpList.fpns ++ (s.sys.krnl.dev d).usedFpList).Nodup

theorem Smp.Wf.disciplined {s : Smp} (h : s.Wf) (ht : Turning s.threads) : s.Disciplined where
  acquire := fun c p _ hc => of_decide_eq_false (ht.turns c p _ hc).1
  release := fun c p _ hc => of_decide_eq_true (ht.turns c p _ hc).1
  done := fun c p _ hc => of_decide_eq_false (ht.turns c p _ hc)
  idle := by
    intro c hnone ho
    have hsome := ht.owner c ho
    rw [show s.threads.code c = none from hnone] at hsome
    exact nomatch hsome
  once := h.threads.inv.nodup

/-- Whoever changes what is guarded has the lock. -/
theorem Smp.Wf.guarded {s s' : Smp} {e : SmpEvent} (h : s.Wf) (hok : s.Ok e)
    (hs : smpStep s e = some s') (hne : s'.sys.krnl.shared ≠ s.sys.krnl.shared) :
    ∃ c, e = .tick c ∧ s.owner = some c := by
  cases e with
  | sys e =>
      obtain ⟨he, sys, hsys, rfl⟩ := smpStep_sys hs
      exact absurd (step_shared he hsys) hne
  | begin c ins junk =>
      obtain ⟨_, _, _, rfl⟩ := smpStep_begin hs
      exact absurd rfl hne
  | tick c =>
      refine ⟨c, rfl, ?_⟩
      by_contra howner
      refine hne ?_
      obtain ⟨_, _, _, rfl⟩ | ⟨p, code, code', owner, krnl, hc, rfl, hkrnl⟩ := tick_sys hs
      · rfl
      · rcases hkrnl with rfl | ⟨site, f, n, rfl, hf⟩
        · rfl
        · have hmoves := (h.threads.access hc (hok.site hc) hf).1
          rw [State.know_free howner] at hmoves
          exact hmoves.view

/-- In every run whose accesses without the lock leave alone what it guards, every update is made
by the CPU that has the lock, and the lock is kept as it should be. -/
theorem lock_discipline {memramsz memswpsz : Addr} {ramJunk swpJunk : Bool}
    {es : List SmpEvent} {s : Smp}
    (h : Lts.Run smpStep Smp.Ok (.start (boot memramsz memswpsz ramJunk swpJunk)) es s) :
    s.Disciplined ∧ ∀ e s', s.Ok e → smpStep s e = some s' →
      s'.sys.krnl.shared ≠ s.sys.krnl.shared → ∃ c, e = .tick c ∧ s.owner = some c := by
  have hw : s.Wf := h.invariant (start_wf _ _ _ _) fun _ _ _ hw hok hs => hw.step hok hs
  exact ⟨hw.disciplined (smp_turns h.reaches), fun e s' hok hs hne => hw.guarded hok hs hne⟩

/-- In the middle of an allocation: the CPU has the lock and has taken frame 0. -/
theorem lock_discipline_alloc : ∃ s,
    Lts.Reaches smpStep (.start (boot 512 512 true true)) ((loadOn 0 1).map .sys ++
      .begin 0 ⟨.alloc, 256, 0, 0, 0⟩ 0 :: List.replicate 7 (.tick 0)) s ∧
    s.owner = some 0 ∧ s.sys.krnl.mram.usedFpList = [0] ∧ s.Disciplined := by
  obtain ⟨s, hs⟩ := Option.isSome_iff_exists.mp
    (by decide +kernel : (Lts.check smpStep Smp.Ok (.start (boot 512 512 true true))
      ((loadOn 0 1).map .sys ++
        .begin 0 ⟨.alloc, 256, 0, 0, 0⟩ 0 :: List.replicate 7 (.tick 0))).isSome)
  have hread : (Lts.check smpStep Smp.Ok (.start (boot 512 512 true true))
      ((loadOn 0 1).map .sys ++
        .begin 0 ⟨.alloc, 256, 0, 0, 0⟩ 0 :: List.replicate 7 (.tick 0))).map
      (fun s => (s.owner, s.sys.krnl.mram.usedFpList)) = some (some 0, [0]) := by decide +kernel
  rw [hs] at hread
  obtain ⟨howner, hused⟩ := Prod.mk.inj (Option.some.inj hread)
  have hrun := Lts.run_of_check hs
  exact ⟨s, hrun.reaches, howner, hused, (lock_discipline hrun).1⟩

/-- Two growths by system call on two CPUs, without the lock.  Both read the list before either
unlinks its head, and page 0 of both processes is mapped to frame 0. -/
theorem frame_handed_out_twice : ∃ s s',
    Lts.Reaches smpStep (.start (boot 512 512 true true))
      ((loadOn 0 1 ++ loadOn 1 2).map .sys ++
        [.begin 0 ⟨.syscall, 17, 2, 0, 256⟩ 0, .begin 1 ⟨.syscall, 17, 2, 0, 256⟩ 0,
          .tick 0, .tick 0, .tick 0, .tick 1, .tick 1, .tick 1, .tick 0, .tick 0, .tick 1]) s ∧
    smpStep s (.tick 1) = some s' ∧ s.owner = none ∧
    s'.sys.krnl.shared ≠ s.sys.krnl.shared ∧
    Resident ((s'.sys.krnl.part 1).pte 0) ∧ pagingFpn ((s'.sys.krnl.part 1).pte 0) = 0 ∧
    Resident ((s'.sys.krnl.part 2).pte 0) ∧ pagingFpn ((s'.sys.krnl.part 2).pte 0) = 0 := by
  obtain ⟨s', hs'⟩ := Option.isSome_iff_exists.mp
    (by decide +kernel : (Lts.exec smpStep (.start (boot 512 512 true true))
      ((loadOn 0 1 ++ loadOn 1 2).map .sys ++
        [.begin 0 ⟨.syscall, 17, 2, 0, 256⟩ 0, .begin 1 ⟨.syscall, 17, 2, 0, 256⟩ 0,
          .tick 0, .tick 0, .tick 0, .tick 1, .tick 1, .tick 1, .tick 0, .tick 0, .tick 1] ++
        [.tick 1])).isSome)
  obtain ⟨s, hs, htick⟩ := Lts.exec_append_some hs'
  have hbefore : (s.owner, (s.sys.krnl.part 2).pte 0) = (none, 0) :=
    Lts.exec_map (g := fun s => (s.owner, (s.sys.krnl.part 2).pte 0)) hs (by decide +kernel)
  have hafter : ((s'.sys.krnl.part 1).pte 0, (s'.sys.krnl.part 2).pte 0) =
      (0x80000000, 0x80000000) :=
    Lts.exec_map (g := fun s => ((s.sys.krnl.part 1).pte 0, (s.sys.krnl.part 2).pte 0)) hs'
      (by decide +kernel)
  obtain ⟨howner, hzero⟩ := Prod.mk.inj hbefore
  obtain ⟨hpte, hpte'⟩ := Prod.mk.inj hafter
  refine ⟨s, s', Lts.reaches_of_exec hs, by simpa [Lts.exec] using htick, howner, fun heq => ?_, ?_⟩
  · have hsame : (s'.sys.krnl.part 2).pte 0 = (s.sys.krnl.part 2).pte 0 :=
      congrArg (fun v : Shared => (v.part 2).pte 0) heq
    rw [hpte', hzero] at hsame
    exact absurd hsame (by decide)
  · rw [hpte, hpte']
    decide

end SimpleOs
