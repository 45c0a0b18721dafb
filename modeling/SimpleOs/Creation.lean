/-
# `SimpleOs.Creation` — the three uses of `krnl->mm` that create a process (`os.c`)

`ld_routine` stores a new structure to `krnl->mm`, has `init_mm` initialise what `krnl->mm`
points to, and copies `krnl->mm` to `proc->own_mm`.  In `Machine` these are one event.
Here they are three, since a CPU may store `krnl->mm` in between; and structures have
addresses, since a process may then be given the structure of another.

Instructions are the ones of `Machine`: `MmSys.krnl` is the kernel as the code of one
process sees it, and `MmSys.krnl_after` says that the kernel it leaves behind is what that
process sees next.  As long as no CPU stores `krnl->mm` while a process is created, no two
processes have one structure (`stepMm_apart`), and the machine does what `Machine` does with
one event for the creation (`stepMm_refines`).
-/
import SimpleOs.Reach
import SimpleOs.Sections

namespace SimpleOs

/-! ## The state -/

/-- The address of a `struct mm_struct`: which of those that the loader has allocated it is.  None
is ever freed. -/
abbrev MmPtr : Type := Nat

/-- Where the loader is. -/
inductive Ld
  | between
  /-- `krnl->mm` points to the new structure. -/
  | allocated (p : Pid)
  /-- `init_mm` has returned. -/
  | initialised (p : Pid)
  /-- `proc->own_mm` is set; `add_proc` is next. -/
  | created (p : Pid)
  deriving DecidableEq, Repr

/-- The machine, with the structures by address. -/
structure MmSys where
  sched : Sched
  /-- `krnl->mm`. -/
  mm : Option MmPtr
  mram : Memphy
  activeMswp : Memphy
  /-- What the allocated structures hold. -/
  heap : MmPtr → Option Mm
  /-- How many structures there are. -/
  mms : Nat
  /-- `proc->own_mm`. -/
  ownMm : Pid → Option MmPtr
  /-- `proc->prio`. -/
  prio : Pid → Nat
  cpu : Nat → Cpu
  ld : Ld

/-- The machine after `main` has set up the devices and the scheduler. -/
def bootMm (memramsz memswpsz : Addr) (ramJunk swpJunk : Bool) : MmSys where
  sched := initScheduler
  mm := none
  mram := initMemphy memramsz true ramJunk
  activeMswp := initMemphy memswpsz true swpJunk
  heap := fun _ => none
  mms := 0
  ownMm := fun _ => none
  prio := fun _ => 0
  cpu := fun _ => .idle
  ld := .between

/-! ## The kernel as a process sees it -/

/-- The kernel as the code of `p` sees it.  Its own structure goes by its pid; the structure that
`krnl->mm` points to, if that is not its own, goes by the next pid. -/
def MmSys.krnl (s : MmSys) (p : Pid) : Krnl where
  sched := s.sched
  mm := s.mm.map (fun a => if s.ownMm p = some a then p else p + 1)
  mram := s.mram
  activeMswp := s.activeMswp
  ownMm q :=
    if q = p then (s.ownMm p).bind s.heap
    else if s.mm = s.ownMm p then none
    else s.mm.bind s.heap

/-- The machine after code of `p` has left `krnl`. -/
def MmSys.after (s : MmSys) (p : Pid) (krnl : Krnl) : MmSys :=
  { s with
    mram := krnl.mram
    activeMswp := krnl.activeMswp
    heap :=
      match s.ownMm p with
      | none => s.heap
      | some a => Function.update s.heap a (krnl.ownMm p) }

/-! ## Events -/

/-- One step of one thread. -/
inductive MmEvent
  /-- The loader: `proc->prio` and `krnl->mm = malloc(..)`.  `junk` is what the structure holds. -/
  | malloc (p : Pid) (prio : Nat) (junk : Mm)
  /-- The loader: `init_mm(krnl->mm, proc)`. -/
  | init
  /-- The loader: `proc->own_mm = krnl->mm`. -/
  | own
  /-- The loader: `add_proc`. -/
  | add
  /-- An idle CPU: `get_proc`. -/
  | get (c : Nat)
  /-- A CPU whose time slice is over: `put_proc`. -/
  | put (c : Nat)
  /-- A CPU whose process has finished: `remove_proc`. -/
  | finish (c : Nat)
  /-- A CPU about to run: `krnl->mm = proc->own_mm`, if that is not NULL. -/
  | restore (c : Nat)
  /-- A CPU: `run`, one instruction. -/
  | run (c : Nat) (ins : Inst) (junk : Byte)

def MmSys.setCpu (s : MmSys) (c : Nat) (cpu : Cpu) : MmSys :=
  { s with cpu := Function.update s.cpu c cpu }

/-- The successor of a state. -/
def stepMm (s : MmSys) : MmEvent → Option MmSys
  | .malloc p prio junk =>
      match s.ld, s.ownMm p with
      | .between, none =>
          some { s with
            mm := some s.mms
            heap := Function.update s.heap s.mms (some junk)
            mms := s.mms + 1
            prio := Function.update s.prio p prio
            ld := .allocated p }
      | _, _ => none
  | .init =>
      match s.ld, s.mm with
      | .allocated p, some a =>
          -- the symbol table is the one part that `init_mm` does not set
          some { s with
            heap := Function.update s.heap a ((s.heap a).map (fun mm => initMm mm.symrgtbl))
            ld := .initialised p }
      | _, _ => none
  | .own =>
      match s.ld with
      | .initialised p =>
          some { s with ownMm := Function.update s.ownMm p s.mm, ld := .created p }
      | _ => none
  | .add =>
      match s.ld with
      | .created p =>
          match addProc s.sched p (s.prio p) with
          | .error _ => none
          | .ok sched => some { s with sched, ld := .between }
      | _ => none
  | .get c =>
      match s.cpu c with
      | .idle =>
          match getProc s.sched with
          | (sched, none) => some { s with sched }
          | (sched, some p) => some ({ s with sched }.setCpu c (.holding p))
      | _ => none
  | .put c =>
      match s.cpu c with
      | .holding p =>
          match putProc s.sched p (s.prio p) with
          | .error _ => none
          | .ok sched => some ({ s with sched }.setCpu c .idle)
      | _ => none
  | .finish c =>
      match s.cpu c with
      | .holding p => some ({ s with sched := removeProc s.sched p }.setCpu c .idle)
      | _ => none
  | .restore c =>
      match s.cpu c with
      | .holding p =>
          some ({ s with mm := (s.ownMm p).orElse (fun _ => s.mm) }.setCpu c (.restored p))
      | _ => none
  | .run c ins junk =>
      match s.cpu c with
      | .restored p =>
          match exec (s.krnl p) p ins junk with
          | .error _ => none
          | .ok (krnl, _) => some ((s.after p krnl).setCpu c (.holding p))
      | _ => none

theorem MmSys.after_heap {s : MmSys} {p : Pid} {a : MmPtr} {krnl : Krnl}
    (hown : s.ownMm p = some a) :
    (s.after p krnl).heap = Function.update s.heap a (krnl.ownMm p) := by
  simp only [after, hown]

/-- A store elsewhere does not change what a pointer leads to. -/
theorem bind_update {heap : MmPtr → Option Mm} {ptr : Option MmPtr} {a : MmPtr} {mm : Option Mm}
    (h : ptr ≠ some a) : ptr.bind (Function.update heap a mm) = ptr.bind heap := by
  cases ptr with
  | none => rfl
  | some b => exact Function.update_of_ne (fun hb => h (congrArg some hb)) _ _

/-- What code of `p` leaves behind is what `p` sees next. -/
theorem MmSys.krnl_after {s : MmSys} {p : Pid} {a : MmPtr} {ins : Inst} {junk : Byte} {k : Krnl}
    {st : Int} (hown : s.ownMm p = some a) (h : exec (s.krnl p) p ins junk = .ok (k, st)) :
    (s.after p k).krnl p = k := by
  have hself : (s.after p k).heap a = k.ownMm p := by
    rw [after_heap hown, Function.update_self]
  refine Eq.trans ?_ (Access.exec_part h)
  refine congrArg (fun ownMm => Krnl.mk s.sched (s.krnl p).mm k.mram k.activeMswp ownMm)
    (funext fun q => ?_)
  by_cases hq : q = p
  · subst hq
    rw [Function.update_self, if_pos rfl]
    show (s.ownMm q).bind (s.after q k).heap = _
    rw [hown]
    exact hself
  · rw [Function.update_of_ne hq, if_neg hq]
    show (if s.mm = s.ownMm p then none else s.mm.bind (s.after p k).heap) =
      (if q = p then (s.ownMm p).bind s.heap else if s.mm = s.ownMm p then none
        else s.mm.bind s.heap)
    rw [if_neg hq]
    split
    · rfl
    · next hmm =>
      rw [after_heap hown]
      exact bind_update fun ha => hmm (ha.trans hown.symm)

/-! ## What an event does -/

section Step
variable {s s' : MmSys} {c : Nat}

theorem stepMm_malloc {p : Pid} {prio : Nat} {junk : Mm}
    (h : stepMm s (.malloc p prio junk) = some s') :
    s.ld = .between ∧ s.ownMm p = none ∧
    s' = { s with
      mm := some s.mms
      heap := Function.update s.heap s.mms (some junk)
      mms := s.mms + 1
      prio := Function.update s.prio p prio
      ld := .allocated p } := by
  simp only [stepMm] at h
  split at h
  next hld hown => exact ⟨hld, hown, (Option.some.inj h).symm⟩
  next => exact nomatch h

theorem stepMm_init (h : stepMm s .init = some s') :
    ∃ p a, s.ld = .allocated p ∧ s.mm = some a ∧
      s' = { s with
        heap := Function.update s.heap a ((s.heap a).map (fun mm => initMm mm.symrgtbl))
        ld := .initialised p } := by
  simp only [stepMm] at h
  split at h
  next p a hld hmm => exact ⟨p, a, hld, hmm, (Option.some.inj h).symm⟩
  next => exact nomatch h

theorem stepMm_own (h : stepMm s .own = some s') :
    ∃ p, s.ld = .initialised p ∧
      s' = { s with ownMm := Function.update s.ownMm p s.mm, ld := .created p } := by
  simp only [stepMm] at h
  split at h
  next p hld => exact ⟨p, hld, (Option.some.inj h).symm⟩
  next => exact nomatch h

theorem stepMm_add (h : stepMm s .add = some s') :
    ∃ p sched, s.ld = .created p ∧ addProc s.sched p (s.prio p) = .ok sched ∧
      s' = { s with sched, ld := .between } := by
  simp only [stepMm] at h
  split at h
  next p hld =>
    split at h
    next => exact nomatch h
    next sched hadd => exact ⟨p, sched, hld, hadd, (Option.some.inj h).symm⟩
  next => exact nomatch h

theorem stepMm_get (h : stepMm s (.get c) = some s') :
    s.cpu c = .idle ∧ ∃ sched,
      (getProc s.sched = (sched, none) ∧ s' = { s with sched }) ∨
      ∃ p, getProc s.sched = (sched, some p) ∧ s' = { s with sched }.setCpu c (.holding p) := by
  simp only [stepMm] at h
  split at h
  next hc =>
    split at h
    next sched hget => exact ⟨hc, sched, Or.inl ⟨hget, (Option.some.inj h).symm⟩⟩
    next sched p hget => exact ⟨hc, sched, Or.inr ⟨p, hget, (Option.some.inj h).symm⟩⟩
  next => exact nomatch h

theorem stepMm_put (h : stepMm s (.put c) = some s') :
    ∃ p sched, s.cpu c = .holding p ∧ putProc s.sched p (s.prio p) = .ok sched ∧
      s' = { s with sched }.setCpu c .idle := by
  simp only [stepMm] at h
  split at h
  next p hc =>
    split at h
    next => exact nomatch h
    next sched hput => exact ⟨p, sched, hc, hput, (Option.some.inj h).symm⟩
  next => exact nomatch h

theorem stepMm_finish (h : stepMm s (.finish c) = some s') :
    ∃ p, s.cpu c = .holding p ∧
      s' = { s with sched := removeProc s.sched p }.setCpu c .idle := by
  simp only [stepMm] at h
  split at h
  next p hc => exact ⟨p, hc, (Option.some.inj h).symm⟩
  next => exact nomatch h

theorem stepMm_restore (h : stepMm s (.restore c) = some s') :
    ∃ p, s.cpu c = .holding p ∧
      s' = { s with mm := (s.ownMm p).orElse (fun _ => s.mm) }.setCpu c (.restored p) := by
  simp only [stepMm] at h
  split at h
  next p hc => exact ⟨p, hc, (Option.some.inj h).symm⟩
  next => exact nomatch h

theorem stepMm_run {ins : Inst} {junk : Byte} (h : stepMm s (.run c ins junk) = some s') :
    ∃ p krnl st, s.cpu c = .restored p ∧ exec (s.krnl p) p ins junk = .ok (krnl, st) ∧
      s' = (s.after p krnl).setCpu c (.holding p) := by
  simp only [stepMm] at h
  split at h
  next p hc =>
    split at h
    next => exact nomatch h
    next krnl st hexec => exact ⟨p, krnl, st, hc, hexec, (Option.some.inj h).symm⟩
  next => exact nomatch h

end Step

/-! ## Every process that runs has a structure -/

/-- The loader is between storing `krnl->mm` and copying it to `own_mm`. -/
def MmSys.Creating (s : MmSys) (p : Pid) : Prop := s.ld = .allocated p ∨ s.ld = .initialised p

instance (s : MmSys) (p : Pid) : Decidable (s.Creating p) := inferInstanceAs (Decidable (_ ∨ _))

theorem MmSys.not_creating {s : MmSys} {q : Pid} (h : s.ld = .between ∨ ∃ p, s.ld = .created p) :
    ¬ s.Creating q := by
  rcases h with h | ⟨p, h⟩
  · rintro (hq | hq)
    · exact nomatch h.symm.trans hq
    · exact nomatch h.symm.trans hq
  · rintro (hq | hq)
    · exact nomatch h.symm.trans hq
    · exact nomatch h.symm.trans hq

/-- One process is created at a time. -/
theorem MmSys.Creating.eq {s : MmSys} {p q : Pid} (h : s.Creating p) (hq : s.Creating q) :
    q = p := by
  rcases h with h | h
  · rcases hq with hq | hq
    · exact Ld.allocated.inj (hq.symm.trans h)
    · exact nomatch h.symm.trans hq
  · rcases hq with hq | hq
    · exact nomatch h.symm.trans hq
    · exact Ld.initialised.inj (hq.symm.trans h)

/-- What holds in every reachable state: whoever the loader or the scheduler can name has
`own_mm`, and `krnl->mm` is set when `own_mm` is copied from it. -/
structure MmSys.Wf (s : MmSys) : Prop where
  created : ∀ p, s.ld = .created p → (s.ownMm p).isSome
  ready : ∀ i, ∀ p ∈ (s.sched.mlqReadyQueue i).toList, (s.ownMm p).isSome
  held : ∀ c p, (s.cpu c).proc = some p → (s.ownMm p).isSome
  mm : ∀ p, s.Creating p → s.mm.isSome

theorem bootMm_wf (memramsz memswpsz : Addr) (ramJunk swpJunk : Bool) :
    (bootMm memramsz memswpsz ramJunk swpJunk).Wf where
  created := fun _ h => nomatch h
  ready := fun _ _ h => nomatch h
  held := fun _ _ h => nomatch h
  mm := fun _ h => nomatch h

section Wf
variable {s s' : MmSys}

theorem MmSys.Wf.setCpu (h : s.Wf) (c : Nat) {cpu : Cpu}
    (hc : ∀ p, cpu.proc = some p → (s.ownMm p).isSome) : (s.setCpu c cpu).Wf where
  created := h.created
  ready := h.ready
  held := by
    intro c' p hp
    by_cases hcc : c' = c
    · subst hcc
      simp only [MmSys.setCpu, Function.update_self] at hp
      exact hc p hp
    · simp only [MmSys.setCpu, Function.update_of_ne hcc] at hp
      exact h.held c' p hp
  mm := h.mm

theorem MmSys.Wf.setSched (h : s.Wf) (sched : Sched)
    (hready : ∀ i, ∀ p ∈ (sched.mlqReadyQueue i).toList, (s.ownMm p).isSome) :
    ({ s with sched } : MmSys).Wf :=
  ⟨h.created, hready, h.held, h.mm⟩

theorem MmSys.Wf.step {e : MmEvent} (h : s.Wf) (hs : stepMm s e = some s') : s'.Wf := by
  cases e with
  | malloc p prio junk =>
      obtain ⟨_, _, rfl⟩ := stepMm_malloc hs
      exact ⟨fun _ hld => (nomatch hld), h.ready, h.held, fun _ _ => rfl⟩
  | init =>
      obtain ⟨p, a, hld, hmm, rfl⟩ := stepMm_init hs
      exact ⟨fun _ hld => (nomatch hld), h.ready, h.held, fun _ _ => h.mm p (Or.inl hld)⟩
  | own =>
      obtain ⟨p, hld, rfl⟩ := stepMm_own hs
      have hmono : ∀ q, (s.ownMm q).isSome → (Function.update s.ownMm p s.mm q).isSome := by
        intro q hq
        by_cases hqp : q = p
        · subst hqp
          rw [Function.update_self]
          exact h.mm q (Or.inr hld)
        · rwa [Function.update_of_ne hqp]
      refine ⟨fun q hq => ?_, fun i q hq => hmono q (h.ready i q hq),
        fun c q hq => hmono q (h.held c q hq),
        fun q hq => absurd hq (not_creating (Or.inr ⟨p, rfl⟩))⟩
      · obtain rfl := Ld.created.inj hq
        show (Function.update s.ownMm p s.mm p).isSome
        rw [Function.update_self]
        exact h.mm p (Or.inr hld)
  | add =>
      obtain ⟨p, sched, hld, hadd, rfl⟩ := stepMm_add hs
      have hsched := h.setSched sched fun i q hq => by
        rcases enqueueMlq_mem hadd hq with rfl | hq
        · exact h.created q hld
        · exact h.ready i q hq
      exact ⟨fun _ hq => (nomatch hq), hsched.ready, h.held,
        fun q hq => absurd hq (not_creating (Or.inl rfl))⟩
  | get c =>
      obtain ⟨hmem, hres⟩ := getProc_mem s.sched
      obtain ⟨_, sched, ⟨hget, rfl⟩ | ⟨p, hget, rfl⟩⟩ := stepMm_get hs
      · rw [hget] at hmem
        exact h.setSched _ fun i q hq => h.ready i q (hmem i q hq)
      · rw [hget] at hmem hres
        have hsched := h.setSched sched fun i q hq => h.ready i q (hmem i q hq)
        refine hsched.setCpu c fun q hq => ?_
        obtain rfl := Option.some.inj hq
        obtain ⟨i, hi⟩ := hres _ rfl
        exact h.ready i _ hi
  | put c =>
      obtain ⟨p, sched, hc, hput, rfl⟩ := stepMm_put hs
      have hsched := h.setSched sched fun i q hq => by
        rcases enqueueMlq_mem hput hq with rfl | hq
        · exact h.held c q (by rw [hc]; rfl)
        · exact h.ready i q hq
      exact hsched.setCpu c fun q hq => nomatch hq
  | finish c =>
      obtain ⟨p, _, rfl⟩ := stepMm_finish hs
      have hsched : ({ s with sched := removeProc s.sched p } : MmSys).Wf := h.setSched _ h.ready
      exact hsched.setCpu c fun q hq => nomatch hq
  | restore c =>
      obtain ⟨p, hc, rfl⟩ := stepMm_restore hs
      have hp := h.held c p (by rw [hc]; rfl)
      have hmm : ({ s with mm := (s.ownMm p).orElse (fun _ => s.mm) } : MmSys).Wf := by
        refine ⟨h.created, h.ready, h.held, fun _ _ => ?_⟩
        obtain ⟨a, ha⟩ := Option.isSome_iff_exists.mp hp
        rw [ha]
        rfl
      refine hmm.setCpu c fun q hq => ?_
      obtain rfl := Option.some.inj hq
      exact hp
  | run c ins junk =>
      obtain ⟨p, krnl, st, hc, _, rfl⟩ := stepMm_run hs
      have hafter : (s.after p krnl).Wf := ⟨h.created, h.ready, h.held, h.mm⟩
      refine hafter.setCpu c fun q hq => ?_
      obtain rfl := Option.some.inj hq
      exact h.held c _ (by rw [hc]; rfl)

end Wf

/-! ## Whose structure it is -/

/-- No CPU stores `krnl->mm` while the loader goes by it. -/
def MmSys.Settled (s : MmSys) : MmEvent → Prop
  | .restore _ => ∀ p, ¬ s.Creating p
  | _ => True

/-- Nobody has the structure of another, and the one being made is nobody's. -/
structure MmSys.Apart (s : MmSys) : Prop where
  lt : ∀ p a, s.ownMm p = some a → a < s.mms
  inj : ∀ p q a, s.ownMm p = some a → s.ownMm q = some a → p = q
  unset : ∀ p, s.Creating p → s.ownMm p = none
  fresh : ∀ p, s.Creating p → ∃ a, s.mm = some a ∧ a < s.mms ∧ ∀ q, s.ownMm q ≠ some a

theorem bootMm_apart (memramsz memswpsz : Addr) (ramJunk swpJunk : Bool) :
    (bootMm memramsz memswpsz ramJunk swpJunk).Apart where
  lt := fun _ _ h => nomatch h
  inj := fun _ _ _ h => nomatch h
  unset := fun _ _ => rfl
  fresh := fun _ h => absurd h (MmSys.not_creating (Or.inl rfl))

theorem MmSys.Apart.step {s s' : MmSys} {e : MmEvent} (h : s.Apart) (hok : s.Settled e)
    (hs : stepMm s e = some s') : s'.Apart := by
  cases e with
  | malloc p prio junk =>
      obtain ⟨_, hnone, rfl⟩ := stepMm_malloc hs
      refine ⟨fun q a hq => Nat.lt_succ_of_lt (h.lt q a hq), h.inj, fun q hq => ?_, fun _ _ =>
        ⟨s.mms, rfl, Nat.lt_succ_self _, fun q hq => ?_⟩⟩
      · rcases hq with hq | hq
        · obtain rfl := Ld.allocated.inj hq
          exact hnone
        · exact nomatch hq
      · exact Nat.lt_irrefl _ (h.lt q s.mms hq)
  | init =>
      obtain ⟨p, a, hld, _, rfl⟩ := stepMm_init hs
      refine ⟨h.lt, h.inj, fun q hq => ?_, fun _ _ => h.fresh p (Or.inl hld)⟩
      rcases hq with hq | hq
      · exact nomatch hq
      · obtain rfl := Ld.initialised.inj hq
        exact h.unset p (Or.inl hld)
  | own =>
      obtain ⟨p, hld, rfl⟩ := stepMm_own hs
      obtain ⟨a, hmm, hlt, hnew⟩ := h.fresh p (Or.inr hld)
      have hcases : ∀ q b, Function.update s.ownMm p s.mm q = some b →
          (q = p ∧ b = a) ∨ (q ≠ p ∧ s.ownMm q = some b) := by
        intro q b hq
        by_cases hqp : q = p
        · subst hqp
          rw [Function.update_self, hmm] at hq
          exact Or.inl ⟨rfl, (Option.some.inj hq).symm⟩
        · rw [Function.update_of_ne hqp] at hq
          exact Or.inr ⟨hqp, hq⟩
      refine ⟨fun q b hq => ?_, fun q r b hq hr => ?_,
        fun _ hq => absurd hq (not_creating (Or.inr ⟨p, rfl⟩)),
        fun _ hq => absurd hq (not_creating (Or.inr ⟨p, rfl⟩))⟩
      · rcases hcases q b hq with ⟨_, rfl⟩ | ⟨_, hq⟩
        · exact hlt
        · exact h.lt q b hq
      · rcases hcases q b hq with ⟨rfl, rfl⟩ | ⟨_, hq⟩
        · rcases hcases r b hr with ⟨rfl, _⟩ | ⟨_, hr⟩
          · rfl
          · exact absurd hr (hnew r)
        · rcases hcases r b hr with ⟨_, rfl⟩ | ⟨_, hr⟩
          · exact absurd hq (hnew q)
          · exact h.inj q r b hq hr
  | add =>
      obtain ⟨p, sched, _, _, rfl⟩ := stepMm_add hs
      exact ⟨h.lt, h.inj, fun _ hq => absurd hq (not_creating (Or.inl rfl)),
        fun _ hq => absurd hq (not_creating (Or.inl rfl))⟩
  | get c =>
      obtain ⟨_, _, ⟨_, rfl⟩ | ⟨_, _, rfl⟩⟩ := stepMm_get hs
      · exact ⟨h.lt, h.inj, h.unset, h.fresh⟩
      · exact ⟨h.lt, h.inj, h.unset, h.fresh⟩
  | put c =>
      obtain ⟨_, _, _, _, rfl⟩ := stepMm_put hs
      exact ⟨h.lt, h.inj, h.unset, h.fresh⟩
  | finish c =>
      obtain ⟨_, _, rfl⟩ := stepMm_finish hs
      exact ⟨h.lt, h.inj, h.unset, h.fresh⟩
  | restore c =>
      obtain ⟨_, _, rfl⟩ := stepMm_restore hs
      exact ⟨h.lt, h.inj, h.unset, fun p hp => absurd hp (hok p)⟩
  | run c ins junk =>
      obtain ⟨_, _, _, _, _, rfl⟩ := stepMm_run hs
      exact ⟨h.lt, h.inj, h.unset, h.fresh⟩

/-- In every run in which no CPU stores `krnl->mm` while a process is created, no two processes
have one structure, and `init_mm` is never called on that of another. -/
theorem stepMm_apart {memramsz memswpsz : Addr} {ramJunk swpJunk : Bool} {es : List MmEvent}
    {s : MmSys}
    (h : Lts.Run stepMm MmSys.Settled (bootMm memramsz memswpsz ramJunk swpJunk) es s) :
    s.Apart :=
  h.invariant (bootMm_apart _ _ _ _)
    fun _ _ _ hs hok hstep => hs.step hok hstep

/-! ## One event for the creation -/

/-- The event of `Machine`: a process is created where its structure is allocated. -/
def MmEvent.event? : MmEvent → Option Event
  | .malloc p prio junk => some (.create p prio junk.symrgtbl)
  | .init | .own => none
  | .add => some .add
  | .get c => some (.get c)
  | .put c => some (.put c)
  | .finish c => some (.finish c)
  | .restore c => some (.restore c)
  | .run c ins junk => some (.run c ins junk)

/-- Where the structure of `q` is, also while it is made. -/
def MmSys.ptr (s : MmSys) (q : Pid) : Option MmPtr := if s.Creating q then s.mm else s.ownMm q

/-- What the structure of `q` holds, or will hold when `init_mm` has returned. -/
def MmSys.made (s : MmSys) (q : Pid) : Option Mm :=
  ((s.ptr q).bind s.heap).map (fun mm => if s.ld = .allocated q then initMm mm.symrgtbl else mm)

/-- The process that the loader has created and not yet added. -/
def Ld.pending : Ld → Option Pid
  | .between => none
  | .allocated p | .initialised p | .created p => some p

/-- The machine of `Machine` in the state `t` has what this one has in `s`. -/
structure MmSys.Shows (s : MmSys) (t : Sys) : Prop where
  sched : t.krnl.sched = s.sched
  mm : t.krnl.mm.bind s.ptr = s.mm
  ram : t.krnl.mram = s.mram
  swp : t.krnl.activeMswp = s.activeMswp
  ownMm : ∀ q, t.krnl.ownMm q = s.made q
  prio : t.prio = s.prio
  cpu : t.cpu = s.cpu
  pending : t.pending = s.ld.pending

theorem MmSys.ptr_of_not_creating {s : MmSys} {q : Pid} (h : ¬ s.Creating q) :
    s.ptr q = s.ownMm q := if_neg h

theorem MmSys.made_of_not_creating {s : MmSys} {q : Pid} (h : ¬ s.Creating q) :
    s.made q = (s.ownMm q).bind s.heap := by
  rw [made, ptr, if_neg h]
  simp only [if_neg fun hld => h (Or.inl hld), Option.map_id']

theorem MmSys.ptr_of_creating {s : MmSys} {q : Pid} (h : s.Creating q) : s.ptr q = s.mm :=
  if_pos h

theorem MmSys.made_of_allocated {s : MmSys} {q : Pid} (h : s.ld = .allocated q) :
    s.made q = (s.mm.bind s.heap).map (fun mm => initMm mm.symrgtbl) := by
  rw [made, ptr_of_creating (Or.inl h)]
  simp only [if_pos h]

theorem MmSys.made_of_initialised {s : MmSys} {q : Pid} (h : s.ld = .initialised q) :
    s.made q = s.mm.bind s.heap := by
  rw [made, ptr_of_creating (Or.inr h), h]
  exact Option.map_id_apply

theorem MmSys.made_congr {s : MmSys} {q : Pid} {a : MmPtr} {mm : Option Mm}
    (h : s.ptr q ≠ some a) :
    ({ s with heap := Function.update s.heap a mm } : MmSys).made q = s.made q :=
  congrArg (Option.map _) (bind_update h)

theorem bootMm_shows (memramsz memswpsz : Addr) (ramJunk swpJunk : Bool) :
    (bootMm memramsz memswpsz ramJunk swpJunk).Shows (boot memramsz memswpsz ramJunk swpJunk) :=
  ⟨rfl, rfl, rfl, rfl, fun _ => rfl, rfl, rfl, rfl⟩

section Shows
variable {s s' : MmSys} {t : Sys} {p : Pid} {c : Nat}

/-- Where no pointer changes, `krnl->mm` goes on being that of the same process. -/
theorem MmSys.Shows.mm_of (h : s.Shows t) (hmm : s'.mm = s.mm) (hptr : ∀ q, s'.ptr q = s.ptr q) :
    t.krnl.mm.bind s'.ptr = s'.mm := by
  rw [hmm, ← h.mm]
  exact congrArg (Option.bind t.krnl.mm) (funext hptr)

theorem MmSys.Shows.cpu_update (h : s.Shows t) (cpu : Cpu) :
    Function.update t.cpu c cpu = Function.update s.cpu c cpu := by
  rw [h.cpu]

/-- Both pointers lead to the same symbol table, which `init_mm` leaves alone. -/
theorem MmSys.Shows.table (h : s.Shows t) (hown : (s.ownMm p).isSome) :
    t.krnl.table = (s.krnl p).table := by
  have hthere : t.krnl.table = (s.mm.bind s.heap).map Mm.symrgtbl := by
    rw [Krnl.table, ← h.mm]
    cases t.krnl.mm with
    | none => rfl
    | some q =>
        show (t.krnl.ownMm q).map _ = ((s.ptr q).bind s.heap).map _
        rw [h.ownMm, made, Option.map_map]
        refine congrArg (fun f => Option.map f ((s.ptr q).bind s.heap)) (funext fun mm => ?_)
        show Mm.symrgtbl (if _ then _ else _) = _
        split <;> rfl
  rw [hthere, Krnl.table]
  obtain ⟨a, ha⟩ := Option.isSome_iff_exists.mp hown
  show _ = ((s.mm.map (fun b => if s.ownMm p = some b then p else p + 1)).bind
    (s.krnl p).ownMm).map _
  cases hmm : s.mm with
  | none => rfl
  | some b =>
      show (s.heap b).map _ = ((s.krnl p).ownMm (if s.ownMm p = some b then p else p + 1)).map _
      congr 1
      split
      next hb =>
        show s.heap b = if p = p then (s.ownMm p).bind s.heap else _
        rw [if_pos rfl, hb]
        rfl
      next hb =>
        show s.heap b = if p + 1 = p then _ else if s.mm = s.ownMm p then _ else s.mm.bind s.heap
        rw [if_neg (Nat.succ_ne_self p), if_neg (fun heq => hb (heq.symm.trans hmm)), hmm]
        rfl

/-- Only its own structure is at the address of a process that has one. -/
theorem MmSys.Apart.ptr_ne (h : s.Apart) {a : MmPtr} {q : Pid} (hown : s.ownMm p = some a)
    (hq : q ≠ p) : s.ptr q ≠ some a := by
  intro hptr
  rw [ptr] at hptr
  split at hptr
  next hc =>
    obtain ⟨b, hmm, _, hnew⟩ := h.fresh q hc
    obtain rfl := Option.some.inj (hmm.symm.trans hptr)
    exact hnew p hown
  next => exact hq (h.inj q p a hptr hown)

theorem MmSys.Apart.ptr_eq (h : s.Apart) {a : MmPtr} (hown : s.ownMm p = some a) :
    s.ptr p = some a := by
  rw [ptr, if_neg, hown]
  intro hc
  exact nomatch (h.unset p hc).symm.trans hown

/-- An instruction does in both machines the same. -/
theorem MmSys.Shows.run (h : s.Shows t) (hw : s.Wf) (ha : s.Apart) {ins : Inst} {junk : Byte}
    (hs : stepMm s (.run c ins junk) = some s') :
    ∃ t', step t (.run c ins junk) = some t' ∧ s'.Shows t' := by
  obtain ⟨p, krnl, st, hc, hexec, rfl⟩ := stepMm_run hs
  have hsome := hw.held c p (by rw [hc]; rfl)
  obtain ⟨a, hown⟩ := Option.isSome_iff_exists.mp hsome
  have hnot : ¬ s.Creating p := fun hcr => nomatch (ha.unset p hcr).symm.trans hown
  have hp : t.krnl.ownMm p = (s.krnl p).ownMm p := by
    rw [h.ownMm, made_of_not_creating hnot]
    exact (if_pos rfl).symm
  have hpart : procFrame.onto p (s.krnl p) t.krnl = t.krnl := by
    show ({ t.krnl with
      mram := s.mram
      activeMswp := s.activeMswp
      ownMm := Function.update t.krnl.ownMm p ((s.krnl p).ownMm p) } : Krnl) = _
    rw [← h.ram, ← h.swp, ← hp, Function.update_eq_self]
  have hover := Access.exec_over (p := p) (s.krnl p) t.krnl ins junk
    (by rw [findCaller_eq, findCaller_eq, h.sched]; rfl) (by rw [hpart, h.table hsome])
  rw [hpart, hexec] at hover
  refine ⟨_, step_run_of (by rw [h.cpu]; exact hc) hover, h.sched, h.mm, rfl, rfl, fun q => ?_,
    h.prio, h.cpu_update _, h.pending⟩
  show (procFrame.onto p krnl t.krnl).ownMm q = (s.after p krnl).made q
  by_cases hq : q = p
  · subst hq
    rw [Access.onto_ownMm, made_of_not_creating (s := s.after q krnl) hnot]
    show _ = (s.ownMm q).bind (s.after q krnl).heap
    rw [after_heap hown, hown]
    show _ = Function.update s.heap a (krnl.ownMm q) a
    rw [Function.update_self]
  · rw [Access.onto_ownMm_of_ne _ _ hq, h.ownMm, ← made_congr (ha.ptr_ne hown hq),
      ← after_heap hown]
    rfl

theorem MmSys.Shows.malloc (h : s.Shows t) (ha : s.Apart) {prio : Nat} {junk : Mm}
    (hs : stepMm s (.malloc p prio junk) = some s') :
    ∃ t', step t (.create p prio junk.symrgtbl) = some t' ∧ s'.Shows t' := by
  obtain ⟨hld, hnone, rfl⟩ := stepMm_malloc hs
  have hnot : ∀ q, ¬ s.Creating q := fun q => not_creating (Or.inl hld)
  have hown : t.krnl.ownMm p = none := by
    rw [h.ownMm, made_of_not_creating (hnot p), hnone]
    rfl
  refine ⟨_, step_create_of (by rw [h.pending, hld]; rfl) hown, h.sched, ?_, h.ram, h.swp,
    fun q => ?_, congrArg (fun f : Pid → Nat => Function.update f p prio) h.prio, h.cpu, rfl⟩
  · exact if_pos (Or.inl rfl)
  · show (t.krnl.setMm p (initMm junk.symrgtbl)).ownMm q = _
    by_cases hq : q = p
    · subst hq
      rw [Krnl.setMm_self, made_of_allocated rfl]
      show _ = (Function.update s.heap s.mms (some junk) s.mms).map _
      rw [Function.update_self]
      rfl
    · rw [Krnl.setMm_of_ne _ _ _ hq, h.ownMm, made_of_not_creating (hnot q),
        made_of_not_creating fun hq' => hq (Creating.eq (Or.inl rfl) hq')]
      show _ = (s.ownMm q).bind (Function.update s.heap s.mms (some junk))
      exact (bind_update fun hq' => Nat.lt_irrefl _ (ha.lt q s.mms hq')).symm

theorem MmSys.Shows.init (h : s.Shows t) (ha : s.Apart) (hs : stepMm s .init = some s') :
    s'.Shows t := by
  obtain ⟨p, a, hld, hmm, rfl⟩ := stepMm_init hs
  obtain ⟨b, hb, _, hnew⟩ := ha.fresh p (Or.inl hld)
  obtain rfl := Option.some.inj (hmm.symm.trans hb)
  have hne : ∀ q, q ≠ p → ¬ s.Creating q := fun q hq hc => hq (Creating.eq (Or.inl hld) hc)
  refine ⟨h.sched, h.mm_of rfl fun q => ?_, h.ram, h.swp, fun q => ?_, h.prio, h.cpu,
    by rw [h.pending, hld]; rfl⟩
  · by_cases hq : q = p
    · subst hq
      rw [ptr_of_creating (Or.inr rfl), ptr_of_creating (Or.inl hld)]
    · rw [ptr_of_not_creating (hne q hq),
        ptr_of_not_creating fun hc => hq (Creating.eq (Or.inr rfl) hc)]
  · by_cases hq : q = p
    · subst hq
      rw [h.ownMm, made_of_allocated hld, made_of_initialised rfl]
      show _ = s.mm.bind (Function.update s.heap a _)
      rw [hmm, Option.bind_some, Option.bind_some, Function.update_self]
    · rw [h.ownMm, made_of_not_creating (hne q hq),
        made_of_not_creating fun hc => hq (Creating.eq (Or.inr rfl) hc)]
      show _ = (s.ownMm q).bind (Function.update s.heap a _)
      exact (bind_update (hnew q)).symm

theorem MmSys.Shows.own (h : s.Shows t) (hs : stepMm s .own = some s') : s'.Shows t := by
  obtain ⟨p, hld, rfl⟩ := stepMm_own hs
  have hptr : ∀ q, Function.update s.ownMm p s.mm q = s.ptr q := by
    intro q
    by_cases hq : q = p
    · subst hq
      rw [Function.update_self, ptr_of_creating (Or.inr hld)]
    · rw [Function.update_of_ne hq,
        ptr_of_not_creating fun hc => hq (Creating.eq (Or.inr hld) hc)]
  refine ⟨h.sched, h.mm_of rfl fun q => ?_, h.ram, h.swp, fun q => ?_, h.prio, h.cpu,
    by rw [h.pending, hld]; rfl⟩
  · rw [ptr_of_not_creating (not_creating (Or.inr ⟨p, rfl⟩))]
    exact hptr q
  · rw [made_of_not_creating (not_creating (Or.inr ⟨p, rfl⟩)), h.ownMm, made]
    show _ = (Function.update s.ownMm p s.mm q).bind s.heap
    rw [hptr q, hld]
    exact Option.map_id_apply

theorem MmSys.Shows.add (h : s.Shows t) (hs : stepMm s .add = some s') :
    ∃ t', SimpleOs.step t .add = some t' ∧ s'.Shows t' := by
  obtain ⟨p, sched, hld, hadd, rfl⟩ := stepMm_add hs
  have hnot : ∀ q, ¬ s.Creating q := fun q => not_creating (Or.inr ⟨p, hld⟩)
  have hnot' : ∀ q, ¬ MmSys.Creating { s with sched, ld := .between } q := fun q =>
    not_creating (Or.inl rfl)
  have hstep := step_add_of (by rw [h.pending, hld]; rfl) (by rw [h.sched, h.prio]; exact hadd)
  refine ⟨_, hstep, rfl, h.mm_of rfl fun q => ?_, h.ram, h.swp, fun q => ?_, h.prio, h.cpu, rfl⟩
  · rw [ptr_of_not_creating (hnot' q), ptr_of_not_creating (hnot q)]
  · rw [made_of_not_creating (hnot' q)]
    exact (h.ownMm q).trans (made_of_not_creating (hnot q))

theorem MmSys.Shows.get (h : s.Shows t) (hs : stepMm s (.get c) = some s') :
    ∃ t', SimpleOs.step t (.get c) = some t' ∧ s'.Shows t' := by
  obtain ⟨hc, sched, ⟨hget, rfl⟩ | ⟨p, hget, rfl⟩⟩ := stepMm_get hs
  · have hstep := step_get_none (by rw [h.cpu]; exact hc) (by rw [h.sched]; exact hget)
    exact ⟨_, hstep, rfl, h.mm, h.ram, h.swp, h.ownMm, h.prio, h.cpu, h.pending⟩
  · have hstep := step_get_some (by rw [h.cpu]; exact hc) (by rw [h.sched]; exact hget)
    exact ⟨_, hstep, rfl, h.mm, h.ram, h.swp, h.ownMm, h.prio, h.cpu_update _, h.pending⟩

theorem MmSys.Shows.put (h : s.Shows t) (hs : stepMm s (.put c) = some s') :
    ∃ t', SimpleOs.step t (.put c) = some t' ∧ s'.Shows t' := by
  obtain ⟨p, sched, hc, hput, rfl⟩ := stepMm_put hs
  have hstep := step_put_of (by rw [h.cpu]; exact hc) (by rw [h.sched, h.prio]; exact hput)
  exact ⟨_, hstep, rfl, h.mm, h.ram, h.swp, h.ownMm, h.prio, h.cpu_update _, h.pending⟩

theorem MmSys.Shows.finish (h : s.Shows t) (hs : stepMm s (.finish c) = some s') :
    ∃ t', SimpleOs.step t (.finish c) = some t' ∧ s'.Shows t' := by
  obtain ⟨p, hc, rfl⟩ := stepMm_finish hs
  have hstep := step_finish_of (by rw [h.cpu]; exact hc)
  exact ⟨_, hstep, congrArg (removeProc · p) h.sched, h.mm, h.ram, h.swp, h.ownMm, h.prio,
    h.cpu_update _, h.pending⟩

/-- The structure restored is the process's own, since none is being made. -/
theorem MmSys.Shows.restore (h : s.Shows t) (hw : s.Wf) (htw : t.Wf)
    (hnot : ∀ q, ¬ s.Creating q) (hs : stepMm s (.restore c) = some s') :
    ∃ t', SimpleOs.step t (.restore c) = some t' ∧ s'.Shows t' := by
  obtain ⟨p, hc, rfl⟩ := stepMm_restore hs
  have hsome := htw.held c p (by rw [h.cpu, hc]; rfl)
  obtain ⟨a, hown⟩ := Option.isSome_iff_exists.mp (hw.held c p (by rw [hc]; rfl))
  have hstep := step_restore_of (by rw [h.cpu]; exact hc)
  refine ⟨_, hstep, h.sched, ?_, h.ram, h.swp, fun q => ?_, h.prio, h.cpu_update _, h.pending⟩
  · rw [if_pos hsome]
    show MmSys.ptr _ p = (s.ownMm p).orElse _
    refine (ptr_of_not_creating ?_).trans ?_
    · exact hnot p
    · rw [hown]
      exact hown
  · refine Eq.trans ?_ (made_of_not_creating ?_).symm
    · exact (h.ownMm q).trans (made_of_not_creating (hnot q))
    · exact hnot q

/-- `Machine` takes the event's step, or none. -/
theorem MmSys.Shows.step {e : MmEvent} (h : s.Shows t) (hw : s.Wf) (ha : s.Apart) (htw : t.Wf)
    (hok : s.Settled e) (hs : stepMm s e = some s') :
    ∃ t', Lts.Reaches SimpleOs.step t e.event?.toList t' ∧ s'.Shows t' := by
  have once : ∀ {ev : Event}, (∃ t', SimpleOs.step t ev = some t' ∧ s'.Shows t') →
      ∃ t', Lts.Reaches SimpleOs.step t [ev] t' ∧ s'.Shows t' := fun ⟨t', hstep, hshows⟩ =>
    ⟨t', .snoc _ .nil trivial hstep, hshows⟩
  cases e with
  | malloc p prio junk => exact once (h.malloc ha hs)
  | init => exact ⟨t, .nil, h.init ha hs⟩
  | own => exact ⟨t, .nil, h.own hs⟩
  | add => exact once (h.add hs)
  | get c => exact once (h.get hs)
  | put c => exact once (h.put hs)
  | finish c => exact once (h.finish hs)
  | restore c => exact once (h.restore hw htw hok hs)
  | run c ins junk => exact once (h.run hw ha hs)

end Shows

/-- In every run in which no CPU stores `krnl->mm` while a process is created, the machine does
what `Machine` does with one event for the creation. -/
theorem stepMm_refines {memramsz memswpsz : Addr} {ramJunk swpJunk : Bool} {es : List MmEvent}
    {s : MmSys}
    (h : Lts.Run stepMm MmSys.Settled (bootMm memramsz memswpsz ramJunk swpJunk) es s) :
    ∃ t, Lts.Reaches step (boot memramsz memswpsz ramJunk swpJunk)
      (es.filterMap MmEvent.event?) t ∧ s.Shows t := by
  induction h with
  | nil => exact ⟨_, .nil, bootMm_shows _ _ _ _⟩
  | @snoc es s s' e hrun hok hs ih =>
      obtain ⟨t, hreach, hshows⟩ := ih
      have hw : s.Wf := hrun.invariant (bootMm_wf _ _ _ _) fun _ _ _ hw _ hs => hw.step hs
      obtain ⟨t', hstep, hshows'⟩ :=
        hshows.step hw (stepMm_apart hrun) (reach_wf hreach) hok hs
      refine ⟨t', ?_, hshows'⟩
      rw [List.filterMap_append]
      refine hreach.append ?_
      cases hev : e.event? with
      | none => rw [hev] at hstep; rwa [List.filterMap_cons_none hev]
      | some ev => rw [hev] at hstep; rwa [List.filterMap_cons_some hev]

/-- The events that create process `p`, whose structure `malloc` returned zeroed, and add it. -/
def createMm (p : Pid) : List MmEvent :=
  [.malloc p 0 (initMm (fun _ => { rgStart := 0, rgEnd := 0 })), .init, .own, .add]

/-- CPU 0 stores the structure of process 1 while process 2 is created: `init_mm` resets it, and
process 2 is given it too. -/
example : (Lts.exec stepMm (bootMm 512 512 true true) (createMm 1 ++ [.get 0,
    .malloc 2 0 (initMm (fun _ => { rgStart := 0, rgEnd := 0 })), .restore 0, .init, .own])).map
      (fun s => (s.ownMm 1, s.ownMm 2)) = some (some 0, some 0) := by decide +kernel

end SimpleOs
