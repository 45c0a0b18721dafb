/-
# `SimpleOs.Quantum` — the time quantum (`os.c`)

`cpu_routine` on its own: what `get_proc` returns, what `done` reads and what the
other threads do to the processes that this CPU does not hold is up to the
environment.  Its calls are recorded.

A tenure of a process is `get_proc`, the dispatch, as many instructions as the
quantum or the program allows, one a slot, and `put_proc` or `remove_proc`.
`quantum_law`: the record is a sequence of tenures and idle slots, the last of them
perhaps unfinished.  The CPUs of `Os` are such CPUs (`Os.cpu_quanta`).
-/
import SimpleOs.Completion

namespace SimpleOs

/-! ## The record of a CPU -/

/-- What `cpu_routine` does that others see. -/
inductive CpuAct
  /-- `get_proc` returned `p`, the program counter of which is `pc`. -/
  | got (p : Pid) (pc : Nat)
  /-- `get_proc` returned NULL. -/
  | null
  /-- `Dispatched process`: `time_left` is set to `time_slot`. -/
  | dispatch (p : Pid)
  /-- `run` executed the instruction at `pc`. -/
  | exec (p : Pid) (pc : Nat)
  /-- `next_slot`. -/
  | slot
  | put (p : Pid)
  | remove (p : Pid)
  /-- `CPU %d stopped`. -/
  | stop
  deriving DecidableEq, Repr

/-- The instruction that is executed, if one is. -/
def CpuAct.instr : CpuAct → Option (Pid × Nat)
  | .exec p pc => some (p, pc)
  | _ => none

section Record
variable (timeSlot : Int) (size : Pid → Nat)

/-- How many instructions a process at `pc` gets. -/
def quantum (p : Pid) (pc : Nat) : Nat := min timeSlot.toNat (size p - pc)

/-- `n` instructions from `pc` on, one a slot.  A process that has none left takes one slot. -/
def slices (p : Pid) (pc n : Nat) : List CpuAct :=
  if n = 0 then [.slot] else (List.range' pc n).flatMap fun i => [.exec p i, .slot]

/-- A process in the hands of a CPU, from `get_proc` until it is given back. -/
def tenure (p : Pid) (pc : Nat) : List CpuAct :=
  [.got p pc, .dispatch p] ++ slices p pc (quantum timeSlot size p pc) ++
    [if pc + quantum timeSlot size p pc < size p then .put p else .remove p]

/-- A tenure, or a slot without a process. -/
def block : Option (Pid × Nat) → List CpuAct
  | none => [.null, .slot]
  | some (p, pc) => tenure timeSlot size p pc

/-- Blocks, and at the end a beginning of one or the end of the thread. -/
def Quanta (trace : List CpuAct) : Prop :=
  ∃ (bs : List (Option (Pid × Nat))) (rest : List CpuAct),
    trace = bs.flatMap (block timeSlot size) ++ rest ∧
    (rest = [.null, .stop] ∨ ∃ b, rest <+: block timeSlot size b)

end Record

/-! ## `cpu_routine` -/

/-- The local variables of the CPU, the program counters, and the record. -/
structure CpuSys where
  cpu : CpuThread
  pc : Pid → Nat
  trace : List CpuAct

/-- A step of the CPU, with what `get_proc` and `done` give it, or of the others. -/
inductive CpuEvent
  | cpu (got : Option Pid) (done : Bool)
  | others (pc : Pid → Nat)

namespace CpuSys

/-- Assignments to local variables, and what is recorded. -/
def set (s : CpuSys) (t : CpuThread) (acts : List CpuAct) : CpuSys :=
  { s with cpu := t, trace := s.trace ++ acts }

/-- `proc = get_proc()`. -/
def get (s : CpuSys) (got : Option Pid) : CpuSys :=
  s.set { s.cpu with proc := got, loc := .recheck }
    [match got with
      | none => .null
      | some p => .got p (s.pc p)]

/-- `run(proc); time_left--`. -/
def run (size : Pid → Nat) (s : CpuSys) (p : Pid) : CpuSys :=
  let t := { s.cpu with timeLeft := s.cpu.timeLeft - 1, loc := .slot }
  if s.pc p ≥ size p then s.set t []
  else { s with pc := Function.update s.pc p (s.pc p + 1) }.set t [.exec p (s.pc p)]

/-- One step of `cpu_routine`, as in `Os`. -/
def cpuRoutine (timeSlot : Int) (size : Pid → Nat) (s : CpuSys) (got : Option Pid) (done : Bool) :
    Option CpuSys :=
  let t := s.cpu
  match t.loc with
  | .top =>
      match t.proc with
      | none => some (s.get got)
      | some p =>
          if s.pc p = size p then some (s.set { t with timeLeft := 0, loc := .get } [.remove p])
          else if t.timeLeft = 0 then some (s.set { t with loc := .get } [.put p])
          else some (s.set { t with loc := .recheck } [])
  | .get => some (s.get got)
  | .recheck =>
      match t.proc with
      | none => some (if done then s.set { t with loc := .detach } [.stop]
          else s.set { t with loc := .slot } [])
      | some p => some (if t.timeLeft = 0
          then s.set { t with timeLeft := timeSlot, loc := .run } [.dispatch p]
          else s.set { t with loc := .run } [])
  | .run => t.proc.map (s.run size)
  | .slot => some (s.set { t with loc := .wait } [.slot])
  | .wait => some (s.set { t with loc := .top } [])
  | .detach => some (s.set { t with loc := .exited } [])
  | .exited => none

/-- A step. -/
def step (timeSlot : Int) (size : Pid → Nat) (s : CpuSys) : CpuEvent → Option CpuSys
  | .cpu got done => s.cpuRoutine timeSlot size got done
  | .others pc => some { s with pc }

/-- The CPU holds the process. -/
def Holds (s : CpuSys) (p : Pid) : Prop := s.cpu.proc = some p ∧ s.cpu.loc ≠ .get

/-- The others run no process that this CPU holds, and none beyond its end. -/
def Others (size : Pid → Nat) (s : CpuSys) : CpuEvent → Prop
  | .cpu _ _ => True
  | .others pc => (∀ p, pc p ≤ size p) ∧ ∀ p, s.Holds p → pc p = s.pc p

/-- A CPU that has just been started. -/
def start (pc : Pid → Nat) : CpuSys := ⟨{ proc := none, timeLeft := 0, loc := .top }, pc, []⟩

end CpuSys

/-! ## Where a CPU is in a tenure -/

section Served
variable (size : Pid → Nat) (p : Pid) (pc : Nat)

/-- The instruction of pass `i` of the loop after the dispatch, if the process has one left. -/
def passInstr (i : Nat) : List CpuAct := if pc + i < size p then [.exec p (pc + i)] else []

/-- A tenure after `k` passes of the loop. -/
def served (k : Nat) : List CpuAct :=
  .got p pc :: .dispatch p :: (List.range k).flatMap fun i => passInstr size p pc i ++ [.slot]

end Served

/-- Process `p`, which was at `b` when it was dispatched, has had `k` passes of the loop. -/
structure Passed (timeSlot : Int) (size pc : Pid → Nat) (p : Pid) (b k : Nat) : Prop where
  start_le : b ≤ size p
  counter : pc p = min (b + k) (size p)
  within : (k : Int) ≤ timeSlot
  live : k ≤ 1 ∨ b + k ≤ size p

/-- Where the CPU is in its block, and what of the block is recorded. -/
inductive Stage (timeSlot : Int) (size pc : Pid → Nat) : CpuThread → List CpuAct → Prop
  | free : Stage timeSlot size pc ⟨none, 0, .top⟩ []
  | between (stale : Option Pid) : Stage timeSlot size pc ⟨stale, 0, .get⟩ []
  | null : Stage timeSlot size pc ⟨none, 0, .recheck⟩ [.null]
  | skip : Stage timeSlot size pc ⟨none, 0, .slot⟩ [.null]
  | skipped : Stage timeSlot size pc ⟨none, 0, .wait⟩ [.null, .slot]
  | stopped {loc : CpuLoc} : loc = .detach ∨ loc = .exited →
      Stage timeSlot size pc ⟨none, 0, loc⟩ [.null, .stop]
  | got (p : Pid) : pc p ≤ size p → Stage timeSlot size pc ⟨some p, 0, .recheck⟩ [.got p (pc p)]
  | run {p : Pid} {b k : Nat} {timeLeft : Int} : Passed timeSlot size pc p b k →
      timeLeft = timeSlot - k → timeLeft ≠ 0 → k = 0 ∨ b + k < size p →
      Stage timeSlot size pc ⟨some p, timeLeft, .run⟩ (served size p b k)
  | ran {p : Pid} {b k : Nat} {timeLeft : Int} : Passed timeSlot size pc p b (k + 1) →
      timeLeft = timeSlot - (k + 1 : Nat) →
      Stage timeSlot size pc ⟨some p, timeLeft, .slot⟩ (served size p b k ++ passInstr size p b k)
  | slot {p : Pid} {b k : Nat} {timeLeft : Int} {loc : CpuLoc} : Passed timeSlot size pc p b k →
      timeLeft = timeSlot - k → k ≠ 0 →
      loc = .wait ∨ loc = .top ∨ loc = .recheck ∧ timeLeft ≠ 0 ∧ pc p ≠ size p →
      Stage timeSlot size pc ⟨some p, timeLeft, loc⟩ (served size p b k)

section Passed
variable {timeSlot : Int} {size pc pc' : Pid → Nat} {p : Pid} {b k m : Nat}

theorem served_succ (size : Pid → Nat) (p : Pid) (b k : Nat) :
    served size p b (k + 1) = served size p b k ++ passInstr size p b k ++ [.slot] := by
  rw [served, List.range_succ, List.flatMap_append, List.flatMap_singleton, List.append_assoc]
  rfl

theorem served_mono (h : k ≤ m) : served size p b k <+: served size p b m := by
  induction m, h using Nat.le_induction with
  | base => exact List.prefix_refl _
  | succ m _ ih =>
      rw [served_succ, List.append_assoc]
      exact ih.trans (List.prefix_append _ _)

/-- The passes of a whole tenure: a process without instructions has one as well. -/
theorem served_quantum (hslot : 1 ≤ timeSlot) (hb : b ≤ size p) :
    served size p b (max 1 (quantum timeSlot size p b)) =
      [.got p b, .dispatch p] ++ slices p b (quantum timeSlot size p b) := by
  have hn : quantum timeSlot size p b ≤ size p - b := Nat.min_le_right _ _
  generalize hq : quantum timeSlot size p b = n at hn
  rw [slices]
  by_cases h₀ : n = 0
  · have hend : size p = b := by
      rw [h₀, quantum] at hq
      omega
    have hpass : passInstr size p b 0 = [] := if_neg (by omega)
    subst h₀
    rw [if_pos rfl, Nat.max_eq_left (Nat.zero_le 1), served_succ, hpass]
    rfl
  · rw [if_neg h₀, Nat.max_eq_right (Nat.pos_of_ne_zero h₀), List.range'_eq_map_range,
      List.flatMap_map, served]
    have hpass : ∀ i ∈ List.range n, passInstr size p b i ++ [.slot] =
        [.exec p (b + i), .slot] := by
      intro i hi
      have hlt := List.mem_range.mp hi
      rw [passInstr, if_pos (by omega)]
      rfl
    rw [List.flatMap_congr hpass]
    rfl

theorem Passed.le (h : Passed timeSlot size pc p b k) : k ≤ max 1 (quantum timeSlot size p b) := by
  have hwithin := h.within
  have hlive := h.live
  rw [quantum]
  omega

/-- What is recorded after some passes is the beginning of a tenure. -/
theorem Passed.begins (h : Passed timeSlot size pc p b k) (hslot : 1 ≤ timeSlot) :
    served size p b k <+: block timeSlot size (some (p, b)) := by
  refine (served_mono h.le).trans ?_
  rw [served_quantum hslot h.start_le]
  exact List.prefix_append _ _

/-- Once the process is at its end or the quantum is used up, giving it back completes the
tenure. -/
theorem Passed.tenure (h : Passed timeSlot size pc p b k) (hslot : 1 ≤ timeSlot) (hk : k ≠ 0)
    (hend : pc p = size p ∨ (k : Int) = timeSlot) :
    served size p b k ++ [if pc p < size p then .put p else .remove p] =
      block timeSlot size (some (p, b)) := by
  have hcounter := h.counter
  have hwithin := h.within
  have hlive := h.live
  have hstart := h.start_le
  have hmax : max 1 (quantum timeSlot size p b) = k := by
    rw [quantum]
    omega
  have hlt : pc p < size p ↔ b + quantum timeSlot size p b < size p := by
    rw [quantum]
    omega
  rw [block, SimpleOs.tenure, ← served_quantum hslot hstart, hmax]
  simp only [hlt]

theorem Passed.zero (hslot : 1 ≤ timeSlot) (h : pc p ≤ size p) :
    Passed timeSlot size pc p (pc p) 0 :=
  ⟨h, (Nat.min_eq_left h).symm, by omega, Or.inl (Nat.zero_le 1)⟩

/-- A pass that executes an instruction. -/
theorem Passed.exec (h : Passed timeSlot size pc p b k) (hlt : pc p < size p)
    (hleft : (k : Int) < timeSlot) :
    Passed timeSlot size (Function.update pc p (pc p + 1)) p b (k + 1) := by
  have hcounter := h.counter
  refine ⟨h.start_le, ?_, by omega, Or.inr (by omega)⟩
  rw [Function.update_self]
  omega

/-- A pass of a process without instructions. -/
theorem Passed.empty (h : Passed timeSlot size pc p b 0) (hend : ¬ pc p < size p)
    (hslot : 1 ≤ timeSlot) : Passed timeSlot size pc p b 1 := by
  have hcounter := h.counter
  have hstart := h.start_le
  exact ⟨hstart, by omega, by omega, Or.inl (Nat.le_refl 1)⟩

theorem Passed.congr (h : Passed timeSlot size pc p b k) (hp : pc' p = pc p) :
    Passed timeSlot size pc' p b k :=
  ⟨h.start_le, hp.trans h.counter, h.within, h.live⟩

end Passed

section Stages
variable {timeSlot : Int} {size pc pc' : Pid → Nat} {t : CpuThread} {rest : List CpuAct}

/-- At every stage the record is the beginning of a block, or the thread has stopped. -/
theorem Stage.begins (h : Stage timeSlot size pc t rest) (hslot : 1 ≤ timeSlot) :
    rest = [.null, .stop] ∨ ∃ b, rest <+: block timeSlot size b := by
  cases h with
  | free => exact .inr ⟨none, List.nil_prefix⟩
  | between stale => exact .inr ⟨none, List.nil_prefix⟩
  | null => exact .inr ⟨none, [.slot], rfl⟩
  | skip => exact .inr ⟨none, [.slot], rfl⟩
  | skipped => exact .inr ⟨none, List.prefix_refl _⟩
  | stopped _ => exact .inl rfl
  | got p _ => exact .inr ⟨some (p, pc p), List.prefix_append _ _⟩
  | run hp _ _ _ => exact .inr ⟨_, hp.begins hslot⟩
  | ran hp _ =>
      have hpre := hp.begins hslot
      rw [served_succ] at hpre
      exact .inr ⟨_, (List.prefix_append _ _).trans hpre⟩
  | slot hp _ _ _ => exact .inr ⟨_, hp.begins hslot⟩

/-- The others do not move the CPU on. -/
theorem Stage.others (h : Stage timeSlot size pc t rest)
    (hpc : ∀ p, t.proc = some p → t.loc ≠ .get → pc' p = pc p) :
    Stage timeSlot size pc' t rest := by
  cases h with
  | free => exact .free
  | between stale => exact .between stale
  | null => exact .null
  | skip => exact .skip
  | skipped => exact .skipped
  | stopped hloc => exact .stopped hloc
  | got p hle =>
      have hp := hpc p rfl CpuLoc.noConfusion
      rw [← hp] at hle ⊢
      exact .got p hle
  | run hp hleft hne hk => exact .run (hp.congr (hpc _ rfl CpuLoc.noConfusion)) hleft hne hk
  | ran hp hleft => exact .ran (hp.congr (hpc _ rfl CpuLoc.noConfusion)) hleft
  | @slot p b k timeLeft loc hp hleft hk hloc =>
      have heq : pc' p = pc p := hpc p rfl (by
        rcases hloc with rfl | rfl | ⟨rfl, _⟩ <;> exact CpuLoc.noConfusion)
      exact .slot (hp.congr heq) hleft hk (by rwa [heq])

end Stages

/-! ## Every run of a CPU -/

/-- The record is some blocks and what is recorded of the one in progress. -/
def CpuSys.InBlock (timeSlot : Int) (size : Pid → Nat) (s : CpuSys) : Prop :=
  ∃ (bs : List (Option (Pid × Nat))) (rest : List CpuAct),
    s.trace = bs.flatMap (block timeSlot size) ++ rest ∧ Stage timeSlot size s.pc s.cpu rest

section Runs
variable {timeSlot : Int} {size : Pid → Nat} {s s' : CpuSys} {rest acts : List CpuAct}
  {bs : List (Option (Pid × Nat))}

/-- The block goes on. -/
theorem CpuSys.InBlock.go (h : s.trace = bs.flatMap (block timeSlot size) ++ rest)
    (ht : s'.trace = s.trace ++ acts) (hst : Stage timeSlot size s'.pc s'.cpu (rest ++ acts)) :
    s'.InBlock timeSlot size :=
  ⟨bs, rest ++ acts, by rw [ht, h, List.append_assoc], hst⟩

/-- The CPU moves on and nothing is recorded. -/
theorem CpuSys.InBlock.stay (h : s.trace = bs.flatMap (block timeSlot size) ++ rest)
    (ht : s'.trace = s.trace ++ []) (hst : Stage timeSlot size s'.pc s'.cpu rest) :
    s'.InBlock timeSlot size :=
  ⟨bs, rest, by rw [ht, List.append_nil, h], hst⟩

/-- The block is complete. -/
theorem CpuSys.InBlock.close (h : s.trace = bs.flatMap (block timeSlot size) ++ rest)
    (ht : s'.trace = s.trace ++ acts) (b : Option (Pid × Nat))
    (hb : rest ++ acts = block timeSlot size b) (hst : Stage timeSlot size s'.pc s'.cpu []) :
    s'.InBlock timeSlot size := by
  refine ⟨bs ++ [b], [], ?_, hst⟩
  rw [ht, h, List.append_assoc, hb, List.flatMap_append, List.flatMap_singleton, List.append_nil]

/-- `get_proc`, the quantum being used up. -/
theorem CpuSys.InBlock.get (h : s.trace = bs.flatMap (block timeSlot size) ++ [])
    (hpc : ∀ p, s.pc p ≤ size p) (hleft : s.cpu.timeLeft = 0) (got : Option Pid) :
    (s.get got).InBlock timeSlot size := by
  refine InBlock.go h rfl ?_
  show Stage timeSlot size s.pc ⟨got, s.cpu.timeLeft, .recheck⟩ _
  rw [hleft]
  cases got with
  | none => exact .null
  | some p => exact .got p (hpc p)

/-- `run`, in the next pass. -/
theorem CpuSys.InBlock.run {p : Pid} {b k : Nat}
    (h : s.trace = bs.flatMap (block timeSlot size) ++ served size p b k)
    (hslot : 1 ≤ timeSlot) (hp : Passed timeSlot size s.pc p b k) (hproc : s.cpu.proc = some p)
    (hleft : s.cpu.timeLeft = timeSlot - k) (hne : s.cpu.timeLeft ≠ 0)
    (hk : k = 0 ∨ b + k < size p) : (s.run size p).InBlock timeSlot size := by
  have hcounter := hp.counter
  have hwithin := hp.within
  by_cases hlt : s.pc p < size p
  · have hat : b + k = s.pc p := by omega
    rw [CpuSys.run, if_neg (Nat.not_le.mpr hlt)]
    refine InBlock.go h rfl ?_
    show Stage timeSlot size (Function.update s.pc p (s.pc p + 1))
      ⟨s.cpu.proc, s.cpu.timeLeft - 1, .slot⟩ _
    have hinstr : [CpuAct.exec p (s.pc p)] = passInstr size p b k := by
      rw [passInstr, hat, if_pos hlt]
    rw [hproc, hinstr]
    exact .ran (hp.exec hlt (by omega)) (by omega)
  · obtain rfl : k = 0 := by omega
    rw [CpuSys.run, if_pos (Nat.not_lt.mp hlt)]
    refine InBlock.go h rfl ?_
    show Stage timeSlot size s.pc ⟨s.cpu.proc, s.cpu.timeLeft - 1, .slot⟩ _
    have hinstr : [] = passInstr size p b 0 := (if_neg (by omega)).symm
    rw [hproc, hinstr]
    exact .ran (hp.empty hlt hslot) (by omega)

/-- A step of the CPU continues its block, completes it, or begins the next. -/
theorem CpuSys.InBlock.step (h : s.InBlock timeSlot size) (hslot : 1 ≤ timeSlot)
    (hpc : ∀ p, s.pc p ≤ size p) {got : Option Pid} {done : Bool}
    (hs : s.cpuRoutine timeSlot size got done = some s') : s'.InBlock timeSlot size := by
  obtain ⟨bs, rest, htrace, hst⟩ := h
  obtain ⟨cpu, pc, trace⟩ := s
  cases hst with
  | free =>
      obtain rfl := Option.some.inj hs
      exact InBlock.get htrace hpc rfl got
  | between stale =>
      obtain rfl := Option.some.inj hs
      exact InBlock.get htrace hpc rfl got
  | null =>
      cases done with
      | true =>
          obtain rfl := Option.some.inj hs
          exact InBlock.go htrace rfl (.stopped (.inl rfl))
      | false =>
          obtain rfl := Option.some.inj hs
          exact InBlock.stay htrace rfl .skip
  | skip =>
      obtain rfl := Option.some.inj hs
      exact InBlock.go htrace rfl .skipped
  | skipped =>
      obtain rfl := Option.some.inj hs
      have hblock : [.null, .slot] ++ [] = block timeSlot size none := rfl
      exact InBlock.close htrace rfl none hblock .free
  | stopped hloc =>
      rcases hloc with rfl | rfl
      · obtain rfl := Option.some.inj hs
        exact InBlock.stay htrace rfl (.stopped (.inr rfl))
      · exact nomatch hs
  | got p hle =>
      obtain rfl := Option.some.inj hs
      exact InBlock.go htrace rfl (.run (.zero hslot hle) (by omega) (by omega) (.inl rfl))
  | run hp hleft hne hk =>
      obtain rfl := Option.some.inj hs
      exact InBlock.run htrace hslot hp rfl hleft hne hk
  | ran hp hleft =>
      obtain rfl := Option.some.inj hs
      refine InBlock.go htrace rfl ?_
      rw [← served_succ]
      exact .slot hp hleft (Nat.succ_ne_zero _) (.inl rfl)
  | @slot p b k timeLeft loc hp hleft hk hloc =>
      rcases hloc with rfl | rfl | ⟨rfl, hne, hend⟩
      · obtain rfl := Option.some.inj hs
        exact InBlock.stay htrace rfl (.slot hp hleft hk (.inr (.inl rfl)))
      · simp only [cpuRoutine] at hs
        by_cases hend : pc p = size p
        · rw [if_pos hend] at hs
          obtain rfl := Option.some.inj hs
          have htenure := hp.tenure hslot hk (.inl hend)
          rw [if_neg (Nat.not_lt.mpr (Nat.le_of_eq hend.symm))] at htenure
          exact InBlock.close htrace rfl _ htenure (.between _)
        · rw [if_neg hend] at hs
          by_cases h₀ : timeLeft = 0
          · rw [if_pos h₀] at hs
            obtain rfl := Option.some.inj hs
            have htenure := hp.tenure hslot hk (.inr (by omega))
            rw [if_pos (Nat.lt_of_le_of_ne (hpc p) hend)] at htenure
            subst h₀
            exact InBlock.close htrace rfl _ htenure (.between _)
          · rw [if_neg h₀] at hs
            obtain rfl := Option.some.inj hs
            exact InBlock.stay htrace rfl (.slot hp hleft hk (.inr (.inr ⟨rfl, h₀, hend⟩)))
      · simp only [cpuRoutine, if_neg hne] at hs
        obtain rfl := Option.some.inj hs
        have hcounter := hp.counter
        exact InBlock.stay htrace rfl (.run hp hleft hne (.inr (by omega)))

/-- `run` stops at the end of the program. -/
theorem CpuSys.pc_le_step (hpc : ∀ p, s.pc p ≤ size p) {got : Option Pid} {done : Bool}
    (hs : s.cpuRoutine timeSlot size got done = some s') (p : Pid) : s'.pc p ≤ size p := by
  rw [cpuRoutine] at hs
  split at hs
  next =>
    split at hs
    next =>
      obtain rfl := Option.some.inj hs
      exact hpc p
    next =>
      split_ifs at hs <;> obtain rfl := Option.some.inj hs <;> exact hpc p
  next =>
    obtain rfl := Option.some.inj hs
    exact hpc p
  next =>
    split at hs
    next =>
      obtain rfl := Option.some.inj hs
      split <;> exact hpc p
    next =>
      obtain rfl := Option.some.inj hs
      split <;> exact hpc p
  next =>
    obtain ⟨q, -, rfl⟩ := Option.map_eq_some_iff.mp hs
    rw [CpuSys.run]
    split
    next => exact hpc p
    next hlt =>
      show Function.update s.pc q (s.pc q + 1) p ≤ size p
      rcases eq_or_ne p q with rfl | hne
      · rw [Function.update_self]
        exact Nat.lt_of_not_le hlt
      · rw [Function.update_of_ne hne]
        exact hpc p
  next =>
    obtain rfl := Option.some.inj hs
    exact hpc p
  next =>
    obtain rfl := Option.some.inj hs
    exact hpc p
  next =>
    obtain rfl := Option.some.inj hs
    exact hpc p
  next => exact nomatch hs

/-- What holds of a CPU in every state it reaches. -/
structure CpuSys.Ok (timeSlot : Int) (size : Pid → Nat) (s : CpuSys) : Prop where
  pc_le : ∀ p, s.pc p ≤ size p
  inBlock : s.InBlock timeSlot size

theorem CpuSys.ok_start {pc : Pid → Nat} (hpc : ∀ p, pc p ≤ size p) :
    (CpuSys.start pc).Ok timeSlot size := ⟨hpc, [], [], rfl, .free⟩

theorem CpuSys.Ok.step (h : s.Ok timeSlot size) (hslot : 1 ≤ timeSlot) {e : CpuEvent}
    (hok : s.Others size e) (hs : s.step timeSlot size e = some s') : s'.Ok timeSlot size := by
  cases e with
  | cpu got done => exact ⟨pc_le_step h.pc_le hs, h.inBlock.step hslot h.pc_le hs⟩
  | others pc =>
      obtain rfl := Option.some.inj hs
      obtain ⟨bs, rest, htrace, hst⟩ := h.inBlock
      exact ⟨hok.1, bs, rest, htrace, hst.others fun p hproc hloc => hok.2 p ⟨hproc, hloc⟩⟩

theorem CpuSys.Ok.quanta (h : s.Ok timeSlot size) (hslot : 1 ≤ timeSlot) :
    Quanta timeSlot size s.trace := by
  obtain ⟨bs, rest, htrace, hst⟩ := h.inBlock
  exact ⟨bs, rest, htrace, hst.begins hslot⟩

/-- Whatever `get_proc` returns and `done` reads, and whatever the other threads do: every process
that the CPU gets is dispatched with the whole quantum, executes as many instructions as the
quantum and its program allow, and goes to `put_proc` if some are left, else to `remove_proc`. -/
theorem quantum_law (hslot : 1 ≤ timeSlot) {pc : Pid → Nat} (hpc : ∀ p, pc p ≤ size p)
    {es : List CpuEvent}
    (h : Lts.Run (CpuSys.step timeSlot size) (CpuSys.Others size) (CpuSys.start pc) es s) :
    Quanta timeSlot size s.trace :=
  (h.invariant (P := CpuSys.Ok timeSlot size) (CpuSys.ok_start hpc)
    fun _ _ _ hs hok hstep => hs.step hslot hok hstep).quanta hslot

end Runs

/-- Process 0 has three instructions, the others have none. -/
def threeOrNone (p : Pid) : Nat := if p = 0 then 3 else 0

/-- A CPU that gets process 0 at first, and then process 1. -/
def twoTenures : List CpuEvent :=
  List.replicate 11 (.cpu (some 0) false) ++ List.replicate 6 (.cpu (some 1) false)

/-- With a quantum of two, process 0 is put back after two instructions. -/
theorem quantum_law_preempted : ∃ s,
    Lts.Run (CpuSys.step 2 threeOrNone) (CpuSys.Others threeOrNone) (CpuSys.start fun _ => 0)
      twoTenures s ∧
    s.trace = [.got 0 0, .dispatch 0, .exec 0 0, .slot, .exec 0 1, .slot, .put 0,
      .got 1 0, .dispatch 1, .slot, .remove 1] ∧
    Quanta 2 threeOrNone s.trace := by
  have hmap : (Lts.exec (CpuSys.step 2 threeOrNone) (CpuSys.start fun _ => 0) twoTenures).map
      CpuSys.trace = some [.got 0 0, .dispatch 0, .exec 0 0, .slot, .exec 0 1, .slot, .put 0,
        .got 1 0, .dispatch 1, .slot, .remove 1] := by decide
  obtain ⟨s, hexec, htrace⟩ := Option.map_eq_some_iff.mp hmap
  have hrun : Lts.Run (CpuSys.step 2 threeOrNone) (CpuSys.Others threeOrNone)
      (CpuSys.start fun _ => 0) twoTenures s := by
    refine Lts.Run.of_reaches (Lts.reaches_of_exec hexec) fun e he s => ?_
    rcases List.mem_append.mp he with he | he
    · rw [List.eq_of_mem_replicate he]
      exact trivial
    · rw [List.eq_of_mem_replicate he]
      exact trivial
  exact ⟨s, hrun, htrace, quantum_law (by decide) (fun _ => Nat.zero_le _) hrun⟩

/-! ## The CPUs of the whole machine -/

/-- `OsCfg.proc`, `code->size` only. -/
def OsCfg.codeSize (cfg : OsCfg) (p : Pid) : Nat := (cfg.proc p).size

/-- `l` is CPU `c` of the machine; its record has the instructions of the log. -/
structure CpuSys.IsCpu (l : CpuSys) (s : Os) (c : Nat) : Prop where
  cpu : l.cpu = s.cpu c
  pc : l.pc = s.pc
  log : l.trace.filterMap CpuAct.instr = (s.log.filter fun x => x.1 = c).map Prod.snd

section Machine
variable {cfg : OsCfg} {s s' : Os} {c i : Nat} {l : CpuSys} {e : OsEvent}

/-- A step that executes nothing. -/
theorem CpuSys.IsCpu.set (h : l.IsCpu s c) {t : CpuThread} {acts : List CpuAct}
    (ht : t = s'.cpu c) (hpc : s'.pc = s.pc) (hlog : s'.log = s.log)
    (hacts : acts.filterMap CpuAct.instr = []) : (l.set t acts).IsCpu s' c where
  cpu := ht
  pc := h.pc.trans hpc.symm
  log := by
    show (l.trace ++ acts).filterMap CpuAct.instr = _
    rw [List.filterMap_append, hacts, List.append_nil, h.log, hlog]

/-- An assignment to the local variables. -/
theorem CpuSys.IsCpu.setCpu (h : l.IsCpu s c) {t : CpuThread} {acts : List CpuAct}
    (hpc : s'.pc = s.pc) (hlog : s'.log = s.log) (hacts : acts.filterMap CpuAct.instr = []) :
    (l.set t acts).IsCpu (s'.setCpu c t) c :=
  h.set (Os.setCpu_self _ _ _).symm hpc hlog hacts

/-- `get_proc` returns what the scheduler has. -/
theorem CpuSys.IsCpu.get (h : l.IsCpu s c) :
    (l.get (getProc s.sched).2).IsCpu (cpuGet s c) c := by
  refine h.set ?_ rfl rfl ?_
  · rw [h.cpu]
    exact (Os.setCpu_self _ _ _).symm
  · cases (getProc s.sched).2 <;> rfl

/-- `run`. -/
theorem CpuSys.IsCpu.run (h : l.IsCpu s c) (cfg : OsCfg) (p : Pid) :
    (l.run cfg.codeSize p).IsCpu ((s.run cfg c p).setCpu c
      { s.cpu c with timeLeft := (s.cpu c).timeLeft - 1, loc := .slot }) c := by
  rw [CpuSys.run, Os.run, h.pc, h.cpu]
  by_cases hend : s.pc p ≥ (cfg.proc p).size
  · have hend' : s.pc p ≥ cfg.codeSize p := hend
    rw [if_pos hend, if_pos hend']
    exact h.setCpu rfl rfl rfl
  · have hend' : ¬ s.pc p ≥ cfg.codeSize p := hend
    rw [if_neg hend, if_neg hend']
    refine ⟨(Os.setCpu_self _ _ _).symm, rfl, ?_⟩
    show (l.trace ++ [CpuAct.exec p (s.pc p)]).filterMap CpuAct.instr =
      ((s.log ++ [(c, p, s.pc p)]).filter fun x => x.1 = c).map Prod.snd
    rw [List.filterMap_append, List.filter_append, List.map_append, h.log]
    congr 1
    simp [CpuAct.instr]

/-- A step of `cpu_routine` in the machine is one here. -/
theorem CpuSys.IsCpu.cpuRoutine (h : l.IsCpu s c) (hs : SimpleOs.cpuRoutine cfg s c = some s') :
    ∃ l', l.cpuRoutine cfg.timeSlot cfg.codeSize (getProc s.sched).2 s.done = some l' ∧
      l'.IsCpu s' c := by
  cases hloc : (s.cpu c).loc with
  | top =>
      simp only [SimpleOs.cpuRoutine, hloc, cpuTop] at hs
      simp only [CpuSys.cpuRoutine, h.cpu, hloc]
      cases hproc : (s.cpu c).proc with
      | none =>
          simp only [hproc] at hs ⊢
          obtain rfl := Option.some.inj hs
          exact ⟨_, rfl, h.get⟩
      | some p =>
          simp only [hproc, h.pc] at hs ⊢
          by_cases hend : s.pc p = (cfg.proc p).size
          · have hend' : s.pc p = cfg.codeSize p := hend
            rw [if_pos hend] at hs
            rw [if_pos hend']
            obtain rfl := Option.some.inj hs
            exact ⟨_, rfl, h.setCpu rfl rfl rfl⟩
          · have hend' : ¬ s.pc p = cfg.codeSize p := hend
            rw [if_neg hend] at hs
            rw [if_neg hend']
            by_cases hleft : (s.cpu c).timeLeft = 0
            · rw [if_pos hleft] at hs ⊢
              obtain ⟨sched, -, rfl⟩ := toOption_map_some hs
              exact ⟨_, rfl, h.setCpu rfl rfl rfl⟩
            · rw [if_neg hleft] at hs ⊢
              obtain rfl := Option.some.inj hs
              exact ⟨_, rfl, h.setCpu rfl rfl rfl⟩
  | get =>
      simp only [SimpleOs.cpuRoutine, hloc] at hs
      simp only [CpuSys.cpuRoutine, h.cpu, hloc]
      obtain rfl := Option.some.inj hs
      exact ⟨_, rfl, h.get⟩
  | recheck =>
      simp only [SimpleOs.cpuRoutine, hloc, cpuRecheck] at hs
      simp only [CpuSys.cpuRoutine, h.cpu, hloc]
      obtain rfl := Option.some.inj hs
      cases hproc : (s.cpu c).proc with
      | none =>
          simp only
          split
          next => exact ⟨_, rfl, h.setCpu rfl rfl rfl⟩
          next => exact ⟨_, rfl, h.setCpu rfl rfl rfl⟩
      | some p =>
          simp only
          split
          next => exact ⟨_, rfl, h.setCpu rfl rfl rfl⟩
          next => exact ⟨_, rfl, h.setCpu rfl rfl rfl⟩
  | run =>
      simp only [SimpleOs.cpuRoutine, hloc] at hs
      simp only [CpuSys.cpuRoutine, h.cpu, hloc]
      obtain ⟨p, hproc, rfl⟩ := Option.map_eq_some_iff.mp hs
      refine ⟨l.run cfg.codeSize p, ?_, h.run cfg p⟩
      rw [hproc]
      rfl
  | slot =>
      simp only [SimpleOs.cpuRoutine, hloc] at hs
      simp only [CpuSys.cpuRoutine, h.cpu, hloc]
      obtain ⟨timer, -, rfl⟩ := onTimer_some hs
      exact ⟨_, rfl, h.setCpu rfl rfl rfl⟩
  | wait =>
      simp only [SimpleOs.cpuRoutine, hloc] at hs
      simp only [CpuSys.cpuRoutine, h.cpu, hloc]
      obtain ⟨timer, -, rfl⟩ := onTimer_some hs
      exact ⟨_, rfl, h.setCpu rfl rfl rfl⟩
  | detach =>
      simp only [SimpleOs.cpuRoutine, hloc] at hs
      simp only [CpuSys.cpuRoutine, h.cpu, hloc]
      obtain ⟨timer, -, rfl⟩ := onTimer_some hs
      exact ⟨_, rfl, h.setCpu rfl rfl rfl⟩
  | exited =>
      simp only [SimpleOs.cpuRoutine, hloc] at hs
      cases hs

/-- A step of anyone else, as CPU `c` sees it. -/
structure Elsewhere (s s' : Os) (c : Nat) : Prop where
  cpu : s'.cpu c = s.cpu c
  pc : ∀ p, s.Holds c p → s'.pc p = s.pc p
  log : (s'.log.filter fun x => x.1 = c) = s.log.filter fun x => x.1 = c

/-- A step that executes nothing and is not CPU `c`'s. -/
theorem Elsewhere.same (hcpu : s'.cpu c = s.cpu c) (hpc : s'.pc = s.pc) (hlog : s'.log = s.log) :
    Elsewhere s s' c :=
  ⟨hcpu, fun _ _ => by rw [hpc], by rw [hlog]⟩

/-- A step of another CPU: the process it runs is not held here. -/
theorem Elsewhere.cpu_move (hne : c ≠ i)
    (hheld : ∀ p, (s.cpu i).loc = .run → (s.cpu i).proc = some p → ¬ s.Holds c p)
    (hm : CpuMove cfg s i s') : Elsewhere s s' c := by
  cases hm with
  | exec p hloc hproc _ =>
      refine ⟨Os.setCpu_of_ne _ _ hne, fun q hq => ?_, ?_⟩
      · have hqp : q ≠ p := fun heq => hheld p hloc hproc (heq ▸ hq)
        exact Function.update_of_ne hqp _ _
      · show (s.log ++ [(i, p, s.pc p)]).filter _ = _
        have hneg : decide ((i, p, s.pc p).1 = c) = false := decide_eq_false hne.symm
        rw [List.filter_append, List.filter_singleton, hneg]
        exact List.append_nil _
  | idle _ _ => exact .same (Os.setCpu_of_ne _ _ hne) rfl rfl
  | dispatch _ _ _ _ _ => exact .same (Os.setCpu_of_ne _ _ hne) rfl rfl
  | finish _ _ _ _ => exact .same (Os.setCpu_of_ne _ _ hne) rfl rfl
  | put _ _ _ _ _ => exact .same (Os.setCpu_of_ne _ _ hne) rfl rfl
  | stop _ _ _ => exact .same (Os.setCpu_of_ne _ _ hne) rfl rfl
  | skip _ _ _ => exact .same (Os.setCpu_of_ne _ _ hne) rfl rfl
  | keep _ _ _ _ _ => exact .same (Os.setCpu_of_ne _ _ hne) rfl rfl
  | timer _ _ _ _ _ => exact .same (Os.setCpu_of_ne _ _ hne) rfl rfl

theorem OsOk.elsewhere (h : OsOk cfg s) (hs : osStep cfg s e = some s') (hne : e ≠ .cpu c) :
    Elsewhere s s' c := by
  cases e with
  | cpu i =>
      have hci : c ≠ i := fun heq => hne (heq ▸ rfl)
      rw [osStep] at hs
      split at hs
      next =>
        refine .cpu_move hci (fun p hloc hproc hc => ?_) (cpuRoutine_move hs)
        obtain ⟨place, hplace⟩ := h.located
        have hi : s.Holds i p := ⟨hproc, by rw [hloc]; exact CpuLoc.noConfusion⟩
        have heq : Place.hand c = Place.hand i :=
          ((hplace.held c p).mp hc).symm.trans ((hplace.held i p).mp hi)
        exact hci (Place.hand.inj heq)
      next => cases hs
  | loader => cases ldRoutine_move hs <;> exact .same rfl rfl rfl
  | timer =>
      obtain ⟨timer, -, rfl⟩ := Option.map_eq_some_iff.mp hs
      exact .same rfl rfl rfl
  | stop =>
      rw [osStep] at hs
      split at hs
      next =>
        obtain rfl := Option.some.inj hs
        exact .same rfl rfl rfl
      next => cases hs

/-- A step of the machine is a step of its CPU `c` or of the others. -/
theorem CpuSys.IsCpu.step (h : l.IsCpu s c) (hok : OsOk cfg s) (hok' : OsOk cfg s')
    (hs : osStep cfg s e = some s') : ∃ ce l', l.Others cfg.codeSize ce ∧
      l.step cfg.timeSlot cfg.codeSize ce = some l' ∧ l'.IsCpu s' c := by
  by_cases he : e = .cpu c
  · subst he
    rw [osStep] at hs
    split at hs
    next =>
      obtain ⟨l', hl, hl'⟩ := h.cpuRoutine hs
      exact ⟨.cpu _ _, l', trivial, hl, hl'⟩
    next => cases hs
  · have hother := hok.elsewhere hs he
    refine ⟨.others s'.pc, { l with pc := s'.pc }, ⟨hok'.progress.pc_le, ?_⟩, rfl,
      h.cpu.trans hother.cpu.symm, rfl, h.log.trans (congrArg _ hother.log.symm)⟩
    rintro p ⟨hproc, hloc⟩
    rw [h.cpu] at hproc hloc
    rw [h.pc]
    exact hother.pc p ⟨hproc, hloc⟩

/-- In every run of the machine, the instructions that CPU `c` executes are those of tenures. -/
theorem Os.cpu_quanta (hcpus : 1 ≤ cfg.numCpus) (hfits : cfg.Fits) (hslot : 1 ≤ cfg.timeSlot)
    {es : List OsEvent} (h : Lts.Reaches (osStep cfg) cfg.start es s) (c : Nat) :
    ∃ trace, Quanta cfg.timeSlot cfg.codeSize trace ∧
      trace.filterMap CpuAct.instr = (s.log.filter fun x => x.1 = c).map Prod.snd := by
  have hstart : (CpuSys.start cfg.start.pc).IsCpu cfg.start c := ⟨rfl, rfl, rfl⟩
  obtain ⟨-, l, hl, hcpu⟩ := h.invariant
    (P := fun s => OsOk cfg s ∧ ∃ l : CpuSys, l.Ok cfg.timeSlot cfg.codeSize ∧ l.IsCpu s c)
    ⟨osOk_of_reaches hcpus hfits .nil, _, CpuSys.ok_start fun _ => Nat.zero_le _, hstart⟩
    (by
      rintro s e s' ⟨hok, l, hl, hcpu⟩ - hs
      have hok' := hok.step hcpus hfits hs
      obtain ⟨ce, l', hothers, hstep, hcpu'⟩ := hcpu.step hok hok' hs
      exact ⟨hok', l', hl.step hslot hothers hstep, hcpu'⟩)
  exact ⟨l.trace, hl.quanta hslot, hcpu.log⟩

end Machine

end SimpleOs
