/-
# `SimpleOs.Machine` — the machine: loader, CPUs, instructions (`cpu.c`, `os.c`)

The state is the kernel, what every CPU holds, and where the loader is.  An
event is one step of one thread: the loader creates a process (and stores its
`mm` to `krnl->mm`) or adds it to the scheduler; a CPU gets, puts or removes a
process, restores `krnl->mm`, or runs one instruction.  A list of events is an
interleaving; an event that its thread cannot take where it stands, or that
runs into undefined behaviour, has no successor.  What the source does in several
steps is one event in two places, which are taken apart later: an instruction
(`Access`) and the creation of a process (`Creation`).

Programs are not fixed: every instruction may come next, and a process may
finish or use up its slice after any instruction.  That leaves out `pc`,
`time_left` and the timer, and allows every schedule that these produce.
-/
import SimpleOs.Fault

namespace SimpleOs

/-! ## Instructions -/

/-- `enum ins_opcode_t`. -/
inductive Opcode
  | calc | alloc | free | read | write
  | kmalloc | kmemCacheCreate | kmemCacheAlloc | copyFromUser | copyToUser
  | syscall
  deriving DecidableEq, Repr

/-- `struct inst_t`. -/
structure Inst where
  opcode : Opcode
  arg0 : Addr
  arg1 : Addr
  arg2 : Addr
  arg3 : Addr
  deriving DecidableEq, Repr

/-- The `switch` of `run`: the kernel after the instruction and its status.  The kernel-memory
instructions are stubs that return a constant. -/
def exec (k : Krnl) (proc : Pid) (ins : Inst) (junk : Byte) : Except Ub (Krnl × Int) :=
  match ins.opcode with
  | .calc => .ok (k, 0)
  | .alloc => liballoc k proc ins.arg0 (ins.arg1.setWidth 32) junk
  | .kmalloc => .ok (k, 0)
  | .kmemCacheCreate => .ok (k, 0)
  | .kmemCacheAlloc => .ok (k, 0)
  | .copyFromUser => .ok (k, 0)
  | .copyToUser => .ok (k, 1)
  | .free => libfree k proc (ins.arg0.setWidth 32)
  | .read => do
      -- `*destination` is a field of `run`'s own copy of the instruction
      let (k, val, _) ← libread k proc (ins.arg0.setWidth 32) ins.arg1 junk
      pure (k, val)
  | .write => libwrite k proc (ins.arg0.setWidth 8) (ins.arg1.setWidth 32) ins.arg2 junk
  | .syscall => libsyscall k proc (ins.arg0.setWidth 32) ins.arg1 ins.arg2 ins.arg3 junk

/-! ## The state -/

/-- What a CPU holds: no process, a process, or a process whose `mm` it has just stored to
`krnl->mm`. -/
inductive Cpu
  | idle
  | holding (p : Pid)
  | restored (p : Pid)
  deriving DecidableEq, Repr

/-- The process in the hands of a CPU. -/
def Cpu.proc : Cpu → Option Pid
  | .idle => none
  | .holding p => some p
  | .restored p => some p

/-- The machine. -/
structure Sys where
  krnl : Krnl
  /-- `proc->prio`. -/
  prio : Pid → Nat
  cpu : Nat → Cpu
  /-- The process that the loader has created and not yet added. -/
  pending : Option Pid
  /-- The processes added and not reported finished, in the order of loading. -/
  live : List Pid

/-- The machine after `main` has set up the devices and the scheduler.  `ramJunk` and `swpJunk`
say whether the link that `MEMPHY_format` leaves unwritten on a one-frame device is NULL. -/
def boot (memramsz memswpsz : Addr) (ramJunk swpJunk : Bool) : Sys where
  krnl := {
    sched := initScheduler
    mm := none
    mram := initMemphy memramsz true ramJunk
    activeMswp := initMemphy memswpsz true swpJunk
    ownMm := fun _ => none }
  prio := fun _ => 0
  cpu := fun _ => .idle
  pending := none
  live := []

/-! ## Events -/

/-- One step of one thread. -/
inductive Event
  /-- The loader: `load`, `malloc` of the `mm`, `init_mm`, and the stores to `krnl->mm` and
  `proc->own_mm`, with no CPU in between.  `symrgtbl` is what `malloc` left in the symbol
  table. -/
  | create (p : Pid) (prio : Nat) (symrgtbl : Nat → VmRg)
  /-- The loader: `add_proc`. -/
  | add
  /-- An idle CPU: `get_proc`. -/
  | get (c : Nat)
  /-- A CPU whose time slice is over: `put_proc`. -/
  | put (c : Nat)
  /-- A CPU whose process has finished: `remove_proc`. -/
  | finish (c : Nat)
  /-- A CPU about to run: `krnl->mm = proc->own_mm`. -/
  | restore (c : Nat)
  /-- A CPU: `run`, one instruction. -/
  | run (c : Nat) (ins : Inst) (junk : Byte)

def Sys.setSched (s : Sys) (sched : Sched) : Sys := { s with krnl := { s.krnl with sched } }

def Sys.setCpu (s : Sys) (c : Nat) (cpu : Cpu) : Sys :=
  { s with cpu := Function.update s.cpu c cpu }

/-- The successor of a state. -/
def step (s : Sys) : Event → Option Sys
  | .create p prio symrgtbl =>
      if s.pending.isNone ∧ (s.krnl.ownMm p).isNone then
        some { s with
          krnl := { s.krnl.setMm p (initMm symrgtbl) with mm := some p }
          prio := Function.update s.prio p prio
          pending := some p }
      else none
  | .add =>
      match s.pending with
      | none => none
      | some p =>
          match addProc s.krnl.sched p (s.prio p) with
          | .error _ => none
          | .ok sched => some { s.setSched sched with pending := none, live := s.live ++ [p] }
  | .get c =>
      match s.cpu c with
      | .idle =>
          match getProc s.krnl.sched with
          | (sched, none) => some (s.setSched sched)
          | (sched, some p) => some ((s.setSched sched).setCpu c (.holding p))
      | _ => none
  | .put c =>
      match s.cpu c with
      | .holding p =>
          match putProc s.krnl.sched p (s.prio p) with
          | .error _ => none
          | .ok sched => some ((s.setSched sched).setCpu c .idle)
      | _ => none
  | .finish c =>
      match s.cpu c with
      | .holding p =>
          some { (s.setSched (removeProc s.krnl.sched p)).setCpu c .idle with
            live := s.live.erase p }
      | _ => none
  | .restore c =>
      match s.cpu c with
      | .holding p =>
          let mm := if (s.krnl.ownMm p).isSome then some p else s.krnl.mm
          some ({ s with krnl := { s.krnl with mm } }.setCpu c (.restored p))
      | _ => none
  | .run c ins junk =>
      match s.cpu c with
      | .restored p =>
          match exec s.krnl p ins junk with
          | .error _ => none
          | .ok (krnl, _) => some ({ s with krnl }.setCpu c (.holding p))
      | _ => none

end SimpleOs
