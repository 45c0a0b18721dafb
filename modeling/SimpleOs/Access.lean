/-
# `SimpleOs.Access` — the instructions, one access at a time

The functions of `Memphy`, `Paging`, `Vm`, `SysMem` and `LibMem` once more, under the same
names, as code that shares the kernel with the other CPUs: `mmvm_lock` is taken and given
back where the source does it, and between any two accesses somebody else may run.
`Solo` proves that with nobody in between they are the functions of those modules.

`MEMPHY_get_freefp` and `MEMPHY_put_freefp` are two accesses each: what is read of the list,
and the stores that follow from it.  (When two CPUs have read the same head, both store; the
used list of the model then has the node twice, where the links of the source run in a
circle.)  What touches one process only (an entry, the
replacement list, the regions, a symbol) is one access, and so is the copy of a page.
The search of `running_list` in `__sys_memmap` is one access here; `Lookup` takes it apart.
-/
import SimpleOs.Machine
import SimpleOs.Lib.Mutex

namespace SimpleOs

open Mutex

/-! ## Accesses -/

/-- A device that the kernel hands frames out of. -/
inductive Dev
  | ram | swp
  deriving DecidableEq, Repr

def Krnl.dev (k : Krnl) : Dev → Memphy
  | .ram => k.mram
  | .swp => k.activeMswp

def Krnl.setDev (k : Krnl) : Dev → Memphy → Krnl
  | .ram, mp => { k with mram := mp }
  | .swp, mp => { k with activeMswp := mp }

/-- The accesses at which it is decided whether lists or entries will change: `__read` loads the
region entry, `__sys_memmap` scans for its caller, `MEMPHY_get_freefp` loads the head. -/
inductive Site
  | plain
  | entry (caller : Pid) (ptr : Pid × Int) (offset : Addr)
  | scan (caller : Pid) (regs : ScRegs)
  | head (d : Dev)

/-- Code that shares the kernel. -/
abbrev Prog (α : Type) : Type := Code Site Krnl Ub α

/-- A load of `caller->own_mm`. -/
def loadOwn (caller : Pid) : Prog (Option Mm) := Code.load .plain (fun k => k.ownMm caller)

/-- An access to what `caller->own_mm` points to. -/
def withOwn {α : Type} (caller : Pid) (f : Mm → Except Ub (Mm × α)) : Prog α :=
  Code.attempt .plain fun k =>
    match k.ownMm caller with
    | none => .error .wildPointer
    | some mm => do
        let (mm, a) ← f mm
        pure (k.setMm caller mm, a)

namespace Access

/-! ## `mm-memphy.c` -/

/-- `MEMPHY_get_freefp`. -/
def memphyGetFreefp (d : Dev) : Prog (Option Nat) := do
  let fp ← Code.load (.head d) (fun k => (k.dev d).freeFpList)
  match fp.fpns with
  | [] => if fp.closed then pure none else .crash .wildPointer
  | fpn :: rest => do
      Code.store .plain (fun k => k.setDev d { k.dev d with
        freeFpList := { fp with fpns := rest }
        usedFpList := fpn :: (k.dev d).usedFpList })
      pure (some fpn)

/-- `MEMPHY_put_freefp`. -/
def memphyPutFreefp (d : Dev) (fpn : Nat) : Prog Unit := do
  let fp ← Code.load .plain (fun k => (k.dev d).freeFpList)
  Code.store .plain (fun k => k.setDev d { k.dev d with
    freeFpList := { fp with fpns := fpn :: fp.fpns } })

/-! ## `mm64.c` -/

/-- `pte_get_entry`. -/
def pteGetEntry (caller : Pid) (pgn : Nat) : Prog (BitVec 32) :=
  withOwn caller (fun mm => .ok (SimpleOs.pteGetEntry mm pgn))

/-- `pte_set_fpn`. -/
def pteSetFpn (caller : Pid) (pgn fpn : Nat) : Prog Unit :=
  withOwn caller (fun mm => .ok (SimpleOs.pteSetFpn mm pgn fpn, ()))

/-- `pte_set_swap`. -/
def pteSetSwap (caller : Pid) (pgn swptyp swpoff : Nat) : Prog Unit :=
  withOwn caller (fun mm => .ok (SimpleOs.pteSetSwap mm pgn swptyp swpoff, ()))

/-- `enlist_pgn_node(&caller->own_mm->fifo_pgn, pgn)`. -/
def enlistPgnNode (caller : Pid) (pgn : Nat) : Prog Unit :=
  withOwn caller (fun mm => .ok (mm.enlist pgn, ()))

/-- The loop of `vmap_pgd_memset`, from page `pgn` on. -/
def vmapPgdMemset (caller : Pid) (pgn : Nat) : Nat → Prog Unit
  | 0 => pure ()
  | n + 1 => do
      vmapPgdMemset caller pgn n
      withOwn caller (fun mm => .ok ({ mm with pgd := mm.pgd.modify (pgn + n) (fun _ => 0) }, ()))

/-- `alloc_pages_range`. -/
def allocPagesRange : Nat → Prog (List Nat × Addr)
  | 0 => pure ([], 0)
  | reqPgnum + 1 => do
      match ← memphyGetFreefp .ram with
      | none => pure ([], -3000)
      | some fpn => do
          let (frmLst, ret) ← allocPagesRange reqPgnum
          pure (fpn :: frmLst, ret)

/-- The loop of `vmap_page_range`, from page `pgn` on. -/
def vmapLoop (caller : Pid) (pgn : Nat) : Nat → List Nat → Prog Addr
  | 0, _ => pure 0
  | _ + 1, [] => pure (-1)
  | n + 1, fpn :: frames => do
      pteSetFpn caller pgn fpn
      enlistPgnNode caller pgn
      vmapLoop caller (pgn + 1) n frames

/-- `vmap_page_range`. -/
def vmapPageRange (caller : Pid) (addr : Addr) (pgnum : Int) (frames : List Nat) :
    Prog (VmRg × Addr) := do
  let bytes ← Code.ofExcept (intResult (pgnum * pagingPagesz))
  let retRg : VmRg := { rgStart := addr, rgEnd := addr + BitVec.ofInt 64 bytes }
  let ret ← vmapLoop caller (addr.toNat / pagingPagesz) pgnum.toNat frames
  pure (retRg, ret)

/-- `vm_map_ram`. -/
def vmMapRam (caller : Pid) (mapstart : Addr) (incpgnum : Int) (retRg : VmRg) :
    Prog (VmRg × Addr) := do
  let (frmLst, retAlloc) ← allocPagesRange incpgnum.toNat
  if retAlloc < 0 ∧ retAlloc ≠ -3000 then pure (retRg, -1)
  else if retAlloc = -3000 then pure (retRg, -1)
  else do
    let (retRg, _) ← vmapPageRange caller mapstart incpgnum frmLst
    pure (retRg, 0)

/-! ## `mm-vm.c` -/

/-- `inc_vma_limit`. -/
def incVmaLimit (caller : Pid) (vmaid : Int) (incSz : Addr) : Prog Int := do
  match ← loadOwn caller with
  | none => pure (-1)
  | some mm =>
      let incAmt := pagingPageAlignsz incSz
      let incnumpage := ((incAmt / 256).setWidth 32).toInt
      match getVmAreaNodeAtBrk mm vmaid incSz, mm.getVmaByNum vmaid with
      | some area, some curVma =>
          if validateOverlapVmArea mm vmaid area.rgStart area.rgEnd < 0 then pure (-1)
          else do
            let (area, ret) ← vmMapRam caller area.rgStart incnumpage area
            if ret < 0 then pure (-1)
            else do
              let curVma := { curVma with vmEnd := area.rgEnd, sbrk := area.rgEnd }
              withOwn caller (fun mm => .ok (mm.setVma vmaid curVma, ()))
              pure 0
      | _, _ => pure (-1)

/-! ## `sys_mem.c` -/

/-- `__sys_memmap`. -/
def sysMemmap (pid : Pid) (regs : ScRegs) (junk : Byte) : Prog (ScRegs × Int) := do
  let memop := (regs.a1.setWidth 32).toInt
  match ← Code.load (.scan pid regs) (fun k => findCaller k pid) with
  | none => pure (regs, -1)
  | some caller =>
      if memop = sysmemMapOp then do
        vmapPgdMemset caller ((viaU32 regs.a2).toNat / pagingPagesz)
          (regs.a3.setWidth 32).toInt.toNat
        pure (regs, 0)
      else if memop = sysmemIncOp then do
        let _ ← incVmaLimit caller (regs.a2.setWidth 32).toInt (viaU32 regs.a3)
        pure (regs, 0)
      else if memop = sysmemSwpOp then do
        let _ ← Code.attempt .plain (fun k =>
          mmSwapPage k (viaU32 regs.a2).toNat (viaU32 regs.a3).toNat junk)
        pure (regs, 0)
      else if memop = sysmemIoRead then do
        let value ← Code.attempt .plain (fun k => do
          let (mram, _, value) ← memphyRead k.mram (viaU32 regs.a2).toNat junk
          pure ({ k with mram }, value))
        pure ({ regs with a3 := value.signExtend 64 }, 0)
      else if memop = sysmemIoWrite then do
        Code.attempt .plain (fun k => do
          let (mram, _) ← memphyWrite k.mram (viaU32 regs.a2).toNat (regs.a3.setWidth 8)
          pure ({ k with mram }, ()))
        pure (regs, 0)
      else pure (regs, 0)

/-- `_syscall`. -/
def syscall (pid : Pid) (nr : BitVec 32) (regs : ScRegs) (junk : Byte) : Prog (ScRegs × Int) :=
  if nr = 17 then sysMemmap pid regs junk else pure (regs, 0)

/-- `libsyscall`. -/
def libsyscall (caller : Pid) (syscallIdx : BitVec 32) (a1 a2 a3 : Addr) (junk : Byte) :
    Prog Int := do
  let (_, ret) ← syscall caller syscallIdx { a1, a2, a3 } junk
  pure ret

/-! ## `libmem.c` -/

/-- `__alloc`. -/
def alloc (caller : Pid) (vmaid rgid : Int) (size : Addr) (junk : Byte) :
    Prog (Int × Option Addr) := do
  Code.lock
  match ← loadOwn caller with
  | none => do
      Code.unlock
      pure (-1, none)
  | some mm =>
      match mm.getVmaByNum vmaid with
      | none => do
          Code.unlock
          pure (-1, none)
      | some curVma => do
          match ← withOwn caller (fun mm =>
              .ok (getFreeVmrgArea mm vmaid (size.setWidth 32).toInt)) with
          | some rgnode => do
              withOwn caller (fun mm => do pure (← mm.setSymrg rgid rgnode, ()))
              Code.unlock
              pure (0, some rgnode.rgStart)
          | none => do
              let _ ← Code.ofExcept (intResult (incSz size + 1))
              let oldSbrk := viaInt curVma.sbrk
              let (regs, _) ←
                syscall caller 17 { a1 := 2, a2 := BitVec.ofInt 64 vmaid, a3 := size } junk
              withOwn caller (fun mm => do
                pure (← mm.setSymrg rgid { rgStart := oldSbrk, rgEnd := oldSbrk + size }, ()))
              if regs.a3 > size then
                withOwn caller (fun mm => do
                  let (mm, _) ← enlistVmFreergList mm
                    { rgStart := oldSbrk + size, rgEnd := oldSbrk + regs.a3 }
                  pure (mm, ()))
              else pure ()
              Code.unlock
              pure (0, some oldSbrk)

/-- `__free`. -/
def free (caller : Pid) (_vmaid rgid : Int) : Prog Int := do
  Code.lock
  if rgid < 0 ∨ rgid > pagingMaxSymtblSz then do
    Code.unlock
    pure (-1)
  else do
    match ← loadOwn caller with
    | none => do
        Code.unlock
        pure (-1)
    | some _ => do
        let rgnode ← withOwn caller (fun mm => do pure (mm, ← mm.symrg rgid))
        if rgnode.rgStart = 0 ∧ rgnode.rgEnd = 0 then do
          Code.unlock
          pure (-1)
        else do
          withOwn caller (fun mm => do
            pure (← mm.setSymrg rgid { rgStart := 0, rgEnd := 0 }, ()))
          withOwn caller (fun mm => do
            let (mm, _) ← enlistVmFreergList mm rgnode
            pure (mm, ()))
          Code.unlock
          pure 0

/-- `liballoc`. -/
def liballoc (proc : Pid) (size : Addr) (regIndex : BitVec 32) (junk : Byte) : Prog Int := do
  let (val, _) ← alloc proc 0 regIndex.toInt size junk
  if val = -1 then pure (-1) else pure val

/-- `libfree`. -/
def libfree (proc : Pid) (regIndex : BitVec 32) : Prog Int := do
  let val ← free proc 0 regIndex.toInt
  if val = -1 then pure (-1) else pure 0

/-- `pg_getpage`; `none` is the status -1, `some fpn` is 0 with `*fpn`. -/
def pgGetpage (pgn : Nat) (caller : Pid) (junk : Byte) : Prog (Option Nat) := do
  let pte ← pteGetEntry caller pgn
  if !pagingPagePresent pte then do
    match ← withOwn caller (fun mm => .ok (findVictimPage mm)) with
    | none => pure none
    | some vicpgn => do
        match ← memphyGetFreefp .swp with
        | none => pure none
        | some swpfpn => do
            let vicpte ← pteGetEntry caller vicpgn
            let vicfpn := pagingFpn vicpte
            let _ ← syscall caller 17
              { a1 := 3, a2 := BitVec.ofNat 64 vicfpn, a3 := BitVec.ofNat 64 swpfpn } junk
            pteSetSwap caller vicpgn 0 swpfpn
            if pte ≠ 0 then do
              let tgtswpfpn := pagingSwp pte
              Code.attempt .plain (fun k => do
                let (activeMswp, mram) ← swapCpPage k.activeMswp tgtswpfpn k.mram vicfpn junk
                pure ({ k with activeMswp, mram }, ()))
              memphyPutFreefp .swp tgtswpfpn
            else pure ()
            pteSetFpn caller pgn vicfpn
            enlistPgnNode caller pgn
            let pte ← pteGetEntry caller pgn
            pure (some (pagingFpn pte))
  else do
    let pte ← pteGetEntry caller pgn
    pure (some (pagingFpn pte))

/-- `pg_getval`. -/
def pgGetval (addr : BitVec 32) (data : Byte) (caller : Pid) (junk : Byte) : Prog (Int × Byte) := do
  match ← pgGetpage (pagingPgn addr) caller junk with
  | none => pure (-1, data)
  | some fpn => do
      let _ ← syscall caller 17
        { a1 := 4, a2 := phyaddr fpn (pagingOffst addr), a3 := 0 } junk
      pure (0, data)

/-- `pg_setval`. -/
def pgSetval (addr : BitVec 32) (value : Byte) (caller : Pid) (junk : Byte) : Prog Int := do
  match ← pgGetpage (pagingPgn addr) caller junk with
  | none => pure (-1)
  | some fpn => do
      let _ ← syscall caller 17
        { a1 := 5, a2 := phyaddr fpn (pagingOffst addr), a3 := value.signExtend 64 } junk
      pure 0

/-- `__read`: the one entry of the library that takes no lock. -/
def read (caller : Pid) (_vmaid rgid : Int) (offset : Addr) (data junk : Byte) :
    Prog (Int × Byte) := do
  match ← loadOwn caller with
  | none => pure (-1, data)
  | some _ =>
      match getSymrgById rgid with
      | none => pure (-1, data)
      | some rgid => do
          let ptr ← Code.attempt .plain (fun k => do pure (k, ← readEntry k rgid))
          let currg ← Code.attempt (.entry caller ptr offset) (fun k => do
            pure (k, ← loadEntry k ptr))
          let (_, data) ← pgGetval ((currg.rgStart + offset).setWidth 32) data caller junk
          pure (0, data)

/-- `libread`. -/
def libread (proc : Pid) (source : BitVec 32) (offset : Addr) (junk : Byte) :
    Prog (Int × BitVec 32) := do
  let (val, data) ← read proc 0 source.toInt offset junk junk
  pure (val, data.signExtend 32)

/-- `__write`. -/
def write (caller : Pid) (vmaid rgid : Int) (offset : Addr) (value junk : Byte) : Prog Int := do
  Code.lock
  match ← loadOwn caller with
  | none => do
      Code.unlock
      pure (-1)
  | some mm =>
      match getSymrgById rgid, mm.getVmaByNum vmaid with
      | some rgid, some _ => do
          let currg ← withOwn caller (fun mm => do pure (mm, ← mm.symrg rgid))
          let _ ← pgSetval ((currg.rgStart + offset).setWidth 32) value caller junk
          Code.unlock
          pure 0
      | _, _ => do
          Code.unlock
          pure (-1)

/-- `libwrite`. -/
def libwrite (proc : Pid) (data : Byte) (destination : BitVec 32) (offset : Addr) (junk : Byte) :
    Prog Int := do
  let val ← write proc 0 destination.toInt offset data junk
  if val = -1 then pure (-1) else pure val

/-! ## `cpu.c` -/

/-- The `switch` of `run`. -/
def exec (proc : Pid) (ins : Inst) (junk : Byte) : Prog Int :=
  match ins.opcode with
  | .calc => pure 0
  | .alloc => liballoc proc ins.arg0 (ins.arg1.setWidth 32) junk
  | .kmalloc => pure 0
  | .kmemCacheCreate => pure 0
  | .kmemCacheAlloc => pure 0
  | .copyFromUser => pure 0
  | .copyToUser => pure 1
  | .free => libfree proc (ins.arg0.setWidth 32)
  | .read => do
      let (val, _) ← libread proc (ins.arg0.setWidth 32) ins.arg1 junk
      pure val
  | .write => libwrite proc (ins.arg0.setWidth 8) (ins.arg1.setWidth 32) ins.arg2 junk
  | .syscall => libsyscall proc (ins.arg0.setWidth 32) ins.arg1 ins.arg2 ins.arg3 junk

end Access

end SimpleOs
