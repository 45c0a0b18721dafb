/-
# `SimpleOs.LibMem` — the memory library (`libmem.c`)

`__alloc`, `__free`, `__read` and `__write` with the fault handler
`pg_getpage`, and the `lib…` wrappers an instruction calls.

An id travels as `uint32_t` and then as `int`; an address computed from a
region entry is passed as `int` to `pg_getval` and `pg_setval`.  `mm` is always
`caller->own_mm`, with one exception: `__read` looks the region up in
`caller->krnl->mm`.

Statuses that the code drops are dropped here too.  `junk` is what
uninitialised locals hold: `libread`'s `data` in the first place.
-/
import SimpleOs.SysMem

namespace SimpleOs

open BitField

/-! ## Allocation -/

/-- `inc_sz` in `__alloc`, before 1 is added. -/
def incSz (size : Addr) : Int := ((size / BitVec.ofNat 64 paging64Pagesz).setWidth 32).toInt

/-- `__alloc`; the last component is `*alloc_addr`, if it is written. -/
def alloc (k : Krnl) (caller : Pid) (vmaid rgid : Int) (size : Addr) (junk : Byte) :
    Except Ub (Krnl × Int × Option Addr) :=
  match k.ownMm caller with
  | none => .ok (k, -1, none)
  | some mm =>
      match mm.getVmaByNum vmaid with
      | none => .ok (k, -1, none)
      | some curVma =>
          -- `size` becomes an `int` here
          match getFreeVmrgArea mm vmaid (size.setWidth 32).toInt with
          | (mm, some rgnode) => do
              let mm ← mm.setSymrg rgid rgnode
              pure (k.setMm caller mm, 0, some rgnode.rgStart)
          | (mm, none) => do
              -- `inc_sz = inc_sz + 1`; the sum is not used
              let _ ← intResult (incSz size + 1)
              let oldSbrk := viaInt curVma.sbrk
              let regs : ScRegs := { a1 := 2, a2 := BitVec.ofInt 64 vmaid, a3 := size }
              let (k, regs, _) ← syscall (k.setMm caller mm) caller 17 regs junk
              match k.ownMm caller with
              | none => .error .wildPointer
              | some mm =>
                  let mm ← mm.setSymrg rgid { rgStart := oldSbrk, rgEnd := oldSbrk + size }
                  let mm ←
                    if regs.a3 > size then do
                      let (mm, _) ← enlistVmFreergList mm
                        { rgStart := oldSbrk + size, rgEnd := oldSbrk + regs.a3 }
                      pure mm
                    else pure mm
                  pure (k.setMm caller mm, 0, some oldSbrk)

/-- `__free`. -/
def free (k : Krnl) (caller : Pid) (_vmaid rgid : Int) : Except Ub (Krnl × Int) :=
  if rgid < 0 ∨ rgid > pagingMaxSymtblSz then .ok (k, -1)
  else
    match k.ownMm caller with
    | none => .ok (k, -1)
    | some mm => do
        let rgnode ← mm.symrg rgid
        if rgnode.rgStart = 0 ∧ rgnode.rgEnd = 0 then pure (k, -1)
        else
          let mm ← mm.setSymrg rgid { rgStart := 0, rgEnd := 0 }
          let (mm, _) ← enlistVmFreergList mm rgnode
          pure (k.setMm caller mm, 0)

/-- `liballoc`. -/
def liballoc (k : Krnl) (proc : Pid) (size : Addr) (regIndex : BitVec 32) (junk : Byte) :
    Except Ub (Krnl × Int) := do
  let (k, val, _) ← alloc k proc 0 regIndex.toInt size junk
  if val = -1 then pure (k, -1) else pure (k, val)

/-- `libfree`. -/
def libfree (k : Krnl) (proc : Pid) (regIndex : BitVec 32) : Except Ub (Krnl × Int) := do
  let (k, val) ← free k proc 0 regIndex.toInt
  if val = -1 then pure (k, -1) else pure (k, 0)

/-! ## The fault handler -/

/-- `pg_getpage`; `none` is the status -1, `some fpn` is 0 with `*fpn`. -/
def pgGetpage (k : Krnl) (mm : Mm) (pgn : Nat) (caller : Pid) (junk : Byte) :
    Except Ub (Krnl × Option Nat) :=
  let (mm, pte) := pteGetEntry mm pgn
  if !pagingPagePresent pte then
    match findVictimPage mm with
    | (mm, none) => .ok (k.setMm caller mm, none)
    | (mm, some vicpgn) => do
        let (activeMswp, r) ← memphyGetFreefp k.activeMswp
        let k := { k with activeMswp }
        match r with
        | none => pure (k.setMm caller mm, none)
        | some swpfpn =>
            let (mm, vicpte) := pteGetEntry mm vicpgn
            let vicfpn := pagingFpn vicpte
            -- swap out the victim; the call copies bytes and touches no `mm`
            let regs : ScRegs :=
              { a1 := 3, a2 := BitVec.ofNat 64 vicfpn, a3 := BitVec.ofNat 64 swpfpn }
            let (k, _, _) ← syscall (k.setMm caller mm) caller 17 regs junk
            let mm := pteSetSwap mm vicpgn 0 swpfpn
            let k ←
              if pte ≠ 0 then do
                let tgtswpfpn := pagingSwp pte
                let (activeMswp, mram) ← swapCpPage k.activeMswp tgtswpfpn k.mram vicfpn junk
                pure { k with activeMswp := memphyPutFreefp activeMswp tgtswpfpn, mram }
              else pure k
            let mm := (pteSetFpn mm pgn vicfpn).enlist pgn
            let (mm, pte) := pteGetEntry mm pgn
            pure (k.setMm caller mm, some (pagingFpn pte))
  else
    let (mm, pte) := pteGetEntry mm pgn
    .ok (k.setMm caller mm, some (pagingFpn pte))

/-! ## Access to a byte -/

/-- `PAGING_PGN` of an `int` address. -/
def pagingPgn (addr : BitVec 32) : Nat := ((addr &&& genmask 32 21 8) >>> 8).toNat

/-- `PAGING_OFFST` of an `int` address. -/
def pagingOffst (addr : BitVec 32) : Nat := ((addr &&& genmask 32 7 0) >>> 0).toNat

/-- The physical address of a byte of a frame. -/
def phyaddr (fpn off : Nat) : Addr := BitVec.ofNat 64 ((fpn <<< 8) + off)

/-- `pg_getval`.  The pointer `data` goes into a register and nothing is stored through it, so
`*data` comes back as it was. -/
def pgGetval (k : Krnl) (mm : Mm) (addr : BitVec 32) (data : Byte) (caller : Pid) (junk : Byte) :
    Except Ub (Krnl × Int × Byte) := do
  let (k, r) ← pgGetpage k mm (pagingPgn addr) caller junk
  match r with
  | none => pure (k, -1, data)
  | some fpn =>
      let regs : ScRegs := { a1 := 4, a2 := phyaddr fpn (pagingOffst addr), a3 := 0 }
      let (k, _, _) ← syscall k caller 17 regs junk
      pure (k, 0, data)

/-- `pg_setval`. -/
def pgSetval (k : Krnl) (mm : Mm) (addr : BitVec 32) (value : Byte) (caller : Pid) (junk : Byte) :
    Except Ub (Krnl × Int) := do
  let (k, r) ← pgGetpage k mm (pagingPgn addr) caller junk
  match r with
  | none => pure (k, -1)
  | some fpn =>
      let regs : ScRegs :=
        { a1 := 5, a2 := phyaddr fpn (pagingOffst addr), a3 := value.signExtend 64 }
      let (k, _, _) ← syscall k caller 17 regs junk
      pure (k, 0)

/-- The entry `__read` takes the address from: the one of `caller->krnl->mm`. -/
def readEntry (k : Krnl) (rgid : Int) : Except Ub (Pid × Int) :=
  match k.mm with
  | none => .error .wildPointer
  | some owner => .ok (owner, rgid)

/-- Following the pointer to an entry of a process's symbol table. -/
def loadEntry (k : Krnl) (ptr : Pid × Int) : Except Ub VmRg :=
  match k.ownMm ptr.1 with
  | none => .error .wildPointer
  | some mm => mm.symrg ptr.2

/-- `__read`; the last component is `*data`. -/
def read (k : Krnl) (caller : Pid) (_vmaid rgid : Int) (offset : Addr) (data junk : Byte) :
    Except Ub (Krnl × Int × Byte) :=
  match k.ownMm caller with
  | none => .ok (k, -1, data)
  | some mm =>
      match getSymrgById rgid with
      | none => .ok (k, -1, data)
      | some rgid => do
          let ptr ← readEntry k rgid
          let currg ← loadEntry k ptr
          let (k, _, data) ← pgGetval k mm ((currg.rgStart + offset).setWidth 32) data caller junk
          pure (k, 0, data)

/-- `libread`; the last component is `*destination`. -/
def libread (k : Krnl) (proc : Pid) (source : BitVec 32) (offset : Addr) (junk : Byte) :
    Except Ub (Krnl × Int × BitVec 32) := do
  let (k, val, data) ← read k proc 0 source.toInt offset junk junk
  pure (k, val, data.signExtend 32)

/-- `__write`. -/
def write (k : Krnl) (caller : Pid) (vmaid rgid : Int) (offset : Addr) (value junk : Byte) :
    Except Ub (Krnl × Int) :=
  match k.ownMm caller with
  | none => .ok (k, -1)
  | some mm =>
      match getSymrgById rgid, mm.getVmaByNum vmaid with
      | some rgid, some _ => do
          let currg ← mm.symrg rgid
          let (k, _) ← pgSetval k mm ((currg.rgStart + offset).setWidth 32) value caller junk
          pure (k, 0)
      | _, _ => .ok (k, -1)

/-- `libwrite`. -/
def libwrite (k : Krnl) (proc : Pid) (data : Byte) (destination : BitVec 32) (offset : Addr)
    (junk : Byte) : Except Ub (Krnl × Int) := do
  let (k, val) ← write k proc 0 destination.toInt offset data junk
  if val = -1 then pure (k, -1) else pure (k, val)

/-- The quotient, cut to `int`, is not the greatest one. -/
def SizeFits (size : Addr) : Prop := size.toNat / 4096 % 2 ^ 32 ≠ 2 ^ 31 - 1

instance (size : Addr) : Decidable (SizeFits size) := inferInstanceAs (Decidable (¬ _))

theorem sizeFits_of_lt {size : Addr} (h : size.toNat < 2 ^ 43 - 4096) : SizeFits size := by
  rw [SizeFits]
  omega

theorem intResult_incSz (size : Addr) : intResult (incSz size + 1) =
    if SizeFits size then .ok (incSz size + 1) else .error .intOverflow := by
  have hlow : ((size / BitVec.ofNat 64 paging64Pagesz).setWidth 32).toNat =
      size.toNat / 4096 % 2 ^ 32 := by
    rw [BitVec.toNat_setWidth, BitVec.toNat_udiv]
    rfl
  have hinc : incSz size = 2147483647 ↔ ¬ SizeFits size := by
    rw [SizeFits, not_not, incSz, BitVec.toInt_eq_toNat_cond, hlow]
    split <;> omega
  have hrange : -2147483648 ≤ incSz size ∧ incSz size ≤ 2147483647 := by
    rw [incSz, BitVec.toInt_eq_toNat_cond, hlow]
    split <;> omega
  split
  next h => exact intResult_of (by omega) (by have := mt hinc.mp (not_not.mpr h); omega)
  next h => rw [hinc.mpr h]; rfl

theorem pagingPgn_eq (addr : BitVec 32) : pagingPgn addr = addr.toNat / 256 % 2 ^ 14 := by
  exact toNat_getField (v := addr) (h := 21) (l := 8) (by omega)

theorem pagingOffst_eq (addr : BitVec 32) : pagingOffst addr = addr.toNat % 256 := by
  show (getField addr 7 0).toNat = _
  rw [toNat_getField (by omega)]
  simp

theorem pagingPgn_lt (addr : BitVec 32) : pagingPgn addr < 2 ^ 14 := by
  rw [pagingPgn_eq]
  exact Nat.mod_lt _ (by decide)

theorem pagingOffst_lt (addr : BitVec 32) : pagingOffst addr < 256 := by
  rw [pagingOffst_eq]
  exact Nat.mod_lt _ (by decide)

/-- A physical address reaches the device as it was computed. -/
theorem viaU32_phyaddr {fpn off : Nat} (hf : fpn < 2 ^ 13) (ho : off < 256) :
    (viaU32 (phyaddr fpn off)).toNat = fpn * 256 + off := by
  rw [toNat_viaU32, phyaddr, BitVec.toNat_ofNat, Nat.shiftLeft_eq]
  omega

end SimpleOs
