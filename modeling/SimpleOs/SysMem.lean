/-
# `SimpleOs.SysMem` — the memory system call (`sys_mem.c`, `syscall.c`, `libstd.c`)

`sys_mem.c` includes `os-mm.h` before `MM64` is defined, so in this one file
`addr_t` is a `uint32_t`: registers are 64 bits wide, but what is passed on as
an address, a size or a frame number is cut to 32 bits (`viaU32`), and what is
passed as an `int` is cut and read with a sign.

The caller is looked up by pid in `running_list`.  When it is missing the call
returns -1; every other outcome, refused or done, is 0.

`sysMemmap_cases` lists everything the call can do to the kernel.
-/
import SimpleOs.Vm

namespace SimpleOs

/-- `struct sc_regs`, as far as the memory call uses it. -/
structure ScRegs where
  a1 : Addr
  a2 : Addr
  a3 : Addr
  deriving DecidableEq, Repr

/-- `SYSMEM_MAP_OP`. -/
def sysmemMapOp : Int := 1

/-- `SYSMEM_INC_OP`. -/
def sysmemIncOp : Int := 2

/-- `SYSMEM_SWP_OP`. -/
def sysmemSwpOp : Int := 3

/-- `SYSMEM_IO_READ`. -/
def sysmemIoRead : Int := 4

/-- `SYSMEM_IO_WRITE`. -/
def sysmemIoWrite : Int := 5

/-- The scan of `running_list` for a pid. -/
def findCaller (k : Krnl) (pid : Pid) : Option Pid :=
  k.sched.runningList.toList.find? (fun proc => proc == pid)

/-- `vmap_pgd_memset(caller, addr, pgnum)`; `get_pte` returns NULL without an `own_mm`. -/
def memsetCaller (k : Krnl) (caller : Pid) (addr : Addr) (pgnum : Int) : Except Ub Krnl :=
  match k.ownMm caller with
  | none => if pgnum ≤ 0 then .ok k else .error .wildPointer
  | some mm => .ok (k.setMm caller (vmapPgdMemset mm addr pgnum))

/-- `__sys_memmap`.  `junk` is what the uninitialised locals hold. -/
def sysMemmap (k : Krnl) (pid : Pid) (regs : ScRegs) (junk : Byte) :
    Except Ub (Krnl × ScRegs × Int) :=
  let memop := (regs.a1.setWidth 32).toInt
  match findCaller k pid with
  | none => .ok (k, regs, -1)
  | some caller =>
      if memop = sysmemMapOp then do
        let k ← memsetCaller k caller (viaU32 regs.a2) (regs.a3.setWidth 32).toInt
        pure (k, regs, 0)
      else if memop = sysmemIncOp then do
        let (k, _) ← incVmaLimit k caller (regs.a2.setWidth 32).toInt (viaU32 regs.a3)
        pure (k, regs, 0)
      else if memop = sysmemSwpOp then do
        let (k, _) ← mmSwapPage k (viaU32 regs.a2).toNat (viaU32 regs.a3).toNat junk
        pure (k, regs, 0)
      else if memop = sysmemIoRead then do
        let (mram, _, value) ← memphyRead k.mram (viaU32 regs.a2).toNat junk
        pure ({ k with mram }, { regs with a3 := value.signExtend 64 }, 0)
      else if memop = sysmemIoWrite then do
        let (mram, _) ← memphyWrite k.mram (viaU32 regs.a2).toNat (regs.a3.setWidth 8)
        pure ({ k with mram }, regs, 0)
      else pure (k, regs, 0)

/-- `_syscall`; number 0 only prints, and there is no third call. -/
def syscall (k : Krnl) (pid : Pid) (nr : BitVec 32) (regs : ScRegs) (junk : Byte) :
    Except Ub (Krnl × ScRegs × Int) :=
  if nr = 17 then sysMemmap k pid regs junk else .ok (k, regs, 0)

/-- `libsyscall`. -/
def libsyscall (k : Krnl) (caller : Pid) (syscallIdx : BitVec 32) (a1 a2 a3 : Addr)
    (junk : Byte) : Except Ub (Krnl × Int) := do
  let (k, _, ret) ← syscall k caller syscallIdx { a1, a2, a3 } junk
  pure (k, ret)

/-! ## The caller -/

theorem findCaller_eq (k : Krnl) (pid : Pid) :
    findCaller k pid = if pid ∈ k.sched.runningList.toList then some pid else none := by
  rw [findCaller]
  by_cases h : pid ∈ k.sched.runningList.toList
  · rw [if_pos h]
    cases hf : k.sched.runningList.toList.find? (fun proc => proc == pid) with
    | none =>
        rw [List.find?_eq_none] at hf
        exact absurd (beq_self_eq_true pid) (hf pid h)
    | some q =>
        have hq := List.find?_some hf
        rw [beq_iff_eq] at hq
        rw [hq]
  · rw [if_neg h, List.find?_eq_none]
    intro q hq heq
    rw [beq_iff_eq] at heq
    exact h (heq ▸ hq)

/-- The lookup finds the process that asks, or nobody. -/
theorem findCaller_some {k : Krnl} {pid caller : Pid} (h : findCaller k pid = some caller) :
    caller = pid := by
  rw [findCaller_eq] at h
  by_cases hm : pid ∈ k.sched.runningList.toList
  · rw [if_pos hm] at h
    exact (Option.some.inj h).symm
  · rw [if_neg hm] at h
    exact nomatch h

theorem findCaller_mem {k : Krnl} {pid caller : Pid} (h : findCaller k pid = some caller) :
    pid ∈ k.sched.runningList.toList := by
  rw [findCaller_eq] at h
  by_contra hm
  rw [if_neg hm] at h
  exact nomatch h

/-! ## The operations one by one -/

section Ops
variable {k : Krnl} {pid : Pid} {a2 a3 : Addr} {junk : Byte}

theorem sysMemmap_lost {regs : ScRegs} (h : findCaller k pid = none) :
    sysMemmap k pid regs junk = .ok (k, regs, -1) := by
  rw [sysMemmap, h]

theorem sysMemmap_inc (h : findCaller k pid = some pid) :
    sysMemmap k pid { a1 := 2, a2, a3 } junk = (do
      let (k, _) ← incVmaLimit k pid (a2.setWidth 32).toInt (viaU32 a3)
      pure (k, { a1 := 2, a2, a3 }, 0)) := by
  rw [sysMemmap, h]
  rfl

theorem sysMemmap_swp (h : findCaller k pid = some pid) :
    sysMemmap k pid { a1 := 3, a2, a3 } junk = (do
      let (k, _) ← mmSwapPage k (viaU32 a2).toNat (viaU32 a3).toNat junk
      pure (k, { a1 := 3, a2, a3 }, 0)) := by
  rw [sysMemmap, h]
  rfl

theorem sysMemmap_ioRead (h : findCaller k pid = some pid) :
    sysMemmap k pid { a1 := 4, a2, a3 } junk = (do
      let (mram, _, value) ← memphyRead k.mram (viaU32 a2).toNat junk
      pure ({ k with mram }, { a1 := 4, a2, a3 := value.signExtend 64 }, 0)) := by
  rw [sysMemmap, h]
  rfl

theorem sysMemmap_ioWrite (h : findCaller k pid = some pid) :
    sysMemmap k pid { a1 := 5, a2, a3 } junk = (do
      let (mram, _) ← memphyWrite k.mram (viaU32 a2).toNat (a3.setWidth 8)
      pure ({ k with mram }, { a1 := 5, a2, a3 }, 0)) := by
  rw [sysMemmap, h]
  rfl

/-- A byte inside RAM can be read and written. -/
theorem syscall_io_defined {a1 : Addr} (hop : a1 = 4 ∨ a1 = 5) (hrdm : k.mram.rdmflg = true)
    (hin : (viaU32 a2).toNat < k.mram.cap) :
    ∃ res, syscall k pid 17 { a1, a2, a3 } junk = .ok res := by
  rw [syscall, if_pos rfl]
  cases hfind : findCaller k pid with
  | none => exact ⟨_, sysMemmap_lost hfind⟩
  | some q =>
      obtain rfl := findCaller_some hfind
      rcases hop with rfl | rfl
      · rw [sysMemmap_ioRead hfind, memphyRead_random hrdm, if_pos hin]
        exact ⟨_, rfl⟩
      · rw [sysMemmap_ioWrite hfind, memphyWrite_random hrdm, if_pos hin]
        exact ⟨_, rfl⟩

end Ops

/-! ## Everything the call can do -/

/-- A copy between random access devices that is defined copies the page. -/
theorem mmSwapPage_random {k : Krnl} {vicfpn swpfpn : Nat} {junk : Byte}
    (hs : k.mram.rdmflg = true) (hd : k.activeMswp.rdmflg = true) :
    mmSwapPage k vicfpn swpfpn junk =
      if vicfpn * 256 + 256 ≤ k.mram.cap ∧ swpfpn * 256 + 256 ≤ k.activeMswp.cap then
        .ok ({ k with activeMswp := k.activeMswp.copyCells k.mram vicfpn swpfpn 256 }, 0)
      else .error .storageBounds := by
  rw [mmSwapPage, swapCpPage_random hs hd]
  split <;> rfl

/-- Frame `f` copied to swap frame `s`, if the system call finds the caller. -/
def Krnl.copyOut (k : Krnl) (p : Pid) (f s : Nat) : Krnl :=
  if p ∈ k.sched.runningList.toList then
    { k with activeMswp := k.activeMswp.copyCells k.mram f s 256 }
  else k

section CopyOut
variable (k : Krnl) (p : Pid) (f s : Nat)

@[simp] theorem Krnl.copyOut_ownMm : (k.copyOut p f s).ownMm = k.ownMm := by
  rw [Krnl.copyOut]; split <;> rfl

@[simp] theorem Krnl.copyOut_sched : (k.copyOut p f s).sched = k.sched := by
  rw [Krnl.copyOut]; split <;> rfl

@[simp] theorem Krnl.copyOut_mm : (k.copyOut p f s).mm = k.mm := by
  rw [Krnl.copyOut]; split <;> rfl

@[simp] theorem Krnl.copyOut_mram : (k.copyOut p f s).mram = k.mram := by
  rw [Krnl.copyOut]; split <;> rfl

@[simp] theorem Krnl.copyOut_setMm (mm : Mm) :
    (k.setMm p mm).copyOut p f s = (k.copyOut p f s).setMm p mm := by
  rw [Krnl.copyOut, Krnl.copyOut, Krnl.setMm_sched]; split <;> rfl

end CopyOut

/-- The request `pg_getpage` makes to save frame `f` in swap frame `s`. -/
theorem syscall_swp {k : Krnl} {p : Pid} {f s : Nat} {junk : Byte} (hf : f < 2 ^ 32)
    (hs : s < 2 ^ 32) (hram : k.mram.rdmflg = true) (hswp : k.activeMswp.rdmflg = true) :
    syscall k p 17 { a1 := 3, a2 := BitVec.ofNat 64 f, a3 := BitVec.ofNat 64 s } junk =
      if p ∈ k.sched.runningList.toList →
          f * 256 + 256 ≤ k.mram.cap ∧ s * 256 + 256 ≤ k.activeMswp.cap then
        .ok (k.copyOut p f s, { a1 := 3, a2 := BitVec.ofNat 64 f, a3 := BitVec.ofNat 64 s },
          if p ∈ k.sched.runningList.toList then 0 else -1)
      else .error .storageBounds := by
  have hsrc : (viaU32 (BitVec.ofNat 64 f)).toNat = f := by
    rw [toNat_viaU32, BitVec.toNat_ofNat]; omega
  have hdst : (viaU32 (BitVec.ofNat 64 s)).toNat = s := by
    rw [toNat_viaU32, BitVec.toNat_ofNat]; omega
  rw [syscall, if_pos rfl, Krnl.copyOut]
  by_cases hp : p ∈ k.sched.runningList.toList
  · have hfind : findCaller k p = some p := by rw [findCaller_eq, if_pos hp]
    rw [sysMemmap_swp hfind, hsrc, hdst, mmSwapPage_random hram hswp]
    by_cases hin : f * 256 + 256 ≤ k.mram.cap ∧ s * 256 + 256 ≤ k.activeMswp.cap
    · rw [if_pos hin, if_pos (fun _ => hin), if_pos hp, if_pos hp]
      rfl
    · rw [if_neg hin, if_neg (fun hall => hin (hall hp))]
      rfl
  · have hfind : findCaller k p = none := by rw [findCaller_eq, if_neg hp]
    rw [sysMemmap_lost hfind, if_pos (fun h => absurd h hp), if_neg hp, if_neg hp]

/-- The ways `__sys_memmap` can return.  The regs of the request decide which; only the caller's
own structure, the RAM device and the bytes of the two devices are ever touched. -/
theorem sysMemmap_cases {k k' : Krnl} {pid : Pid} {regs regs' : ScRegs} {junk : Byte} {ret : Int}
    (hram : k.mram.rdmflg = true) (hswp : k.activeMswp.rdmflg = true)
    (h : sysMemmap k pid regs junk = .ok (k', regs', ret)) :
    k' = k ∨
    (∃ mm, k.ownMm pid = some mm ∧ (regs.a1.setWidth 32).toInt = sysmemMapOp ∧
      k' = k.setMm pid (vmapPgdMemset mm (viaU32 regs.a2) (regs.a3.setWidth 32).toInt)) ∨
    (∃ st, pid ∈ k.sched.runningList.toList ∧ (regs.a1.setWidth 32).toInt = sysmemIncOp ∧
      incVmaLimit k pid (regs.a2.setWidth 32).toInt (viaU32 regs.a3) = .ok (k', st)) ∨
    (∃ src dst, k' = { k with activeMswp := k.activeMswp.copyCells k.mram src dst 256 }) ∨
    (∃ addr value, k' = { k with mram := k.mram.store addr value }) := by
  cases hf : findCaller k pid with
  | none =>
      rw [sysMemmap_lost hf] at h
      cases h
      exact Or.inl rfl
  | some caller =>
      obtain rfl := findCaller_some hf
      simp only [sysMemmap, hf] at h
      by_cases hmap : (regs.a1.setWidth 32).toInt = sysmemMapOp
      · rw [if_pos hmap, bind_ok] at h
        obtain ⟨k₁, hk₁, hret⟩ := h
        cases hret
        rw [memsetCaller] at hk₁
        cases hmm : k.ownMm caller with
        | none =>
            rw [hmm] at hk₁
            by_cases hn : (regs.a3.setWidth 32).toInt ≤ 0
            · simp only [if_pos hn] at hk₁
              cases hk₁
              exact Or.inl rfl
            · simp only [if_neg hn] at hk₁
              exact nomatch hk₁
        | some mm =>
            rw [hmm] at hk₁
            cases hk₁
            exact Or.inr (Or.inl ⟨mm, rfl, hmap, rfl⟩)
      · rw [if_neg hmap] at h
        by_cases hinc : (regs.a1.setWidth 32).toInt = sysmemIncOp
        · rw [if_pos hinc, bind_ok] at h
          obtain ⟨⟨k₁, st⟩, hk₁, hret⟩ := h
          cases hret
          exact Or.inr (Or.inr (Or.inl ⟨st, findCaller_mem hf, hinc, hk₁⟩))
        · rw [if_neg hinc] at h
          by_cases hcopy : (regs.a1.setWidth 32).toInt = sysmemSwpOp
          · rw [if_pos hcopy, bind_ok] at h
            obtain ⟨⟨k₁, st⟩, hk₁, hret⟩ := h
            cases hret
            rw [mmSwapPage_random hram hswp] at hk₁
            split at hk₁
            · cases hk₁
              exact Or.inr (Or.inr (Or.inr (Or.inl ⟨_, _, rfl⟩)))
            · exact nomatch hk₁
          · rw [if_neg hcopy] at h
            by_cases hrd : (regs.a1.setWidth 32).toInt = sysmemIoRead
            · rw [if_pos hrd, bind_ok] at h
              obtain ⟨⟨mram, st, value⟩, hk₁, hret⟩ := h
              cases hret
              rw [memphyRead_random hram] at hk₁
              split at hk₁
              · cases hk₁
                exact Or.inl rfl
              · exact nomatch hk₁
            · rw [if_neg hrd] at h
              by_cases hwr : (regs.a1.setWidth 32).toInt = sysmemIoWrite
              · rw [if_pos hwr, bind_ok] at h
                obtain ⟨⟨mram, st⟩, hk₁, hret⟩ := h
                cases hret
                rw [memphyWrite_random hram] at hk₁
                split at hk₁
                · cases hk₁
                  exact Or.inr (Or.inr (Or.inr (Or.inr ⟨_, _, rfl⟩)))
                · exact nomatch hk₁
              · rw [if_neg hwr] at h
                cases h
                exact Or.inl rfl

end SimpleOs
