/-
# `SimpleOs.AllocSize` — what becomes of the size of an ALLOC

The size is an `addr_t` in the instruction and in `__alloc`, an `int` in
`get_free_vmrg_area` and a `uint32_t` in `sys_mem.c`, which includes `os-mm.h`
before `MM64` is defined; the break is an `int` in `__alloc`.  None of them is
checked, and the region that is recorded has the full size in any case.

`SizeKept` says that all of them mean the same number and that this many bytes
were there to give.  By `alloc_size_kept` it holds exactly for sizes below 2^31
that the break, the free regions and the lookup of the caller have room for.
-/
import SimpleOs.RegionStep

namespace SimpleOs

/-! ## Free regions -/

/-- The region is not inverted, and only the one of `init_mm` is empty. -/
def VmRg.Proper (rg : VmRg) : Prop := rg.rgStart < rg.rgEnd ∨ (rg.rgStart = 0 ∧ rg.rgEnd = 0)

theorem VmRg.Proper.ne_neg_one {rg : VmRg} (h : rg.Proper) : rg.rgStart ≠ -1 := by
  intro hstart
  rcases h with hlt | ⟨h0, _⟩
  · rw [hstart, BitVec.lt_def] at hlt
    have hmax := rg.rgEnd.isLt
    have hone : (-1 : Addr).toNat = 2 ^ 64 - 1 := rfl
    omega
  · rw [hstart] at h0
    exact absurd h0 (by decide)

section Proper
variable {mm mm' : Mm} {size : Addr}

/-- The search leaves proper regions. -/
theorem Mm.searched_proper (hs : mm.Single) (h : ∀ g ∈ mm.freerg, g.Proper) :
    ∀ g ∈ (mm.searched size).freerg, g.Proper := by
  rcases Mm.searched_cases hs size with ⟨_, hsearch, _⟩ | ⟨rg, rgs, hfit, hsearch, _⟩
  · rwa [hsearch]
  · obtain ⟨pre, g, post, hfree, _, _, _, hrest⟩ := firstFit_cases hfit
    rw [hsearch, Mm.withFree_freerg]
    intro q hq
    rcases hrest with ⟨hlt, rfl⟩ | ⟨_, rfl⟩
    · rcases List.mem_append.mp hq with hq | hq
      · exact h q (hfree ▸ List.mem_append_left _ hq)
      · rcases List.mem_cons.mp hq with rfl | hq
        · exact Or.inl hlt
        · exact h q (hfree ▸ List.mem_append_right _ (List.mem_cons_of_mem _ hq))
    · rcases List.mem_append.mp hq with hq | hq
      · exact h q (hfree ▸ List.mem_append_left _ hq)
      · exact h q (hfree ▸ List.mem_append_right _ (List.mem_cons_of_mem _ hq))

theorem initMm_proper (symrgtbl : Nat → VmRg) : ∀ g ∈ (initMm symrgtbl).freerg, g.Proper := by
  intro g hg
  rw [initMm_freerg, List.mem_singleton] at hg
  exact Or.inr ⟨by rw [hg], by rw [hg]⟩

/-- A process's free regions stay proper whatever it runs. -/
theorem RegionStep.proper {k : Krnl} {p : Pid} {ins : Inst} (hs : mm.Single)
    (h : ∀ g ∈ mm.freerg, g.Proper) (hstep : RegionStep k p mm ins mm') :
    ∀ g ∈ mm'.freerg, g.Proper := by
  cases hstep with
  | kept _ free _ => rwa [free]
  | carved _ _ _ _ _ free _ => rw [free]; exact Mm.searched_proper hs h
  | extended _ _ _ _ free _ => rw [free]; exact Mm.searched_proper hs h
  | released i _ _ free _ =>
      rw [free]
      intro g hg
      split at hg
      next => exact h g hg
      next hne =>
        rcases List.mem_cons.mp hg with rfl | hg
        · exact Or.inl (BitVec.not_le.mp hne)
        · exact h g hg
  | moved _ _ _ _ free _ => rwa [free]

theorem reach_proper {memramsz memswpsz : Addr} {ramJunk swpJunk : Bool} {es : List Event}
    {s : Sys} {ok : Sys → Event → Prop} {p : Pid}
    (h : Lts.Run step ok (boot memramsz memswpsz ramJunk swpJunk) es s)
    (hmm : s.krnl.ownMm p = some mm) : ∀ g ∈ mm.freerg, g.Proper := by
  refine reach_process (P := fun mm => ∀ g ∈ mm.freerg, g.Proper) (fun _ => initMm_proper _) ?_ h p
    mm hmm
  · intro s c p mm ins junk k' st mm' hw _ hmm hP _ hrun hmm'
    obtain ⟨mm'', hmm'', hstep⟩ := exec_regions hw.krnl hmm hrun
    obtain rfl : mm'' = mm' := Option.some.inj (hmm''.symm.trans hmm')
    exact hstep.proper (hw.krnl.own p mm hmm).single hP

end Proper

/-! ## The size on its way -/

/-- `rg` has no room for `size`, no matter how the machine adds. -/
def VmRg.Short (rg : VmRg) (size : Addr) : Prop := rg.rgEnd.toNat < rg.rgStart.toNat + size.toNat

/-- An ALLOC that recorded `rg` kept the size: the first free region with room gave it, or the
heap grew by it, and no number changed on the way. -/
inductive SizeKept (mm mm' : Mm) (size : Addr) (rg : VmRg) : Prop
  | carved (pre : List VmRg) (g : VmRg) (post : List VmRg)
      (free : mm.freerg = pre ++ g :: post)
      (first : ∀ q ∈ pre, q.Short size)
      (start : rg.rgStart = g.rgStart)
      (len : rg.rgEnd.toNat = rg.rgStart.toNat + size.toNat)
      (room : rg.rgEnd.toNat ≤ g.rgEnd.toNat)
      (rest : mm'.freerg = pre ++ { rgStart := rg.rgEnd, rgEnd := g.rgEnd } :: post ∨
        (rg.rgEnd = g.rgEnd ∧ mm'.freerg = pre ++ post))
      (asInt : (size.setWidth 32).toInt = size.toNat)
  | grown (first : ∀ q ∈ mm.freerg, q.Short size)
      (start : rg.rgStart = mm.sbrk)
      (len : rg.rgEnd.toNat = rg.rgStart.toNat + size.toNat)
      (reserved : mm.sbrk.toNat + size.toNat ≤ mm'.sbrk.toNat)
      (asInt : (size.setWidth 32).toInt = size.toNat)
      (brkAsInt : (mm.sbrk.setWidth 32).toInt = mm.sbrk.toNat)
      (asU32 : viaU32 size = size)
      (rounded : (pagingPageAlignsz (viaU32 size)).toNat = pagesFor size.toNat * 256)
      (pages : ((pagingPageAlignsz (viaU32 size) / 256).setWidth 32).toInt = pagesFor size.toNat)

/-- The size is an `int`, the region the search takes does not wrap around, and if there is none
the break is an `int` and the kernel finds the caller. -/
def SizeSafe (k : Krnl) (p : Pid) (mm : Mm) (size : Addr) : Prop :=
  size.toNat < 2 ^ 31 ∧
  match mm.freerg.find? (fun g => g.Fits size) with
  | some g => g.rgStart.toNat + size.toNat < 2 ^ 64
  | none => mm.sbrk.toNat < 2 ^ 31 ∧ (size = 0 ∨ p ∈ k.sched.runningList.toList)

section Size
variable {size : Addr}

/-- An `addr_t` is the `int` it is converted to below 2^31 only. -/
theorem toInt_setWidth_iff (x : Addr) : (x.setWidth 32).toInt = x.toNat ↔ x.toNat < 2 ^ 31 := by
  rw [BitVec.toInt_eq_toNat_cond, BitVec.toNat_setWidth]
  constructor
  · intro h
    split at h <;> omega
  · intro h
    rw [if_pos (by omega)]
    omega

/-- A region that does not fit is short. -/
theorem VmRg.short_of_not_fits {g : VmRg} (h : ¬ g.Fits size) : g.Short size := by
  rw [VmRg.Fits, BitVec.le_def, BitVec.toNat_add] at h
  have hend := g.rgEnd.isLt
  rw [VmRg.Short]
  omega

/-- Fitting without wrapping is room. -/
theorem VmRg.fits_of_room {g : VmRg} (h : g.rgStart.toNat + size.toNat ≤ g.rgEnd.toNat) :
    g.Fits size := by
  have hend := g.rgEnd.isLt
  rw [VmRg.Fits, BitVec.le_def, BitVec.toNat_add]
  omega

theorem find?_fits_none {rgs : List VmRg} (h : firstFit size rgs = none) :
    rgs.find? (fun g => g.Fits size) = none := by
  rw [List.find?_eq_none]
  intro g hg hfit
  exact firstFit_none.mp h g hg (of_decide_eq_true hfit)

theorem find?_fits_some {pre post : List VmRg} {g : VmRg} (hpre : ∀ q ∈ pre, ¬ q.Fits size)
    (hg : g.Fits size) : (pre ++ g :: post).find? (fun g => g.Fits size) = some g := by
  rw [List.find?_eq_some_iff_append]
  refine ⟨decide_eq_true hg, pre, post, rfl, fun q hq => ?_⟩
  simp [hpre q hq]

end Size

section Alloc
variable {k : Krnl} {p : Pid} {mm mm' : Mm} {size : Addr} {rg : VmRg}

/-- The heap grows by the size at least when the kernel finds the caller and the sum does not
wrap. -/
theorem le_grownBy_of_lt {brk : Addr} (hgo : size = 0 ∨ p ∈ k.sched.runningList.toList)
    (hsum : (brk + size).toNat = brk.toNat + size.toNat) : size.toNat ≤ k.grownBy p brk size := by
  by_cases h0 : size.toNat = 0
  · rw [h0]
    exact Nat.zero_le _
  · have hp := hgo.resolve_left (fun hz => h0 (congrArg BitVec.toNat hz))
    have hlt : brk < brk + size := by
      rw [BitVec.lt_def, hsum]
      omega
    exact le_grownBy (if_pos ⟨hp, hlt⟩)

/-- Where a free region serves the request. -/
theorem sizeKept_carved (hs : mm.Single) (hf : mm.found size = some rg)
    (hfree : mm'.freerg = (mm.searched size).freerg) :
    SizeKept mm mm' size rg ↔ SizeSafe k p mm size := by
  obtain ⟨rgs, hfit, hsearch⟩ := Mm.found_some hs hf
  obtain ⟨pre, g, post, hsplit, hpre, hg, hrg, hrest⟩ := firstFit_cases hfit
  rw [hsearch, Mm.withFree_freerg] at hfree
  have hstart : rg.rgStart = g.rgStart := by rw [hrg]
  have hend : rg.rgEnd = g.rgStart + viaInt size := by rw [hrg]
  constructor
  · intro h
    -- both ways of keeping the size say that it is an `int` and where the region ends
    have hkept : size.toNat < 2 ^ 31 ∧ rg.rgEnd.toNat = rg.rgStart.toNat + size.toNat := by
      cases h with
      | carved _ _ _ _ _ _ len _ _ asInt => exact ⟨(toInt_setWidth_iff size).mp asInt, len⟩
      | grown _ _ len _ asInt _ _ _ _ => exact ⟨(toInt_setWidth_iff size).mp asInt, len⟩
    obtain ⟨hlt, hlen⟩ := hkept
    rw [viaInt_of_lt hlt] at hpre hg
    refine ⟨hlt, ?_⟩
    rw [hsplit, find?_fits_some hpre hg]
    show g.rgStart.toNat + size.toNat < 2 ^ 64
    rw [← hstart, ← hlen]
    exact rg.rgEnd.isLt
  · rintro ⟨hlt, hsafe⟩
    rw [viaInt_of_lt hlt] at hpre hg hend hrest
    rw [hsplit, find?_fits_some hpre hg] at hsafe
    have hlen : rg.rgEnd.toNat = rg.rgStart.toNat + size.toNat := by
      rw [hend, hstart, BitVec.toNat_add]
      exact Nat.mod_eq_of_lt hsafe
    refine .carved pre g post hsplit (fun q hq => VmRg.short_of_not_fits (hpre q hq)) hstart hlen
      ?_ ?_ ((toInt_setWidth_iff size).mpr hlt)
    · rw [hend]
      exact BitVec.le_def.mp hg
    · rw [hend]
      rcases hrest with ⟨_, rfl⟩ | ⟨heq, rfl⟩
      · exact Or.inl hfree
      · exact Or.inr ⟨heq, hfree⟩

/-- Where the heap grows. -/
theorem sizeKept_grown (hw : k.Wf) (hmm : k.ownMm p = some mm) (hp : ∀ g ∈ mm.freerg, g.Proper)
    (hf : mm.found size = none) (hbrk : mm'.sbrk = k.grownBrk p mm.sbrk (viaU32 size)) :
    SizeKept mm mm' size { rgStart := viaInt mm.sbrk, rgEnd := viaInt mm.sbrk + size } ↔
      SizeSafe k p mm size := by
  have hfit := (Mm.found_none (hw.own p mm hmm).single (fun g hg => (hp g hg).ne_neg_one) hf).1
  have hmoved : mm'.sbrk.toNat = mm.sbrk.toNat + k.grownBy p mm.sbrk (viaU32 size) := by
    rw [hbrk]
    exact toNat_grownBrk hw hmm
  constructor
  · intro h
    cases h with
    | carved pre g post free first start len room rest asInt =>
        -- the region with room would have been found
        have hlt := (toInt_setWidth_iff size).mp asInt
        rw [viaInt_of_lt hlt] at hfit
        have hg : g ∈ mm.freerg := free ▸ List.mem_append_right _ List.mem_cons_self
        refine absurd (VmRg.fits_of_room ?_) (firstFit_none.mp hfit g hg)
        rw [← start, ← len]
        exact room
    | grown first start len reserved asInt brkAsInt asU32 rounded pages =>
        have hlt := (toInt_setWidth_iff size).mp asInt
        rw [viaInt_of_lt hlt] at hfit
        refine ⟨hlt, ?_⟩
        rw [find?_fits_none hfit]
        refine ⟨(toInt_setWidth_iff _).mp brkAsInt, ?_⟩
        by_contra hno
        obtain ⟨hne, hlost⟩ := not_or.mp hno
        have hzero : k.grownBy p mm.sbrk (viaU32 size) = 0 := if_neg (fun hgo => hlost hgo.1)
        have hsize : size.toNat = 0 := by omega
        exact hne (BitVec.eq_of_toNat_eq hsize)
  · rintro ⟨hlt, hsafe⟩
    have hu32 : viaU32 size = size := viaU32_of_lt (by omega)
    rw [viaInt_of_lt hlt] at hfit
    rw [find?_fits_none hfit] at hsafe
    obtain ⟨hbrklt, hgo⟩ := hsafe
    have hsum : (mm.sbrk + size).toNat = mm.sbrk.toNat + size.toNat := by
      rw [BitVec.toNat_add]
      omega
    rw [viaInt_of_lt hbrklt]
    refine .grown ?_ rfl hsum ?_ ((toInt_setWidth_iff size).mpr hlt)
      ((toInt_setWidth_iff mm.sbrk).mpr hbrklt) hu32 ?_ ?_
    · intro q hq
      exact VmRg.short_of_not_fits (firstFit_none.mp hfit q hq)
    · rw [hmoved, hu32]
      have hroom := le_grownBy_of_lt hgo hsum
      omega
    · rw [hu32]
      exact toNat_pagingPageAlignsz (by omega)
    · rw [hu32]
      exact incnumpage_eq (by omega)

end Alloc

/-- The size of an ALLOC that returns 0 is kept exactly when it is safe. -/
theorem alloc_size_kept (memramsz memswpsz : Addr) (ramJunk swpJunk : Bool) (es : List Event)
    (s : Sys) (h : Lts.Reaches step (boot memramsz memswpsz ramJunk swpJunk) es s)
    (p : Pid) (mm : Mm) (hmm : s.krnl.ownMm p = some mm) (ins : Inst) (hop : ins.opcode = .alloc)
    (junk : Byte) (k' : Krnl) (hexec : exec s.krnl p ins junk = .ok (k', 0)) :
    ∃ mm', k'.ownMm p = some mm' ∧
      (SizeKept mm mm' ins.arg0 (mm'.symrgtbl ins.allocId) ↔ SizeSafe s.krnl p mm ins.arg0) := by
  have hw := (reach_wf h).krnl
  have hs := (hw.own p mm hmm).single
  obtain ⟨_, _, mm', hmm', hfree, ⟨rg, hf, _, hsym⟩ | ⟨hf, hbrk, hsym⟩⟩ :=
    exec_alloc_cases hmm hs hop hexec
  · refine ⟨mm', hmm', ?_⟩
    rw [hsym, Function.update_self]
    exact sizeKept_carved hs hf hfree
  · refine ⟨mm', hmm', ?_⟩
    rw [hsym, Function.update_self]
    exact sizeKept_grown hw hmm (reach_proper h hmm) hf hbrk

/-- 300 bytes of a RAM of four pages. -/
theorem alloc_size_kept_grown : ∃ s mm k' mm',
    Lts.Reaches step (boot 1024 512 true true) (loadOn 0 0) s ∧ s.krnl.ownMm 0 = some mm ∧
    exec s.krnl 0 ⟨.alloc, 300, 0, 0, 0⟩ 0 = .ok (k', 0) ∧ k'.ownMm 0 = some mm' ∧
    SizeKept mm mm' 300 (mm'.symrgtbl 0) := by
  obtain ⟨s, hs, _, hmm, hrl, hram, _⟩ := exec_loadOn 1024 512 true true
  have hreach := Lts.reaches_of_exec hs
  have hn : pagesFor (viaU32 300).toNat ≤ s.krnl.mram.freeFpList.fpns.length := by
    rw [hram]
    decide
  obtain ⟨k', hexec⟩ : ∃ k', exec s.krnl 0 ⟨.alloc, 300, 0, 0, 0⟩ 0 = .ok (k', 0) :=
    exec_alloc_defined hmm (initMm_single _) rfl (by decide) (by decide)
      (fun _ => sizeFits_of_lt (by decide)) (reach_wf hreach).krnl.free_lt (Or.inl hn)
  obtain ⟨mm', hmm', hiff⟩ := alloc_size_kept 1024 512 true true _ s hreach 0 _ hmm
    ⟨.alloc, 300, 0, 0, 0⟩ rfl 0 k' hexec
  refine ⟨s, _, k', mm', hreach, hmm, hexec, hmm', hiff.mpr ⟨by decide, ?_⟩⟩
  exact ⟨by decide, Or.inr (by rw [hrl]; exact List.mem_singleton.mpr rfl)⟩

/-- An ALLOC of 2^32 + 1 bytes returns 0 and reserves one page. -/
theorem alloc_size_lost : ∃ s mm k' mm',
    Lts.Reaches step (boot 1024 512 true true) (loadOn 0 0) s ∧ s.krnl.ownMm 0 = some mm ∧
    exec s.krnl 0 ⟨.alloc, BitVec.ofNat 64 (2 ^ 32 + 1), 0, 0, 0⟩ 0 = .ok (k', 0) ∧
    k'.ownMm 0 = some mm' ∧ mm.sbrk = 0 ∧ mm'.sbrk = 256 ∧
    mm'.symrgtbl 0 = { rgStart := 0, rgEnd := BitVec.ofNat 64 (2 ^ 32 + 1) } ∧
    ¬ SizeKept mm mm' (BitVec.ofNat 64 (2 ^ 32 + 1)) (mm'.symrgtbl 0) := by
  let ins : Inst := ⟨.alloc, BitVec.ofNat 64 (2 ^ 32 + 1), 0, 0, 0⟩
  obtain ⟨s, hs, _, hmm, hrl, hram, _⟩ := exec_loadOn 1024 512 true true
  have hreach := Lts.reaches_of_exec hs
  have hn : pagesFor (viaU32 ins.arg0).toNat ≤ s.krnl.mram.freeFpList.fpns.length := by
    rw [hram]
    decide
  obtain ⟨k', hexec⟩ : ∃ k', exec s.krnl 0 ins 0 = .ok (k', 0) :=
    exec_alloc_defined hmm (initMm_single _) rfl (by decide) (by decide)
      (fun _ => sizeFits_of_lt (by decide)) (reach_wf hreach).krnl.free_lt (Or.inl hn)
  obtain ⟨_, _, mm', hmm', _, ⟨_, hf, _⟩ | ⟨_, hbrk, hsym⟩⟩ :=
    exec_alloc_cases hmm (initMm_single _) rfl hexec
  · rw [show Mm.found _ ins.arg0 = none by decide] at hf
    cases hf
  · rw [Krnl.grownBrk, if_pos ⟨by rw [hrl]; exact List.mem_singleton.mpr rfl, by decide⟩,
      if_pos hn] at hbrk
    have hentry : mm'.symrgtbl 0 = { rgStart := 0, rgEnd := BitVec.ofNat 64 (2 ^ 32 + 1) } := by
      have hend : viaInt 0 + BitVec.ofNat 64 (2 ^ 32 + 1) = BitVec.ofNat 64 (2 ^ 32 + 1) := by
        decide
      rw [hsym, initMm_sbrk, hend]
      exact Function.update_self _ _ _
    refine ⟨s, _, k', mm', hreach, hmm, hexec, hmm', rfl, by rw [hbrk]; decide, hentry, ?_⟩
    intro hkept
    have hlt : (BitVec.ofNat 64 (2 ^ 32 + 1)).toNat < 2 ^ 31 := by
      cases hkept with
      | carved _ _ _ _ _ _ _ _ _ asInt => exact (toInt_setWidth_iff _).mp asInt
      | grown _ _ _ _ asInt _ _ _ _ => exact (toInt_setWidth_iff _).mp asInt
    exact absurd hlt (by decide)

end SimpleOs
