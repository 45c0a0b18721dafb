/-
# `SimpleOs.RegionStep` — what an instruction does to the regions of its process

The symbol table, the free regions and the break change in five ways
(`RegionStep`), and `exec_regions` says that every instruction is one of them.
`Mm.Tidy` is what the theorems about regions rest on: a region is not inverted
and ends below the break.  It needs a condition on ALLOC, `AllocSafe`, since the
size reaches the search as an `int` and the kernel as a `uint32_t`.

`reach_own` is the rule for properties of one process's structure.
-/
import Mathlib.Order.Interval.Set.Basic
import SimpleOs.Reach

namespace SimpleOs

/-! ## The five ways -/

/-- The entry an ALLOC assigns. -/
def Inst.allocId (ins : Inst) : Nat := (ins.arg1.setWidth 32 : BitVec 32).toInt.toNat

/-- What the instruction `ins` of `p` makes of the regions in `mm`. -/
inductive RegionStep (k : Krnl) (p : Pid) (mm : Mm) (ins : Inst) (mm' : Mm) : Prop
  | kept (sym : mm'.symrgtbl = mm.symrgtbl) (free : mm'.freerg = mm.freerg)
      (brk : mm'.sbrk = mm.sbrk) : RegionStep k p mm ins mm'
  | carved (rg : VmRg) (op : ins.opcode = .alloc) (id : ins.allocId < pagingMaxSymtblSz)
      (found : mm.found ins.arg0 = some rg)
      (sym : mm'.symrgtbl = Function.update mm.symrgtbl ins.allocId rg)
      (free : mm'.freerg = (mm.searched ins.arg0).freerg) (brk : mm'.sbrk = mm.sbrk) :
      RegionStep k p mm ins mm'
  | extended (op : ins.opcode = .alloc) (id : ins.allocId < pagingMaxSymtblSz)
      (found : mm.found ins.arg0 = none)
      (sym : mm'.symrgtbl = Function.update mm.symrgtbl ins.allocId
        { rgStart := viaInt mm.sbrk, rgEnd := viaInt mm.sbrk + ins.arg0 })
      (free : mm'.freerg = (mm.searched ins.arg0).freerg)
      (brk : mm'.sbrk = k.grownBrk p mm.sbrk (viaU32 ins.arg0)) : RegionStep k p mm ins mm'
  | released (i : Nat) (id : i < pagingMaxSymtblSz)
      (sym : mm'.symrgtbl = Function.update mm.symrgtbl i { rgStart := 0, rgEnd := 0 })
      (free : mm'.freerg = if (mm.symrgtbl i).rgStart ≥ (mm.symrgtbl i).rgEnd then mm.freerg
        else mm.symrgtbl i :: mm.freerg)
      (brk : mm'.sbrk = mm.sbrk) : RegionStep k p mm ins mm'
  | moved (sz : Addr) (op : ins.opcode = .syscall) (req : growRequest k p mm ins = some sz)
      (sym : mm'.symrgtbl = mm.symrgtbl) (free : mm'.freerg = mm.freerg)
      (brk : mm'.sbrk = k.grownBrk p mm.sbrk sz) : RegionStep k p mm ins mm'

section Exec
variable {k k' : Krnl} {p : Pid} {mm : Mm} {ins : Inst} {junk : Byte} {st : Int}

/-- An ALLOC that returns has recorded a region: the one the search reports, or one above the
break. -/
theorem exec_alloc_cases (hmm : k.ownMm p = some mm) (hs : mm.Single) (hop : ins.opcode = .alloc)
    (h : exec k p ins junk = .ok (k', st)) : st = 0 ∧
    (ins.allocId < pagingMaxSymtblSz ∧ ins.allocId = (ins.arg1.setWidth 32).toNat) ∧
    ∃ mm', k'.ownMm p = some mm' ∧ mm'.freerg = (mm.searched ins.arg0).freerg ∧
      ((∃ rg, mm.found ins.arg0 = some rg ∧ mm'.sbrk = mm.sbrk ∧
          mm'.symrgtbl = Function.update mm.symrgtbl ins.allocId rg) ∨
       (mm.found ins.arg0 = none ∧ mm'.sbrk = k.grownBrk p mm.sbrk (viaU32 ins.arg0) ∧
          mm'.symrgtbl = Function.update mm.symrgtbl ins.allocId
            { rgStart := viaInt mm.sbrk, rgEnd := viaInt mm.sbrk + ins.arg0 })) := by
  simp only [exec, hop] at h
  obtain ⟨addr, halloc⟩ := liballoc_ok h
  obtain ⟨h0, hlt, hst, hcase⟩ := alloc_cases hmm hs halloc
  obtain ⟨_, _, hsym, hbrk, hs₁⟩ := Mm.searched_frame hs ins.arg0
  have hid : ins.allocId < pagingMaxSymtblSz := by
    simp only [Inst.allocId]
    omega
  refine ⟨hst, ⟨hid, toNat_toInt_of_nonneg h0⟩, ?_⟩
  rcases hcase with ⟨rg, hf, _, rfl⟩ | ⟨hnf, _, k₂, mm₂, hgrown, hmm₂, rfl⟩
  · refine ⟨_, Krnl.setMm_self _ _ _, rfl, Or.inl ⟨rg, hf, hbrk, ?_⟩⟩
    rw [Mm.setEntry_symrgtbl, hsym]
    rfl
  · obtain ⟨mm₃, hmm₃, _, hfree, hsym₃, hbrk₃⟩ := hgrown.own (Krnl.setMm_self _ _ _) hs₁
    obtain rfl : mm₂ = mm₃ := Option.some.inj (hmm₂.symm.trans hmm₃)
    refine ⟨_, Krnl.setMm_self _ _ _, hfree, Or.inr ⟨hnf, ?_, ?_⟩⟩
    · rw [hbrk] at hbrk₃
      exact hbrk₃
    · rw [Mm.setEntry_symrgtbl, hsym₃, hsym]
      rfl

theorem exec_alloc_regions (hmm : k.ownMm p = some mm) (hs : mm.Single)
    (hop : ins.opcode = .alloc) (h : exec k p ins junk = .ok (k', st)) :
    ∃ mm', k'.ownMm p = some mm' ∧ RegionStep k p mm ins mm' := by
  obtain ⟨_, ⟨hid, _⟩, mm', hmm', hfree, ⟨rg, hf, hbrk, hsym⟩ | ⟨hnf, hbrk, hsym⟩⟩ :=
    exec_alloc_cases hmm hs hop h
  · exact ⟨mm', hmm', .carved rg hop hid hf hsym hfree hbrk⟩
  · exact ⟨mm', hmm', .extended hop hid hnf hsym hfree hbrk⟩

/-- ALLOC returns when its entry exists, its size overflows nothing, and there are frames enough or
the free list of RAM ends in NULL. -/
theorem exec_alloc_defined (hmm : k.ownMm p = some mm) (hs : mm.Single) (hop : ins.opcode = .alloc)
    (h0 : 0 ≤ (ins.arg1.setWidth 32).toInt) (hlt : (ins.arg1.setWidth 32).toInt < pagingMaxSymtblSz)
    (hinc : mm.found ins.arg0 = none → SizeFits ins.arg0)
    (hfit : k.mram.freeFpList.fpns.length < 2 ^ 23)
    (hn : pagesFor (viaU32 ins.arg0).toNat ≤ k.mram.freeFpList.fpns.length ∨
      k.mram.freeFpList.closed = true) :
    ∃ k', exec k p ins junk = .ok (k', 0) := by
  obtain ⟨⟨k', st, addr⟩, halloc⟩ := alloc_defined ins.arg0 junk hmm hs h0 hlt hinc hfit hn
  have hexec : exec k p ins junk = .ok (k', st) := by
    simp only [exec, hop]
    exact liballoc_of_alloc halloc
  obtain ⟨rfl, _⟩ := exec_alloc_cases hmm hs hop hexec
  exact ⟨k', hexec⟩

/-- The entry a FREE names. -/
def Inst.freeId (ins : Inst) : Nat := (ins.arg0.setWidth 32 : BitVec 32).toInt.toNat

/-- A FREE that returns was refused, or has moved an entry that was not zero to the free
regions. -/
theorem exec_free_cases (hmm : k.ownMm p = some mm) (hs : mm.Single) (hop : ins.opcode = .free)
    (h : exec k p ins junk = .ok (k', st)) :
    (st = -1 ∧ k' = k) ∨
    (st = 0 ∧ (ins.freeId < pagingMaxSymtblSz ∧ ins.freeId = (ins.arg0.setWidth 32).toNat) ∧
      ¬ ((mm.symrgtbl ins.freeId).rgStart = 0 ∧ (mm.symrgtbl ins.freeId).rgEnd = 0) ∧
      ∃ mm', k'.ownMm p = some mm' ∧
        mm'.symrgtbl = Function.update mm.symrgtbl ins.freeId { rgStart := 0, rgEnd := 0 } ∧
        mm'.freerg = (if (mm.symrgtbl ins.freeId).rgStart ≥ (mm.symrgtbl ins.freeId).rgEnd then
          mm.freerg else mm.symrgtbl ins.freeId :: mm.freerg) ∧
        mm'.sbrk = mm.sbrk ∧ mm'.Single) := by
  simp only [exec, hop, libfree, bind_ok] at h
  obtain ⟨⟨k₁, val⟩, hfree, h⟩ := h
  rcases free_cases hmm hs hfree with ⟨rfl, rfl⟩ | ⟨h0, hlt, rfl, hne, rfl⟩
  · simp only [if_true] at h
    cases h
    exact Or.inl ⟨rfl, rfl⟩
  · cases h
    have hid : ins.freeId < pagingMaxSymtblSz := by
      simp only [Inst.freeId]
      omega
    refine Or.inr ⟨rfl, ⟨hid, toNat_toInt_of_nonneg h0⟩, hne, _, Krnl.setMm_self _ _ _, ?_⟩
    rw [Mm.enlistFree, Inst.freeId]
    split
    · exact ⟨rfl, rfl, rfl, hs.congr rfl⟩
    · exact ⟨rfl, rfl, rfl, (hs.congr rfl).withFree _⟩

theorem exec_free_regions (hmm : k.ownMm p = some mm) (hs : mm.Single)
    (hop : ins.opcode = .free) (h : exec k p ins junk = .ok (k', st)) :
    ∃ mm', k'.ownMm p = some mm' ∧ RegionStep k p mm ins mm' := by
  rcases exec_free_cases hmm hs hop h with
    ⟨_, rfl⟩ | ⟨_, ⟨hid, _⟩, _, mm', hmm', hsym, hfree, hbrk, _⟩
  · exact ⟨mm, hmm, .kept rfl rfl rfl⟩
  · exact ⟨mm', hmm', .released ins.freeId hid hsym hfree hbrk⟩

/-- The entries and the free regions are as they were. -/
structure Mm.SameRegions (mm mm' : Mm) : Prop where
  sym : mm'.symrgtbl = mm.symrgtbl
  free : mm'.freerg = mm.freerg

/-- The fault handler moves no regions. -/
theorem pgGetpage_regions {pgn : Nat} {r : Option Nat} (hw : k.Wf) (hmm : k.ownMm p = some mm)
    (h : pgGetpage k mm pgn p junk = .ok (k', r)) :
    ∃ mm', k'.ownMm p = some mm' ∧ mm.SameRegions mm' ∧ mm'.sbrk = mm.sbrk := by
  rcases pgGetpage_effect hw hmm h with ⟨mm', rfl, _, hmap, hsym, _⟩ |
    ⟨pgs, v, s, _, _, _, _, rfl, _⟩
  · exact ⟨mm', Krnl.setMm_self _ _ _, ⟨hsym, freerg_congr hmap⟩, sbrk_congr hmap⟩
  · have hmap := Mm.evict_mmap mm pgn v s pgs
    refine ⟨mm.evict pgn v s pgs, ?_,
      ⟨Mm.evict_symrgtbl mm pgn v s pgs, freerg_congr hmap⟩, sbrk_congr hmap⟩
    rw [Krnl.evicted, Krnl.copyOut_ownMm]
    exact Krnl.setMm_self _ _ _

theorem exec_syscall_regions (hw : k.Wf) (hmm : k.ownMm p = some mm) (hop : ins.opcode = .syscall)
    (h : exec k p ins junk = .ok (k', st)) :
    ∃ mm', k'.ownMm p = some mm' ∧ mm.SameRegions mm' ∧
      (mm'.sbrk = mm.sbrk ∨ ∃ sz, growRequest k p mm ins = some sz ∧
        mm'.sbrk = k.grownBrk p mm.sbrk sz) := by
  have hs := (hw.own p mm hmm).single
  simp only [exec, hop, libsyscall, bind_ok] at h
  obtain ⟨⟨k₁, regs, ret⟩, hsys, h⟩ := h
  cases h
  rw [syscall] at hsys
  split at hsys
  next hnr =>
    rcases sysMemmap_cases hw.ram.rdm hw.swp.rdm hsys with
      rfl | ⟨mm', hmm', _, rfl⟩ | ⟨st', hp, hinc, hlim⟩ | ⟨src, dst, rfl⟩ | ⟨addr, value, rfl⟩
    · exact ⟨mm, hmm, ⟨rfl, rfl⟩, Or.inl rfl⟩
    · obtain rfl : mm = mm' := Option.some.inj (hmm.symm.trans hmm')
      obtain ⟨hmap, hsym, _⟩ :=
        vmapPgdMemset_frame mm (viaU32 ins.arg2) (ins.arg3.setWidth 32).toInt
      exact ⟨_, Krnl.setMm_self _ _ _, ⟨hsym, freerg_congr hmap⟩, Or.inl (sbrk_congr hmap)⟩
    · rcases incVmaLimit_cases hmm hs hp (viaU32_lt _) hlim with ⟨_, rfl⟩ | ⟨hid, hgrown⟩
      · exact ⟨mm, hmm, ⟨rfl, rfl⟩, Or.inl rfl⟩
      · obtain ⟨mm', hmm', _, hfree, hsym, hbrk⟩ := hgrown.own hmm hs
        exact ⟨mm', hmm', ⟨hsym, hfree⟩,
          Or.inr ⟨_, growRequest_syscall hp hop hnr hinc hid, hbrk⟩⟩
    · exact ⟨mm, hmm, ⟨rfl, rfl⟩, Or.inl rfl⟩
    · exact ⟨mm, hmm, ⟨rfl, rfl⟩, Or.inl rfl⟩
  next => cases hsys; exact ⟨mm, hmm, ⟨rfl, rfl⟩, Or.inl rfl⟩

/-- Only ALLOC and FREE touch the entries and the free regions. -/
theorem exec_sameRegions (hw : k.Wf) (hmm : k.ownMm p = some mm) (ha : ins.opcode ≠ .alloc)
    (hf : ins.opcode ≠ .free) (h : exec k p ins junk = .ok (k', st)) :
    ∃ mm', k'.ownMm p = some mm' ∧ mm.SameRegions mm' ∧
      (mm'.sbrk = mm.sbrk ∨ ∃ sz, ins.opcode = .syscall ∧ growRequest k p mm ins = some sz ∧
        mm'.sbrk = k.grownBrk p mm.sbrk sz) := by
  cases hop : ins.opcode
  case alloc => exact absurd hop ha
  case free => exact absurd hop hf
  case read =>
      rcases hw.read_cases hmm hop h with ⟨rfl, _⟩ | ⟨addr, r, _, _, hpage⟩
      · exact ⟨mm, hmm, ⟨rfl, rfl⟩, Or.inl rfl⟩
      · obtain ⟨mm', hmm', hsame, hbrk⟩ := pgGetpage_regions hw hmm hpage
        exact ⟨mm', hmm', hsame, Or.inl hbrk⟩
  case write =>
      rcases hw.write_cases hmm hop h with ⟨rfl, _⟩ | ⟨addr, k₁, r, _, _, hpage, hcase⟩
      · exact ⟨mm, hmm, ⟨rfl, rfl⟩, Or.inl rfl⟩
      · obtain ⟨mm', hmm', hsame, hbrk⟩ := pgGetpage_regions hw hmm hpage
        refine ⟨mm', ?_, hsame, Or.inl hbrk⟩
        rcases hcase with ⟨_, rfl⟩ | ⟨_, _, _, rfl⟩ | ⟨_, _, _, rfl⟩ <;> exact hmm'
  case syscall =>
      obtain ⟨mm', hmm', hsame, hbrk⟩ := exec_syscall_regions hw hmm hop h
      exact ⟨mm', hmm', hsame, hbrk.imp_right (fun ⟨sz, hreq, hb⟩ => ⟨sz, rfl, hreq, hb⟩)⟩
  -- the remaining instructions are stubs
  all_goals
    simp only [exec, hop] at h
    cases h
    exact ⟨mm, hmm, ⟨rfl, rfl⟩, Or.inl rfl⟩

/-- Every instruction takes one of the five ways. -/
theorem exec_regions (hw : k.Wf) (hmm : k.ownMm p = some mm)
    (h : exec k p ins junk = .ok (k', st)) :
    ∃ mm', k'.ownMm p = some mm' ∧ RegionStep k p mm ins mm' := by
  have hs := (hw.own p mm hmm).single
  by_cases ha : ins.opcode = .alloc
  · exact exec_alloc_regions hmm hs ha h
  by_cases hf : ins.opcode = .free
  · exact exec_free_regions hmm hs hf h
  obtain ⟨mm', hmm', hsame, hbrk | ⟨sz, hop, hreq, hbrk⟩⟩ := exec_sameRegions hw hmm ha hf h
  · exact ⟨mm', hmm', .kept hsame.sym hsame.free hbrk⟩
  · exact ⟨mm', hmm', .moved sz hop hreq hsame.sym hsame.free hbrk⟩

end Exec

/-! ## Where regions lie -/

/-- The addresses of a region. -/
def VmRg.span (rg : VmRg) : Set Nat := Set.Ico rg.rgStart.toNat rg.rgEnd.toNat

/-- The region is not inverted and ends below `brk`; the bound keeps sums from wrapping. -/
structure VmRg.Within (rg : VmRg) (brk : Addr) : Prop where
  le : rg.rgStart.toNat ≤ rg.rgEnd.toNat
  brk : rg.rgEnd.toNat ≤ brk.toNat
  lt : rg.rgEnd.toNat < 2 ^ 33

theorem VmRg.Within.mono {rg : VmRg} {brk brk' : Addr} (h : rg.Within brk)
    (hle : brk.toNat ≤ brk'.toNat) : rg.Within brk' :=
  ⟨h.le, h.brk.trans hle, h.lt⟩

theorem VmRg.Within.ne_neg_one {rg : VmRg} {brk : Addr} (h : rg.Within brk) :
    rg.rgStart ≠ -1 := by
  intro hstart
  have hle := h.le
  have hlt := h.lt
  have hone : rg.rgStart.toNat = 2 ^ 64 - 1 := by
    rw [hstart]
    rfl
  omega

theorem VmRg.Within.span_sub {rg : VmRg} {brk : Addr} (h : rg.Within brk) :
    rg.span ⊆ Set.Ico 0 brk.toNat :=
  fun _ ha => ⟨Nat.zero_le _, ha.2.trans_le h.brk⟩

/-- An entry that names no addresses. -/
def VmRg.Empty (rg : VmRg) : Prop := rg.rgEnd ≤ rg.rgStart

instance (rg : VmRg) : Decidable rg.Empty := inferInstanceAs (Decidable (_ ≤ _))

/-- The entry FREE leaves. -/
theorem VmRg.zero_empty : VmRg.Empty { rgStart := 0, rgEnd := 0 } := BitVec.le_refl 0

theorem VmRg.Empty.span_eq {rg : VmRg} (h : rg.Empty) : rg.span = ∅ :=
  Set.Ico_eq_empty_of_le (BitVec.le_def.mp h)

/-- Free regions lie below the break, and so do the entries that are not empty. -/
structure Mm.Tidy (mm : Mm) : Prop where
  node : ∀ g ∈ mm.freerg, g.Within mm.sbrk
  entry : ∀ i < pagingMaxSymtblSz, (mm.symrgtbl i).Empty ∨ (mm.symrgtbl i).Within mm.sbrk

theorem Mm.Tidy.entry_sub {mm : Mm} (h : mm.Tidy) {i : Nat} (hi : i < pagingMaxSymtblSz) :
    (mm.symrgtbl i).span ⊆ Set.Ico 0 mm.sbrk.toNat := by
  rcases h.entry i hi with he | hin
  · rw [he.span_eq]
    exact Set.empty_subset _
  · exact hin.span_sub

/-- The size of an ALLOC means the same to the search, to the kernel and to the library, and the
kernel is there to hear it. -/
def AllocSafe (k : Krnl) (p : Pid) (mm : Mm) (size : Addr) : Prop :=
  if (mm.found size).isSome then (size.setWidth 32).msb = false
  else size = 0 ∨
    (p ∈ k.sched.runningList.toList ∧ size.toNat < 2 ^ 32 ∧ mm.sbrk.toNat < 2 ^ 31)

instance (k : Krnl) (p : Pid) (mm : Mm) (size : Addr) : Decidable (AllocSafe k p mm size) :=
  inferInstanceAs (Decidable (if (mm.found size).isSome then (size.setWidth 32).msb = false
    else size = 0 ∨
      (p ∈ k.sched.runningList.toList ∧ size.toNat < 2 ^ 32 ∧ mm.sbrk.toNat < 2 ^ 31)))

section Search
variable {mm : Mm} {size : Addr}

/-- What the search reports is the head of a free region, whose rest stays free. -/
theorem Mm.Tidy.found (h : mm.Tidy) (hs : mm.Single) (hsz : (size.setWidth 32).msb = false)
    {rg : VmRg} (hf : mm.found size = some rg) : ∃ pre g post, mm.freerg = pre ++ g :: post ∧
      rg.rgStart = g.rgStart ∧
      rg.rgEnd.toNat = rg.rgStart.toNat + size.toNat % 2 ^ 32 ∧ rg.rgEnd.toNat ≤ g.rgEnd.toNat ∧
      ((mm.searched size).freerg = pre ++ { rgStart := rg.rgEnd, rgEnd := g.rgEnd } :: post ∨
        (rg.rgEnd = g.rgEnd ∧ (mm.searched size).freerg = pre ++ post)) := by
  obtain ⟨rgs, hfit, hsearch⟩ := Mm.found_some hs hf
  obtain ⟨pre, g, post, hfree, _, hg, rfl, hrest⟩ := firstFit_cases hfit
  have hgin := h.node g (by rw [hfree]; exact List.mem_append_right _ List.mem_cons_self)
  have hle := hgin.le
  have hlt := hgin.lt
  have hlen : (viaInt size).toNat = size.toNat % 2 ^ 32 := toNat_viaInt_of_nonneg hsz
  have hsum : (g.rgStart + viaInt size).toNat = g.rgStart.toNat + size.toNat % 2 ^ 32 := by
    rw [BitVec.toNat_add, hlen]
    omega
  refine ⟨pre, g, post, hfree, rfl, hsum, BitVec.le_def.mp hg, ?_⟩
  rw [hsearch, Mm.withFree_freerg]
  rcases hrest with ⟨_, rfl⟩ | ⟨heq, rfl⟩
  · exact Or.inl rfl
  · exact Or.inr ⟨heq, rfl⟩

/-- A search that reports nothing leaves the free regions alone: none of them starts at -1. -/
theorem Mm.Tidy.notFound (h : mm.Tidy) (hs : mm.Single) (hf : mm.found size = none) :
    (mm.searched size).freerg = mm.freerg := by
  rw [(Mm.found_none hs (fun g hg => (h.node g hg).ne_neg_one) hf).2]

end Search

/-! ## Growing -/

/-- How far a request to grow by `sz` moves a break at `brk`. -/
def Krnl.grownBy (k : Krnl) (p : Pid) (brk sz : Addr) : Nat :=
  if p ∈ k.sched.runningList.toList ∧ brk < brk + sz then
    if pagesFor sz.toNat ≤ k.mram.freeFpList.fpns.length then pagesFor sz.toNat * 256 else sz.toNat
  else 0

section Grow
variable {k : Krnl} {p : Pid} {mm : Mm} {size sz : Addr}

/-- The break never wraps. -/
theorem toNat_grownBrk (hw : k.Wf) (hmm : k.ownMm p = some mm) :
    (k.grownBrk p mm.sbrk sz).toNat = mm.sbrk.toNat + k.grownBy p mm.sbrk sz := by
  rw [Krnl.grownBrk, Krnl.grownBy]
  split
  next hgo =>
    have hlt := hgo.2
    rw [BitVec.lt_def, BitVec.toNat_add] at hlt
    split
    next hn =>
      have hpos : 0 < pagesFor sz.toNat := by
        simp only [pagesFor]
        omega
      obtain ⟨hmod, hle, hcap⟩ := (hw.own p mm hmm).sbrk_bound hw.ram hpos hn
      rw [BitVec.toNat_add, BitVec.toNat_ofNat]
      omega
    next =>
      rw [BitVec.toNat_add]
      omega
  next => rfl

theorem grownBy_zero {brk : Addr} : k.grownBy p brk (viaU32 0) = 0 := by
  have hadd : brk + viaU32 0 = brk := BitVec.add_zero brk
  rw [Krnl.grownBy, hadd]
  exact if_neg (fun hgo => BitVec.lt_irrefl _ hgo.2)

theorem sbrk_le_grownBrk (sz : Addr) (hw : k.Wf) (hmm : k.ownMm p = some mm) :
    mm.sbrk.toNat ≤ (k.grownBrk p mm.sbrk sz).toNat := by
  rw [toNat_grownBrk hw hmm]
  exact Nat.le_add_right _ _

/-- A safe ALLOC that finds no region asks for nothing, or gets at least what it asks for and
knows where. -/
theorem AllocSafe.extended (h : AllocSafe k p mm size) (hf : mm.found size = none) :
    (size = 0 ∧ k.grownBy p mm.sbrk (viaU32 size) = 0) ∨
    (0 < size.toNat ∧ viaInt mm.sbrk = mm.sbrk ∧
      (mm.sbrk + size).toNat = mm.sbrk.toNat + size.toNat ∧ (mm.sbrk + size).toNat < 2 ^ 33 ∧
      k.grownBy p mm.sbrk (viaU32 size) =
        if pagesFor size.toNat ≤ k.mram.freeFpList.fpns.length then pagesFor size.toNat * 256
        else size.toNat) := by
  rw [AllocSafe, hf] at h
  by_cases h0 : size = 0
  · rw [h0]
    exact Or.inl ⟨rfl, grownBy_zero⟩
  · obtain ⟨hp, hsz, hbrk⟩ := h.resolve_left h0
    have hpos : 0 < size.toNat := Nat.pos_of_ne_zero (fun hz => h0 (BitVec.eq_of_toNat_eq hz))
    have hsum : (mm.sbrk + size).toNat = mm.sbrk.toNat + size.toNat := by
      rw [BitVec.toNat_add]
      omega
    have hlt : mm.sbrk < mm.sbrk + size := by
      rw [BitVec.lt_def, hsum]
      omega
    refine Or.inr ⟨hpos, viaInt_of_lt hbrk, hsum, by omega, ?_⟩
    rw [viaU32_of_lt hsz, Krnl.grownBy, if_pos ⟨hp, hlt⟩]

/-- The pages of a request have room for it. -/
theorem le_grownBy {n len m : Nat} (h : m = if pagesFor n ≤ len then pagesFor n * 256 else n) :
    n ≤ m := by
  rw [h]
  split
  · simp only [pagesFor]
    omega
  · exact Nat.le_refl n

theorem AllocSafe.found_msb (h : AllocSafe k p mm size) {rg : VmRg} (hf : mm.found size = some rg) :
    (size.setWidth 32).msb = false := by
  rw [AllocSafe, hf] at h
  exact h

end Grow

/-! ## Tidiness is kept -/

section Tidy
variable {k : Krnl} {p : Pid} {mm mm' : Mm} {ins : Inst}

/-- One entry is assigned, the break does not fall. -/
theorem Mm.Tidy.assign (h : mm.Tidy) {i : Nat} {rg : VmRg}
    (hsym : mm'.symrgtbl = Function.update mm.symrgtbl i rg)
    (hbrk : mm.sbrk.toNat ≤ mm'.sbrk.toNat) (hrg : rg.Empty ∨ rg.Within mm'.sbrk)
    (hnode : ∀ g ∈ mm'.freerg, g ∈ mm.freerg ∨ g.Within mm'.sbrk) : mm'.Tidy where
  node := by
    intro g hg
    rcases hnode g hg with hold | hin
    · exact (h.node g hold).mono hbrk
    · exact hin
  entry := by
    intro j hj
    rw [hsym]
    by_cases hji : j = i
    · rw [hji, Function.update_self]
      exact hrg
    · rw [Function.update_of_ne hji]
      exact (h.entry j hj).imp_right (fun hin => hin.mono hbrk)

/-- The entries stay, the break does not fall. -/
theorem Mm.Tidy.keep (h : mm.Tidy) (hsym : mm'.symrgtbl = mm.symrgtbl)
    (hfree : mm'.freerg = mm.freerg) (hbrk : mm.sbrk.toNat ≤ mm'.sbrk.toNat) : mm'.Tidy := by
  have hself : mm'.symrgtbl = Function.update mm.symrgtbl 0 (mm.symrgtbl 0) := by
    rw [hsym, Function.update_eq_self]
  refine h.assign hself hbrk ?_ (fun g hg => Or.inl (hfree ▸ hg))
  exact (h.entry 0 (by decide)).imp_right (fun hin => hin.mono hbrk)

theorem Mm.Tidy.step (h : mm.Tidy) (hw : k.Wf) (hmm : k.ownMm p = some mm)
    (hsafe : ins.opcode = .alloc → AllocSafe k p mm ins.arg0)
    (hstep : RegionStep k p mm ins mm') : mm'.Tidy := by
  have hs := (hw.own p mm hmm).single
  cases hstep with
  | kept sym free brk => exact h.keep sym free (by rw [brk])
  | carved rg op id found sym free brk =>
      obtain ⟨pre, g, post, hfree, hstart, hend, hle, hrest⟩ :=
        h.found hs ((hsafe op).found_msb found) found
      have hg : g ∈ mm.freerg := by
        rw [hfree]
        exact List.mem_append_right _ List.mem_cons_self
      have hgin := h.node g hg
      refine h.assign sym (by rw [brk]) (Or.inr ?_) ?_
      · rw [brk]
        exact ⟨by omega, hle.trans hgin.brk, hle.trans_lt hgin.lt⟩
      · rw [free, brk, hfree]
        intro q hq
        rcases hrest with hrest | ⟨_, hrest⟩
        · rw [hrest] at hq
          rcases List.mem_append.mp hq with hq | hq
          · exact Or.inl (List.mem_append_left _ hq)
          · rcases List.mem_cons.mp hq with rfl | hq
            · exact Or.inr ⟨hle, hgin.brk, hgin.lt⟩
            · exact Or.inl (List.mem_append_right _ (List.mem_cons_of_mem _ hq))
        · rw [hrest] at hq
          rcases List.mem_append.mp hq with hq | hq
          · exact Or.inl (List.mem_append_left _ hq)
          · exact Or.inl (List.mem_append_right _ (List.mem_cons_of_mem _ hq))
  | extended op id found sym free brk =>
      have hle := sbrk_le_grownBrk (viaU32 ins.arg0) hw hmm
      refine h.assign sym (by rw [brk]; exact hle) ?_ (fun g hg => Or.inl ?_)
      · rcases (hsafe op).extended found with ⟨h0, _⟩ | ⟨hpos, hint, hsum, hlt, hby⟩
        · left
          rw [h0]
          exact BitVec.le_of_eq (BitVec.add_zero _)
        · right
          rw [hint, brk]
          refine ⟨by rw [hsum]; exact Nat.le_add_right _ _, ?_, hlt⟩
          rw [toNat_grownBrk hw hmm, hsum]
          exact Nat.add_le_add_left (le_grownBy hby) _
      · rw [free, h.notFound hs found] at hg
        exact hg
  | released i id sym free brk =>
      refine h.assign sym (by rw [brk]) (Or.inl (BitVec.le_refl _)) ?_
      rw [free, brk]
      intro g hg
      split at hg
      next => exact Or.inl hg
      next hne =>
        rcases List.mem_cons.mp hg with rfl | hg
        · exact Or.inr ((h.entry i id).resolve_left hne)
        · exact Or.inl hg
  | moved sz op req sym free brk =>
      exact h.keep sym free (by rw [brk]; exact sbrk_le_grownBrk sz hw hmm)

/-- A new process is tidy if `malloc` left its entries empty. -/
theorem initMm_tidy {symrgtbl : Nat → VmRg}
    (h : ∀ i < pagingMaxSymtblSz, (symrgtbl i).Empty) : (initMm symrgtbl).Tidy where
  node := by
    intro g hg
    rw [initMm_freerg, List.mem_singleton] at hg
    rw [hg]
    exact ⟨Nat.le_refl _, Nat.le_refl _, by decide⟩
  entry := fun i hi => Or.inl (h i hi)

end Tidy

/-! ## Runs -/

/-- The loader creates processes with empty entries, and instructions meet `A`. -/
def RunOk (A : Krnl → Pid → Mm → Inst → Prop) (s : Sys) : Event → Prop
  | .create _ _ symrgtbl => ∀ i < pagingMaxSymtblSz, (symrgtbl i).Empty
  | .run c ins _ => ∀ p mm, s.cpu c = .restored p → s.krnl.ownMm p = some mm →
      A s.krnl p mm ins
  | _ => True

theorem RunOk.run {A : Krnl → Pid → Mm → Inst → Prop} {s : Sys} {c : Nat} {p : Pid} {mm : Mm}
    {ins : Inst} {junk : Byte} (hc : s.cpu c = .restored p) (hmm : s.krnl.ownMm p = some mm)
    (hA : A s.krnl p mm ins) : RunOk A s (.run c ins junk) := by
  intro p' mm' hc' hmm'
  obtain rfl : p = p' := Cpu.restored.inj (hc.symm.trans hc')
  obtain rfl : mm = mm' := Option.some.inj (hmm.symm.trans hmm')
  exact hA

instance (A : Krnl → Pid → Mm → Inst → Prop) [∀ k p mm ins, Decidable (A k p mm ins)] (s : Sys) :
    ∀ e, Decidable (RunOk A s e)
  | .create _ _ symrgtbl =>
      inferInstanceAs (Decidable (∀ i < pagingMaxSymtblSz, (symrgtbl i).Empty))
  | .run c ins _ =>
      match hc : s.cpu c with
      | .restored p =>
          match hmm : s.krnl.ownMm p with
          | some mm => decidable_of_iff (A s.krnl p mm ins)
              ⟨fun hA => RunOk.run hc hmm hA, fun hall => hall p mm hc hmm⟩
          | none => isTrue fun p' mm' hc' hmm' => by
              obtain rfl := Cpu.restored.inj (hc.symm.trans hc')
              exact nomatch (hmm.symm.trans hmm')
      | .idle => isTrue fun _ _ hc' => nomatch (hc.symm.trans hc')
      | .holding _ => isTrue fun _ _ hc' => nomatch (hc.symm.trans hc')
  | .add | .get _ | .put _ | .finish _ | .restore _ => isTrue trivial

theorem loadOn_runOk {A : Krnl → Pid → Mm → Inst → Prop} {c : Nat} {p : Pid} :
    ∀ e ∈ loadOn c p, ∀ s, RunOk A s e := by
  intro e he s
  simp only [loadOn, List.mem_cons, List.not_mem_nil, or_false] at he
  rcases he with rfl | rfl | rfl | rfl
  · exact fun _ _ => BitVec.le_refl _
  · trivial
  · trivial
  · trivial

section Own
variable {memramsz memswpsz : Addr} {ramJunk swpJunk : Bool} {es : List Event} {s : Sys}

/-- A property of one process's structure that holds of a new one and is kept by the process's own
instructions holds in every process after every permitted run. -/
theorem reach_process {ok : Sys → Event → Prop} {P : Mm → Prop}
    (hinit : ∀ {s p prio symrgtbl}, ok s (.create p prio symrgtbl) → P (initMm symrgtbl))
    (hexec : ∀ {s c p mm ins junk k' st mm'}, s.Wf → s.cpu c = .restored p →
      s.krnl.ownMm p = some mm → P mm → ok s (.run c ins junk) →
      exec s.krnl p ins junk = .ok (k', st) → k'.ownMm p = some mm' → P mm')
    (h : Lts.Run step ok (boot memramsz memswpsz ramJunk swpJunk) es s) :
    ∀ p mm, s.krnl.ownMm p = some mm → P mm := by
  have hboot : ∀ p mm, (boot memramsz memswpsz ramJunk swpJunk).krnl.ownMm p = some mm → P mm := by
    intro p mm hmm
    exact nomatch (hmm : none = some mm)
  have hboth := h.invariant (P := fun s => s.Wf ∧ ∀ p mm, s.krnl.ownMm p = some mm → P mm)
    ⟨boot_wf _ _ _ _, hboot⟩ ?_
  · exact hboth.2
  rintro s e s' ⟨hw, hP⟩ hok hs
  refine ⟨hw.step hs, fun q mm hmm => ?_⟩
  cases e with
  | create p prio symrgtbl =>
      obtain ⟨_, _, rfl⟩ := step_create hs
      by_cases hqp : q = p
      · subst hqp
        obtain rfl : initMm symrgtbl = mm :=
          Option.some.inj ((Krnl.setMm_self s.krnl q _).symm.trans hmm)
        exact hinit hok
      · exact hP q mm ((Krnl.setMm_of_ne s.krnl p _ hqp).symm.trans hmm)
  | add => obtain ⟨_, _, _, _, rfl⟩ := step_add hs; exact hP q mm hmm
  | get c => obtain ⟨_, ⟨_, rfl⟩ | ⟨_, _, rfl⟩⟩ := step_get hs <;> exact hP q mm hmm
  | put c => obtain ⟨_, _, _, _, rfl⟩ := step_put hs; exact hP q mm hmm
  | finish c => obtain ⟨_, _, rfl⟩ := step_finish hs; exact hP q mm hmm
  | restore c => obtain ⟨_, _, rfl⟩ := step_restore hs; exact hP q mm hmm
  | run c ins junk =>
      obtain ⟨p, k', st, hc, hrun, rfl⟩ := step_run hs
      obtain ⟨mm₀, hmm₀⟩ := Option.isSome_iff_exists.mp (hw.held c p (by rw [hc]; rfl))
      by_cases hqp : q = p
      · subst hqp
        exact hexec hw hc hmm₀ (hP q mm₀ hmm₀) hok hrun hmm
      · exact hP q mm ((exec_ownMm_of_ne hw.krnl hmm₀ hqp hrun).symm.trans hmm)

/-- The same for the runs of `RunOk`. -/
theorem reach_own {A : Krnl → Pid → Mm → Inst → Prop} {P : Mm → Prop}
    (hinit : ∀ symrgtbl, (∀ i < pagingMaxSymtblSz, (symrgtbl i).Empty) → P (initMm symrgtbl))
    (hexec : ∀ {k k' p mm mm' ins junk st}, k.Wf → k.ownMm p = some mm → P mm → A k p mm ins →
      exec k p ins junk = .ok (k', st) → k'.ownMm p = some mm' → P mm')
    (h : Lts.Run step (RunOk A) (boot memramsz memswpsz ramJunk swpJunk) es s) :
    ∀ p mm, s.krnl.ownMm p = some mm → P mm := by
  refine reach_process (fun hok => hinit _ hok) ?_ h
  intro s c p mm ins junk k' st mm' hw hc hmm hP hok hrun hmm'
  exact hexec hw.krnl hmm hP (hok p mm hc hmm) hrun hmm'

end Own

end SimpleOs
