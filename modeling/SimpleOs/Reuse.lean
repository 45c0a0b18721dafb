/-
# `SimpleOs.Reuse` — first fit, and why a freed region is used again

`get_free_vmrg_area` walks the free regions of an area and carves the request
off the first one that is long enough: the node shrinks, or is unlinked when
nothing of it is left.  On disjoint regions and sizes an `int` can hold it does
exactly that (`Serves`).

`__alloc` asks the kernel for more only when that search fails, so a region that
has just been freed, at the head of the list, is always found.
-/
import SimpleOs.AddressSpace
import SimpleOs.AllocSize

namespace SimpleOs

/-! ## The search -/

/-- Disjoint regions, none inverted, all below 2^63. -/
structure FreeRegions (rgs : List VmRg) : Prop where
  le : ∀ g ∈ rgs, g.rgStart.toNat ≤ g.rgEnd.toNat
  lt : ∀ g ∈ rgs, g.rgEnd.toNat < 2 ^ 63
  disjoint : (rgs.map VmRg.span).Pairwise Disjoint

/-- The bytes of a list of regions. -/
def freeBytes (rgs : List VmRg) : Set Nat := Layout.union (rgs.map VmRg.span)

/-- `rg` is the prefix of `n` bytes of the first region that long, and `rgs'` is what it leaves:
that node shrunk or unlinked, the others as they were. -/
inductive FirstFit (n : Nat) (rgs : List VmRg) (rg : VmRg) (rgs' : List VmRg) : Prop
  | shrink (pre : List VmRg) (g : VmRg) (post : List VmRg)
      (split : rgs = pre ++ g :: post)
      (first : ∀ q ∈ pre, q.len < n)
      (start : rg.rgStart = g.rgStart)
      (len : rg.rgEnd.toNat = g.rgStart.toNat + n)
      (room : n < g.len)
      (rest : rgs' = pre ++ { rgStart := rg.rgEnd, rgEnd := g.rgEnd } :: post)
  | unlink (pre : List VmRg) (g : VmRg) (post : List VmRg)
      (split : rgs = pre ++ g :: post)
      (first : ∀ q ∈ pre, q.len < n)
      (whole : rg = g)
      (room : g.len = n)
      (rest : rgs' = pre ++ post)

/-- A request for `n` bytes of the area `vma` is served by first fit, or nothing changes. -/
structure Serves (mm : Mm) (vmaid : Int) (vma : VmArea) (n : Nat) : Prop where
  found_iff : (getFreeVmrgArea mm vmaid n).2.isSome ↔ ∃ g ∈ vma.vmFreergList, n ≤ g.len
  found : ∀ rg, (getFreeVmrgArea mm vmaid n).2 = some rg → ∃ rgs',
    FirstFit n vma.vmFreergList rg rgs' ∧
    (getFreeVmrgArea mm vmaid n).1 = mm.setVma vmaid { vma with vmFreergList := rgs' } ∧
    rg.span ⊆ freeBytes vma.vmFreergList ∧
    freeBytes rgs' = freeBytes vma.vmFreergList \ rg.span
  lost : (getFreeVmrgArea mm vmaid n).2 = none → (getFreeVmrgArea mm vmaid n).1 = mm

section Search
variable {rgs rgs' : List VmRg} {rg : VmRg} {n : Nat}

/-- The region that is carved lies in the first region with room, and what is left is the rest. -/
theorem FirstFit.bytes (h : FirstFit n rgs rg rgs') (hfree : FreeRegions rgs) :
    rg.span ⊆ freeBytes rgs ∧ freeBytes rgs' = freeBytes rgs \ rg.span := by
  have hdisj := hfree.disjoint
  cases h with
  | shrink pre g post split first start len room rest =>
      subst split rest
      rw [List.map_append, List.map_cons] at hdisj
      have hsub : rg.span ⊆ g.span := by
        rw [VmRg.span, VmRg.span, start]
        refine Set.Ico_subset_Ico_right ?_
        rw [VmRg.len] at room
        omega
      have hrest : VmRg.span { rgStart := rg.rgEnd, rgEnd := g.rgEnd } = g.span \ rg.span := by
        ext a
        simp only [VmRg.span, start, Set.mem_Ico, Set.mem_sdiff]
        omega
      refine ⟨?_, ?_⟩
      · intro a ha
        refine ⟨g.span, List.mem_map.mpr ⟨g, ?_, rfl⟩, hsub ha⟩
        exact List.mem_append_right _ List.mem_cons_self
      · rw [freeBytes, freeBytes, List.map_append, List.map_cons, hrest, List.map_append,
          List.map_cons]
        exact Layout.union_carve hdisj hsub
  | unlink pre g post split first whole room rest =>
      subst split rest whole
      rw [List.map_append, List.map_cons] at hdisj
      refine ⟨?_, ?_⟩
      · intro a ha
        refine ⟨rg.span, List.mem_map.mpr ⟨rg, ?_, rfl⟩, ha⟩
        exact List.mem_append_right _ List.mem_cons_self
      · have hcarve := Layout.union_carve hdisj (subset_refl rg.span)
        rw [Set.sdiff_self, Layout.union_empty] at hcarve
        rw [freeBytes, freeBytes, List.map_append, hcarve, List.map_append, List.map_cons]

/-- In range, having room is being long enough. -/
theorem fits_iff_len {g : VmRg} (hle : g.rgStart.toNat ≤ g.rgEnd.toNat)
    (hlt : g.rgEnd.toNat < 2 ^ 63) (hn : n < 2 ^ 31) :
    g.Fits (BitVec.ofNat 64 n) ↔ n ≤ g.len := by
  rw [VmRg.Fits, BitVec.le_def, BitVec.toNat_add, BitVec.toNat_ofNat, VmRg.len]
  omega

/-- The loop is first fit. -/
theorem firstFit_spec (hfree : FreeRegions rgs) (hn : n < 2 ^ 31)
    (h : firstFit (BitVec.ofNat 64 n) rgs = some (rg, rgs')) : FirstFit n rgs rg rgs' := by
  obtain ⟨pre, g, post, split, hpre, hg, hrg, hrest⟩ := firstFit_cases h
  have hin : g ∈ rgs := split ▸ List.mem_append_right _ List.mem_cons_self
  have hfit := (fits_iff_len (hfree.le g hin) (hfree.lt g hin) hn).mp hg
  have hle := hfree.le g hin
  have hlt := hfree.lt g hin
  have hsum : (g.rgStart + BitVec.ofNat 64 n).toNat = g.rgStart.toNat + n := by
    rw [BitVec.toNat_add, BitVec.toNat_ofNat]
    rw [VmRg.len] at hfit
    omega
  have first : ∀ q ∈ pre, q.len < n := by
    intro q hq
    have hq' : q ∈ rgs := split ▸ List.mem_append_left _ hq
    exact Nat.lt_of_not_le fun hle =>
      hpre q hq ((fits_iff_len (hfree.le q hq') (hfree.lt q hq') hn).mpr hle)
  rcases hrest with ⟨hshort, rfl⟩ | ⟨heq, rfl⟩
  · refine .shrink pre g post split first (by rw [hrg]) (by rw [hrg, hsum]) ?_ (by rw [hrg])
    rw [BitVec.lt_def, hsum] at hshort
    rw [VmRg.len]
    omega
  · refine .unlink pre g post split first (by rw [hrg, heq]) ?_ rfl
    rw [VmRg.len, ← heq, hsum]
    omega

theorem getFreeVmrgArea_serves {mm : Mm} {vmaid : Int} {vma : VmArea}
    (hv : mm.getVmaByNum vmaid = some vma)
    (hfree : FreeRegions vma.vmFreergList) (hn : n < 2 ^ 31) : Serves mm vmaid vma n := by
  have hfit : ∀ g ∈ vma.vmFreergList, (g.Fits (BitVec.ofNat 64 n) ↔ n ≤ g.len) :=
    fun g hg => fits_iff_len (hfree.le g hg) (hfree.lt g hg) hn
  have hsize : BitVec.ofInt 64 (n : Int) = BitVec.ofNat 64 n := BitVec.ofInt_natCast 64 n
  cases hres : firstFit (BitVec.ofNat 64 n) vma.vmFreergList with
  | none =>
      have hget : getFreeVmrgArea mm vmaid n = (mm, none) := by
        simp only [getFreeVmrgArea, hv, hsize, hres]
      have hshort : ¬ ∃ g ∈ vma.vmFreergList, n ≤ g.len := by
        rintro ⟨g, hg, hle⟩
        exact firstFit_none.mp hres g hg ((hfit g hg).mpr hle)
      refine ⟨?_, ?_, ?_⟩
      · rw [hget]
        exact ⟨fun h => Bool.noConfusion h, fun h => absurd h hshort⟩
      · intro rg h
        rw [hget] at h
        cases h
      · intro _
        rw [hget]
  | some res =>
      obtain ⟨rg, rgs'⟩ := res
      have hspec := firstFit_spec hfree hn hres
      obtain ⟨pre, g, post, split, _, hg, hrg, _⟩ := firstFit_cases hres
      have hin : g ∈ vma.vmFreergList := split ▸ List.mem_append_right _ List.mem_cons_self
      have hne : rg.rgStart ≠ -1 := by
        intro hstart
        have hle := hfree.le g hin
        have hlt := hfree.lt g hin
        rw [hrg] at hstart
        have hone : g.rgStart.toNat = 2 ^ 64 - 1 := by
          rw [show g.rgStart = -1 from hstart]
          rfl
        omega
      have hget : getFreeVmrgArea mm vmaid n =
          (mm.setVma vmaid { vma with vmFreergList := rgs' }, some rg) := by
        simp only [getFreeVmrgArea, hv, hsize, hres, if_neg hne]
      refine ⟨?_, ?_, ?_⟩
      · rw [hget]
        exact ⟨fun _ => ⟨g, hin, (hfit g hin).mp hg⟩, fun _ => rfl⟩
      · intro rg₁ h
        rw [hget] at h ⊢
        obtain rfl : rg = rg₁ := Option.some.inj h
        exact ⟨rgs', hspec, rfl, hspec.bytes hfree⟩
      · intro h
        rw [hget] at h
        cases h

end Search

/-! ## Allocation from a free region -/

/-- The heap of the process has not grown: its break and its pages, the frame lists and the bytes
of both devices are as they were. -/
structure NotGrown (k : Krnl) (mm : Mm) (k' : Krnl) (mm' : Mm) : Prop where
  sbrk : mm'.sbrk = mm.sbrk
  pte : ∀ pgn, mm'.pte pgn = mm.pte pgn
  fifo : mm'.fifoPgn = mm.fifoPgn
  mram : k'.mram = k.mram
  swp : k'.activeMswp = k.activeMswp

/-- An ALLOC that returns leaves the heap alone whenever a free region is long enough for it. -/
def ReusesFree (k : Krnl) (p : Pid) (mm : Mm) : Prop :=
  ∀ (ins : Inst) (junk : Byte) (k' : Krnl) (st : Int), ins.opcode = .alloc →
    ins.arg0.toNat < 2 ^ 31 → (∃ g ∈ mm.freerg, ins.arg0.toNat ≤ g.len) →
    exec k p ins junk = .ok (k', st) →
    st = 0 ∧ ∃ mm', k'.ownMm p = some mm' ∧ NotGrown k mm k' mm'

/-- Right after a FREE of a region that is not empty, every ALLOC the region is long enough for
returns 0 and leaves the heap alone. -/
def ReusesFreed (k : Krnl) (p : Pid) (mm : Mm) : Prop :=
  ∀ (ins : Inst) (junk : Byte) (k₁ : Krnl) (rg : VmRg), ins.opcode = .free →
    exec k p ins junk = .ok (k₁, 0) → mm.symrgtbl ins.freeId = rg →
    rg.rgStart < rg.rgEnd → ∃ mm₁, k₁.ownMm p = some mm₁ ∧
    ∀ (ins' : Inst) (junk' : Byte), ins'.opcode = .alloc → ins'.arg0.toNat ≤ rg.len →
      ins'.arg0.toNat < 2 ^ 31 → 0 ≤ (ins'.arg1.setWidth 32).toInt →
      (ins'.arg1.setWidth 32).toInt < pagingMaxSymtblSz →
      ∃ k₂ mm₂, exec k₁ p ins' junk' = .ok (k₂, 0) ∧ k₂.ownMm p = some mm₂ ∧
        NotGrown k₁ mm₁ k₂ mm₂

section Alloc
variable {k k' : Krnl} {p : Pid} {mm : Mm} {ins : Inst} {junk : Byte} {st : Int}

/-- A region that is long enough is found, or another one is. -/
theorem found_of_len (hs : mm.Single) (hp : ∀ g ∈ mm.freerg, g.Proper)
    {size : Addr} (hsz : size.toNat < 2 ^ 31) {g : VmRg} (hg : g ∈ mm.freerg)
    (hlen : size.toNat ≤ g.len) : ∃ rg, mm.found size = some rg := by
  cases hf : mm.found size with
  | some rg => exact ⟨rg, rfl⟩
  | none =>
      have hnone := (Mm.found_none hs (fun g hg => (hp g hg).ne_neg_one) hf).1
      rw [viaInt_of_lt hsz] at hnone
      refine absurd (VmRg.fits_of_room ?_) (firstFit_none.mp hnone g hg)
      rw [VmRg.len] at hlen
      rcases hp g hg with hlt | ⟨hstart, hend⟩
      · rw [BitVec.lt_def] at hlt
        omega
      · rw [hstart, hend] at hlen ⊢
        omega

/-- `__alloc` with a free region to give. -/
theorem exec_alloc_found (hmm : k.ownMm p = some mm) (hs : mm.Single) (hop : ins.opcode = .alloc)
    (h0 : 0 ≤ (ins.arg1.setWidth 32).toInt) (hlt : (ins.arg1.setWidth 32).toInt < pagingMaxSymtblSz)
    {rg : VmRg} (hf : mm.found ins.arg0 = some rg) :
    exec k p ins junk = .ok (k.setMm p ((mm.searched ins.arg0).setEntry ins.allocId rg), 0) := by
  have halloc : alloc k p 0 (ins.arg1.setWidth 32 : BitVec 32).toInt ins.arg0 junk =
      .ok (k.setMm p ((mm.searched ins.arg0).setEntry ins.allocId rg), 0, some rg.rgStart) := by
    rw [alloc_found hmm hs hf, Mm.setSymrg_inBounds _ _ h0 hlt]
    rfl
  simp only [exec, hop]
  exact liballoc_of_alloc halloc

theorem notGrown_found (hs : mm.Single) (size : Addr) (i : Nat) (rg : VmRg) :
    NotGrown k mm (k.setMm p ((mm.searched size).setEntry i rg))
      ((mm.searched size).setEntry i rg) := by
  have hq := (Mm.Quiet.searched hs size).trans (.setEntry (Mm.searched_frame hs size).2.2.2.2 i rg)
  exact ⟨hq.sbrk, hq.pte, (Mm.searched_frame hs size).2.1, rfl, rfl⟩

/-- An ALLOC that some free region is long enough for leaves the heap alone. -/
theorem alloc_reuses (hmm : k.ownMm p = some mm) (hs : mm.Single)
    (hp : ∀ g ∈ mm.freerg, g.Proper) (hop : ins.opcode = .alloc) (hsz : ins.arg0.toNat < 2 ^ 31)
    (hlong : ∃ g ∈ mm.freerg, ins.arg0.toNat ≤ g.len)
    (h0 : 0 ≤ (ins.arg1.setWidth 32).toInt)
    (hlt : (ins.arg1.setWidth 32).toInt < pagingMaxSymtblSz) :
    ∃ k' mm', exec k p ins junk = .ok (k', 0) ∧ k'.ownMm p = some mm' ∧ NotGrown k mm k' mm' := by
  obtain ⟨g, hg, hlen⟩ := hlong
  obtain ⟨rg, hf⟩ := found_of_len hs hp hsz hg hlen
  exact ⟨_, _, exec_alloc_found hmm hs hop h0 hlt hf, Krnl.setMm_self _ _ _,
    notGrown_found hs ins.arg0 ins.allocId rg⟩

/-- An ALLOC that returns had an entry to record its region in. -/
theorem allocId_inBounds (hmm : k.ownMm p = some mm) (hs : mm.Single) (hop : ins.opcode = .alloc)
    (h : exec k p ins junk = .ok (k', st)) :
    0 ≤ (ins.arg1.setWidth 32).toInt ∧ (ins.arg1.setWidth 32).toInt < pagingMaxSymtblSz := by
  simp only [exec, hop] at h
  obtain ⟨_, halloc⟩ := liballoc_ok h
  obtain ⟨h0, hlt, _⟩ := alloc_cases hmm hs halloc
  exact ⟨h0, hlt⟩

/-- A successful FREE of a region that is not empty puts it at the head of the free regions. -/
theorem free_enlists (hmm : k.ownMm p = some mm) (hs : mm.Single) (hop : ins.opcode = .free)
    (h : exec k p ins junk = .ok (k', 0)) {rg : VmRg} (hrg : mm.symrgtbl ins.freeId = rg)
    (hlt : rg.rgStart < rg.rgEnd) :
    ∃ mm', k'.ownMm p = some mm' ∧ mm'.Single ∧ mm'.freerg = rg :: mm.freerg := by
  rcases exec_free_cases hmm hs hop h with ⟨hst, _⟩ | ⟨_, _, _, mm', hmm', _, hfree, _, hs'⟩
  · exact absurd hst (by decide)
  · rw [hrg, if_neg (BitVec.not_le.mpr hlt)] at hfree
    exact ⟨mm', hmm', hs', hfree⟩

theorem reusesFree (hmm : k.ownMm p = some mm) (hs : mm.Single) (hp : ∀ g ∈ mm.freerg, g.Proper) :
    ReusesFree k p mm := by
  intro ins junk k' st hop hsz hlong hexec
  obtain ⟨h0, hlt⟩ := allocId_inBounds hmm hs hop hexec
  obtain ⟨k₁, mm₁, hexec₁, hmm₁, hkept⟩ : ∃ k₁ mm₁, exec k p ins junk = .ok (k₁, 0) ∧
      k₁.ownMm p = some mm₁ ∧ NotGrown k mm k₁ mm₁ :=
    alloc_reuses hmm hs hp hop hsz hlong h0 hlt
  rw [hexec₁] at hexec
  cases hexec
  exact ⟨rfl, mm₁, hmm₁, hkept⟩

theorem reusesFreed (hmm : k.ownMm p = some mm) (hs : mm.Single)
    (hp : ∀ g ∈ mm.freerg, g.Proper) : ReusesFreed k p mm := by
  intro ins junk k₁ rg hop hexec hrg hlt
  obtain ⟨mm₁, hmm₁, hs₁, hfree₁⟩ := free_enlists hmm hs hop hexec hrg hlt
  refine ⟨mm₁, hmm₁, fun ins' junk' hop' hlen hsz h0 hid => ?_⟩
  refine alloc_reuses hmm₁ hs₁ ?_ hop' hsz ⟨rg, ?_, hlen⟩ h0 hid
  · rw [hfree₁]
    intro g hg
    rcases List.mem_cons.mp hg with rfl | hg
    · exact Or.inl hlt
    · exact hp g hg
  · rw [hfree₁]
    exact List.mem_cons_self

end Alloc

/-- First fit on every list of free regions; an ALLOC that a free region can serve grows nothing;
a region just freed serves every ALLOC it is long enough for. -/
theorem first_fit_reuse (memramsz memswpsz : Addr) (ramJunk swpJunk : Bool) (es : List Event)
    (s : Sys) (h : Lts.Reaches step (boot memramsz memswpsz ramJunk swpJunk) es s)
    (p : Pid) (mm : Mm) (hmm : s.krnl.ownMm p = some mm) :
    (∀ (own : Mm) (vmaid : Int) (vma : VmArea) (n : Nat), own.getVmaByNum vmaid = some vma →
      FreeRegions vma.vmFreergList → n < 2 ^ 31 → Serves own vmaid vma n) ∧
    ReusesFree s.krnl p mm ∧ ReusesFreed s.krnl p mm := by
  have hs := ((reach_wf h).krnl.own p mm hmm).single
  have hp := reach_proper h hmm
  refine ⟨?_, reusesFree hmm hs hp, reusesFreed hmm hs hp⟩
  intro own vmaid vma n hv hfree hn
  exact getFreeVmrgArea_serves hv hfree hn

/-- A region of 300 bytes, freed, gives 200 without a new page. -/
theorem first_fit_reuse_freed : ∃ es s mm k₁ mm₁ k₂ mm₂,
    Lts.Reaches step (boot 1024 512 true true) es s ∧ s.krnl.ownMm 0 = some mm ∧
    exec s.krnl 0 ⟨.free, 0, 0, 0, 0⟩ 0 = .ok (k₁, 0) ∧ k₁.ownMm 0 = some mm₁ ∧
    exec k₁ 0 ⟨.alloc, 200, 1, 0, 0⟩ 0 = .ok (k₂, 0) ∧ k₂.ownMm 0 = some mm₂ ∧
    NotGrown k₁ mm₁ k₂ mm₂ := by
  let es := loadOn 0 0 ++ [.run 0 ⟨.alloc, 300, 0, 0, 0⟩ 0]
  obtain ⟨s, hs⟩ := Option.isSome_iff_exists.mp
    (by decide +kernel : (Lts.exec step (boot 1024 512 true true) es).isSome)
  have hreach := Lts.reaches_of_exec hs
  have hentry : (s.krnl.ownMm 0).map (fun mm => mm.symrgtbl 0) = some ⟨0, 300⟩ :=
    Lts.exec_map (g := fun s => (s.krnl.ownMm 0).map (fun mm => mm.symrgtbl 0)) hs
      (by decide +kernel)
  have hfree : ((exec s.krnl 0 ⟨.free, 0, 0, 0, 0⟩ 0).toOption).map Prod.snd = some 0 :=
    Lts.exec_map (g := fun s => ((exec s.krnl 0 ⟨.free, 0, 0, 0, 0⟩ 0).toOption).map Prod.snd) hs
      (by decide +kernel)
  obtain ⟨mm, hmm, hrg⟩ := Option.map_eq_some_iff.mp hentry
  obtain ⟨⟨k₁, st⟩, hexec, rfl⟩ := toOption_map_some hfree
  obtain ⟨_, _, hfreed⟩ := first_fit_reuse 1024 512 true true es s hreach 0 mm hmm
  obtain ⟨mm₁, hmm₁, hserved⟩ := hfreed _ _ k₁ _ rfl hexec hrg (by decide)
  obtain ⟨k₂, mm₂, hexec₂, hmm₂, hkept⟩ :=
    hserved ⟨.alloc, 200, 1, 0, 0⟩ 0 rfl (by decide) (by decide) (by decide) (by decide)
  exact ⟨es, s, mm, k₁, mm₁, k₂, mm₂, hreach, hmm, hexec, hmm₁, hexec₂, hmm₂, hkept⟩

end SimpleOs
