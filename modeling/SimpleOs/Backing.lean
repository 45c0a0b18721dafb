/-
# `SimpleOs.Backing` — an allocated region has its pages

`exec_mapped`: no instruction unmaps a page, except the MAP request.  So the
pages of a region stay mapped wherever it goes, from a growth to an entry, to a
free region, and to the entries carved from it (`Mm.Backed`).

`__alloc` itself never fails once it has its process.  `AllocBacked` is when it
should not: the size survives its casts, and if no free region has room the
kernel is there and has the frames.
-/
import SimpleOs.Owner
import SimpleOs.RegionStep

namespace SimpleOs

/-! ## Mapped pages -/

/-- The page has a frame or a swap frame. -/
def Mapped (pte : BitVec 32) : Prop := Resident pte ∨ Swapped pte

theorem zero_not_mapped : ¬ Mapped 0 := fun h => h.elim zero_not_resident zero_not_swapped

theorem Mm.mapFrames_mapped {mm : Mm} {m : Nat} (h : Mapped (mm.pte m)) (fs : List Nat)
    (pgn : Nat) : Mapped ((mm.mapFrames pgn fs).pte m) := by
  by_cases hm : ∃ i < fs.length, PageTable.SamePage m (pgn + i)
  · exact Or.inl (Mm.mapFrames_resident fs mm pgn m (Or.inr hm))
  · rwa [Mm.mapFrames_pte_other fs mm pgn m (fun i hi hs => hm ⟨i, hi, hs⟩)]

theorem Mm.evict_mapped {mm : Mm} {m : Nat} (h : Mapped (mm.pte m)) (pgn v s : Nat)
    (pgs : List Nat) : Mapped ((mm.evict pgn v s pgs).pte m) := by
  by_cases hm : PageTable.SamePage m pgn
  · exact Or.inl (Mm.evict_pte_target mm m pgn v s pgs hm).1
  · by_cases hv : PageTable.SamePage m v
    · exact Or.inr (Mm.evict_pte_victim mm m pgn v s pgs hm hv).1
    · rwa [Mm.evict_pte_other mm m pgn v s pgs hm hv]

/-- No page of `S` is cleared. -/
def mappedGuards (S : Nat → Prop) : Guards :=
  { Guards.none with clear := fun _ addr n => ∀ m, Cleared addr n m → ¬ S m }

theorem mapped_closed (p : Pid) (S : Nat → Prop) :
    Closed (mappedGuards S) p (fun k => ∀ n, S n → Mapped (k.pte p n)) where
  quiet := by
    intro k mm mm' h _ hmm hq n hn
    rw [Krnl.pte_setMm, hq.pte, ← Krnl.pte_of hmm]
    exact h n hn
  grow := by
    intro k mm num h _ hmm _ _ _ n hn
    rw [grow_pte, Krnl.pte_setMm]
    have hold := h n hn
    rw [Krnl.pte_of hmm] at hold
    exact Mm.mapFrames_mapped hold _ _
  starve := by
    intro k mm sz h _ hmm _ n hn
    rw [starve_pte hmm]
    exact h n hn
  fault := by
    intro k mm pgn v s pgs rest h _ hmm _ _ _ _ _ n hn
    rw [fault_pte]
    have hold := h n hn
    rw [Krnl.pte_of hmm] at hold
    exact Mm.evict_mapped hold _ _ _ _
  clear := by
    intro k mm addr num h _ hmm hg n hn
    rw [Krnl.pte_setMm]
    rcases pte_vmapPgdMemset mm addr num n with ⟨hc, _⟩ | ⟨_, hsame⟩
    · exact absurd hn (hg n hc)
    · rw [hsame, ← Krnl.pte_of hmm]
      exact h n hn
  ram := fun h _ => h
  swp := fun h _ => h

/-- A MAP request clears no page below the break that has an entry. -/
def ClearsUnmapped (mm : Mm) (ins : Inst) : Prop :=
  ∀ addr n, clearRequest ins = some (addr, n) →
    ∀ m, Cleared addr n m → m * 256 < mm.sbrk.toNat → mm.pte m = 0

/-- Mapped pages below the break stay mapped. -/
theorem exec_mapped {k k' : Krnl} {p : Pid} {mm mm' : Mm} {ins : Inst} {junk : Byte} {st : Int}
    (hw : k.Wf) (hmm : k.ownMm p = some mm) (hclear : ClearsUnmapped mm ins)
    (h : exec k p ins junk = .ok (k', st)) (hmm' : k'.ownMm p = some mm') {n : Nat}
    (hlt : n * 256 < mm.sbrk.toNat) (hn : Mapped (mm.pte n)) : Mapped (mm'.pte n) := by
  have hallow : (mappedGuards (fun m => m * 256 < mm.sbrk.toNat ∧ Mapped (mm.pte m))).Allows k p
      ins := by
    obtain ⟨hgrow, hfault, _⟩ := Guards.none_allows k p ins
    refine ⟨hgrow, hfault, ?_⟩
    intro mm₁ addr num hmm₁ hreq m hc hm
    have hz := hclear addr num hreq m hc hm.1
    rw [hz] at hm
    exact zero_not_mapped hm.2
  have hall := (mapped_closed p _).exec
    (fun m hm => by rw [Krnl.pte_of hmm]; exact hm.2) hw hmm hallow h n ⟨hlt, hn⟩
  rwa [Krnl.pte_of hmm'] at hall

/-! ## Backed regions -/

/-- Every page the region touches is mapped. -/
def VmRg.Backed (rg : VmRg) (mm : Mm) : Prop := ∀ a ∈ rg.span, Mapped (mm.pte (a / 256))

theorem VmRg.Backed.sub {rg rg' : VmRg} {mm : Mm} (h : rg.Backed mm) (hsub : rg'.span ⊆ rg.span) :
    rg'.Backed mm :=
  fun a ha => h a (hsub ha)

theorem VmRg.Empty.backed {rg : VmRg} (h : rg.Empty) (mm : Mm) : rg.Backed mm := by
  intro a ha
  rw [h.span_eq] at ha
  exact absurd ha (Set.notMem_empty a)

/-- The entry is the region of `size` bytes at `a`, below the break, with its pages. -/
structure Granted (mm : Mm) (i : Nat) (a size : Addr) : Prop where
  entry : mm.symrgtbl i = { rgStart := a, rgEnd := a + size }
  len : (a + size).toNat = a.toNat + size.toNat
  below : (a + size).toNat ≤ mm.sbrk.toNat
  backed : ∀ b, a.toNat ≤ b → b < (a + size).toNat → Mapped (mm.pte (b / 256))

/-- The free regions and the entries are backed. -/
structure Mm.Backed (mm : Mm) : Prop where
  node : ∀ g ∈ mm.freerg, g.Backed mm
  entry : ∀ i < pagingMaxSymtblSz, (mm.symrgtbl i).Backed mm

/-- The size of an ALLOC survives its casts, and if the area has to grow the kernel finds the
caller and the frames. -/
def AllocBacked (k : Krnl) (p : Pid) (mm : Mm) (size : Addr) : Prop :=
  if (mm.found size).isSome then size.toNat < 2 ^ 31
  else (size = 0 ∧ mm.sbrk.toNat < 2 ^ 31) ∨
    (0 < size.toNat ∧ p ∈ k.sched.runningList.toList ∧ size.toNat < 2 ^ 32 ∧
      pagesFor size.toNat ≤ k.mram.freeFpList.fpns.length)

section Alloc
variable {k : Krnl} {p : Pid} {mm : Mm} {rgid : Int} {size : Addr} {junk : Byte}

/-- While frames are left the break is small. -/
theorem sbrk_lt_of_frames (hw : k.Wf) (hmm : k.ownMm p = some mm) (hpos : 0 < size.toNat)
    (hn : pagesFor size.toNat ≤ k.mram.freeFpList.fpns.length) :
    mm.sbrk.toNat % 256 = 0 ∧ mm.sbrk.toNat < 2 ^ 31 := by
  have hpages : 0 < pagesFor size.toNat := by
    simp only [pagesFor]
    omega
  obtain ⟨hmod, hle, hcap⟩ := (hw.own p mm hmm).sbrk_bound hw.ram hpages hn
  exact ⟨hmod, by omega⟩

theorem AllocBacked.safe (h : AllocBacked k p mm size) (hw : k.Wf) (hmm : k.ownMm p = some mm) :
    AllocSafe k p mm size := by
  rw [AllocBacked] at h
  rw [AllocSafe]
  split at h
  next hf =>
    rw [if_pos hf]
    exact msb_setWidth_of_lt h
  next hf =>
    rw [if_neg hf]
    rcases h with ⟨h0, _⟩ | ⟨hpos, hp, hsz, hn⟩
    · exact Or.inl h0
    · exact Or.inr ⟨hp, hsz, (sbrk_lt_of_frames hw hmm hpos hn).2⟩

/-- A region carved from a backed one. -/
theorem alloc_found_granted (ht : mm.Tidy) (hb : mm.Backed) (hw : k.Wf)
    (hmm : k.ownMm p = some mm) (hsz : size.toNat < 2 ^ 31) {rg : VmRg}
    (hf : mm.found size = some rg) (h0 : 0 ≤ rgid) (hlt : rgid < pagingMaxSymtblSz) :
    ∃ k' a mm', alloc k p 0 rgid size junk = .ok (k', 0, some a) ∧ k'.ownMm p = some mm' ∧
      Granted mm' rgid.toNat a size := by
  have hs := (hw.own p mm hmm).single
  obtain ⟨hpgd, _, _, hsbrk, _⟩ := Mm.searched_frame hs size
  obtain ⟨pre, g, post, hfree, hstart, hend, hle, _⟩ :=
    ht.found hs (msb_setWidth_of_lt hsz) hf
  have hg : g ∈ mm.freerg := by
    rw [hfree]
    exact List.mem_append_right _ List.mem_cons_self
  have hgin := ht.node g hg
  have hsum : (rg.rgStart + size).toNat = rg.rgStart.toNat + size.toNat := by
    rw [BitVec.toNat_add]
    omega
  have hend' : rg.rgEnd = rg.rgStart + size := by
    apply BitVec.eq_of_toNat_eq
    rw [hsum, hend]
    omega
  have hbelow := hgin.brk
  refine ⟨_, rg.rgStart, _, ?_, Krnl.setMm_self k p ((mm.searched size).setEntry rgid.toNat rg), ?_⟩
  · rw [alloc_found hmm hs hf, Mm.setSymrg_inBounds _ _ h0 hlt]
    rfl
  · refine ⟨?_, hsum, ?_, ?_⟩
    · rw [Mm.setEntry_symrgtbl, Function.update_self, ← hend']
    · rw [sbrk_congr (Mm.setEntry_mmap _ _ _), hsbrk, ← hend']
      omega
    · intro b hb₁ hb₂
      rw [Mm.pte, Mm.setEntry_pgd, hpgd]
      rw [← hend'] at hb₂
      rw [hstart] at hb₁
      exact hb.node g hg b ⟨hb₁, hb₂.trans_le hle⟩

/-- A region at the break, whose pages the kernel maps. -/
theorem alloc_grow_granted (hw : k.Wf) (hmm : k.ownMm p = some mm)
    (hpos : 0 < size.toNat) (hp : p ∈ k.sched.runningList.toList) (hsz : size.toNat < 2 ^ 32)
    (hn : pagesFor size.toNat ≤ k.mram.freeFpList.fpns.length) (hf : mm.found size = none)
    (h0 : 0 ≤ rgid) (hlt : rgid < pagingMaxSymtblSz) :
    ∃ k' a mm', alloc k p 0 rgid size junk = .ok (k', 0, some a) ∧ k'.ownMm p = some mm' ∧
      Granted mm' rgid.toNat a size := by
  have hs := (hw.own p mm hmm).single
  have hvia : viaU32 size = size := viaU32_of_lt hsz
  obtain ⟨hmod, hbrk⟩ := sbrk_lt_of_frames hw hmm hpos hn
  have hfits : SizeFits size := sizeFits_of_lt (by omega)
  obtain ⟨⟨k', st, addr⟩, halloc⟩ := alloc_defined size junk hmm hs h0 hlt (fun _ => hfits)
    hw.free_lt (Or.inl (hvia.symm ▸ hn))
  obtain ⟨_, _, rfl, ⟨_, hsome, _⟩ | ⟨_, rfl, k₂, mm₂, hgrown, hmm₂, rfl⟩⟩ :=
    alloc_cases hmm hs halloc
  · exact nomatch hf.symm.trans hsome
  refine ⟨_, _, _, halloc, Krnl.setMm_self _ _ _, ?_⟩
  obtain ⟨_, _, _, hsbrk, _⟩ := Mm.searched_frame hs size
  have hsum : (mm.sbrk + size).toNat = mm.sbrk.toNat + size.toNat := by
    rw [BitVec.toNat_add]
    omega
  rw [hvia] at hgrown
  cases hgrown with
  | lost hno => exact absurd hp hno
  | refused _ hge =>
      rw [hsbrk] at hge
      have hle := BitVec.le_def.mp hge
      omega
  | starve _ _ hfew _ =>
      have hfew' : k.mram.freeFpList.fpns.length < pagesFor size.toNat := hfew
      omega
  | grow _ _ _ =>
      obtain rfl := Option.some.inj ((Krnl.setMm_self _ _ _).symm.trans hmm₂)
      rw [viaInt_of_lt hbrk]
      refine ⟨?_, hsum, ?_, ?_⟩
      · rw [Mm.setEntry_symrgtbl, Function.update_self]
      · rw [sbrk_congr (Mm.setEntry_mmap _ _ _), Mm.withVma_sbrk, hsbrk, hsum, BitVec.toNat_add,
          BitVec.toNat_ofNat]
        simp only [pagesFor]
        omega
      · intro b hb₁ hb₂
        refine Or.inl (Mm.mapFrames_resident (k.mram.freeFpList.fpns.take (pagesFor size.toNat)) _
          ((mm.searched size).sbrk.toNat / 256) (b / 256)
          (Or.inr ⟨b / 256 - mm.sbrk.toNat / 256, ?_, ?_⟩))
        · rw [List.length_take_of_le hn]
          simp only [pagesFor]
          omega
        · have hpage : (mm.searched size).sbrk.toNat / 256 + (b / 256 - mm.sbrk.toNat / 256) =
              b / 256 := by
            rw [hsbrk]
            omega
          rw [hpage]
          exact PageTable.SamePage.refl _

/-- Of an ALLOC of no bytes nothing is asked. -/
theorem alloc_zero_granted (hw : k.Wf) (hmm : k.ownMm p = some mm) (hbrk : mm.sbrk.toNat < 2 ^ 31)
    (hf : mm.found 0 = none) (h0 : 0 ≤ rgid) (hlt : rgid < pagingMaxSymtblSz) :
    ∃ k' a mm', alloc k p 0 rgid 0 junk = .ok (k', 0, some a) ∧ k'.ownMm p = some mm' ∧
      Granted mm' rgid.toNat a 0 := by
  have hs := (hw.own p mm hmm).single
  obtain ⟨⟨k', st, addr⟩, halloc⟩ := alloc_defined 0 junk hmm hs h0 hlt
    (fun _ => sizeFits_of_lt (by decide)) hw.free_lt (Or.inl (Nat.zero_le _))
  obtain ⟨_, _, rfl, ⟨_, hsome, _⟩ | ⟨_, rfl, k₂, mm₂, hgrown, hmm₂, rfl⟩⟩ :=
    alloc_cases hmm hs halloc
  · exact nomatch hf.symm.trans hsome
  obtain ⟨_, _, _, hsbrk, hs₁⟩ := Mm.searched_frame hs 0
  obtain ⟨mm₃, hmm₃, _, _, _, hbrk₃⟩ := hgrown.own (Krnl.setMm_self _ _ _) hs₁
  obtain rfl : mm₂ = mm₃ := Option.some.inj (hmm₂.symm.trans hmm₃)
  refine ⟨_, _, _, halloc, Krnl.setMm_self _ _ _, ?_⟩
  have hadd : mm.sbrk + 0 = mm.sbrk := BitVec.add_zero _
  have hstay : mm₂.sbrk = mm.sbrk := by
    rw [hbrk₃, hsbrk, Krnl.grownBrk, if_neg]
    exact fun hgo => BitVec.lt_irrefl _ (hadd ▸ hgo.2)
  rw [viaInt_of_lt hbrk]
  refine ⟨?_, by rw [hadd]; rfl, ?_, ?_⟩
  · rw [Mm.setEntry_symrgtbl, Function.update_self]
  · rw [sbrk_congr (Mm.setEntry_mmap _ _ _), hstay, hadd]
  · intro b hb₁ hb₂
    rw [hadd] at hb₂
    omega

/-- A backed ALLOC returns 0 with its region. -/
theorem alloc_granted (junk : Byte) (ht : mm.Tidy) (hb : mm.Backed) (hw : k.Wf)
    (hmm : k.ownMm p = some mm) (hok : AllocBacked k p mm size) (h0 : 0 ≤ rgid)
    (hlt : rgid < pagingMaxSymtblSz) :
    ∃ k' a mm', alloc k p 0 rgid size junk = .ok (k', 0, some a) ∧ k'.ownMm p = some mm' ∧
      Granted mm' rgid.toNat a size := by
  rw [AllocBacked] at hok
  cases hf : mm.found size with
  | some rg =>
      rw [hf] at hok
      exact alloc_found_granted ht hb hw hmm hok hf h0 hlt
  | none =>
      rw [hf] at hok
      rcases hok with ⟨rfl, hbrk⟩ | ⟨hpos, hp, hsz, hn⟩
      · exact alloc_zero_granted hw hmm hbrk hf h0 hlt
      · exact alloc_grow_granted hw hmm hpos hp hsz hn hf h0 hlt

end Alloc

/-! ## Backing is kept -/

/-- ALLOCs are backed, and MAP requests clear no page that has an entry. -/
def Backs (k : Krnl) (p : Pid) (mm : Mm) (ins : Inst) : Prop :=
  (ins.opcode = .alloc → AllocBacked k p mm ins.arg0) ∧ ClearsUnmapped mm ins

section Step
variable {k k' : Krnl} {p : Pid} {mm mm' : Mm} {ins : Inst} {junk : Byte} {st : Int}

theorem Granted.region {i : Nat} {a size : Addr} (h : Granted mm i a size) :
    (mm.symrgtbl i).Backed mm := by
  rw [h.entry]
  exact fun b hb => h.backed b hb.1 hb.2

/-- An ALLOC leaves its entry backed. -/
theorem exec_alloc_entry (ht : mm.Tidy) (hb : mm.Backed) (hw : k.Wf) (hmm : k.ownMm p = some mm)
    (hop : ins.opcode = .alloc) (hok : AllocBacked k p mm ins.arg0)
    (h : exec k p ins junk = .ok (k', st)) (hmm' : k'.ownMm p = some mm') :
    (mm'.symrgtbl ins.allocId).Backed mm' := by
  simp only [exec, hop] at h
  obtain ⟨addr, halloc⟩ := liballoc_ok h
  obtain ⟨h0, hlt, _⟩ := alloc_cases hmm (hw.own p mm hmm).single halloc
  obtain ⟨k₁, a, mm₁, halloc₁, hmm₁, hgrant⟩ :=
    alloc_granted junk ht hb hw hmm hok h0 hlt
  cases halloc.symm.trans halloc₁
  obtain rfl : mm₁ = mm' := Option.some.inj (hmm₁.symm.trans hmm')
  exact hgrant.region

/-- Regions below the old break keep their pages; what is new is said by the hypotheses. -/
theorem Mm.Backed.keep (h : mm.Backed) (ht : mm.Tidy)
    (hpage : ∀ n, n * 256 < mm.sbrk.toNat → Mapped (mm.pte n) → Mapped (mm'.pte n))
    (hentry : ∀ i < pagingMaxSymtblSz, (mm'.symrgtbl i).Backed mm' ∨
      mm'.symrgtbl i = mm.symrgtbl i)
    (hnode : ∀ g ∈ mm'.freerg, (∃ g' ∈ mm.freerg, g.span ⊆ g'.span) ∨
      ∃ i < pagingMaxSymtblSz, g = mm.symrgtbl i) : mm'.Backed := by
  have hold : ∀ rg : VmRg, rg.span ⊆ Set.Ico 0 mm.sbrk.toNat → rg.Backed mm → rg.Backed mm' := by
    intro rg hsub hrg a ha
    have hlt : a < mm.sbrk.toNat := (hsub ha).2
    exact hpage (a / 256) (by omega) (hrg a ha)
  constructor
  · intro g hg
    rcases hnode g hg with ⟨g', hg', hsub⟩ | ⟨i, hi, rfl⟩
    · exact (hold g' (ht.node g' hg').span_sub (h.node g' hg')).sub hsub
    · exact hold _ (ht.entry_sub hi) (h.entry i hi)
  · intro i hi
    rcases hentry i hi with hnew | heq
    · exact hnew
    · rw [heq]
      exact hold _ (ht.entry_sub hi) (h.entry i hi)

/-- The regions of a process stay backed. -/
theorem Mm.Backed.step (h : mm.Backed) (ht : mm.Tidy) (hw : k.Wf) (hmm : k.ownMm p = some mm)
    (hok : Backs k p mm ins) (hexec : exec k p ins junk = .ok (k', st))
    (hmm' : k'.ownMm p = some mm') (hstep : RegionStep k p mm ins mm') : mm'.Backed := by
  have hs := (hw.own p mm hmm).single
  have hpage : ∀ n, n * 256 < mm.sbrk.toNat → Mapped (mm.pte n) → Mapped (mm'.pte n) :=
    fun n hlt hn => exec_mapped hw hmm hok.2 hexec hmm' hlt hn
  -- entries other than the one assigned are the old ones
  have hassign : ∀ {n rg}, mm'.symrgtbl = Function.update mm.symrgtbl n rg →
      (mm'.symrgtbl n).Backed mm' → ∀ i < pagingMaxSymtblSz,
      (mm'.symrgtbl i).Backed mm' ∨ mm'.symrgtbl i = mm.symrgtbl i := by
    intro n rg hsym hnew i _
    by_cases hi : i = n
    · exact Or.inl (hi ▸ hnew)
    · rw [hsym, Function.update_of_ne hi]
      exact Or.inr rfl
  cases hstep with
  | kept sym free brk =>
      exact h.keep ht hpage (fun i _ => Or.inr (by rw [sym]))
        (fun g hg => Or.inl ⟨g, free ▸ hg, subset_rfl⟩)
  | carved rg op id found sym free brk =>
      refine h.keep ht hpage
        (hassign sym (exec_alloc_entry ht h hw hmm op (hok.1 op) hexec hmm')) ?_
      obtain ⟨pre, g, post, hfree, hstart, hend, hle, hrest⟩ :=
        ht.found hs (((hok.1 op).safe hw hmm).found_msb found) found
      rw [free, hfree]
      intro q hq
      left
      rcases hrest with hrest | ⟨_, hrest⟩
      · rw [hrest] at hq
        rcases List.mem_append.mp hq with hq | hq
        · exact ⟨q, List.mem_append_left _ hq, subset_rfl⟩
        · rcases List.mem_cons.mp hq with rfl | hq
          · refine ⟨g, List.mem_append_right _ List.mem_cons_self, ?_⟩
            rw [hstart] at hend
            exact Set.Ico_subset_Ico_left (hend ▸ Nat.le_add_right _ _)
          · exact ⟨q, List.mem_append_right _ (List.mem_cons_of_mem _ hq), subset_rfl⟩
      · rw [hrest] at hq
        rcases List.mem_append.mp hq with hq | hq
        · exact ⟨q, List.mem_append_left _ hq, subset_rfl⟩
        · exact ⟨q, List.mem_append_right _ (List.mem_cons_of_mem _ hq), subset_rfl⟩
  | extended op id found sym free brk =>
      refine h.keep ht hpage
        (hassign sym (exec_alloc_entry ht h hw hmm op (hok.1 op) hexec hmm')) ?_
      rw [free, ht.notFound hs found]
      exact fun g hg => Or.inl ⟨g, hg, subset_rfl⟩
  | released i id sym free brk =>
      have hnew : (mm'.symrgtbl i).Backed mm' := by
        rw [sym, Function.update_self]
        exact VmRg.zero_empty.backed mm'
      refine h.keep ht hpage (hassign sym hnew) ?_
      rw [free]
      intro g hg
      split at hg
      next => exact Or.inl ⟨g, hg, subset_rfl⟩
      next =>
        rcases List.mem_cons.mp hg with rfl | hg
        · exact Or.inr ⟨i, id, rfl⟩
        · exact Or.inl ⟨g, hg, subset_rfl⟩
  | moved sz op req sym free brk =>
      exact h.keep ht hpage (fun i _ => Or.inr (by rw [sym]))
        (fun g hg => Or.inl ⟨g, free ▸ hg, subset_rfl⟩)

theorem initMm_backed {symrgtbl : Nat → VmRg}
    (h : ∀ i < pagingMaxSymtblSz, (symrgtbl i).Empty) : (initMm symrgtbl).Backed where
  node := by
    intro g hg
    rw [initMm_freerg, List.mem_singleton] at hg
    rw [hg]
    exact VmRg.zero_empty.backed _
  entry := fun i hi => (h i hi).backed _

end Step

/-! ## Runs -/

/-- After a run whose steps back their regions, a backed ALLOC into an entry of the table succeeds
with a region below the break whose pages are all mapped. -/
theorem alloc_succeeds {memramsz memswpsz : Addr} {ramJunk swpJunk : Bool} {es : List Event}
    {s : Sys} {p : Pid} {mm : Mm} (rgid : Int) (size : Addr) (junk : Byte)
    (h : Lts.Run step (RunOk Backs) (boot memramsz memswpsz ramJunk swpJunk) es s)
    (hmm : s.krnl.ownMm p = some mm) (h0 : 0 ≤ rgid) (hlt : rgid < pagingMaxSymtblSz)
    (hok : AllocBacked s.krnl p mm size) :
    ∃ k' a mm', alloc s.krnl p 0 rgid size junk = .ok (k', 0, some a) ∧
      k'.ownMm p = some mm' ∧ Granted mm' rgid.toNat a size := by
  have hboth := reach_own (P := fun mm => mm.Tidy ∧ mm.Backed)
    (fun _ hz => ⟨initMm_tidy hz, initMm_backed hz⟩) ?_ h p mm hmm
  · exact alloc_granted junk hboth.1 hboth.2 (reach_wf h).krnl hmm hok h0 hlt
  intro k k' p mm mm' ins junk st hw hmm hP hacc hexec hmm'
  obtain ⟨mm'', hmm'', hstep⟩ := exec_regions hw hmm hexec
  obtain rfl : mm'' = mm' := Option.some.inj (hmm''.symm.trans hmm')
  exact ⟨hP.1.step hw hmm (fun hop => (hacc.1 hop).safe hw hmm) hstep,
    hP.2.step hP.1 hw hmm hacc hexec hmm' hstep⟩

/-- One page allocated into entry 0 of a new process. -/
theorem alloc_succeeds_first : ∃ s k' a mm',
    Lts.Reaches step (boot 512 512 true true) (loadOn 0 1) s ∧
    alloc s.krnl 1 0 0 256 0 = .ok (k', 0, some a) ∧ k'.ownMm 1 = some mm' ∧
    Granted mm' 0 a 256 := by
  obtain ⟨s, hs⟩ := Option.isSome_iff_exists.mp
    (by decide +kernel : (Lts.exec step (boot 512 512 true true) (loadOn 0 1)).isSome)
  have hrun : Lts.Run step (RunOk Backs) _ _ s :=
    (Lts.reaches_of_exec hs).of_reaches loadOn_runOk
  have hok : AllocBacked s.krnl 1 (initMm fun _ => ⟨0, 0⟩) 256 := by
    refine Or.inr ⟨by decide, ?_, by decide, ?_⟩
    · rw [Lts.exec_map (g := fun s => s.krnl.sched.runningList.toList) (a := [1]) hs rfl]
      exact List.mem_singleton.mpr rfl
    · rw [Lts.exec_map (g := fun s => s.krnl.mram.freeFpList.fpns) (a := [0, 1]) hs rfl]
      decide
  obtain ⟨k', a, mm', halloc, hmm', hgrant⟩ := alloc_succeeds 0 256 0 hrun
    (Lts.exec_map (g := fun s => s.krnl.ownMm 1) hs rfl) (by decide) (by decide) hok
  exact ⟨s, k', a, mm', hrun.reaches, halloc, hmm', hgrant⟩

/-- Three pages requested from a RAM of two frames: `__alloc` returns 0, and page 0 of the region
has neither a frame nor a swap frame. -/
theorem alloc_unmapped : ∃ s k' mm',
    Lts.Reaches step (boot 512 512 true true) (loadOn 0 1) s ∧
    alloc s.krnl 1 0 0 768 0 = .ok (k', 0, some 0) ∧ k'.ownMm 1 = some mm' ∧
    mm'.symrgtbl 0 = ⟨0, 768⟩ ∧ ¬ Mapped (mm'.pte 0) := by
  obtain ⟨s, hs⟩ := Option.isSome_iff_exists.mp
    (by decide +kernel : (Lts.exec step (boot 512 512 true true) (loadOn 0 1)).isSome)
  have hres : (alloc s.krnl 1 0 0 768 0).toOption.bind (fun r => (r.1.ownMm 1).map
      (fun mm => (r.2.1, r.2.2, mm.symrgtbl 0, mm.pte 0))) = some (0, some 0, ⟨0, 768⟩, 0) :=
    Lts.exec_map (g := fun s => (alloc s.krnl 1 0 0 768 0).toOption.bind
      (fun r => (r.1.ownMm 1).map (fun mm => (r.2.1, r.2.2, mm.symrgtbl 0, mm.pte 0)))) hs
      (by decide +kernel)
  obtain ⟨⟨k', st, addr⟩, halloc, hmap⟩ := Option.bind_eq_some_iff.mp hres
  obtain ⟨mm', hmm', htuple⟩ := Option.map_eq_some_iff.mp hmap
  obtain ⟨rfl, rfl, hentry, hpte⟩ : st = 0 ∧ addr = some 0 ∧ _ ∧ _ := by simpa using htuple
  refine ⟨s, k', mm', Lts.reaches_of_exec hs, ?_, hmm', hentry, ?_⟩
  · cases hex : alloc s.krnl 1 0 0 768 0 with
    | error e => rw [hex] at halloc; exact nomatch halloc
    | ok r => rw [hex] at halloc; cases halloc; rfl
  · rw [hpte]
    exact zero_not_mapped

end SimpleOs
