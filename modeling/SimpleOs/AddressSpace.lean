/-
# `SimpleOs.AddressSpace` — regions are disjoint, and every byte is in one

The entries of the symbol table and the free regions of a process, read as a
`Layout` of the addresses below the break: the entry's index is its name.

Carving, naming new space and putting on the free list are the moves of the
library.  What the code adds are its casts (`AllocSafe`), and what is lost: the
rounding of an increment to pages, which nobody puts on the free list, and the
region of an entry that an ALLOC overwrites.
-/
import Mathlib.Data.BitVec
import Mathlib.Order.Interval.Set.Disjoint
import SimpleOs.Lib.Layout
import SimpleOs.RegionStep

namespace SimpleOs

/-! ## Layouts of a process -/

/-- The addresses of each entry. -/
def Mm.entrySpan (mm : Mm) (i : Fin pagingMaxSymtblSz) : Set Nat := (mm.symrgtbl i).span

/-- The entries and the free regions are pairwise disjoint and lie below the break. -/
def Mm.Apart (mm : Mm) : Prop :=
  Layout.Disj mm.entrySpan (mm.freerg.map VmRg.span) (Set.Ico 0 mm.sbrk.toNat)

/-- The number of addresses of each entry. -/
def Mm.entryLen (mm : Mm) (i : Fin pagingMaxSymtblSz) : Nat := (mm.symrgtbl i).len

/-- The lengths of all entries and free regions, added up. -/
def Mm.total (mm : Mm) : Nat := Layout.total mm.entryLen (mm.freerg.map VmRg.len)

theorem VmRg.Empty.len_eq {rg : VmRg} (h : rg.Empty) : rg.len = 0 :=
  Nat.sub_eq_zero_of_le (BitVec.le_def.mp h)

section Assign
variable {mm mm' : Mm} {n : Nat} {rg : VmRg}

/-- One entry assigned, read through any function of entries. -/
theorem entry_assign {α : Type} (f : VmRg → α) (hn : n < pagingMaxSymtblSz)
    (hsym : mm'.symrgtbl = Function.update mm.symrgtbl n rg) :
    f (mm'.symrgtbl (⟨n, hn⟩ : Fin pagingMaxSymtblSz)) = f rg ∧
    ∀ i : Fin pagingMaxSymtblSz, i ≠ ⟨n, hn⟩ → f (mm'.symrgtbl i) = f (mm.symrgtbl i) := by
  rw [hsym]
  refine ⟨by rw [Function.update_self], fun i hi => ?_⟩
  rw [Function.update_of_ne (fun heq => hi (Fin.ext heq))]

end Assign

/-! ## Disjointness -/

section Apart
variable {k : Krnl} {p : Pid} {mm mm' : Mm} {ins : Inst}

theorem Mm.Apart.keep (h : mm.Apart) (hsym : mm'.symrgtbl = mm.symrgtbl)
    (hfree : mm'.freerg = mm.freerg) (hbrk : mm.sbrk.toNat ≤ mm'.sbrk.toNat) : mm'.Apart := by
  have hspan : mm'.entrySpan = mm.entrySpan := by
    funext i
    rw [Mm.entrySpan, Mm.entrySpan, hsym]
  rw [Mm.Apart, hspan, hfree]
  exact h.mono_space (Set.Ico_subset_Ico_right hbrk)

/-- Regions stay apart as long as sizes survive their casts. -/
theorem Mm.Apart.step (h : mm.Apart) (ht : mm.Tidy) (hw : k.Wf) (hmm : k.ownMm p = some mm)
    (hsafe : ins.opcode = .alloc → AllocSafe k p mm ins.arg0)
    (hstep : RegionStep k p mm ins mm') : mm'.Apart := by
  have hs := (hw.own p mm hmm).single
  cases hstep with
  | kept sym free brk => exact h.keep sym free (by rw [brk])
  | carved rg op id found sym free brk =>
      obtain ⟨hr, ho⟩ := entry_assign VmRg.span id sym
      obtain ⟨pre, g, post, hfree, hstart, hend, hle, hrest⟩ :=
        ht.found hs ((hsafe op).found_msb found) found
      rw [Mm.Apart, hfree, List.map_append, List.map_cons] at h
      have hp : rg.span ⊆ g.span := by
        rw [VmRg.span, VmRg.span, hstart]
        exact Set.Ico_subset_Ico_right hle
      rw [Mm.Apart, free, brk]
      rcases hrest with hrest | ⟨_, hrest⟩
      · rw [hrest, List.map_append, List.map_cons]
        refine h.carve hr ho hp ?_ Set.Ico_disjoint_Ico_same
        have hin : g.rgStart.toNat ≤ rg.rgEnd.toNat := by
          rw [← hstart]
          omega
        exact Set.Ico_subset_Ico_left hin
      · rw [hrest, List.map_append]
        exact (h.carve hr ho hp (Set.empty_subset _) (Set.disjoint_empty _)).unlink
  | extended op id found sym free brk =>
      obtain ⟨hr, ho⟩ := entry_assign VmRg.span id sym
      have hle := sbrk_le_grownBrk (viaU32 ins.arg0) hw hmm
      rw [Mm.Apart, free, ht.notFound hs found, brk]
      rcases (hsafe op).extended found with ⟨h0, _⟩ | ⟨_, hint, hsum, _, hby⟩
      · refine (h.mono_space (Set.Ico_subset_Ico_right hle)).forget (hr.trans ?_) ho
        rw [h0]
        exact VmRg.Empty.span_eq (BitVec.le_of_eq (BitVec.add_zero _))
      · refine h.grow hr ho (Set.Ico_subset_Ico_right hle) ?_ ?_
        · rw [VmRg.span, hint, hsum, toNat_grownBrk hw hmm]
          exact Set.Ico_subset_Ico (Nat.zero_le _) (Nat.add_le_add_left (le_grownBy hby) _)
        · rw [VmRg.span, hint]
          exact Set.Ico_disjoint_Ico_same.symm
  | released i id sym free brk =>
      obtain ⟨hr, ho⟩ := entry_assign VmRg.span id sym
      have hr' := hr.trans (VmRg.Empty.span_eq (BitVec.le_refl 0))
      rw [Mm.Apart, free, brk]
      split
      next => exact h.forget hr' ho
      next => exact h.release hr' ho
  | moved sz op req sym free brk =>
      exact h.keep sym free (by rw [brk]; exact sbrk_le_grownBrk sz hw hmm)

theorem initMm_apart {symrgtbl : Nat → VmRg}
    (h : ∀ i < pagingMaxSymtblSz, (symrgtbl i).Empty) : (initMm symrgtbl).Apart where
  entries := fun i j _ => by
    rw [Mm.entrySpan, initMm_symrgtbl, (h i i.isLt).span_eq]
    exact Set.empty_disjoint _
  cross := fun i g _ => by
    rw [Mm.entrySpan, initMm_symrgtbl, (h i i.isLt).span_eq]
    exact Set.empty_disjoint _
  nodes := by simp
  entry_sub := fun i => by
    rw [Mm.entrySpan, initMm_symrgtbl, (h i i.isLt).span_eq]
    exact Set.empty_subset _
  node_sub := fun g hg => by
    rw [initMm_freerg, List.map_singleton, List.mem_singleton] at hg
    rw [hg, initMm_sbrk]
    exact subset_rfl

end Apart

/-- The sizes of ALLOCs survive their casts. -/
def SafeSize (k : Krnl) (p : Pid) (mm : Mm) (ins : Inst) : Prop :=
  ins.opcode = .alloc → AllocSafe k p mm ins.arg0

instance (k : Krnl) (p : Pid) (mm : Mm) (ins : Inst) : Decidable (SafeSize k p mm ins) :=
  inferInstanceAs (Decidable (_ → _))

/-- Regions never overlap in a run whose ALLOCs are safe. -/
theorem regions_apart {memramsz memswpsz : Addr} {ramJunk swpJunk : Bool} {es : List Event}
    {s : Sys} (h : Lts.Run step (RunOk SafeSize) (boot memramsz memswpsz ramJunk swpJunk) es s) :
    ∀ p mm, s.krnl.ownMm p = some mm → mm.Apart := by
  intro p mm hmm
  have hboth := reach_own (P := fun mm => mm.Tidy ∧ mm.Apart)
    (fun _ hz => ⟨initMm_tidy hz, initMm_apart hz⟩) ?_ h p mm hmm
  · exact hboth.2
  intro k k' p mm mm' ins junk st hw hmm hP hsafe hexec hmm'
  obtain ⟨mm'', hmm'', hstep⟩ := exec_regions hw hmm hexec
  obtain rfl : mm'' = mm' := Option.some.inj (hmm''.symm.trans hmm')
  exact ⟨hP.1.step hw hmm hsafe hstep, hP.2.step hP.1 hw hmm hsafe hstep⟩

/-- Process 1 fills its RAM with three regions, frees the second, and gets 100 bytes of it again. -/
def threeRegions : List Event :=
  loadOn 0 1 ++ [.run 0 ⟨.alloc, 256, 0, 0, 0⟩ 0, .restore 0, .run 0 ⟨.alloc, 256, 1, 0, 0⟩ 0,
    .restore 0, .run 0 ⟨.alloc, 512, 2, 0, 0⟩ 0, .restore 0, .run 0 ⟨.free, 1, 0, 0, 0⟩ 0,
    .restore 0, .run 0 ⟨.alloc, 100, 3, 0, 0⟩ 0]

theorem regions_apart_three : ∃ s mm,
    Lts.Reaches step (boot 1024 1024 true true) threeRegions s ∧ s.krnl.ownMm 1 = some mm ∧
    (mm.symrgtbl 0 = ⟨0, 256⟩ ∧ mm.symrgtbl 2 = ⟨512, 1024⟩ ∧ mm.symrgtbl 3 = ⟨256, 356⟩) ∧
    ⟨356, 512⟩ ∈ mm.freerg ∧ mm.Apart := by
  obtain ⟨s, hs⟩ := Option.isSome_iff_exists.mp
    (by decide +kernel :
      (Lts.check step (RunOk SafeSize) (boot 1024 1024 true true) threeRegions).isSome)
  have hrun := Lts.run_of_check hs
  have hread : (s.krnl.ownMm 1).map (fun mm => decide ((mm.symrgtbl 0 = ⟨0, 256⟩ ∧
      mm.symrgtbl 2 = ⟨512, 1024⟩ ∧ mm.symrgtbl 3 = ⟨256, 356⟩) ∧ ⟨356, 512⟩ ∈ mm.freerg)) =
      some true :=
    Lts.check_map (g := fun s => (s.krnl.ownMm 1).map (fun mm => decide ((mm.symrgtbl 0 = ⟨0, 256⟩ ∧
      mm.symrgtbl 2 = ⟨512, 1024⟩ ∧ mm.symrgtbl 3 = ⟨256, 356⟩) ∧ ⟨356, 512⟩ ∈ mm.freerg))) hs
      (by decide +kernel)
  obtain ⟨mm, hmm, hentries⟩ := Option.map_eq_some_iff.mp hread
  obtain ⟨hsym, hfree⟩ := of_decide_eq_true hentries
  exact ⟨s, mm, hrun.reaches, hmm, hsym, hfree, regions_apart hrun 1 mm hmm⟩

/-- 2^32 + 1 bytes requested: the kernel hears 1 and grows by a page, the entry has the full
size. -/
theorem long_region_beyond_break : ∃ s mm,
    Lts.Reaches step (boot 512 512 true true)
      (loadOn 0 1 ++ [.run 0 ⟨.alloc, 2 ^ 32 + 1, 0, 0, 0⟩ 0]) s ∧
    s.krnl.ownMm 1 = some mm ∧ ¬ mm.Apart := by
  obtain ⟨s, hs⟩ := Option.isSome_iff_exists.mp
    (by decide +kernel : (Lts.exec step (boot 512 512 true true)
      (loadOn 0 1 ++ [.run 0 ⟨.alloc, 2 ^ 32 + 1, 0, 0, 0⟩ 0])).isSome)
  have hread : (s.krnl.ownMm 1).map (fun mm => (mm.symrgtbl 0, mm.sbrk)) =
      some (⟨0, 2 ^ 32 + 1⟩, 256) :=
    Lts.exec_map (g := fun s => (s.krnl.ownMm 1).map (fun mm => (mm.symrgtbl 0, mm.sbrk))) hs
      (by decide +kernel)
  obtain ⟨mm, hmm, hpair⟩ := Option.map_eq_some_iff.mp hread
  obtain ⟨hentry, hbrk⟩ := Prod.mk.inj hpair
  refine ⟨s, mm, Lts.reaches_of_exec hs, hmm, fun h => ?_⟩
  have hsub := h.entry_sub ⟨0, by decide⟩
  rw [Mm.entrySpan, hentry, hbrk] at hsub
  have hin : 256 ∈ Set.Ico 0 (256 : Addr).toNat := hsub ⟨by decide, by decide⟩
  exact absurd hin.2 (by decide)

/-! ## Conservation -/

/-- What keeps every byte accounted for: safe sizes, the entry assigned has no region, and the
increment is not rounded or its frames cannot be had; and nobody grows the area by a bare system
call. -/
def Accounted (k : Krnl) (p : Pid) (mm : Mm) (ins : Inst) : Prop :=
  (ins.opcode = .alloc → AllocSafe k p mm ins.arg0 ∧ (mm.symrgtbl ins.allocId).Empty ∧
    (mm.found ins.arg0 = none → ins.arg0.toNat % 256 = 0 ∨
      k.mram.freeFpList.fpns.length < pagesFor ins.arg0.toNat)) ∧
  (ins.opcode = .syscall → growRequest k p mm ins = none)

instance (k : Krnl) (p : Pid) (mm : Mm) (ins : Inst) : Decidable (Accounted k p mm ins) :=
  inferInstanceAs (Decidable (_ ∧ _))

section Total
variable {k : Krnl} {p : Pid} {mm mm' : Mm} {ins : Inst}

/-- Nothing is lost in an accounted step. -/
theorem total_step (h : mm.total = mm.sbrk.toNat) (ht : mm.Tidy) (hw : k.Wf)
    (hmm : k.ownMm p = some mm) (hacc : Accounted k p mm ins)
    (hstep : RegionStep k p mm ins mm') : mm'.total = mm'.sbrk.toNat := by
  have hs := (hw.own p mm hmm).single
  cases hstep with
  | kept sym free brk =>
      have hlen : mm'.entryLen = mm.entryLen := by
        funext i
        rw [Mm.entryLen, Mm.entryLen, sym]
      rw [brk, ← h, Mm.total, Mm.total, hlen, free]
  | carved rg op id found sym free brk =>
      obtain ⟨hsafe, hempty, _⟩ := hacc.1 op
      obtain ⟨hr, ho⟩ := entry_assign VmRg.len id sym
      obtain ⟨pre, g, post, hfree, hstart, hend, hle, hrest⟩ :=
        ht.found hs (hsafe.found_msb found) found
      rw [brk, ← h, Mm.total, Mm.total]
      refine Layout.total_carve (r := (⟨ins.allocId, id⟩ : Fin pagingMaxSymtblSz)) hempty.len_eq
        ho ?_
      rw [Mm.entryLen, hr, free, hfree]
      rw [hstart] at hend
      rcases hrest with hrest | ⟨heq, hrest⟩
      · rw [hrest]
        simp only [List.map_append, List.map_cons, List.sum_append, List.sum_cons, VmRg.len,
          hstart]
        omega
      · rw [hrest]
        simp only [List.map_append, List.map_cons, List.sum_append, List.sum_cons, VmRg.len,
          heq, hstart]
        omega
  | extended op id found sym free brk =>
      obtain ⟨hsafe, hempty, hround⟩ := hacc.1 op
      obtain ⟨hr, ho⟩ := entry_assign VmRg.len id sym
      have hgrow : Layout.total mm'.entryLen (mm.freerg.map VmRg.len) =
          Layout.total mm.entryLen (mm.freerg.map VmRg.len) + mm'.entryLen ⟨ins.allocId, id⟩ :=
        Layout.total_grow hempty.len_eq ho
      rw [Mm.total, free, ht.notFound hs found, hgrow, brk, toNat_grownBrk hw hmm, ← h, Mm.total,
        Mm.entryLen, hr]
      congr 1
      rcases hsafe.extended found with ⟨h0, hby⟩ | ⟨_, hint, hsum, _, hby⟩
      · rw [h0] at hby ⊢
        rw [hby]
        exact VmRg.Empty.len_eq (BitVec.le_of_eq (BitVec.add_zero _))
      · rw [hby, VmRg.len, hint, hsum]
        rcases hround found with hmod | hfew
        · split
          next => simp only [pagesFor]; omega
          next => exact Nat.add_sub_cancel_left ..
        · rw [if_neg (by omega)]
          exact Nat.add_sub_cancel_left ..
  | released i id sym free brk =>
      obtain ⟨hr, ho⟩ := entry_assign VmRg.len id sym
      rw [brk, ← h, Mm.total, Mm.total, free]
      split
      next hge =>
        have hempty : (mm.symrgtbl i).Empty := hge
        refine Layout.total_carve (r := (⟨i, id⟩ : Fin pagingMaxSymtblSz)) hempty.len_eq ho ?_
        rw [Mm.entryLen, hr]
        exact Nat.zero_add _
      next => exact Layout.total_release (r := (⟨i, id⟩ : Fin pagingMaxSymtblSz)) hr ho
  | moved sz op req sym free brk => cases req.symm.trans (hacc.2 op)

theorem initMm_total {symrgtbl : Nat → VmRg}
    (h : ∀ i < pagingMaxSymtblSz, (symrgtbl i).Empty) : (initMm symrgtbl).total = 0 := by
  have hlen : ∀ i : Fin pagingMaxSymtblSz, (initMm symrgtbl).entryLen i = 0 :=
    fun i => (h i i.isLt).len_eq
  rw [Mm.total, Layout.total, Finset.sum_eq_zero (fun i _ => hlen i)]
  rfl

end Total

/-- Every byte below the break is in an entry or in a free region, in a run whose steps are
accounted. -/
theorem space_conserved {memramsz memswpsz : Addr} {ramJunk swpJunk : Bool} {es : List Event}
    {s : Sys} (h : Lts.Run step (RunOk Accounted) (boot memramsz memswpsz ramJunk swpJunk) es s) :
    ∀ p mm, s.krnl.ownMm p = some mm → mm.total = mm.sbrk.toNat := by
  intro p mm hmm
  have hboth := reach_own (P := fun mm => mm.Tidy ∧ mm.total = mm.sbrk.toNat)
    (fun _ hz => ⟨initMm_tidy hz, initMm_total hz⟩) ?_ h p mm hmm
  · exact hboth.2
  intro k k' p mm mm' ins junk st hw hmm hP hacc hexec hmm'
  obtain ⟨mm'', hmm'', hstep⟩ := exec_regions hw hmm hexec
  obtain rfl : mm'' = mm' := Option.some.inj (hmm''.symm.trans hmm')
  exact ⟨hP.1.step hw hmm (fun hop => (hacc.1 hop).1) hstep,
    total_step hP.2 hP.1 hw hmm hacc hstep⟩

theorem space_conserved_three : ∃ s mm,
    Lts.Reaches step (boot 1024 1024 true true) threeRegions s ∧ s.krnl.ownMm 1 = some mm ∧
    mm.sbrk = 1024 ∧ mm.total = mm.sbrk.toNat := by
  obtain ⟨s, hs⟩ := Option.isSome_iff_exists.mp
    (by decide +kernel :
      (Lts.check step (RunOk Accounted) (boot 1024 1024 true true) threeRegions).isSome)
  have hrun := Lts.run_of_check hs
  have hbrk : (s.krnl.ownMm 1).map Mm.sbrk = some 1024 :=
    Lts.check_map (g := fun s => (s.krnl.ownMm 1).map Mm.sbrk) hs (by decide +kernel)
  obtain ⟨mm, hmm, h1024⟩ := Option.map_eq_some_iff.mp hbrk
  exact ⟨s, mm, hrun.reaches, hmm, h1024, space_conserved hrun 1 mm hmm⟩

/-- 100 bytes allocated: the break moves by a page, and the rest of the page is in no region. -/
theorem rounding_loses_bytes : ∃ s mm,
    Lts.Reaches step (boot 512 512 true true) (loadOn 0 1 ++ [.run 0 ⟨.alloc, 100, 0, 0, 0⟩ 0]) s ∧
    s.krnl.ownMm 1 = some mm ∧ mm.total = 100 ∧ mm.sbrk.toNat = 256 ∧
    mm.total ≠ mm.sbrk.toNat := by
  obtain ⟨s, hs⟩ := Option.isSome_iff_exists.mp
    (by decide +kernel : (Lts.exec step (boot 512 512 true true)
      (loadOn 0 1 ++ [.run 0 ⟨.alloc, 100, 0, 0, 0⟩ 0])).isSome)
  have hread : (s.krnl.ownMm 1).map (fun mm => (mm.total, mm.sbrk.toNat)) = some (100, 256) :=
    Lts.exec_map (g := fun s => (s.krnl.ownMm 1).map (fun mm => (mm.total, mm.sbrk.toNat))) hs
      (by decide +kernel)
  obtain ⟨mm, hmm, hpair⟩ := Option.map_eq_some_iff.mp hread
  obtain ⟨htotal, hbrk⟩ := Prod.mk.inj hpair
  exact ⟨s, mm, Lts.reaches_of_exec hs, hmm, htotal, hbrk, by omega⟩

end SimpleOs
