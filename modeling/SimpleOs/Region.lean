/-
# `SimpleOs.Region` — regions, areas and the process's memory structure

`struct mm_struct` with the functions that only move regions and page numbers
between its lists (`mm64.c`'s `init_mm`, `mm-vm.c`'s `get_vma_by_num`, and
`libmem.c`'s `enlist_vm_freerg_list`, `get_symrg_byid`, `get_free_vmrg_area`,
`find_victim_page`).

The three linked lists are Lean lists, head first.  `symrgtbl` is an array of
`PAGING_MAX_SYMTBL_SZ` entries inside the structure; `init_mm` writes none of
them, so a new process has what `malloc` left there.
-/
import Mathlib.Data.List.Basic
import SimpleOs.PageTable

namespace SimpleOs

/-- `struct vm_rg_struct`, without its link. -/
structure VmRg where
  rgStart : Addr
  rgEnd : Addr
  deriving DecidableEq, Repr

/-- The number of addresses of a region. -/
def VmRg.len (rg : VmRg) : Nat := rg.rgEnd.toNat - rg.rgStart.toNat

/-- `struct vm_area_struct`. -/
structure VmArea where
  vmId : Addr
  vmStart : Addr
  vmEnd : Addr
  sbrk : Addr
  vmFreergList : List VmRg

/-- `struct mm_struct`. -/
structure Mm where
  pgd : PageTable
  mmap : List VmArea
  symrgtbl : Nat → VmRg
  fifoPgn : List Nat

/-- `init_vm_rg`. -/
def initVmRg (rgStart rgEnd : Addr) : VmRg := { rgStart, rgEnd }

/-- `enlist_vm_rg_node`. -/
def enlistVmRgNode (rglist : List VmRg) (rgnode : VmRg) : List VmRg := rgnode :: rglist

/-- `enlist_pgn_node`. -/
def enlistPgnNode (plist : List Nat) (pgn : Nat) : List Nat := pgn :: plist

/-- `init_mm` on a structure whose symbol table `malloc` left as `symrgtbl`. -/
def initMm (symrgtbl : Nat → VmRg) : Mm where
  pgd := .init
  mmap := [{
    vmId := 0
    vmStart := 0
    vmEnd := 0
    sbrk := 0
    vmFreergList := enlistVmRgNode [] (initVmRg 0 0) }]
  symrgtbl := symrgtbl
  fifoPgn := []

/-! ## Areas -/

/-- The walk of `get_vma_by_num`; the area number is compared as an `unsigned long`. -/
def findVma (num : Addr) : List VmArea → Option VmArea
  | [] => none
  | vma :: vmas =>
      if vma.vmId < num then findVma num vmas else if vma.vmId = num then some vma else none

/-- Writing the area that walk stops at. -/
def putVma (num : Addr) (vma' : VmArea) : List VmArea → List VmArea
  | [] => []
  | vma :: vmas => if vma.vmId < num then vma :: putVma num vma' vmas else vma' :: vmas

/-- The areas but the one that walk finds. -/
def dropVma (num : Addr) : List VmArea → List VmArea
  | [] => []
  | vma :: vmas =>
      if vma.vmId < num then vma :: dropVma num vmas
      else if vma.vmId = num then vmas
      else vma :: vmas

/-- `get_vma_by_num`. -/
def Mm.getVmaByNum (mm : Mm) (vmaid : Int) : Option VmArea :=
  findVma (BitVec.ofInt 64 vmaid) mm.mmap

/-- The areas whose address is not the one `get_vma_by_num` returns. -/
def Mm.others (mm : Mm) (vmaid : Int) : List VmArea := dropVma (BitVec.ofInt 64 vmaid) mm.mmap

/-- Assigning through the pointer `get_vma_by_num` returned. -/
def Mm.setVma (mm : Mm) (vmaid : Int) (vma : VmArea) : Mm :=
  { mm with mmap := putVma (BitVec.ofInt 64 vmaid) vma mm.mmap }

/-! ## The symbol table -/

/-- `get_symrg_byid`: the index of the entry whose address is returned. -/
def getSymrgById (rgid : Int) : Option Int :=
  if rgid < 0 ∨ rgid > pagingMaxSymtblSz then none else some rgid

/-- Reading `mm->symrgtbl[rgid]`. -/
def Mm.symrg (mm : Mm) (rgid : Int) : Except Ub VmRg :=
  if 0 ≤ rgid ∧ rgid < pagingMaxSymtblSz then .ok (mm.symrgtbl rgid.toNat)
  else .error .symtblBounds

/-- Writing `mm->symrgtbl[rgid]`. -/
def Mm.setSymrg (mm : Mm) (rgid : Int) (rg : VmRg) : Except Ub Mm :=
  if 0 ≤ rgid ∧ rgid < pagingMaxSymtblSz then
    .ok { mm with symrgtbl := Function.update mm.symrgtbl rgid.toNat rg }
  else .error .symtblBounds

/-- `mm` with entry `i` of its symbol table assigned. -/
def Mm.setEntry (mm : Mm) (i : Nat) (rg : VmRg) : Mm :=
  { mm with symrgtbl := Function.update mm.symrgtbl i rg }

theorem Mm.setSymrg_ok {mm mm' : Mm} {rgid : Int} {rg : VmRg}
    (h : mm.setSymrg rgid rg = .ok mm') :
    0 ≤ rgid ∧ rgid < pagingMaxSymtblSz ∧ mm' = mm.setEntry rgid.toNat rg := by
  rw [Mm.setSymrg] at h
  split at h
  next hb => cases h; exact ⟨hb.1, hb.2, rfl⟩
  next => exact nomatch h

theorem Mm.setSymrg_inBounds (mm : Mm) {rgid : Int} (rg : VmRg) (h0 : 0 ≤ rgid)
    (hlt : rgid < pagingMaxSymtblSz) : mm.setSymrg rgid rg = .ok (mm.setEntry rgid.toNat rg) := by
  rw [Mm.setSymrg, if_pos ⟨h0, hlt⟩]
  rfl

theorem Mm.symrg_ok {mm : Mm} {rgid : Int} {rg : VmRg} (h : mm.symrg rgid = .ok rg) :
    0 ≤ rgid ∧ rgid < pagingMaxSymtblSz ∧ rg = mm.symrgtbl rgid.toNat := by
  rw [Mm.symrg] at h
  split at h
  next hb => cases h; exact ⟨hb.1, hb.2, rfl⟩
  next => exact nomatch h

theorem Mm.symrg_inBounds (mm : Mm) {rgid : Int} (h0 : 0 ≤ rgid)
    (hlt : rgid < pagingMaxSymtblSz) : mm.symrg rgid = .ok (mm.symrgtbl rgid.toNat) := by
  rw [Mm.symrg, if_pos ⟨h0, hlt⟩]

@[simp] theorem Mm.setEntry_pgd (mm : Mm) (i : Nat) (rg : VmRg) :
    (mm.setEntry i rg).pgd = mm.pgd := rfl

@[simp] theorem Mm.setEntry_mmap (mm : Mm) (i : Nat) (rg : VmRg) :
    (mm.setEntry i rg).mmap = mm.mmap := rfl

@[simp] theorem Mm.setEntry_symrgtbl (mm : Mm) (i : Nat) (rg : VmRg) :
    (mm.setEntry i rg).symrgtbl = Function.update mm.symrgtbl i rg := rfl

@[simp] theorem Mm.setEntry_fifoPgn (mm : Mm) (i : Nat) (rg : VmRg) :
    (mm.setEntry i rg).fifoPgn = mm.fifoPgn := rfl

/-! ## Free regions -/

/-- `enlist_vm_freerg_list`: an empty region is refused. -/
def enlistVmFreergList (mm : Mm) (rgElmt : VmRg) : Except Ub (Mm × Int) :=
  match mm.mmap with
  | [] => .error .wildPointer
  | vma :: vmas =>
      if rgElmt.rgStart ≥ rgElmt.rgEnd then .ok (mm, -1)
      else .ok ({ mm with
        mmap := { vma with vmFreergList := rgElmt :: vma.vmFreergList } :: vmas }, 0)

/-- Whether `rgit` has room for `size`; the sum wraps. -/
def VmRg.Fits (rgit : VmRg) (size : Addr) : Prop := rgit.rgStart + size ≤ rgit.rgEnd

instance (rgit : VmRg) (size : Addr) : Decidable (rgit.Fits size) :=
  inferInstanceAs (Decidable (_ ≤ _))

/-- The loop of `get_free_vmrg_area`: the region found and the list it leaves. -/
def firstFit (size : Addr) : List VmRg → Option (VmRg × List VmRg)
  | [] => none
  | rgit :: rgs =>
      if rgit.Fits size then
        let newrg := { rgStart := rgit.rgStart, rgEnd := rgit.rgStart + size }
        if rgit.rgStart + size < rgit.rgEnd then
          some (newrg, { rgit with rgStart := rgit.rgStart + size } :: rgs)
        else some (newrg, rgs)
      else
        match firstFit size rgs with
        | none => none
        | some (newrg, rgs') => some (newrg, rgit :: rgs')

/-- `get_free_vmrg_area`.  `size` is an `int`, and a region found at address -1 counts as
none found. -/
def getFreeVmrgArea (mm : Mm) (vmaid : Int) (size : Int) : Mm × Option VmRg :=
  match mm.getVmaByNum vmaid with
  | none => (mm, none)
  | some curVma =>
      match firstFit (BitVec.ofInt 64 size) curVma.vmFreergList with
      | none => (mm, none)
      | some (newrg, rgs) =>
          (mm.setVma vmaid { curVma with vmFreergList := rgs },
            if newrg.rgStart = -1 then none else some newrg)

/-! ## The replacement list -/

/-- Assigning the replacement list. -/
def Mm.setFifo (mm : Mm) (pgs : List Nat) : Mm := { mm with fifoPgn := pgs }

/-- `find_victim_page`: the last node is unlinked. -/
def findVictimPage (mm : Mm) : Mm × Option Nat :=
  match mm.fifoPgn.getLast? with
  | none => (mm, none)
  | some pgn => (mm.setFifo mm.fifoPgn.dropLast, some pgn)

@[simp] theorem Mm.setFifo_pgd (mm : Mm) (pgs : List Nat) : (mm.setFifo pgs).pgd = mm.pgd := rfl

@[simp] theorem Mm.setFifo_mmap (mm : Mm) (pgs : List Nat) : (mm.setFifo pgs).mmap = mm.mmap := rfl

@[simp] theorem Mm.setFifo_symrgtbl (mm : Mm) (pgs : List Nat) :
    (mm.setFifo pgs).symrgtbl = mm.symrgtbl := rfl

@[simp] theorem Mm.setFifo_fifoPgn (mm : Mm) (pgs : List Nat) :
    (mm.setFifo pgs).fifoPgn = pgs := rfl

theorem findVictimPage_nil {mm : Mm} (h : mm.fifoPgn = []) : findVictimPage mm = (mm, none) := by
  simp [findVictimPage, h]

theorem findVictimPage_concat {mm : Mm} {pgs : List Nat} {v : Nat} (h : mm.fifoPgn = pgs ++ [v]) :
    findVictimPage mm = (mm.setFifo pgs, some v) := by
  simp [findVictimPage, h]

/-! ## One area per process

`init_mm` makes area 0 and nothing ever adds another. -/

/-- The area list of every process. -/
def Mm.Single (mm : Mm) : Prop := ∃ vma, mm.mmap = [vma] ∧ vma.vmId = 0

/-- Area 0 of the process. -/
def Mm.vma (mm : Mm) : VmArea :=
  mm.mmap.headD { vmId := 0, vmStart := 0, vmEnd := 0, sbrk := 0, vmFreergList := [] }

/-- The program break of the process. -/
def Mm.sbrk (mm : Mm) : Addr := mm.vma.sbrk

/-- The free regions of the process. -/
def Mm.freerg (mm : Mm) : List VmRg := mm.vma.vmFreergList

theorem initMm_single (symrgtbl : Nat → VmRg) : (initMm symrgtbl).Single := ⟨_, rfl, rfl⟩

@[simp] theorem initMm_sbrk (symrgtbl : Nat → VmRg) : (initMm symrgtbl).sbrk = 0 := rfl

@[simp] theorem initMm_freerg (symrgtbl : Nat → VmRg) :
    (initMm symrgtbl).freerg = [{ rgStart := 0, rgEnd := 0 }] := rfl

@[simp] theorem initMm_symrgtbl (symrgtbl : Nat → VmRg) :
    (initMm symrgtbl).symrgtbl = symrgtbl := rfl

@[simp] theorem initMm_fifoPgn (symrgtbl : Nat → VmRg) : (initMm symrgtbl).fifoPgn = [] := rfl

@[simp] theorem initMm_pgd (symrgtbl : Nat → VmRg) : (initMm symrgtbl).pgd = .init := rfl

/-- Area 0 replaced. -/
def Mm.withVma (mm : Mm) (vma : VmArea) : Mm := { mm with mmap := [vma] }

section WithVma
variable (mm : Mm) (vma : VmArea)

@[simp] theorem Mm.withVma_pgd : (mm.withVma vma).pgd = mm.pgd := rfl

@[simp] theorem Mm.withVma_symrgtbl : (mm.withVma vma).symrgtbl = mm.symrgtbl := rfl

@[simp] theorem Mm.withVma_fifoPgn : (mm.withVma vma).fifoPgn = mm.fifoPgn := rfl

@[simp] theorem Mm.withVma_sbrk : (mm.withVma vma).sbrk = vma.sbrk := rfl

@[simp] theorem Mm.withVma_freerg : (mm.withVma vma).freerg = vma.vmFreergList := rfl

end WithVma

namespace Mm.Single
variable {mm : Mm}

theorem vmId (h : mm.Single) : mm.vma.vmId = 0 := by
  obtain ⟨vma, hm, hid⟩ := h
  rw [Mm.vma, hm]
  exact hid

theorem mmap_eq (h : mm.Single) : mm.mmap = [mm.vma] := by
  obtain ⟨vma, hm, _⟩ := h
  rw [Mm.vma, hm]
  rfl

theorem withVma {vma : VmArea} (h : vma.vmId = 0) : (mm.withVma vma).Single := ⟨vma, rfl, h⟩

/-- Only area 0 is found. -/
theorem getVmaByNum (h : mm.Single) (vmaid : Int) :
    mm.getVmaByNum vmaid = if BitVec.ofInt 64 vmaid = 0 then some mm.vma else none := by
  rw [Mm.getVmaByNum, h.mmap_eq, findVma, h.vmId]
  by_cases h0 : BitVec.ofInt 64 vmaid = 0
  · rw [if_pos h0, h0]
    simp
  · have hlt : (0 : Addr) < BitVec.ofInt 64 vmaid := by
      rw [BitVec.lt_def]
      have hne : (BitVec.ofInt 64 vmaid).toNat ≠ 0 := fun hz => h0 (BitVec.eq_of_toNat_eq hz)
      exact Nat.pos_of_ne_zero hne
    rw [if_pos hlt, if_neg h0]
    rfl

theorem setVma (h : mm.Single) (vma : VmArea) : mm.setVma 0 vma = mm.withVma vma := by
  rw [Mm.setVma, Mm.withVma, h.mmap_eq, putVma, h.vmId]
  rfl

theorem enlistVmFreergList (h : mm.Single) (rg : VmRg) :
    SimpleOs.enlistVmFreergList mm rg =
      if rg.rgStart ≥ rg.rgEnd then .ok (mm, -1)
      else .ok (mm.withVma { mm.vma with vmFreergList := rg :: mm.freerg }, 0) := by
  rw [SimpleOs.enlistVmFreergList, h.mmap_eq]
  rfl

end Mm.Single

theorem sbrk_congr {mm mm' : Mm} (h : mm'.mmap = mm.mmap) : mm'.sbrk = mm.sbrk := by
  rw [Mm.sbrk, Mm.sbrk, Mm.vma, Mm.vma, h]

theorem freerg_congr {mm mm' : Mm} (h : mm'.mmap = mm.mmap) : mm'.freerg = mm.freerg := by
  rw [Mm.freerg, Mm.freerg, Mm.vma, Mm.vma, h]

theorem Mm.Single.congr {mm mm' : Mm} (hs : mm.Single) (h : mm'.mmap = mm.mmap) : mm'.Single := by
  obtain ⟨vma, hm, hid⟩ := hs
  exact ⟨vma, h.trans hm, hid⟩

/-- `mm` with its free regions replaced. -/
def Mm.withFree (mm : Mm) (rgs : List VmRg) : Mm := mm.withVma { mm.vma with vmFreergList := rgs }

section WithFree
variable (mm : Mm) (rgs : List VmRg)

@[simp] theorem Mm.withFree_pgd : (mm.withFree rgs).pgd = mm.pgd := rfl

@[simp] theorem Mm.withFree_symrgtbl : (mm.withFree rgs).symrgtbl = mm.symrgtbl := rfl

@[simp] theorem Mm.withFree_fifoPgn : (mm.withFree rgs).fifoPgn = mm.fifoPgn := rfl

@[simp] theorem Mm.withFree_sbrk : (mm.withFree rgs).sbrk = mm.sbrk := rfl

@[simp] theorem Mm.withFree_freerg : (mm.withFree rgs).freerg = rgs := rfl

theorem Mm.Single.withFree {mm : Mm} (h : mm.Single) (rgs : List VmRg) : (mm.withFree rgs).Single :=
  Mm.Single.withVma h.vmId

end WithFree

/-- `get_free_vmrg_area` on the one area. -/
theorem getFreeVmrgArea_eq {mm : Mm} (h : mm.Single) (size : Int) :
    getFreeVmrgArea mm 0 size =
      match firstFit (BitVec.ofInt 64 size) mm.freerg with
      | none => (mm, none)
      | some (newrg, rgs) =>
          (mm.withFree rgs, if newrg.rgStart = -1 then none else some newrg) := by
  have hv : mm.getVmaByNum 0 = some mm.vma := by rw [h.getVmaByNum]; rfl
  rw [getFreeVmrgArea, hv]
  simp only [Mm.freerg]
  cases firstFit (BitVec.ofInt 64 size) mm.vma.vmFreergList with
  | none => rfl
  | some res => simp only [h.setVma]; rfl

/-! ## First fit -/

/-- Everything the search can return: a prefix of the first region with room is carved off. -/
theorem firstFit_cases {size : Addr} : ∀ {rgs rgs' : List VmRg} {newrg : VmRg},
    firstFit size rgs = some (newrg, rgs') →
    ∃ pre rg post, rgs = pre ++ rg :: post ∧ (∀ q ∈ pre, ¬ q.Fits size) ∧ rg.Fits size ∧
      newrg = { rgStart := rg.rgStart, rgEnd := rg.rgStart + size } ∧
      ((rg.rgStart + size < rg.rgEnd ∧
          rgs' = pre ++ { rg with rgStart := rg.rgStart + size } :: post) ∨
        (rg.rgStart + size = rg.rgEnd ∧ rgs' = pre ++ post)) := by
  intro rgs
  induction rgs with
  | nil => intro _ _ h; exact nomatch h
  | cons rg rgs ih =>
      intro rgs' newrg h
      rw [firstFit] at h
      by_cases hfit : rg.Fits size
      · rw [if_pos hfit] at h
        by_cases hlt : rg.rgStart + size < rg.rgEnd
        · rw [if_pos hlt] at h
          obtain ⟨rfl, rfl⟩ := Prod.mk.inj (Option.some.inj h)
          exact ⟨[], rg, rgs, rfl, fun _ hq => (nomatch hq), hfit, rfl, Or.inl ⟨hlt, rfl⟩⟩
        · rw [if_neg hlt] at h
          obtain ⟨rfl, rfl⟩ := Prod.mk.inj (Option.some.inj h)
          have heq : rg.rgStart + size = rg.rgEnd :=
            BitVec.le_antisymm hfit (BitVec.not_lt.mp hlt)
          exact ⟨[], rg, rgs, rfl, fun _ hq => (nomatch hq), hfit, rfl, Or.inr ⟨heq, rfl⟩⟩
      · rw [if_neg hfit] at h
        cases hrec : firstFit size rgs with
        | none => rw [hrec] at h; exact nomatch h
        | some res =>
            obtain ⟨newrg₁, rgs₁⟩ := res
            rw [hrec] at h
            obtain ⟨rfl, rfl⟩ := Prod.mk.inj (Option.some.inj h)
            obtain ⟨pre, g, post, rfl, hpre, hg, hnew, hcase⟩ := ih hrec
            refine ⟨rg :: pre, g, post, rfl, ?_, hg, hnew, ?_⟩
            · intro q hq
              rcases List.mem_cons.mp hq with rfl | hq
              · exact hfit
              · exact hpre q hq
            · rcases hcase with ⟨hlt, rfl⟩ | ⟨heq, rfl⟩
              · exact Or.inl ⟨hlt, rfl⟩
              · exact Or.inr ⟨heq, rfl⟩

theorem firstFit_none {size : Addr} : ∀ {rgs : List VmRg},
    firstFit size rgs = none ↔ ∀ q ∈ rgs, ¬ q.Fits size := by
  intro rgs
  induction rgs with
  | nil => exact ⟨fun _ _ hq => (nomatch hq), fun _ => rfl⟩
  | cons rg rgs ih =>
      rw [firstFit, List.forall_mem_cons, ← ih]
      by_cases hfit : rg.Fits size
      · rw [if_pos hfit]
        constructor
        · intro h
          split at h <;> exact nomatch h
        · rintro ⟨hn, _⟩
          exact absurd hfit hn
      · rw [if_neg hfit]
        cases firstFit size rgs with
        | none => exact ⟨fun _ => ⟨hfit, rfl⟩, fun _ => rfl⟩
        | some res => exact ⟨fun h => (nomatch h), fun h => (nomatch h.2)⟩

end SimpleOs
