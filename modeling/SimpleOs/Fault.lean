/-
# `SimpleOs.Fault` — what `pg_getpage`, `pg_getval` and `pg_setval` do

`pgGetpage_cases` lists the five ways the handler can return:

  * hit        the present bit is set — also on a swapped page — and the frame
               field is returned as it stands;
  * no victim  the replacement list is empty;
  * no swap    the victim is off the list, but no swap frame is free;
  * fault      the victim is evicted and its frame mapped, the bytes copied out;
  * lost fault the same without the copy, when the system call does not find
               the caller.

The branch that reads a page back from swap is never taken: it needs an entry
that is not zero and not present, and `Mm.PteOk` says that there is none.
-/
import SimpleOs.LibMem

namespace SimpleOs

/-- Every entry is zero or has its present bit set. -/
def Mm.PteOk (mm : Mm) : Prop := ∀ pgn, mm.pte pgn = 0 ∨ pagingPagePresent (mm.pte pgn) = true

theorem Mm.PteOk.setFpn {mm : Mm} (h : mm.PteOk) (pgn fpn : Nat) :
    (pteSetFpn mm pgn fpn).PteOk := by
  intro m
  rw [pte_pteSetFpn]
  split
  · exact Or.inr (resident_fpnEntry _ _).present
  · exact h m

theorem Mm.PteOk.setSwap {mm : Mm} (h : mm.PteOk) (pgn swptyp swpoff : Nat) :
    (pteSetSwap mm pgn swptyp swpoff).PteOk := by
  intro m
  rw [pte_pteSetSwap]
  split
  · exact Or.inr (swapped_swapEntry _ _ _).present
  · exact h m

theorem findVictimPage_pteOk {mm : Mm} (h : mm.PteOk) : (findVictimPage mm).1.PteOk := by
  rw [findVictimPage]
  split
  · exact h
  · exact h

/-- Victim `v` goes to swap frame `s`, its frame to page `pgn`; `pgs` is the list without `v`. -/
def Mm.evict (mm : Mm) (pgn v s : Nat) (pgs : List Nat) : Mm :=
  ((pteSetFpn (pteSetSwap (((mm.touch pgn).setFifo pgs).touch v) v 0 s)
    pgn (pagingFpn (mm.pte v))).enlist pgn).touch pgn

/-- The bookkeeping of a fault: swap frame `s` taken, the victim evicted. -/
def Krnl.fault (k : Krnl) (p : Pid) (mm : Mm) (pgn v s : Nat) (pgs rest : List Nat) : Krnl :=
  { k with activeMswp := k.activeMswp.take s rest }.setMm p (mm.evict pgn v s pgs)

/-- The kernel after a fault whose victim's frame was copied out. -/
def Krnl.evicted (k : Krnl) (p : Pid) (mm : Mm) (pgn v s : Nat) (pgs rest : List Nat) : Krnl :=
  (k.fault p mm pgn v s pgs rest).copyOut p (pagingFpn (mm.pte v)) s

section Evict
variable (mm : Mm) (m pgn v s : Nat) (pgs : List Nat)

@[simp] theorem Mm.evict_mmap : (mm.evict pgn v s pgs).mmap = mm.mmap := by
  simp only [Mm.evict, Mm.touch_mmap, Mm.enlist_mmap, pteSetFpn_mmap, pteSetSwap_mmap,
    Mm.setFifo_mmap]

@[simp] theorem Mm.evict_symrgtbl : (mm.evict pgn v s pgs).symrgtbl = mm.symrgtbl := by
  simp only [Mm.evict, Mm.touch_symrgtbl, Mm.enlist_symrgtbl, pteSetFpn_symrgtbl,
    pteSetSwap_symrgtbl, Mm.setFifo_symrgtbl]

@[simp] theorem Mm.evict_fifoPgn : (mm.evict pgn v s pgs).fifoPgn = pgn :: pgs := by
  simp only [Mm.evict, Mm.touch_fifoPgn, Mm.enlist_fifoPgn, pteSetFpn_fifoPgn,
    pteSetSwap_fifoPgn, Mm.setFifo_fifoPgn]

/-- The faulting page is resident in the victim's frame. -/
theorem Mm.evict_pte_target (h : PageTable.SamePage m pgn) :
    Resident ((mm.evict pgn v s pgs).pte m) ∧
    pagingFpn ((mm.evict pgn v s pgs).pte m) = pagingFpn (mm.pte v) := by
  rw [Mm.evict, Mm.touch_pte, Mm.enlist_pte, pte_pteSetFpn, if_pos h, pagingFpn_fpnEntry]
  exact ⟨resident_fpnEntry _ _, Nat.mod_eq_of_lt (pagingFpn_lt _)⟩

/-- The victim is swapped, its offset cut to 21 bits. -/
theorem Mm.evict_pte_victim (h : ¬ PageTable.SamePage m pgn) (hv : PageTable.SamePage m v) :
    Swapped ((mm.evict pgn v s pgs).pte m) ∧
    pagingSwp ((mm.evict pgn v s pgs).pte m) = s % 2 ^ 21 := by
  rw [Mm.evict, Mm.touch_pte, Mm.enlist_pte, pte_pteSetFpn, if_neg h, pte_pteSetSwap, if_pos hv,
    pagingSwp_swapEntry]
  exact ⟨swapped_swapEntry _ _ _, rfl⟩

/-- Every other page is left alone. -/
theorem Mm.evict_pte_other (h : ¬ PageTable.SamePage m pgn) (hv : ¬ PageTable.SamePage m v) :
    (mm.evict pgn v s pgs).pte m = mm.pte m := by
  rw [Mm.evict, Mm.touch_pte, Mm.enlist_pte, pte_pteSetFpn, if_neg h, pte_pteSetSwap, if_neg hv,
    Mm.touch_pte]
  exact Mm.touch_pte mm m pgn

end Evict

/-! ## `pg_getpage` -/

section Getpage
variable {k : Krnl} {mm : Mm} {p : Pid} {pgn : Nat} {junk : Byte}

theorem pgGetpage_hit (h : pagingPagePresent (mm.pte pgn) = true) :
    pgGetpage k mm pgn p junk =
      .ok (k.setMm p ((mm.touch pgn).touch pgn), some (pagingFpn (mm.pte pgn))) := by
  rw [pgGetpage]
  simp [pteGetEntry_eq, h]

theorem pgGetpage_noVictim (h : pagingPagePresent (mm.pte pgn) = false) (hf : mm.fifoPgn = []) :
    pgGetpage k mm pgn p junk = .ok (k.setMm p (mm.touch pgn), none) := by
  have hv : findVictimPage (mm.touch pgn) = (mm.touch pgn, none) := findVictimPage_nil hf
  rw [pgGetpage]
  simp [pteGetEntry_eq, h, hv]

section Victim
variable {pgs : List Nat} {v : Nat}

theorem pgGetpage_noSwap (h : pagingPagePresent (mm.pte pgn) = false)
    (hf : mm.fifoPgn = pgs ++ [v]) (hs : k.activeMswp.freeFpList.fpns = []) :
    pgGetpage k mm pgn p junk =
      if k.activeMswp.freeFpList.closed then
        .ok (k.setMm p ((mm.touch pgn).setFifo pgs), none)
      else .error .wildPointer := by
  have hv : findVictimPage (mm.touch pgn) = ((mm.touch pgn).setFifo pgs, some v) :=
    findVictimPage_concat hf
  rw [pgGetpage]
  simp only [pteGetEntry_eq, h, hv, Bool.not_false, if_true]
  cases hc : k.activeMswp.freeFpList.closed with
  | true => rw [memphyGetFreefp_nil hs hc]; rfl
  | false => simp [memphyGetFreefp, hs, hc, bind, Except.bind]

/-- A fault with a victim and a free swap frame, on random access devices. -/
theorem pgGetpage_fault {s : Nat} {rest : List Nat} (hz : mm.pte pgn = 0)
    (hf : mm.fifoPgn = pgs ++ [v]) (hs : k.activeMswp.freeFpList.fpns = s :: rest)
    (hlt : s < 2 ^ 32) (hram : k.mram.rdmflg = true) (hswp : k.activeMswp.rdmflg = true) :
    pgGetpage k mm pgn p junk =
      if p ∈ k.sched.runningList.toList → pagingFpn (mm.pte v) * 256 + 256 ≤ k.mram.cap ∧
          s * 256 + 256 ≤ k.activeMswp.cap then
        .ok ((k.fault p mm pgn v s pgs rest).copyOut p (pagingFpn (mm.pte v)) s,
          some (pagingFpn (mm.pte v)))
      else .error .storageBounds := by
  have hv : findVictimPage (mm.touch pgn) = ((mm.touch pgn).setFifo pgs, some v) :=
    findVictimPage_concat hf
  have hvpte : ((mm.touch pgn).setFifo pgs).pte v = mm.pte v := Mm.touch_pte mm v pgn
  have hfpn := pagingFpn_lt (mm.pte v)
  let k₁ := { k with activeMswp := k.activeMswp.take s rest }.setMm p
    (((mm.touch pgn).setFifo pgs).touch v)
  let regs : ScRegs :=
    { a1 := 3, a2 := BitVec.ofNat 64 (pagingFpn (mm.pte v)), a3 := BitVec.ofNat 64 s }
  obtain ⟨ret, hswap⟩ : ∃ ret, syscall k₁ p 17 regs junk =
      if p ∈ k.sched.runningList.toList → pagingFpn (mm.pte v) * 256 + 256 ≤ k.mram.cap ∧
          s * 256 + 256 ≤ k.activeMswp.cap then
        .ok (k₁.copyOut p (pagingFpn (mm.pte v)) s, regs, ret)
      else .error .storageBounds :=
    ⟨_, syscall_swp (by omega) hlt hram hswp⟩
  -- the frame returned is read back from the entry just written
  have hback : pagingFpn (((pteSetFpn (pteSetSwap (((mm.touch pgn).setFifo pgs).touch v) v 0 s) pgn
      (pagingFpn (mm.pte v))).enlist pgn).pte pgn) = pagingFpn (mm.pte v) := by
    rw [Mm.enlist_pte, pte_pteSetFpn, if_pos (PageTable.SamePage.refl pgn), pagingFpn_fpnEntry]
    exact Nat.mod_eq_of_lt hfpn
  rw [pgGetpage]
  simp only [pteGetEntry_eq, hz, hv, hvpte, zero_not_present, Bool.not_false, if_true,
    memphyGetFreefp_cons hs, bind, Except.bind]
  rw [hswap]
  by_cases hin : p ∈ k.sched.runningList.toList → pagingFpn (mm.pte v) * 256 + 256 ≤ k.mram.cap ∧
      s * 256 + 256 ≤ k.activeMswp.cap
  · rw [if_pos hin, if_pos hin]
    have hset : ∀ mm', (k₁.copyOut p (pagingFpn (mm.pte v)) s).setMm p mm' =
        ({ k with activeMswp := k.activeMswp.take s rest }.setMm p mm').copyOut p
          (pagingFpn (mm.pte v)) s := by
      intro mm'
      rw [Krnl.copyOut_setMm, Krnl.setMm_setMm, Krnl.copyOut_setMm]
    simp only [ne_eq, not_true_eq_false, if_false, hback, pure, Except.pure, hset]
    rfl
  · rw [if_neg hin, if_neg hin]

end Victim

/-- Everything the fault handler can do. -/
theorem pgGetpage_cases {k' : Krnl} {r : Option Nat} (hz : mm.PteOk)
    (hram : k.mram.rdmflg = true) (hswp : k.activeMswp.rdmflg = true)
    (hlt : ∀ s ∈ k.activeMswp.freeFpList.fpns, s < 2 ^ 32)
    (h : pgGetpage k mm pgn p junk = .ok (k', r)) :
    (pagingPagePresent (mm.pte pgn) = true ∧ k' = k.setMm p ((mm.touch pgn).touch pgn) ∧
      r = some (pagingFpn (mm.pte pgn))) ∨
    (mm.pte pgn = 0 ∧ mm.fifoPgn = [] ∧ k' = k.setMm p (mm.touch pgn) ∧ r = none) ∨
    (mm.pte pgn = 0 ∧ ∃ pgs v, mm.fifoPgn = pgs ++ [v] ∧ k.activeMswp.freeFpList.fpns = [] ∧
      k' = k.setMm p ((mm.touch pgn).setFifo pgs) ∧ r = none) ∨
    (mm.pte pgn = 0 ∧ ∃ pgs v s rest, mm.fifoPgn = pgs ++ [v] ∧
      k.activeMswp.freeFpList.fpns = s :: rest ∧
      k' = (k.fault p mm pgn v s pgs rest).copyOut p (pagingFpn (mm.pte v)) s ∧
      r = some (pagingFpn (mm.pte v))) := by
  rcases hz pgn with h0 | hpres
  · have hnot : pagingPagePresent (mm.pte pgn) = false := by rw [h0]; exact zero_not_present
    rcases List.eq_nil_or_concat mm.fifoPgn with hf | ⟨pgs, v, hf⟩
    · rw [pgGetpage_noVictim hnot hf] at h
      cases h
      exact Or.inr (Or.inl ⟨h0, hf, rfl, rfl⟩)
    · rw [List.concat_eq_append] at hf
      cases hs : k.activeMswp.freeFpList.fpns with
      | nil =>
          rw [pgGetpage_noSwap hnot hf hs] at h
          split at h
          · cases h
            exact Or.inr (Or.inr (Or.inl ⟨h0, pgs, v, hf, rfl, rfl, rfl⟩))
          · exact nomatch h
      | cons s rest =>
          have hs_lt := hlt s (by rw [hs]; exact List.mem_cons_self)
          rw [pgGetpage_fault h0 hf hs hs_lt hram hswp] at h
          split at h
          · cases h
            exact Or.inr (Or.inr (Or.inr ⟨h0, pgs, v, s, rest, hf, rfl, rfl, rfl⟩))
          · exact nomatch h
  · rw [pgGetpage_hit hpres] at h
    cases h
    exact Or.inl ⟨hpres, rfl, rfl⟩

end Getpage

/-! ## `pg_getval` and `pg_setval` -/

/-- `pg_getval` changes what `pg_getpage` changes: a read leaves the RAM device alone. -/
theorem pgGetval_ok {k k' : Krnl} {mm : Mm} {addr : BitVec 32} {data data' : Byte} {p : Pid}
    {junk : Byte} {st : Int} (hram : ∀ k₁ r, pgGetpage k mm (pagingPgn addr) p junk = .ok (k₁, r) →
      k₁.mram.rdmflg = true)
    (h : pgGetval k mm addr data p junk = .ok (k', st, data')) :
    ∃ r, pgGetpage k mm (pagingPgn addr) p junk = .ok (k', r) ∧ data' = data := by
  rw [pgGetval, bind_ok] at h
  obtain ⟨⟨k₁, r⟩, hg, h⟩ := h
  have hrdm := hram k₁ r hg
  cases r with
  | none => cases h; exact ⟨none, hg, rfl⟩
  | some fpn =>
      simp only [bind_ok] at h
      obtain ⟨⟨k₂, regs, ret⟩, hsys, h⟩ := h
      cases h
      rw [syscall, if_pos rfl] at hsys
      have hk : k₂ = k₁ := by
        cases hf : findCaller k₁ p with
        | none => rw [sysMemmap_lost hf] at hsys; cases hsys; rfl
        | some q =>
            obtain rfl := findCaller_some hf
            rw [sysMemmap_ioRead hf, memphyRead_random hrdm] at hsys
            split at hsys
            · cases hsys; rfl
            · cases hsys
      exact ⟨some fpn, by rw [hk]; exact hg, rfl⟩

/-- `pg_setval` is `pg_getpage` and then, if a frame was returned and the system call finds the
caller, one byte stored in that frame. -/
theorem pgSetval_ok {k k' : Krnl} {mm : Mm} {addr : BitVec 32} {value : Byte} {p : Pid}
    {junk : Byte} {st : Int} (hram : ∀ k₁ r, pgGetpage k mm (pagingPgn addr) p junk = .ok (k₁, r) →
      k₁.mram.rdmflg = true ∧ ∀ f, r = some f → f < 2 ^ 13)
    (h : pgSetval k mm addr value p junk = .ok (k', st)) :
    ∃ k₁ r, pgGetpage k mm (pagingPgn addr) p junk = .ok (k₁, r) ∧
      ((r = none ∧ st = -1 ∧ k' = k₁) ∨
       (∃ fpn, r = some fpn ∧ st = 0 ∧ p ∉ k₁.sched.runningList.toList ∧ k' = k₁) ∨
       (∃ fpn, r = some fpn ∧ st = 0 ∧ p ∈ k₁.sched.runningList.toList ∧
          k' = { k₁ with mram := k₁.mram.store (fpn * 256 + pagingOffst addr) value })) := by
  rw [pgSetval, bind_ok] at h
  obtain ⟨⟨k₁, r⟩, hg, h⟩ := h
  obtain ⟨hrdm, hfpn⟩ := hram k₁ r hg
  refine ⟨k₁, r, hg, ?_⟩
  cases r with
  | none => cases h; exact Or.inl ⟨rfl, rfl, rfl⟩
  | some fpn =>
      simp only [bind_ok] at h
      obtain ⟨⟨k₂, regs, ret⟩, hsys, h⟩ := h
      cases h
      rw [syscall, if_pos rfl] at hsys
      by_cases hp : p ∈ k₁.sched.runningList.toList
      · have hf : findCaller k₁ p = some p := by rw [findCaller_eq, if_pos hp]
        have hval : (value.signExtend 64).setWidth 8 = value :=
          setWidth_signExtend value (by decide)
        rw [sysMemmap_ioWrite hf, memphyWrite_random hrdm,
          viaU32_phyaddr (hfpn fpn rfl) (pagingOffst_lt addr), hval] at hsys
        split at hsys
        · cases hsys
          exact Or.inr (Or.inr ⟨fpn, rfl, rfl, hp, rfl⟩)
        · cases hsys
      · have hf : findCaller k₁ p = none := by rw [findCaller_eq, if_neg hp]
        rw [sysMemmap_lost hf] at hsys
        cases hsys
        exact Or.inr (Or.inl ⟨fpn, rfl, rfl, hp, rfl⟩)

end SimpleOs
