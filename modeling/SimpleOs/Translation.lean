/-
# `SimpleOs.Translation` — the page of an address, seen from both sides

`vmap_page_range` divides the 64-bit address it maps.  `pg_getval` and
`pg_setval` take the address as an `int` and cut the page number out of 22 bits,
`PAGING_CPU_BUS_WIDTH`.  The two agree on the first 4 MB and nowhere else, and
nothing keeps a heap below that: `access_agrees` says that a process is served
the pages that were mapped for it exactly while its break is at most 2^22.
-/
import SimpleOs.RegionStep

namespace SimpleOs

/-- The page `vmap_page_range` installs an address on. -/
def mappedPgn (a : Addr) : Nat := a.toNat / pagingPagesz

/-- The page and the offset at which `pg_getval` and `pg_setval` look for an address. -/
def accessedAt (a : Addr) : Nat × Nat := (pagingPgn (a.setWidth 32), pagingOffst (a.setWidth 32))

/-- The library looks for the address where it is mapped. -/
structure Agrees (a : Addr) : Prop where
  pgn : (accessedAt a).1 = mappedPgn a
  addr : (accessedAt a).1 * pagingPagesz + (accessedAt a).2 = a.toNat

/-- Every address of the process is looked for where it is mapped, and no two in one place. -/
structure Mm.Translates (mm : Mm) : Prop where
  agrees : ∀ a, a < mm.sbrk → Agrees a
  inj : ∀ a b, a < mm.sbrk → b < mm.sbrk → accessedAt a = accessedAt b → a = b

section Page

theorem accessedAt_fst (a : Addr) : (accessedAt a).1 = a.toNat / 256 % 2 ^ 14 := by
  show pagingPgn (a.setWidth 32) = _
  rw [pagingPgn_eq, BitVec.toNat_setWidth]
  omega

theorem accessedAt_snd (a : Addr) : (accessedAt a).2 = a.toNat % 256 := by
  show pagingOffst (a.setWidth 32) = _
  rw [pagingOffst_eq, BitVec.toNat_setWidth]
  omega

/-- The bus is 22 bits wide. -/
theorem agrees_iff (a : Addr) : Agrees a ↔ a.toNat < 2 ^ 22 := by
  constructor
  · intro h
    have haddr := h.addr
    rw [accessedAt_fst, accessedAt_snd, pagingPagesz] at haddr
    omega
  · intro h
    refine ⟨?_, ?_⟩
    · rw [accessedAt_fst, mappedPgn, pagingPagesz]
      omega
    · rw [accessedAt_fst, accessedAt_snd, pagingPagesz]
      omega

/-- Two addresses of a heap above 4 MB meet. -/
theorem accessedAt_wraps : accessedAt 0 = accessedAt (BitVec.ofNat 64 (2 ^ 22)) := by decide

theorem translates_iff (mm : Mm) : mm.Translates ↔ mm.sbrk.toNat ≤ 2 ^ 22 := by
  constructor
  · intro h
    by_contra hbrk
    have hlt : BitVec.ofNat 64 (2 ^ 22) < mm.sbrk := by
      rw [BitVec.lt_def, BitVec.toNat_ofNat]
      omega
    have hlow := (agrees_iff _).mp (h.agrees _ hlt)
    exact absurd hlow (by decide)
  · intro hbrk
    have hagrees : ∀ a, a < mm.sbrk → Agrees a := by
      intro a ha
      exact (agrees_iff a).mpr (Nat.lt_of_lt_of_le (BitVec.lt_def.mp ha) hbrk)
    refine ⟨hagrees, fun a b ha hb hab => BitVec.eq_of_toNat_eq ?_⟩
    have hback := (hagrees a ha).addr
    rw [hab] at hback
    exact hback.symm.trans (hagrees b hb).addr

/-- Every address of a mapped range is on a resident page. -/
theorem vmapPageRange_installs (mm : Mm) {start a : Addr} {fs : List Nat}
    (hfit : fs.length < 2 ^ 23) (halign : start.toNat % 256 = 0) (hle : start.toNat ≤ a.toNat)
    (hlt : a.toNat < start.toNat + fs.length * 256) :
    ∃ mm' ret, vmapPageRange mm start fs.length fs = .ok (mm', ret) ∧
      Resident (mm'.pte (mappedPgn a)) := by
  refine ⟨_, _, vmapPageRange_eq mm start fs hfit, ?_⟩
  refine Mm.mapFrames_resident fs mm _ _ (Or.inr ⟨a.toNat / 256 - start.toNat / 256, ?_, ?_⟩)
  · omega
  · have hsum : start.toNat / 256 + (a.toNat / 256 - start.toNat / 256) = mappedPgn a := by
      rw [mappedPgn, pagingPagesz]
      omega
    rw [hsum]
    exact PageTable.SamePage.refl _

end Page

section Heap
variable {memramsz memswpsz : Addr} {ramJunk swpJunk : Bool} {es : List Event} {s : Sys}

/-- While RAM has free frames, no heap is larger than RAM. -/
theorem sbrk_le_memramsz {p : Pid} {mm : Mm}
    (h : Lts.Reaches step (boot memramsz memswpsz ramJunk swpJunk) es s)
    (hmm : s.krnl.ownMm p = some mm) (hfree : s.krnl.mram.freeFpList.fpns ≠ []) :
    mm.sbrk.toNat ≤ memramsz.toNat := by
  have hw := (reach_wf h).krnl
  obtain ⟨hmod, hle⟩ := (hw.own p mm hmm).brk hfree
  have hpos := List.length_pos_iff.mpr hfree
  have hnum : s.krnl.mram.numfp = (initMemphy memramsz true ramJunk).numfp := (reach_numfp h).1
  have hin := (initMemphy_random memramsz ramJunk).inStorage
    (f := s.krnl.mram.numfp - 1) (o := 255) (by omega) (by omega)
  rw [initMemphy_cap] at hin
  omega

end Heap

/-- A process is served the pages that were mapped for it exactly while its break is at most 2^22,
which a RAM of at most 4 MB ensures until it runs out of frames. -/
theorem access_agrees (memramsz memswpsz : Addr) (ramJunk swpJunk : Bool) (es : List Event)
    (s : Sys) (h : Lts.Reaches step (boot memramsz memswpsz ramJunk swpJunk) es s)
    (p : Pid) (mm : Mm) (hmm : s.krnl.ownMm p = some mm) :
    (mm.Translates ↔ mm.sbrk.toNat ≤ 2 ^ 22) ∧
    (∀ a, Agrees a ↔ a.toNat < 2 ^ 22) ∧
    (s.krnl.mram.freeFpList.fpns ≠ [] → memramsz.toNat ≤ 2 ^ 22 → mm.Translates) ∧
    (∀ start a : Addr, ∀ fs : List Nat, fs.length < 2 ^ 23 → start.toNat % 256 = 0 →
      start.toNat ≤ a.toNat → a.toNat < start.toNat + fs.length * 256 →
      ∃ mm' ret, vmapPageRange mm start fs.length fs = .ok (mm', ret) ∧
        Resident (mm'.pte (mappedPgn a))) := by
  refine ⟨translates_iff mm, agrees_iff, ?_, ?_⟩
  · intro hfree hram
    exact (translates_iff mm).mpr ((sbrk_le_memramsz h hmm hfree).trans hram)
  · intro start a fs hfit halign hle hlt
    exact vmapPageRange_installs mm hfit halign hle hlt

/-- After an ALLOC of 300 bytes the process has two pages, and is served both. -/
theorem access_agrees_allocated : ∃ s mm,
    Lts.Reaches step (boot 512 512 true true) (loadOn 0 0 ++ [.run 0 ⟨.alloc, 300, 0, 0, 0⟩ 0]) s ∧
    s.krnl.ownMm 0 = some mm ∧ mm.sbrk = 512 ∧ accessedAt 300 = (1, 44) ∧ mm.Translates := by
  obtain ⟨s, hs⟩ := Option.isSome_iff_exists.mp
    (by decide +kernel : (Lts.exec step (boot 512 512 true true)
      (loadOn 0 0 ++ [.run 0 ⟨.alloc, 300, 0, 0, 0⟩ 0])).isSome)
  have hreach := Lts.reaches_of_exec hs
  have hbrk : (s.krnl.ownMm 0).map Mm.sbrk = some 512 :=
    Lts.exec_map (g := fun s => (s.krnl.ownMm 0).map Mm.sbrk) hs (by decide +kernel)
  obtain ⟨mm, hmm, hsbrk⟩ := Option.map_eq_some_iff.mp hbrk
  refine ⟨s, mm, hreach, hmm, hsbrk, by decide, ?_⟩
  exact (access_agrees 512 512 true true _ s hreach 0 mm hmm).1.mpr (by rw [hsbrk]; decide)

/-- On a RAM of 8 MB a process may ALLOC 4 MB and one page: address 2^22 is then the same byte as
address 0. -/
theorem access_aliases : ∃ es s mm,
    Lts.Reaches step (boot (BitVec.ofNat 64 (2 ^ 23)) 512 true true) es s ∧
    s.krnl.ownMm 0 = some mm ∧ BitVec.ofNat 64 (2 ^ 22) < mm.sbrk ∧
    accessedAt 0 = accessedAt (BitVec.ofNat 64 (2 ^ 22)) ∧ ¬ mm.Translates := by
  let ins : Inst := ⟨.alloc, BitVec.ofNat 64 (2 ^ 22 + 256), 0, 0, 0⟩
  obtain ⟨s, hs, hc, hmm, hrl, hram, _⟩ := exec_loadOn (BitVec.ofNat 64 (2 ^ 23)) 512 true true
  have hlen : s.krnl.mram.freeFpList.fpns.length = 32768 := by
    rw [hram, initMemphy_fpns, List.length_range, Memphy.numfp, initMemphy_maxsz]
    decide
  have hn : pagesFor (viaU32 ins.arg0).toNat ≤ s.krnl.mram.freeFpList.fpns.length := by
    rw [hlen]
    decide
  obtain ⟨k', hexec⟩ : ∃ k', exec s.krnl 0 ins 0 = .ok (k', 0) :=
    exec_alloc_defined hmm (initMm_single _) rfl (by decide) (by decide)
      (fun _ => sizeFits_of_lt (by decide)) (reach_wf (Lts.reaches_of_exec hs)).krnl.free_lt
      (Or.inl hn)
  have hrun : step s (.run 0 ins 0) =
      some (({ s with krnl := k' } : Sys).setCpu 0 (.holding 0)) := by
    simp only [step, hc, hexec]
  have hreach := (Lts.reaches_of_exec hs).snoc (.run 0 ins 0) trivial hrun
  obtain ⟨_, _, mm', hmm', _, ⟨_, hf, _⟩ | ⟨_, hbrk, _⟩⟩ :=
    exec_alloc_cases hmm (initMm_single _) rfl hexec
  · rw [show Mm.found _ ins.arg0 = none by decide] at hf
    cases hf
  · rw [Krnl.grownBrk, if_pos ⟨by rw [hrl]; exact List.mem_singleton.mpr rfl, by decide⟩,
      if_pos hn] at hbrk
    refine ⟨_, _, mm', hreach, hmm', by rw [hbrk]; decide, accessedAt_wraps, ?_⟩
    rw [translates_iff, hbrk]
    decide

end SimpleOs
