/-
# `SimpleOs.MapRange` — what `vm_map_ram` does when there are frames enough

The two loops stay aligned: page number `pgn + i` gets frame `i` of the free
list, because the pages mapped after it are different slots of the table.  That
takes page numbers below 2^45, which five levels of 9 bits tell apart, and
frame numbers below 2^13, the width of their field, which a RAM of 2^21 bytes
ensures.

The frames are pairwise distinct because RAM only ever hands out frames: what
is free is a suffix of the list `MEMPHY_format` built (`reach_ramFree`).
-/
import SimpleOs.Reach

namespace SimpleOs

/-- `vm_map_ram` in the kernel: the caller's structure and the RAM device are replaced. -/
def Krnl.vmMapRam (k : Krnl) (caller : Pid) (mm : Mm) (mapstart : Addr) (incpgnum : Int)
    (retRg : VmRg) : Except Ub (Krnl × VmRg × Addr) := do
  let (mram, mm, retRg, ret) ← SimpleOs.vmMapRam k.mram mm mapstart incpgnum retRg
  pure ({ k with mram }.setMm caller mm, retRg, ret)

/-- From `pgn` on the pages hold the frames `fs`, one each and in this order, and are listed in
ascending order, the last one at the head; the rest is as before. -/
structure Mm.Maps (mm mm' : Mm) (pgn : Nat) (fs : List Nat) : Prop where
  mapped : ∀ i (h : i < fs.length),
    Resident (mm'.pte (pgn + i)) ∧ pagingFpn (mm'.pte (pgn + i)) = fs[i]
  other : ∀ m < 2 ^ 45, (∀ i < fs.length, m ≠ pgn + i) → mm'.pte m = mm.pte m
  listed : mm'.fifoPgn = (List.range' pgn fs.length).reverse ++ mm.fifoPgn
  areas : mm'.mmap = mm.mmap
  entries : mm'.symrgtbl = mm.symrgtbl

/-- The frames `fs` have left the free list of RAM for the pages of `p` from `pgn` on, and no byte
and no other process changed. -/
structure Krnl.Maps (k k' : Krnl) (p : Pid) (pgn : Nat) (fs : List Nat) : Prop where
  own : ∃ mm mm', k.ownMm p = some mm ∧ k'.ownMm p = some mm' ∧ mm.Maps mm' pgn fs
  distinct : fs.Nodup
  free : k.mram.freeFpList.fpns = fs ++ k'.mram.freeFpList.fpns
  ram : k'.mram.storage = k.mram.storage
  swp : k'.activeMswp = k.activeMswp
  other : ∀ q, q ≠ p → k'.ownMm q = k.ownMm q

section Map
variable {mm : Mm} {pgn : Nat} {fs : List Nat}

/-- Mapping frames whose numbers fit, to page numbers that do. -/
theorem Mm.mapFrames_maps (hpgn : pgn + fs.length ≤ 2 ^ 45) (hfs : ∀ f ∈ fs, f < 2 ^ 13) :
    mm.Maps (mm.mapFrames pgn fs) pgn fs where
  mapped := by
    intro i h
    refine ⟨Mm.mapFrames_resident _ _ _ _ (Or.inr ⟨i, h, PageTable.SamePage.refl _⟩), ?_⟩
    rw [Mm.mapFrames_frame _ _ _ _ h hpgn]
    exact Nat.mod_eq_of_lt (hfs _ (List.getElem_mem h))
  other := by
    intro m hm hout
    refine Mm.mapFrames_pte_other _ _ _ _ fun i hi hs => ?_
    exact hout i hi (hs.eq_of_lt hm (by omega))
  listed := Mm.mapFrames_fifoPgn fs mm pgn
  areas := Mm.mapFrames_mmap fs mm pgn
  entries := Mm.mapFrames_symrgtbl fs mm pgn

theorem Krnl.vmMapRam_enough {k : Krnl} {p : Pid} {start : Addr} {n : Nat} {retRg : VmRg}
    (hn : n ≤ k.mram.freeFpList.fpns.length) (hfit : n < 2 ^ 23) :
    k.vmMapRam p mm start n retRg = .ok
      ({ k with
          mram := k.mram.takeAll (k.mram.freeFpList.fpns.take n)
            (k.mram.freeFpList.fpns.drop n) }.setMm p
        (mm.mapFrames (start.toNat / 256) (k.mram.freeFpList.fpns.take n)),
        { rgStart := start, rgEnd := start + BitVec.ofInt 64 (n * 256) }, 0) := by
  rw [Krnl.vmMapRam, SimpleOs.vmMapRam_enough hn hfit]
  rfl

end Map

/-- The range that is returned, and the pages it consists of. -/
theorem range_pages {start : Addr} {n : Nat} (halign : start.toNat % 256 = 0)
    (hpgn : start.toNat / 256 + n ≤ 2 ^ 45) :
    (start + BitVec.ofInt 64 (n * 256)).toNat = start.toNat + n * 256 ∧
    ∀ a : Addr, (start ≤ a ∧ a < start + BitVec.ofInt 64 (n * 256)) ↔
      ∃ i < n, a.toNat / 256 = start.toNat / 256 + i := by
  have hend : (start + BitVec.ofInt 64 (n * 256)).toNat = start.toNat + n * 256 := by
    have hcast : (n * 256 : Int) = ((n * 256 : Nat) : Int) := by rw [Int.natCast_mul]; rfl
    rw [hcast, BitVec.ofInt_natCast, BitVec.toNat_add, BitVec.toNat_ofNat]
    omega
  refine ⟨hend, fun a => ?_⟩
  rw [BitVec.le_def, BitVec.lt_def, hend]
  constructor
  · rintro ⟨hle, hlt⟩
    exact ⟨a.toNat / 256 - start.toNat / 256, by omega, by omega⟩
  · rintro ⟨i, hi, ha⟩
    omega

/-- With a RAM of at most 2^21 bytes, `vm_map_ram` maps every range there are frames for, and
returns 0 and the range. -/
theorem map_range (memramsz memswpsz : Addr) (ramJunk swpJunk : Bool) (es : List Event)
    (s : Sys) (h : Lts.Reaches step (boot memramsz memswpsz ramJunk swpJunk) es s)
    (hram : memramsz.toNat ≤ 2 ^ 21) (p : Pid) (mm : Mm) (hmm : s.krnl.ownMm p = some mm)
    (start : Addr) (halign : start.toNat % 256 = 0) (n : Nat)
    (hpgn : start.toNat / 256 + n ≤ 2 ^ 45) (hn : n ≤ s.krnl.mram.freeFpList.fpns.length)
    (retRg : VmRg) :
    ∃ k' rg, s.krnl.vmMapRam p mm start n retRg = .ok (k', rg, 0) ∧
      s.krnl.Maps k' p (start.toNat / 256) (s.krnl.mram.freeFpList.fpns.take n) ∧
      rg.rgStart = start ∧ rg.rgEnd.toNat = start.toNat + n * 256 ∧
      ∀ a : Addr, (rg.rgStart ≤ a ∧ a < rg.rgEnd) ↔
        ∃ i < n, a.toNat / 256 = start.toNat / 256 + i := by
  have hsuffix := reach_ramFree h
  have hlen : (s.krnl.mram.freeFpList.fpns.take n).length = n := List.length_take_of_le hn
  obtain ⟨hend, hpages⟩ := range_pages halign hpgn
  have hfit : n < 2 ^ 23 := Nat.lt_of_le_of_lt hn (reach_wf h).krnl.free_lt
  refine ⟨_, _, Krnl.vmMapRam_enough hn hfit, ?_, rfl, hend, hpages⟩
  refine ⟨⟨mm, _, hmm, Krnl.setMm_self _ _ _, ?_⟩, ?_, (List.take_append_drop n _).symm, rfl, rfl,
    fun q hq => Krnl.setMm_of_ne _ _ _ hq⟩
  · refine Mm.mapFrames_maps (by rwa [hlen]) fun f hf => ?_
    exact initMemphy_fits (hsuffix.subset (List.mem_of_mem_take hf)) hram
  · refine ((List.take_sublist n _).trans hsuffix.sublist).nodup ?_
    rw [initMemphy_fpns]
    exact List.nodup_range

/-- Two pages at address 4096 for a process just loaded. -/
theorem map_range_two : ∃ s mm k' rg,
    Lts.Reaches step (boot 1024 512 true true) (loadOn 0 0) s ∧ s.krnl.ownMm 0 = some mm ∧
    s.krnl.vmMapRam 0 mm 4096 2 { rgStart := 0, rgEnd := 0 } = .ok (k', rg, 0) ∧
    s.krnl.Maps k' 0 16 [0, 1] := by
  obtain ⟨s, hs, _, hmm, _, hram, _⟩ := exec_loadOn 1024 512 true true
  have hreach := Lts.reaches_of_exec hs
  have hfree : s.krnl.mram.freeFpList.fpns = [0, 1, 2, 3] := by
    rw [hram]
    decide
  obtain ⟨k', rg, heq, hmaps, _⟩ := map_range 1024 512 true true _ s hreach (by decide) 0 _ hmm
    4096 (by decide) 2 (by decide) (by rw [hfree]; decide) { rgStart := 0, rgEnd := 0 }
  rw [hfree] at hmaps
  exact ⟨s, _, k', rg, hreach, hmm, heq, hmaps⟩

end SimpleOs
