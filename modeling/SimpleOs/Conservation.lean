/-
# `SimpleOs.Conservation` — when no frame is ever lost

`Conserved` sharpens `Owned`: the frames of each device are partitioned into
the free list and the frames that pages hold, and the replacement list of each
process names resident pages, each once.

Four steps of the code break it, and `conserveGuards` excludes exactly these:

  * a growth maps a frame whose number does not fit the 13 bit field, or maps
    over a page that holds a frame already;
  * a growth that fails takes the frames it did find and gives none back;
  * a fault saves the victim in a swap frame whose number does not fit 21 bits;
  * a MAP request clears the entry of a page that holds a frame.
-/
import SimpleOs.Owner

namespace SimpleOs

open Pool

/-! ## The invariant and its guards -/

/-- Every frame is free or held, by one page, and the pages to evict are resident. -/
structure Conserved (k : Krnl) : Prop where
  ram : Partition (ramOwner k) k.mram.freeFpList.fpns k.mram.numfp
  swp : Partition (swpOwner k) k.activeMswp.freeFpList.fpns k.activeMswp.numfp
  nodup : ∀ p mm, k.ownMm p = some mm → mm.fifoPgn.Nodup
  resident : ∀ p mm, k.ownMm p = some mm → ∀ v ∈ mm.fifoPgn, Resident (mm.pte v)

/-- The steps that lose no frame. -/
def conserveGuards : Guards where
  grow := fun ram mm n => (∀ f ∈ ram.freeFpList.fpns.take n, f < 2 ^ 13) ∧
    ∀ i < n, mm.pte (mm.sbrk.toNat / 256 + i) = 0
  starve := fun ram => ram.freeFpList.fpns = []
  fault := fun _ _ _ s => s < 2 ^ 21
  clear := fun mm addr n => ∀ m, Cleared addr n m → mm.pte m = 0
  grow_quiet := by
    intro ram mm mm' n hq h
    refine ⟨h.1, fun i hi => ?_⟩
    rw [hq.sbrk, hq.pte]
    exact h.2 i hi

/-- The invariant only depends on the entries, the replacement lists and the free lists. -/
theorem Conserved.setMm {k : Krnl} {p : Pid} {mm mm' : Mm} (h : Conserved k)
    (hmm : k.ownMm p = some mm) (hp : ∀ n, mm'.pte n = mm.pte n)
    (hf : mm'.fifoPgn <+: mm.fifoPgn) : Conserved (k.setMm p mm') where
  ram := by
    have hown : ramOwner (k.setMm p mm') = ramOwner k :=
      funext fun j => ramOwner_congr (fun _ => pte_setMm_same hmm hp j.1 j.2)
    rw [hown]
    exact h.ram
  swp := by
    have hown : swpOwner (k.setMm p mm') = swpOwner k :=
      funext fun j => swpOwner_congr (fun _ => pte_setMm_same hmm hp j.1 j.2)
    rw [hown]
    exact h.swp
  nodup := by
    intro q mm₁ hq
    by_cases hqp : q = p
    · subst hqp
      rw [Krnl.setMm_self] at hq
      cases hq
      exact (h.nodup q mm hmm).sublist hf.sublist
    · rw [Krnl.setMm_of_ne _ _ _ hqp] at hq
      exact h.nodup q mm₁ hq
  resident := by
    intro q mm₁ hq v hv
    by_cases hqp : q = p
    · subst hqp
      rw [Krnl.setMm_self] at hq
      cases hq
      rw [hp v]
      exact h.resident q mm hmm v (hf.subset hv)
    · rw [Krnl.setMm_of_ne _ _ _ hqp] at hq
      exact h.resident q mm₁ hq v hv

/-! ## Growing over unmapped pages -/

section Map
variable {k : Krnl} {p : Pid} {mm : Mm} {pgn : Nat}

/-- Handing out frames to unmapped pages, one page after the other, loses none. -/
theorem mapFrames_partition : ∀ (fs : List Nat) {k : Krnl} {mm : Mm} {pgn num : Nat}
    {rest : List Nat}, k.ownMm p = some mm → (∀ f ∈ fs, f < 2 ^ 13) →
    pgn + fs.length ≤ 2 ^ 45 → (∀ i < fs.length, mm.pte (pgn + i) = 0) →
    Partition (ramOwner k) (fs ++ rest) num →
    Partition (ramOwner (k.setMm p (mm.mapFrames pgn fs))) rest num := by
  intro fs
  induction fs with
  | nil =>
      intro k mm pgn num rest hmm _ _ _ h
      have hown : ramOwner (k.setMm p (mm.mapFrames pgn [])) = ramOwner k :=
        funext fun j => ramOwner_congr (fun _ => pte_setMm_same hmm (fun _ => rfl) j.1 j.2)
      rw [hown]
      exact h
  | cons f fs ih =>
      intro k mm pgn num rest hmm hlt hlen hz h
      rw [List.length_cons] at hlen hz
      have hnone : ramOwner k (p, pgn) = none :=
        ramOwner_zero (by rw [Krnl.pte_of hmm]; exact hz 0 (Nat.succ_pos _))
      obtain ⟨hself, hother⟩ := mapOne_ramOwner hmm (by omega : pgn < 2 ^ 45)
        (hlt f List.mem_cons_self)
      have hstep := h.give hnone hself hother
      have htail : ∀ i < fs.length,
          ((pteSetFpn mm pgn f).enlist pgn).pte (pgn + 1 + i) = 0 := by
        intro i hi
        have hne : ¬ PageTable.SamePage (pgn + 1 + i) pgn := fun hs => by
          have heq := hs.eq_of_lt (by omega) (by omega)
          omega
        rw [Mm.enlist_pte, pte_pteSetFpn, if_neg hne, Nat.add_assoc, Nat.add_comm 1 i]
        exact hz (i + 1) (Nat.succ_lt_succ hi)
      have hrec := ih (Krnl.setMm_self _ _ _) (fun g hg => hlt g (List.mem_cons_of_mem _ hg))
        (by omega : pgn + 1 + fs.length ≤ 2 ^ 45) htail hstep
      rwa [Krnl.setMm_setMm] at hrec

/-- The swap holdings do not notice frames mapped to unmapped pages. -/
theorem mapFrames_swpOwner_unmapped (hmm : k.ownMm p = some mm) {fs : List Nat}
    (hz : ∀ i < fs.length, mm.pte (pgn + i) = 0) (j : Pid × Nat) :
    swpOwner (k.setMm p (mm.mapFrames pgn fs)) j = swpOwner k j := by
  obtain ⟨q, m⟩ := j
  by_cases hq : q = p
  · subst hq
    by_cases hm : ∃ i < fs.length, PageTable.SamePage m (pgn + i)
    · have hold : mm.pte m = 0 := by
        obtain ⟨i, hi, hs⟩ := hm
        rw [pte_congr mm hs]
        exact hz i hi
      have hnew := Mm.mapFrames_resident fs mm pgn m (Or.inr hm)
      have hafter : swpOwner (k.setMm q (mm.mapFrames pgn fs)) (q, m) = none :=
        swpOwner_none (by rw [Krnl.pte_setMm]; exact hnew.not_swapped)
      have hbefore : swpOwner k (q, m) = none :=
        swpOwner_zero (by rw [Krnl.pte_of hmm]; exact hold)
      rw [hafter, hbefore]
    · apply swpOwner_congr
      intro _
      rw [Krnl.pte_setMm, Krnl.pte_of hmm]
      exact Mm.mapFrames_pte_other fs mm pgn m (fun i hi hs => hm ⟨i, hi, hs⟩)
  · exact swpOwner_congr (fun _ => Krnl.pte_setMm_of_ne k _ m hq)

/-- The replacement list after mapping unmapped pages: still resident pages, each once. -/
theorem mapFrames_fifo_resident {fs : List Nat} (hz : ∀ i < fs.length, mm.pte (pgn + i) = 0)
    (hn : mm.fifoPgn.Nodup) (hr : ∀ v ∈ mm.fifoPgn, Resident (mm.pte v)) :
    (mm.mapFrames pgn fs).fifoPgn.Nodup ∧
    ∀ v ∈ (mm.mapFrames pgn fs).fifoPgn, Resident ((mm.mapFrames pgn fs).pte v) := by
  have hnew : ∀ v, pgn ≤ v → v < pgn + fs.length → mm.pte v = 0 := by
    intro v h₁ h₂
    have hv := hz (v - pgn) (by omega)
    rwa [Nat.add_sub_cancel' h₁] at hv
  constructor
  · rw [Mm.mapFrames_fifoPgn]
    refine List.Nodup.append (List.nodup_reverse.mpr (List.nodup_range' 1 (Nat.one_pos))) hn ?_
    intro v hv hold
    rw [List.mem_reverse, List.mem_range'_1] at hv
    have hres := hr v hold
    rw [hnew v hv.1 hv.2] at hres
    exact zero_not_resident hres
  · intro v hv
    apply Mm.mapFrames_resident
    rcases Mm.mapFrames_fifo hv with hold | ⟨h₁, h₂⟩
    · exact Or.inl (hr v hold)
    · refine Or.inr ⟨v - pgn, by omega, ?_⟩
      rw [Nat.add_sub_cancel' h₁]
      exact PageTable.SamePage.refl v

end Map

/-! ## The invariant is stable -/

/-- A property of every process's structure when one structure was replaced. -/
theorem forall_own_setMm {k : Krnl} {p : Pid} {mm : Mm} {P : Mm → Prop} (hp : P mm)
    (h : ∀ q mm, k.ownMm q = some mm → P mm) :
    ∀ q mm', (k.setMm p mm).ownMm q = some mm' → P mm' := by
  intro q mm' hq
  by_cases hqp : q = p
  · subst hqp
    rw [Krnl.setMm_self] at hq
    cases hq
    exact hp
  · rw [Krnl.setMm_of_ne _ _ _ hqp] at hq
    exact h q mm' hq

theorem conserved_grow {k : Krnl} {p : Pid} {mm : Mm} {n : Nat} (h : Conserved k) (hw : k.Wf)
    (hmm : k.ownMm p = some mm) (hpos : 0 < n) (hn : n ≤ k.mram.freeFpList.fpns.length)
    (hg : conserveGuards.grow k.mram mm n) : Conserved (k.grow p mm n) := by
  obtain ⟨hlt, hz⟩ := hg
  have hlen := grow_pages_lt hw hmm hpos hn
  rw [← List.length_take_of_le hn] at hz
  obtain ⟨hnodup, hres⟩ := mapFrames_fifo_resident hz (h.nodup p mm hmm)
    (h.resident p mm hmm)
  have hram : ramOwner (k.grow p mm n) = ramOwner (k.setMm p (mm.mapFrames
      (mm.sbrk.toNat / 256) (k.mram.freeFpList.fpns.take n))) :=
    funext fun j => ramOwner_congr (fun _ => grow_pte k p mm n j.1 j.2)
  have hswp : swpOwner (k.grow p mm n) = swpOwner k := by
    funext j
    rw [← mapFrames_swpOwner_unmapped hmm hz j]
    exact swpOwner_congr (fun _ => grow_pte k p mm n j.1 j.2)
  constructor
  · rw [hram]
    refine mapFrames_partition _ hmm hlt hlen hz ?_
    have hold := h.ram
    rwa [← List.take_append_drop n k.mram.freeFpList.fpns] at hold
  · rw [hswp]
    exact h.swp
  · exact forall_own_setMm hnodup h.nodup
  · exact forall_own_setMm (P := fun mm => ∀ v ∈ mm.fifoPgn, Resident (mm.pte v)) hres h.resident

theorem conserved_fault {k : Krnl} {p : Pid} {mm : Mm} {pgn v s : Nat} {pgs rest : List Nat}
    (h : Conserved k) (hw : k.Wf) (hmm : k.ownMm p = some mm) (hpgn : pgn < 2 ^ 14)
    (hz : mm.pte pgn = 0) (hf : mm.fifoPgn = pgs ++ [v])
    (hs : k.activeMswp.freeFpList.fpns = s :: rest) (hlt : s < 2 ^ 21) :
    Conserved (k.fault p mm pgn v s pgs rest) := by
  have hmem : v ∈ mm.fifoPgn := by rw [hf]; simp
  have hfifo := (hw.own p mm hmm).fifo
  have hv := hfifo v hmem
  have hres := h.resident p mm hmm v hmem
  have hpgn' : pgn < 2 ^ 45 := by omega
  obtain ⟨hown, hnone, hi, hj, ho⟩ := fault_ramOwner s pgs rest hmm
    hpgn' hv hz hres
  obtain ⟨hsn, hsi, hso⟩ := fault_swpOwner pgs rest hmm hpgn' hv hz hres hlt
  have hnodup := h.nodup p mm hmm
  rw [hf] at hnodup
  obtain ⟨hpgs, _, hvpgs⟩ := List.nodup_append.mp hnodup
  have hold : ∀ u ∈ pgs, Resident (mm.pte u) ∧ u ≠ v ∧ u ≠ pgn := by
    intro u hu
    have hru := h.resident p mm hmm u (by rw [hf]; exact List.mem_append_left _ hu)
    refine ⟨hru, fun huv => hvpgs u hu v List.mem_cons_self huv, fun hup => ?_⟩
    rw [hup, hz] at hru
    exact zero_not_resident hru
  have hevict : (mm.evict pgn v s pgs).fifoPgn.Nodup ∧
      ∀ u ∈ (mm.evict pgn v s pgs).fifoPgn, Resident ((mm.evict pgn v s pgs).pte u) := by
    rw [Mm.evict_fifoPgn]
    refine ⟨List.nodup_cons.mpr ⟨fun hu => (hold pgn hu).2.2 rfl, hpgs⟩, ?_⟩
    intro u hu
    rcases List.mem_cons.mp hu with rfl | hu
    · exact (Mm.evict_pte_target mm u u v s pgs (PageTable.SamePage.refl u)).1
    · obtain ⟨hru, huv, hup⟩ := hold u hu
      have hu' := hfifo u (by rw [hf]; exact List.mem_append_left _ hu)
      rw [Mm.evict_pte_other mm u pgn v s pgs (fun hs => hup (hs.eq_of_lt hu' hpgn'))
        (fun hs => huv (hs.eq_of_lt hu' hv))]
      exact hru
  have hswp := h.swp
  rw [hs] at hswp
  exact ⟨h.ram.move hown hnone hi hj ho, hswp.give hsn hsi hso,
    forall_own_setMm hevict.1 h.nodup,
    forall_own_setMm (P := fun mm => ∀ v ∈ mm.fifoPgn, Resident (mm.pte v)) hevict.2 h.resident⟩

theorem conserved_starve {k : Krnl} {p : Pid} {mm : Mm} {sz : Addr} (h : Conserved k)
    (hmm : k.ownMm p = some mm) (hempty : k.mram.freeFpList.fpns = []) :
    Conserved (k.starve p mm sz) := by
  have hram : ramOwner (k.starve p mm sz) = ramOwner k :=
    funext fun j => ramOwner_congr (fun _ => starve_pte hmm j.1 j.2)
  have hswp : swpOwner (k.starve p mm sz) = swpOwner k :=
    funext fun j => swpOwner_congr (fun _ => starve_pte hmm j.1 j.2)
  constructor
  · rw [hram]
    have hold := h.ram
    rwa [hempty] at hold
  · rw [hswp]
    exact h.swp
  · exact forall_own_setMm (h.nodup p mm hmm) h.nodup
  · exact forall_own_setMm (P := fun mm => ∀ v ∈ mm.fifoPgn, Resident (mm.pte v))
      (h.resident p mm hmm) h.resident

theorem conserved_closed (p : Pid) : Closed conserveGuards p Conserved where
  quiet := fun h _ hmm hq => h.setMm hmm hq.pte hq.fifo
  grow := fun h hw hmm hpos hn hg => conserved_grow h hw hmm hpos hn hg
  starve := fun h _ hmm hg => conserved_starve h hmm hg
  fault := fun h hw hmm hpgn hz hf hs hg => conserved_fault h hw hmm hpgn hz hf hs hg
  clear := by
    intro k mm addr n h _ hmm hg
    refine h.setMm hmm (fun m => ?_) ?_
    · rcases pte_vmapPgdMemset mm addr n m with ⟨hc, h0⟩ | ⟨_, h0⟩
      · rw [h0, hg m hc]
      · exact h0
    · exact (vmapPgdMemset_frame mm addr n).2.2 ▸ List.prefix_refl _
  ram := fun h _ => ⟨h.ram, h.swp, h.nodup, h.resident⟩
  swp := fun h _ => ⟨h.ram, h.swp, h.nodup, h.resident⟩

theorem conserved_stable : Stable conserveGuards Conserved where
  moves := conserved_closed
  create := by
    intro k p symrgtbl h _ hnone
    have hram : ramOwner (k.setMm p (initMm symrgtbl)) = ramOwner k :=
      funext fun j => ramOwner_congr (fun _ => pte_create hnone j.1 j.2)
    have hswp : swpOwner (k.setMm p (initMm symrgtbl)) = swpOwner k :=
      funext fun j => swpOwner_congr (fun _ => pte_create hnone j.1 j.2)
    constructor
    · rw [hram]
      exact h.ram
    · rw [hswp]
      exact h.swp
    · exact forall_own_setMm List.nodup_nil h.nodup
    · exact forall_own_setMm (P := fun mm => ∀ v ∈ mm.fifoPgn, Resident (mm.pte v))
        (fun v hv => nomatch hv) h.resident
  ptr := fun h _ _ => ⟨h.ram, h.swp, h.nodup, h.resident⟩
  sched := fun h _ => ⟨h.ram, h.swp, h.nodup, h.resident⟩

/-! ## Runs -/

/-- Frame `f` is on the free list, once, and nobody holds it, or it is off the list and exactly
one page holds it. -/
def OnePlace (own : Pid × Nat → Option Nat) (free : List Nat) (f : Nat) : Prop :=
  (free.count f = 1 ∧ ∀ i, own i ≠ some f) ∨ (free.count f = 0 ∧ ∃! i, own i = some f)

/-- Every frame of RAM and every frame of the active swap device is in one place. -/
structure FramesInOnePlace (memramsz memswpsz : Addr) (ramJunk swpJunk : Bool) (s : Sys) :
    Prop where
  ram : ∀ f < (boot memramsz memswpsz ramJunk swpJunk).krnl.mram.numfp,
    OnePlace (ramOwner s.krnl) s.krnl.mram.freeFpList.fpns f
  swp : ∀ f < (boot memramsz memswpsz ramJunk swpJunk).krnl.activeMswp.numfp,
    OnePlace (swpOwner s.krnl) s.krnl.activeMswp.freeFpList.fpns f

theorem reach_conserved {memramsz memswpsz : Addr} {ramJunk swpJunk : Bool} {es : List Event}
    {s : Sys} {ok : Sys → Event → Prop} (hok : ∀ s e, ok s e → conserveGuards.Ok s e)
    (h : Lts.Run step ok (boot memramsz memswpsz ramJunk swpJunk) es s) : Conserved s.krnl :=
  conserved_stable.reach hok
    ⟨boot_ramPartition _ _ _ _, boot_swpPartition _ _ _ _, fun _ _ h => (nomatch h),
      fun _ _ h => nomatch h⟩ h

/-- In a run whose steps keep to the guards no frame is lost and none is in two places. -/
theorem frames_in_one_place {memramsz memswpsz : Addr} {ramJunk swpJunk : Bool} {es : List Event}
    {s : Sys} (h : Lts.Run step conserveGuards.Ok (boot memramsz memswpsz ramJunk swpJunk) es s) :
    FramesInOnePlace memramsz memswpsz ramJunk swpJunk s := by
  have hc := reach_conserved (fun _ _ hok => hok) h
  obtain ⟨hram, hswp⟩ := reach_numfp h
  constructor
  · intro f hf
    rw [← hram] at hf
    exact hc.ram.exactlyOne hf
  · intro f hf
    rw [← hswp] at hf
    exact hc.swp.exactlyOne hf

/-- One page allocated from a RAM of two frames. -/
theorem frames_in_one_place_alloc : ∃ s,
    Lts.Reaches step (boot 512 512 true true) (loadOn 0 1 ++ [.run 0 ⟨.alloc, 256, 0, 0, 0⟩ 0]) s ∧
    FramesInOnePlace 512 512 true true s := by
  obtain ⟨s', hs'⟩ := Option.isSome_iff_exists.mp
    (by decide +kernel : (Lts.exec step (boot 512 512 true true)
      (loadOn 0 1 ++ [.run 0 ⟨.alloc, 256, 0, 0, 0⟩ 0])).isSome)
  have hrun : Lts.Run step conserveGuards.Ok _ _ s' := run_loadOn (loadOn_ok _) hs' (fun s hs => by
    have hfree : s.krnl.mram.freeFpList.fpns = [0, 1] :=
      Lts.exec_map (g := fun s => s.krnl.mram.freeFpList.fpns) hs rfl
    refine Guards.ok_alloc
      (Lts.exec_map (g := fun s => s.cpu 0) hs rfl)
      (Lts.exec_map (g := fun s => s.krnl.ownMm 1) (a := some (initMm fun _ => ⟨0, 0⟩)) hs rfl)
      rfl (fun _ => ?_)
    rw [Guards.AllowsGrow, if_pos (by rw [hfree]; decide)]
    exact ⟨by rw [hfree]; decide, fun i _ => initMm_pte _ _⟩)
  exact ⟨s', hrun.reaches, frames_in_one_place hrun⟩

/-- Three pages requested from a RAM of two frames: the request fails, and frame 0 is neither free
nor held. -/
theorem failed_alloc_loses_frame : ∃ s,
    Lts.Reaches step (boot 512 512 true true) (loadOn 0 1 ++ [.run 0 ⟨.alloc, 768, 0, 0, 0⟩ 0]) s ∧
    ¬ FramesInOnePlace 512 512 true true s := by
  obtain ⟨s, hs⟩ := Option.isSome_iff_exists.mp
    (by decide +kernel : (Lts.exec step (boot 512 512 true true)
      (loadOn 0 1 ++ [.run 0 ⟨.alloc, 768, 0, 0, 0⟩ 0])).isSome)
  have hreach := Lts.reaches_of_exec hs
  have hfree : s.krnl.mram.freeFpList.fpns = [] :=
    Lts.exec_map (g := fun s => s.krnl.mram.freeFpList.fpns) hs rfl
  have hpgd : (s.krnl.ownMm 1).map (·.pgd) = some PageTable.init :=
    Lts.exec_map (g := fun s => (s.krnl.ownMm 1).map (·.pgd)) hs rfl
  have hzero : ∀ p n, s.krnl.pte p n = 0 := by
    intro p n
    rw [Krnl.pte]
    cases hmm : s.krnl.ownMm p with
    | none => rfl
    | some mm =>
        obtain ⟨_, _, hmem⟩ := reach_created hreach (by rw [hmm]; rfl)
        obtain ⟨rfl, _⟩ : p = 1 ∧ _ := by simpa [loadOn] using hmem
        rw [hmm] at hpgd
        simp only [Mm.pte, Option.some.inj hpgd, PageTable.entry_init]
        rfl
  refine ⟨s, hreach, fun h => ?_⟩
  rcases h.ram 0 (by decide +kernel) with ⟨hone, _⟩ | ⟨_, ⟨p, n⟩, hown, _⟩
  · rw [hfree] at hone
    cases hone
  · simp only [ramOwner_zero (hzero p n)] at hown
    cases hown

end SimpleOs
