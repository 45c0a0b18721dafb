/-
# `SimpleOs.Owner` — which page holds which frame

`ramOwner` and `swpOwner` read off the page tables of all processes which RAM
and which swap frame each page holds, by the decoded entry.  Page numbers are
counted below 2^45, where distinct numbers have distinct slots.

`Owned` says that no frame is held twice and no held frame is free.  It is a
stable property under the guards `ownGuards`: only frames that fit the 13 bit
field are mapped, the victim of a fault is resident, and the swap frame of a
fault fits the 21 bit field.
-/
import SimpleOs.Lib.Pool
import SimpleOs.Reach

namespace SimpleOs

open Pool

/-! ## Owners -/

/-- The entry of page `n` of process `p`; zero without an `own_mm`. -/
def Krnl.pte (k : Krnl) (p : Pid) (n : Nat) : BitVec 32 :=
  match k.ownMm p with
  | none => 0
  | some mm => mm.pte n

/-- The RAM frame a page holds. -/
def ramOwner (k : Krnl) (i : Pid × Nat) : Option Nat :=
  if i.2 < 2 ^ 45 ∧ Resident (k.pte i.1 i.2) then some (pagingFpn (k.pte i.1 i.2)) else none

/-- The swap frame a page holds. -/
def swpOwner (k : Krnl) (i : Pid × Nat) : Option Nat :=
  if i.2 < 2 ^ 45 ∧ Swapped (k.pte i.1 i.2) then some (pagingSwp (k.pte i.1 i.2)) else none

theorem Krnl.pte_of {k : Krnl} {p : Pid} {mm : Mm} (h : k.ownMm p = some mm) (n : Nat) :
    k.pte p n = mm.pte n := by
  rw [Krnl.pte, h]

@[simp] theorem Krnl.pte_setMm (k : Krnl) (p : Pid) (mm : Mm) (n : Nat) :
    (k.setMm p mm).pte p n = mm.pte n := by
  rw [Krnl.pte, Krnl.setMm_self]

@[simp] theorem Krnl.pte_setMm_of_ne (k : Krnl) {p q : Pid} (mm : Mm) (n : Nat) (h : q ≠ p) :
    (k.setMm p mm).pte q n = k.pte q n := by
  rw [Krnl.pte, Krnl.setMm_of_ne _ _ _ h, Krnl.pte]

section Owners
variable {k k' : Krnl} {p : Pid} {n f : Nat}

theorem ramOwner_some : ramOwner k (p, n) = some f ↔
    n < 2 ^ 45 ∧ Resident (k.pte p n) ∧ pagingFpn (k.pte p n) = f := by
  rw [ramOwner]
  split
  next h => simp only [Option.some.injEq]; exact ⟨fun hf => ⟨h.1, h.2, hf⟩, fun hf => hf.2.2⟩
  next h => exact ⟨fun hf => (nomatch hf), fun hf => absurd ⟨hf.1, hf.2.1⟩ h⟩

theorem swpOwner_some : swpOwner k (p, n) = some f ↔
    n < 2 ^ 45 ∧ Swapped (k.pte p n) ∧ pagingSwp (k.pte p n) = f := by
  rw [swpOwner]
  split
  next h => simp only [Option.some.injEq]; exact ⟨fun hf => ⟨h.1, h.2, hf⟩, fun hf => hf.2.2⟩
  next h => exact ⟨fun hf => (nomatch hf), fun hf => absurd ⟨hf.1, hf.2.1⟩ h⟩

theorem ramOwner_none (h : ¬ Resident (k.pte p n)) : ramOwner k (p, n) = none :=
  if_neg (fun hc => h hc.2)

theorem swpOwner_none (h : ¬ Swapped (k.pte p n)) : swpOwner k (p, n) = none :=
  if_neg (fun hc => h hc.2)

theorem ramOwner_congr {i : Pid × Nat} (h : i.2 < 2 ^ 45 → k'.pte i.1 i.2 = k.pte i.1 i.2) :
    ramOwner k' i = ramOwner k i := by
  rw [ramOwner, ramOwner]
  by_cases hi : i.2 < 2 ^ 45
  · rw [h hi]
  · rw [if_neg (fun hc => hi hc.1), if_neg (fun hc => hi hc.1)]

theorem swpOwner_congr {i : Pid × Nat} (h : i.2 < 2 ^ 45 → k'.pte i.1 i.2 = k.pte i.1 i.2) :
    swpOwner k' i = swpOwner k i := by
  rw [swpOwner, swpOwner]
  by_cases hi : i.2 < 2 ^ 45
  · rw [h hi]
  · rw [if_neg (fun hc => hi hc.1), if_neg (fun hc => hi hc.1)]

end Owners

/-- Zero holds nothing. -/
theorem zero_not_resident : ¬ Resident (0 : BitVec 32) :=
  (not_resident_of_not_present zero_not_present).1

theorem zero_not_swapped : ¬ Swapped (0 : BitVec 32) :=
  (not_resident_of_not_present zero_not_present).2

theorem ramOwner_zero {k : Krnl} {p : Pid} {n : Nat} (h : k.pte p n = 0) :
    ramOwner k (p, n) = none :=
  ramOwner_none (by rw [h]; exact zero_not_resident)

theorem swpOwner_zero {k : Krnl} {p : Pid} {n : Nat} (h : k.pte p n = 0) :
    swpOwner k (p, n) = none :=
  swpOwner_none (by rw [h]; exact zero_not_swapped)

/-! ## What the moves do to the owners -/

section Moves
variable {k : Krnl} {p : Pid} {mm : Mm}

/-- A structure with the same entries: nobody's holdings change. -/
theorem pte_setMm_same {mm' : Mm} (hmm : k.ownMm p = some mm) (h : ∀ n, mm'.pte n = mm.pte n)
    (q : Pid) (n : Nat) : (k.setMm p mm').pte q n = k.pte q n := by
  by_cases hq : q = p
  · subst hq
    rw [Krnl.pte_setMm, h n, Krnl.pte_of hmm]
  · exact Krnl.pte_setMm_of_ne k mm' n hq

/-- Mapping one frame that fits the field: page `pgn` holds it, everybody else what he held. -/
theorem mapOne_ramOwner {pgn f : Nat} (hmm : k.ownMm p = some mm) (hpgn : pgn < 2 ^ 45)
    (hf : f < 2 ^ 13) :
    ramOwner (k.setMm p ((pteSetFpn mm pgn f).enlist pgn)) (p, pgn) = some f ∧
    ∀ j, j ≠ (p, pgn) →
      ramOwner (k.setMm p ((pteSetFpn mm pgn f).enlist pgn)) j = ramOwner k j := by
  constructor
  · rw [ramOwner_some, Krnl.pte_setMm, Mm.enlist_pte, pte_pteSetFpn,
      if_pos (PageTable.SamePage.refl pgn), pagingFpn_fpnEntry]
    exact ⟨hpgn, resident_fpnEntry _ _, Nat.mod_eq_of_lt hf⟩
  · rintro ⟨q, m⟩ hj
    apply ramOwner_congr
    intro hm
    by_cases hq : q = p
    · subst hq
      have hne : ¬ PageTable.SamePage m pgn := fun hs => hj (by rw [hs.eq_of_lt hm hpgn])
      rw [Krnl.pte_setMm, Mm.enlist_pte, pte_pteSetFpn, if_neg hne, Krnl.pte_of hmm]
    · exact Krnl.pte_setMm_of_ne k _ m hq

/-- Mapping a frame to a page that holds no swap frame leaves the swap holdings alone; over a
swapped page it drops one. -/
theorem mapOne_swpOwner {pgn f : Nat} (hmm : k.ownMm p = some mm) (hpgn : pgn < 2 ^ 45)
    (j : Pid × Nat) :
    swpOwner (k.setMm p ((pteSetFpn mm pgn f).enlist pgn)) j =
      if j = (p, pgn) then none else swpOwner k j := by
  obtain ⟨q, m⟩ := j
  by_cases hj : (q, m) = (p, pgn)
  · rw [if_pos hj]
    obtain ⟨rfl, rfl⟩ := Prod.mk.inj hj
    apply swpOwner_none
    rw [Krnl.pte_setMm, Mm.enlist_pte, pte_pteSetFpn, if_pos (PageTable.SamePage.refl m)]
    exact (resident_fpnEntry _ _).not_swapped
  · rw [if_neg hj]
    apply swpOwner_congr
    intro hm
    by_cases hq : q = p
    · subst hq
      have hne : ¬ PageTable.SamePage m pgn := fun hs => hj (by rw [hs.eq_of_lt hm hpgn])
      rw [Krnl.pte_setMm, Mm.enlist_pte, pte_pteSetFpn, if_neg hne, Krnl.pte_of hmm]
    · exact Krnl.pte_setMm_of_ne k _ m hq

section Fault
variable {pgn v s : Nat} {pgs rest : List Nat}

theorem fault_pte_of_ne {q : Pid} (hq : q ≠ p) (n : Nat) :
    (k.fault p mm pgn v s pgs rest).pte q n = k.pte q n := by
  rw [Krnl.fault, Krnl.pte_setMm_of_ne _ _ _ hq]
  rfl

/-- The entries of the faulting process. -/
theorem fault_pte (rest : List Nat) (n : Nat) :
    (k.fault p mm pgn v s pgs rest).pte p n = (mm.evict pgn v s pgs).pte n := by
  rw [Krnl.fault, Krnl.pte_setMm]

/-- The frame of a resident victim passes to the faulting page. -/
theorem fault_ramOwner (s : Nat) (pgs rest : List Nat) (hmm : k.ownMm p = some mm)
    (hpgn : pgn < 2 ^ 45) (hv : v < 2 ^ 45) (hz : mm.pte pgn = 0) (hres : Resident (mm.pte v)) :
    ramOwner k (p, v) = some (pagingFpn (mm.pte v)) ∧
    ramOwner k (p, pgn) = none ∧
    ramOwner (k.fault p mm pgn v s pgs rest) (p, v) = none ∧
    ramOwner (k.fault p mm pgn v s pgs rest) (p, pgn) = some (pagingFpn (mm.pte v)) ∧
    ∀ j, j ≠ (p, v) → j ≠ (p, pgn) →
      ramOwner (k.fault p mm pgn v s pgs rest) j = ramOwner k j := by
  have hne : ¬ PageTable.SamePage v pgn := by
    intro hs
    rw [pte_congr mm hs, hz] at hres
    exact zero_not_resident hres
  refine ⟨?_, ?_, ?_, ?_, ?_⟩
  · rw [ramOwner_some, Krnl.pte_of hmm]
    exact ⟨hv, hres, rfl⟩
  · apply ramOwner_none
    rw [Krnl.pte_of hmm, hz]
    exact zero_not_resident
  · apply ramOwner_none
    rw [fault_pte]
    exact fun hr => hr.not_swapped
      (Mm.evict_pte_victim mm v pgn v s pgs hne (PageTable.SamePage.refl v)).1
  · rw [ramOwner_some, fault_pte]
    exact ⟨hpgn, Mm.evict_pte_target mm pgn pgn v s pgs (PageTable.SamePage.refl pgn)⟩
  · rintro ⟨q, m⟩ hjv hjp
    apply ramOwner_congr
    intro hm
    by_cases hq : q = p
    · subst hq
      have h₁ : ¬ PageTable.SamePage m pgn := fun hs => hjp (by rw [hs.eq_of_lt hm hpgn])
      have h₂ : ¬ PageTable.SamePage m v := fun hs => hjv (by rw [hs.eq_of_lt hm hv])
      rw [fault_pte, Mm.evict_pte_other mm m pgn v s pgs h₁ h₂, Krnl.pte_of hmm]
    · exact fault_pte_of_ne hq m

/-- The victim of a fault gets the swap frame, if it fits the field. -/
theorem fault_swpOwner (pgs rest : List Nat) (hmm : k.ownMm p = some mm) (hpgn : pgn < 2 ^ 45)
    (hv : v < 2 ^ 45) (hz : mm.pte pgn = 0) (hres : Resident (mm.pte v)) (hs : s < 2 ^ 21) :
    swpOwner k (p, v) = none ∧
    swpOwner (k.fault p mm pgn v s pgs rest) (p, v) = some s ∧
    ∀ j, j ≠ (p, v) → swpOwner (k.fault p mm pgn v s pgs rest) j = swpOwner k j := by
  have hne : ¬ PageTable.SamePage v pgn := by
    intro hs
    rw [pte_congr mm hs, hz] at hres
    exact zero_not_resident hres
  refine ⟨?_, ?_, ?_⟩
  · apply swpOwner_none
    rw [Krnl.pte_of hmm]
    exact hres.not_swapped
  · rw [swpOwner_some, fault_pte]
    obtain ⟨hsw, hoff⟩ := Mm.evict_pte_victim mm v pgn v s pgs hne (PageTable.SamePage.refl v)
    exact ⟨hv, hsw, by rw [hoff, Nat.mod_eq_of_lt hs]⟩
  · rintro ⟨q, m⟩ hjv
    by_cases hq : q = p
    · subst hq
      by_cases hmp : m = pgn
      · -- the faulting page held no swap frame and is resident now
        subst hmp
        rw [swpOwner_none, swpOwner_none]
        · rw [Krnl.pte_of hmm, hz]
          exact zero_not_swapped
        · rw [fault_pte]
          exact (Mm.evict_pte_target mm m m v s pgs (PageTable.SamePage.refl m)).1.not_swapped
      · apply swpOwner_congr
        intro hm
        have h₁ : ¬ PageTable.SamePage m pgn := fun hs => hmp (hs.eq_of_lt hm hpgn)
        have h₂ : ¬ PageTable.SamePage m v := fun hs => hjv (by rw [hs.eq_of_lt hm hv])
        rw [fault_pte, Mm.evict_pte_other mm m pgn v s pgs h₁ h₂, Krnl.pte_of hmm]
    · exact swpOwner_congr (fun _ => fault_pte_of_ne hq m)

end Fault

/-- Clearing can only take holdings away. -/
theorem clear_owner {addr : Addr} {n : Int} (hmm : k.ownMm p = some mm) (j : Pid × Nat) :
    (ramOwner (k.setMm p (vmapPgdMemset mm addr n)) j = ramOwner k j ∨
      ramOwner (k.setMm p (vmapPgdMemset mm addr n)) j = none) ∧
    (swpOwner (k.setMm p (vmapPgdMemset mm addr n)) j = swpOwner k j ∨
      swpOwner (k.setMm p (vmapPgdMemset mm addr n)) j = none) := by
  obtain ⟨q, m⟩ := j
  by_cases hq : q = p
  · subst hq
    rcases pte_vmapPgdMemset mm addr n m with ⟨_, h0⟩ | ⟨_, h0⟩
    · refine ⟨Or.inr (ramOwner_none ?_), Or.inr (swpOwner_none ?_)⟩
      · rw [Krnl.pte_setMm, h0]; exact zero_not_resident
      · rw [Krnl.pte_setMm, h0]; exact zero_not_swapped
    · have heq : (k.setMm q (vmapPgdMemset mm addr n)).pte q m = k.pte q m := by
        rw [Krnl.pte_setMm, h0, Krnl.pte_of hmm]
      exact ⟨Or.inl (ramOwner_congr (fun _ => heq)), Or.inl (swpOwner_congr (fun _ => heq))⟩
  · have heq := Krnl.pte_setMm_of_ne k (vmapPgdMemset mm addr n) m hq
    exact ⟨Or.inl (ramOwner_congr (fun _ => heq)), Or.inl (swpOwner_congr (fun _ => heq))⟩

/-- A new process holds nothing. -/
theorem pte_create {symrgtbl : Nat → VmRg} (hnone : k.ownMm p = none) (q : Pid) (n : Nat) :
    (k.setMm p (initMm symrgtbl)).pte q n = k.pte q n := by
  by_cases hq : q = p
  · subst hq
    rw [Krnl.pte_setMm, initMm_pte, Krnl.pte, hnone]
  · exact Krnl.pte_setMm_of_ne k _ n hq

end Moves

/-! ## No frame in two places -/

/-- No RAM frame and no swap frame is held twice, and no held frame is free. -/
structure Owned (k : Krnl) : Prop where
  ram : Exclusive (ramOwner k) k.mram.freeFpList.fpns k.mram.numfp
  swp : Exclusive (swpOwner k) k.activeMswp.freeFpList.fpns k.activeMswp.numfp

/-- The guards under which ownership stays exclusive. -/
def ownGuards : Guards where
  grow := fun ram _ n => ∀ f ∈ ram.freeFpList.fpns.take n, f < 2 ^ 13
  starve := fun _ => True
  fault := fun mm _ v s => Resident (mm.pte v) ∧ s < 2 ^ 21
  clear := fun _ _ _ => True
  grow_quiet := fun _ h => h

/-- The owners only depend on the entries. -/
theorem Owned.congr {k k' : Krnl} (h : Owned k) (hp : ∀ q n, k'.pte q n = k.pte q n)
    (hr : k'.mram.freeFpList.fpns = k.mram.freeFpList.fpns) (hrn : k'.mram.numfp = k.mram.numfp)
    (hs : k'.activeMswp.freeFpList.fpns = k.activeMswp.freeFpList.fpns)
    (hsn : k'.activeMswp.numfp = k.activeMswp.numfp) : Owned k' where
  ram := by
    rw [hr, hrn]
    exact h.ram.drop (fun j => Or.inl (ramOwner_congr (fun _ => hp j.1 j.2)))
  swp := by
    rw [hs, hsn]
    exact h.swp.drop (fun j => Or.inl (swpOwner_congr (fun _ => hp j.1 j.2)))

/-- Handing out a run of frames, one page after the other. -/
theorem mapFrames_exclusive : ∀ (fs : List Nat) {k : Krnl} {p : Pid} {mm : Mm} {pgn num : Nat}
    {rest : List Nat}, k.ownMm p = some mm → (∀ f ∈ fs, f < 2 ^ 13) →
    pgn + fs.length ≤ 2 ^ 45 → Exclusive (ramOwner k) (fs ++ rest) num →
    Exclusive (ramOwner (k.setMm p (mm.mapFrames pgn fs))) rest num := by
  intro fs
  induction fs with
  | nil =>
      intro k p mm pgn num rest hmm _ _ h
      exact h.drop (fun j => Or.inl (ramOwner_congr (fun _ =>
        pte_setMm_same hmm (fun _ => rfl) j.1 j.2)))
  | cons f fs ih =>
      intro k p mm pgn num rest hmm hlt hlen h
      rw [List.length_cons] at hlen
      obtain ⟨hself, hother⟩ := mapOne_ramOwner hmm (by omega : pgn < 2 ^ 45)
        (hlt f List.mem_cons_self)
      have hstep := h.give hself hother
      have hrec := ih (Krnl.setMm_self _ _ _) (fun g hg => hlt g (List.mem_cons_of_mem _ hg))
        (by omega : pgn + 1 + fs.length ≤ 2 ^ 45) hstep
      rwa [Krnl.setMm_setMm] at hrec

/-- Mapping frames gives no swap frame to anybody. -/
theorem mapFrames_swpOwner : ∀ (fs : List Nat) {k : Krnl} {p : Pid} {mm : Mm} {pgn : Nat},
    k.ownMm p = some mm → pgn + fs.length ≤ 2 ^ 45 → ∀ j,
    swpOwner (k.setMm p (mm.mapFrames pgn fs)) j = swpOwner k j ∨
    swpOwner (k.setMm p (mm.mapFrames pgn fs)) j = none := by
  intro fs
  induction fs with
  | nil =>
      intro k p mm pgn hmm _ j
      exact Or.inl (swpOwner_congr (fun _ => pte_setMm_same hmm (fun _ => rfl) j.1 j.2))
  | cons f fs ih =>
      intro k p mm pgn hmm hlen j
      rw [List.length_cons] at hlen
      have hrec := ih (k := k.setMm p ((pteSetFpn mm pgn f).enlist pgn)) (Krnl.setMm_self _ _ _)
        (by omega : pgn + 1 + fs.length ≤ 2 ^ 45) j
      rw [Krnl.setMm_setMm, mapOne_swpOwner hmm (by omega)] at hrec
      rcases hrec with hrec | hrec
      · by_cases hj : j = (p, pgn)
        · rw [if_pos hj] at hrec
          exact Or.inr hrec
        · rw [if_neg hj] at hrec
          exact Or.inl hrec
      · exact Or.inr hrec

/-- The pages a growth maps are below 2^45. -/
theorem grow_pages_lt {k : Krnl} {p : Pid} {mm : Mm} {n : Nat} (hw : k.Wf)
    (hmm : k.ownMm p = some mm) (hpos : 0 < n) (hn : n ≤ k.mram.freeFpList.fpns.length) :
    mm.sbrk.toNat / 256 + (k.mram.freeFpList.fpns.take n).length ≤ 2 ^ 45 := by
  obtain ⟨_, hle, hcap⟩ := (hw.own p mm hmm).sbrk_bound hw.ram hpos hn
  rw [List.length_take_of_le hn]
  omega

theorem grow_pte (k : Krnl) (p : Pid) (mm : Mm) (n : Nat) (q : Pid) (m : Nat) :
    (k.grow p mm n).pte q m = (k.setMm p (mm.mapFrames (mm.sbrk.toNat / 256)
      (k.mram.freeFpList.fpns.take n))).pte q m := by
  by_cases hq : q = p
  · subst hq
    rw [Krnl.grow, Krnl.moveBrk, Krnl.pte_setMm, Krnl.pte_setMm]
    rfl
  · rw [Krnl.grow, Krnl.moveBrk, Krnl.pte_setMm_of_ne _ _ _ hq, Krnl.pte_setMm_of_ne _ _ _ hq]
    rfl

theorem starve_pte {k : Krnl} {p : Pid} {mm : Mm} {sz : Addr} (hmm : k.ownMm p = some mm)
    (q : Pid) (m : Nat) : (k.starve p mm sz).pte q m = k.pte q m := by
  by_cases hq : q = p
  · subst hq
    rw [Krnl.starve, Krnl.moveBrk, Krnl.pte_setMm, Krnl.pte_of hmm]
    rfl
  · rw [Krnl.starve, Krnl.moveBrk, Krnl.pte_setMm_of_ne _ _ _ hq]
    rfl

theorem owned_closed (p : Pid) : Closed ownGuards p Owned where
  quiet := fun h _ hmm hq => h.congr (pte_setMm_same hmm hq.pte) rfl rfl rfl rfl
  grow := by
    intro k mm n h hw hmm hpos hn hg
    have hlen := grow_pages_lt hw hmm hpos hn
    constructor
    · have hram := h.ram
      rw [← List.take_append_drop n k.mram.freeFpList.fpns] at hram
      exact (mapFrames_exclusive _ hmm hg hlen hram).drop
        (fun j => Or.inl (ramOwner_congr (fun _ => grow_pte k p mm n j.1 j.2)))
    · refine (h.swp.drop (mapFrames_swpOwner _ hmm hlen)).drop
        (fun j => Or.inl (swpOwner_congr (fun _ => grow_pte k p mm n j.1 j.2)))
  starve := by
    intro k mm sz h _ hmm _
    exact ⟨h.ram.leakAll.drop (fun j => Or.inl (ramOwner_congr (fun _ => starve_pte hmm j.1 j.2))),
      h.swp.drop (fun j => Or.inl (swpOwner_congr (fun _ => starve_pte hmm j.1 j.2)))⟩
  fault := by
    intro k mm pgn v s pgs rest h hw hmm hpgn hz hf hs hg
    have hv : v < 2 ^ 45 := (hw.own p mm hmm).fifo v (by rw [hf]; simp)
    obtain ⟨hown, _, hi, hj, ho⟩ := fault_ramOwner s pgs rest hmm
      (by omega : pgn < 2 ^ 45) hv hz hg.1
    obtain ⟨_, hsi, hso⟩ := fault_swpOwner pgs rest hmm
      (by omega : pgn < 2 ^ 45) hv hz hg.1 hg.2
    have hswp := h.swp
    rw [hs] at hswp
    exact ⟨h.ram.move hown hi hj ho, hswp.give hsi hso⟩
  clear := by
    intro k mm addr n h _ hmm _
    exact ⟨h.ram.drop (fun j => (clear_owner hmm j).1), h.swp.drop (fun j => (clear_owner hmm j).2)⟩
  ram := fun h _ => h.congr (fun _ _ => rfl) rfl rfl rfl rfl
  swp := fun h _ => h.congr (fun _ _ => rfl) rfl rfl rfl rfl

theorem owned_stable : Stable ownGuards Owned where
  moves := owned_closed
  create := fun h _ hnone => h.congr (pte_create hnone) rfl rfl rfl rfl
  ptr := fun h _ _ => h.congr (fun _ _ => rfl) rfl rfl rfl rfl
  sched := fun h _ => h.congr (fun _ _ => rfl) rfl rfl rfl rfl

/-- A freshly formatted device nobody holds a frame of. -/
theorem initMemphy_partition {ι : Type} {own : ι → Option Nat} (maxSize : Addr) (junk : Bool)
    (hown : ∀ i, own i = none) : Partition own (initMemphy maxSize true junk).freeFpList.fpns
      (initMemphy maxSize true junk).numfp := by
  rw [initMemphy_fpns]
  exact Partition.fresh hown _

section Boot
variable (memramsz memswpsz : Addr) (ramJunk swpJunk : Bool)

theorem boot_ramOwner (i : Pid × Nat) :
    ramOwner (boot memramsz memswpsz ramJunk swpJunk).krnl i = none :=
  ramOwner_none zero_not_resident

theorem boot_swpOwner (i : Pid × Nat) :
    swpOwner (boot memramsz memswpsz ramJunk swpJunk).krnl i = none :=
  swpOwner_none zero_not_swapped

/-- After boot every frame is free and nobody holds one. -/
theorem boot_ramPartition : Partition (ramOwner (boot memramsz memswpsz ramJunk swpJunk).krnl)
    (boot memramsz memswpsz ramJunk swpJunk).krnl.mram.freeFpList.fpns
    (boot memramsz memswpsz ramJunk swpJunk).krnl.mram.numfp :=
  initMemphy_partition memramsz ramJunk (boot_ramOwner memramsz memswpsz ramJunk swpJunk)

theorem boot_swpPartition : Partition (swpOwner (boot memramsz memswpsz ramJunk swpJunk).krnl)
    (boot memramsz memswpsz ramJunk swpJunk).krnl.activeMswp.freeFpList.fpns
    (boot memramsz memswpsz ramJunk swpJunk).krnl.activeMswp.numfp :=
  initMemphy_partition memswpsz swpJunk (boot_swpOwner memramsz memswpsz ramJunk swpJunk)

end Boot

/-- RAM of at most 2^13 frames has no frame that the field cuts. -/
theorem ownGuards_grow_of_small {k : Krnl} {mm : Mm} {sz : Addr} (hw : k.Wf)
    (hsmall : k.mram.numfp ≤ 2 ^ 13) : ownGuards.AllowsGrow k mm sz := by
  rw [Guards.AllowsGrow]
  split
  · intro f hf
    exact Nat.lt_of_lt_of_le (hw.ramFree f (List.mem_of_mem_take hf)) hsmall
  · trivial

/-- Ownership is exclusive after every run whose instructions keep to the guards. -/
theorem reach_owned {memramsz memswpsz : Addr} {ramJunk swpJunk : Bool} {es : List Event} {s : Sys}
    {ok : Sys → Event → Prop} (hok : ∀ s e, ok s e → ownGuards.Ok s e)
    (h : Lts.Run step ok (boot memramsz memswpsz ramJunk swpJunk) es s) : Owned s.krnl :=
  owned_stable.reach hok
    ⟨(boot_ramPartition _ _ _ _).toExclusive, (boot_swpPartition _ _ _ _).toExclusive⟩ h

end SimpleOs
