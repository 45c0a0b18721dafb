/-
# `SimpleOs.Content` — the bytes of a page, wherever it is

`Krnl.byte` reads a byte of a process's page through the page's own entry: from
RAM when the page is resident, from the swap device when it is swapped.  Two
steps of the machine move or change bytes, storing one in a held frame and
evicting a victim; the lemmas say whose bytes change.  Both need `Owned`: a
frame held twice would change for two pages at once.
-/
import SimpleOs.Owner

namespace SimpleOs

open Pool

/-- The byte at offset `o` of page `n` of process `p`. -/
def Krnl.byte (k : Krnl) (p : Pid) (n o : Nat) : Option Byte :=
  if Resident (k.pte p n) then some (k.mram.storage (pagingFpn (k.pte p n) * 256 + o))
  else if Swapped (k.pte p n) then some (k.activeMswp.storage (pagingSwp (k.pte p n) * 256 + o))
  else none

section Read
variable {k k' : Krnl} {p : Pid} {n o : Nat}

theorem Krnl.byte_resident (h : Resident (k.pte p n)) :
    k.byte p n o = some (k.mram.storage (pagingFpn (k.pte p n) * 256 + o)) := by
  rw [Krnl.byte, if_pos h]

theorem Krnl.byte_swapped (h : Swapped (k.pte p n)) :
    k.byte p n o = some (k.activeMswp.storage (pagingSwp (k.pte p n) * 256 + o)) := by
  rw [Krnl.byte, if_neg (fun hr => hr.not_swapped h), if_pos h]

/-- A page with no entry has no bytes. -/
theorem Krnl.byte_unmapped (h : k.pte p n = 0) : k.byte p n o = none := by
  rw [Krnl.byte, h, if_neg zero_not_resident, if_neg zero_not_swapped]

/-- The byte depends on the entry and on one byte of one device. -/
theorem Krnl.byte_congr (hp : k'.pte p n = k.pte p n)
    (hr : Resident (k.pte p n) → k'.mram.storage (pagingFpn (k.pte p n) * 256 + o) =
      k.mram.storage (pagingFpn (k.pte p n) * 256 + o))
    (hs : Swapped (k.pte p n) → k'.activeMswp.storage (pagingSwp (k.pte p n) * 256 + o) =
      k.activeMswp.storage (pagingSwp (k.pte p n) * 256 + o)) :
    k'.byte p n o = k.byte p n o := by
  by_cases hres : Resident (k.pte p n)
  · rw [Krnl.byte_resident hres, Krnl.byte_resident (hp ▸ hres), hp, hr hres]
  · by_cases hswp : Swapped (k.pte p n)
    · rw [Krnl.byte_swapped hswp, Krnl.byte_swapped (hp ▸ hswp), hp, hs hswp]
    · rw [Krnl.byte, Krnl.byte, hp, if_neg hres, if_neg hswp, if_neg hres, if_neg hswp]

/-- Page numbers with one slot have one entry. -/
theorem Krnl.pte_samePage {m : Nat} (h : PageTable.SamePage m n) : k.pte p m = k.pte p n := by
  rw [Krnl.pte, Krnl.pte]
  cases k.ownMm p with
  | none => rfl
  | some mm => exact pte_congr mm h

theorem samePage_mod (n : Nat) : PageTable.SamePage (n % 2 ^ 45) n := Nat.mod_mod _ _

/-- The frame of a resident page, as an owner. -/
theorem ramOwner_of_resident (h : Resident (k.pte p n)) :
    ramOwner k (p, n % 2 ^ 45) = some (pagingFpn (k.pte p n)) := by
  rw [← Krnl.pte_samePage (samePage_mod n)] at h ⊢
  exact ramOwner_some.mpr ⟨Nat.mod_lt _ (by decide), h, rfl⟩

theorem swpOwner_of_swapped (h : Swapped (k.pte p n)) :
    swpOwner k (p, n % 2 ^ 45) = some (pagingSwp (k.pte p n)) := by
  rw [← Krnl.pte_samePage (samePage_mod n)] at h ⊢
  exact swpOwner_some.mpr ⟨Nat.mod_lt _ (by decide), h, rfl⟩

/-- Two resident pages in one frame are one page. -/
theorem Owned.samePage {q : Pid} {m : Nat} (h : Owned k) (hp : Resident (k.pte p n))
    (hq : Resident (k.pte q m)) (hf : pagingFpn (k.pte q m) = pagingFpn (k.pte p n)) :
    q = p ∧ PageTable.SamePage m n := by
  have hown := ramOwner_of_resident hq
  rw [hf] at hown
  exact Prod.mk.inj (h.ram.own_inj _ _ _ hown (ramOwner_of_resident hp))

end Read

/-! ## Storing a byte -/

section Store
variable {k : Krnl} {p : Pid} {n off : Nat} {value : Byte}

/-- The kernel with a byte of a resident page assigned. -/
def Krnl.poke (k : Krnl) (p : Pid) (n off : Nat) (value : Byte) : Krnl :=
  { k with mram := k.mram.store (pagingFpn (k.pte p n) * 256 + off) value }

theorem Krnl.poke_pte (q : Pid) (m : Nat) : (k.poke p n off value).pte q m = k.pte q m := rfl

/-- Other pages do not notice. -/
theorem Krnl.byte_poke_of_ne {q : Pid} {m o : Nat} (h : Owned k) (hres : Resident (k.pte p n))
    (hne : ¬ (q = p ∧ PageTable.SamePage m n)) (ho : o < 256) (hoff : off < 256) :
    (k.poke p n off value).byte q m o = k.byte q m o := by
  refine Krnl.byte_congr (Krnl.poke_pte q m) (fun hq => ?_) (fun _ => rfl)
  have hf : pagingFpn (k.pte q m) ≠ pagingFpn (k.pte p n) := fun hf => hne (h.samePage hres hq hf)
  exact if_neg (by omega)

/-- Of the page itself one byte changes. -/
theorem Krnl.byte_poke_self {m o : Nat} (hres : Resident (k.pte p n))
    (hm : PageTable.SamePage m n) :
    (k.poke p n off value).byte p m o = if o = off then some value else k.byte p m o := by
  have hpte := Krnl.pte_samePage (k := k) (p := p) hm
  have hres' : Resident (k.pte p m) := hpte ▸ hres
  rw [Krnl.byte_resident hres', Krnl.byte_resident (k := k.poke p n off value) hres',
    Krnl.poke_pte, hpte]
  by_cases ho : o = off
  · subst ho
    rw [if_pos rfl]
    exact congrArg some (if_pos rfl)
  · rw [if_neg ho]
    exact congrArg some (if_neg (by omega))

end Store

/-! ## Evicting a page -/

section Evict
variable {k : Krnl} {p : Pid} {mm : Mm} {pgn v s : Nat} {pgs rest : List Nat}

theorem Krnl.evicted_pte (q : Pid) (m : Nat) :
    (k.evicted p mm pgn v s pgs rest).pte q m = (k.fault p mm pgn v s pgs rest).pte q m := by
  rw [Krnl.evicted, Krnl.pte, Krnl.copyOut_ownMm, Krnl.pte]

theorem Krnl.evicted_mram : (k.evicted p mm pgn v s pgs rest).mram = k.mram := by
  rw [Krnl.evicted, Krnl.copyOut_mram]
  rfl

/-- Swap frames other than the one taken keep their bytes. -/
theorem Krnl.evicted_swp_other {f o : Nat} (ho : o < 256) (hf : f ≠ s) :
    (k.evicted p mm pgn v s pgs rest).activeMswp.storage (f * 256 + o) =
      k.activeMswp.storage (f * 256 + o) := by
  rw [Krnl.evicted, Krnl.copyOut]
  split
  · exact copyCells_other ho hf
  · rfl

/-- The swap frame taken holds the victim's frame, if the caller was found. -/
theorem Krnl.evicted_swp_self {o : Nat} (hp : p ∈ k.sched.runningList.toList) (ho : o < 256) :
    (k.evicted p mm pgn v s pgs rest).activeMswp.storage (s * 256 + o) =
      k.mram.storage (pagingFpn (mm.pte v) * 256 + o) := by
  have hp' : p ∈ (k.fault p mm pgn v s pgs rest).sched.runningList.toList := hp
  rw [Krnl.evicted, Krnl.copyOut, if_pos hp']
  exact copyCells_same ho

/-- The page faulted in shows the bytes its frame held for the victim. -/
theorem Krnl.byte_evicted_target {m o : Nat} (hm : PageTable.SamePage m pgn) :
    (k.evicted p mm pgn v s pgs rest).byte p m o =
      some (k.mram.storage (pagingFpn (mm.pte v) * 256 + o)) := by
  obtain ⟨hres, hfpn⟩ := Mm.evict_pte_target mm m pgn v s pgs hm
  rw [← fault_pte (k := k) (p := p) rest, ← Krnl.evicted_pte] at hres hfpn
  rw [Krnl.byte_resident hres, hfpn, Krnl.evicted_mram]

/-- A page of another process keeps its bytes: its frames are not the ones moved. -/
theorem Krnl.byte_evicted_other {q : Pid} {m o : Nat} (h : Owned k)
    (hs : k.activeMswp.freeFpList.fpns = s :: rest)
    (hpte : (k.evicted p mm pgn v s pgs rest).pte q m = k.pte q m) (ho : o < 256) :
    (k.evicted p mm pgn v s pgs rest).byte q m o = k.byte q m o := by
  refine Krnl.byte_congr hpte (fun _ => by rw [Krnl.evicted_mram]) (fun hswp => ?_)
  refine Krnl.evicted_swp_other ho (fun heq => ?_)
  refine h.swp.disjoint _ _ (swpOwner_of_swapped hswp) ?_
  rw [heq, hs]
  exact List.mem_cons_self

/-- Every page but the one faulted in keeps its bytes, the victim because they were copied out. -/
theorem Krnl.byte_evicted {q : Pid} {m o : Nat} (h : Owned k) (hmm : k.ownMm p = some mm)
    (hp : p ∈ k.sched.runningList.toList) (hs : k.activeMswp.freeFpList.fpns = s :: rest)
    (hres : Resident (mm.pte v)) (hlt : s < 2 ^ 21)
    (hne : ¬ (q = p ∧ PageTable.SamePage m pgn)) (ho : o < 256) :
    (k.evicted p mm pgn v s pgs rest).byte q m o = k.byte q m o := by
  by_cases hq : q = p
  · subst hq
    have hm : ¬ PageTable.SamePage m pgn := fun hm => hne ⟨rfl, hm⟩
    by_cases hv : PageTable.SamePage m v
    · -- the victim: its frame before, its swap frame after
      obtain ⟨hswp, hoff⟩ := Mm.evict_pte_victim mm m pgn v s pgs hm hv
      rw [← fault_pte (k := k) (p := q) rest, ← Krnl.evicted_pte] at hswp hoff
      have hpte : k.pte q m = mm.pte v := by rw [Krnl.pte_of hmm, pte_congr mm hv]
      rw [Krnl.byte_swapped hswp, hoff, Nat.mod_eq_of_lt hlt, Krnl.evicted_swp_self hp ho,
        Krnl.byte_resident (hpte ▸ hres), hpte]
    · refine Krnl.byte_evicted_other h hs ?_ ho
      rw [Krnl.evicted_pte, fault_pte, Mm.evict_pte_other mm m pgn v s pgs hm hv, Krnl.pte_of hmm]
  · refine Krnl.byte_evicted_other h hs ?_ ho
    rw [Krnl.evicted_pte, fault_pte_of_ne hq]

end Evict

/-! ## The fault handler -/

section Getpage
variable {k k' : Krnl} {p : Pid} {mm : Mm} {pgn : Nat} {junk : Byte}

/-- Unless it was swapped out, a page is resident after the handler returned its frame. -/
theorem pgGetpage_resident {f : Nat} (hw : k.Wf) (hmm : k.ownMm p = some mm)
    (hns : ¬ Swapped (mm.pte pgn)) (h : pgGetpage k mm pgn p junk = .ok (k', some f)) :
    Resident (k'.pte p pgn) ∧ pagingFpn (k'.pte p pgn) = f := by
  rcases pgGetpage_effect hw hmm h with
    ⟨mm', rfl, hq, _, _, hr⟩ | ⟨pgs, v, s, rest, _, _, _, rfl, hr⟩
  · rcases hr with hr | ⟨hpres, hr⟩
    · exact nomatch hr
    · cases hr
      rw [Krnl.pte_setMm, hq.pte]
      exact ⟨(resident_or_swapped hpres).resolve_right hns, rfl⟩
  · cases hr
    rw [Krnl.evicted_pte, fault_pte]
    exact Mm.evict_pte_target mm pgn pgn v s pgs (PageTable.SamePage.refl pgn)

/-- A structure with the same entries shows the same bytes. -/
theorem Krnl.byte_setMm_same {mm' : Mm} (hmm : k.ownMm p = some mm)
    (hp : ∀ n, mm'.pte n = mm.pte n) (q : Pid) (n o : Nat) :
    (k.setMm p mm').byte q n o = k.byte q n o :=
  Krnl.byte_congr (pte_setMm_same hmm hp q n) (fun _ => rfl) (fun _ => rfl)

end Getpage

end SimpleOs
