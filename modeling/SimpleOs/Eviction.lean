/-
# `SimpleOs.Eviction` — when a page fault shows in nobody's bytes

`Served` is what a caller of the fault handler may expect: the page is resident
afterwards, every byte of every mapped page is what it was, and a page mapped
for the first time is zero.  The handler does this under `FaultSafe`:

  * the page is not swapped out — the present bit is set on swapped entries
    too, so the handler takes such a page for resident;
  * the victim's frame is zero — it is handed on as it is;
  * the system call that saves the victim finds the caller, the victim is
    resident, and its swap frame fits the 21 bit field.
-/
import SimpleOs.Content

namespace SimpleOs

/-- Page `pgn` of `p` served: `wr` is the offset at which a WRITE stores. -/
structure Served (k k' : Krnl) (p : Pid) (pgn : Nat) (wr : Option Nat) : Prop where
  resident : Resident (k'.pte p pgn)
  kept : ∀ q n o b, o < 256 → ¬ (q = p ∧ PageTable.SamePage n pgn ∧ wr = some o) →
    k.byte q n o = some b → k'.byte q n o = some b
  fresh : k.pte p pgn = 0 → ∀ o < 256, wr ≠ some o → k'.byte p pgn o = some 0

/-- What the fault handler needs to serve page `pgn`. -/
structure FaultSafe (k : Krnl) (p : Pid) (mm : Mm) (pgn : Nat) : Prop where
  not_swapped : ¬ Swapped (mm.pte pgn)
  fault : ∀ pgs v s rest, mm.pte pgn = 0 → mm.fifoPgn = pgs ++ [v] →
    k.activeMswp.freeFpList.fpns = s :: rest →
    p ∈ k.sched.runningList.toList ∧ Resident (mm.pte v) ∧ s < 2 ^ 21 ∧
      ∀ o < 256, k.mram.storage (pagingFpn (mm.pte v) * 256 + o) = 0

theorem FaultSafe.allowsFault {k : Krnl} {p : Pid} {mm : Mm} {pgn : Nat}
    (h : FaultSafe k p mm pgn) : ownGuards.AllowsFault k mm pgn := by
  intro pgs v s rest h0 hf hs
  obtain ⟨_, hres, hlt, _⟩ := h.fault pgs v s rest h0 hf hs
  exact ⟨hres, hlt⟩

section Serve
variable {k k' : Krnl} {p : Pid} {mm : Mm} {pgn : Nat} {junk : Byte}

/-- `pg_getpage` serves the page, and `*fpn` is the frame that holds its bytes. -/
theorem pgGetpage_served {f : Nat} (h : Owned k) (hw : k.Wf) (hmm : k.ownMm p = some mm)
    (hsafe : FaultSafe k p mm pgn) (hg : pgGetpage k mm pgn p junk = .ok (k', some f)) :
    Served k k' p pgn none ∧ pagingFpn (k'.pte p pgn) = f := by
  obtain ⟨hres, hfpn⟩ := pgGetpage_resident hw hmm hsafe.not_swapped hg
  refine ⟨⟨hres, ?_, ?_⟩, hfpn⟩
  · intro q n o b ho _ hb
    rcases pgGetpage_effect hw hmm hg with ⟨mm', rfl, hq, _⟩ |
      ⟨pgs, v, s, rest, h0, hf, hs, rfl, _⟩
    · rw [Krnl.byte_setMm_same hmm hq.pte, hb]
    · obtain ⟨hp, hvic, hlt, _⟩ := hsafe.fault pgs v s rest h0 hf hs
      by_cases hq : q = p ∧ PageTable.SamePage n pgn
      · -- the page faulted in had no bytes before
        obtain ⟨rfl, hn⟩ := hq
        have hz : k.pte q n = 0 := by rw [Krnl.pte_of hmm, pte_congr mm hn, h0]
        rw [Krnl.byte_unmapped hz] at hb
        exact nomatch hb
      · rw [Krnl.byte_evicted h hmm hp hs hvic hlt hq ho, hb]
  · intro h0 o ho _
    rw [Krnl.pte_of hmm] at h0
    rcases pgGetpage_effect hw hmm hg with ⟨mm', rfl, hq, _⟩ |
      ⟨pgs, v, s, rest, _, hf, hs, rfl, _⟩
    · -- a hit, so the entry was not zero
      rw [Krnl.pte_setMm, hq.pte, h0] at hres
      exact absurd hres zero_not_resident
    · obtain ⟨_, _, _, hzero⟩ := hsafe.fault pgs v s rest h0 hf hs
      rw [Krnl.byte_evicted_target (PageTable.SamePage.refl pgn), hzero o ho]

/-- `pg_setval` serves the page and, when the system call finds the caller, stores the byte. -/
theorem pgSetval_served {addr : BitVec 32} {value : Byte} (h : Owned k) (hw : k.Wf)
    (hmm : k.ownMm p = some mm) (hsafe : FaultSafe k p mm (pagingPgn addr))
    (hg : pgSetval k mm addr value p junk = .ok (k', 0)) :
    Served k k' p (pagingPgn addr) (some (pagingOffst addr)) ∧
    (p ∈ k.sched.runningList.toList →
      k'.byte p (pagingPgn addr) (pagingOffst addr) = some value) := by
  have hram : ∀ k₁ r, pgGetpage k mm (pagingPgn addr) p junk = .ok (k₁, r) →
      k₁.mram.rdmflg = true ∧ ∀ f, r = some f → f < 2 ^ 13 := by
    intro k₁ r hpage
    obtain ⟨hmram, _, _, hlt⟩ := pgGetpage_ram hw hmm hpage
    exact ⟨by rw [hmram]; exact hw.ram.rdm, hlt⟩
  obtain ⟨k₁, r, hpage, hcase⟩ := pgSetval_ok hram hg
  have hsched := (pgGetpage_ram hw hmm hpage).2.1
  rcases hcase with ⟨_, hst, _⟩ | ⟨f, rfl, _, hp, rfl⟩ | ⟨f, rfl, _, _, rfl⟩
  · exact nomatch hst
  · -- nothing was stored
    obtain ⟨hserved, _⟩ := pgGetpage_served h hw hmm hsafe hpage
    refine ⟨⟨hserved.resident, fun q n o b ho _ => hserved.kept q n o b ho (fun hc => ?_),
      fun h0 o ho _ => hserved.fresh h0 o ho (fun hc => nomatch hc)⟩, fun hp' => ?_⟩
    · exact nomatch hc.2.2
    · rw [hsched] at hp
      exact absurd hp' hp
  · obtain ⟨hserved, hfpn⟩ := pgGetpage_served h hw hmm hsafe hpage
    have hown : Owned k₁ :=
      (owned_closed p).getpage h hw hmm (pagingPgn_lt addr) hsafe.allowsFault hpage
    have hoff := pagingOffst_lt addr
    subst hfpn
    refine ⟨⟨hserved.resident, ?_, ?_⟩, ?_⟩
    · intro q n o b ho hne hb
      have hb₁ := hserved.kept q n o b ho (fun hc => nomatch hc.2.2) hb
      by_cases hq : q = p ∧ PageTable.SamePage n (pagingPgn addr)
      · obtain ⟨rfl, hn⟩ := hq
        have ho' : o ≠ pagingOffst addr := fun heq => hne ⟨rfl, hn, by rw [heq]⟩
        exact (Krnl.byte_poke_self hserved.resident hn).trans ((if_neg ho').trans hb₁)
      · exact (Krnl.byte_poke_of_ne hown hserved.resident hq ho hoff).trans hb₁
    · intro h0 o ho hne
      have ho' : o ≠ pagingOffst addr := fun heq => hne (by rw [heq])
      have hb₁ := hserved.fresh h0 o ho (fun hc => nomatch hc)
      exact (Krnl.byte_poke_self hserved.resident (PageTable.SamePage.refl _)).trans
        ((if_neg ho').trans hb₁)
    · intro _
      exact (Krnl.byte_poke_self hserved.resident (PageTable.SamePage.refl _)).trans (if_pos rfl)

end Serve

/-! ## In every run -/

/-- After every run that keeps ownership exclusive, a safe call of `pg_getpage` or `pg_setval`
that returns 0 has served its page. -/
theorem page_served {memramsz memswpsz : Addr} {ramJunk swpJunk : Bool} {es : List Event} {s : Sys}
    {p : Pid} {mm : Mm} {addr : BitVec 32}
    (h : Lts.Run step ownGuards.Ok (boot memramsz memswpsz ramJunk swpJunk) es s)
    (hmm : s.krnl.ownMm p = some mm) (hsafe : FaultSafe s.krnl p mm (pagingPgn addr)) :
    (∀ junk k' f, pgGetpage s.krnl mm (pagingPgn addr) p junk = .ok (k', some f) →
      Served s.krnl k' p (pagingPgn addr) none ∧ pagingFpn (k'.pte p (pagingPgn addr)) = f) ∧
    (∀ junk value k', pgSetval s.krnl mm addr value p junk = .ok (k', 0) →
      Served s.krnl k' p (pagingPgn addr) (some (pagingOffst addr)) ∧
      (p ∈ s.krnl.sched.runningList.toList →
        k'.byte p (pagingPgn addr) (pagingOffst addr) = some value)) := by
  have hown := reach_owned (fun _ _ hok => hok) h
  have hw := (reach_wf h).krnl
  exact ⟨fun _ _ _ hg => pgGetpage_served hown hw hmm hsafe hg,
    fun _ _ _ hg => pgSetval_served hown hw hmm hsafe hg⟩

/-- The frame `pg_getpage` returns and the entry of the page afterwards. -/
def getpageResult (k : Krnl) (mm : Mm) (pgn : Nat) (p : Pid) (junk : Byte) :
    Option (Nat × BitVec 32) :=
  match pgGetpage k mm pgn p junk with
  | .ok (k', some f) => some (f, k'.pte p pgn)
  | _ => none

theorem getpageResult_some {k : Krnl} {mm : Mm} {pgn : Nat} {p : Pid} {junk : Byte} {f : Nat}
    {pte : BitVec 32} (h : getpageResult k mm pgn p junk = some (f, pte)) :
    ∃ k', pgGetpage k mm pgn p junk = .ok (k', some f) ∧ k'.pte p pgn = pte := by
  rw [getpageResult] at h
  split at h
  next k' f' hg => cases h; exact ⟨k', hg, rfl⟩
  next => exact nomatch h

/-- Page 1 faulted in over page 0, which was never written. -/
theorem page_served_fresh : ∃ (s : Sys) (mm : Mm) (k' : Krnl),
    s.krnl.ownMm 1 = some mm ∧ pgGetpage s.krnl mm (pagingPgn 256) 1 0 = .ok (k', some 0) ∧
    Served s.krnl k' 1 (pagingPgn 256) none := by
  obtain ⟨s, hs⟩ := Option.isSome_iff_exists.mp
    (by decide +kernel : (Lts.exec step (boot 512 512 true true)
      (loadOn 0 1 ++ [.run 0 ⟨.alloc, 256, 0, 0, 0⟩ 0])).isSome)
  have hrun : Lts.Run step ownGuards.Ok _ _ s := run_loadOn (loadOn_ok _) hs (fun s hs => by
    have hreach := Lts.reaches_of_exec hs
    refine Guards.ok_alloc
      (Lts.exec_map (g := fun s => s.cpu 0) hs rfl)
      (Lts.exec_map (g := fun s => s.krnl.ownMm 1) (a := some (initMm fun _ => ⟨0, 0⟩)) hs rfl)
      rfl (fun _ => ?_)
    refine ownGuards_grow_of_small (reach_wf hreach).krnl ?_
    rw [(reach_numfp hreach).1]
    decide +kernel)
  obtain ⟨mm, hmm⟩ := Option.isSome_iff_exists.mp
    (Lts.exec_map (g := fun s => (s.krnl.ownMm 1).isSome) hs rfl)
  have hmap : (s.krnl.ownMm 1).map (fun mm => (mm.fifoPgn, mm.pte 0, mm.pte 1)) =
      some ([0], 0x80000000, 0) :=
    Lts.exec_map (g := fun s => (s.krnl.ownMm 1).map (fun mm => (mm.fifoPgn, mm.pte 0, mm.pte 1)))
      hs (by decide +kernel)
  have hdev :
      (s.krnl.sched.runningList.toList, s.krnl.activeMswp.freeFpList.fpns) = ([1], [0, 1]) :=
    Lts.exec_map
      (g := fun s => (s.krnl.sched.runningList.toList, s.krnl.activeMswp.freeFpList.fpns))
      hs (by decide +kernel)
  have hzero : (List.range 256).all (fun o => s.krnl.mram.storage o == 0) = true :=
    Lts.exec_map (g := fun s => (List.range 256).all (fun o => s.krnl.mram.storage o == 0))
      hs (by decide +kernel)
  rw [hmm] at hmap
  obtain ⟨hfifo, hpte⟩ := Prod.mk.inj (Option.some.inj hmap)
  obtain ⟨hpte0, hpte1⟩ := Prod.mk.inj hpte
  obtain ⟨hlist, hfree⟩ := Prod.mk.inj hdev
  have hsafe : FaultSafe s.krnl 1 mm (pagingPgn 256) := by
    have hpgn : pagingPgn 256 = 1 := by decide
    rw [hpgn]
    refine ⟨by rw [hpte1]; exact zero_not_swapped, ?_⟩
    intro pgs v sw rest _ hf hsw
    obtain ⟨rfl, rfl⟩ : pgs = [] ∧ v = 0 := by
      rw [hfifo] at hf
      cases pgs with
      | nil => exact ⟨rfl, (List.singleton_inj.mp hf).symm⟩
      | cons a as => simp at hf
    rw [hfree] at hsw
    obtain ⟨rfl, _⟩ := List.cons.inj hsw
    rw [hpte0]
    refine ⟨by rw [hlist]; exact List.mem_cons_self, by decide, by decide, fun o ho => ?_⟩
    have hf0 : pagingFpn 0x80000000 = 0 := by decide
    rw [hf0, Nat.zero_mul, Nat.zero_add]
    exact eq_of_beq (List.all_eq_true.mp hzero o (List.mem_range.mpr ho))
  obtain ⟨k', hg⟩ : ∃ k', pgGetpage s.krnl mm (pagingPgn 256) 1 0 = .ok (k', some 0) := by
    have hres : (s.krnl.ownMm 1).bind (getpageResult s.krnl · (pagingPgn 256) 1 0) = _ :=
      Lts.exec_map (a := some (0, 0x80000000)) (g := fun s =>
        (s.krnl.ownMm 1).bind (getpageResult s.krnl · (pagingPgn 256) 1 0)) hs (by decide +kernel)
    rw [hmm] at hres
    obtain ⟨k', hg, _⟩ := getpageResult_some hres
    exact ⟨k', hg⟩
  exact ⟨s, mm, k', hmm, hg, ((page_served hrun hmm hsafe).1 0 k' 0 hg).1⟩

/-- Page 0 is evicted for page 2 and touched again: the call returns 0, and the page is still
swapped out. -/
theorem page_touched_again : ∃ (s : Sys) (mm : Mm) (k' : Krnl) (f : Nat),
    Lts.Reaches step (boot 512 512 true true) (loadOn 0 1 ++
      [.run 0 ⟨.alloc, 512, 0, 0, 0⟩ 0, .restore 0, .run 0 ⟨.alloc, 256, 1, 0, 0⟩ 0, .restore 0,
        .run 0 ⟨.write, 7, 1, 0, 0⟩ 0]) s ∧
    s.krnl.ownMm 1 = some mm ∧ pgGetpage s.krnl mm (pagingPgn 0) 1 0 = .ok (k', some f) ∧
    ¬ Served s.krnl k' 1 (pagingPgn 0) none := by
  obtain ⟨s, hs⟩ := Option.isSome_iff_exists.mp
    (by decide +kernel : (Lts.exec step (boot 512 512 true true) (loadOn 0 1 ++
      [.run 0 ⟨.alloc, 512, 0, 0, 0⟩ 0, .restore 0, .run 0 ⟨.alloc, 256, 1, 0, 0⟩ 0, .restore 0,
        .run 0 ⟨.write, 7, 1, 0, 0⟩ 0])).isSome)
  have hres : (s.krnl.ownMm 1).bind (getpageResult s.krnl · (pagingPgn 0) 1 0) = _ :=
    Lts.exec_map (a := some (0, 0xc0000000)) (g := fun s =>
      (s.krnl.ownMm 1).bind (getpageResult s.krnl · (pagingPgn 0) 1 0)) hs (by decide +kernel)
  obtain ⟨mm, hmm, hres⟩ := Option.bind_eq_some_iff.mp hres
  obtain ⟨k', hg, hpte⟩ := getpageResult_some hres
  refine ⟨s, mm, k', 0, Lts.reaches_of_exec hs, hmm, hg, fun h => ?_⟩
  have hr := h.resident
  rw [hpte] at hr
  exact absurd hr (by decide)

end SimpleOs
