/-
# `SimpleOs.Replacement` — the replacement list and the resident pages

`find_victim_page` takes the last page of `fifo_pgn` and trusts it to be resident; the
list is first in, first out when it holds every resident page, each once, the newest
first.  "Newest" speaks of a time that the code does not keep, so the machine gets a
clock: `Timed` counts events and records, for every page, when it last became resident.

The list and the entries are updated in different places, and three paths update one
without the other:

  * a growth enlists every page it maps, also one that is resident and listed;
  * a fault that finds no free swap frame has taken its victim off the list;
  * MAP clears entries and leaves the list alone.

`ListSafe` excludes these three and nothing else.  `exec_pages` says what an instruction
does to entries and list together, `InOrder.step` that one safe event keeps the order.
-/
import Mathlib.Data.Prod.Lex
import SimpleOs.Owner
import SimpleOs.Lib.Recency

namespace SimpleOs

/-! ## What an instruction does to entries and list -/

/-- The same entries and the same list. -/
structure Mm.SamePages (mm mm' : Mm) : Prop where
  pte : ∀ n, mm'.pte n = mm.pte n
  fifo : mm'.fifoPgn = mm.fifoPgn

theorem Mm.SamePages.refl (mm : Mm) : mm.SamePages mm := ⟨fun _ => rfl, rfl⟩

theorem Mm.SamePages.trans {mm mm' mm'' : Mm} (h : mm.SamePages mm') (h' : mm'.SamePages mm'') :
    mm.SamePages mm'' :=
  ⟨fun n => (h'.pte n).trans (h.pte n), h'.fifo.trans h.fifo⟩

theorem Mm.SamePages.setEntry (mm : Mm) (i : Nat) (rg : VmRg) : mm.SamePages (mm.setEntry i rg) :=
  ⟨fun _ => rfl, rfl⟩

theorem Mm.SamePages.withVma (mm : Mm) (vma : VmArea) : mm.SamePages (mm.withVma vma) :=
  ⟨fun _ => rfl, rfl⟩

theorem Mm.SamePages.touch (mm : Mm) (pgn : Nat) : mm.SamePages (mm.touch pgn) :=
  ⟨fun n => Mm.touch_pte mm n pgn, rfl⟩

theorem Mm.SamePages.searched {mm : Mm} (hs : mm.Single) (size : Addr) :
    mm.SamePages (mm.searched size) := by
  obtain ⟨hpgd, hfifo, _⟩ := Mm.searched_frame hs size
  exact ⟨fun n => by rw [Mm.pte, Mm.pte, hpgd], hfifo⟩

theorem Mm.SamePages.enlistFree (mm : Mm) (rg : VmRg) : mm.SamePages (mm.enlistFree rg) := by
  rw [Mm.enlistFree]
  split
  · exact .refl mm
  · exact ⟨fun _ => rfl, rfl⟩

/-- The page table is untouched, and so is the list. -/
theorem Mm.SamePages.mapFrames {mm mm' : Mm} (hpgd : mm'.pgd = mm.pgd)
    (hfifo : mm'.fifoPgn = mm.fifoPgn) (pgn : Nat) (fs : List Nat) :
    (mm.mapFrames pgn fs).SamePages (mm'.mapFrames pgn fs) := by
  induction fs generalizing mm mm' pgn with
  | nil => exact ⟨fun n => by rw [Mm.mapFrames, Mm.mapFrames, Mm.pte, Mm.pte, hpgd], hfifo⟩
  | cons f fs ih =>
      rw [Mm.mapFrames, Mm.mapFrames]
      refine ih ?_ ?_ (pgn + 1)
      · simp only [Mm.enlist, pteSetFpn, hpgd]
      · rw [Mm.enlist_fifoPgn, Mm.enlist_fifoPgn, pteSetFpn_fifoPgn, pteSetFpn_fifoPgn, hfifo]

/-- The ways an instruction of `p` changes the entries and the list of `mm`. -/
inductive PageMove (k : Krnl) (p : Pid) (mm : Mm) (ins : Inst) (mm' : Mm) : Prop
  | still : mm.SamePages mm' → PageMove k p mm ins mm'
  | grow {sz : Addr} : growRequest k p mm ins = some sz → mm.sbrk < mm.sbrk + sz →
      pagesFor sz.toNat ≤ k.mram.freeFpList.fpns.length →
      (mm.mapFrames (mm.sbrk.toNat / 256)
        (k.mram.freeFpList.fpns.take (pagesFor sz.toNat))).SamePages mm' →
      PageMove k p mm ins mm'
  | fault {addr : BitVec 32} {pgs : List Nat} {v s : Nat} :
      accessAddr k mm ins = some addr → mm.pte (pagingPgn addr) = 0 → mm.fifoPgn = pgs ++ [v] →
      (mm.evict (pagingPgn addr) v s pgs).SamePages mm' → PageMove k p mm ins mm'
  | drop {addr : BitVec 32} : accessAddr k mm ins = some addr → mm.pte (pagingPgn addr) = 0 →
      mm.fifoPgn ≠ [] → k.activeMswp.freeFpList.fpns = [] → PageMove k p mm ins mm'
  | clear {addr : Addr} {n : Int} : p ∈ k.sched.runningList.toList →
      clearRequest ins = some (addr, n) → (vmapPgdMemset mm addr n).SamePages mm' →
      PageMove k p mm ins mm'

/-- Once the entries and the list are settled, the rest of the structure may change. -/
theorem PageMove.trans {k : Krnl} {p : Pid} {mm mm' mm'' : Mm} {ins : Inst}
    (h : PageMove k p mm ins mm') (h' : mm'.SamePages mm'') : PageMove k p mm ins mm'' := by
  cases h with
  | still hs => exact .still (hs.trans h')
  | grow hreq hlt hn hs => exact .grow hreq hlt hn (hs.trans h')
  | fault haddr hz hf hs => exact .fault haddr hz hf (hs.trans h')
  | drop haddr hz hf hswp => exact .drop haddr hz hf hswp
  | clear hp hreq hs => exact .clear hp hreq (hs.trans h')

section Exec
variable {k k' : Krnl} {p : Pid} {mm : Mm} {ins : Inst} {junk : Byte} {st : Int}

/-- What a growth request leaves, asked for `mm₁` with the entries and the list of `mm`. -/
theorem Grown.pages {mm₁ : Mm} {sz : Addr} (hreq : p ∈ k.sched.runningList.toList →
      growRequest k p mm ins = some sz)
    (hpgd : mm₁.pgd = mm.pgd) (hfifo : mm₁.fifoPgn = mm.fifoPgn) (hsbrk : mm₁.sbrk = mm.sbrk)
    (hg : Grown (k.setMm p mm₁) p mm₁ sz k') :
    ∃ mm', k'.ownMm p = some mm' ∧ PageMove k p mm ins mm' := by
  have hsame : mm.SamePages mm₁ := ⟨fun n => by rw [Mm.pte, Mm.pte, hpgd], hfifo⟩
  cases hg with
  | lost _ => exact ⟨mm₁, Krnl.setMm_self _ _ _, .still hsame⟩
  | refused _ _ => exact ⟨mm₁, Krnl.setMm_self _ _ _, .still hsame⟩
  | grow hp hlt hn =>
      rw [hsbrk] at hlt
      refine ⟨_, Krnl.setMm_self _ _ _, .grow (hreq hp) hlt hn ?_⟩
      rw [hsbrk]
      exact (Mm.SamePages.mapFrames hpgd hfifo _ _).trans (.withVma _ _)
  | starve hp hlt hn hc =>
      exact ⟨_, Krnl.setMm_self _ _ _, .still (hsame.trans (.withVma _ _))⟩

/-- The fault handler. -/
theorem pgGetpage_pages {addr : BitVec 32} {r : Option Nat} (hw : k.Wf)
    (hmm : k.ownMm p = some mm) (haddr : accessAddr k mm ins = some addr)
    (h : pgGetpage k mm (pagingPgn addr) p junk = .ok (k', r)) :
    ∃ mm', k'.ownMm p = some mm' ∧ PageMove k p mm ins mm' := by
  have hmw := hw.own p mm hmm
  rcases pgGetpage_cases hmw.pte hw.ram.rdm hw.swp.rdm hw.swpFree_lt h with
    ⟨_, rfl, _⟩ | ⟨_, _, rfl, _⟩ | ⟨hz, pgs, v, hf, hs, rfl, _⟩ |
    ⟨hz, pgs, v, s, rest, hf, hs, rfl, _⟩
  · exact ⟨_, Krnl.setMm_self _ _ _, .still ((Mm.SamePages.touch mm _).trans (.touch _ _))⟩
  · exact ⟨_, Krnl.setMm_self _ _ _, .still (.touch mm _)⟩
  · exact ⟨_, Krnl.setMm_self _ _ _, .drop haddr hz (by rw [hf]; simp) hs⟩
  · refine ⟨mm.evict (pagingPgn addr) v s pgs, ?_, .fault haddr hz hf (.refl _)⟩
    rw [Krnl.copyOut_ownMm]
    exact Krnl.setMm_self _ _ _

/-- Everything an instruction can do to the entries and the list of its process. -/
theorem exec_pages (hw : k.Wf) (hmm : k.ownMm p = some mm)
    (h : exec k p ins junk = .ok (k', st)) :
    ∃ mm', k'.ownMm p = some mm' ∧ PageMove k p mm ins mm' := by
  have hs := (hw.own p mm hmm).single
  have hself : k.setMm p mm = k := by
    rw [Krnl.setMm, ← hmm, Function.update_eq_self]
  cases hop : ins.opcode
  case alloc =>
      simp only [SimpleOs.exec, hop] at h
      obtain ⟨addr, halloc⟩ := liballoc_ok h
      obtain ⟨_, _, _, hcase⟩ := alloc_cases hmm hs halloc
      have hsame := Mm.SamePages.searched hs ins.arg0
      rcases hcase with ⟨rg, _, _, rfl⟩ | ⟨hnf, _, k₂, mm₂, hgrown, hmm₂, rfl⟩
      · exact ⟨_, Krnl.setMm_self _ _ _, .still (hsame.trans (.setEntry _ _ _))⟩
      · obtain ⟨hpgd, hfifo, _, hsbrk, _⟩ := Mm.searched_frame hs ins.arg0
        obtain ⟨mm', hmm', hmove⟩ :=
          hgrown.pages (fun hp => growRequest_alloc hp hop hnf) hpgd hfifo hsbrk
        obtain rfl : mm' = mm₂ := Option.some.inj (hmm'.symm.trans hmm₂)
        exact ⟨_, Krnl.setMm_self _ _ _, hmove.trans (.setEntry _ _ _)⟩
  case free =>
      simp only [SimpleOs.exec, hop] at h
      obtain ⟨val, hfree, _⟩ := libfree_ok h
      rcases free_cases hmm hs hfree with ⟨_, rfl⟩ | ⟨_, _, _, _, rfl⟩
      · exact ⟨mm, hmm, .still (.refl mm)⟩
      · exact ⟨_, Krnl.setMm_self _ _ _,
          .still ((Mm.SamePages.setEntry mm _ _).trans (.enlistFree _ _))⟩
  case read =>
      rcases hw.read_cases hmm hop h with ⟨rfl, _⟩ | ⟨addr, r, haddr, _, hpage⟩
      · exact ⟨mm, hmm, .still (.refl mm)⟩
      · exact pgGetpage_pages hw hmm haddr hpage
  case write =>
      rcases hw.write_cases hmm hop h with ⟨rfl, _⟩ | ⟨addr, k₁, r, haddr, _, hpage, hcase⟩
      · exact ⟨mm, hmm, .still (.refl mm)⟩
      · have hmove := pgGetpage_pages hw hmm haddr hpage
        rcases hcase with ⟨_, rfl⟩ | ⟨_, _, _, rfl⟩ | ⟨fpn, _, _, rfl⟩
        · exact hmove
        · exact hmove
        · exact hmove
  case syscall =>
      simp only [SimpleOs.exec, hop, libsyscall, bind_ok] at h
      obtain ⟨⟨k₁, regs, ret⟩, hsys, h⟩ := h
      cases h
      rw [syscall] at hsys
      split at hsys
      next hnr =>
        by_cases hp : p ∈ k.sched.runningList.toList
        · rcases sysMemmap_cases hw.ram.rdm hw.swp.rdm hsys with
            rfl | ⟨mm', hmm', hmap, rfl⟩ | ⟨st', _, hinc, hlim⟩ | ⟨src, dst, rfl⟩ |
            ⟨addr, value, rfl⟩
          · exact ⟨mm, hmm, .still (.refl mm)⟩
          · obtain rfl : mm = mm' := Option.some.inj (hmm.symm.trans hmm')
            have hreq : clearRequest ins =
                some (viaU32 ins.arg2, (ins.arg3.setWidth 32).toInt) := by
              simp only [clearRequest, hop]
              exact if_pos ⟨hnr, hmap⟩
            exact ⟨_, Krnl.setMm_self _ _ _, .clear hp hreq (.refl _)⟩
          · rcases incVmaLimit_cases hmm hs hp (viaU32_lt _) hlim with ⟨_, rfl⟩ | ⟨hid, hgrown⟩
            · exact ⟨mm, hmm, .still (.refl mm)⟩
            · rw [← hself] at hgrown
              exact hgrown.pages (fun _ => growRequest_syscall hp hop hnr hinc hid) rfl rfl rfl
          · exact ⟨mm, hmm, .still (.refl mm)⟩
          · exact ⟨mm, hmm, .still (.refl mm)⟩
        · rw [sysMemmap_lost (by rw [findCaller_eq, if_neg hp])] at hsys
          cases hsys
          exact ⟨mm, hmm, .still (.refl mm)⟩
      next => cases hsys; exact ⟨mm, hmm, .still (.refl mm)⟩
  -- the remaining instructions are stubs
  all_goals
    simp only [SimpleOs.exec, hop] at h
    cases h
    exact ⟨mm, hmm, .still (.refl mm)⟩

end Exec

/-! ## The machine with a clock -/

instance (pte : BitVec 32) : Decidable (Resident pte) := inferInstanceAs (Decidable (_ ∧ _))

/-- The machine with the number of events so far and, for every page of every process, when it
last became resident.  The pages of one growth become resident one after the other, in the order
of their numbers. -/
structure Timed where
  sys : Sys
  now : Nat
  since : Pid → Nat → Nat ×ₗ Nat

/-- The clock before the first event. -/
def Timed.start (sys : Sys) : Timed := ⟨sys, 0, fun _ _ => toLex (0, 0)⟩

/-- The times after event `now` has changed the entries of a process. -/
def stamp (now : Nat) (since : Nat → Nat ×ₗ Nat) (pte pte' : Nat → BitVec 32) (n : Nat) :
    Nat ×ₗ Nat :=
  if ¬ Resident (pte n) ∧ Resident (pte' n) then toLex (now, n) else since n

/-- One event on the clock. -/
def timedStep (t : Timed) (e : Event) : Option Timed :=
  (step t.sys e).map fun sys =>
    { sys
      now := t.now + 1
      since := fun p => stamp t.now (t.since p) (t.sys.krnl.pte p) (sys.krnl.pte p) }

theorem timedStep_sys (t : Timed) (e : Event) : (timedStep t e).map Timed.sys = step t.sys e := by
  rw [timedStep, Option.map_map]
  exact Option.map_id'

/-- `n` is the number of a resident page of `mm`. -/
def Mm.InRam (mm : Mm) (n : Nat) : Prop := n < 2 ^ 45 ∧ Resident (mm.pte n)

/-- The list of every process holds the resident pages, each once, the newest first. -/
def InOrder (t : Timed) : Prop :=
  ∀ p mm, t.sys.krnl.ownMm p = some mm →
    mm.fifoPgn.Nodup ∧ Recency.Exact mm.InRam (t.since p) mm.fifoPgn

/-- What an instruction of `p` must not do: map a page that is resident, fault while the list is
not empty and no swap frame is free, or clear a page that is resident. -/
structure ListSafe (k : Krnl) (p : Pid) (ins : Inst) : Prop where
  grow : ∀ mm sz, k.ownMm p = some mm → growRequest k p mm ins = some sz →
    mm.sbrk < mm.sbrk + sz → pagesFor sz.toNat ≤ k.mram.freeFpList.fpns.length →
    ∀ i < pagesFor sz.toNat, ¬ Resident (mm.pte (mm.sbrk.toNat / 256 + i))
  fault : ∀ mm addr, k.ownMm p = some mm → accessAddr k mm ins = some addr →
    mm.pte (pagingPgn addr) = 0 → mm.fifoPgn ≠ [] → k.activeMswp.freeFpList.fpns ≠ []
  clear : ∀ mm addr n, k.ownMm p = some mm → p ∈ k.sched.runningList.toList →
    clearRequest ins = some (addr, n) → ∀ m, Cleared addr n m → ¬ Resident (mm.pte m)

/-- The instruction an event runs is safe for the list of its process. -/
def ListSafe.Ok (s : Sys) (e : Event) : Prop :=
  ∀ c ins junk p, e = .run c ins junk → s.cpu c = .restored p → ListSafe s.krnl p ins

/-! ## One event -/

section Stamp
variable {now n : Nat} {since : Nat → Nat ×ₗ Nat} {pte pte' : Nat → BitVec 32}

theorem stamp_old (h : Resident (pte n)) : stamp now since pte pte' n = since n :=
  if_neg (fun hn => hn.1 h)

theorem stamp_new (h : ¬ Resident (pte n)) (h' : Resident (pte' n)) :
    stamp now since pte pte' n = toLex (now, n) :=
  if_pos ⟨h, h'⟩

theorem stamp_same (h : ∀ n, pte' n = pte n) : stamp now since pte pte' = since := by
  funext n
  exact if_neg (fun hn => hn.1 (h n ▸ hn.2))

end Stamp

/-- The list of one process at time `now`: in order, and with no arrival in the future. -/
structure Mm.Ordered (mm : Mm) (since : Nat → Nat ×ₗ Nat) (now : Nat) : Prop where
  exact : Recency.Exact mm.InRam since mm.fifoPgn
  past : ∀ n, mm.InRam n → since n < toLex (now, 0)

section Ordered
variable {k : Krnl} {p : Pid} {mm mm' : Mm} {ins : Inst} {since : Nat → Nat ×ₗ Nat} {now : Nat}

theorem Mm.SamePages.inRam (h : mm.SamePages mm') (n : Nat) : mm'.InRam n ↔ mm.InRam n := by
  rw [Mm.InRam, Mm.InRam, h.pte n]

theorem Mm.Ordered.later {now' : Nat} (h : mm.Ordered since now) (hle : now ≤ now') :
    mm.Ordered since now' where
  exact := h.exact
  past := by
    intro n hn
    refine lt_of_lt_of_le (h.past n hn) ?_
    rw [Prod.Lex.toLex_le_toLex]
    rcases Nat.lt_or_eq_of_le hle with hlt | rfl
    · exact Or.inl hlt
    · exact Or.inr ⟨rfl, Nat.le_refl _⟩

/-- A page that was in RAM before came before every page of this event. -/
theorem Mm.Ordered.lt_stamp (h : mm.Ordered since now) {m n : Nat} (hn : mm.InRam n)
    (hm : ¬ Resident (mm.pte m)) (hm' : Resident (mm'.pte m)) :
    stamp now since mm.pte mm'.pte n < stamp now since mm.pte mm'.pte m := by
  rw [stamp_old hn.2, stamp_new hm hm']
  refine lt_of_lt_of_le (h.past n hn) ?_
  rw [Prod.Lex.toLex_le_toLex]
  exact Or.inr ⟨rfl, Nat.zero_le m⟩

/-- No page becomes resident later than this event. -/
theorem Mm.Ordered.past_stamp (h : mm.Ordered since now) :
    ∀ n, mm'.InRam n → stamp now since mm.pte mm'.pte n < toLex (now + 1, 0) := by
  intro n hn
  by_cases hres : Resident (mm.pte n)
  · rw [stamp_old hres]
    exact (h.later (Nat.le_succ now)).past n ⟨hn.1, hres⟩
  · rw [stamp_new hres hn.2, Prod.Lex.toLex_lt_toLex]
    exact Or.inl (Nat.lt_succ_self now)

/-- Growing over pages that are not resident: they arrive in the order of their numbers. -/
theorem Mm.Ordered.grow {pgn : Nat} {fs : List Nat} (h : mm.Ordered since now)
    (hlen : pgn + fs.length ≤ 2 ^ 45) (hfree : ∀ i < fs.length, ¬ Resident (mm.pte (pgn + i)))
    (hs : (mm.mapFrames pgn fs).SamePages mm') :
    Recency.Exact mm'.InRam (stamp now since mm.pte mm'.pte) mm'.fifoPgn := by
  have hnew : ∀ a ∈ (List.range' pgn fs.length).reverse,
      a < 2 ^ 45 ∧ ¬ Resident (mm.pte a) ∧ Resident (mm'.pte a) := by
    intro a ha
    rw [List.mem_reverse, List.mem_range'_1] at ha
    obtain ⟨i, rfl⟩ := Nat.exists_eq_add_of_le ha.1
    have hi : i < fs.length := by omega
    refine ⟨by omega, hfree i hi, ?_⟩
    rw [hs.pte]
    exact Mm.mapFrames_resident fs mm pgn _ (Or.inr ⟨i, hi, PageTable.SamePage.refl _⟩)
  rw [hs.fifo, Mm.mapFrames_fifoPgn]
  refine h.exact.arrive ?_ (fun a ha => stamp_old ha.2) ?_ ?_
  · intro a
    constructor
    · rintro ⟨hlt, hres⟩
      by_cases hin : pgn ≤ a ∧ a < pgn + fs.length
      · exact Or.inl (by rw [List.mem_reverse, List.mem_range'_1]; exact hin)
      · refine Or.inr ⟨hlt, ?_⟩
        rwa [hs.pte, Mm.mapFrames_pte_other] at hres
        intro i hi hsame
        have heq := hsame.eq_of_lt hlt (by omega)
        omega
    · rintro (ha | ⟨hlt, hres⟩)
      · obtain ⟨hlt, _, hres⟩ := hnew a ha
        exact ⟨hlt, hres⟩
      · refine ⟨hlt, ?_⟩
        rw [hs.pte]
        exact Mm.mapFrames_resident fs mm pgn a (Or.inl hres)
  · -- within the event the page number decides
    rw [List.pairwise_reverse]
    refine List.Pairwise.imp_of_mem ?_ List.pairwise_lt_range'
    intro a b ha hb hab
    obtain ⟨_, ha, ha'⟩ := hnew a (List.mem_reverse.mpr ha)
    obtain ⟨_, hb, hb'⟩ := hnew b (List.mem_reverse.mpr hb)
    rw [stamp_new ha ha', stamp_new hb hb', Prod.Lex.toLex_lt_toLex]
    exact Or.inr ⟨rfl, hab⟩
  · intro a ha b hb
    obtain ⟨_, hres, hres'⟩ := hnew a ha
    exact h.lt_stamp hb hres hres'

/-- A fault: the victim departs from the end of the list, the page arrives at its head. -/
theorem Mm.Ordered.fault {pgn v s : Nat} {pgs : List Nat} (h : mm.Ordered since now)
    (hpgn : pgn < 2 ^ 45) (hz : mm.pte pgn = 0) (hf : mm.fifoPgn = pgs ++ [v])
    (hs : (mm.evict pgn v s pgs).SamePages mm') :
    Recency.Exact mm'.InRam (stamp now since mm.pte mm'.pte) mm'.fifoPgn := by
  have hv : mm.InRam v := (h.exact.mem v).mp (by rw [hf]; simp)
  have hold : ¬ Resident (mm.pte pgn) := by rw [hz]; exact zero_not_resident
  have hnew : Resident (mm'.pte pgn) := by
    rw [hs.pte]
    exact (Mm.evict_pte_target mm pgn pgn v s pgs (PageTable.SamePage.refl pgn)).1
  have hexact := h.exact
  rw [hf] at hexact
  have hrest : Recency.Exact (fun a => mm.InRam a ∧ a ≠ v) since pgs :=
    hexact.depart (fun _ => Iff.rfl)
  rw [hs.fifo, Mm.evict_fifoPgn, ← List.singleton_append]
  refine hrest.arrive ?_ (fun a ha => stamp_old ha.1.2) (List.pairwise_singleton _ _) ?_
  · intro a
    rw [List.mem_singleton]
    constructor
    · rintro ⟨hlt, hres⟩
      by_cases hap : a = pgn
      · exact Or.inl hap
      · have hne : ¬ PageTable.SamePage a pgn := fun hsame => hap (hsame.eq_of_lt hlt hpgn)
        rw [hs.pte] at hres
        by_cases hav : PageTable.SamePage a v
        · exact absurd (Mm.evict_pte_victim mm a pgn v s pgs hne hav).1 hres.not_swapped
        · rw [Mm.evict_pte_other mm a pgn v s pgs hne hav] at hres
          exact Or.inr ⟨⟨hlt, hres⟩, fun heq => hav (heq ▸ PageTable.SamePage.refl v)⟩
    · rintro (rfl | ⟨⟨hlt, hres⟩, hne⟩)
      · exact ⟨hpgn, hnew⟩
      · refine ⟨hlt, ?_⟩
        have hap : ¬ PageTable.SamePage a pgn := by
          intro hsame
          rw [hsame.eq_of_lt hlt hpgn] at hres
          exact hold hres
        rw [hs.pte, Mm.evict_pte_other mm a pgn v s pgs hap
          (fun hsame => hne (hsame.eq_of_lt hlt hv.1))]
        exact hres
  · intro a ha b hb
    obtain rfl := List.mem_singleton.mp ha
    exact h.lt_stamp hb.1 hold hnew

/-- A safe instruction keeps the list of its process in order. -/
theorem Mm.Ordered.move (h : mm.Ordered since now) (hw : k.Wf) (hmm : k.ownMm p = some mm)
    (hsafe : ListSafe k p ins) (hmove : PageMove k p mm ins mm') :
    mm'.Ordered (stamp now since mm.pte mm'.pte) (now + 1) := by
  refine ⟨?_, h.past_stamp⟩
  cases hmove with
  | still hs =>
      rw [hs.fifo]
      exact h.exact.congr hs.inRam (fun a ha => stamp_old ha.2)
  | grow hreq hlt hn hs =>
      have hlen := grow_pages_lt hw hmm (pagesFor_pos hlt) hn
      refine h.grow hlen (fun i hi => hsafe.grow mm _ hmm hreq hlt hn i ?_) hs
      rwa [List.length_take_of_le hn] at hi
  | @fault addr _ _ _ haddr hz hf hs =>
      have hpgn := pagingPgn_lt addr
      exact h.fault (by omega) hz hf hs
  | drop haddr hz hf hswp => exact absurd hswp (hsafe.fault mm _ hmm haddr hz hf)
  | @clear addr n hp hreq hs =>
      have hkeep : ∀ m, Resident (mm'.pte m) ↔ Resident (mm.pte m) := by
        intro m
        rw [hs.pte]
        rcases pte_vmapPgdMemset mm addr n m with ⟨hc, h0⟩ | ⟨_, h0⟩
        · have hnot := hsafe.clear mm addr n hmm hp hreq m hc
          rw [h0]
          exact ⟨fun hz => absurd hz zero_not_resident, fun hres => absurd hres hnot⟩
        · rw [h0]
      rw [hs.fifo, (vmapPgdMemset_frame mm addr n).2.2]
      exact h.exact.congr (fun m => and_congr_right fun _ => hkeep m)
        (fun m hm => stamp_old hm.2)

end Ordered

/-- Every list is in order, with no arrival in the future. -/
def Timed.Ordered (t : Timed) : Prop :=
  ∀ p mm, t.sys.krnl.ownMm p = some mm → mm.Ordered (t.since p) t.now

/-- An event that leaves a process's structure alone leaves its times alone. -/
theorem Timed.Ordered.kept {t : Timed} {sys : Sys} {q : Pid} {mm : Mm} (h : t.Ordered)
    (heq : sys.krnl.ownMm q = t.sys.krnl.ownMm q) (hmm : sys.krnl.ownMm q = some mm) :
    mm.Ordered (stamp t.now (t.since q) (t.sys.krnl.pte q) (sys.krnl.pte q)) (t.now + 1) := by
  have hold : t.sys.krnl.ownMm q = some mm := heq.symm.trans hmm
  rw [stamp_same (fun n => by rw [Krnl.pte_of hmm, Krnl.pte_of hold])]
  exact (h q mm hold).later (Nat.le_succ _)

/-- A safe event keeps every list in order. -/
theorem Timed.Ordered.step {t t' : Timed} {e : Event} (h : t.Ordered) (hw : t.sys.Wf)
    (hok : ListSafe.Ok t.sys e) (hs : timedStep t e = some t') : t'.Ordered := by
  rw [timedStep, Option.map_eq_some_iff] at hs
  obtain ⟨sys, hs, rfl⟩ := hs
  intro q mm hmm
  cases e with
  | create p prio symrgtbl =>
      obtain ⟨_, hnone, rfl⟩ := step_create hs
      by_cases hq : q = p
      · subst hq
        obtain rfl : initMm symrgtbl = mm :=
          Option.some.inj ((Krnl.setMm_self _ _ _).symm.trans hmm)
        have hout : ∀ n, ¬ (initMm symrgtbl).InRam n := by
          rintro n ⟨_, hres⟩
          rw [initMm_pte] at hres
          exact zero_not_resident hres
        exact ⟨.nil hout, fun n hn => absurd hn (hout n)⟩
      · exact h.kept (Krnl.setMm_of_ne _ _ _ hq) hmm
  | add => obtain ⟨_, _, _, _, rfl⟩ := step_add hs; exact h.kept rfl hmm
  | get c =>
      obtain ⟨_, ⟨_, rfl⟩ | ⟨_, _, rfl⟩⟩ := step_get hs
      · exact h.kept rfl hmm
      · exact h.kept rfl hmm
  | put c => obtain ⟨_, _, _, _, rfl⟩ := step_put hs; exact h.kept rfl hmm
  | finish c => obtain ⟨_, _, rfl⟩ := step_finish hs; exact h.kept rfl hmm
  | restore c => obtain ⟨_, _, rfl⟩ := step_restore hs; exact h.kept rfl hmm
  | run c ins junk =>
      obtain ⟨p, k', st, hc, hexec, rfl⟩ := step_run hs
      obtain ⟨mm₀, hmm₀⟩ := Option.isSome_iff_exists.mp (hw.held c p (by rw [hc]; rfl))
      by_cases hq : q = p
      · subst hq
        obtain ⟨mm', hmm', hmove⟩ := exec_pages hw.krnl hmm₀ hexec
        obtain rfl : mm' = mm := Option.some.inj (hmm'.symm.trans hmm)
        have hold : t.sys.krnl.pte q = mm₀.pte := funext fun n => Krnl.pte_of hmm₀ n
        have hnew : k'.pte q = mm'.pte := funext fun n => Krnl.pte_of hmm' n
        show mm'.Ordered (stamp t.now (t.since q) (t.sys.krnl.pte q) (k'.pte q)) (t.now + 1)
        rw [hold, hnew]
        exact (h q mm₀ hmm₀).move hw.krnl hmm₀ (hok c ins junk q rfl hc) hmove
      · exact h.kept (exec_ownMm_of_ne hw.krnl hmm₀ hq hexec) hmm

/-! ## In every run -/

/-- In a run whose instructions are safe for the list, the list of every process holds exactly
the resident pages, each once, the newest first. -/
theorem fifo_in_order {memramsz memswpsz : Addr} {ramJunk swpJunk : Bool} {es : List Event}
    {t : Timed}
    (h : Lts.Run timedStep (fun t e => ListSafe.Ok t.sys e)
      (.start (boot memramsz memswpsz ramJunk swpJunk)) es t) : InOrder t := by
  have hboth := h.invariant (P := fun t => t.sys.Wf ∧ t.Ordered)
    ⟨boot_wf _ _ _ _, fun _ _ hmm => nomatch hmm⟩ (by
      rintro t e t' ⟨hw, hord⟩ hok hs
      refine ⟨hw.step (e := e) ?_, hord.step hw hok hs⟩
      rw [← timedStep_sys, hs]
      rfl)
  intro p mm hmm
  have hexact := (hboth.2 p mm hmm).exact
  exact ⟨hexact.nodup, hexact⟩

/-- Two pages allocated at once: the second is the newer one. -/
theorem fifo_in_order_alloc : ∃ t mm,
    Lts.Reaches timedStep (.start (boot 512 512 true true))
      (loadOn 0 1 ++ [.run 0 ⟨.alloc, 512, 0, 0, 0⟩ 0]) t ∧
    t.sys.krnl.ownMm 1 = some mm ∧ mm.fifoPgn = [1, 0] ∧ InOrder t := by
  obtain ⟨s, hs⟩ := Option.isSome_iff_exists.mp
    (by decide +kernel : (Lts.exec step (boot 512 512 true true)
      (loadOn 0 1 ++ [.run 0 ⟨.alloc, 512, 0, 0, 0⟩ 0])).isSome)
  have hload : ∀ e ∈ loadOn 0 1, ∀ s, ListSafe.Ok s e := by
    intro e he s c ins junk p hrun
    subst hrun
    simp [loadOn] at he
  have hrun : Lts.Run step ListSafe.Ok _ _ s := run_loadOn hload hs (fun m hm => by
    have hcpu : m.cpu 0 = .restored 1 := Lts.exec_map (g := fun s => s.cpu 0) hm rfl
    have hnew : m.krnl.ownMm 1 = some (initMm fun _ => ⟨0, 0⟩) :=
      Lts.exec_map (g := fun s => s.krnl.ownMm 1) hm rfl
    intro c ins junk p he hc
    cases he
    obtain rfl : 1 = p := Cpu.restored.inj (hcpu.symm.trans hc)
    refine ⟨?_, ?_, ?_⟩
    · intro mm sz hmm _ _ _ i _
      obtain rfl : _ = mm := Option.some.inj (hnew.symm.trans hmm)
      rw [initMm_pte]
      exact zero_not_resident
    · intro _ _ _ h
      cases h
    · intro _ _ _ _ _ h
      cases h)
  obtain ⟨t, htimed, rfl⟩ :=
    hrun.instrument Timed.sys (.start (boot 512 512 true true)) timedStep_sys
  have hfifo : (t.sys.krnl.ownMm 1).map (·.fifoPgn) = some [1, 0] :=
    Lts.exec_map (g := fun s => (s.krnl.ownMm 1).map (·.fifoPgn)) hs (by decide +kernel)
  obtain ⟨mm, hmm, hlist⟩ := Option.map_eq_some_iff.mp hfifo
  exact ⟨t, mm, htimed.reaches, hmm, hlist, fifo_in_order htimed⟩

/-- Three faults on a swap device of two frames.  The third takes page 2 off the list, finds no
swap frame and returns: page 2 is resident and on no list. -/
theorem lost_victim : ∃ t mm,
    Lts.Reaches timedStep (.start (boot 256 512 true true)) (loadOn 0 1 ++
      [.run 0 ⟨.alloc, 256, 0, 0, 0⟩ 0, .restore 0, .run 0 ⟨.write, 7, 0, 256, 0⟩ 0, .restore 0,
        .run 0 ⟨.write, 7, 0, 512, 0⟩ 0, .restore 0, .run 0 ⟨.write, 7, 0, 768, 0⟩ 0]) t ∧
    t.sys.krnl.ownMm 1 = some mm ∧ Resident (mm.pte 2) ∧ mm.fifoPgn = [] ∧ ¬ InOrder t := by
  obtain ⟨s, hs⟩ := Option.isSome_iff_exists.mp
    (by decide +kernel : (Lts.exec step (boot 256 512 true true) (loadOn 0 1 ++
      [.run 0 ⟨.alloc, 256, 0, 0, 0⟩ 0, .restore 0, .run 0 ⟨.write, 7, 0, 256, 0⟩ 0, .restore 0,
        .run 0 ⟨.write, 7, 0, 512, 0⟩ 0, .restore 0,
        .run 0 ⟨.write, 7, 0, 768, 0⟩ 0])).isSome)
  obtain ⟨t, ht, rfl⟩ := (Lts.reaches_of_exec hs).instrument Timed.sys
    (.start (boot 256 512 true true)) timedStep_sys
  have hread : (t.sys.krnl.ownMm 1).map (fun mm => (decide (Resident (mm.pte 2)), mm.fifoPgn)) =
      some (true, []) :=
    Lts.exec_map (g := fun s => (s.krnl.ownMm 1).map
      (fun mm => (decide (Resident (mm.pte 2)), mm.fifoPgn))) hs (by decide +kernel)
  obtain ⟨mm, hmm, hpair⟩ := Option.map_eq_some_iff.mp hread
  obtain ⟨hres, hlist⟩ := Prod.mk.inj hpair
  refine ⟨t, mm, ht, hmm, of_decide_eq_true hres, hlist, fun h => ?_⟩
  have hmem := ((h 1 mm hmm).2.mem 2).mpr ⟨by decide, of_decide_eq_true hres⟩
  rw [hlist] at hmem
  exact nomatch hmem

end SimpleOs
