/-
# `SimpleOs.Rule` — the invariant rule of the machine

Whatever an instruction does to the memory system is made of seven moves.
`Closed g p I` says that the property `I` of the kernel survives each of them
when process `p` makes it, where the moves that matter to page ownership —
mapping free frames, losing them, a page fault, clearing a range — are only
considered when the guards `g` admit them.  `Guards.Allows` says that an
instruction makes no move that `g` does not admit.

`Closed.exec` is the rule: an allowed instruction preserves a closed property.
`Krnl.Wf` is its first instance, with no guard at all: device geometry, one area
per process, the shape of the entries, and what the break says about mapped
pages as long as free frames are left.
-/
import SimpleOs.Effects

namespace SimpleOs

/-! ## Well-formed kernels -/

/-- What holds of the memory structure of every process. -/
structure Mm.Wf (mm : Mm) (ram : Memphy) : Prop where
  single : mm.Single
  pte : mm.PteOk
  fifo : ∀ v ∈ mm.fifoPgn, v < 2 ^ 45
  /-- A failed growth takes every frame, so while frames are left none has failed. -/
  brk : ram.freeFpList.fpns ≠ [] → mm.sbrk.toNat % 256 = 0 ∧
    mm.sbrk.toNat / 256 + ram.freeFpList.fpns.length ≤ ram.numfp

/-- What holds of the kernel in every reachable state. -/
structure Krnl.Wf (k : Krnl) : Prop where
  ram : k.mram.Random
  swp : k.activeMswp.Random
  ramFree : ∀ f ∈ k.mram.freeFpList.fpns, f < k.mram.numfp
  ramLen : k.mram.freeFpList.fpns.length ≤ k.mram.numfp
  swpFree : ∀ s ∈ k.activeMswp.freeFpList.fpns, s < k.activeMswp.numfp
  own : ∀ p mm, k.ownMm p = some mm → mm.Wf k.mram

/-- The size of the free frames fits an `int`. -/
theorem Krnl.Wf.free_lt {k : Krnl} (h : k.Wf) : k.mram.freeFpList.fpns.length < 2 ^ 23 :=
  Nat.lt_of_le_of_lt h.ramLen h.ram.numfp_lt

/-- Swap frame numbers survive their trip through `uint32_t`. -/
theorem Krnl.Wf.swpFree_lt {k : Krnl} (h : k.Wf) :
    ∀ s ∈ k.activeMswp.freeFpList.fpns, s < 2 ^ 32 := by
  intro s hs
  have h₁ := h.swpFree s hs
  have h₂ := h.swp.numfp_lt
  omega

/-! ## Moves and guards -/

/-- Nothing that pages are concerned with has changed, except that the replacement list may have
lost its tail. -/
structure Mm.Quiet (mm mm' : Mm) : Prop where
  pte : ∀ n, mm'.pte n = mm.pte n
  fifo : mm'.fifoPgn <+: mm.fifoPgn
  sbrk : mm'.sbrk = mm.sbrk
  single : mm'.Single

theorem Mm.Quiet.trans {mm mm' mm'' : Mm} (h : mm.Quiet mm') (h' : mm'.Quiet mm'') :
    mm.Quiet mm'' :=
  ⟨fun n => (h'.pte n).trans (h.pte n), h'.fifo.trans h.fifo, h'.sbrk.trans h.sbrk, h'.single⟩

theorem Mm.Quiet.touch {mm : Mm} (hs : mm.Single) (pgn : Nat) : mm.Quiet (mm.touch pgn) :=
  ⟨fun n => Mm.touch_pte mm n pgn, List.prefix_refl _, sbrk_congr rfl, hs.congr rfl⟩

theorem Mm.Quiet.setFifo {mm : Mm} (hs : mm.Single) {pgs : List Nat} (h : pgs <+: mm.fifoPgn) :
    mm.Quiet (mm.setFifo pgs) :=
  ⟨fun n => Mm.setFifo_pte mm n pgs, h, sbrk_congr rfl, hs.congr rfl⟩

theorem Mm.Quiet.setEntry {mm : Mm} (hs : mm.Single) (i : Nat) (rg : VmRg) :
    mm.Quiet (mm.setEntry i rg) :=
  ⟨fun _ => rfl, List.prefix_refl _, sbrk_congr rfl, hs.congr rfl⟩

theorem Mm.Quiet.withFree {mm : Mm} (hs : mm.Single) (rgs : List VmRg) :
    mm.Quiet (mm.withFree rgs) :=
  ⟨fun _ => rfl, List.prefix_refl _, rfl, hs.withFree rgs⟩

theorem Mm.Quiet.searched {mm : Mm} (hs : mm.Single) (size : Addr) :
    mm.Quiet (mm.searched size) := by
  obtain ⟨hpgd, hfifo, _, hsbrk, hs'⟩ := Mm.searched_frame hs size
  exact ⟨fun n => by rw [Mm.pte, Mm.pte, hpgd], hfifo ▸ List.prefix_refl _, hsbrk, hs'⟩

theorem Mm.Quiet.enlistFree {mm : Mm} (hs : mm.Single) (rg : VmRg) :
    mm.Quiet (mm.enlistFree rg) := by
  rw [Mm.enlistFree]
  split
  · exact ⟨fun _ => rfl, List.prefix_refl _, rfl, hs⟩
  · exact .withFree hs _

/-- Conditions under which a move is considered: mapping the first `n` free frames of `ram` at the
break, losing all free frames, a fault on page `pgn` with victim `v` and swap frame `s`, clearing
a range. -/
structure Guards where
  grow : Memphy → Mm → Nat → Prop
  starve : Memphy → Prop
  fault : Mm → Nat → Nat → Nat → Prop
  clear : Mm → Addr → Int → Prop
  grow_quiet : ∀ {ram : Memphy} {mm mm' : Mm} {n : Nat}, mm.Quiet mm' →
    grow ram mm n → grow ram mm' n

/-- No condition. -/
def Guards.none : Guards where
  grow := fun _ _ _ => True
  starve := fun _ => True
  fault := fun _ _ _ _ => True
  clear := fun _ _ _ => True
  grow_quiet := fun _ h => h

/-- The number of bytes by which the instruction asks area 0 to grow, if the request gets there. -/
def growRequest (k : Krnl) (p : Pid) (mm : Mm) (ins : Inst) : Option Addr :=
  if p ∈ k.sched.runningList.toList then
    match ins.opcode with
    | .alloc => if (mm.found ins.arg0).isNone then some (viaU32 ins.arg0) else none
    | .syscall =>
        if ins.arg0.setWidth 32 = (17 : BitVec 32) ∧
            (ins.arg1.setWidth 32).toInt = sysmemIncOp ∧
            BitVec.ofInt 64 (ins.arg2.setWidth 32).toInt = 0 then
          some (viaU32 ins.arg3)
        else none
    | _ => none
  else none

theorem growRequest_alloc {k : Krnl} {p : Pid} {mm : Mm} {ins : Inst}
    (hp : p ∈ k.sched.runningList.toList) (hop : ins.opcode = .alloc)
    (hnf : mm.found ins.arg0 = .none) : growRequest k p mm ins = some (viaU32 ins.arg0) := by
  rw [growRequest, if_pos hp]
  simp only [hop, hnf, Option.isNone_none, if_true]

theorem growRequest_syscall {k : Krnl} {p : Pid} {mm : Mm} {ins : Inst}
    (hp : p ∈ k.sched.runningList.toList) (hop : ins.opcode = .syscall)
    (hnr : ins.arg0.setWidth 32 = (17 : BitVec 32))
    (hinc : (ins.arg1.setWidth 32).toInt = sysmemIncOp)
    (hid : BitVec.ofInt 64 (ins.arg2.setWidth 32).toInt = 0) :
    growRequest k p mm ins = some (viaU32 ins.arg3) := by
  rw [growRequest, if_pos hp]
  simp only [hop]
  exact if_pos ⟨hnr, hinc, hid⟩

/-- The range the instruction clears, if it is the MAP request. -/
def clearRequest (ins : Inst) : Option (Addr × Int) :=
  match ins.opcode with
  | .syscall =>
      if ins.arg0.setWidth 32 = (17 : BitVec 32) ∧ (ins.arg1.setWidth 32).toInt = sysmemMapOp then
        some (viaU32 ins.arg2, (ins.arg3.setWidth 32).toInt)
      else none
  | _ => none

/-- The growth `g` admits: enough frames and the guard, or too few and the other guard. -/
def Guards.AllowsGrow (g : Guards) (k : Krnl) (mm : Mm) (sz : Addr) : Prop :=
  if pagesFor sz.toNat ≤ k.mram.freeFpList.fpns.length then g.grow k.mram mm (pagesFor sz.toNat)
  else g.starve k.mram

theorem Guards.AllowsGrow.quiet {g : Guards} {k : Krnl} {p : Pid} {mm mm' : Mm} {sz : Addr}
    (hq : mm.Quiet mm') (h : g.AllowsGrow k mm sz) : g.AllowsGrow (k.setMm p mm') mm' sz := by
  rw [Guards.AllowsGrow] at h ⊢
  rw [Krnl.setMm_mram]
  by_cases hn : pagesFor sz.toNat ≤ k.mram.freeFpList.fpns.length
  · rw [if_pos hn] at h ⊢
    exact g.grow_quiet hq h
  · rw [if_neg hn] at h ⊢
    exact h

/-- Every fault on page `pgn` that finds a victim and a swap frame is admitted. -/
def Guards.AllowsFault (g : Guards) (k : Krnl) (mm : Mm) (pgn : Nat) : Prop :=
  ∀ pgs v s rest, mm.pte pgn = 0 → mm.fifoPgn = pgs ++ [v] →
    k.activeMswp.freeFpList.fpns = s :: rest → g.fault mm pgn v s

/-- The instruction makes no move that `g` does not admit. -/
structure Guards.Allows (g : Guards) (k : Krnl) (p : Pid) (ins : Inst) : Prop where
  grow : ∀ mm sz, k.ownMm p = some mm → growRequest k p mm ins = some sz →
    mm.sbrk < mm.sbrk + sz → g.AllowsGrow k mm sz
  fault : ∀ mm addr, k.ownMm p = some mm → accessAddr k mm ins = some addr →
    g.AllowsFault k mm (pagingPgn addr)
  clear : ∀ mm addr n, k.ownMm p = some mm → clearRequest ins = some (addr, n) → g.clear mm addr n

theorem Guards.none_allows (k : Krnl) (p : Pid) (ins : Inst) : Guards.none.Allows k p ins where
  grow := by
    intro mm sz _ _ _
    rw [Guards.AllowsGrow]
    split <;> trivial
  fault := fun _ _ _ _ _ _ _ _ _ _ _ => trivial
  clear := fun _ _ _ _ _ => trivial

/-- `I` survives every admitted move that process `p` makes in a well-formed kernel. -/
structure Closed (g : Guards) (p : Pid) (I : Krnl → Prop) : Prop where
  quiet : ∀ {k mm mm'}, I k → k.Wf → k.ownMm p = some mm → mm.Quiet mm' → I (k.setMm p mm')
  grow : ∀ {k mm n}, I k → k.Wf → k.ownMm p = some mm → 0 < n →
    n ≤ k.mram.freeFpList.fpns.length → g.grow k.mram mm n → I (k.grow p mm n)
  starve : ∀ {k mm sz}, I k → k.Wf → k.ownMm p = some mm → g.starve k.mram →
    I (k.starve p mm sz)
  fault : ∀ {k mm pgn v s pgs rest}, I k → k.Wf → k.ownMm p = some mm → pgn < 2 ^ 14 →
    mm.pte pgn = 0 → mm.fifoPgn = pgs ++ [v] → k.activeMswp.freeFpList.fpns = s :: rest →
    g.fault mm pgn v s → I (k.fault p mm pgn v s pgs rest)
  clear : ∀ {k mm addr n}, I k → k.Wf → k.ownMm p = some mm → g.clear mm addr n →
    I (k.setMm p (vmapPgdMemset mm addr n))
  ram : ∀ {k addr value}, I k → k.Wf → I { k with mram := k.mram.store addr value }
  swp : ∀ {k src dst}, I k → k.Wf →
    I { k with activeMswp := k.activeMswp.copyCells k.mram src dst 256 }

/-- `I` survives the moves of every process, and those of the loader and the scheduler. -/
structure Stable (g : Guards) (I : Krnl → Prop) : Prop where
  moves : ∀ p, Closed g p I
  create : ∀ {k p symrgtbl}, I k → k.Wf → k.ownMm p = none → I (k.setMm p (initMm symrgtbl))
  ptr : ∀ {k p}, I k → k.Wf → (k.ownMm p).isSome → I { k with mm := some p }
  sched : ∀ {k sched}, I k → k.Wf → I { k with sched := sched }

/-! ## Well-formedness is closed -/

theorem Mm.mapFrames_pteOk : ∀ (fs : List Nat) {mm : Mm} (pgn : Nat), mm.PteOk →
    (mm.mapFrames pgn fs).PteOk := by
  intro fs
  induction fs with
  | nil => intro _ _ h; exact h
  | cons f fs ih =>
      intro mm pgn h
      rw [Mm.mapFrames]
      exact ih (pgn + 1) (h.setFpn pgn f)

/-- The mapped pages are enlisted, nothing else. -/
theorem Mm.mapFrames_fifo {fs : List Nat} {mm : Mm} {pgn v : Nat}
    (hv : v ∈ (mm.mapFrames pgn fs).fifoPgn) :
    v ∈ mm.fifoPgn ∨ (pgn ≤ v ∧ v < pgn + fs.length) := by
  rw [Mm.mapFrames_fifoPgn, List.mem_append, List.mem_reverse, List.mem_range'_1] at hv
  exact hv.symm

/-- Another device with the same free list and geometry. -/
theorem Mm.Wf.congr {mm : Mm} {ram ram' : Memphy} (h : mm.Wf ram)
    (hf : ram'.freeFpList = ram.freeFpList) (hn : ram'.numfp = ram.numfp) : mm.Wf ram' :=
  ⟨h.single, h.pte, h.fifo, by rw [hf, hn]; exact h.brk⟩

/-- Taking frames off the free list. -/
theorem Mm.Wf.takeAll {mm : Mm} {ram : Memphy} (h : mm.Wf ram) (fs : List Nat) {rest : List Nat}
    (hrest : rest.length ≤ ram.freeFpList.fpns.length) : mm.Wf (ram.takeAll fs rest) where
  single := h.single
  pte := h.pte
  fifo := h.fifo
  brk := by
    rw [Memphy.takeAll_fpns, Memphy.takeAll_numfp]
    intro hne
    have hpos : 0 < rest.length := List.length_pos_iff.mpr hne
    have hold : ram.freeFpList.fpns ≠ [] := List.length_pos_iff.mp (by omega)
    obtain ⟨hmod, hle⟩ := h.brk hold
    exact ⟨hmod, by omega⟩

/-- A process's structure replaced. -/
theorem Krnl.Wf.setMm {k : Krnl} (h : k.Wf) {p : Pid} {mm : Mm} (hmm : mm.Wf k.mram) :
    (k.setMm p mm).Wf where
  ram := h.ram
  swp := h.swp
  ramFree := h.ramFree
  ramLen := h.ramLen
  swpFree := h.swpFree
  own := by
    intro q mm' hq
    by_cases hqp : q = p
    · subst hqp
      rw [Krnl.setMm_self] at hq
      cases hq
      exact hmm
    · rw [Krnl.setMm_of_ne _ _ _ hqp] at hq
      exact h.own q mm' hq

/-- The break of a process that grows while frames are left. -/
theorem Mm.Wf.sbrk_bound {mm : Mm} {ram : Memphy} (h : mm.Wf ram) (hram : ram.Random) {n : Nat}
    (hpos : 0 < n) (hn : n ≤ ram.freeFpList.fpns.length) :
    mm.sbrk.toNat % 256 = 0 ∧ mm.sbrk.toNat / 256 + n ≤ ram.numfp ∧ ram.numfp < 2 ^ 23 := by
  have hne : ram.freeFpList.fpns ≠ [] := List.length_pos_iff.mp (by omega)
  obtain ⟨hmod, hle⟩ := h.brk hne
  exact ⟨hmod, by omega, hram.numfp_lt⟩

/-- Moving the break. -/
theorem Krnl.Wf.moveBrk {k : Krnl} (h : k.Wf) {p : Pid} {mm : Mm} {fs rest mapped : List Nat}
    {brk : Addr} (hmm : k.ownMm p = some mm) (hrest : ∃ pre, k.mram.freeFpList.fpns = pre ++ rest)
    (hlt : ∀ v, mm.sbrk.toNat / 256 ≤ v → v < mm.sbrk.toNat / 256 + mapped.length → v < 2 ^ 45)
    (hbrk : rest ≠ [] → brk.toNat % 256 = 0 ∧ brk.toNat / 256 + rest.length ≤ k.mram.numfp) :
    (k.moveBrk p mm fs rest mapped brk).Wf := by
  obtain ⟨pre, hpre⟩ := hrest
  have hlen : rest.length ≤ k.mram.freeFpList.fpns.length := by
    rw [hpre, List.length_append]
    omega
  have hk : ({ k with mram := k.mram.takeAll fs rest } : Krnl).Wf := {
    ram := h.ram.takeAll fs rest
    swp := h.swp
    ramFree := by
      intro f hf
      refine h.ramFree f ?_
      rw [hpre]
      exact List.mem_append_right _ hf
    ramLen := Nat.le_trans hlen h.ramLen
    swpFree := h.swpFree
    own := fun q mm' hq => (h.own q mm' hq).takeAll fs hlen }
  have hw := h.own p mm hmm
  refine hk.setMm ⟨Mm.Single.withVma hw.single.vmId, ?_, ?_, ?_⟩
  · exact Mm.mapFrames_pteOk mapped _ hw.pte
  · intro v hv
    rcases Mm.mapFrames_fifo hv with hv | ⟨h₁, h₂⟩
    · exact hw.fifo v hv
    · exact hlt v h₁ h₂
  · exact hbrk

theorem Mm.evict_pteOk {mm : Mm} (h : mm.PteOk) (pgn v s : Nat) (pgs : List Nat) :
    (mm.evict pgn v s pgs).PteOk := by
  intro m
  rw [Mm.evict, Mm.touch_pte, Mm.enlist_pte]
  have hsaved : (((mm.touch pgn).setFifo pgs).touch v).PteOk := by
    intro n
    rw [Mm.touch_pte, Mm.setFifo_pte, Mm.touch_pte]
    exact h n
  exact (hsaved.setSwap v 0 s).setFpn pgn _ m

theorem wf_closed (p : Pid) : Closed Guards.none p Krnl.Wf where
  quiet := by
    intro k mm mm' h _ hmm hq
    have hw := h.own p mm hmm
    refine h.setMm ⟨hq.single, fun n => ?_, fun v hv => hw.fifo v (hq.fifo.subset hv), ?_⟩
    · rw [hq.pte n]
      exact hw.pte n
    · rw [hq.sbrk]
      exact hw.brk
  grow := by
    intro k mm n h _ hmm hpos hn _
    obtain ⟨hmod, hle, hcap⟩ := (h.own p mm hmm).sbrk_bound h.ram hpos hn
    refine h.moveBrk hmm ⟨_, (List.take_append_drop n _).symm⟩ ?_ ?_
    · intro v _ hv
      rw [List.length_take_of_le hn] at hv
      omega
    · intro hne
      obtain ⟨_, hall⟩ := (h.own p mm hmm).brk (List.length_pos_iff.mp (by omega))
      have hsum : (mm.sbrk + BitVec.ofNat 64 (n * 256)).toNat = mm.sbrk.toNat + n * 256 := by
        rw [BitVec.toNat_add, BitVec.toNat_ofNat]
        omega
      rw [hsum, List.length_drop]
      omega
  starve := by
    intro k mm sz h _ hmm _
    refine h.moveBrk hmm ⟨_, (List.append_nil _).symm⟩ ?_ (fun hne => absurd rfl hne)
    intro v h₁ h₂
    rw [List.length_nil] at h₂
    omega
  fault := by
    intro k mm pgn v s pgs rest h _ hmm hpgn _ hf hs _
    have hw := h.own p mm hmm
    have hk : ({ k with activeMswp := k.activeMswp.take s rest } : Krnl).Wf :=
      ⟨h.ram, h.swp.take s rest, h.ramFree, h.ramLen,
        fun s' hs' => h.swpFree s' (by rw [hs]; exact List.mem_cons_of_mem _ hs'), h.own⟩
    refine hk.setMm ⟨hw.single.congr (Mm.evict_mmap ..), Mm.evict_pteOk hw.pte _ _ _ _, ?_, ?_⟩
    · intro u hu
      rw [Mm.evict_fifoPgn] at hu
      rcases List.mem_cons.mp hu with rfl | hu
      · omega
      · exact hw.fifo u (by rw [hf]; exact List.mem_append_left _ hu)
    · rw [sbrk_congr (Mm.evict_mmap ..)]
      exact hw.brk
  clear := by
    intro k mm addr n h _ hmm _
    have hw := h.own p mm hmm
    obtain ⟨hmap, _, hfifo⟩ := vmapPgdMemset_frame mm addr n
    refine h.setMm ⟨hw.single.congr hmap, fun m => ?_, by rw [hfifo]; exact hw.fifo, ?_⟩
    · rcases pte_vmapPgdMemset mm addr n m with ⟨_, h0⟩ | ⟨_, h0⟩
      · exact Or.inl h0
      · rw [h0]
        exact hw.pte m
    · rw [sbrk_congr hmap]
      exact hw.brk
  ram := fun h _ => ⟨h.ram.store, h.swp, h.ramFree, h.ramLen, h.swpFree,
    fun q mm hq => (h.own q mm hq).congr rfl rfl⟩
  swp := fun h _ => ⟨h.ram, h.swp.copyCells 256, h.ramFree, h.ramLen, h.swpFree, h.own⟩

theorem wf_stable : Stable Guards.none Krnl.Wf where
  moves := wf_closed
  create := by
    intro k p symrgtbl h _ _
    refine h.setMm ⟨initMm_single _, fun n => Or.inl (initMm_pte _ n), fun v hv => ?_, fun _ => ?_⟩
    · rw [initMm_fifoPgn] at hv
      exact nomatch hv
    · rw [initMm_sbrk]
      exact ⟨rfl, by simpa using h.ramLen⟩
  ptr := fun h _ _ => ⟨h.ram, h.swp, h.ramFree, h.ramLen, h.swpFree, h.own⟩
  sched := fun h _ => ⟨h.ram, h.swp, h.ramFree, h.ramLen, h.swpFree, h.own⟩

/-! ## The rule -/

section Rule
variable {g : Guards} {I : Krnl → Prop} {k k' : Krnl} {p : Pid} {mm : Mm} {junk : Byte} {st : Int}

/-- An increment that moves the break needs a page. -/
theorem pagesFor_pos {brk sz : Addr} (h : brk < brk + sz) : 0 < pagesFor sz.toNat := by
  by_contra h0
  have hz : sz = 0 := by
    apply BitVec.eq_of_toNat_eq
    simp only [pagesFor] at h0
    show sz.toNat = 0
    omega
  rw [hz] at h
  exact BitVec.lt_irrefl _ (BitVec.add_zero brk ▸ h)

/-- What a growth request leaves is closed under. -/
theorem Closed.grown (hI : Closed g p I) {sz : Addr} (hk : I k) (hw : k.Wf)
    (hmm : k.ownMm p = some mm) (hg : mm.sbrk < mm.sbrk + sz → p ∈ k.sched.runningList.toList →
      g.AllowsGrow k mm sz) (h : Grown k p mm sz k') : I k' := by
  cases h with
  | lost _ => exact hk
  | refused _ _ => exact hk
  | grow hp hlt hn =>
      have hallow := hg hlt hp
      rw [Guards.AllowsGrow, if_pos hn] at hallow
      exact hI.grow hk hw hmm (pagesFor_pos hlt) hn hallow
  | starve hp hlt hn hc =>
      have hallow := hg hlt hp
      rw [Guards.AllowsGrow, if_neg (by omega)] at hallow
      exact hI.starve hk hw hmm hallow

/-- The four ways `pg_getpage` can return, in terms of what they do to the kernel. -/
theorem pgGetpage_effect {pgn : Nat} {r : Option Nat} (hw : k.Wf) (hmm : k.ownMm p = some mm)
    (h : pgGetpage k mm pgn p junk = .ok (k', r)) :
    (∃ mm', k' = k.setMm p mm' ∧ mm.Quiet mm' ∧ mm'.mmap = mm.mmap ∧
      mm'.symrgtbl = mm.symrgtbl ∧
      (r = none ∨ (pagingPagePresent (mm.pte pgn) = true ∧ r = some (pagingFpn (mm.pte pgn))))) ∨
    (∃ pgs v s rest, mm.pte pgn = 0 ∧ mm.fifoPgn = pgs ++ [v] ∧
      k.activeMswp.freeFpList.fpns = s :: rest ∧ k' = k.evicted p mm pgn v s pgs rest ∧
      r = some (pagingFpn (mm.pte v))) := by
  have hmw := hw.own p mm hmm
  have hq := Mm.Quiet.touch hmw.single pgn
  rcases pgGetpage_cases hmw.pte hw.ram.rdm hw.swp.rdm hw.swpFree_lt h with
    ⟨hpres, hk, hr⟩ | ⟨_, _, hk, hr⟩ | ⟨_, pgs, v, hf, _, hk, hr⟩ |
    ⟨h0, pgs, v, s, rest, hf, hs, hk, hr⟩
  · refine Or.inl ⟨_, hk, hq.trans (.touch hq.single pgn), ?_, ?_, Or.inr ⟨hpres, hr⟩⟩
    · rw [Mm.touch_mmap, Mm.touch_mmap]
    · rw [Mm.touch_symrgtbl, Mm.touch_symrgtbl]
  · exact Or.inl ⟨_, hk, hq, rfl, rfl, Or.inl hr⟩
  · refine Or.inl ⟨_, hk, hq.trans (.setFifo hq.single ?_), rfl, rfl, Or.inl hr⟩
    rw [Mm.touch_fifoPgn, hf]
    exact List.prefix_append _ _
  · exact Or.inr ⟨pgs, v, s, rest, h0, hf, hs, hk, hr⟩

/-- The handler returns if the frame it would copy out exists, unless it follows a free list that
does not end. -/
theorem pgGetpage_returns {pgn : Nat} (junk : Byte) (hw : k.Wf) (hmm : k.ownMm p = some mm)
    (hvic : ∀ pgs v s rest, mm.pte pgn = 0 → mm.fifoPgn = pgs ++ [v] →
      k.activeMswp.freeFpList.fpns = s :: rest → pagingFpn (mm.pte v) < k.mram.numfp) :
    (∃ k' r, pgGetpage k mm pgn p junk = .ok (k', r)) ∨
    (k.activeMswp.freeFpList.closed = false ∧ pgGetpage k mm pgn p junk = .error .wildPointer) := by
  rcases (hw.own p mm hmm).pte pgn with h0 | hpres
  · have hnot : pagingPagePresent (mm.pte pgn) = false := by rw [h0]; exact zero_not_present
    rcases List.eq_nil_or_concat mm.fifoPgn with hf | ⟨pgs, v, hf⟩
    · exact Or.inl ⟨_, _, pgGetpage_noVictim hnot hf⟩
    · rw [List.concat_eq_append] at hf
      cases hs : k.activeMswp.freeFpList.fpns with
      | nil =>
          rw [pgGetpage_noSwap hnot hf hs]
          split
          next => exact Or.inl ⟨_, _, rfl⟩
          next hc => exact Or.inr ⟨Bool.eq_false_iff.mpr hc, rfl⟩
      | cons s rest =>
          have hmem : s ∈ k.activeMswp.freeFpList.fpns := by rw [hs]; exact List.mem_cons_self
          have hram := hw.ram.inStorage (hvic pgs v s rest h0 hf hs) (by decide : 255 < 256)
          have hswp := hw.swp.inStorage (hw.swpFree s hmem) (by decide : 255 < 256)
          rw [pgGetpage_fault h0 hf hs (hw.swpFree_lt s hmem) hw.ram.rdm hw.swp.rdm,
            if_pos (fun _ => by omega)]
          exact Or.inl ⟨_, _, rfl⟩
  · exact Or.inl ⟨_, _, pgGetpage_hit hpres⟩

/-- The fault handler. -/
theorem Closed.getpage (hI : Closed g p I) {pgn : Nat} {r : Option Nat} (hk : I k) (hw : k.Wf)
    (hmm : k.ownMm p = some mm) (hpgn : pgn < 2 ^ 14) (hg : g.AllowsFault k mm pgn)
    (h : pgGetpage k mm pgn p junk = .ok (k', r)) : I k' := by
  rcases pgGetpage_effect hw hmm h with ⟨mm', rfl, hq, _⟩ | ⟨pgs, v, s, rest, h0, hf, hs, rfl, _⟩
  · exact hI.quiet hk hw hmm hq
  · have hfault := hI.fault hk hw hmm hpgn h0 hf hs (hg pgs v s rest h0 hf hs)
    have hwfault := (wf_closed p).fault hw hw hmm hpgn h0 hf hs trivial
    rw [Krnl.evicted, Krnl.copyOut]
    split
    · exact hI.swp hfault hwfault
    · exact hfault

/-- The fault handler leaves RAM, scheduler and `krnl->mm` alone, and a frame it returns fits the
frame field. -/
theorem pgGetpage_ram {pgn : Nat} {r : Option Nat} (hw : k.Wf) (hmm : k.ownMm p = some mm)
    (h : pgGetpage k mm pgn p junk = .ok (k', r)) :
    k'.mram = k.mram ∧ k'.sched = k.sched ∧ k'.mm = k.mm ∧ ∀ f, r = some f → f < 2 ^ 13 := by
  rcases pgGetpage_effect hw hmm h with
    ⟨mm', rfl, _, _, _, hr⟩ | ⟨pgs, v, s, rest, _, _, _, rfl, hr⟩
  · refine ⟨rfl, rfl, rfl, fun f hf => ?_⟩
    rcases hr with hr | ⟨_, hr⟩
    · exact nomatch hf.symm.trans hr
    · obtain rfl : f = _ := Option.some.inj (hf.symm.trans hr)
      exact pagingFpn_lt _
  · refine ⟨?_, ?_, ?_, fun f hf => ?_⟩
    · rw [Krnl.evicted, Krnl.copyOut_mram]; rfl
    · rw [Krnl.evicted, Krnl.copyOut_sched]; rfl
    · rw [Krnl.evicted, Krnl.copyOut_mm]; rfl
    · obtain rfl : f = _ := Option.some.inj (hf.symm.trans hr)
      exact pagingFpn_lt _

/-- READ refuses a bad id, or does what `pg_getpage` does. -/
theorem Krnl.Wf.read_cases {ins : Inst} (hw : k.Wf) (hmm : k.ownMm p = some mm)
    (hop : ins.opcode = .read) (h : SimpleOs.exec k p ins junk = .ok (k', st)) :
    (k' = k ∧ st = -1) ∨
    (∃ addr r, accessAddr k mm ins = some addr ∧ st = 0 ∧
      pgGetpage k mm (pagingPgn addr) p junk = .ok (k', r)) :=
  SimpleOs.read_cases hmm hop
    (fun _ _ _ hpage => by rw [(pgGetpage_ram hw hmm hpage).1]; exact hw.ram.rdm) h

/-- WRITE refuses a bad id, or does what `pg_getpage` does and stores at most one byte in the
frame that returned. -/
theorem Krnl.Wf.write_cases {ins : Inst} (hw : k.Wf) (hmm : k.ownMm p = some mm)
    (hop : ins.opcode = .write) (h : SimpleOs.exec k p ins junk = .ok (k', st)) :
    (k' = k ∧ st = -1) ∨
    (∃ addr k₁ r, accessAddr k mm ins = some addr ∧ st = 0 ∧
      pgGetpage k mm (pagingPgn addr) p junk = .ok (k₁, r) ∧
      ((r = none ∧ k' = k₁) ∨
       (∃ fpn, r = some fpn ∧ p ∉ k₁.sched.runningList.toList ∧ k' = k₁) ∨
       (∃ fpn, r = some fpn ∧ p ∈ k₁.sched.runningList.toList ∧
          k' = { k₁ with mram :=
            k₁.mram.store (fpn * 256 + pagingOffst addr) (ins.arg0.setWidth 8) }))) :=
  SimpleOs.write_cases hmm (hw.own p mm hmm).single hop
    (fun _ _ _ hpage => by
      obtain ⟨hram, _, _, hf⟩ := pgGetpage_ram hw hmm hpage
      exact ⟨by rw [hram]; exact hw.ram.rdm, hf⟩) h

/-- An instruction that the guards allow preserves a closed property. -/
theorem Closed.exec (hI : Closed g p I) {ins : Inst} (hk : I k) (hw : k.Wf)
    (hmm : k.ownMm p = some mm) (hg : g.Allows k p ins)
    (h : exec k p ins junk = .ok (k', st)) : I k' := by
  have hmw := hw.own p mm hmm
  cases hop : ins.opcode
  case alloc =>
      simp only [SimpleOs.exec, hop] at h
      obtain ⟨addr, halloc⟩ := liballoc_ok h
      obtain ⟨_, _, _, hcase⟩ := alloc_cases hmm hmw.single halloc
      have hs₁ := (Mm.searched_frame hmw.single ins.arg0).2.2.2.2
      rcases hcase with ⟨rg, _, _, rfl⟩ | ⟨hnf, _, k₂, mm₂, hgrown, hmm₂, rfl⟩
      · exact hI.quiet hk hw hmm ((Mm.Quiet.searched hmw.single _).trans (.setEntry hs₁ _ _))
      · have hq := Mm.Quiet.searched hmw.single ins.arg0
        have hk₁ := hI.quiet hk hw hmm hq
        have hw₁ := (wf_closed p).quiet hw hw hmm hq
        have hallow : (mm.searched ins.arg0).sbrk < (mm.searched ins.arg0).sbrk + viaU32 ins.arg0 →
            p ∈ (k.setMm p (mm.searched ins.arg0)).sched.runningList.toList →
            g.AllowsGrow (k.setMm p (mm.searched ins.arg0)) (mm.searched ins.arg0)
              (viaU32 ins.arg0) := by
          intro hlt hp
          have hreq := growRequest_alloc hp hop hnf
          rw [hq.sbrk] at hlt
          exact (hg.grow mm _ hmm hreq hlt).quiet hq
        have hk₂ := hI.grown hk₁ hw₁ (Krnl.setMm_self _ _ _) hallow hgrown
        have hw₂ := (wf_closed p).grown hw₁ hw₁ (Krnl.setMm_self _ _ _)
          (fun _ _ => by rw [Guards.AllowsGrow]; split <;> trivial) hgrown
        exact hI.quiet hk₂ hw₂ hmm₂ (.setEntry (hw₂.own p mm₂ hmm₂).single _ _)
  case free =>
      simp only [SimpleOs.exec, hop] at h
      obtain ⟨val, hfree, _⟩ := libfree_ok h
      rcases free_cases hmm hmw.single hfree with ⟨_, rfl⟩ | ⟨_, _, _, _, rfl⟩
      · exact hk
      · have hq := Mm.Quiet.setEntry hmw.single (ins.arg0.setWidth 32).toInt.toNat
          { rgStart := 0, rgEnd := 0 }
        exact hI.quiet hk hw hmm (hq.trans (.enlistFree hq.single _))
  case read =>
      rcases hw.read_cases hmm hop h with ⟨rfl, _⟩ | ⟨addr, r, haddr, _, hpage⟩
      · exact hk
      · exact hI.getpage hk hw hmm (pagingPgn_lt addr) (hg.fault mm addr hmm haddr) hpage
  case write =>
      rcases hw.write_cases hmm hop h with ⟨rfl, _⟩ | ⟨addr, k₁, r, haddr, _, hpage, hcase⟩
      · exact hk
      · have hk₁ := hI.getpage hk hw hmm (pagingPgn_lt addr) (hg.fault mm addr hmm haddr) hpage
        have hw₁ := (wf_closed p).getpage hw hw hmm (pagingPgn_lt addr)
          (fun _ _ _ _ _ _ _ => trivial) hpage
        rcases hcase with ⟨_, rfl⟩ | ⟨_, _, _, rfl⟩ | ⟨fpn, _, _, rfl⟩
        · exact hk₁
        · exact hk₁
        · exact hI.ram hk₁ hw₁
  case syscall =>
      simp only [SimpleOs.exec, hop, libsyscall, bind_ok] at h
      obtain ⟨⟨k₁, regs, ret⟩, hsys, h⟩ := h
      cases h
      rw [syscall] at hsys
      split at hsys
      next hnr =>
        rcases sysMemmap_cases hw.ram.rdm hw.swp.rdm hsys with
          rfl | ⟨mm', hmm', hmap, rfl⟩ | ⟨st', hp, hinc, hlim⟩ | ⟨src, dst, rfl⟩ |
            ⟨addr, value, rfl⟩
        · exact hk
        · refine hI.clear hk hw hmm' (hg.clear mm' _ _ hmm' ?_)
          simp only [clearRequest, hop]
          exact if_pos ⟨hnr, hmap⟩
        · rcases incVmaLimit_cases hmm hmw.single hp (viaU32_lt _) hlim with
            ⟨_, rfl⟩ | ⟨hid, hgrown⟩
          · exact hk
          · refine hI.grown hk hw hmm (fun hlt _ => hg.grow mm _ hmm ?_ hlt) hgrown
            exact growRequest_syscall hp hop hnr hinc hid
        · exact hI.swp hk hw
        · exact hI.ram hk hw
      next => cases hsys; exact hk
  -- the remaining instructions are stubs
  all_goals
    simp only [SimpleOs.exec, hop] at h
    cases h
    exact hk

end Rule

/-! ## Frames of an instruction -/

section Frame
variable {k k' : Krnl} {p : Pid} {mm : Mm} {ins : Inst} {junk : Byte} {st : Int}

/-- An instruction changes no other process's structure. -/
theorem exec_ownMm_of_ne {q : Pid} (hw : k.Wf) (hmm : k.ownMm p = some mm) (hq : q ≠ p)
    (h : exec k p ins junk = .ok (k', st)) : k'.ownMm q = k.ownMm q := by
  have hI : Closed Guards.none p (fun k₁ => k₁.ownMm q = k.ownMm q) := {
    quiet := fun hk _ _ _ => by rw [Krnl.setMm_of_ne _ _ _ hq]; exact hk
    grow := fun hk _ _ _ _ _ => (Krnl.setMm_of_ne _ _ _ hq).trans hk
    starve := fun hk _ _ _ => (Krnl.setMm_of_ne _ _ _ hq).trans hk
    fault := fun hk _ _ _ _ _ _ _ => (Krnl.setMm_of_ne _ _ _ hq).trans hk
    clear := fun hk _ _ _ => by rw [Krnl.setMm_of_ne _ _ _ hq]; exact hk
    ram := fun hk _ => hk
    swp := fun hk _ => hk }
  exact hI.exec rfl hw hmm (Guards.none_allows k p ins) h

/-- An instruction changes neither the scheduler nor `krnl->mm`. -/
theorem exec_sched (hw : k.Wf) (hmm : k.ownMm p = some mm)
    (h : exec k p ins junk = .ok (k', st)) : k'.sched = k.sched ∧ k'.mm = k.mm := by
  have hI : Closed Guards.none p (fun k₁ => k₁.sched = k.sched ∧ k₁.mm = k.mm) :=
    ⟨fun hk _ _ _ => hk, fun hk _ _ _ _ _ => hk, fun hk _ _ _ => hk,
      fun hk _ _ _ _ _ _ _ => hk, fun hk _ _ _ => hk, fun hk _ => hk, fun hk _ => hk⟩
  exact hI.exec ⟨rfl, rfl⟩ hw hmm (Guards.none_allows k p ins) h

/-- No instruction makes a structure disappear. -/
theorem exec_ownMm_isSome {q : Pid} (hw : k.Wf) (hmm : k.ownMm p = some mm)
    (h : exec k p ins junk = .ok (k', st)) (hq : (k.ownMm q).isSome) : (k'.ownMm q).isSome := by
  by_cases hqp : q = p
  · subst hqp
    have hI : Closed Guards.none q (fun k₁ => (k₁.ownMm q).isSome) := {
      quiet := fun _ _ _ _ => by rw [Krnl.setMm_self]; rfl
      grow := fun _ _ _ _ _ _ => by rw [Krnl.grow, Krnl.moveBrk, Krnl.setMm_self]; rfl
      starve := fun _ _ _ _ => by rw [Krnl.starve, Krnl.moveBrk, Krnl.setMm_self]; rfl
      fault := fun _ _ _ _ _ _ _ _ => by rw [Krnl.fault, Krnl.setMm_self]; rfl
      clear := fun _ _ _ _ => by rw [Krnl.setMm_self]; rfl
      ram := fun hk _ => hk
      swp := fun hk _ => hk }
    exact hI.exec hq hw hmm (Guards.none_allows k q ins) h
  · rw [exec_ownMm_of_ne hw hmm hqp h]
    exact hq

end Frame

end SimpleOs
