/-
# `SimpleOs.Bounds` — when every storage access is in range

The devices check no address.  `Krnl.checked` is the same kernel on devices that
fault at `maxsz`, so that an instruction which avoids `storageBounds` there
passes only addresses below `maxsz` to `MEMPHY_read` and `MEMPHY_write`.

`Mm.Named` is the invariant: the frame field of a resident entry names a frame
of RAM, and the pages on the replacement list are present.  It does not cover
the entries of swapped pages, in whose frame field the low bits of a swap offset
lie; `NamesFrames` says of an instruction that it decodes none of these, unless
what it decodes happens to be a frame of RAM.
-/
import SimpleOs.Reach
import SimpleOs.Undefined

namespace SimpleOs

open Relational

/-! ## Devices that fault at `maxsz` -/

/-- The device with an array of `maxsz` bytes. -/
def Memphy.checked (mp : Memphy) : Memphy := { mp with cap := mp.maxsz.toNat }

def Krnl.checked (k : Krnl) : Krnl :=
  { k with mram := k.mram.checked, activeMswp := k.activeMswp.checked }

theorem Memphy.Random.checked {mp : Memphy} (h : mp.Random) : mp.checked.Random :=
  ⟨h.rdm, Int.self_le_toNat mp.maxsz, h.maxsz_lt⟩

theorem Krnl.Wf.checked {k : Krnl} (h : k.Wf) : k.checked.Wf where
  ram := h.ram.checked
  swp := h.swp.checked
  ramFree := h.ramFree
  ramLen := h.ramLen
  swpFree := h.swpFree
  own := fun p mm hmm => (h.own p mm hmm).congr rfl rfl

/-! ## The invariant -/

/-- The frame field of a resident entry is below `n`, and listed pages are present. -/
structure Mm.Named (mm : Mm) (n : Nat) : Prop where
  resident : ∀ pgn, Resident (mm.pte pgn) → pagingFpn (mm.pte pgn) < n
  listed : ∀ v ∈ mm.fifoPgn, pagingPagePresent (mm.pte v) = true

/-- RAM has `n` frames, and every process names only these. -/
structure FramesNamed (n : Nat) (k : Krnl) : Prop where
  numfp : k.mram.numfp = n
  own : ∀ p mm, k.ownMm p = some mm → mm.Named n

/-- No fault evicts a swapped page whose frame field is no frame of RAM, and no range is
cleared. -/
def rangeGuards (n : Nat) : Guards where
  grow := fun _ _ _ => True
  starve := fun _ => True
  fault := fun mm _ v _ => Swapped (mm.pte v) → pagingFpn (mm.pte v) < n
  clear := fun _ _ _ => False
  grow_quiet := fun _ h => h

section Named
variable {mm : Mm} {n : Nat}

theorem Mm.Named.quiet {mm' : Mm} (h : mm.Named n) (hq : mm.Quiet mm') : mm'.Named n where
  resident := by
    intro pgn hr
    rw [hq.pte] at hr ⊢
    exact h.resident pgn hr
  listed := by
    intro v hv
    rw [hq.pte]
    exact h.listed v (hq.fifo.subset hv)

/-- Mapping frames below `n`. -/
theorem Mm.Named.mapFrames : ∀ {fs : List Nat} {mm : Mm} {pgn : Nat}, mm.Named n →
    (∀ f ∈ fs, f < n) → (mm.mapFrames pgn fs).Named n := by
  intro fs
  induction fs with
  | nil => intro _ _ h _; exact h
  | cons f fs ih =>
      intro mm pgn h hfs
      refine ih ⟨?_, ?_⟩ fun g hg => hfs g (List.mem_cons_of_mem _ hg)
      · intro m hr
        rw [Mm.enlist_pte, pte_pteSetFpn] at hr ⊢
        split at hr
        next hs =>
          rw [if_pos hs, pagingFpn_fpnEntry]
          exact Nat.lt_of_le_of_lt (Nat.mod_le _ _) (hfs f List.mem_cons_self)
        next hs =>
          rw [if_neg hs]
          exact h.resident m hr
      · intro v hv
        rw [Mm.enlist_pte, pte_pteSetFpn]
        split
        next => exact (resident_fpnEntry _ _).present
        next hs =>
          rcases List.mem_cons.mp hv with rfl | hv
          · exact absurd (PageTable.SamePage.refl _) hs
          · exact h.listed v hv

/-- A victim that is not swapped is resident, so either way its frame field names a frame. -/
theorem Mm.Named.victim {v : Nat} (h : mm.Named n) (hv : v ∈ mm.fifoPgn)
    (hs : Swapped (mm.pte v) → pagingFpn (mm.pte v) < n) : pagingFpn (mm.pte v) < n := by
  rcases resident_or_swapped (h.listed v hv) with hr | hr
  · exact h.resident v hr
  · exact hs hr

theorem Mm.Named.evict {pgn v s : Nat} {pgs : List Nat} (h : mm.Named n)
    (hf : mm.fifoPgn = pgs ++ [v]) (hv : pagingFpn (mm.pte v) < n) :
    (mm.evict pgn v s pgs).Named n where
  resident := by
    intro m hr
    by_cases hm : PageTable.SamePage m pgn
    · rw [(Mm.evict_pte_target mm m pgn v s pgs hm).2]
      exact hv
    · by_cases hmv : PageTable.SamePage m v
      · exact absurd (Mm.evict_pte_victim mm m pgn v s pgs hm hmv).1 hr.not_swapped
      · rw [Mm.evict_pte_other mm m pgn v s pgs hm hmv] at hr ⊢
        exact h.resident m hr
  listed := by
    intro u hu
    rw [Mm.evict_fifoPgn] at hu
    by_cases hm : PageTable.SamePage u pgn
    · exact (Mm.evict_pte_target mm u pgn v s pgs hm).1.present
    · by_cases hmv : PageTable.SamePage u v
      · exact (Mm.evict_pte_victim mm u pgn v s pgs hm hmv).1.present
      · rw [Mm.evict_pte_other mm u pgn v s pgs hm hmv]
        rcases List.mem_cons.mp hu with rfl | hu
        · exact absurd (PageTable.SamePage.refl _) hm
        · exact h.listed u (by rw [hf]; exact List.mem_append_left _ hu)

theorem FramesNamed.setMm {k : Krnl} {p : Pid} (h : FramesNamed n k) (hmm : mm.Named n) :
    FramesNamed n (k.setMm p mm) where
  numfp := h.numfp
  own := by
    intro q mm' hq
    by_cases hqp : q = p
    · subst hqp
      rw [Krnl.setMm_self] at hq
      cases hq
      exact hmm
    · rw [Krnl.setMm_of_ne _ _ _ hqp] at hq
      exact h.own q mm' hq

theorem FramesNamed.takeRam {k : Krnl} (h : FramesNamed n k) (fs rest : List Nat) :
    FramesNamed n { k with mram := k.mram.takeAll fs rest } :=
  ⟨h.numfp, h.own⟩

theorem framesNamed_stable (n : Nat) : Stable (rangeGuards n) (FramesNamed n) where
  moves := fun p => {
    quiet := fun h _ hmm hq => h.setMm ((h.own p _ hmm).quiet hq)
    grow := by
      intro k mm m h hw hmm _ _ _
      have hlt : ∀ f ∈ k.mram.freeFpList.fpns.take m, f < n := by
        intro f hf
        rw [← h.numfp]
        exact hw.ramFree f (List.mem_of_mem_take hf)
      have hmap : (mm.mapFrames (mm.sbrk.toNat / 256) (k.mram.freeFpList.fpns.take m)).Named n :=
        (h.own p mm hmm).mapFrames hlt
      exact (h.takeRam _ _).setMm ⟨hmap.resident, hmap.listed⟩
    starve := by
      intro k mm sz h _ hmm _
      exact (h.takeRam _ _).setMm ⟨(h.own p mm hmm).resident, (h.own p mm hmm).listed⟩
    fault := by
      intro k mm pgn v s pgs rest h _ hmm _ _ hf _ hg
      have hk : FramesNamed n { k with activeMswp := k.activeMswp.take s rest } :=
        ⟨h.numfp, h.own⟩
      have hv : v ∈ mm.fifoPgn := by rw [hf]; exact List.mem_append_right _ List.mem_cons_self
      exact hk.setMm ((h.own p mm hmm).evict hf ((h.own p mm hmm).victim hv hg))
    clear := fun _ _ _ hno => absurd hno (fun h => h)
    ram := fun h _ => ⟨h.numfp, h.own⟩
    swp := fun h _ => ⟨h.numfp, h.own⟩ }
  create := by
    intro k p symrgtbl h _ _
    refine h.setMm ⟨fun pgn hr => ?_, fun v hv => ?_⟩
    · rw [initMm_pte] at hr
      exact absurd hr.present (by decide)
    · rw [initMm_fifoPgn] at hv
      exact nomatch hv
  ptr := fun h _ _ => ⟨h.numfp, h.own⟩
  sched := fun h _ => ⟨h.numfp, h.own⟩

end Named

/-! ## One instruction -/

/-- The instruction makes no system call of its own, and decodes no entry of a swapped page,
neither of the page it touches nor of the victim of its fault, unless the low 13 bits of that
entry are a frame of RAM. -/
structure NamesFrames (k : Krnl) (p : Pid) (ins : Inst) : Prop where
  noCall : ins.opcode ≠ .syscall
  touched : ∀ mm addr, k.ownMm p = some mm → accessAddr k mm ins = some addr →
    Swapped (mm.pte (pagingPgn addr)) → pagingFpn (mm.pte (pagingPgn addr)) < k.mram.numfp
  victim : (rangeGuards k.mram.numfp).Allows k p ins

section Exec
variable {k : Krnl} {p : Pid} {mm : Mm} {pgn : Nat} {junk : Byte}

/-- The fault handler copies frames that exist. -/
theorem pgGetpage_inRange (hw : k.Wf) (hmm : k.ownMm p = some mm) (hn : mm.Named k.mram.numfp)
    (hg : (rangeGuards k.mram.numfp).AllowsFault k mm pgn) :
    Avoids .storageBounds (pgGetpage k mm pgn p junk) := by
  have hvic : ∀ pgs v s rest, mm.pte pgn = 0 → mm.fifoPgn = pgs ++ [v] →
      k.activeMswp.freeFpList.fpns = s :: rest → pagingFpn (mm.pte v) < k.mram.numfp := by
    intro pgs v s rest h0 hf hs
    have hv : v ∈ mm.fifoPgn := by rw [hf]; exact List.mem_append_right _ List.mem_cons_self
    exact hn.victim hv (hg pgs v s rest h0 hf hs)
  rcases pgGetpage_returns junk hw hmm hvic with ⟨k', r, hok⟩ | ⟨_, herr⟩
  · rw [hok]
    exact .ok _ _
  · rw [herr]
    exact .error Ub.noConfusion

/-- The frame the fault handler returns exists. -/
theorem pgGetpage_frame {k' : Krnl} {f : Nat} (hw : k.Wf) (hmm : k.ownMm p = some mm)
    (hn : mm.Named k.mram.numfp)
    (ht : Swapped (mm.pte pgn) → pagingFpn (mm.pte pgn) < k.mram.numfp)
    (hg : (rangeGuards k.mram.numfp).AllowsFault k mm pgn)
    (h : pgGetpage k mm pgn p junk = .ok (k', some f)) : f < k.mram.numfp := by
  rcases pgGetpage_effect hw hmm h with ⟨_, _, _, _, _, hr⟩ | ⟨pgs, v, s, rest, h0, hf, hs, _, hr⟩
  · rcases hr with hr | ⟨hpres, hr⟩
    · exact nomatch hr
    · rw [Option.some.inj hr]
      rcases resident_or_swapped hpres with hres | hswp
      · exact hn.resident pgn hres
      · exact ht hswp
  · rw [Option.some.inj hr]
    have hv : v ∈ mm.fifoPgn := by rw [hf]; exact List.mem_append_right _ List.mem_cons_self
    exact hn.victim hv (hg pgs v s rest h0 hf hs)

/-- A byte of a frame that exists is read and written in range. -/
theorem syscall_io_inRange {f off : Nat} {a1 a3 : Addr} (hw : k.Wf) (hf : f < k.mram.numfp)
    (hf' : f < 2 ^ 13) (hoff : off < 256) (hop : a1 = 4 ∨ a1 = 5) :
    Avoids .storageBounds (syscall k p 17 { a1, a2 := phyaddr f off, a3 } junk) := by
  have hin := hw.ram.inStorage hf hoff
  obtain ⟨res, hio⟩ := @syscall_io_defined k p (phyaddr f off) a3 junk a1 hop hw.ram.rdm
    (by rwa [viaU32_phyaddr hf' hoff])
  rw [hio]
  exact .ok _ _

variable {addr : BitVec 32}

/-- The access to the page the fault handler returned. -/
theorem pgGetpage_io_inRange {k₁ : Krnl} {f : Nat} {a1 a3 : Addr} (hw : k.Wf)
    (hmm : k.ownMm p = some mm) (hn : mm.Named k.mram.numfp)
    (ht : Swapped (mm.pte (pagingPgn addr)) → pagingFpn (mm.pte (pagingPgn addr)) < k.mram.numfp)
    (hg : (rangeGuards k.mram.numfp).AllowsFault k mm (pagingPgn addr)) (hop : a1 = 4 ∨ a1 = 5)
    (h : pgGetpage k mm (pagingPgn addr) p junk = .ok (k₁, some f)) :
    Avoids .storageBounds
      (syscall k₁ p 17 { a1, a2 := phyaddr f (pagingOffst addr), a3 } junk) := by
  have hw₁ := (wf_closed p).getpage hw hw hmm (pagingPgn_lt addr)
    (fun _ _ _ _ _ _ _ => trivial) h
  obtain ⟨hram, _, _, hlt⟩ := pgGetpage_ram hw hmm h
  have hf : f < k₁.mram.numfp := by
    rw [hram]
    exact pgGetpage_frame hw hmm hn ht hg h
  exact syscall_io_inRange hw₁ hf (hlt f rfl) (pagingOffst_lt addr) hop

theorem pgGetval_inRange (data : Byte) (hw : k.Wf) (hmm : k.ownMm p = some mm)
    (hn : mm.Named k.mram.numfp)
    (ht : Swapped (mm.pte (pagingPgn addr)) → pagingFpn (mm.pte (pagingPgn addr)) < k.mram.numfp)
    (hg : (rangeGuards k.mram.numfp).AllowsFault k mm (pagingPgn addr)) :
    Avoids .storageBounds (pgGetval k mm addr data p junk) := by
  refine (pgGetpage_inRange hw hmm hn hg).bind fun ⟨k₁, r⟩ hpage => ?_
  cases r with
  | none => exact .ok _ _
  | some f =>
      refine (pgGetpage_io_inRange hw hmm hn ht hg (Or.inl rfl) hpage).bind fun ⟨_, _, _⟩ _ => ?_
      exact .ok _ _

theorem pgSetval_inRange (value : Byte) (hw : k.Wf) (hmm : k.ownMm p = some mm)
    (hn : mm.Named k.mram.numfp)
    (ht : Swapped (mm.pte (pagingPgn addr)) → pagingFpn (mm.pte (pagingPgn addr)) < k.mram.numfp)
    (hg : (rangeGuards k.mram.numfp).AllowsFault k mm (pagingPgn addr)) :
    Avoids .storageBounds (pgSetval k mm addr value p junk) := by
  refine (pgGetpage_inRange hw hmm hn hg).bind fun ⟨k₁, r⟩ hpage => ?_
  cases r with
  | none => exact .ok _ _
  | some f =>
      refine (pgGetpage_io_inRange hw hmm hn ht hg (Or.inr rfl) hpage).bind fun ⟨_, _, _⟩ _ => ?_
      exact .ok _ _

theorem getSymrgById_some {rgid r : Int} (h : getSymrgById rgid = some r) : r = rgid := by
  rw [getSymrgById] at h
  split at h
  · cases h
  · exact (Option.some.inj h).symm

variable {ins : Inst}

theorem read_inRange (hw : k.Wf) (hmm : k.ownMm p = some mm) (hn : mm.Named k.mram.numfp)
    (hop : ins.opcode = .read) (hc : NamesFrames k p ins) :
    Avoids .storageBounds (exec k p ins junk) := by
  simp only [exec, hop, libread, read, hmm]
  cases hid : getSymrgById (ins.arg0.setWidth 32).toInt with
  | none => exact .ok _ _
  | some r =>
      obtain rfl := getSymrgById_some hid
      refine Avoids.bind (Avoids.bind ?_ fun _ _ => .ok _ _) fun _ _ => .ok _ _
      refine (readEntry_avoids Ub.noConfusion).bind fun ptr hptr => Avoids.bind ?_ fun rg hrg => ?_
      · exact loadEntry_avoids Ub.noConfusion (Or.inl Ub.noConfusion)
      · have haddr : accessAddr k mm ins = some ((rg.rgStart + ins.arg1).setWidth 32) := by
          simp only [accessAddr, hop, hptr, hrg]
        exact (pgGetval_inRange _ hw hmm hn (hc.touched mm _ hmm haddr)
          (hc.victim.fault mm _ hmm haddr)).bind fun _ _ => .ok _ _

theorem write_inRange (hw : k.Wf) (hmm : k.ownMm p = some mm) (hn : mm.Named k.mram.numfp)
    (hop : ins.opcode = .write) (hc : NamesFrames k p ins) :
    Avoids .storageBounds (exec k p ins junk) := by
  have hv : mm.getVmaByNum 0 = some mm.vma := by
    rw [(hw.own p mm hmm).single.getVmaByNum]
    rfl
  simp only [exec, hop, libwrite, write, hmm, hv]
  refine Avoids.bind ?_ fun r _ => ?_
  · cases hid : getSymrgById (ins.arg1.setWidth 32).toInt with
    | none => exact .ok _ _
    | some r =>
        obtain rfl := getSymrgById_some hid
        refine (symrg_avoids (Or.inl Ub.noConfusion)).bind fun rg hrg => ?_
        have haddr : accessAddr k mm ins = some ((rg.rgStart + ins.arg2).setWidth 32) := by
          simp only [accessAddr, hop, hrg]
        exact (pgSetval_inRange _ hw hmm hn (hc.touched mm _ hmm haddr)
          (hc.victim.fault mm _ hmm haddr)).bind fun _ _ => .ok _ _
  · obtain ⟨_, val⟩ := r
    simp only
    split <;> exact .ok _ _

/-- An instruction that decodes only frames of RAM stays inside the devices. -/
theorem exec_inRange (hw : k.Wf) (hmm : k.ownMm p = some mm) (hn : mm.Named k.mram.numfp)
    (hc : NamesFrames k p ins) : Avoids .storageBounds (exec k p ins junk) := by
  cases hop : ins.opcode
  case read => exact read_inRange hw hmm hn hop hc
  case write => exact write_inRange hw hmm hn hop hc
  case syscall => exact absurd hop hc.noCall
  case alloc =>
    simp only [exec, hop]
    exact liballoc_avoids Ub.noConfusion Ub.noConfusion (Or.inl Ub.noConfusion) _
  case free =>
    simp only [exec, hop]
    exact libfree_avoids Ub.noConfusion (Or.inl Ub.noConfusion)
  -- the remaining instructions are stubs
  all_goals
    simp only [exec, hop]
    exact .ok _ _

/-- The condition does not mention the arrays. -/
theorem NamesFrames.checked (h : NamesFrames k p ins) : NamesFrames k.checked p ins :=
  ⟨h.noCall, h.touched, ⟨h.victim.grow, h.victim.fault, h.victim.clear⟩⟩

end Exec

/-! ## In every run -/

/-- The instruction an event runs decodes only frames of RAM. -/
def NamesFramesOk (s : Sys) (e : Event) : Prop :=
  ∀ c ins junk p, e = .run c ins junk → s.cpu c = .restored p → NamesFrames s.krnl p ins

section Runs
variable {memramsz memswpsz : Addr} {ramJunk swpJunk : Bool} {es : List Event} {s : Sys}

theorem boot_framesNamed :
    FramesNamed (boot memramsz memswpsz ramJunk swpJunk).krnl.mram.numfp
      (boot memramsz memswpsz ramJunk swpJunk).krnl where
  numfp := rfl
  own := by
    intro p mm hmm
    exact nomatch hmm

theorem reach_framesNamed
    (h : Lts.Run step NamesFramesOk (boot memramsz memswpsz ramJunk swpJunk) es s) :
    ∃ n, FramesNamed n s.krnl := by
  have hboth := h.invariant (P := fun s => s.Wf ∧ ∃ n, FramesNamed n s.krnl)
    ⟨boot_wf _ _ _ _, _, boot_framesNamed⟩ ?_
  · exact hboth.2
  · rintro s e s' ⟨hw, n, hn⟩ hok hs
    refine ⟨hw.step hs, n, (framesNamed_stable n).preserved hn hw ?_ hs⟩
    intro c ins junk p he hc
    have hvic := (hok c ins junk p he hc).victim
    rwa [hn.numfp] at hvic

end Runs

/-- In a run that decodes no entry of a swapped page, unless what it decodes is a frame of RAM,
every address passed to a device is below its `maxsz`. -/
theorem accesses_in_range (memramsz memswpsz : Addr) (ramJunk swpJunk : Bool) (es : List Event)
    (s : Sys) (h : Lts.Run step NamesFramesOk (boot memramsz memswpsz ramJunk swpJunk) es s)
    (c : Nat) (p : Pid) (ins : Inst) (junk : Byte) (hc : s.cpu c = .restored p)
    (hok : NamesFramesOk s (.run c ins junk)) :
    Avoids .storageBounds (exec s.krnl.checked p ins junk) := by
  have hw : s.Wf := reach_wf h
  obtain ⟨n, hn⟩ := reach_framesNamed h
  obtain ⟨mm, hmm⟩ := Option.isSome_iff_exists.mp (hw.held c p (by rw [hc]; rfl))
  have hnames := hok c ins junk p rfl hc
  refine exec_inRange hw.krnl.checked hmm ?_ hnames.checked
  have hnamed := hn.own p mm hmm
  rwa [← hn.numfp] at hnamed

/-- A byte written to a page just allocated. -/
theorem accesses_in_range_write : ∃ s,
    Lts.Reaches step (boot 512 512 true true)
      ((loadOn 0 1 ++ [.run 0 ⟨.alloc, 256, 0, 0, 0⟩ 0]) ++ [.restore 0]) s ∧
    Avoids .storageBounds (exec s.krnl.checked 1 ⟨.write, 7, 0, 255, 0⟩ 0) := by
  obtain ⟨s, hs⟩ := Option.isSome_iff_exists.mp
    (by decide +kernel : (Lts.exec step (boot 512 512 true true)
      ((loadOn 0 1 ++ [.run 0 ⟨.alloc, 256, 0, 0, 0⟩ 0]) ++ [.restore 0])).isSome)
  obtain ⟨s₁, hs₁, hs₂⟩ := Lts.exec_append_some hs
  have hrun₁ : Lts.Run step NamesFramesOk (boot 512 512 true true)
      (loadOn 0 1 ++ [.run 0 ⟨.alloc, 256, 0, 0, 0⟩ 0]) s₁ := by
    refine run_loadOn (fun e he s c ins junk p hrun _ => ?_) hs₁ fun s hs => ?_
    · subst hrun
      simp [loadOn] at he
    · have hc : s.cpu 0 = .restored 1 := Lts.exec_map (g := fun s => s.cpu 0) hs rfl
      have hallow : (rangeGuards s.krnl.mram.numfp).Ok s (.run 0 ⟨.alloc, 256, 0, 0, 0⟩ 0) :=
        Guards.ok_alloc hc
          (Lts.exec_map (g := fun s => s.krnl.ownMm 1) (a := some (initMm fun _ => ⟨0, 0⟩)) hs rfl)
          rfl (fun _ => by rw [Guards.AllowsGrow]; split <;> trivial)
      intro c ins junk p he hcp
      have hvic := hallow c ins junk p he hcp
      cases he
      refine ⟨by decide, ?_, hvic⟩
      intro _ _ _ haddr
      cases haddr
  have hrun := hrun₁.append ((Lts.reaches_of_exec hs₂).of_reaches
    (fun e he s c ins junk p hrun => by
    subst hrun
    simp at he))
  have hc : s.cpu 0 = .restored 1 := Lts.exec_map (g := fun s => s.cpu 0) hs (by decide +kernel)
  have hpage : (s.krnl.ownMm 1).map (fun mm =>
      (accessAddr s.krnl mm ⟨.write, 7, 0, 255, 0⟩, mm.pte 0)) = some (some 255, 0x80000000) :=
    Lts.exec_map (g := fun s => (s.krnl.ownMm 1).map (fun mm =>
      (accessAddr s.krnl mm ⟨.write, 7, 0, 255, 0⟩, mm.pte 0))) hs (by decide +kernel)
  obtain ⟨mm, hmm, htuple⟩ := Option.map_eq_some_iff.mp hpage
  obtain ⟨haddr, hpte⟩ := Prod.mk.inj htuple
  -- page 0 is resident, so the access neither decodes a swapped entry nor faults
  have hat : ∀ addr, accessAddr s.krnl mm ⟨.write, 7, 0, 255, 0⟩ = some addr →
      pagingPgn addr = 0 := by
    intro addr h
    obtain rfl : addr = 255 := Option.some.inj (h.symm.trans haddr)
    decide
  refine ⟨s, hrun.reaches, accesses_in_range 512 512 true true _ s hrun 0 1 _ 0 hc ?_⟩
  have hallow : (rangeGuards s.krnl.mram.numfp).Ok s (.run 0 ⟨.write, 7, 0, 255, 0⟩ 0) :=
    Guards.ok_access hc hmm (Or.inr rfl) fun addr h _ _ _ _ h0 => by
      rw [hat addr h, hpte] at h0
      exact absurd h0 (by decide)
  intro c ins junk p he hcp
  have hvic := hallow c ins junk p he hcp
  cases he
  obtain rfl : 1 = p := by rw [hc] at hcp; exact Cpu.restored.inj hcp
  refine ⟨by decide, fun mm' addr hmm' h hswp => ?_, hvic⟩
  obtain rfl : mm = mm' := Option.some.inj (hmm.symm.trans hmm')
  rw [hat addr h, hpte] at hswp
  exact absurd hswp (by decide)

/-- Page 1 of a process is swapped out to swap frame 1, and the read of a byte of it goes to the
address 8192 of a RAM of 512 bytes. -/
theorem read_out_of_range : ∃ s,
    Lts.Reaches step (boot 512 512 true true) (loadOn 0 1 ++
      [.run 0 ⟨.alloc, 512, 0, 0, 0⟩ 0, .restore 0, .run 0 ⟨.alloc, 256, 1, 0, 0⟩ 0, .restore 0,
        .run 0 ⟨.write, 5, 1, 0, 0⟩ 0, .restore 0, .run 0 ⟨.alloc, 256, 2, 0, 0⟩ 0, .restore 0,
        .run 0 ⟨.write, 6, 2, 0, 0⟩ 0, .restore 0]) s ∧
    s.cpu 0 = .restored 1 ∧
    ¬ Avoids .storageBounds (exec s.krnl.checked 1 ⟨.read, 0, 256, 0, 0⟩ 0) := by
  obtain ⟨s, hs⟩ := Option.isSome_iff_exists.mp
    (by decide +kernel : (Lts.exec step (boot 512 512 true true) (loadOn 0 1 ++
      [.run 0 ⟨.alloc, 512, 0, 0, 0⟩ 0, .restore 0, .run 0 ⟨.alloc, 256, 1, 0, 0⟩ 0, .restore 0,
        .run 0 ⟨.write, 5, 1, 0, 0⟩ 0, .restore 0, .run 0 ⟨.alloc, 256, 2, 0, 0⟩ 0, .restore 0,
        .run 0 ⟨.write, 6, 2, 0, 0⟩ 0, .restore 0])).isSome)
  have herr : (match exec s.krnl.checked 1 ⟨.read, 0, 256, 0, 0⟩ 0 with
      | .error e => some e
      | .ok _ => none) = some Ub.storageBounds :=
    Lts.exec_map (g := fun s => match exec s.krnl.checked 1 ⟨.read, 0, 256, 0, 0⟩ 0 with
      | .error e => some e
      | .ok _ => none) hs (by decide +kernel)
  refine ⟨s, Lts.reaches_of_exec hs, Lts.exec_map (g := fun s => s.cpu 0) hs (by decide +kernel),
    fun hav => ?_⟩
  split at herr
  next e he => exact hav (he.trans (congrArg Except.error (Option.some.inj herr)))
  next => exact nomatch herr

end SimpleOs
