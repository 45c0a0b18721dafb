/-
# `SimpleOs.Isolation` — what keeps a process out of another's memory

An instruction never touches another process's memory structure
(`exec_ownMm_of_ne`), so what is left is bytes: the devices are shared.  Under
`Owned` a page fault moves bytes of frames nobody else holds; a WRITE stores in
the frame its page holds, unless the page is swapped out and the frame field
of its entry is part of a swap offset.

`Confined` is that condition, together with those under which the instruction
is defined at all: the id is inside the symbol table, and no sum overflows.
-/
import SimpleOs.Content

namespace SimpleOs

/-! ## Undefined behaviour -/

section Defined
variable {k : Krnl} {p : Pid} {mm : Mm} {pgn : Nat} {junk : Byte}

/-- The fault handler is defined: every frame it copies is inside its device. -/
theorem pgGetpage_defined (junk : Byte) (h : Owned k) (hw : k.Wf) (hmm : k.ownMm p = some mm)
    (hallow : ownGuards.AllowsFault k mm pgn) (hc : k.activeMswp.freeFpList.closed = true) :
    ∃ k' r, pgGetpage k mm pgn p junk = .ok (k', r) := by
  have hvic : ∀ pgs v s rest, mm.pte pgn = 0 → mm.fifoPgn = pgs ++ [v] →
      k.activeMswp.freeFpList.fpns = s :: rest → pagingFpn (mm.pte v) < k.mram.numfp := by
    intro pgs v s rest h0 hf hs
    obtain ⟨hres, _⟩ := hallow pgs v s rest h0 hf hs
    rw [← Krnl.pte_of hmm] at hres
    have hown := ramOwner_of_resident hres
    rw [Krnl.pte_of hmm] at hown
    exact h.ram.own_lt _ _ hown
  rcases pgGetpage_returns junk hw hmm hvic with hok | ⟨hopen, _⟩
  · exact hok
  · rw [hc] at hopen
    cases hopen

variable {addr : BitVec 32}

/-- The address computed for a page that was not swapped out is inside RAM. -/
theorem pgGetpage_inStorage {k' : Krnl} {f : Nat} (h : Owned k) (hw : k.Wf)
    (hmm : k.ownMm p = some mm) (hallow : ownGuards.AllowsFault k mm (pagingPgn addr))
    (hns : ¬ Swapped (mm.pte (pagingPgn addr)))
    (hg : pgGetpage k mm (pagingPgn addr) p junk = .ok (k', some f)) :
    k'.mram.rdmflg = true ∧ (viaU32 (phyaddr f (pagingOffst addr))).toNat < k'.mram.cap := by
  have hown := (owned_closed p).getpage h hw hmm (pagingPgn_lt addr) hallow hg
  have hw' := (wf_closed p).getpage hw hw hmm (pagingPgn_lt addr) (fun _ _ _ _ _ _ _ => trivial) hg
  obtain ⟨_, _, _, hf⟩ := pgGetpage_ram hw hmm hg
  obtain ⟨hres, rfl⟩ := pgGetpage_resident hw hmm hns hg
  rw [viaU32_phyaddr (hf _ rfl) (pagingOffst_lt addr)]
  exact ⟨hw'.ram.rdm,
    hw'.ram.inStorage (hown.ram.own_lt _ _ (ramOwner_of_resident hres)) (pagingOffst_lt addr)⟩

theorem pgGetval_defined (data junk : Byte) (h : Owned k) (hw : k.Wf) (hmm : k.ownMm p = some mm)
    (hallow : ownGuards.AllowsFault k mm (pagingPgn addr))
    (hns : ¬ Swapped (mm.pte (pagingPgn addr))) (hc : k.activeMswp.freeFpList.closed = true) :
    ∃ res, pgGetval k mm addr data p junk = .ok res := by
  obtain ⟨k₁, r, hg⟩ := pgGetpage_defined junk h hw hmm hallow hc
  rw [pgGetval, hg]
  cases r with
  | none => exact ⟨_, rfl⟩
  | some f =>
      obtain ⟨hrdm, hin⟩ := pgGetpage_inStorage h hw hmm hallow hns hg
      obtain ⟨res, hio⟩ := @syscall_io_defined k₁ p _ 0 junk 4 (Or.inl rfl) hrdm hin
      simp only [bind, Except.bind, hio]
      exact ⟨_, rfl⟩

theorem pgSetval_defined (value junk : Byte) (h : Owned k) (hw : k.Wf) (hmm : k.ownMm p = some mm)
    (hallow : ownGuards.AllowsFault k mm (pagingPgn addr))
    (hns : ¬ Swapped (mm.pte (pagingPgn addr))) (hc : k.activeMswp.freeFpList.closed = true) :
    ∃ res, pgSetval k mm addr value p junk = .ok res := by
  obtain ⟨k₁, r, hg⟩ := pgGetpage_defined junk h hw hmm hallow hc
  rw [pgSetval, hg]
  cases r with
  | none => exact ⟨_, rfl⟩
  | some f =>
      obtain ⟨hrdm, hin⟩ := pgGetpage_inStorage h hw hmm hallow hns hg
      obtain ⟨res, hio⟩ :=
        @syscall_io_defined k₁ p _ (value.signExtend 64) junk 5 (Or.inr rfl) hrdm hin
      simp only [bind, Except.bind, hio]
      exact ⟨_, rfl⟩

end Defined

/-! ## Confined instructions -/

/-- The id of an instruction is one the library handles: it refuses ids outside the table, but
not the one just past it, and `__alloc` refuses none. -/
def Inst.IdInBounds (ins : Inst) : Prop :=
  match ins.opcode with
  | .alloc => 0 ≤ (ins.arg1.setWidth 32).toInt ∧
      (ins.arg1.setWidth 32).toInt < pagingMaxSymtblSz
  | .free => (ins.arg0.setWidth 32).toInt ≠ pagingMaxSymtblSz
  | .read => (ins.arg0.setWidth 32).toInt ≠ pagingMaxSymtblSz
  | .write => (ins.arg1.setWidth 32).toInt ≠ pagingMaxSymtblSz
  | _ => True

/-- What keeps an instruction of `p` inside the memory of `p`. -/
structure Confined (k : Krnl) (p : Pid) (ins : Inst) : Prop where
  id : ins.IdInBounds
  size : ∀ mm, k.ownMm p = some mm → ins.opcode = .alloc → mm.found ins.arg0 = none →
    SizeFits ins.arg0
  allows : ownGuards.Allows k p ins
  not_swapped : ∀ mm addr, k.ownMm p = some mm → accessAddr k mm ins = some addr →
    ¬ Swapped (mm.pte (pagingPgn addr))

section Exec
variable {k : Krnl} {p : Pid} {mm : Mm} {ins : Inst} {junk : Byte}

/-- An id that is neither refused nor just past the table is inside it. -/
theorem getSymrgById_inBounds {rgid r : Int} (hne : rgid ≠ pagingMaxSymtblSz)
    (h : getSymrgById rgid = some r) : r = rgid ∧ 0 ≤ rgid ∧ rgid < pagingMaxSymtblSz := by
  rw [getSymrgById] at h
  split at h
  next => cases h
  next hb => exact ⟨(Option.some.inj h).symm, by omega, by omega⟩

theorem read_defined (h : Owned k) (hw : k.Wf) (hmm : k.ownMm p = some mm)
    (hop : ins.opcode = .read) (hconf : Confined k p ins)
    (hc : k.activeMswp.freeFpList.closed = true)
    (hptr : ∃ q mm', k.mm = some q ∧ k.ownMm q = some mm') :
    ∃ k' st, exec k p ins junk = .ok (k', st) := by
  have hid := hconf.id
  simp only [Inst.IdInBounds, hop] at hid
  obtain ⟨q, mm', hq, hmm'⟩ := hptr
  simp only [exec, hop, libread, read, hmm]
  generalize hrgid : (ins.arg0.setWidth 32).toInt = rgid at hid ⊢
  split
  next => exact ⟨_, _, rfl⟩
  next r hr =>
    obtain ⟨rfl, h0, hlt⟩ := getSymrgById_inBounds hid hr
    have hentry : readEntry k r = .ok (q, r) := by rw [readEntry, hq]
    have hrg : loadEntry k (q, r) = .ok (mm'.symrgtbl r.toNat) := by
      rw [loadEntry, hmm']
      exact Mm.symrg_inBounds mm' h0 hlt
    have haddr : accessAddr k mm ins =
        some (((mm'.symrgtbl r.toNat).rgStart + ins.arg1).setWidth 32) := by
      simp only [accessAddr, hop, hrgid, hentry, hrg]
    obtain ⟨⟨k₁, st, data⟩, hget⟩ := pgGetval_defined junk junk h hw hmm
      (hconf.allows.fault mm _ hmm haddr) (hconf.not_swapped mm _ hmm haddr) hc
    simp only [hentry, hrg, hget, bind, Except.bind]
    exact ⟨_, _, rfl⟩

theorem write_defined (h : Owned k) (hw : k.Wf) (hmm : k.ownMm p = some mm)
    (hop : ins.opcode = .write) (hconf : Confined k p ins)
    (hc : k.activeMswp.freeFpList.closed = true) :
    ∃ k' st, exec k p ins junk = .ok (k', st) := by
  have hid := hconf.id
  simp only [Inst.IdInBounds, hop] at hid
  have hv : mm.getVmaByNum 0 = some mm.vma := by rw [(hw.own p mm hmm).single.getVmaByNum]; rfl
  simp only [exec, hop, libwrite, write, hmm, hv]
  generalize hrgid : (ins.arg1.setWidth 32).toInt = rgid at hid ⊢
  cases hr : getSymrgById rgid with
  | none => exact ⟨_, _, rfl⟩
  | some r =>
      obtain ⟨rfl, h0, hlt⟩ := getSymrgById_inBounds hid hr
      have hrg := Mm.symrg_inBounds mm h0 hlt
      have haddr : accessAddr k mm ins =
          some (((mm.symrgtbl r.toNat).rgStart + ins.arg2).setWidth 32) := by
        simp only [accessAddr, hop, hrgid, hrg]
      obtain ⟨⟨k₁, st⟩, hset⟩ := pgSetval_defined (ins.arg0.setWidth 8) junk h
        hw hmm (hconf.allows.fault mm _ hmm haddr) (hconf.not_swapped mm _ hmm haddr) hc
      simp only [hrg, hset, bind, Except.bind, pure, Except.pure]
      split <;> exact ⟨_, _, rfl⟩

/-- The four memory instructions. -/
def Inst.IsMemory (ins : Inst) : Prop :=
  ins.opcode = .alloc ∨ ins.opcode = .free ∨ ins.opcode = .read ∨ ins.opcode = .write

/-- A confined memory instruction runs into no undefined behaviour, as long as the free lists of
the devices end in NULL. -/
theorem exec_defined (junk : Byte) (h : Owned k) (hw : k.Wf) (hmm : k.ownMm p = some mm)
    (hop : ins.IsMemory) (hconf : Confined k p ins) (hram : k.mram.freeFpList.closed = true)
    (hswp : k.activeMswp.freeFpList.closed = true)
    (hptr : ∃ q mm', k.mm = some q ∧ k.ownMm q = some mm') :
    ∃ k' st, exec k p ins junk = .ok (k', st) := by
  have hs := (hw.own p mm hmm).single
  have hid := hconf.id
  rcases hop with hop | hop | hop | hop
  · simp only [Inst.IdInBounds, hop] at hid
    obtain ⟨⟨k', val, addr⟩, halloc⟩ := alloc_defined ins.arg0 junk hmm hs
      hid.1 hid.2 (hconf.size mm hmm hop) hw.free_lt (Or.inr hram)
    simp only [exec, hop, liballoc_of_alloc halloc]
    exact ⟨_, _, rfl⟩
  · simp only [Inst.IdInBounds, hop] at hid
    obtain ⟨⟨k', val⟩, hfree⟩ := free_defined hmm hs hid
    simp only [exec, hop, libfree, hfree, bind, Except.bind]
    split <;> exact ⟨_, _, rfl⟩
  · exact read_defined h hw hmm hop hconf hswp hptr
  · exact write_defined h hw hmm hop hconf hswp

end Exec

/-! ## Bytes of other processes -/

section Bytes
variable {k k' : Krnl} {p q : Pid} {mm : Mm} {ins : Inst} {junk : Byte} {st : Int}

/-- A growth moves no bytes. -/
theorem Grown.byte {sz : Addr} (hq : q ≠ p) (h : Grown k p mm sz k') (n o : Nat) :
    k'.byte q n o = k.byte q n o := by
  cases h with
  | lost _ => rfl
  | refused _ _ => rfl
  | grow _ _ _ =>
      refine Krnl.byte_congr ?_ (fun _ => rfl) (fun _ => rfl)
      rw [grow_pte, Krnl.pte_setMm_of_ne _ _ _ hq]
  | starve _ _ _ _ =>
      refine Krnl.byte_congr ?_ (fun _ => rfl) (fun _ => rfl)
      rw [Krnl.starve, Krnl.moveBrk, Krnl.pte_setMm_of_ne _ _ _ hq]
      rfl

theorem Krnl.byte_setMm_of_ne (hq : q ≠ p) (n o : Nat) :
    (k.setMm p mm).byte q n o = k.byte q n o :=
  Krnl.byte_congr (Krnl.pte_setMm_of_ne k mm n hq) (fun _ => rfl) (fun _ => rfl)

/-- A page fault moves bytes of the caller's frames only. -/
theorem pgGetpage_byte {pgn n o : Nat} {r : Option Nat} (h : Owned k) (hw : k.Wf)
    (hmm : k.ownMm p = some mm) (hq : q ≠ p) (ho : o < 256)
    (hg : pgGetpage k mm pgn p junk = .ok (k', r)) : k'.byte q n o = k.byte q n o := by
  rcases pgGetpage_effect hw hmm hg with ⟨mm', rfl, _, _⟩ | ⟨pgs, v, s, rest, _, _, hs, rfl, _⟩
  · exact Krnl.byte_setMm_of_ne hq n o
  · refine Krnl.byte_evicted_other h hs ?_ ho
    rw [Krnl.evicted_pte, fault_pte_of_ne hq]

/-- A confined memory instruction of `p` changes no byte of any page of `q`. -/
theorem exec_byte {n o : Nat} (h : Owned k) (hw : k.Wf) (hmm : k.ownMm p = some mm) (hq : q ≠ p)
    (hop : ins.IsMemory) (hconf : Confined k p ins) (ho : o < 256)
    (hexec : exec k p ins junk = .ok (k', st)) : k'.byte q n o = k.byte q n o := by
  have hs := (hw.own p mm hmm).single
  rcases hop with hop | hop | hop | hop
  · simp only [exec, hop] at hexec
    obtain ⟨addr, halloc⟩ := liballoc_ok hexec
    obtain ⟨_, _, _, ⟨rg, _, _, rfl⟩ | ⟨_, _, k₂, mm₂, hgrown, _, rfl⟩⟩ := alloc_cases hmm hs halloc
    · exact Krnl.byte_setMm_of_ne hq n o
    · rw [Krnl.byte_setMm_of_ne hq, hgrown.byte hq, Krnl.byte_setMm_of_ne hq]
  · simp only [exec, hop] at hexec
    obtain ⟨val, hfree, _⟩ := libfree_ok hexec
    rcases free_cases hmm hs hfree with ⟨_, rfl⟩ | ⟨_, _, _, _, rfl⟩
    · rfl
    · exact Krnl.byte_setMm_of_ne hq n o
  · rcases hw.read_cases hmm hop hexec with ⟨rfl, _⟩ | ⟨addr, r, _, _, hpage⟩
    · rfl
    · exact pgGetpage_byte h hw hmm hq ho hpage
  · rcases hw.write_cases hmm hop hexec with ⟨rfl, _⟩ | ⟨addr, k₁, r, haddr, _, hpage, hcase⟩
    · rfl
    · have hbyte := pgGetpage_byte (n := n) h hw hmm hq ho hpage
      rcases hcase with ⟨_, rfl⟩ | ⟨_, _, _, rfl⟩ | ⟨fpn, rfl, _, rfl⟩
      · exact hbyte
      · exact hbyte
      · -- the byte goes to the frame the caller's page holds
        have hown : Owned k₁ := (owned_closed p).getpage h hw hmm (pagingPgn_lt addr)
          (hconf.allows.fault mm addr hmm haddr) hpage
        obtain ⟨hres, rfl⟩ := pgGetpage_resident hw hmm (hconf.not_swapped mm addr hmm haddr) hpage
        exact (Krnl.byte_poke_of_ne hown hres (fun hc => hq hc.1) ho (pagingOffst_lt addr)).trans
          hbyte

end Bytes

/-! ## In every run -/

/-- After every run that keeps ownership exclusive, a confined memory instruction of `p` is defined
and leaves the structure and the bytes of every other process as they were. -/
theorem isolation {memramsz memswpsz : Addr} {ramJunk swpJunk : Bool} {es : List Event} {s : Sys}
    {c : Nat} {p q : Pid} {ins : Inst} {junk : Byte}
    (hram : (initMemphy memramsz true ramJunk).numfp ≠ 1 ∨ ramJunk = true)
    (hswp : (initMemphy memswpsz true swpJunk).numfp ≠ 1 ∨ swpJunk = true)
    (h : Lts.Run step ownGuards.Ok (boot memramsz memswpsz ramJunk swpJunk) es s)
    (hc : s.cpu c = .restored p) (hq : q ≠ p) (hop : ins.IsMemory)
    (hconf : Confined s.krnl p ins) :
    ∃ k' st, exec s.krnl p ins junk = .ok (k', st) ∧ k'.ownMm q = s.krnl.ownMm q ∧
      ∀ n o, o < 256 → k'.byte q n o = s.krnl.byte q n o := by
  have hwf := reach_wf h
  have hown := reach_owned (fun _ _ hok => hok) h
  obtain ⟨hcr, hcs⟩ := reach_closed hram hswp h
  have hp := hwf.held c p (by rw [hc]; rfl)
  obtain ⟨mm, hmm⟩ := Option.isSome_iff_exists.mp hp
  obtain ⟨owner, hptr, howner⟩ := hwf.mm p hp
  obtain ⟨mm', hmm'⟩ := Option.isSome_iff_exists.mp howner
  obtain ⟨k', st, hexec⟩ := exec_defined junk hown hwf.krnl hmm hop hconf hcr hcs
    ⟨owner, mm', hptr, hmm'⟩
  exact ⟨k', st, hexec, exec_ownMm_of_ne hwf.krnl hmm hq hexec,
    fun n o ho => exec_byte hown hwf.krnl hmm hq hop hconf ho hexec⟩

/-- Process 2 allocates while process 1 holds a page. -/
theorem isolation_alloc : ∃ (s : Sys) (k' : Krnl) (st : Int), s.krnl.byte 1 0 0 = some 0 ∧
    exec s.krnl 2 ⟨.alloc, 256, 0, 0, 0⟩ 0 = .ok (k', st) ∧ k'.byte 1 0 0 = some 0 := by
  obtain ⟨s, hs⟩ := Option.isSome_iff_exists.mp
    (by decide +kernel : (Lts.exec step (boot 512 512 true true)
      ((loadOn 0 1 ++ [.run 0 ⟨.alloc, 256, 0, 0, 0⟩ 0]) ++ loadOn 1 2)).isSome)
  obtain ⟨s₁, hs₁, hs₂⟩ := Lts.exec_append_some hs
  have hsmall : ∀ {es s}, Lts.Reaches step (boot 512 512 true true) es s →
      s.krnl.mram.numfp ≤ 2 ^ 13 := by
    intro es s hreach
    rw [(reach_numfp hreach).1]
    decide +kernel
  have hrun₁ : Lts.Run step ownGuards.Ok _ _ s₁ := run_loadOn (loadOn_ok _) hs₁ (fun s hs => by
    have hreach := Lts.reaches_of_exec hs
    exact Guards.ok_alloc
      (Lts.exec_map (g := fun s => s.cpu 0) hs rfl)
      (Lts.exec_map (g := fun s => s.krnl.ownMm 1) (a := some (initMm fun _ => ⟨0, 0⟩)) hs rfl) rfl
      (fun _ => ownGuards_grow_of_small (reach_wf hreach).krnl (hsmall hreach)))
  have hrun := hrun₁.append ((Lts.reaches_of_exec hs₂).of_reaches (loadOn_ok _))
  have hcpu : s.cpu 1 = .restored 2 := Lts.exec_map (g := fun s => s.cpu 1) hs rfl
  have hbyte : s.krnl.byte 1 0 0 = some 0 :=
    Lts.exec_map (g := fun s => s.krnl.byte 1 0 0) hs (by decide +kernel)
  have hconf : Confined s.krnl 2 ⟨.alloc, 256, 0, 0, 0⟩ := by
    have hok : ownGuards.Ok s (.run 1 ⟨.alloc, 256, 0, 0, 0⟩ 0) :=
      Guards.ok_alloc hcpu
        (Lts.exec_map (g := fun s => s.krnl.ownMm 2) (a := some (initMm fun _ => ⟨0, 0⟩)) hs rfl)
        rfl (fun _ => ownGuards_grow_of_small (reach_wf hrun).krnl (hsmall hrun.reaches))
    exact ⟨⟨by decide, by decide⟩, fun _ _ _ _ => by decide, hok 1 _ 0 2 rfl hcpu,
      fun _ _ _ haddr => nomatch haddr⟩
  obtain ⟨k', st, hexec, _, hkeep⟩ := @isolation _ _ _ _ _ _ _ _ _ _ 0 (Or.inr rfl)
    (Or.inr rfl) hrun hcpu (by decide : (1 : Pid) ≠ 2) (Or.inl rfl) hconf
  exact ⟨s, k', st, hbyte, hexec, by rw [hkeep 0 0 (by decide), hbyte]⟩

/-- Process 1 holds frame 0.  Process 2, whose page 0 was swapped out to swap frame 0, writes to
it, and the byte arrives in the page of process 1. -/
theorem write_reaches_other : ∃ (s : Sys) (k' : Krnl) (st : Int),
    Lts.Reaches step (boot 512 512 true true) ((loadOn 0 1 ++ [.run 0 ⟨.alloc, 256, 0, 0, 0⟩ 0]) ++
      loadOn 1 2 ++ [.run 1 ⟨.alloc, 256, 0, 0, 0⟩ 0, .restore 1, .run 1 ⟨.alloc, 256, 1, 0, 0⟩ 0,
        .restore 1, .run 1 ⟨.write, 5, 1, 0, 0⟩ 0, .restore 1]) s ∧
    s.cpu 1 = .restored 2 ∧ exec s.krnl 2 ⟨.write, 7, 0, 0, 0⟩ 0 = .ok (k', st) ∧
    s.krnl.byte 1 0 0 = some 0 ∧ k'.byte 1 0 0 = some 7 := by
  obtain ⟨s, hs⟩ := Option.isSome_iff_exists.mp
    (by decide +kernel : (Lts.exec step (boot 512 512 true true)
      ((loadOn 0 1 ++ [.run 0 ⟨.alloc, 256, 0, 0, 0⟩ 0]) ++ loadOn 1 2 ++
        [.run 1 ⟨.alloc, 256, 0, 0, 0⟩ 0, .restore 1, .run 1 ⟨.alloc, 256, 1, 0, 0⟩ 0,
          .restore 1, .run 1 ⟨.write, 5, 1, 0, 0⟩ 0, .restore 1])).isSome)
  have hres : (exec s.krnl 2 ⟨.write, 7, 0, 0, 0⟩ 0).toOption.bind (fun r => r.1.byte 1 0 0) =
      some 7 :=
    Lts.exec_map (g := fun s =>
      (exec s.krnl 2 ⟨.write, 7, 0, 0, 0⟩ 0).toOption.bind (fun r => r.1.byte 1 0 0)) hs
      (by decide +kernel)
  cases hexec : exec s.krnl 2 ⟨.write, 7, 0, 0, 0⟩ 0 with
  | error e => rw [hexec] at hres; exact nomatch hres
  | ok r =>
      rw [hexec] at hres
      exact ⟨s, r.1, r.2, Lts.reaches_of_exec hs,
        Lts.exec_map (g := fun s => s.cpu 1) hs (by decide +kernel), hexec,
        Lts.exec_map (g := fun s => s.krnl.byte 1 0 0) hs (by decide +kernel), hres⟩

end SimpleOs
