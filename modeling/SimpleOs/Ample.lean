/-
# `SimpleOs.Ample` — programs that run into no undefined behaviour

The frame field of an entry has 13 bits.  On a RAM of at least 2^13 frames, as
the default is, whatever the field holds names a frame, so that even a stray
entry sends no access outside the storage.  What is left is up to the program:
the ids and sizes it passes, and the physical addresses it may pass in a system
call.

`programs_complete`: threads that run tame programs on such a machine meet no
undefined behaviour, and can always go on to the end.  An instruction is one
step of these threads, as in `Whole`.
-/
import SimpleOs.Isolation
import SimpleOs.Lib.Related
import SimpleOs.Whole

namespace SimpleOs

open Relational

/-- RAM has a frame for every value of the frame field, and the free lists end in NULL. -/
structure Krnl.Ample (k : Krnl) : Prop where
  frames : 2 ^ 13 ≤ k.mram.numfp
  ram : k.mram.freeFpList.closed = true
  swp : k.activeMswp.freeFpList.closed = true

/-- The library handles the id, the size that is asked for overflows nothing, and a call of
`__sys_memmap` passes no physical address. -/
structure Inst.Tame (ins : Inst) : Prop where
  id : ins.IdInBounds
  size : ins.opcode = .alloc → SizeFits ins.arg0
  call : ins.opcode = .syscall → ins.arg0.setWidth 32 = (17 : BitVec 32) →
    (ins.arg1.setWidth 32).toInt ∉ [sysmemSwpOp, sysmemIoRead, sysmemIoWrite]

/-! ## One instruction -/

section Exec
variable {k : Krnl} {p : Pid} {mm : Mm} {ins : Inst} {junk : Byte}

/-- The fault handler finds the frame it copies out. -/
theorem pgGetpage_succeeds (h : k.Ample) (hw : k.Wf) (hmm : k.ownMm p = some mm) (pgn : Nat) :
    Succeeds (pgGetpage k mm pgn p junk) := by
  rcases pgGetpage_returns junk hw hmm
    (fun _ _ _ _ _ _ _ => (pagingFpn_lt _).trans_le h.frames) with ⟨k', r, hok⟩ | ⟨hopen, _⟩
  · exact ⟨_, hok⟩
  · rw [h.swp] at hopen
    cases hopen

/-- The byte of the frame it returns is inside RAM. -/
theorem pgGetpage_io_succeeds {k₁ : Krnl} {pgn f off : Nat} {a1 a3 : Addr} (h : k.Ample)
    (hw : k.Wf) (hmm : k.ownMm p = some mm) (hoff : off < 256) (hop : a1 = 4 ∨ a1 = 5)
    (hpage : pgGetpage k mm pgn p junk = .ok (k₁, some f)) :
    Succeeds (syscall k₁ p 17 { a1, a2 := phyaddr f off, a3 } junk) := by
  obtain ⟨hram, _, _, hlt⟩ := pgGetpage_ram hw hmm hpage
  have hf := hlt f rfl
  refine syscall_io_defined hop (by rw [hram]; exact hw.ram.rdm) ?_
  rw [viaU32_phyaddr hf hoff, hram]
  exact hw.ram.inStorage (hf.trans_le h.frames) hoff

variable {addr : BitVec 32}

theorem pgGetval_succeeds (data : Byte) (h : k.Ample) (hw : k.Wf) (hmm : k.ownMm p = some mm) :
    Succeeds (pgGetval k mm addr data p junk) := by
  refine (pgGetpage_succeeds h hw hmm _).bind fun ⟨k₁, r⟩ hpage => ?_
  cases r with
  | none => exact .ok _
  | some f =>
      exact (pgGetpage_io_succeeds h hw hmm (pagingOffst_lt addr) (Or.inl rfl) hpage).bind
        fun _ _ => .ok _

theorem pgSetval_succeeds (value : Byte) (h : k.Ample) (hw : k.Wf) (hmm : k.ownMm p = some mm) :
    Succeeds (pgSetval k mm addr value p junk) := by
  refine (pgGetpage_succeeds h hw hmm _).bind fun ⟨k₁, r⟩ hpage => ?_
  cases r with
  | none => exact .ok _
  | some f =>
      exact (pgGetpage_io_succeeds h hw hmm (pagingOffst_lt addr) (Or.inr rfl) hpage).bind
        fun _ _ => .ok _

theorem read_succeeds (h : k.Ample) (hw : k.Wf) (hmm : k.ownMm p = some mm)
    (hop : ins.opcode = .read) (hid : ins.IdInBounds)
    (hptr : ∃ q, k.mm = some q ∧ (k.ownMm q).isSome) : Succeeds (exec k p ins junk) := by
  simp only [Inst.IdInBounds, hop] at hid
  obtain ⟨q, hq, hsome⟩ := hptr
  obtain ⟨mm', hmm'⟩ := Option.isSome_iff_exists.mp hsome
  simp only [exec, hop, libread, read, hmm]
  refine Succeeds.bind (Succeeds.bind ?_ fun _ _ => .ok _) fun _ _ => .ok _
  cases hr : getSymrgById (ins.arg0.setWidth 32).toInt with
  | none => exact .ok _
  | some r =>
      obtain ⟨rfl, h0, hlt⟩ := getSymrgById_inBounds hid hr
      have hentry : readEntry k (ins.arg0.setWidth 32).toInt =
          .ok (q, (ins.arg0.setWidth 32).toInt) := by rw [readEntry, hq]
      have hload : Succeeds (loadEntry k (q, (ins.arg0.setWidth 32).toInt)) := by
        rw [loadEntry, hmm']
        exact ⟨_, Mm.symrg_inBounds mm' h0 hlt⟩
      refine Succeeds.bind ⟨_, hentry⟩ fun ptr hptr => ?_
      obtain rfl := Except.ok.inj (hentry.symm.trans hptr)
      exact hload.bind fun _ _ => (pgGetval_succeeds _ h hw hmm).bind fun _ _ => .ok _

theorem write_succeeds (h : k.Ample) (hw : k.Wf) (hmm : k.ownMm p = some mm)
    (hop : ins.opcode = .write) (hid : ins.IdInBounds) : Succeeds (exec k p ins junk) := by
  simp only [Inst.IdInBounds, hop] at hid
  have hv : mm.getVmaByNum 0 = some mm.vma := by
    rw [(hw.own p mm hmm).single.getVmaByNum]
    rfl
  simp only [exec, hop, libwrite, write, hmm, hv]
  refine Succeeds.bind ?_ fun r _ => ?_
  · cases hr : getSymrgById (ins.arg1.setWidth 32).toInt with
    | none => exact .ok _
    | some r =>
        obtain ⟨rfl, h0, hlt⟩ := getSymrgById_inBounds hid hr
        exact Succeeds.bind ⟨_, Mm.symrg_inBounds mm h0 hlt⟩ fun _ _ =>
          (pgSetval_succeeds _ h hw hmm).bind fun _ _ => .ok _
  · obtain ⟨_, val⟩ := r
    simp only
    split <;> exact .ok _

/-- Growing takes frames that are there, or all of them. -/
theorem incVmaLimit_succeeds (h : k.Ample) (hw : k.Wf) (hmm : k.ownMm p = some mm) (vmaid : Int)
    (sz : Addr) : Succeeds (incVmaLimit k p vmaid (viaU32 sz)) := by
  rw [incVmaLimit_eq hmm (hw.own p mm hmm).single (viaU32_lt sz)]
  split
  · exact .ok _
  · split
    next hn =>
      rw [if_pos (Nat.lt_of_le_of_lt hn hw.free_lt)]
      exact .ok _
    next =>
      rw [if_pos h.ram]
      exact .ok _

/-- A system call of the program, other than one that passes a physical address. -/
theorem libsyscall_succeeds {nr : BitVec 32} {a1 a2 a3 : Addr} (h : k.Ample) (hw : k.Wf)
    (hmm : k.ownMm p = some mm)
    (hcall : nr = 17 → (a1.setWidth 32).toInt ∉ [sysmemSwpOp, sysmemIoRead, sysmemIoWrite]) :
    Succeeds (libsyscall k p nr a1 a2 a3 junk) := by
  refine Succeeds.bind ?_ fun _ _ => .ok _
  rw [syscall]
  split
  next hnr =>
    have hop := hcall hnr
    simp only [List.mem_cons, List.not_mem_nil, or_false, not_or] at hop
    obtain ⟨hswp, hread, hwrite⟩ := hop
    rw [sysMemmap]
    split
    next => exact .ok _
    next q hfind =>
      obtain rfl := findCaller_some hfind
      simp only [if_neg hswp, if_neg hread, if_neg hwrite]
      split
      · refine Succeeds.bind ?_ fun _ _ => .ok _
        rw [memsetCaller, hmm]
        exact .ok _
      · split
        · exact (incVmaLimit_succeeds h hw hmm _ _).bind fun _ _ => .ok _
        · exact .ok _
  next => exact .ok _

/-- A tame instruction is defined. -/
theorem exec_succeeds (h : k.Ample) (hw : k.Wf) (hmm : k.ownMm p = some mm) (htame : ins.Tame)
    (hptr : ∃ q, k.mm = some q ∧ (k.ownMm q).isSome) : Succeeds (exec k p ins junk) := by
  have hs := (hw.own p mm hmm).single
  have hid := htame.id
  cases hop : ins.opcode
  case alloc =>
    simp only [Inst.IdInBounds, hop] at hid
    obtain ⟨⟨_, _, _⟩, halloc⟩ := alloc_defined ins.arg0 junk hmm hs hid.1 hid.2
      (fun _ => htame.size hop) hw.free_lt (Or.inr h.ram)
    simp only [exec, hop, liballoc_of_alloc halloc]
    exact .ok _
  case free =>
    simp only [Inst.IdInBounds, hop] at hid
    simp only [exec, hop, libfree]
    refine Succeeds.bind (free_defined hmm hs hid) fun r _ => ?_
    obtain ⟨_, val⟩ := r
    simp only
    split <;> exact .ok _
  case read => exact read_succeeds h hw hmm hop hid hptr
  case write => exact write_succeeds h hw hmm hop hid
  case syscall =>
    simp only [exec, hop]
    exact libsyscall_succeeds h hw hmm (htame.call hop)
  -- the remaining instructions are stubs
  all_goals
    simp only [exec, hop]
    exact .ok _

end Exec

/-! ## In every run -/

section Runs
variable {memramsz memswpsz : Addr} {ramJunk swpJunk : Bool}

theorem reach_ample {es : List Event} {s : Sys}
    (hram : 2 ^ 13 ≤ (initMemphy memramsz true ramJunk).numfp)
    (hswp : (initMemphy memswpsz true swpJunk).numfp ≠ 1 ∨ swpJunk = true)
    (h : Lts.Reaches step (boot memramsz memswpsz ramJunk swpJunk) es s) : s.krnl.Ample := by
  obtain ⟨hcr, hcs⟩ := reach_closed (Or.inl (by omega)) hswp h
  exact ⟨(reach_numfp h).1.symm ▸ hram, hcr, hcs⟩

/-- A CPU about to run a tame instruction can run it. -/
theorem reach_succeeds {es : List Event} {s : Sys} {c : Nat} {p : Pid} {ins : Inst}
    (hram : 2 ^ 13 ≤ (initMemphy memramsz true ramJunk).numfp)
    (hswp : (initMemphy memswpsz true swpJunk).numfp ≠ 1 ∨ swpJunk = true)
    (h : Lts.Reaches step (boot memramsz memswpsz ramJunk swpJunk) es s)
    (hc : s.cpu c = .restored p) (htame : ins.Tame) (junk : Byte) :
    Succeeds (exec s.krnl p ins junk) := by
  have hw := reach_wf h
  have hp := hw.held c p (by rw [hc]; rfl)
  obtain ⟨mm, hmm⟩ := Option.isSome_iff_exists.mp hp
  exact exec_succeeds (reach_ample hram hswp h) hw.krnl hmm htame (hw.mm p hp)

variable {cfg : OsCfg} {text : Pid → Nat → Inst} {es : List WholeEvent} {w : Whole}

theorem calc_tame : (⟨.calc, 0, 0, 0, 0⟩ : Inst).Tame where
  id := trivial
  size := fun h => Opcode.noConfusion h
  call := fun h => Opcode.noConfusion h

theorem fetch_tame (htext : ∀ p, ∀ k < (cfg.proc p).size, (text p k).Tame) (s : Os) (p : Pid) :
    (s.fetch cfg text p).Tame := by
  rw [Os.fetch]
  split
  next hlt => exact htext p _ hlt
  next => exact calc_tame

theorem never_undefined (htext : ∀ p, ∀ k < (cfg.proc p).size, (text p k).Tame)
    (hram : 2 ^ 13 ≤ (initMemphy memramsz true ramJunk).numfp)
    (hswp : (initMemphy memswpsz true swpJunk).numfp ≠ 1 ∨ swpJunk = true)
    (h : Lts.Reaches (wholeStep cfg text)
      (.start cfg (boot memramsz memswpsz ramJunk swpJunk)) es w) (junk : Whole → Byte) (c : Nat) :
    ¬ w.Undefined cfg text junk c := by
  rintro ⟨p, ub, _, hc, hexec⟩
  obtain ⟨r, hok⟩ := reach_succeeds hram hswp (Whole.projections h).2 hc
    (fetch_tame htext w.os p) (junk w)
  rw [hok] at hexec
  exact nomatch hexec

end Runs

/-- With at least 2^13 frames of RAM, and a swap device of other than one frame (or one whose node
`malloc` left with a NULL link), however threads that run tame programs are interleaved, an
instruction and the creation of a process being one step each, no instruction has undefined
behaviour, and they can go on to the end, where every process has executed its whole program in
memory. -/
theorem programs_complete (cfg : OsCfg) (hcpus : 1 ≤ cfg.numCpus) (hfits : cfg.Fits)
    (text : Pid → Nat → Inst) (htext : ∀ p, ∀ k < (cfg.proc p).size, (text p k).Tame)
    (memramsz memswpsz : Addr) (ramJunk swpJunk : Bool)
    (hram : 2 ^ 13 ≤ (initMemphy memramsz true ramJunk).numfp)
    (hswp : (initMemphy memswpsz true swpJunk).numfp ≠ 1 ∨ swpJunk = true)
    (symrgtbl : Whole → Nat → VmRg) (junk : Whole → Byte) (es : List WholeEvent) (w : Whole)
    (h : Lts.Reaches (wholeStep cfg text)
      (.start cfg (boot memramsz memswpsz ramJunk swpJunk)) es w) :
    (∀ c, ¬ w.Undefined cfg text junk c) ∧
    ∃ es' w', Lts.Run (wholeStep cfg text) (fun w e => e.Chosen symrgtbl junk w) w es' w' ∧
      w'.os.Returned cfg ∧ Ran text w'.log w'.os.log ∧
      ∀ p < cfg.numProcesses, w'.os.executed p = List.range (cfg.proc p).size := by
  refine ⟨never_undefined htext hram hswp h junk, ?_⟩
  obtain ⟨es', w', hrun, hcase⟩ := exists_whole_end hcpus hfits symrgtbl junk h
  have hreach := h.append hrun.reaches
  have hend : w'.os.Returned cfg := hcase.resolve_right fun ⟨c, hub⟩ =>
    never_undefined htext hram hswp hreach junk c hub
  exact ⟨es', w', hrun, hend, ran_of_reaches hreach, fun p hp =>
    (returned_all hcpus hfits (Whole.projections hreach).1 hend hp).2⟩

/-- The size that `read_config` falls back to. -/
theorem default_numfp : (initMemphy 16777216 true false).numfp = 65536 := by
  rw [Memphy.numfp, initMemphy_maxsz]
  decide

/-- Memories of the default size, and a program that allocates. -/
theorem programs_complete_oneAlloc : ∃ es w,
    Lts.Reaches (wholeStep oneProcess oneAlloc)
      (.start oneProcess (boot 16777216 16777216 false false)) es w ∧
    w.os.Returned oneProcess ∧ Ran oneAlloc w.log w.os.log ∧ w.os.executed 0 = [0] := by
  have htame : ∀ p, ∀ k < (oneProcess.proc p).size, (oneAlloc p k).Tame := by
    intro p k _
    refine ⟨?_, fun _ => by simp only [oneAlloc]; decide, fun hop => Opcode.noConfusion hop⟩
    simp only [oneAlloc, Inst.IdInBounds]
    decide
  obtain ⟨_, es, w, hrun, hend, hran, hall⟩ :=
    programs_complete oneProcess (by decide) oneProcess_fits oneAlloc htame 16777216 16777216
      false false (by rw [default_numfp]; decide) (Or.inl (by rw [default_numfp]; decide))
      (fun _ _ => ⟨0, 0⟩) (fun _ => 0) [] _ .nil
  exact ⟨es, w, hrun.reaches, hend, hran, hall 0 (by decide)⟩

end SimpleOs
