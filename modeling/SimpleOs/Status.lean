/-
# `SimpleOs.Status` — what the status of READ and WRITE says

Four things can go wrong below `libread` and `libwrite`: the page has no frame
and `pg_getpage` returns -1, the system call does not find the caller, the
device refuses, or the frame that `pg_getpage` returns is not the page's.  The
first three have a status of their own, and each status is dropped by the
function above: `pg_getval` and `pg_setval` drop the system call's, `__read`
and `__write` drop theirs.  The fourth is a swapped page taken for a resident
one.

So WRITE tells the truth where nothing goes wrong, and READ only where it
refuses the id, since it never delivers the byte it fetched.
-/
import SimpleOs.Confinement
import SimpleOs.Content
import SimpleOs.FailedFault

namespace SimpleOs

/-- `libread` or `libwrite` as the instruction calls it: the kernel, the status, and the byte that
is delivered or was to be stored. -/
def access (k : Krnl) (p : Pid) (ins : Inst) (junk : Byte) : Except Ub (Krnl × Int × Byte) :=
  match ins.opcode with
  | .read => do
      let (k, val, dst) ← libread k p (ins.arg0.setWidth 32) ins.arg1 junk
      pure (k, val, dst.setWidth 8)
  | _ => do
      let (k, val) ← libwrite k p (ins.arg0.setWidth 8) (ins.arg1.setWidth 32) ins.arg2 junk
      pure (k, val, ins.arg0.setWidth 8)

/-- Byte `b` is in the RAM frame that backs the address. -/
def Holds (k : Krnl) (p : Pid) (addr : BitVec 32) (b : Byte) : Prop :=
  Resident (k.pte p (pagingPgn addr)) ∧
  k.mram.storage (pagingFpn (k.pte p (pagingPgn addr)) * 256 + pagingOffst addr) = b

/-- A function below the library call reports failure: `pg_getpage` returns -1, the system call
does not find the caller, or the device refuses. -/
inductive FailsBelow (k : Krnl) (p : Pid) (mm : Mm) (addr : BitVec 32) (junk : Byte) : Prop
  | page {k₁ : Krnl} (h : pgGetpage k mm (pagingPgn addr) p junk = .ok (k₁, none)) :
      FailsBelow k p mm addr junk
  | caller {k₁ : Krnl} {f : Nat} (h : pgGetpage k mm (pagingPgn addr) p junk = .ok (k₁, some f))
      (lost : findCaller k₁ p = none) : FailsBelow k p mm addr junk
  | device {k₁ : Krnl} {f : Nat} (h : pgGetpage k mm (pagingPgn addr) p junk = .ok (k₁, some f))
      (refuses : k₁.mram.rdmflg = false) : FailsBelow k p mm addr junk

/-- The call returns 0 only if the byte is where it belongs, and not if anything below failed. -/
def Truthful (k : Krnl) (p : Pid) (mm : Mm) (ins : Inst) : Prop :=
  ∀ junk k' st b, access k p ins junk = .ok (k', st, b) →
    (st = 0 → ∃ addr, accessAddr k mm ins = some addr ∧ Holds k' p addr b) ∧
    ∀ addr, accessAddr k mm ins = some addr → FailsBelow k p mm addr junk → st ≠ 0

/-- The page is in a RAM frame, or there is a victim to give up its frame and a swap frame for the
victim. -/
def Servable (k : Krnl) (mm : Mm) (pgn : Nat) : Prop :=
  ¬ Swapped (mm.pte pgn) ∧
  (mm.pte pgn = 0 → mm.fifoPgn ≠ [] ∧ k.activeMswp.freeFpList.fpns ≠ [])

instance (k : Krnl) (mm : Mm) (pgn : Nat) : Decidable (Servable k mm pgn) :=
  inferInstanceAs (Decidable (_ ∧ _))

section Access
variable {k k' : Krnl} {p : Pid} {mm : Mm} {ins : Inst} {junk : Byte} {st : Int} {b : Byte}

/-- READ delivers what the local variable held. -/
theorem access_read (hop : ins.opcode = .read) (h : access k p ins junk = .ok (k', st, b)) :
    exec k p ins junk = .ok (k', st) ∧ b = junk := by
  simp only [access, hop, bind_ok] at h
  obtain ⟨⟨k₁, val, dst⟩, hlib, h⟩ := h
  cases h
  simp only [exec, hop, hlib]
  exact ⟨rfl, libread_dst hlib⟩

theorem access_write (hop : ins.opcode = .write) (h : access k p ins junk = .ok (k', st, b)) :
    exec k p ins junk = .ok (k', st) ∧ b = ins.arg0.setWidth 8 := by
  simp only [access, hop, bind_ok] at h
  obtain ⟨⟨k₁, val⟩, hlib, h⟩ := h
  cases h
  simp only [exec, hop, hlib]
  exact ⟨trivial, trivial⟩

/-- A refused id makes the status -1. -/
theorem access_refused (hmm : k.ownMm p = some mm) (hs : mm.Single)
    (hop : ins.opcode = .read ∨ ins.opcode = .write) (href : ins.Refused)
    (h : access k p ins junk = .ok (k', st, b)) : st = -1 := by
  have hexec : exec k p ins junk = .ok (k', st) := by
    rcases hop with hop | hop
    · exact (access_read hop h).1
    · exact (access_write hop h).1
  rw [exec_refused hmm hs hop href] at hexec
  cases hexec
  rfl

/-- The handler does not look at uninitialised variables. -/
theorem pgGetpage_junk {pgn : Nat} (hw : k.Wf) (hmm : k.ownMm p = some mm) (junk junk' : Byte) :
    pgGetpage k mm pgn p junk = pgGetpage k mm pgn p junk' := by
  rcases (hw.own p mm hmm).pte pgn with h0 | hp
  · have hp : pagingPagePresent (mm.pte pgn) = false := by rw [h0]; exact zero_not_present
    rcases List.eq_nil_or_concat mm.fifoPgn with hf | ⟨pgs, v, hf⟩
    · rw [pgGetpage_noVictim hp hf, pgGetpage_noVictim hp hf]
    · rw [List.concat_eq_append] at hf
      cases hs : k.activeMswp.freeFpList.fpns with
      | nil => rw [pgGetpage_noSwap hp hf hs, pgGetpage_noSwap hp hf hs]
      | cons s rest =>
          have hlt := hw.swpFree_lt s (by rw [hs]; exact List.mem_cons_self)
          rw [pgGetpage_fault h0 hf hs hlt hw.ram.rdm hw.swp.rdm,
            pgGetpage_fault h0 hf hs hlt hw.ram.rdm hw.swp.rdm]
  · rw [pgGetpage_hit hp, pgGetpage_hit hp]

/-- A frame the handler returned is the page's, unless the page is swapped out. -/
theorem servable_of_some {pgn f : Nat} (hw : k.Wf) (hmm : k.ownMm p = some mm)
    (hres : Resident (k'.pte p pgn)) (h : pgGetpage k mm pgn p junk = .ok (k', some f)) :
    Servable k mm pgn := by
  rcases pgGetpage_effect hw hmm h with
    ⟨mm', rfl, hq, _, _, hr⟩ | ⟨pgs, v, s, rest, h0, hf, hs, _, _⟩
  · rw [Krnl.pte_setMm, hq.pte] at hres
    refine ⟨hres.not_swapped, fun h0 => ?_⟩
    rw [h0] at hres
    exact absurd hres zero_not_resident
  · refine ⟨by rw [h0]; exact zero_not_swapped, fun _ => ⟨?_, ?_⟩⟩
    · rw [hf]
      exact List.append_ne_nil_of_right_ne_nil _ (List.cons_ne_nil v [])
    · rw [hs]
      exact List.cons_ne_nil s rest

/-- A servable page is served. -/
theorem Servable.isSome {pgn : Nat} {r : Option Nat} (hs : Servable k mm pgn) (hw : k.Wf)
    (hmm : k.ownMm p = some mm) (h : pgGetpage k mm pgn p junk = .ok (k', r)) :
    ∃ f, r = some f := by
  cases r with
  | some f => exact ⟨f, rfl⟩
  | none =>
      obtain ⟨hp, hwhy⟩ := pgGetpage_none h
      have h0 : mm.pte pgn = 0 := by
        rcases (hw.own p mm hmm).pte pgn with h0 | hpres
        · exact h0
        · exact absurd (hp.symm.trans hpres) Bool.false_ne_true
      obtain ⟨hf, hfree⟩ := hs.2 h0
      rcases hwhy with ⟨hnil, _⟩ | ⟨_, _, _, hnil, _⟩
      · exact absurd hnil hf
      · exact absurd hnil hfree

/-- No READ that gets past the id tells the truth. -/
theorem read_not_truthful (hw : k.Wf) (hmm : k.ownMm p = some mm) (hop : ins.opcode = .read)
    (hdef : ∀ junk, ∃ res, access k p ins junk = .ok res) (hno : ¬ ins.Refused) :
    ¬ Truthful k p mm ins := by
  intro ht
  have hcall : ∀ junk, ∃ k₁ addr r, accessAddr k mm ins = some addr ∧ Holds k₁ p addr junk ∧
      pgGetpage k mm (pagingPgn addr) p junk = .ok (k₁, r) := by
    intro junk
    obtain ⟨⟨k₁, st, b⟩, hres⟩ := hdef junk
    obtain ⟨hexec, rfl⟩ := access_read hop hres
    rcases read_cases hmm hop (fun _ _ _ hg => by
        rw [(pgGetpage_ram hw hmm hg).1]; exact hw.ram.rdm) hexec with
      ⟨rfl, rfl⟩ | ⟨addr, r, haddr, rfl, hget⟩
    · exact absurd (refused_of_exec hmm (hw.own p mm hmm).single (Or.inl hop) hexec) hno
    · obtain ⟨addr', haddr', hholds⟩ := (ht _ _ _ _ hres).1 rfl
      obtain rfl := Option.some.inj (haddr.symm.trans haddr')
      exact ⟨k₁, addr, r, haddr, hholds, hget⟩
  -- two values of the variable, one byte in the frame
  obtain ⟨k₀, addr, r₀, haddr, ⟨_, h0⟩, hget₀⟩ := hcall 0
  obtain ⟨k₁, addr', r₁, haddr', ⟨_, h1⟩, hget₁⟩ := hcall 1
  obtain rfl := Option.some.inj (haddr.symm.trans haddr')
  rw [pgGetpage_junk hw hmm 1 0, hget₀] at hget₁
  cases hget₁
  exact absurd (h0.symm.trans h1) (by decide)

/-- WRITE tells the truth exactly where nothing goes wrong. -/
theorem write_truthful_iff (hw : k.Wf) (hmm : k.ownMm p = some mm) (hop : ins.opcode = .write)
    (hdef : ∃ res, access k p ins junk = .ok res) (hno : ¬ ins.Refused) :
    Truthful k p mm ins ↔ p ∈ k.sched.runningList.toList ∧
      ∃ addr, accessAddr k mm ins = some addr ∧ Servable k mm (pagingPgn addr) := by
  have hs := (hw.own p mm hmm).single
  have hcall : ∀ {junk k' st b}, access k p ins junk = .ok (k', st, b) → _ := fun hres =>
    write_cases hmm hs hop (fun _ _ _ hg => by
      obtain ⟨hram, _, _, hlt⟩ := pgGetpage_ram hw hmm hg
      exact ⟨by rw [hram]; exact hw.ram.rdm, hlt⟩) (access_write hop hres).1
  constructor
  · intro ht
    obtain ⟨⟨k', st, b⟩, hres⟩ := hdef
    obtain ⟨hstored, hfails⟩ := ht _ _ _ _ hres
    rcases hcall hres with ⟨rfl, rfl⟩ | ⟨addr, k₁, r, haddr, rfl, hget, hcase⟩
    · exact absurd (refused_of_exec hmm hs (Or.inr hop) (access_write hop hres).1) hno
    · have hsched := (pgGetpage_ram hw hmm hget).2.1
      obtain ⟨addr', haddr', hholds⟩ := hstored rfl
      obtain rfl := Option.some.inj (haddr.symm.trans haddr')
      rcases hcase with ⟨rfl, _⟩ | ⟨f, rfl, hlost, _⟩ | ⟨f, rfl, hin, rfl⟩
      · exact absurd rfl (hfails addr haddr (.page hget))
      · refine absurd rfl (hfails addr haddr (.caller hget ?_))
        rw [findCaller_eq, if_neg hlost]
      · rw [hsched] at hin
        have hbacked : Resident (k₁.pte p (pagingPgn addr)) := hholds.1
        exact ⟨hin, addr, haddr, servable_of_some hw hmm hbacked hget⟩
  · rintro ⟨hin, addr, haddr, hserv⟩ junk k' st b hres
    obtain ⟨hexec, rfl⟩ := access_write hop hres
    rcases hcall hres with ⟨rfl, rfl⟩ | ⟨addr', k₁, r, haddr', rfl, hget, hcase⟩
    · exact absurd (refused_of_exec hmm hs (Or.inr hop) hexec) hno
    · obtain rfl := Option.some.inj (haddr.symm.trans haddr')
      obtain ⟨hram, hsched, _, _⟩ := pgGetpage_ram hw hmm hget
      obtain ⟨f, rfl⟩ := hserv.isSome hw hmm hget
      obtain ⟨hbacked, hfpn⟩ := pgGetpage_resident hw hmm hserv.1 hget
      have hfound : findCaller k₁ p = some p := by
        rw [findCaller_eq, hsched, if_pos hin]
      rcases hcase with ⟨hnone, _⟩ | ⟨_, _, hlost, _⟩ | ⟨f', hsome, _, rfl⟩
      · cases hnone
      · exact absurd (hsched ▸ hin) hlost
      · obtain rfl := Option.some.inj hsome
        refine ⟨fun _ => ⟨addr, haddr, hbacked, ?_⟩, fun addr' haddr' hfail => ?_⟩
        · show (k₁.mram.store _ _).storage (pagingFpn (k₁.pte p (pagingPgn addr)) * 256 + _) = _
          rw [hfpn]
          exact if_pos rfl
        · obtain rfl := Option.some.inj (haddr.symm.trans haddr')
          cases hfail with
          | page h => rw [hget] at h; cases h
          | caller h hlost =>
              rw [hget] at h
              cases h
              rw [hfound] at hlost
              cases hlost
          | device h hoff =>
              rw [hget] at h
              cases h
              rw [hram, hw.ram.rdm] at hoff
              cases hoff

end Access

/-- The status of a READ or WRITE is truthful exactly when the id is refused, or the access is a
WRITE of a page that gets a frame, by a process the system call finds. -/
theorem status_truthful (memramsz memswpsz : Addr) (ramJunk swpJunk : Bool) (es : List Event)
    (s : Sys) (h : Lts.Reaches step (boot memramsz memswpsz ramJunk swpJunk) es s) (p : Pid)
    (mm : Mm) (hmm : s.krnl.ownMm p = some mm) (ins : Inst)
    (hop : ins.opcode = .read ∨ ins.opcode = .write)
    (hdef : ∀ junk, ∃ res, access s.krnl p ins junk = .ok res) :
    Truthful s.krnl p mm ins ↔ ins.Refused ∨
      (ins.opcode = .write ∧ p ∈ s.krnl.sched.runningList.toList ∧
        ∃ addr, accessAddr s.krnl mm ins = some addr ∧
          Servable s.krnl mm (pagingPgn addr)) := by
  have hw := (reach_wf h).krnl
  by_cases href : ins.Refused
  · refine ⟨fun _ => Or.inl href, fun _ junk k' st b hres => ?_⟩
    have hst := access_refused hmm (hw.own p mm hmm).single hop href hres
    rw [hst]
    exact ⟨fun h0 => absurd h0 (by decide), fun _ _ _ => by decide⟩
  · rcases hop with hop | hop
    · refine ⟨fun ht => absurd ht (read_not_truthful hw hmm hop hdef href), ?_⟩
      rintro (hr | ⟨hwr, _⟩)
      · exact absurd hr href
      · rw [hop] at hwr
        cases hwr
    · rw [write_truthful_iff hw hmm hop (hdef 0) href]
      exact ⟨fun hc => Or.inr ⟨hop, hc⟩, fun hc => (hc.resolve_left href).2⟩

/-- Process 1 has allocated 100 bytes. -/
def allocated : List Event := loadOn 0 1 ++ [.run 0 ⟨.alloc, 100, 0, 0, 0⟩ 0]

/-- A WRITE to the page allocated. -/
theorem status_truthful_write : ∃ s mm,
    Lts.Reaches step (boot 512 0 true true) allocated s ∧ s.krnl.ownMm 1 = some mm ∧
    Truthful s.krnl 1 mm ⟨.write, 7, 0, 0, 0⟩ := by
  obtain ⟨s, hs⟩ := Option.isSome_iff_exists.mp
    (by decide +kernel : (Lts.exec step (boot 512 0 true true) allocated).isSome)
  have hreach := Lts.reaches_of_exec hs
  have hread : (s.krnl.ownMm 1).map (fun mm => (accessAddr s.krnl mm ⟨.write, 7, 0, 0, 0⟩,
      decide (Servable s.krnl mm 0))) = some (some 0, true) :=
    Lts.exec_map (g := fun s => (s.krnl.ownMm 1).map (fun mm =>
      (accessAddr s.krnl mm ⟨.write, 7, 0, 0, 0⟩, decide (Servable s.krnl mm 0)))) hs
      (by decide +kernel)
  have hrun : s.krnl.sched.runningList.toList = [1] :=
    Lts.exec_map (g := fun s => s.krnl.sched.runningList.toList) hs (by decide +kernel)
  have hdef : ∀ junk, (access s.krnl 1 ⟨.write, 7, 0, 0, 0⟩ junk).toOption.isSome = true :=
    of_decide_eq_true (Lts.exec_map (g := fun s => decide (∀ junk,
      (access s.krnl 1 ⟨.write, 7, 0, 0, 0⟩ junk).toOption.isSome = true)) hs
      (by decide +kernel))
  obtain ⟨mm, hmm, hpair⟩ := Option.map_eq_some_iff.mp hread
  obtain ⟨haddr, hserv⟩ := Prod.mk.inj hpair
  refine ⟨s, mm, hreach, hmm, ?_⟩
  refine (status_truthful 512 0 true true _ s hreach 1 mm hmm _ (Or.inr rfl)
    fun junk => ?_).mpr (Or.inr ⟨rfl, ?_, 0, haddr, of_decide_eq_true hserv⟩)
  · have hok := hdef junk
    cases hres : access s.krnl 1 ⟨.write, 7, 0, 0, 0⟩ junk with
    | error e => rw [hres] at hok; cases hok
    | ok res => exact ⟨res, rfl⟩
  · rw [hrun]
    exact List.mem_singleton.mpr rfl

/-- A WRITE to page 5, which has no frame and gets none: the byte is lost and the status is 0. -/
theorem lost_write_succeeds : ∃ s mm,
    Lts.Reaches step (boot 512 0 true true) allocated s ∧ s.krnl.ownMm 1 = some mm ∧
    (∃ k', access s.krnl 1 ⟨.write, 7, 0, 1280, 0⟩ 0 = .ok (k', 0, 7)) ∧
    ¬ Truthful s.krnl 1 mm ⟨.write, 7, 0, 1280, 0⟩ := by
  obtain ⟨s, hs⟩ := Option.isSome_iff_exists.mp
    (by decide +kernel : (Lts.exec step (boot 512 0 true true) allocated).isSome)
  have hreach := Lts.reaches_of_exec hs
  have hread : (s.krnl.ownMm 1).map (fun mm => (accessAddr s.krnl mm ⟨.write, 7, 0, 1280, 0⟩,
      decide (Servable s.krnl mm 5))) = some (some 1280, false) :=
    Lts.exec_map (g := fun s => (s.krnl.ownMm 1).map (fun mm =>
      (accessAddr s.krnl mm ⟨.write, 7, 0, 1280, 0⟩, decide (Servable s.krnl mm 5)))) hs
      (by decide +kernel)
  have hval : (access s.krnl 1 ⟨.write, 7, 0, 1280, 0⟩ 0).toOption.map (·.2) = some (0, 7) :=
    Lts.exec_map (g := fun s => (access s.krnl 1 ⟨.write, 7, 0, 1280, 0⟩ 0).toOption.map (·.2)) hs
      (by decide +kernel)
  obtain ⟨mm, hmm, hpair⟩ := Option.map_eq_some_iff.mp hread
  obtain ⟨haddr, hserv⟩ := Prod.mk.inj hpair
  cases hres : access s.krnl 1 ⟨.write, 7, 0, 1280, 0⟩ 0 with
  | error e => rw [hres] at hval; cases hval
  | ok res =>
      obtain ⟨k', st, b⟩ := res
      rw [hres] at hval
      cases hval
      refine ⟨s, mm, hreach, hmm, ⟨k', hres⟩, ?_⟩
      have hno : ¬ Inst.Refused ⟨.write, 7, 0, 1280, 0⟩ := by
        rintro (hlow | hhigh)
        · exact absurd hlow (by decide)
        · exact absurd hhigh (by decide)
      rw [write_truthful_iff (reach_wf hreach).krnl hmm rfl ⟨_, hres⟩ hno]
      rintro ⟨_, addr, haddr', hserv'⟩
      obtain rfl : (1280 : BitVec 32) = addr := Option.some.inj (haddr.symm.trans haddr')
      exact of_decide_eq_false hserv hserv'

end SimpleOs
