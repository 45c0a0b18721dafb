/-
# `SimpleOs.Dispatch` — whose region table READ uses

`__read` takes the region from `krnl->mm`, a pointer that every CPU stores to
before it runs a process and the loader stores to while it creates one.  In the
machine of `Creation`, where these stores come in any order, `storeStep` keeps
the address stored last; the entry READ uses is the process's own iff that is
the address of its structure.

When it is, READ depends on nothing but the process's own structure, the two
devices, and whether the pid is in `running_list`: `libread_related` runs READ
in two kernels that agree on these.
-/
import SimpleOs.Creation
import SimpleOs.Lib.Related

namespace SimpleOs

open Relational

/-! ## Kernels that agree on a process -/

/-- The same structure for `p`, the same devices, the same answer to the pid lookup. -/
structure Agree (p : Pid) (k₁ k₂ : Krnl) : Prop where
  own : k₁.ownMm p = k₂.ownMm p
  mram : k₁.mram = k₂.mram
  activeMswp : k₁.activeMswp = k₂.activeMswp
  found : findCaller k₁ p = findCaller k₂ p

section Agree
variable {p : Pid} {k₁ k₂ : Krnl}

theorem Agree.setMm (h : Agree p k₁ k₂) (mm : Mm) : Agree p (k₁.setMm p mm) (k₂.setMm p mm) where
  own := by rw [Krnl.setMm_self, Krnl.setMm_self]
  mram := h.mram
  activeMswp := h.activeMswp
  found := h.found

/-- Both kernels with the same devices. -/
theorem Agree.withDevices (h : Agree p k₁ k₂) (mram activeMswp : Memphy) :
    Agree p { k₁ with mram, activeMswp } { k₂ with mram, activeMswp } :=
  ⟨h.own, rfl, rfl, h.found⟩

/-- The same answer, from kernels that agree. -/
def SameResult (p : Pid) {α : Type} (r₁ r₂ : Krnl × α) : Prop := Agree p r₁.1 r₂.1 ∧ r₁.2 = r₂.2

/-- The system calls `pg_getpage` and `pg_getval` make. -/
theorem sysMemmap_related {regs : ScRegs} {junk : Byte} (h : Agree p k₁ k₂)
    (hop : (regs.a1.setWidth 32).toInt = sysmemSwpOp ∨
      (regs.a1.setWidth 32).toInt = sysmemIoRead) :
    Related (SameResult p) (sysMemmap k₁ p regs junk) (sysMemmap k₂ p regs junk) := by
  rw [sysMemmap, sysMemmap, h.found]
  cases hf : findCaller k₂ p with
  | none => exact .ok ⟨h, rfl⟩
  | some q =>
      obtain rfl := findCaller_some hf
      rcases hop with hop | hop
      · simp only [hop, mmSwapPage, h.mram, h.activeMswp]
        refine Related.bind (R := SameResult q) (Related.bind_self _ fun d => ?_) ?_
        · exact .ok ⟨h.withDevices d.1 d.2, rfl⟩
        · rintro ⟨_, _⟩ ⟨_, _⟩ ⟨hk, _⟩
          exact .ok ⟨hk, rfl⟩
      · simp only [hop, h.mram]
        refine Related.bind_self _ fun d => ?_
        exact .ok ⟨⟨h.own, rfl, h.activeMswp, h.found⟩, rfl⟩

/-- The fault handler. -/
theorem pgGetpage_related {mm : Mm} {pgn : Nat} {junk : Byte} (h : Agree p k₁ k₂) :
    Related (SameResult p) (pgGetpage k₁ mm pgn p junk) (pgGetpage k₂ mm pgn p junk) := by
  rw [pgGetpage, pgGetpage]
  simp only [pteGetEntry_eq]
  split
  · split
    · exact .ok ⟨h.setMm _, rfl⟩
    · rw [h.activeMswp]
      refine Related.bind_self _ fun x => ?_
      obtain ⟨activeMswp, r⟩ := x
      have h₁ : Agree p { k₁ with activeMswp } { k₂ with activeMswp } :=
        ⟨h.own, h.mram, rfl, h.found⟩
      cases r with
      | none => exact .ok ⟨h₁.setMm _, rfl⟩
      | some swpfpn =>
          refine Related.bind (R := SameResult p) ?_ ?_
          · exact sysMemmap_related (h₁.setMm _) (Or.inl rfl)
          · rintro ⟨k₁', _, _⟩ ⟨k₂', _, _⟩ ⟨hk, _⟩
            split
            · rw [hk.mram, hk.activeMswp]
              refine Related.bind_self _ fun d => ?_
              exact .ok ⟨(hk.withDevices _ _).setMm _, rfl⟩
            · exact .ok ⟨hk.setMm _, rfl⟩
  · exact .ok ⟨h.setMm _, rfl⟩

theorem pgGetval_related {mm : Mm} {addr : BitVec 32} {data junk : Byte} (h : Agree p k₁ k₂) :
    Related (SameResult p) (pgGetval k₁ mm addr data p junk) (pgGetval k₂ mm addr data p junk) := by
  rw [pgGetval, pgGetval]
  refine Related.bind (pgGetpage_related h) ?_
  rintro ⟨k₁', r⟩ ⟨k₂', _⟩ ⟨hk, rfl⟩
  cases r with
  | none => exact .ok ⟨hk, rfl⟩
  | some fpn =>
      refine Related.bind (R := SameResult p) ?_ ?_
      · exact sysMemmap_related hk (Or.inr rfl)
      · rintro ⟨_, _, _⟩ ⟨_, _, _⟩ ⟨hk', _⟩
        exact .ok ⟨hk', rfl⟩

/-- READ, when `krnl->mm` is the process's own in both kernels. -/
theorem libread_related {r : BitVec 32} {o : Addr} {junk : Byte} (h : Agree p k₁ k₂)
    (h₁ : k₁.mm = some p) (h₂ : k₂.mm = some p) :
    Related (SameResult p) (libread k₁ p r o junk) (libread k₂ p r o junk) := by
  rw [libread, libread]
  refine Related.bind (R := SameResult p) ?_ ?_
  · rw [read, read, h.own]
    split
    · exact .ok ⟨h, rfl⟩
    · split
      · exact .ok ⟨h, rfl⟩
      · next rgid _ =>
        have hptr₁ : readEntry k₁ rgid = .ok (p, rgid) := by rw [readEntry, h₁]
        have hptr₂ : readEntry k₂ rgid = .ok (p, rgid) := by rw [readEntry, h₂]
        have hload : loadEntry k₁ (p, rgid) = loadEntry k₂ (p, rgid) := by
          rw [loadEntry, loadEntry, h.own]
        rw [hptr₁, hptr₂]
        show Related _ (loadEntry k₁ (p, rgid) >>= _) (loadEntry k₂ (p, rgid) >>= _)
        rw [hload]
        refine Related.bind_self _ fun rg => ?_
        refine Related.bind (pgGetval_related h) ?_
        rintro ⟨_, _, _⟩ ⟨_, _, _⟩ ⟨hk, hres⟩
        cases hres
        exact .ok ⟨hk, rfl⟩
  · rintro ⟨_, _, _⟩ ⟨_, _, _⟩ ⟨hk, hres⟩
    cases hres
    exact .ok ⟨hk, rfl⟩

end Agree

/-! ## The stores to `krnl->mm` -/

/-- The address an event stores to `krnl->mm`. -/
def storeOf (s : MmSys) : MmEvent → Option MmPtr
  | .malloc _ _ _ => some s.mms
  | .restore c => (s.cpu c).proc.bind s.ownMm
  | _ => none

/-- The machine with the address that was stored last. -/
def storeStep (x : MmSys × Option MmPtr) (e : MmEvent) : Option (MmSys × Option MmPtr) :=
  (stepMm x.1 e).map (fun s' => (s', (storeOf x.1 e).orElse (fun _ => x.2)))

/-- `krnl->mm` is the address stored last. -/
theorem stepMm_mm {s s' : MmSys} {e : MmEvent} (hs : stepMm s e = some s') :
    s'.mm = (storeOf s e).orElse (fun _ => s.mm) := by
  cases e with
  | malloc p prio junk => obtain ⟨_, _, rfl⟩ := stepMm_malloc hs; rfl
  | init => obtain ⟨_, _, _, _, rfl⟩ := stepMm_init hs; rfl
  | own => obtain ⟨_, _, rfl⟩ := stepMm_own hs; rfl
  | add => obtain ⟨_, _, _, _, rfl⟩ := stepMm_add hs; rfl
  | get c => obtain ⟨_, _, ⟨_, rfl⟩ | ⟨_, _, rfl⟩⟩ := stepMm_get hs <;> rfl
  | put c => obtain ⟨_, _, _, _, rfl⟩ := stepMm_put hs; rfl
  | finish c => obtain ⟨_, _, rfl⟩ := stepMm_finish hs; rfl
  | restore c =>
      obtain ⟨p, hc, rfl⟩ := stepMm_restore hs
      rw [storeOf, hc]
      rfl
  | run c ins junk => obtain ⟨_, _, _, _, _, rfl⟩ := stepMm_run hs; rfl

section Reach
variable {memramsz memswpsz : Addr} {ramJunk swpJunk : Bool} {es : List MmEvent}
  {x : MmSys × Option MmPtr}

/-- Over a run the pointer is what was stored last, and every process that runs has a structure. -/
theorem reach_mm
    (h : Lts.Reaches storeStep (bootMm memramsz memswpsz ramJunk swpJunk, none) es x) :
    x.1.Wf ∧ x.1.mm = x.2 := by
  refine h.invariant (P := fun x => x.1.Wf ∧ x.1.mm = x.2) ⟨bootMm_wf _ _ _ _, rfl⟩ ?_
  rintro ⟨s, last⟩ e ⟨s', last'⟩ ⟨hw, hmm⟩ _ hs
  rw [storeStep, Option.map_eq_some_iff] at hs
  obtain ⟨s₁, hstep, hx⟩ := hs
  cases hx
  refine ⟨hw.step hstep, ?_⟩
  rw [stepMm_mm hstep, ← hmm]

end Reach

/-- The structure that `krnl->mm` points to goes by the pid of the process iff it is its own. -/
theorem MmSys.krnl_mm {s : MmSys} {p : Pid} {a : MmPtr} (hown : s.ownMm p = some a) :
    (s.krnl p).mm = some p ↔ s.mm = some a := by
  show s.mm.map _ = some p ↔ _
  cases s.mm with
  | none => exact ⟨fun h => (nomatch h), fun h => nomatch h⟩
  | some b =>
      rw [Option.map_some, hown]
      by_cases hab : a = b
      · subst hab
        rw [if_pos rfl]
        exact ⟨fun _ => rfl, fun _ => rfl⟩
      · rw [if_neg fun h => hab (Option.some.inj h)]
        exact ⟨fun h => absurd (Option.some.inj h) (Nat.succ_ne_self p),
          fun h => absurd (Option.some.inj h).symm hab⟩

/-! ## In every run -/

/-- Process 1 on CPU 0 and process 2 on CPU 1. -/
def twoOnTwo : List MmEvent := createMm 1 ++ [.get 0] ++ createMm 2 ++ [.get 1]

/-- Events after which process 1 is about to run on CPU 0 and `krnl->mm` is not its own. -/
theorem reaches_other {es : List MmEvent}
    (h : (Lts.exec storeStep (bootMm 512 512 true true, none) es).map
      (fun x => (x.1.cpu 0, (x.1.krnl 1).mm)) = some (.restored 1, some 2)) :
    ∃ s last, Lts.Reaches storeStep (bootMm 512 512 true true, none) es (s, last) ∧
      s.cpu 0 = .restored 1 ∧ readEntry (s.krnl 1) 0 ≠ .ok (1, 0) := by
  obtain ⟨⟨s, last⟩, hs, hread⟩ := Option.map_eq_some_iff.mp h
  obtain ⟨hc, hmm⟩ := Prod.mk.inj hread
  refine ⟨s, last, Lts.reaches_of_exec hs, hc, fun hentry => ?_⟩
  rw [readEntry, hmm] at hentry
  exact absurd (congrArg Prod.fst (Except.ok.inj hentry)) (by decide)

end SimpleOs
