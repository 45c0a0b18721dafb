/-
# `SimpleOs.Places` — where a process is

A process that the loader has added and that has not finished is in a ready
queue or in the hands of a CPU.  `Placed` says that it is in at most one such
place, and only in the queue of its own priority; every run keeps that.

That it is in one place at all needs room: `enqueue` drops a process silently
when the queue is full, that process and no other.  So `HasRoomFor` asks of a
step only that it does not enqueue the process in question into a full queue,
and `FewShare` is a condition on the load that implies it: no more than
`MAX_QUEUE_SIZE` live processes have the priority.
-/
import Mathlib.Data.List.Nodup
import Mathlib.Data.List.Perm.Subperm
import SimpleOs.Reach

namespace SimpleOs

/-- The ready queue of a priority. -/
def Sys.ready (s : Sys) (i : Nat) : List Pid := (s.krnl.sched.mlqReadyQueue i).toList

/-- CPU `c` has process `p` in its hands. -/
def Sys.Held (s : Sys) (c : Nat) (p : Pid) : Prop := (s.cpu c).proc = some p

/-- No process is in two places. -/
structure Placed (s : Sys) : Prop where
  nodup : ∀ i, (s.ready i).Nodup
  prio : ∀ i, ∀ p ∈ s.ready i, i = s.prio p
  hand : ∀ c c' p, s.Held c p → s.Held c' p → c = c'
  apart : ∀ c p, s.Held c p → ∀ i, p ∉ s.ready i
  pending : ∀ p, s.pending = some p → p ∉ s.live
  live : s.live.Nodup
  ready_live : ∀ i, ∀ p ∈ s.ready i, p ∈ s.live
  held_live : ∀ c p, s.Held c p → p ∈ s.live
  created : ∀ p ∈ s.live, (s.krnl.ownMm p).isSome

theorem boot_placed (memramsz memswpsz : Addr) (ramJunk swpJunk : Bool) :
    Placed (boot memramsz memswpsz ramJunk swpJunk) where
  nodup := fun _ => List.nodup_nil
  prio := fun _ _ h => nomatch h
  hand := fun _ _ _ h => nomatch h
  apart := fun _ _ h => nomatch h
  pending := fun _ h => nomatch h
  live := List.nodup_nil
  ready_live := fun _ _ h => nomatch h
  held_live := fun _ _ h => nomatch h
  created := fun _ h => nomatch h

/-! ## What the scheduler calls do to the queues -/

section Queues
variable {sched sched' : Sched} {p : Pid} {prio : Nat}

/-- A call of `add_proc` or `put_proc` keeps every queue free of duplicates. -/
theorem enqueueMlq_nodup (h : enqueueMlq sched p prio = .ok sched')
    (hn : ∀ i, (sched.mlqReadyQueue i).toList.Nodup)
    (hp : p ∉ (sched.mlqReadyQueue prio).toList) (i : Nat) :
    (sched'.mlqReadyQueue i).toList.Nodup := by
  obtain ⟨_, _, _, hl, ho⟩ := enqueueMlq_ok h
  by_cases hi : i = prio
  · subst hi
    rw [hl]
    split
    · exact List.nodup_append.mpr ⟨hn i, List.nodup_singleton p, fun a ha b hb hab =>
        hp (List.mem_singleton.mp hb ▸ hab ▸ ha)⟩
    · exact hn i
  · rw [ho i hi]
    exact hn i

/-- It puts the process in no queue but the one of the priority passed. -/
theorem enqueueMlq_new (h : enqueueMlq sched p prio = .ok sched') {q : Pid} {i : Nat}
    (hq : q ∈ (sched'.mlqReadyQueue i).toList) :
    (q = p ∧ i = prio) ∨ q ∈ (sched.mlqReadyQueue i).toList := by
  by_cases hi : i = prio
  · rcases enqueueMlq_mem h hq with hqp | hq
    · exact Or.inl ⟨hqp, hi⟩
    · exact Or.inr hq
  · obtain ⟨_, _, _, _, ho⟩ := enqueueMlq_ok h
    rw [ho i hi] at hq
    exact Or.inr hq

/-- Nobody leaves a queue, full or not. -/
theorem enqueueMlq_keep (h : enqueueMlq sched p prio = .ok sched') {q : Pid} {i : Nat}
    (hq : q ∈ (sched.mlqReadyQueue i).toList) : q ∈ (sched'.mlqReadyQueue i).toList := by
  obtain ⟨_, _, _, hl, ho⟩ := enqueueMlq_ok h
  by_cases hi : i = prio
  · subst hi
    rw [hl]
    split
    · exact List.mem_append_left _ hq
    · exact hq
  · rwa [ho i hi]

/-- With room the process is in its queue. -/
theorem enqueueMlq_room (h : enqueueMlq sched p prio = .ok sched')
    (hroom : (sched.mlqReadyQueue prio).toList.length < maxQueueSize) :
    p ∈ (sched'.mlqReadyQueue prio).toList := by
  obtain ⟨_, _, _, hl, _⟩ := enqueueMlq_ok h
  rw [if_pos hroom] at hl
  rw [hl]
  exact List.mem_append_right _ List.mem_cons_self

/-- `get_proc` keeps the queues free of duplicates, and the process it returns is in none. -/
theorem getProc_nodup (sched : Sched) (hn : ∀ i, (sched.mlqReadyQueue i).toList.Nodup)
    (hd : ∀ i j, ∀ q ∈ (sched.mlqReadyQueue i).toList, q ∈ (sched.mlqReadyQueue j).toList → i = j) :
    (∀ i, ((getProc sched).1.mlqReadyQueue i).toList.Nodup) ∧
    (∀ p, (getProc sched).2 = some p → ∀ i, p ∉ ((getProc sched).1.mlqReadyQueue i).toList) ∧
    (∀ i, ∀ q ∈ (sched.mlqReadyQueue i).toList,
      (getProc sched).2 = some q ∨ q ∈ ((getProc sched).1.mlqReadyQueue i).toList) := by
  rcases getProc_cases sched with ⟨h, _⟩ | ⟨prio, p, rest, _, hl, hres, hl', ho, _⟩
  · rw [h]
    exact ⟨hn, fun _ hp => (nomatch hp), fun _ _ hq => Or.inr hq⟩
  · have hcons := hn prio
    rw [hl] at hcons
    obtain ⟨hnotin, hrest⟩ := List.nodup_cons.mp hcons
    refine ⟨?_, ?_, ?_⟩
    · intro i
      by_cases hi : i = prio
      · subst hi
        rwa [hl']
      · rw [ho i hi]
        exact hn i
    · intro q hq i hmem
      rw [hres] at hq
      cases hq
      by_cases hi : i = prio
      · subst hi
        rw [hl'] at hmem
        exact hnotin hmem
      · rw [ho i hi] at hmem
        exact hi (hd i prio p hmem (by rw [hl]; exact List.mem_cons_self))
    · intro i q hq
      by_cases hi : i = prio
      · subst hi
        rw [hl] at hq
        rcases List.mem_cons.mp hq with rfl | hq
        · exact Or.inl hres
        · exact Or.inr (by rwa [hl'])
      · exact Or.inr (by rwa [ho i hi])

end Queues

/-! ## One step -/

theorem held_setCpu {s : Sys} {c c' : Nat} {cpu : Cpu} {p : Pid} :
    (s.setCpu c cpu).Held c' p ↔ (c' = c ∧ cpu.proc = some p) ∨ (c' ≠ c ∧ s.Held c' p) := by
  by_cases hc : c' = c
  · subst hc
    simp [Sys.Held, Sys.setCpu]
  · simp [Sys.Held, Sys.setCpu, hc]

/-- A CPU whose process stays the same. -/
theorem held_setCpu_same {s : Sys} {c : Nat} (cpu : Cpu) (h : cpu.proc = (s.cpu c).proc)
    (c' : Nat) (p : Pid) : (s.setCpu c cpu).Held c' p ↔ s.Held c' p := by
  rw [held_setCpu, h]
  by_cases hc : c' = c
  · subst hc
    simp [Sys.Held]
  · simp [hc]

/-- Steps that move no process. -/
theorem Placed.congr {s s' : Sys} (h : Placed s) (hr : ∀ i, s'.ready i = s.ready i)
    (hp : s'.prio = s.prio) (hh : ∀ c p, s'.Held c p ↔ s.Held c p) (hl : s'.live = s.live)
    (hpend : s'.pending = s.pending)
    (hown : ∀ p, (s.krnl.ownMm p).isSome → (s'.krnl.ownMm p).isSome) : Placed s' where
  nodup := fun i => by rw [hr]; exact h.nodup i
  prio := fun i p hpi => by rw [hr] at hpi; rw [hp]; exact h.prio i p hpi
  hand := fun c c' p hc hc' => h.hand c c' p ((hh c p).mp hc) ((hh c' p).mp hc')
  apart := fun c p hc i => by rw [hr]; exact h.apart c p ((hh c p).mp hc) i
  pending := by rw [hpend, hl]; exact h.pending
  live := by rw [hl]; exact h.live
  ready_live := fun i p hpi => by rw [hr] at hpi; rw [hl]; exact h.ready_live i p hpi
  held_live := fun c p hc => by rw [hl]; exact h.held_live c p ((hh c p).mp hc)
  created := fun p hpl => by rw [hl] at hpl; exact hown p (h.created p hpl)

theorem Placed.create {s s' : Sys} {p : Pid} {prio : Nat} {symrgtbl : Nat → VmRg} (h : Placed s)
    (hs : SimpleOs.step s (.create p prio symrgtbl) = some s') : Placed s' := by
  obtain ⟨hpend, hnone, rfl⟩ := step_create hs
  -- the pid is new: nobody live has it
  have hnew : p ∉ s.live := fun hp => by
    have hsome := h.created p hp
    rw [hnone] at hsome
    exact nomatch hsome
  exact {
    nodup := h.nodup
    prio := by
      intro i q hq
      have hqp : q ≠ p := fun hqp => hnew (hqp ▸ h.ready_live i q hq)
      show i = Function.update s.prio p prio q
      rw [Function.update_of_ne hqp]
      exact h.prio i q hq
    hand := h.hand
    apart := h.apart
    pending := fun q hq => by cases hq; exact hnew
    live := h.live
    ready_live := h.ready_live
    held_live := h.held_live
    created := by
      intro q hq
      have hqp : q ≠ p := fun hqp => hnew (hqp ▸ hq)
      show ((s.krnl.setMm p (initMm symrgtbl)).ownMm q).isSome
      rw [Krnl.setMm_of_ne _ _ _ hqp]
      exact h.created q hq }

theorem Placed.add {s s' : Sys} (h : Placed s)
    (hown : ∀ p, s.pending = some p → (s.krnl.ownMm p).isSome)
    (hs : SimpleOs.step s .add = some s') : Placed s' := by
  obtain ⟨p, sched, hpend, hadd, rfl⟩ := step_add hs
  have hnew := h.pending p hpend
  have hready : ∀ i, p ∉ s.ready i := fun i hi => hnew (h.ready_live i p hi)
  exact {
    nodup := fun i => enqueueMlq_nodup hadd h.nodup (hready _) i
    prio := by
      intro i q hq
      rcases enqueueMlq_new hadd hq with ⟨rfl, rfl⟩ | hq
      · rfl
      · exact h.prio i q hq
    hand := h.hand
    apart := by
      intro c q hc i hq
      rcases enqueueMlq_new hadd hq with ⟨rfl, _⟩ | hq
      · exact hnew (h.held_live c q hc)
      · exact h.apart c q hc i hq
    pending := fun _ hq => nomatch hq
    live := List.nodup_append.mpr ⟨h.live, List.nodup_singleton p, fun a ha b hb hab =>
      hnew (List.mem_singleton.mp hb ▸ hab ▸ ha)⟩
    ready_live := by
      intro i q hq
      rcases enqueueMlq_new hadd hq with ⟨rfl, _⟩ | hq
      · exact List.mem_append_right _ List.mem_cons_self
      · exact List.mem_append_left _ (h.ready_live i q hq)
    held_live := fun c q hc => List.mem_append_left _ (h.held_live c q hc)
    created := by
      intro q hq
      rcases List.mem_append.mp hq with hq | hq
      · exact h.created q hq
      · rw [List.mem_singleton.mp hq]
        exact hown p hpend }

theorem Placed.get {s s' : Sys} {c : Nat} (h : Placed s)
    (hs : SimpleOs.step s (.get c) = some s') : Placed s' := by
  obtain ⟨hidle, hcase⟩ := step_get hs
  obtain ⟨hnodup, hout, _⟩ := getProc_nodup s.krnl.sched h.nodup
    (fun i j q hi hj => (h.prio i q hi).trans (h.prio j q hj).symm)
  obtain ⟨hmem, hres⟩ := getProc_mem s.krnl.sched
  have hsched : Placed (s.setSched (getProc s.krnl.sched).1) := {
    nodup := hnodup
    prio := fun i q hq => h.prio i q (hmem i q hq)
    hand := h.hand
    apart := fun c q hc i hq => h.apart c q hc i (hmem i q hq)
    pending := h.pending
    live := h.live
    ready_live := fun i q hq => h.ready_live i q (hmem i q hq)
    held_live := h.held_live
    created := h.created }
  rcases hcase with ⟨_, rfl⟩ | ⟨p, hp, rfl⟩
  · exact hsched
  · obtain ⟨i₀, hi₀⟩ := hres p hp
    exact {
      nodup := hsched.nodup
      prio := hsched.prio
      hand := by
        -- nobody held the process that was in a queue
        intro c₁ c₂ q h₁ h₂
        rcases held_setCpu.mp h₁ with ⟨rfl, hq₁⟩ | ⟨_, hq₁⟩ <;>
          rcases held_setCpu.mp h₂ with ⟨rfl, hq₂⟩ | ⟨_, hq₂⟩
        · rfl
        · cases hq₁
          exact absurd hi₀ (h.apart c₂ _ hq₂ i₀)
        · cases hq₂
          exact absurd hi₀ (h.apart c₁ _ hq₁ i₀)
        · exact h.hand c₁ c₂ q hq₁ hq₂
      apart := by
        intro c₁ q h₁ i
        rcases held_setCpu.mp h₁ with ⟨_, hq⟩ | ⟨_, hq⟩
        · cases hq
          exact hout _ hp i
        · exact hsched.apart c₁ q hq i
      pending := hsched.pending
      live := hsched.live
      ready_live := hsched.ready_live
      held_live := by
        intro c₁ q h₁
        rcases held_setCpu.mp h₁ with ⟨_, hq⟩ | ⟨_, hq⟩
        · cases hq
          exact h.ready_live i₀ _ hi₀
        · exact h.held_live c₁ q hq
      created := hsched.created }

theorem Placed.put {s s' : Sys} {c : Nat} (h : Placed s)
    (hs : SimpleOs.step s (.put c) = some s') : Placed s' := by
  obtain ⟨p, sched, hc, hput, rfl⟩ := step_put hs
  have hp : s.Held c p := by rw [Sys.Held, hc]; rfl
  -- what is held afterwards is held by another CPU
  have hheld : ∀ {c' q}, ((s.setSched sched).setCpu c .idle).Held c' q → c' ≠ c ∧ s.Held c' q := by
    intro c' q hq
    rcases held_setCpu.mp hq with ⟨_, hq⟩ | hq
    · exact nomatch hq
    · exact hq
  exact {
    nodup := fun i => enqueueMlq_nodup hput h.nodup (h.apart c p hp _) i
    prio := by
      intro i q hq
      rcases enqueueMlq_new hput hq with ⟨rfl, rfl⟩ | hq
      · rfl
      · exact h.prio i q hq
    hand := fun c₁ c₂ q h₁ h₂ => h.hand c₁ c₂ q (hheld h₁).2 (hheld h₂).2
    apart := by
      intro c₁ q h₁ i hq
      obtain ⟨hne, h₁⟩ := hheld h₁
      rcases enqueueMlq_new hput hq with ⟨rfl, _⟩ | hq
      · exact hne (h.hand c₁ c q h₁ hp)
      · exact h.apart c₁ q h₁ i hq
    pending := h.pending
    live := h.live
    ready_live := by
      intro i q hq
      rcases enqueueMlq_new hput hq with ⟨rfl, _⟩ | hq
      · exact h.held_live c q hp
      · exact h.ready_live i q hq
    held_live := fun c₁ q h₁ => h.held_live c₁ q (hheld h₁).2
    created := h.created }

theorem Placed.finish {s s' : Sys} {c : Nat} (h : Placed s)
    (hs : SimpleOs.step s (.finish c) = some s') : Placed s' := by
  obtain ⟨p, hc, rfl⟩ := step_finish hs
  have hp : s.Held c p := by rw [Sys.Held, hc]; rfl
  have hheld : ∀ {c' q}, ((s.setSched (removeProc s.krnl.sched p)).setCpu c .idle).Held c' q →
      c' ≠ c ∧ s.Held c' q := by
    intro c' q hq
    rcases held_setCpu.mp hq with ⟨_, hq⟩ | hq
    · exact nomatch hq
    · exact hq
  have hlive : ∀ {q}, q ≠ p → q ∈ s.live → q ∈ s.live.erase p :=
    fun hqp hq => (List.mem_erase_of_ne hqp).mpr hq
  exact {
    nodup := h.nodup
    prio := h.prio
    hand := fun c₁ c₂ q h₁ h₂ => h.hand c₁ c₂ q (hheld h₁).2 (hheld h₂).2
    apart := fun c₁ q h₁ => h.apart c₁ q (hheld h₁).2
    pending := fun q hq hmem => h.pending q hq (List.mem_of_mem_erase hmem)
    live := h.live.erase p
    ready_live := fun i q hq =>
      hlive (fun hqp => h.apart c p hp i (hqp ▸ hq)) (h.ready_live i q hq)
    held_live := fun c₁ q h₁ => hlive (fun hqp => (hheld h₁).1 (h.hand c₁ c p
      (hqp ▸ (hheld h₁).2) hp)) (h.held_live c₁ q (hheld h₁).2)
    created := fun q hq => h.created q (List.mem_of_mem_erase hq) }

/-- Whatever a thread does that is not the run of an instruction. -/
theorem Placed.between {s s' : Sys} {e : Event} (h : Placed s)
    (hown : ∀ p, s.pending = some p → (s.krnl.ownMm p).isSome)
    (he : ∀ c ins junk, e ≠ .run c ins junk) (hs : SimpleOs.step s e = some s') : Placed s' := by
  cases e with
  | create p prio symrgtbl => exact h.create hs
  | add => exact h.add hown hs
  | get c => exact h.get hs
  | put c => exact h.put hs
  | finish c => exact h.finish hs
  | restore c =>
      obtain ⟨p, hc, rfl⟩ := step_restore hs
      exact h.congr (fun _ => rfl) rfl (held_setCpu_same _ (by rw [hc]; rfl)) rfl rfl
        (fun _ hq => hq)
  | run c ins junk => exact absurd rfl (he c ins junk)

theorem Placed.step {s s' : Sys} {e : Event} (h : Placed s) (hw : s.Wf)
    (hs : SimpleOs.step s e = some s') : Placed s' := by
  cases e with
  | run c ins junk =>
      obtain ⟨p, k', st, hc, hexec, rfl⟩ := step_run hs
      obtain ⟨mm, hmm⟩ := Option.isSome_iff_exists.mp (hw.held c p (by rw [hc]; rfl))
      obtain ⟨hsched, _⟩ := exec_sched hw.krnl hmm hexec
      refine h.congr (fun i => ?_) rfl (held_setCpu_same _ (by rw [hc]; rfl)) rfl rfl
        (fun q hq => exec_ownMm_isSome hw.krnl hmm hexec hq)
      show (k'.sched.mlqReadyQueue i).toList = _
      rw [hsched]
      rfl
  | _ =>
      refine h.between hw.pending ?_ hs
      intro _ _ _ he
      exact nomatch he

/-! ## Room -/

/-- A step that enqueues process `p` finds room in the queue of its priority. -/
def HasRoomFor (p : Pid) (s : Sys) : Event → Prop
  | .add => s.pending = some p → (s.ready (s.prio p)).length < maxQueueSize
  | .put c => s.Held c p → (s.ready (s.prio p)).length < maxQueueSize
  | _ => True

instance (p : Pid) (s : Sys) : ∀ e, Decidable (HasRoomFor p s e)
  | .add => inferInstanceAs (Decidable (s.pending = some p → _))
  | .put c => inferInstanceAs (Decidable ((s.cpu c).proc = some p → _))
  | .create .. | .get _ | .finish _ | .restore _ | .run .. => isTrue trivial

/-- Process `p`, when it is live, is somewhere. -/
def Present (p : Pid) (s : Sys) : Prop :=
  p ∈ s.live → p ∈ s.ready (s.prio p) ∨ ∃ c, s.Held c p

/-- A process keeps the priority it was created with. -/
theorem step_prio {s s' : Sys} {e : Event} {p : Pid} (hs : step s e = some s')
    (hp : (s.krnl.ownMm p).isSome) : s'.prio p = s.prio p := by
  cases e with
  | create q prio symrgtbl =>
      obtain ⟨_, hnone, rfl⟩ := step_create hs
      have hpq : p ≠ q := by
        rintro rfl
        rw [hnone] at hp
        exact nomatch hp
      exact Function.update_of_ne hpq _ _
  | add => obtain ⟨_, _, _, _, rfl⟩ := step_add hs; rfl
  | get c => obtain ⟨_, ⟨_, rfl⟩ | ⟨_, _, rfl⟩⟩ := step_get hs <;> rfl
  | put c => obtain ⟨_, _, _, _, rfl⟩ := step_put hs; rfl
  | finish c => obtain ⟨_, _, rfl⟩ := step_finish hs; rfl
  | restore c => obtain ⟨_, _, rfl⟩ := step_restore hs; rfl
  | run c ins junk => obtain ⟨_, _, _, _, _, rfl⟩ := step_run hs; rfl

theorem Present.step {s s' : Sys} {e : Event} {p : Pid} (h : Present p s) (hpl : Placed s)
    (hw : s.Wf) (hroom : HasRoomFor p s e) (hs : SimpleOs.step s e = some s') : Present p s' := by
  cases e with
  | create q prio symrgtbl =>
      intro hp
      have hlive : p ∈ s.live := by
        obtain ⟨_, _, rfl⟩ := step_create hs
        exact hp
      rw [step_prio hs (hpl.created p hlive)]
      obtain ⟨_, _, rfl⟩ := step_create hs
      exact h hlive
  | add =>
      obtain ⟨q, sched, hpend, hadd, rfl⟩ := step_add hs
      intro hp
      rcases List.mem_append.mp hp with hp | hp
      · exact (h hp).imp_left (enqueueMlq_keep hadd)
      · obtain rfl := List.mem_singleton.mp hp
        exact Or.inl (enqueueMlq_room hadd (hroom hpend))
  | get c =>
      obtain ⟨hidle, hcase⟩ := step_get hs
      obtain ⟨_, _, hstay⟩ := getProc_nodup s.krnl.sched hpl.nodup
        (fun i j q hi hj => (hpl.prio i q hi).trans (hpl.prio j q hj).symm)
      have hother : ∀ {c'}, s.Held c' p → c' ≠ c := by
        rintro c' hp rfl
        rw [Sys.Held, hidle] at hp
        exact nomatch hp
      intro hp
      rcases hcase with ⟨hnone, rfl⟩ | ⟨q, hq, rfl⟩
      · rcases h hp with hp | hp
        · rcases hstay _ p hp with hres | hmem
          · rw [hnone] at hres
            exact nomatch hres
          · exact Or.inl hmem
        · exact Or.inr hp
      · rcases h hp with hp | ⟨c', hp⟩
        · rcases hstay _ p hp with hres | hmem
          · rw [hq] at hres
            exact Or.inr ⟨c, held_setCpu.mpr (Or.inl ⟨rfl, hres⟩)⟩
          · exact Or.inl hmem
        · exact Or.inr ⟨c', held_setCpu.mpr (Or.inr ⟨hother hp, hp⟩)⟩
  | put c =>
      obtain ⟨q, sched, hc, hput, rfl⟩ := step_put hs
      have hq : s.Held c q := by rw [Sys.Held, hc]; rfl
      intro hp
      by_cases hpq : p = q
      · subst hpq
        exact Or.inl (enqueueMlq_room hput (hroom hq))
      · rcases h hp with hp' | ⟨c', hp'⟩
        · exact Or.inl (enqueueMlq_keep hput hp')
        · refine Or.inr ⟨c', held_setCpu.mpr (Or.inr ⟨?_, hp'⟩)⟩
          rintro rfl
          exact hpq (Option.some.inj (hp'.symm.trans hq))
  | finish c =>
      obtain ⟨q, hc, rfl⟩ := step_finish hs
      have hq : s.Held c q := by rw [Sys.Held, hc]; rfl
      intro hp
      rcases h (List.mem_of_mem_erase hp) with hp' | ⟨c', hp'⟩
      · exact Or.inl hp'
      · refine Or.inr ⟨c', held_setCpu.mpr (Or.inr ⟨?_, hp'⟩)⟩
        rintro rfl
        obtain rfl : p = q := Option.some.inj (hp'.symm.trans hq)
        exact absurd hp hpl.live.not_mem_erase
  | restore c =>
      obtain ⟨q, hc, rfl⟩ := step_restore hs
      intro hp
      exact (h hp).imp_right (fun ⟨c', hp⟩ =>
        ⟨c', (held_setCpu_same (.restored q) (by rw [hc]; rfl) c' p).mpr hp⟩)
  | run c ins junk =>
      obtain ⟨q, k', st, hc, hexec, rfl⟩ := step_run hs
      obtain ⟨mm, hmm⟩ := Option.isSome_iff_exists.mp (hw.held c q (by rw [hc]; rfl))
      obtain ⟨hsched, _⟩ := exec_sched hw.krnl hmm hexec
      intro hp
      refine (h hp).imp (fun hp => ?_) (fun ⟨c', hp⟩ =>
        ⟨c', (held_setCpu_same (.holding q) (by rw [hc]; rfl) c' p).mpr hp⟩)
      show p ∈ (k'.sched.mlqReadyQueue _).toList
      rw [hsched]
      exact hp

/-! ## Load -/

/-- The live processes of a priority. -/
def Sys.sharing (s : Sys) (i : Nat) : List Pid := s.live.filter (fun p => s.prio p = i)

/-- The loader adds a process of priority `i` only while fewer than `MAX_QUEUE_SIZE` live ones
have that priority. -/
def FewShare (i : Nat) (s : Sys) : Event → Prop
  | .add => ∀ p ∈ s.pending, s.prio p = i → (s.sharing i).length < maxQueueSize
  | _ => True

/-- A ready queue is part of the live processes of its priority. -/
theorem Placed.ready_sub {s : Sys} (h : Placed s) (i : Nat) : s.ready i ⊆ s.sharing i := by
  intro p hp
  exact List.mem_filter.mpr ⟨h.ready_live i p hp, decide_eq_true (h.prio i p hp).symm⟩

/-- As long as its priority is not shared by too many, a process that is enqueued finds room. -/
theorem FewShare.hasRoomFor {s : Sys} {e : Event} {p : Pid} (h : Placed s)
    (hfew : FewShare (s.prio p) s e) (hle : (s.sharing (s.prio p)).length ≤ maxQueueSize) :
    HasRoomFor p s e := by
  cases e with
  | add =>
      intro hp
      exact Nat.lt_of_le_of_lt
        (List.subperm_of_subset (h.nodup _) (h.ready_sub _)).length_le (hfew p hp rfl)
  | put c =>
      -- the process handed back shares the priority and is not in the queue
      intro hp
      have hnodup := List.nodup_cons.mpr ⟨h.apart c p hp (s.prio p), h.nodup (s.prio p)⟩
      have hsub : p :: s.ready (s.prio p) ⊆ s.sharing (s.prio p) := by
        refine List.cons_subset.mpr ⟨?_, h.ready_sub _⟩
        exact List.mem_filter.mpr ⟨h.held_live c p hp, decide_eq_true rfl⟩
      exact Nat.lt_of_lt_of_le (List.subperm_of_subset hnodup hsub).length_le hle
  | create p prio symrgtbl => trivial
  | get c => trivial
  | finish c => trivial
  | restore c => trivial
  | run c ins junk => trivial

/-- The bound on the load is kept. -/
theorem sharing_step {s s' : Sys} {e : Event} {i : Nat} (h : Placed s) (hfew : FewShare i s e)
    (hle : (s.sharing i).length ≤ maxQueueSize) (hs : step s e = some s') :
    (s'.sharing i).length ≤ maxQueueSize := by
  cases e with
  | create p prio symrgtbl =>
      have heq : s.live.filter (fun q => decide (s'.prio q = i)) = s.sharing i := by
        refine List.filter_congr (fun q hq => ?_)
        rw [step_prio hs (h.created q hq)]
      obtain ⟨_, _, rfl⟩ := step_create hs
      exact Nat.le_trans (Nat.le_of_eq (congrArg List.length heq)) hle
  | add =>
      obtain ⟨p, sched, hpend, _, rfl⟩ := step_add hs
      show ((s.live ++ [p]).filter (fun q => decide (s.prio q = i))).length ≤ _
      rw [List.filter_append, List.length_append]
      by_cases hi : s.prio p = i
      · have hlt := hfew p hpend hi
        rw [Sys.sharing] at hlt
        rw [List.filter_singleton, decide_eq_true hi, cond_true, List.length_singleton]
        exact hlt
      · rw [List.filter_singleton, decide_eq_false hi, cond_false, List.length_nil]
        exact hle
  | get c => obtain ⟨_, ⟨_, rfl⟩ | ⟨_, _, rfl⟩⟩ := step_get hs <;> exact hle
  | put c => obtain ⟨_, _, _, _, rfl⟩ := step_put hs; exact hle
  | finish c =>
      obtain ⟨p, _, rfl⟩ := step_finish hs
      exact Nat.le_trans (List.erase_sublist.filter _).length_le hle
  | restore c => obtain ⟨_, _, rfl⟩ := step_restore hs; exact hle
  | run c ins junk => obtain ⟨_, _, _, _, _, rfl⟩ := step_run hs; exact hle

/-! ## In every run -/

/-- Process `p` is in exactly one place: the ready queue of its priority, once, or one CPU. -/
def ExactlyOne (s : Sys) (p : Pid) : Prop :=
  ((s.ready (s.prio p)).count p = 1 ∧ (∀ i, i ≠ s.prio p → p ∉ s.ready i) ∧ ∀ c, ¬ s.Held c p) ∨
  ((∀ i, p ∉ s.ready i) ∧ ∃! c, s.Held c p)

/-- Process `p` is in no ready queue and with no CPU. -/
def Nowhere (s : Sys) (p : Pid) : Prop := (∀ i, p ∉ s.ready i) ∧ ∀ c, ¬ s.Held c p

section Runs
variable {memramsz memswpsz : Addr} {ramJunk swpJunk : Bool} {es : List Event} {s : Sys} {p : Pid}

theorem reach_placed {ok : Sys → Event → Prop}
    (h : Lts.Run step ok (boot memramsz memswpsz ramJunk swpJunk) es s) : Placed s :=
  (h.invariant (P := fun s => s.Wf ∧ Placed s) ⟨boot_wf _ _ _ _, boot_placed _ _ _ _⟩
    (fun _ _ _ hw _ hs => ⟨hw.1.step hs, hw.2.step hw.1 hs⟩)).2

theorem reach_present
    (h : Lts.Run step (HasRoomFor p) (boot memramsz memswpsz ramJunk swpJunk) es s) :
    Present p s := by
  have hall := h.invariant (P := fun s => (s.Wf ∧ Placed s) ∧ Present p s)
    ⟨⟨boot_wf _ _ _ _, boot_placed _ _ _ _⟩, fun hp => nomatch hp⟩
    (fun _ _ _ hw hroom hs =>
      ⟨⟨hw.1.1.step hs, hw.1.2.step hw.1.1 hs⟩, hw.2.step hw.1.2 hw.1.1 hroom hs⟩)
  exact hall.2

/-- A process is in one place or nowhere. -/
theorem Placed.cases (h : Placed s) (p : Pid) : ExactlyOne s p ∨ Nowhere s p := by
  by_cases hready : p ∈ s.ready (s.prio p)
  · refine Or.inl (Or.inl ⟨List.count_eq_one_of_mem (h.nodup _) hready, ?_, ?_⟩)
    · exact fun i hi hp => hi (h.prio i p hp)
    · exact fun c hc => h.apart c p hc _ hready
  · have hnone : ∀ i, p ∉ s.ready i := fun i hp => hready (h.prio i p hp ▸ hp)
    by_cases hheld : ∃ c, s.Held c p
    · obtain ⟨c, hc⟩ := hheld
      exact Or.inl (Or.inr ⟨hnone, c, hc, fun c' hc' => h.hand c' c p hc' hc⟩)
    · exact Or.inr ⟨hnone, fun c hc => hheld ⟨c, hc⟩⟩

/-- Nobody enqueues a process that does not exist yet. -/
theorem uncreated_hasRoomFor
    (h : Lts.Reaches step (boot memramsz memswpsz ramJunk swpJunk) es s)
    (hp : s.krnl.ownMm p = none) :
    Lts.Run step (HasRoomFor p) (boot memramsz memswpsz ramJunk swpJunk) es s := by
  induction h with
  | nil => exact .nil
  | @snoc es s s' e hrun _ hs ih =>
      have hw := reach_wf hrun
      have hnone : s.krnl.ownMm p = none := by
        rw [← Option.not_isSome_iff_eq_none] at hp ⊢
        exact fun hsome => hp (step_ownMm_isSome hw hs hsome)
      have hroom : HasRoomFor p s e := by
        cases e with
        | add =>
            intro hpend
            have hsome := hw.pending p hpend
            rw [hnone] at hsome
            exact nomatch hsome
        | put c =>
            intro hc
            have hsome := hw.held c p hc
            rw [hnone] at hsome
            exact nomatch hsome
        | create q prio symrgtbl => trivial
        | get c => trivial
        | finish c => trivial
        | restore c => trivial
        | run c ins junk => trivial
      exact (ih hnone).snoc e hroom hs

/-- A load that does not share a priority too often leaves room for its processes in every run. -/
theorem fewShare_hasRoomFor {i : Nat}
    (h : Lts.Run step (FewShare i) (boot memramsz memswpsz ramJunk swpJunk) es s) :
    (s.sharing i).length ≤ maxQueueSize ∧
    ((s.krnl.ownMm p).isSome → s.prio p = i →
      Lts.Run step (HasRoomFor p) (boot memramsz memswpsz ramJunk swpJunk) es s) := by
  induction h with
  | nil => exact ⟨Nat.zero_le _, fun _ _ => .nil⟩
  | @snoc es s s' e hrun hfew hs ih =>
      obtain ⟨hle, hroom⟩ := ih
      have hpl := reach_placed hrun
      refine ⟨sharing_step hpl hfew hle hs, fun hsome hprio => ?_⟩
      by_cases hold : (s.krnl.ownMm p).isSome
      · rw [step_prio hs hold] at hprio
        subst hprio
        exact (hroom hold rfl).snoc e (hfew.hasRoomFor hpl hle) hs
      · -- the event creates the process
        obtain ⟨prio, symrgtbl, rfl⟩ := (step_ownMm (reach_wf hrun) hs hsome).resolve_left hold
        have hnone := Option.not_isSome_iff_eq_none.mp hold
        exact (uncreated_hasRoomFor hrun.reaches hnone).snoc _ trivial hs

end Runs

/-- In every run a process is in at most one place; in a run that never enqueues it into a full
queue it is in exactly one while it is live; and that is every run in which at most
`MAX_QUEUE_SIZE` live processes have its priority. -/
theorem in_one_place (memramsz memswpsz : Addr) (ramJunk swpJunk : Bool) (p : Pid) :
    (∀ es s, Lts.Reaches step (boot memramsz memswpsz ramJunk swpJunk) es s →
      ExactlyOne s p ∨ Nowhere s p) ∧
    (∀ es s, Lts.Run step (HasRoomFor p) (boot memramsz memswpsz ramJunk swpJunk) es s →
      p ∈ s.live → ExactlyOne s p) ∧
    (∀ es s, Lts.Run step (FewShare (s.prio p)) (boot memramsz memswpsz ramJunk swpJunk) es s →
      p ∈ s.live → Lts.Run step (HasRoomFor p) (boot memramsz memswpsz ramJunk swpJunk) es s) := by
  refine ⟨fun es s h => (reach_placed h).cases p, fun es s h hp => ?_, fun es s h hp => ?_⟩
  · refine ((reach_placed h).cases p).resolve_right (fun hno => ?_)
    rcases reach_present h hp with hready | ⟨c, hc⟩
    · exact hno.1 _ hready
    · exact hno.2 c hc
  · exact (fewShare_hasRoomFor h).2 ((reach_placed h).created p hp) rfl

/-- The events that load processes `1 .. n`, all of priority 0, with every CPU idle. -/
def loadMany (n : Nat) : List Event :=
  (List.range n).flatMap
    (fun p => [.create (p + 1) 0 (fun _ => { rgStart := 0, rgEnd := 0 }), .add])

/-- The fifty-first process of a priority is dropped.  The first is in one place all the same, also
after CPU 0 has run it, handed it back and taken the second, and CPU 1 has taken the third. -/
theorem in_one_place_many : ∃ s,
    Lts.Reaches step (boot 512 512 true true) (loadMany 51 ++
      [.get 0, .restore 0, .run 0 ⟨.calc, 0, 0, 0, 0⟩ 0, .put 0, .get 0, .get 1]) s ∧
    1 ∈ s.live ∧ 51 ∈ s.live ∧ ExactlyOne s 1 ∧ (s.cpu 0, s.cpu 1) = (.holding 2, .holding 3) := by
  obtain ⟨s, hs⟩ := Option.isSome_iff_exists.mp
    (by decide +kernel : (Lts.check step (HasRoomFor 1) (boot 512 512 true true) (loadMany 51 ++
      [.get 0, .restore 0, .run 0 ⟨.calc, 0, 0, 0, 0⟩ 0, .put 0, .get 0, .get 1])).isSome)
  have hrun := Lts.run_of_check hs
  have hlive : decide (1 ∈ s.live ∧ 51 ∈ s.live) = true :=
    Lts.check_map (g := fun s => decide (1 ∈ s.live ∧ 51 ∈ s.live)) hs (by decide +kernel)
  have hcpu := Lts.check_map (g := fun s => (s.cpu 0, s.cpu 1))
    (a := (.holding 2, .holding 3)) hs (by decide +kernel)
  obtain ⟨hfirst, hlast⟩ := of_decide_eq_true hlive
  obtain ⟨_, hexact, _⟩ := in_one_place 512 512 true true 1
  exact ⟨s, hrun.reaches, hfirst, hlast, hexact _ s hrun hfirst, hcpu⟩

/-- Loading runs on no CPU. -/
theorem loadMany_idle {n : Nat} {memramsz memswpsz : Addr} {ramJunk swpJunk : Bool} {s : Sys}
    (h : Lts.Reaches step (boot memramsz memswpsz ramJunk swpJunk) (loadMany n) s) (c : Nat) :
    s.cpu c = .idle := by
  have hrun : Lts.Run step (fun _ e => (∃ p prio z, e = .create p prio z) ∨ e = .add) _ _ s :=
      h.of_reaches (by
    intro e he _
    obtain ⟨p, _, he⟩ := List.mem_flatMap.mp he
    rcases List.mem_cons.mp he with rfl | he
    · exact Or.inl ⟨_, _, _, rfl⟩
    · exact Or.inr (List.mem_singleton.mp he))
  refine hrun.invariant (P := fun s => s.cpu c = .idle) rfl ?_
  rintro s₁ e s₂ hidle (⟨p, prio, z, rfl⟩ | rfl) hs
  · obtain ⟨_, _, rfl⟩ := step_create hs
    exact hidle
  · obtain ⟨_, _, _, _, rfl⟩ := step_add hs
    exact hidle

/-- The fifty-first process of one priority is lost. -/
theorem fifty_first_lost : ∃ s,
    Lts.Reaches step (boot 512 512 true true) (loadMany 51) s ∧
    51 ∈ s.live ∧ ¬ ExactlyOne s 51 := by
  obtain ⟨s, hs⟩ := Option.isSome_iff_exists.mp
    (by decide +kernel : (Lts.exec step (boot 512 512 true true) (loadMany 51)).isSome)
  have hlive : decide (51 ∈ s.live) = true :=
    Lts.exec_map (g := fun s => decide (51 ∈ s.live)) hs (by decide +kernel)
  have hready : (s.ready (s.prio 51)).count 51 = 0 :=
    Lts.exec_map (g := fun s => (s.ready (s.prio 51)).count 51) hs (by decide +kernel)
  have hreach := Lts.reaches_of_exec hs
  refine ⟨s, hreach, of_decide_eq_true hlive, ?_⟩
  rintro (⟨hone, _⟩ | ⟨_, c, hc, _⟩)
  · rw [hready] at hone
    exact nomatch hone
  · simp only [Sys.Held, loadMany_idle hreach c] at hc
    exact nomatch hc

end SimpleOs
