/-
# `SimpleOs.Lib.Atomic` — critical sections that could as well be one step

A client writes a part of the state that is its own and reads at most something else that
the others leave alone (`Frame`).  Code that keeps to its frame (`Framed`) does the same
whatever the rest of the state is: `Framed.solo_over`.

Code that takes the lock first and gives it back last (`Once`) can then be taken to run
all at once when it gives the lock back.  `Behind` compares it with a state in which it has
not begun: it holds when the lock is taken (`Behind.start`), each access keeps it
(`Behind.access`), and so does what the others do meanwhile (`Behind.env`).
-/
import SimpleOs.Lib.Mutex

namespace Mutex

/-- The part of the state that a client writes, and what else it reads. -/
structure Frame (σ ι ρ : Type) where
  /-- The part of client `i` as it is in the first state, the rest as it is in the second. -/
  onto : ι → σ → σ → σ
  seen : ι → σ → ρ
  onto_self : ∀ i s, onto i s s = s
  onto_left : ∀ i s t u, onto i (onto i s t) u = onto i s u
  onto_right : ∀ i s t u, onto i s (onto i t u) = onto i s u
  seen_onto : ∀ i s t, seen i (onto i s t) = seen i t

namespace Code

variable {κ σ ε α β ι ρ : Type}

/-! ## Code that keeps to its frame -/

/-- An access that keeps to the frame: on the part of the client it acts alike, whatever the rest
is, and so does the choice of what comes next. -/
def Local (F : Frame σ ι ρ) (i : ι) (f : σ → Except ε σ) (n : σ → Code κ σ ε α) : Prop :=
  ∀ s t, F.seen i s = F.seen i t →
    f (F.onto i s t) = (f s).map (fun s' => F.onto i s' t) ∧ n (F.onto i s t) = n s

/-- Every access keeps to the frame. -/
def Framed (F : Frame σ ι ρ) (i : ι) : Code κ σ ε α → Prop
  | done _ => True
  | crash _ => True
  | acquire n => n.Framed F i
  | release n => n.Framed F i
  | access _ f n => Local F i f n ∧ ∀ s, (n s).Framed F i

section Framed
variable {F : Frame σ ι ρ} {i : ι} {f : σ → Except ε σ} {n : σ → Code κ σ ε α}
  {c : Code κ σ ε α} {k : α → Code κ σ ε β} {site : κ}

/-- An access that keeps to the frame changes nothing else. -/
theorem Local.onto_eq (h : Local F i f n) {s s' m : σ} (hpart : F.onto i s m = s)
    (hf : f s = .ok s') : F.onto i s' m = s' := by
  have hseen : F.seen i s = F.seen i m := by rw [← hpart, F.seen_onto]
  have hover := (h s m hseen).1
  rw [hpart, hf] at hover
  exact (Except.ok.inj hover).symm

theorem Local.seen_eq (h : Local F i f n) {s s' : σ} (hf : f s = .ok s') :
    F.seen i s' = F.seen i s := by
  rw [← h.onto_eq (F.onto_self i s) hf, F.seen_onto]

theorem Framed.pure (a : α) : (pure a : Code κ σ ε α).Framed F i := trivial

theorem Framed.crash (e : ε) : (crash e : Code κ σ ε α).Framed F i := trivial

theorem Framed.ofExcept (x : Except ε α) : (ofExcept x : Code κ σ ε α).Framed F i := by
  cases x with
  | error e => trivial
  | ok a => trivial

theorem Framed.load {g : σ → α} (hg : ∀ s t, F.seen i s = F.seen i t → g (F.onto i s t) = g s) :
    (load site g : Code κ σ ε α).Framed F i :=
  ⟨fun s t hseen => ⟨rfl, congrArg done (hg s t hseen)⟩, fun _ => trivial⟩

theorem Framed.store {g : σ → σ} (hg : ∀ s t, g (F.onto i s t) = F.onto i (g s) t) :
    (store site g : Code κ σ ε Unit).Framed F i :=
  ⟨fun s t _ => ⟨congrArg Except.ok (hg s t), rfl⟩, fun _ => trivial⟩

theorem Framed.attempt {g : σ → Except ε (σ × α)}
    (hg : ∀ s t, g (F.onto i s t) = (g s).map (fun r => (F.onto i r.1 t, r.2))) :
    (attempt site g).Framed F i := by
  refine ⟨fun s t _ => ?_, fun s => ?_⟩
  · simp only [hg s t]
    cases g s with
    | error e => exact ⟨rfl, rfl⟩
    | ok r => exact ⟨rfl, rfl⟩
  · dsimp only
    cases g s with
    | error e => trivial
    | ok r => trivial

theorem Framed.bind (hc : c.Framed F i) (hk : ∀ a, (k a).Framed F i) :
    (c >>= k).Framed F i := by
  show (c.bind k).Framed F i
  induction c with
  | done a => exact hk a
  | crash e => trivial
  | acquire n ih => exact ih hc
  | release n ih => exact ih hc
  | access site f n ih =>
      refine ⟨fun s t hseen => ?_, fun s => ih s (hc.2 s)⟩
      obtain ⟨hf, hn⟩ := hc.1 s t hseen
      exact ⟨hf, congrArg (Code.bind · k) hn⟩

/-- A load whose value decides which part what comes next is about. -/
theorem Framed.load_bind {g : σ → α}
    (hg : ∀ s t, F.seen i s = F.seen i t → g (F.onto i s t) = g s)
    (hk : ∀ s, (k (g s)).Framed F i) : (Code.load site g >>= k).Framed F i :=
  ⟨fun s t hseen => ⟨rfl, congrArg k (hg s t hseen)⟩, hk⟩

theorem Framed.lock (hc : c.Framed F i) : (do Code.lock; c).Framed F i := hc

theorem Framed.unlock (hc : c.Framed F i) : (do Code.unlock; c).Framed F i := hc

/-- The code does the same whatever the rest of the state is, and leaves it alone. -/
theorem Framed.solo_over (hc : c.Framed F i) {s t : σ} (hseen : F.seen i s = F.seen i t) :
    c.solo (F.onto i s t) = (c.solo s).map (fun r => (F.onto i r.1 t, r.2)) := by
  induction c generalizing s with
  | done a => rfl
  | crash e => rfl
  | acquire n ih => exact ih hc hseen
  | release n ih => exact ih hc hseen
  | access site f n ih =>
      obtain ⟨hlocal, hnext⟩ := hc
      obtain ⟨hf, hn⟩ := hlocal s t hseen
      rw [solo, solo, hf, hn]
      cases hs : f s with
      | error e => rfl
      | ok s' => exact ih s (hnext s) ((hlocal.seen_eq hs).trans hseen)

/-- All else is as it was. -/
theorem Framed.solo_part (hc : c.Framed F i) {s s' : σ} {a : α} (h : c.solo s = .ok (s', a)) :
    F.onto i s' s = s' := by
  have hover := hc.solo_over (t := s) rfl
  rw [F.onto_self, h] at hover
  exact (congrArg Prod.fst (Except.ok.inj hover)).symm

end Framed

/-! ## Code with one critical section -/

/-- Code that takes the lock, makes its accesses, gives the lock back and returns; or that returns
at once.  The flag says whether it has the lock. -/
def Once : Bool → Code κ σ ε α → Prop
  | b, done _ => b = false
  | _, crash _ => True
  | b, acquire n => b = false ∧ n.Once true
  | b, release n => b = true ∧ ∃ a, n = done a
  | b, access _ _ n => b = true ∧ ∀ s, (n s).Once true

section Once
variable {c : Code κ σ ε α} {k : α → Code κ σ ε β} {b : Bool}

theorem Once.lock (hc : c.Once true) : (do Code.lock; c).Once false := ⟨rfl, hc⟩

theorem Once.unlock (a : α) : (do Code.unlock; Pure.pure a : Code κ σ ε α).Once true :=
  ⟨rfl, a, rfl⟩

/-- Inside the critical section. -/
theorem Plain.once (hc : c.Plain) (hk : ∀ a, (k a).Once true) : (c >>= k).Once true := by
  show (c.bind k).Once true
  induction c with
  | done a => exact hk a
  | crash e => trivial
  | acquire n ih => exact hc.elim
  | release n ih => exact hc.elim
  | access site f n ih => exact ⟨rfl, fun s => ih s (hc s)⟩

/-- What is done with the value makes no difference. -/
theorem Once.map (hc : c.Once b) (hk : ∀ a, ∃ r, k a = Pure.pure r) : (c >>= k).Once b := by
  show (c.bind k).Once b
  induction c generalizing b with
  | done a =>
      obtain ⟨r, hr⟩ := hk a
      show (k a).Once b
      rw [hr]
      exact hc
  | crash e => trivial
  | acquire n ih => exact ⟨hc.1, ih hc.2⟩
  | release n ih =>
      obtain ⟨hb, a, rfl⟩ := hc
      exact ⟨hb, hk a⟩
  | access site f n ih => exact ⟨hc.1, fun s => ih s (hc.2 s)⟩

theorem Once.not_done (h : c.Once true) (a : α) : c ≠ done a := by
  rintro rfl
  cases h

end Once

/-! ## Behind -/

/-- Client `i` has run its critical section from `c₀` down to `c` and the state is `s`.  In `m` it
has not begun, and all else is as in `s`. -/
structure Behind (F : Frame σ ι ρ) (i : ι) (c₀ c : Code κ σ ε α) (m s : σ) : Prop where
  framed₀ : c₀.Framed F i
  framed : c.Framed F i
  same : c₀.solo m = c.solo s
  part : F.onto i s m = s

section Behind
variable {F : Frame σ ι ρ} {i : ι} {c₀ c : Code κ σ ε α} {m s s' : σ}

theorem Behind.start (hc : c.Framed F i) (s : σ) : Behind F i c c s s :=
  ⟨hc, hc, rfl, F.onto_self i s⟩

theorem Behind.seen (h : Behind F i c₀ c m s) : F.seen i s = F.seen i m := by
  rw [← h.part, F.seen_onto]

theorem Behind.access {site : κ} {f : σ → Except ε σ} {n : σ → Code κ σ ε α}
    (h : Behind F i c₀ (.access site f n) m s) (hf : f s = .ok s') :
    Behind F i c₀ (n s) m s' where
  framed₀ := h.framed₀
  framed := h.framed.2 s
  same := by rw [h.same, solo, hf]; rfl
  part := h.framed.1.onto_eq h.part hf

/-- An access that goes wrong would have gone wrong without the others. -/
theorem Behind.error {site : κ} {f : σ → Except ε σ} {n : σ → Code κ σ ε α} {e : ε}
    (h : Behind F i c₀ (.access site f n) m s) (hf : f s = .error e) : c₀.solo m = .error e := by
  rw [h.same, solo, hf]
  rfl

/-- At its end the critical section has done what it does when run from `m`. -/
theorem Behind.release {a : α} (h : Behind F i c₀ (.release (.done a)) m s) :
    c₀.solo m = .ok (s, a) := h.same

/-- The others may do what they like with the rest. -/
theorem Behind.env (h : Behind F i c₀ c m s) (hpart : F.onto i s s' = s')
    (hseen : F.seen i s' = F.seen i s) : Behind F i c₀ c (F.onto i m s') s' where
  framed₀ := h.framed₀
  framed := h.framed
  same := by
    rw [h.framed₀.solo_over (h.seen.symm.trans hseen.symm), h.same,
      ← h.framed.solo_over hseen.symm, hpart]
  part := by rw [F.onto_right, F.onto_self]

end Behind

end Code

end Mutex
