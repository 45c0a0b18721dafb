/-
# `SimpleOs.Lib.Mutex` — code that shares a state under one lock

`Code` is the code of a thread as a tree: it returns, crashes, takes or gives back the lock,
or makes one access to the shared state and goes on with what it saw.  Threads take turns
between any two of these (`Step`); the lock blocks whoever wants it while it is taken.

Code that takes the lock only when it does not have it and returns without it (`Turns`) does
so in every interleaving (`Turning.step`).

A lock guards a view of the state (`Spec`).  Every client owns a part of the view that
nobody else writes.  A thread that holds the lock knows the whole view; a thread that does
not knows its own part (`Know`).  `Spec.wp` reads the code of one thread from that
knowledge: under the lock an access must keep the invariant and the parts of the others,
without it an access must leave the view alone.

Code that is `Sound` in this sense, looked at one thread at a time, keeps the discipline in
every interleaving: `Inv.step` is the induction step, and `Inv.access` says what an access
does where threads have come to.
-/
import Mathlib.Logic.Function.Basic

namespace Mutex

/-! ## Code -/

/-- The code of a thread: `κ` names the places at which it accesses the state `σ`. -/
inductive Code (κ σ ε α : Type) : Type
  | done (a : α)
  | crash (e : ε)
  | acquire (next : Code κ σ ε α)
  | release (next : Code κ σ ε α)
  | access (site : κ) (f : σ → Except ε σ) (next : σ → Code κ σ ε α)

namespace Code

variable {κ σ ε α β : Type}

/-- One piece of code after the other. -/
protected def bind : Code κ σ ε α → (α → Code κ σ ε β) → Code κ σ ε β
  | done a, k => k a
  | crash e, _ => crash e
  | acquire n, k => acquire (n.bind k)
  | release n, k => release (n.bind k)
  | access site f n, k => access site f (fun s => (n s).bind k)

instance : Monad (Code κ σ ε) where
  pure := done
  bind := Code.bind

/-- Take the lock. -/
def lock : Code κ σ ε Unit := acquire (done ())

/-- Give the lock back. -/
def unlock : Code κ σ ε Unit := release (done ())

/-- A result that takes no access. -/
def ofExcept : Except ε α → Code κ σ ε α
  | .ok a => done a
  | .error e => crash e

/-- One access that may change the state, return a value or go wrong. -/
def attempt (site : κ) (f : σ → Except ε (σ × α)) : Code κ σ ε α :=
  access site (fun s => (f s).map Prod.fst) (fun s =>
    match f s with
    | .ok (_, a) => done a
    | .error e => crash e)

/-- One access that reads. -/
def load (site : κ) (f : σ → α) : Code κ σ ε α := access site .ok (fun s => done (f s))

/-- One access that writes. -/
def store (site : κ) (f : σ → σ) : Code κ σ ε Unit :=
  access site (fun s => .ok (f s)) (fun _ => done ())

/-- The code run from `s` to its end with nobody in between; locks are free for the asking. -/
def solo : Code κ σ ε α → σ → Except ε (σ × α)
  | done a, s => .ok (s, a)
  | crash e, _ => .error e
  | acquire n, s => n.solo s
  | release n, s => n.solo s
  | access _ f n, s => (f s).bind (fun s' => (n s).solo s')

theorem solo_bind (c : Code κ σ ε α) (k : α → Code κ σ ε β) (s : σ) :
    (c >>= k).solo s = (c.solo s).bind (fun r => (k r.2).solo r.1) := by
  show (c.bind k).solo s = _
  induction c generalizing s with
  | done a => rfl
  | crash e => rfl
  | acquire n ih => exact ih s
  | release n ih => exact ih s
  | access site f n ih =>
      simp only [Code.bind, solo, ih]
      cases f s with
      | error e => rfl
      | ok s' => rfl

@[simp] theorem solo_pure (a : α) (s : σ) : (pure a : Code κ σ ε α).solo s = .ok (s, a) := rfl

@[simp] theorem solo_crash (e : ε) (s : σ) : (crash e : Code κ σ ε α).solo s = .error e := rfl

@[simp] theorem solo_ofExcept (x : Except ε α) (s : σ) :
    (ofExcept x : Code κ σ ε α).solo s = x.map (fun a => (s, a)) := by
  cases x with
  | error e => rfl
  | ok a => rfl

@[simp] theorem solo_lock (s : σ) : (lock : Code κ σ ε Unit).solo s = .ok (s, ()) := rfl

@[simp] theorem solo_unlock (s : σ) : (unlock : Code κ σ ε Unit).solo s = .ok (s, ()) := rfl

@[simp] theorem solo_load (site : κ) (f : σ → α) (s : σ) :
    (load site f : Code κ σ ε α).solo s = .ok (s, f s) := rfl

@[simp] theorem solo_store (site : κ) (f : σ → σ) (s : σ) :
    (store site f : Code κ σ ε Unit).solo s = .ok (f s, ()) := rfl

@[simp] theorem solo_attempt (site : κ) (f : σ → Except ε (σ × α)) (s : σ) :
    (attempt site f).solo s = f s := by
  simp only [attempt, solo]
  cases f s with
  | error e => rfl
  | ok r => rfl

/-! ## Taking turns with the lock -/

/-- Code that neither takes nor gives back the lock. -/
def Plain : Code κ σ ε α → Prop
  | done _ => True
  | crash _ => True
  | acquire _ => False
  | release _ => False
  | access _ _ n => ∀ s, (n s).Plain

/-- Code that takes the lock when it does not have it, gives it back when it has it and returns
without it.  The flag says whether it has it. -/
def Turns : Bool → Code κ σ ε α → Prop
  | b, done _ => b = false
  | _, crash _ => True
  | b, acquire n => b = false ∧ n.Turns true
  | b, release n => b = true ∧ n.Turns false
  | b, access _ _ n => ∀ s, (n s).Turns b

section Turns
variable {c : Code κ σ ε α} {k : α → Code κ σ ε β} {b : Bool}

theorem Plain.pure (a : α) : (pure a : Code κ σ ε α).Plain := trivial

theorem Plain.crash (e : ε) : (crash e : Code κ σ ε α).Plain := trivial

theorem Plain.ofExcept (x : Except ε α) : (ofExcept x : Code κ σ ε α).Plain := by
  cases x with
  | error e => trivial
  | ok a => trivial

theorem Plain.load (site : κ) (f : σ → α) : (load site f : Code κ σ ε α).Plain := fun _ => trivial

theorem Plain.store (site : κ) (f : σ → σ) : (store site f : Code κ σ ε Unit).Plain :=
  fun _ => trivial

theorem Plain.attempt (site : κ) (f : σ → Except ε (σ × α)) : (attempt site f).Plain := by
  intro s
  show Code.Plain (match f s with
    | .ok (_, a) => done a
    | .error e => Code.crash e)
  cases f s with
  | error e => trivial
  | ok r => trivial

theorem Plain.bind (hc : c.Plain) (hk : ∀ a, (k a).Plain) : (c >>= k).Plain := by
  show (c.bind k).Plain
  induction c with
  | done a => exact hk a
  | crash e => trivial
  | acquire n ih => exact hc.elim
  | release n ih => exact hc.elim
  | access site f n ih => exact fun s => ih s (hc s)

/-- Plain code goes on with the lock or without it, as it started. -/
theorem Plain.andThen (hc : c.Plain) (hk : ∀ a, (k a).Turns b) : (c >>= k).Turns b := by
  show (c.bind k).Turns b
  induction c with
  | done a => exact hk a
  | crash e => trivial
  | acquire n ih => exact hc.elim
  | release n ih => exact hc.elim
  | access site f n ih => exact fun s => ih s (hc s)

theorem Plain.turns (hc : c.Plain) : c.Turns false := by
  induction c with
  | done a => rfl
  | crash e => trivial
  | acquire n ih => exact hc.elim
  | release n ih => exact hc.elim
  | access site f n ih => exact fun s => ih s (hc s)

theorem Turns.pure (a : α) : (pure a : Code κ σ ε α).Turns false := rfl

theorem Turns.lock (hc : c.Turns true) : (do lock; c).Turns false := ⟨rfl, hc⟩

theorem Turns.unlock (hc : c.Turns false) : (do unlock; c).Turns true := ⟨rfl, hc⟩

/-- After code that takes turns comes code without the lock. -/
theorem Turns.bind (hc : c.Turns b) (hk : ∀ a, (k a).Turns false) : (c >>= k).Turns b := by
  show (c.bind k).Turns b
  induction c generalizing b with
  | done a =>
      obtain rfl : b = false := hc
      exact hk a
  | crash e => trivial
  | acquire n ih => exact ⟨hc.1, ih hc.2⟩
  | release n ih => exact ⟨hc.1, ih hc.2⟩
  | access site f n ih => exact fun s => ih s (hc s)

end Turns

end Code

/-! ## What one thread may do -/

/-- What a lock guards: a view of the state with a part for every client, an invariant of the
view, and a condition under which an access may be made without the lock.  `fixed` is what
no access changes, with the lock or without it. -/
structure Spec (κ σ π ι ω ρ : Type) where
  view : σ → π
  part : ι → π → ω
  inv : π → Prop
  ok : κ → σ → Prop
  fixed : σ → ρ

/-- What a thread knows of the view: its own part, or everything while it holds the lock. -/
inductive Know (π ω : Type) : Type
  | free (own : ω)
  | held (v : π)

namespace Spec

variable {κ σ ε α β π ι ω ρ : Type} (L : Spec κ σ π ι ω ρ) (i : ι)

/-- What the thread knows is true of `s`. -/
def Agrees : Know π ω → σ → Prop
  | .free own, s => L.part i (L.view s) = own
  | .held v, s => L.view s = v

/-- The access is made under the lock, or meets the condition. -/
def Permits : Know π ω → κ → σ → Prop
  | .free _, site, s => L.ok site s
  | .held _, _, _ => True

/-- What an access may do without the lock: nothing that the lock guards. -/
structure Same (s s' : σ) : Prop where
  fixed : L.fixed s' = L.fixed s
  view : L.view s' = L.view s

/-- What an access may do under the lock: keep the invariant and the parts of the others. -/
structure Safe (s s' : σ) : Prop where
  fixed : L.fixed s' = L.fixed s
  inv : L.inv (L.view s')
  part : ∀ j, j ≠ i → L.part j (L.view s') = L.part j (L.view s)

/-- What an access may do. -/
def Moves : Know π ω → σ → σ → Prop
  | .free _, s, s' => L.Same s s'
  | .held _, s, s' => L.Safe i s s'

/-- What the thread knows after an access. -/
def after : Know π ω → σ → Know π ω
  | .free own, _ => .free own
  | .held _, s' => .held (L.view s')

/-- From the knowledge `h` the code takes and gives back the lock in turn and makes only accesses
that it may make; if it returns, `Q` holds of the value and of what it knows then. -/
def wp : Code κ σ ε α → (α → Know π ω → Prop) → Know π ω → Prop
  | .done a, Q, h => Q a h
  | .crash _, _, _ => True
  | .acquire n, Q, h => ∃ own, h = .free own ∧
      ∀ v, L.part i v = own → L.inv v → wp n Q (.held v)
  | .release n, Q, h => ∃ v, h = .held v ∧ wp n Q (.free (L.part i v))
  | .access site f n, Q, h => ∀ s s', L.inv (L.view s) → L.Agrees i h s → L.Permits h site s →
      f s = .ok s' → L.Moves i h s s' ∧ wp (n s) Q (L.after h s')

variable {L i} {c : Code κ σ ε α} {Q Q' : α → Know π ω → Prop} {h : Know π ω}

theorem Same.refl (s : σ) : L.Same s s := ⟨rfl, rfl⟩

theorem Same.safe {s s' : σ} (h : L.Same s s') (hinv : L.inv (L.view s)) : L.Safe i s s' :=
  ⟨h.fixed, by rw [h.view]; exact hinv, fun j _ => by rw [h.view]⟩

theorem Moves.fixed {s s' : σ} (hm : L.Moves i h s s') : L.fixed s' = L.fixed s := by
  cases h with
  | free own => exact Same.fixed hm
  | held v => exact Safe.fixed hm

theorem wp_mono (hc : L.wp i c Q h) (himp : ∀ a h, Q a h → Q' a h) : L.wp i c Q' h := by
  induction c generalizing h with
  | done a => exact himp a h hc
  | crash e => trivial
  | acquire n ih =>
      obtain ⟨own, rfl, hn⟩ := hc
      exact ⟨own, rfl, fun v hv hinv => ih (hn v hv hinv)⟩
  | release n ih =>
      obtain ⟨v, rfl, hn⟩ := hc
      exact ⟨v, rfl, ih hn⟩
  | access site f n ih =>
      intro s s' hinv hag hok hf
      obtain ⟨hmoves, hn⟩ := hc s s' hinv hag hok hf
      exact ⟨hmoves, ih s hn⟩

theorem wp_bind {k : α → Code κ σ ε β} {R : β → Know π ω → Prop}
    (hc : L.wp i c (fun a h => L.wp i (k a) R h) h) : L.wp i (c >>= k) R h := by
  show L.wp i (c.bind k) R h
  induction c generalizing h with
  | done a => exact hc
  | crash e => trivial
  | acquire n ih =>
      obtain ⟨own, rfl, hn⟩ := hc
      exact ⟨own, rfl, fun v hv hinv => ih (hn v hv hinv)⟩
  | release n ih =>
      obtain ⟨v, rfl, hn⟩ := hc
      exact ⟨v, rfl, ih hn⟩
  | access site f n ih =>
      intro s s' hinv hag hok hf
      obtain ⟨hmoves, hn⟩ := hc s s' hinv hag hok hf
      exact ⟨hmoves, ih s hn⟩

/-- A piece of code and then the rest. -/
theorem wp_seq {k : α → Code κ σ ε β} {R : β → Know π ω → Prop} (hc : L.wp i c Q h)
    (hk : ∀ a h, Q a h → L.wp i (k a) R h) : L.wp i (c >>= k) R h :=
  wp_bind (wp_mono hc hk)

/-! ## Three kinds of code -/

/-- Code that keeps what is known, and so leaves the view alone. -/
def Idle (L : Spec κ σ π ι ω ρ) (i : ι) (h : Know π ω) (c : Code κ σ ε α) (R : α → Prop) : Prop :=
  L.wp i c (fun a h' => R a ∧ h' = h) h

/-- Code that leaves the view alone under the lock and without it. -/
def Quiet (L : Spec κ σ π ι ω ρ) (i : ι) (c : Code κ σ ε α) (R : α → Prop) : Prop :=
  ∀ h, L.Idle i h c R

/-- Code that keeps the lock and, under it, the invariant. -/
def Keeps (L : Spec κ σ π ι ω ρ) (i : ι) (c : Code κ σ ε α) (R : α → Prop) : Prop :=
  ∀ v, L.inv v → L.wp i c (fun a h => R a ∧ ∃ v', h = .held v' ∧ L.inv v') (.held v)

/-- The code of a client that starts and ends without the lock, whatever it owns. -/
def Sound (L : Spec κ σ π ι ω ρ) (i : ι) (c : Code κ σ ε α) : Prop :=
  ∀ own, L.wp i c (fun _ h => ∃ own', h = .free own') (.free own)

section Rules
variable {R : α → Prop} {R' : β → Prop} {k : α → Code κ σ ε β} {site : κ}
  {f : σ → Except ε (σ × α)}

theorem Idle.pure {a : α} (ha : R a) : L.Idle i h (pure a : Code κ σ ε α) R := ⟨ha, rfl⟩

theorem Idle.bind (hc : L.Idle i h c R) (hk : ∀ a, R a → L.Idle i h (k a) R') :
    L.Idle i h (c >>= k) R' :=
  wp_seq hc (by rintro a h' ⟨ha, rfl⟩; exact hk a ha)

theorem Quiet.idle (hc : L.Quiet i c R) : L.Idle i h c R := hc h

theorem Keeps.pure {a : α} (ha : R a) : L.Keeps i (pure a : Code κ σ ε α) R :=
  fun v hv => ⟨ha, v, rfl, hv⟩

theorem Keeps.bind (hc : L.Keeps i c R) (hk : ∀ a, R a → L.Keeps i (k a) R') :
    L.Keeps i (c >>= k) R' :=
  fun v hv => wp_seq (hc v hv) (by rintro a _ ⟨ha, v', rfl, hv'⟩; exact hk a ha v' hv')

theorem Quiet.keeps (hc : L.Quiet i c R) : L.Keeps i c R :=
  fun v hv => wp_mono (hc (.held v)) (fun _ _ ha => ⟨ha.1, v, ha.2, hv⟩)

/-- A result that takes no access is as good as what it is. -/
theorem Quiet.ofExcept {x : Except ε α} (hx : ∀ a, x = .ok a → R a) :
    L.Quiet i (.ofExcept x : Code κ σ ε α) R := by
  intro h
  cases x with
  | error e => trivial
  | ok a => exact ⟨hx a rfl, rfl⟩

/-- An access that may go wrong and returns a value. -/
theorem wp_attempt (hf : ∀ s s' a, L.inv (L.view s) → L.Agrees i h s → L.Permits h site s →
      f s = .ok (s', a) → L.Moves i h s s' ∧ Q a (L.after h s')) :
    L.wp i (.attempt site f) Q h := by
  intro s s' hinv hag hok hs
  cases hfs : f s with
  | error e =>
      simp only [hfs] at hs
      exact nomatch hs
  | ok r =>
      obtain ⟨s₁, a⟩ := r
      simp only [hfs] at hs ⊢
      obtain rfl : s₁ = s' := Except.ok.inj hs
      exact hf s s₁ a hinv hag hok hfs

/-- A load under the lock, from the view that is known. -/
theorem wp_load_held {v : π} {g : σ → α}
    (hg : ∀ s, L.inv (L.view s) → L.view s = v → Q (g s) (.held v)) :
    L.wp i (.load site g : Code κ σ ε α) Q (.held v) := by
  intro s s' hinv hag _ hs
  obtain rfl : s = s' := Except.ok.inj hs
  obtain rfl : L.view s = v := hag
  exact ⟨(Same.refl s).safe hinv, hg s hinv rfl⟩

/-- A store under the lock. -/
theorem wp_store_held {v : π} {g : σ → σ} {Q : Unit → Know π ω → Prop}
    (hg : ∀ s, L.inv (L.view s) → L.view s = v →
      L.Safe i s (g s) ∧ Q () (.held (L.view (g s)))) :
    L.wp i (.store site g : Code κ σ ε Unit) Q (.held v) := by
  intro s s' hinv hag _ hs
  obtain rfl : g s = s' := Except.ok.inj hs
  exact hg s hinv hag

/-- An access without the lock. -/
theorem Idle.attempt {own : ω} (hf : ∀ s s' a, L.inv (L.view s) → L.part i (L.view s) = own →
      L.ok site s → f s = .ok (s', a) → L.Same s s' ∧ R a) :
    L.Idle i (.free own) (.attempt site f) R := by
  refine wp_attempt fun s s' a hinv hag hok hs => ?_
  obtain ⟨hsame, ha⟩ := hf s s' a hinv hag hok hs
  exact ⟨hsame, ha, rfl⟩

theorem Idle.load {own : ω} {g : σ → α}
    (hg : ∀ s, L.inv (L.view s) → L.part i (L.view s) = own → L.ok site s → R (g s)) :
    L.Idle i (.free own) (.load site g : Code κ σ ε α) R := by
  intro s s' hinv hag hok hs
  obtain rfl : s = s' := Except.ok.inj hs
  exact ⟨Same.refl s, hg s hinv hag hok, rfl⟩

/-- An access under the lock. -/
theorem Keeps.attempt (hf : ∀ s s' a, L.inv (L.view s) → f s = .ok (s', a) →
      L.Safe i s s' ∧ R a) : L.Keeps i (.attempt site f) R := by
  intro v _
  refine wp_attempt fun s s' a hinv _ _ hs => ?_
  obtain ⟨hsafe, ha⟩ := hf s s' a hinv hs
  exact ⟨hsafe, ha, _, rfl, hsafe.inv⟩

/-- An access that leaves the view alone. -/
theorem Quiet.attempt (hf : ∀ s s' a, L.inv (L.view s) → f s = .ok (s', a) →
      L.Same s s' ∧ R a) : L.Quiet i (.attempt site f) R := by
  intro h
  refine wp_attempt fun s s' a hinv hag _ hs => ?_
  obtain ⟨hsame, ha⟩ := hf s s' a hinv hs
  cases h with
  | free own => exact ⟨hsame, ha, rfl⟩
  | held v =>
      refine ⟨hsame.safe hinv, ha, ?_⟩
      rw [after, hsame.view, hag]

theorem Quiet.load {g : σ → α} (hg : ∀ s, L.inv (L.view s) → R (g s)) :
    L.Quiet i (.load site g : Code κ σ ε α) R := by
  intro h s s' hinv hag _ hs
  obtain rfl : s = s' := Except.ok.inj hs
  cases h with
  | free own => exact ⟨Same.refl s, hg s hinv, rfl⟩
  | held v => exact ⟨(Same.refl s).safe hinv, hg s hinv, by rw [after, hag]⟩

/-- Code that has the lock and gives it back before it returns. -/
def Closes (L : Spec κ σ π ι ω ρ) (i : ι) (c : Code κ σ ε α) : Prop :=
  ∀ v, L.inv v → L.wp i c (fun _ h => ∃ own, h = .free own) (.held v)

theorem Closes.unlock (a : α) : L.Closes i (do Code.unlock; pure a : Code κ σ ε α) :=
  fun v _ => wp_bind ⟨v, rfl, _, rfl⟩

theorem Closes.bind (hc : L.Keeps i c R) (hk : ∀ a, R a → L.Closes i (k a)) :
    L.Closes i (c >>= k) :=
  fun v hv => wp_seq (hc v hv) (by rintro a _ ⟨ha, v', rfl, hv'⟩; exact hk a ha v' hv')

/-- A critical section. -/
theorem Sound.lock (hc : L.Closes i c) : L.Sound i (do Code.lock; c) :=
  fun own => wp_bind ⟨own, rfl, fun v _ hv => hc v hv⟩

/-- What is done with the value makes no difference. -/
theorem Sound.map {g : α → Code κ σ ε β} (hc : L.Sound i c)
    (hg : ∀ a, ∃ b, g a = Pure.pure b) : L.Sound i (c >>= g) := by
  intro own
  refine wp_seq (hc own) ?_
  rintro a h ⟨own', rfl⟩
  obtain ⟨b, hb⟩ := hg a
  rw [hb]
  exact ⟨own', rfl⟩

theorem Idle.sound (hc : ∀ own, L.Idle i (.free own) c R) : L.Sound i c :=
  fun own => wp_mono (hc own) (fun _ _ ha => ⟨own, ha.2⟩)

end Rules

end Spec

/-! ## Interleavings -/

/-- Threads that run code for clients, the state they share and the thread that has the lock. -/
structure State (κ σ ε α ι τ : Type) where
  mem : σ
  owner : Option τ
  code : τ → Option (ι × Code κ σ ε α)

section Interleaving
variable {κ σ ε α π ι ω ρ τ : Type} [DecidableEq τ] {L : Spec κ σ π ι ω ρ}

/-- One step: something outside changes the state, a thread starts code for a client, or it makes
one step of its code.  `ext` says what may happen outside, `start` what may be started, and
`ok` when an access may be made without the lock. -/
inductive Step (ext : σ → σ → Prop) (ok : κ → σ → Prop)
    (start : State κ σ ε α ι τ → ι → Code κ σ ε α → Prop) :
    State κ σ ε α ι τ → State κ σ ε α ι τ → Prop
  | env {s : State κ σ ε α ι τ} {mem : σ} : ext s.mem mem → Step ext ok start s { s with mem }
  | spawn {s : State κ σ ε α ι τ} {t : τ} {i : ι} {c : Code κ σ ε α} : s.code t = none →
      start s i c → Step ext ok start s { s with code := Function.update s.code t (some (i, c)) }
  | exit {s : State κ σ ε α ι τ} {t : τ} {i : ι} {a : α} : s.code t = some (i, .done a) →
      Step ext ok start s { s with code := Function.update s.code t none }
  | acquire {s : State κ σ ε α ι τ} {t : τ} {i : ι} {n : Code κ σ ε α} :
      s.code t = some (i, .acquire n) → s.owner = none → Step ext ok start s
        { s with owner := some t, code := Function.update s.code t (some (i, n)) }
  | release {s : State κ σ ε α ι τ} {t : τ} {i : ι} {n : Code κ σ ε α} :
      s.code t = some (i, .release n) → s.owner = some t → Step ext ok start s
        { s with owner := none, code := Function.update s.code t (some (i, n)) }
  | access {s : State κ σ ε α ι τ} {t : τ} {i : ι} {site : κ} {f : σ → Except ε σ}
      {n : σ → Code κ σ ε α} {mem : σ} : s.code t = some (i, .access site f n) →
      (s.owner ≠ some t → ok site s.mem) → f s.mem = .ok mem → Step ext ok start s
        { s with mem, code := Function.update s.code t (some (i, n s.mem)) }

variable {ext : σ → σ → Prop} {ok : κ → σ → Prop}
  {start : State κ σ ε α ι τ → ι → Code κ σ ε α → Prop} {s s' : State κ σ ε α ι τ} {t : τ} {i : ι}

/-- What a thread runs after thread `t` was given something to run. -/
theorem update_some {code : τ → Option (ι × Code κ σ ε α)} {t' : τ} {x y : ι × Code κ σ ε α}
    (h : Function.update code t (some x) t' = some y) :
    (t' = t ∧ x = y) ∨ (t' ≠ t ∧ code t' = some y) := by
  by_cases ht : t' = t
  · subst ht
    rw [Function.update_self] at h
    exact Or.inl ⟨rfl, Option.some.inj h⟩
  · rw [Function.update_of_ne ht] at h
    exact Or.inr ⟨ht, h⟩

/-- What a thread runs after thread `t` has finished. -/
theorem update_none {code : τ → Option (ι × Code κ σ ε α)} {t' : τ} {y : ι × Code κ σ ε α}
    (h : Function.update code t none t' = some y) : t' ≠ t ∧ code t' = some y := by
  by_cases ht : t' = t
  · subst ht
    rw [Function.update_self] at h
    exact nomatch h
  · rw [Function.update_of_ne ht] at h
    exact ⟨ht, h⟩

/-! ## Turns -/

/-- Every thread takes turns with the lock, and whoever has it runs. -/
structure Turning (s : State κ σ ε α ι τ) : Prop where
  turns : ∀ t i c, s.code t = some (i, c) → c.Turns (decide (s.owner = some t))
  owner : ∀ t, s.owner = some t → (s.code t).isSome

/-- The threads after thread `t` went on with `c'`. -/
theorem Turning.goOn {mem : σ} {owner : Option τ} {c c' : Code κ σ ε α} (h : Turning s)
    (hc : s.code t = some (i, c)) (hself : c'.Turns (decide (owner = some t)))
    (hother : ∀ t', t' ≠ t → (owner = some t' ↔ s.owner = some t')) :
    Turning ⟨mem, owner, Function.update s.code t (some (i, c'))⟩ where
  turns := by
    intro t' j c₁ hc₁
    rcases update_some hc₁ with ⟨rfl, heq⟩ | ⟨ht, hold⟩
    · cases heq
      exact hself
    · show c₁.Turns (decide (owner = some t'))
      rw [decide_eq_decide.mpr (hother t' ht)]
      exact h.turns t' j c₁ hold
  owner := by
    intro t' ho
    by_cases ht : t' = t
    · subst ht
      simp only [Function.update_self]
      rfl
    · simp only [Function.update_of_ne ht]
      exact h.owner t' ((hother t' ht).mp ho)

/-- Threads that start with code that takes turns take turns, whatever else happens. -/
theorem Turning.step (hstart : ∀ s i c, start s i c → c.Turns false) (h : Turning s)
    (hs : Step ext ok start s s') : Turning s' := by
  cases hs with
  | env _ => exact ⟨h.turns, h.owner⟩
  | @spawn t i c hnone hst =>
      have hown : s.owner ≠ some t := by
        intro ho
        have hsome := h.owner t ho
        rw [hnone] at hsome
        exact nomatch hsome
      refine ⟨fun t' j c' hc' => ?_, fun t' ho => ?_⟩
      · rcases update_some hc' with ⟨rfl, heq⟩ | ⟨_, hold⟩
        · cases heq
          show c.Turns (decide (s.owner = some t'))
          rw [decide_eq_false hown]
          exact hstart s i c hst
        · exact h.turns t' j c' hold
      · have ht : t' ≠ t := fun ht => hown (ht ▸ ho)
        simp only [Function.update_of_ne ht]
        exact h.owner t' ho
  | @exit t i a hc =>
      have hown : s.owner ≠ some t := of_decide_eq_false (h.turns t i _ hc)
      refine ⟨fun t' j c' hc' => h.turns t' j c' (update_none hc').2, fun t' ho => ?_⟩
      have ht : t' ≠ t := fun ht => hown (ht ▸ ho)
      simp only [Function.update_of_ne ht]
      exact h.owner t' ho
  | @acquire t i n hc hfree =>
      refine h.goOn hc ?_ fun t' ht => ⟨fun ho => ?_, fun ho => ?_⟩
      · rw [decide_eq_true rfl]
        exact (h.turns t i _ hc).2
      · exact absurd (Option.some.inj ho).symm ht
      · exact nomatch hfree.symm.trans ho
  | @release t i n hc hheld =>
      refine h.goOn hc (h.turns t i _ hc).2 fun t' ht => ⟨fun ho => ?_, fun ho => ?_⟩
      · exact nomatch ho
      · exact absurd (Option.some.inj (ho.symm.trans hheld)) ht
  | @access t i site f n mem hc _ hf =>
      exact h.goOn hc (h.turns t i _ hc s.mem) fun t' _ => Iff.rfl

/-! ## Knowledge -/

/-- What thread `t` knows. -/
def State.know (L : Spec κ σ π ι ω ρ) (s : State κ σ ε α ι τ) (t : τ) (i : ι) : Know π ω :=
  if s.owner = some t then .held (L.view s.mem) else .free (L.part i (L.view s.mem))

/-- Every thread runs code that is sound from what it knows. -/
structure Inv (L : Spec κ σ π ι ω ρ) (s : State κ σ ε α ι τ) : Prop where
  inv : L.inv (L.view s.mem)
  code : ∀ t i c, s.code t = some (i, c) →
    L.wp i c (fun _ h => ∃ own, h = .free own) (s.know L t i)
  apart : ∀ t t' i c c', s.code t = some (i, c) → s.code t' = some (i, c') → t = t'
  owner : ∀ t, s.owner = some t → (s.code t).isSome

theorem State.know_held (h : s.owner = some t) : s.know L t i = .held (L.view s.mem) := if_pos h

theorem State.know_free (h : s.owner ≠ some t) :
    s.know L t i = .free (L.part i (L.view s.mem)) := if_neg h

theorem State.not_owner {own : ω} (h : s.know L t i = .free own) : s.owner ≠ some t := by
  intro ho
  rw [State.know_held ho] at h
  exact nomatch h

/-- A thread whose code has returned does not have the lock. -/
theorem Inv.done {a : α} (h : Inv L s) (hc : s.code t = some (i, .done a)) :
    s.owner ≠ some t := by
  obtain ⟨own, hown⟩ := h.code t i _ hc
  exact State.not_owner hown

/-- An access of a thread: under the lock it keeps the invariant and what others own, without the
lock it leaves the view alone. -/
theorem Inv.access {site : κ} {f : σ → Except ε σ} {n : σ → Code κ σ ε α} {mem : σ}
    (h : Inv L s) (hc : s.code t = some (i, .access site f n))
    (hok : s.owner ≠ some t → L.ok site s.mem) (hf : f s.mem = .ok mem) :
    L.Moves i (s.know L t i) s.mem mem ∧
    L.wp i (n s.mem) (fun _ h => ∃ own, h = .free own) (L.after (s.know L t i) mem) := by
  refine h.code t i _ hc s.mem mem h.inv ?_ ?_ hf
  · by_cases ho : s.owner = some t
    · rw [State.know_held ho]
      rfl
    · rw [State.know_free ho]
      rfl
  · by_cases ho : s.owner = some t
    · rw [State.know_held ho]
      trivial
    · rw [State.know_free ho]
      exact hok ho

/-- If nobody else serves `i`, thread `t` may. -/
theorem apart_update {code : τ → Option (ι × Code κ σ ε α)} {c' : Code κ σ ε α}
    (h : ∀ t t' i c c', code t = some (i, c) → code t' = some (i, c') → t = t')
    (hnew : ∀ t' c, code t' = some (i, c) → t' = t) :
    ∀ t₁ t₂ j c₁ c₂, Function.update code t (some (i, c')) t₁ = some (j, c₁) →
      Function.update code t (some (i, c')) t₂ = some (j, c₂) → t₁ = t₂ := by
  intro t₁ t₂ j c₁ c₂ h₁ h₂
  rcases update_some h₁ with ⟨ht₁, heq₁⟩ | ⟨_, h₁⟩
  · rcases update_some h₂ with ⟨ht₂, _⟩ | ⟨_, h₂⟩
    · rw [ht₁, ht₂]
    · cases heq₁
      rw [ht₁, hnew t₂ c₂ h₂]
  · rcases update_some h₂ with ⟨ht₂, heq₂⟩ | ⟨_, h₂⟩
    · cases heq₂
      rw [ht₂, hnew t₁ c₁ h₁]
    · exact h t₁ t₂ j c₁ c₂ h₁ h₂

/-- The threads after thread `t` went on with `c'`. -/
theorem Inv.goOn {mem : σ} {owner : Option τ} {c c' : Code κ σ ε α} (h : Inv L s)
    (hc : s.code t = some (i, c)) (hinv : L.inv (L.view mem))
    (hself : L.wp i c' (fun _ h => ∃ own, h = .free own)
      (State.know L ⟨mem, owner, s.code⟩ t i))
    (hother : ∀ t' j, t' ≠ t → j ≠ i →
      State.know L ⟨mem, owner, s.code⟩ t' j = s.know L t' j)
    (howner : ∀ t', owner = some t' → t' = t ∨ s.owner = some t') :
    Inv L ⟨mem, owner, Function.update s.code t (some (i, c'))⟩ where
  inv := hinv
  code := by
    intro t' j c₁ hc₁
    rcases update_some hc₁ with ⟨rfl, heq⟩ | ⟨ht, hold⟩
    · cases heq
      exact hself
    · have hj : j ≠ i := by
        rintro rfl
        exact ht (h.apart t' t j c₁ c hold hc)
      show L.wp j c₁ _ (State.know L ⟨mem, owner, s.code⟩ t' j)
      rw [hother t' j ht hj]
      exact h.code t' j c₁ hold
  apart := apart_update h.apart (fun t' c₁ hc₁ => h.apart t' t i c₁ c hc₁ hc)
  owner := by
    intro t' ho
    by_cases ht : t' = t
    · subst ht
      simp only [Function.update_self]
      rfl
    · simp only [Function.update_of_ne ht]
      exact h.owner t' ((howner t' ho).resolve_left ht)

/-- Threads that start with sound code, each for a client of its own, stay sound, if what goes on
outside leaves the view alone. -/
theorem Inv.step (hext : ∀ s s', ext s s' → L.view s' = L.view s)
    (hstart : ∀ s i c, start s i c →
      (∀ t c', s.code t ≠ some (i, c')) ∧ L.Sound i c)
    (h : Inv L s) (hs : Step ext L.ok start s s') : Inv L s' := by
  cases hs with
  | @env mem hmem =>
      have hview := hext _ _ hmem
      have hknow : ∀ t i, State.know L ⟨mem, s.owner, s.code⟩ t i = s.know L t i := by
        intro t i
        simp only [State.know, hview]
      refine ⟨by rw [hview]; exact h.inv, fun t i c hc => ?_, h.apart, h.owner⟩
      rw [hknow]
      exact h.code t i c hc
  | @spawn t i c hnone hst =>
      obtain ⟨hnew, hsound⟩ := hstart s i c hst
      have hown : s.owner ≠ some t := by
        intro ho
        have hsome := h.owner t ho
        rw [hnone] at hsome
        exact nomatch hsome
      refine ⟨h.inv, ?_, apart_update h.apart (fun t' c' hc' => absurd hc' (hnew t' c')), ?_⟩
      · intro t' j c' hc'
        rcases update_some hc' with ⟨rfl, heq⟩ | ⟨_, hc'⟩
        · cases heq
          exact State.know_free (L := L) (i := i) hown ▸ hsound _
        · exact h.code t' j c' hc'
      · intro t' ho
        have ht : t' ≠ t := by
          rintro rfl
          exact hown ho
        simp only [Function.update_of_ne ht]
        exact h.owner t' ho
  | @exit t i a hc =>
      have hown := h.done hc
      refine ⟨h.inv, fun t' j c' hc' => h.code t' j c' (update_none hc').2,
        fun t₁ t₂ j c₁ c₂ h₁ h₂ =>
          h.apart t₁ t₂ j c₁ c₂ (update_none h₁).2 (update_none h₂).2, ?_⟩
      intro t' ho
      have ht : t' ≠ t := by
        rintro rfl
        exact hown ho
      simp only [Function.update_of_ne ht]
      exact h.owner t' ho
  | @acquire t i n hc hfree =>
      obtain ⟨own, hown, hn⟩ := h.code t i _ hc
      have hne : ∀ t', s.owner ≠ some t' := fun t' ho => nomatch hfree.symm.trans ho
      rw [State.know_free (hne t)] at hown
      refine h.goOn hc h.inv ?_ ?_ (fun t' ho => Or.inl (Option.some.inj ho).symm)
      · rw [State.know_held rfl]
        exact hn _ (Know.free.inj hown) h.inv
      · intro t' j ht _
        rw [State.know_free (hne t'), State.know_free (fun ho => ht (Option.some.inj ho).symm)]
  | @release t i n hc hheld =>
      obtain ⟨v, hv, hn⟩ := h.code t i _ hc
      rw [State.know_held hheld] at hv
      obtain rfl := Know.held.inj hv
      have hnone : ∀ t', (none : Option τ) ≠ some t' := fun t' ho => nomatch ho
      refine h.goOn hc h.inv ?_ ?_ (fun t' ho => absurd ho (hnone t'))
      · rw [State.know_free (s := ⟨s.mem, none, s.code⟩) (hnone t)]
        exact hn
      · intro t' j ht _
        rw [State.know_free (s := ⟨s.mem, none, s.code⟩) (hnone t'), State.know_free]
        intro ho
        exact ht (Option.some.inj (ho.symm.trans hheld))
  | @access t i site f n mem hc hok hf =>
      obtain ⟨hmoves, hn⟩ := h.access hc hok hf
      by_cases ho : s.owner = some t
      · rw [State.know_held ho] at hmoves hn
        obtain ⟨_, hinv, hpart⟩ := hmoves
        refine h.goOn hc hinv ?_ ?_ (fun t' ho' => Or.inr ho')
        · rw [State.know_held (s := ⟨mem, s.owner, s.code⟩) ho]
          exact hn
        · intro t' j ht hj
          have ho' : s.owner ≠ some t' := fun h' => ht (Option.some.inj (h'.symm.trans ho))
          rw [State.know_free ho', State.know_free (s := ⟨mem, s.owner, s.code⟩) ho', hpart j hj]
      · rw [State.know_free ho] at hmoves hn
        have hview : L.view mem = L.view s.mem := hmoves.view
        refine h.goOn hc (by rw [hview]; exact h.inv) ?_ ?_ (fun t' ho' => Or.inr ho')
        · rw [State.know_free (s := ⟨mem, s.owner, s.code⟩) ho]
          show L.wp i (n s.mem) _ (.free (L.part i (L.view mem)))
          rw [hview]
          exact hn
        · intro t' j _ _
          simp only [State.know, hview]

end Interleaving

end Mutex
