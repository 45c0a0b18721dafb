/-
# `SimpleOs.Lookup` — the search of `running_list`, load by load (`sys_mem.c`)

`__sys_memmap` looks for its caller in a loop that takes no lock of the scheduler: it loads
`rl->size`, the first entry, `rl->size` again, the second entry and so on.  In `Access` that
is one access.  `unroll` puts the loads in its place, and `unrolledStep` runs instructions so
unrolled; what comes after the loop goes by the entries that were seen.

Between two of these loads the other CPUs and the loader go on.  A process that `get_proc`
appends is another one, and harmless.  `remove_proc` moves entries down, and one may slip
past the loop; `Smp.Steady` is that it does not run meanwhile.  Then a loop does what the one
access does when its last load is made: `Shadows` relates the unrolled CPUs to those of
`Smp`, which wait during the other loads.
-/
import SimpleOs.Serial

namespace SimpleOs

open Mutex Code

/-! ## The loop -/

/-- The access is a scan of `running_list`, or one of its loads after the first. -/
def Site.isScan : Site → Bool
  | .scan _ _ => true
  | _ => false

/-- A list of one process. -/
def QueueT.only (p : Pid) : QueueT := { proc := fun _ => p, size := 1, size_le := by decide }

/-- The kernel with `running_list` as it was seen to be. -/
def Krnl.saw (k : Krnl) (runningList : QueueT) : Krnl :=
  { k with sched := { k.sched with runningList } }

section Loop
variable {α : Type} (p : Pid) (site : Site) (f : Krnl → Except Ub Krnl) (n : Krnl → Prog α)

/-- `rl->proc[i]->pid == pid`: the search is over, or `rest` comes next. -/
def lookupEntry (i : Nat) (rest : Prog α) : Prog α :=
  .access site (fun k => if k.sched.runningList.proc i = p then f k else .ok k)
    (fun k => if k.sched.runningList.proc i = p then n (k.saw (.only p)) else rest)

/-- `i < rl->size`, with `m` slots of the array ahead, and what follows.  The load that ends the
search does to the kernel what the scan does. -/
def lookup (first : Site) : Nat → Prog α
  | 0 => .access first f (fun k => n (k.saw .init))
  | m + 1 =>
      .access first
        (fun k => if maxQueueSize - (m + 1) < k.sched.runningList.size then .ok k else f k)
        (fun k =>
          if maxQueueSize - (m + 1) < k.sched.runningList.size then
            lookupEntry p site f n (maxQueueSize - (m + 1)) (lookup site m)
          else n (k.saw .init))

end Loop

/-- The code of `p` with every scan taken apart.  Its first load is at `.plain`, so that a CPU whose
next access is at `.scan` is in the middle of one. -/
def unroll {α : Type} (p : Pid) : Prog α → Prog α
  | .done a => .done a
  | .crash e => .crash e
  | .acquire n => .acquire (unroll p n)
  | .release n => .release (unroll p n)
  | .access site f n =>
      if site.isScan then lookup p site f (fun k => unroll p (n k)) .plain maxQueueSize
      else .access site f (fun k => unroll p (n k))

/-! ## What the loop comes to -/

/-- None of the first `i` entries is `p`. -/
def Krnl.Passed (k : Krnl) (p : Pid) (i : Nat) : Prop :=
  ∀ j < i, j < k.sched.runningList.size → k.sched.runningList.proc j ≠ p

section Found
variable {k : Krnl} {p : Pid} {i : Nat}

theorem Krnl.Passed.zero : k.Passed p 0 := fun _ hj => absurd hj (Nat.not_lt_zero _)

/-- With `m` slots ahead the loop has passed the others. -/
theorem Krnl.Passed.next {m : Nat} (hm : m < maxQueueSize)
    (h : k.Passed p (maxQueueSize - (m + 1)))
    (hne : k.sched.runningList.proc (maxQueueSize - (m + 1)) ≠ p) :
    k.Passed p (maxQueueSize - m) := by
  intro j hj hsize
  by_cases hlast : j = maxQueueSize - (m + 1)
  · rw [hlast]
    exact hne
  · exact h j (by omega) hsize

theorem findCaller_saw_only (hi : i < k.sched.runningList.size)
    (heq : k.sched.runningList.proc i = p) :
    findCaller (k.saw (.only p)) p = findCaller k p := by
  have hmem : p ∈ k.sched.runningList.toList :=
    List.mem_map.mpr ⟨i, List.mem_range.mpr hi, heq⟩
  have honly : p ∈ (k.saw (.only p)).sched.runningList.toList := List.mem_singleton.mpr rfl
  rw [findCaller_eq, findCaller_eq, if_pos hmem, if_pos honly]

theorem findCaller_saw_init (h : k.Passed p i) (hi : ¬ i < k.sched.runningList.size) :
    findCaller (k.saw .init) p = findCaller k p := by
  have hmem : p ∉ k.sched.runningList.toList := by
    intro hp
    obtain ⟨j, hj, heq⟩ := List.mem_map.mp hp
    have hsize := List.mem_range.mp hj
    exact h j (by omega) hsize heq
  have hinit : p ∉ (k.saw .init).sched.runningList.toList := List.not_mem_nil
  rw [findCaller_eq, findCaller_eq, if_neg hmem, if_neg hinit]

end Found

/-- What comes after a scan is the same for every list on which the process is found or not found as
it is on the true one. -/
theorem saw_eq {α : Type} {k : Krnl} {p : Pid} {f : Krnl → Except Ub Krnl}
    {n : Krnl → Prog α} {list : QueueT} (h : Code.Local procFrame p f n)
    (hfound : findCaller (k.saw list) p = findCaller k p) : n (k.saw list) = n k := by
  have hnext := (h k (k.saw list) hfound.symm).2
  rwa [show procFrame.onto p k (k.saw list) = k.saw list by
    simp only [procFrame, Krnl.saw, Function.update_eq_self]] at hnext

section Solo
variable {α : Type} {p : Pid} {k : Krnl} {site : Site} {f : Krnl → Except Ub Krnl}
  {n : Krnl → Prog α} {c : Prog α}

theorem lookupEntry_solo {i : Nat} {rest : Prog α}
    (hn : ∀ list, findCaller (k.saw list) p = findCaller k p → n (k.saw list) = c)
    (hi : i < k.sched.runningList.size)
    (hrest : k.sched.runningList.proc i ≠ p → rest.solo k = (f k).bind c.solo) :
    (lookupEntry p site f n i rest).solo k = (f k).bind c.solo := by
  rw [lookupEntry, solo]
  by_cases heq : k.sched.runningList.proc i = p
  · rw [if_pos heq, if_pos heq, hn _ (findCaller_saw_only hi heq)]
  · rw [if_neg heq, if_neg heq]
    exact hrest heq

/-- Left alone, the loop does what the scan does. -/
theorem lookup_solo
    (hn : ∀ list, findCaller (k.saw list) p = findCaller k p → n (k.saw list) = c) (m : Nat)
    (first : Site) (hm : m ≤ maxQueueSize)
    (hpassed : k.Passed p (maxQueueSize - m)) :
    (lookup p site f n first m).solo k = (f k).bind c.solo := by
  induction m generalizing first with
  | zero =>
      rw [lookup, solo, hn _ (findCaller_saw_init hpassed ?_)]
      exact Nat.not_lt.mpr k.sched.runningList.size_le
  | succ m ih =>
      rw [lookup, solo]
      by_cases hi : maxQueueSize - (m + 1) < k.sched.runningList.size
      · rw [if_pos hi, if_pos hi, Except.bind]
        exact lookupEntry_solo hn hi fun hne => ih site (Nat.le_of_succ_le hm) (hpassed.next hm hne)
      · rw [if_neg hi, if_neg hi, hn _ (findCaller_saw_init hpassed hi)]

/-- Left alone, unrolled code does what the code does. -/
theorem unroll_solo (hc : c.Framed procFrame p) (k : Krnl) : (unroll p c).solo k = c.solo k := by
  induction c generalizing k with
  | done a => rfl
  | crash e => rfl
  | acquire n ih => exact ih hc k
  | release n ih => exact ih hc k
  | access site f n ih =>
      rw [unroll]
      split
      · rw [lookup_solo (c := unroll p (n k)) (fun list hfound => by rw [saw_eq hc.1 hfound]) _ _
          (Nat.le_refl _) (by rw [Nat.sub_self]; exact .zero), solo]
        cases f k with
        | error e => rfl
        | ok k' => exact ih k (hc.2 k) k'
      · rw [solo, solo]
        cases f k with
        | error e => rfl
        | ok k' => exact ih k (hc.2 k) k'

end Solo

/-! ## Where unrolled code is -/

/-- The first code is the second one unrolled, or it is in the middle of the scan that the second
one has not made. -/
inductive Unrolled (p : Pid) (k : Krnl) : Prog Int → Prog Int → Prop
  | start (c : Prog Int) : Unrolled p k (unroll p c) c
  | size {site : Site} {f : Krnl → Except Ub Krnl} {n : Krnl → Prog Int} {m : Nat} :
      site.isScan = true → m ≤ maxQueueSize → k.Passed p (maxQueueSize - m) →
      Unrolled p k (lookup p site f (fun k => unroll p (n k)) site m) (.access site f n)
  | entry {site : Site} {f : Krnl → Except Ub Krnl} {n : Krnl → Prog Int} {m : Nat} :
      site.isScan = true → m < maxQueueSize → k.Passed p (maxQueueSize - (m + 1)) →
      maxQueueSize - (m + 1) < k.sched.runningList.size →
      Unrolled p k (lookupEntry p site f (fun k => unroll p (n k)) (maxQueueSize - (m + 1))
        (lookup p site f (fun k => unroll p (n k)) site m)) (.access site f n)

section Unrolled
variable {p : Pid} {k k' : Krnl} {a b : Prog Int} {site : Site} {f : Krnl → Except Ub Krnl}
  {n : Krnl → Prog Int} {m : Nat}

/-- The load of `rl->size`, in a loop that has not met the process. -/
theorem lookup_access (hm : m ≤ maxQueueSize) (hscan : site.isScan = true)
    (hpassed : k.Passed p (maxQueueSize - m)) (hlocal : Code.Local procFrame p f n)
    (first : Site) : ∃ g rest, lookup p site f (fun k => unroll p (n k)) first m =
      .access first g rest ∧
      ((g k = .ok k ∧ Unrolled p k (rest k) (.access site f n)) ∨
       (g k = f k ∧ rest k = unroll p (n k))) := by
  cases m with
  | zero =>
      refine ⟨_, _, rfl, Or.inr ⟨rfl, ?_⟩⟩
      dsimp only
      rw [saw_eq hlocal
        (findCaller_saw_init hpassed (Nat.not_lt.mpr k.sched.runningList.size_le))]
  | succ m =>
      refine ⟨_, _, rfl, ?_⟩
      dsimp only
      by_cases hi : maxQueueSize - (m + 1) < k.sched.runningList.size
      · rw [if_pos hi, if_pos hi]
        exact Or.inl ⟨rfl, .entry hscan hm hpassed hi⟩
      · rw [if_neg hi, if_neg hi, saw_eq hlocal (findCaller_saw_init hpassed hi)]
        exact Or.inr ⟨rfl, rfl⟩

/-- The load of the entry. -/
theorem lookupEntry_access (hm : m < maxQueueSize) (hscan : site.isScan = true)
    (hpassed : k.Passed p (maxQueueSize - (m + 1)))
    (hi : maxQueueSize - (m + 1) < k.sched.runningList.size)
    (hlocal : Code.Local procFrame p f n) : ∃ g rest,
    lookupEntry p site f (fun k => unroll p (n k)) (maxQueueSize - (m + 1))
      (lookup p site f (fun k => unroll p (n k)) site m) = .access site g rest ∧
    ((g k = .ok k ∧ Unrolled p k (rest k) (.access site f n)) ∨
     (g k = f k ∧ rest k = unroll p (n k))) := by
  refine ⟨_, _, rfl, ?_⟩
  dsimp only
  by_cases heq : k.sched.runningList.proc (maxQueueSize - (m + 1)) = p
  · rw [if_pos heq, if_pos heq, saw_eq hlocal (findCaller_saw_only hi heq)]
    exact Or.inr ⟨rfl, rfl⟩
  · rw [if_neg heq, if_neg heq]
    exact Or.inl ⟨rfl, .size hscan (Nat.le_of_succ_le hm) (hpassed.next hm heq)⟩

/-- An access of unrolled code is a load of a scan that goes on, or what the code does. -/
theorem Unrolled.access {site' : Site} {g : Krnl → Except Ub Krnl} {rest : Krnl → Prog Int}
    (h : Unrolled p k a b) (ha : a = .access site' g rest) (hb : b.Framed procFrame p)
    (hg : g k = .ok k') : ∃ site f n, b = .access site f n ∧
      ((k' = k ∧ Unrolled p k (rest k) b) ∨ (f k = .ok k' ∧ rest k = unroll p (n k))) := by
  -- what the first access of `lookup` or `lookupEntry` does, said of `g` and `rest`
  have hfirst : ∀ {f : Krnl → Except Ub Krnl} {n : Krnl → Prog Int},
      (∃ first g₁ rest₁, a = .access first g₁ rest₁ ∧
        ((g₁ k = .ok k ∧ Unrolled p k (rest₁ k) b) ∨
         (g₁ k = f k ∧ rest₁ k = unroll p (n k)))) →
      (k' = k ∧ Unrolled p k (rest k) b) ∨ (f k = .ok k' ∧ rest k = unroll p (n k)) := by
    rintro f n ⟨first, g₁, rest₁, ha₁, hcases⟩
    cases ha.symm.trans ha₁
    rcases hcases with ⟨hstay, hunrolled⟩ | ⟨hact, hrest⟩
    · exact Or.inl ⟨Except.ok.inj (hg.symm.trans hstay), hunrolled⟩
    · exact Or.inr ⟨hact.symm.trans hg, hrest⟩
  cases h with
  | start =>
      cases b with
      | access site f n =>
          refine ⟨site, f, n, rfl, ?_⟩
          rw [unroll] at ha hfirst
          split at ha
          · next hscan =>
            rw [if_pos hscan] at hfirst
            have hzero : k.Passed p (maxQueueSize - maxQueueSize) := by
              rw [Nat.sub_self]
              exact .zero
            exact hfirst ⟨_, lookup_access (Nat.le_refl _) hscan hzero hb.1 .plain⟩
          · cases ha
            exact Or.inr ⟨hg, rfl⟩
      | _ => cases ha
  | size hscan hm hpassed =>
      exact ⟨_, _, _, rfl, hfirst ⟨_, lookup_access hm hscan hpassed hb.1 _⟩⟩
  | entry hscan hm hpassed hi =>
      exact ⟨_, _, _, rfl, hfirst ⟨_, lookupEntry_access hm hscan hpassed hi hb.1⟩⟩

/-- Code that is not in the middle of a scan. -/
theorem Unrolled.start_or (h : Unrolled p k a b) : a = unroll p b ∨
    ((∃ site f n, a = .access site f n ∧ site.isScan = true) ∧
      ∃ site f n, b = .access site f n) := by
  cases h with
  | start => exact Or.inl rfl
  | @size site f n m hscan _ _ =>
      refine Or.inr ⟨?_, _, _, _, rfl⟩
      cases m with
      | zero => exact ⟨_, _, _, rfl, hscan⟩
      | succ m => exact ⟨_, _, _, rfl, hscan⟩
  | entry hscan _ _ _ => exact Or.inr ⟨⟨_, _, _, rfl, hscan⟩, _, _, _, rfl⟩

theorem Unrolled.acquire {n' : Prog Int} (h : Unrolled p k (.acquire n') b) :
    ∃ n, b = .acquire n ∧ n' = unroll p n := by
  rcases h.start_or with heq | ⟨⟨_, _, _, hacc, _⟩, _⟩
  · cases b with
    | acquire n =>
        cases heq
        exact ⟨n, rfl, rfl⟩
    | access site f n =>
        rw [unroll] at heq
        split at heq
        · cases heq
        · cases heq
    | _ => cases heq
  · cases hacc

theorem Unrolled.release {n' : Prog Int} (h : Unrolled p k (.release n') b) :
    ∃ n, b = .release n ∧ n' = unroll p n := by
  rcases h.start_or with heq | ⟨⟨_, _, _, hacc, _⟩, _⟩
  · cases b with
    | release n =>
        cases heq
        exact ⟨n, rfl, rfl⟩
    | access site f n =>
        rw [unroll] at heq
        split at heq
        · cases heq
        · cases heq
    | _ => cases heq
  · cases hacc

theorem unroll_done_iff {x : Int} : unroll p b = .done x ↔ b = .done x := by
  cases b with
  | done y => exact Iff.rfl
  | access site f n =>
      rw [unroll]
      split
      · exact ⟨fun h => (nomatch h), fun h => (nomatch h)⟩
      · exact ⟨fun h => (nomatch h), fun h => (nomatch h)⟩
  | _ => exact ⟨fun h => (nomatch h), fun h => (nomatch h)⟩

theorem Unrolled.done_iff {x : Int} (h : Unrolled p k a b) : a = .done x ↔ b = .done x := by
  rcases h.start_or with rfl | ⟨⟨_, _, _, rfl, _⟩, _, _, _, rfl⟩
  · exact unroll_done_iff
  · exact ⟨fun h => (nomatch h), fun h => (nomatch h)⟩

/-- Left alone, they do the same. -/
theorem Unrolled.solo_eq (h : Unrolled p k a b) (hb : b.Framed procFrame p) :
    a.solo k = b.solo k := by
  have hscan : ∀ {f : Krnl → Except Ub Krnl} {n : Krnl → Prog Int} {site : Site},
      b = .access site f n → (f k).bind (unroll p (n k)).solo = b.solo k := by
    rintro f n site rfl
    rw [solo]
    cases f k with
    | error e => rfl
    | ok k' => exact unroll_solo (hb.2 k) k'
  cases h with
  | start => exact unroll_solo hb k
  | size _ hm hpassed =>
      rw [lookup_solo (fun list hfound => by rw [saw_eq hb.1 hfound]) _ _ hm hpassed]
      exact hscan rfl
  | entry _ hm hpassed hi =>
      have hn : ∀ list, findCaller (k.saw list) p = findCaller k p → _ := fun list hfound =>
        congrArg (unroll p) (saw_eq hb.1 hfound)
      rw [lookupEntry_solo hn hi fun hne =>
        lookup_solo hn _ _ (Nat.le_of_succ_le hm) (hpassed.next hm hne)]
      exact hscan rfl

/-- The loop stays where it is while entries come behind it. -/
theorem Unrolled.mono (h : Unrolled p k a b)
    (hsize : k.sched.runningList.size ≤ k'.sched.runningList.size)
    (hpassed : ∀ i, k.Passed p i → k'.Passed p i) : Unrolled p k' a b := by
  cases h with
  | start => exact .start b
  | size hscan hm hp => exact .size hscan hm (hpassed _ hp)
  | entry hscan hm hp hi => exact .entry hscan hm (hpassed _ hp) (Nat.lt_of_lt_of_le hi hsize)

end Unrolled

/-! ## The CPUs -/

/-- The CPUs of `Smp`, running unrolled code. -/
def unrolledStep (s : Smp) : SmpEvent → Option Smp
  | .begin c ins junk =>
      match s.sys.cpu c, s.code c with
      | .restored p, none => some (s.setCode c (some (p, unroll p (Access.exec p ins junk))))
      | _, _ => none
  | e => smpStep s e

/-- The CPUs, the instruction that each has begun, and the run of the machine so far. -/
def unrolledTrace (t : Traced) (e : SmpEvent) : Option Traced :=
  (unrolledStep t.smp e).map fun smp => ⟨smp, t.insAfter e, t.log ++ t.commit smp.code e⟩

/-- CPU `c` is in the middle of a scan. -/
def Smp.scanning (s : Smp) (c : Nat) : Bool :=
  match s.code c with
  | some (_, .access site _ _) => site.isScan
  | _ => false

/-- Only instructions that take the lock are begun, and `remove_proc` does not run while the CPU
that has the lock is in the middle of a scan. -/
def Smp.Steady (s : Smp) : SmpEvent → Prop
  | .sys (.finish _) => ∀ c ∈ s.owner, s.scanning c = false
  | e => e.Locked

instance (s : Smp) (e : SmpEvent) : Decidable (s.Steady e) :=
  match e with
  | .sys (.finish _) => inferInstanceAs (Decidable (∀ c ∈ s.owner, s.scanning c = false))
  | .sys (.create _ _ _) | .sys .add | .sys (.get _) | .sys (.put _) | .sys (.restore _)
  | .sys (.run _ _ _) | .tick _ => isTrue trivial
  | .begin _ ins _ => inferInstanceAs (Decidable ins.Locked)

theorem Smp.Steady.locked {s : Smp} {e : SmpEvent} (h : s.Steady e) : e.Locked := by
  cases e with
  | sys e => trivial
  | begin c ins junk => exact h
  | tick c => trivial

/-! ## The simulation -/

/-- What a CPU runs unrolled, and what it runs. -/
inductive Runs (k : Krnl) : Option (Pid × Prog Int) → Option (Pid × Prog Int) → Prop
  | idle : Runs k none none
  | code {p : Pid} {a b : Prog Int} : b.Framed procFrame p → Unrolled p k a b →
      Runs k (some (p, a)) (some (p, b))

theorem Runs.mono {k k' : Krnl} {x y : Option (Pid × Prog Int)} (h : Runs k x y)
    (hmono : ∀ p b, y = some (p, b) →
      k.sched.runningList.size ≤ k'.sched.runningList.size ∧
      ∀ i, k.Passed p i → k'.Passed p i) : Runs k' x y := by
  cases h with
  | idle => exact .idle
  | code hb hcode =>
      obtain ⟨hsize, hpassed⟩ := hmono _ _ rfl
      exact .code hb (hcode.mono hsize hpassed)

/-- The first CPUs are the second ones, but for a scan that they have begun. -/
structure Shadows (t u : Traced) : Prop where
  sys : t.smp.sys = u.smp.sys
  owner : t.smp.owner = u.smp.owner
  ins : t.ins = u.ins
  log : t.log = u.log
  code : ∀ c, Runs u.smp.sys.krnl (t.smp.code c) (u.smp.code c)

/-- Outside of instructions only `remove_proc` moves an entry that a scan has still to come to. -/
theorem step_passed {s s' : Sys} {e : Event} {c : Nat} {p : Pid} (hpl : Placed s)
    (hc : s.cpu c = .restored p) (he : ∀ c ins junk, e ≠ .run c ins junk)
    (hfinish : ∀ c, e ≠ .finish c) (hs : step s e = some s') :
    s.krnl.sched.runningList.size ≤ s'.krnl.sched.runningList.size ∧
    ∀ i, s.krnl.Passed p i → s'.krnl.Passed p i := by
  have hsame : ∀ {sched : Sched}, sched.runningList = s.krnl.sched.runningList →
      s.krnl.sched.runningList.size ≤ sched.runningList.size ∧
      ∀ i, s.krnl.Passed p i → ({ s.krnl with sched } : Krnl).Passed p i := by
    intro sched hlist
    refine ⟨Nat.le_of_eq (by rw [hlist]), fun i hi => ?_⟩
    simp only [Krnl.Passed, hlist]
    exact hi
  cases e with
  | create q prio symrgtbl =>
      obtain ⟨_, _, rfl⟩ := step_create hs
      exact ⟨Nat.le_refl _, fun _ hi => hi⟩
  | add =>
      obtain ⟨q, sched, _, hadd, rfl⟩ := step_add hs
      exact hsame (enqueueMlq_ok hadd).2.1
  | get c' =>
      have hget : s.krnl.sched.runningList.size ≤ (getProc s.krnl.sched).1.runningList.size ∧
          ∀ i, s.krnl.Passed p i →
            ({ s.krnl with sched := (getProc s.krnl.sched).1 } : Krnl).Passed p i := by
        rcases getProc_cases s.krnl.sched with ⟨hget, _⟩ | ⟨i, q, rest, _, hready, _, _, _, hrun⟩
        · rw [hget]
          exact ⟨Nat.le_refl _, fun _ hi => hi⟩
        · have hq : q ≠ p := by
            rintro rfl
            refine hpl.apart c q (by rw [Sys.Held, hc]; rfl) i ?_
            rw [Sys.ready, hready]
            exact List.mem_cons_self
          rcases s.krnl.sched.runningList.enqueue_cases q with hfull | ⟨hsize, hproc⟩
          · exact hsame (hrun.trans hfull)
          · refine ⟨by rw [hrun, hsize]; exact Nat.le_succ _, fun i hi j hj hlt => ?_⟩
            simp only [hrun, hsize] at hlt
            simp only [hrun, hproc]
            by_cases hlast : j = s.krnl.sched.runningList.size
            · rw [hlast, Function.update_self]
              exact hq
            · rw [Function.update_of_ne hlast]
              exact hi j hj (by omega)
      obtain ⟨_, ⟨_, rfl⟩ | ⟨q, _, rfl⟩⟩ := step_get hs
      · exact hget
      · exact hget
  | put c' =>
      obtain ⟨q, sched, _, hput, rfl⟩ := step_put hs
      exact hsame (enqueueMlq_ok hput).2.1
  | finish c' => exact absurd rfl (hfinish c')
  | restore c' =>
      obtain ⟨q, _, rfl⟩ := step_restore hs
      exact ⟨Nat.le_refl _, fun _ hi => hi⟩
  | run c' ins junk => exact absurd rfl (he c' ins junk)

/-- The event, if the code has returned. -/
def returned (a : Prog Int) (e : Event) : List Event :=
  match a with
  | .done _ => [e]
  | _ => []

theorem unroll_returned {p : Pid} {b : Prog Int} {e : Event} :
    returned (unroll p b) e = returned b e := by
  cases b with
  | access site f n =>
      rw [unroll]
      by_cases hscan : site.isScan = true
      · rw [if_pos hscan]
        rfl
      · rw [if_neg hscan]
        rfl
  | _ => rfl

section Tick
variable {s : Smp} {c : Nat} {p : Pid}

theorem tick_done_of {a : Int} (hc : s.code c = some (p, .done a)) :
    tick s c = some ({ s with sys := s.sys.setCpu c (.holding p) }.setCode c none) := by
  simp only [tick, hc]

theorem tick_acquire_of {n : Prog Int} (hc : s.code c = some (p, .acquire n))
    (hfree : s.owner = none) :
    tick s c = some ({ s with owner := some c }.setCode c (some (p, n))) := by
  simp only [tick, hc, if_pos hfree]

theorem tick_release_of {n : Prog Int} (hc : s.code c = some (p, .release n))
    (hheld : s.owner = some c) :
    tick s c = some ({ s with owner := none }.setCode c (some (p, n))) := by
  simp only [tick, hc, if_pos hheld]

theorem tick_access_of {site : Site} {f : Krnl → Except Ub Krnl} {n : Krnl → Prog Int}
    {krnl : Krnl} (hc : s.code c = some (p, .access site f n)) (hf : f s.sys.krnl = .ok krnl) :
    tick s c = some ({ s with sys := { s.sys with krnl } }.setCode c
      (some (p, n s.sys.krnl))) := by
  simp only [tick, hc, hf]

end Tick

section Step
variable {t t' u : Traced} {m : Krnl} {c : Nat} {p : Pid}

theorem Shadows.code_none_iff (h : Shadows t u) : t.smp.code c = none ↔ u.smp.code c = none := by
  have hc := h.code c
  constructor
  · intro hnone
    rw [hnone] at hc
    generalize u.smp.code c = y at hc
    cases hc
    rfl
  · intro hnone
    rw [hnone] at hc
    generalize t.smp.code c = x at hc
    cases hc
    rfl

theorem Shadows.code_some (h : Shadows t u) {a : Prog Int} (hc : t.smp.code c = some (p, a)) :
    ∃ b, u.smp.code c = some (p, b) ∧ b.Framed procFrame p ∧ Unrolled p u.smp.sys.krnl a b := by
  have hrel := h.code c
  rw [hc] at hrel
  generalize u.smp.code c = y at hrel
  cases hrel with
  | code hb hcode => exact ⟨_, rfl, hb, hcode⟩

/-- Outside of instructions: a scan that goes on stays where it is. -/
theorem Shadows.sys_step {e : Event} {smp : Smp} (log : List Event) (h : Shadows t u)
    (hu : Serial u m) (hok : t.smp.Steady (.sys e)) (hs : smpStep t.smp (.sys e) = some smp) :
    ∃ smp', smpStep u.smp (.sys e) = some smp' ∧
      Shadows ⟨smp, t.ins, log⟩ ⟨smp', u.ins, log⟩ := by
  obtain ⟨he, sys, hsys, rfl⟩ := smpStep_sys hs
  rw [h.sys] at hsys
  refine ⟨{ u.smp with sys }, ?_, rfl, h.owner, h.ins, rfl, fun c => ?_⟩
  · cases e with
    | run c ins junk => exact absurd rfl (he c ins junk)
    | _ => exact congrArg (Option.map (fun sys => ({ u.smp with sys } : Smp))) hsys
  · show Runs sys.krnl (t.smp.code c) (u.smp.code c)
    by_cases hfinish : ∃ c, e = .finish c
    · obtain ⟨c', rfl⟩ := hfinish
      cases hc : t.smp.code c with
      | none =>
          rw [h.code_none_iff.mp hc]
          exact .idle
      | some r =>
          obtain ⟨p, a⟩ := r
          obtain ⟨b, hcu, hb, hcode⟩ := h.code_some hc
          rw [hcu]
          refine .code hb ?_
          rcases hcode.start_or with rfl | ⟨⟨site, f, n, rfl, hscan⟩, _, _, _, rfl⟩
          · exact .start b
          · -- only the CPU that has the lock can be in a scan, and it is not
            have howner := of_decide_eq_true (hu.once c p _ hcu).1
            have hidle := hok c (h.owner.trans howner)
            rw [Smp.scanning, hc] at hidle
            exact absurd (hscan.symm.trans hidle) (by decide)
    · refine (h.code c).mono fun p b hcu => ?_
      exact step_passed hu.wf.placed (hu.restored hcu) he (fun c' hc' => hfinish ⟨c', hc'⟩) hsys

/-- Both after CPU `c` went on. -/
theorem Shadows.goOn {smp smp' : Smp} {ins ins' : Nat → Option (Inst × Byte)}
    {log log' : List Event} {x y : Option (Pid × Prog Int)}
    (h : Shadows t u) (hrun : Runs smp'.sys.krnl x y)
    (hcode : smp.code = Function.update t.smp.code c x)
    (hcode' : smp'.code = Function.update u.smp.code c y) (hsys : smp.sys = smp'.sys)
    (hsched : smp'.sys.krnl.sched = u.smp.sys.krnl.sched) (howner : smp.owner = smp'.owner)
    (hins : ins = ins') (hlog : log = log') : Shadows ⟨smp, ins, log⟩ ⟨smp', ins', log'⟩ where
  sys := hsys
  owner := howner
  ins := hins
  log := hlog
  code := by
    intro c'
    show Runs smp'.sys.krnl (smp.code c') (smp'.code c')
    rw [hcode, hcode']
    by_cases hc : c' = c
    · rw [hc, Function.update_self, Function.update_self]
      exact hrun
    · rw [Function.update_of_ne hc, Function.update_of_ne hc]
      refine (h.code c').mono fun q b' _ => ?_
      simp only [Krnl.Passed, hsched]
      exact ⟨Nat.le_refl _, fun _ hi => hi⟩

/-- What a CPU completes with a step depends on the step alone. -/
theorem Shadows.commit_eq {code code' : Nat → Option (Pid × Prog Int)} {a b : Prog Int}
    (h : Shadows t u) (hc : t.smp.code c = some (p, a)) (hcu : u.smp.code c = some (p, b))
    (hrelease : (∃ n, a = .release n) ↔ ∃ n, b = .release n) :
    t.log ++ t.commit code (.tick c) = u.log ++ u.commit code' (.tick c) := by
  have hnone : ∀ {v : Traced} {code₁ : Nat → Option (Pid × Prog Int)} {d : Prog Int},
      v.smp.code c = some (p, d) → (¬ ∃ n, d = .release n) → v.commit code₁ (.tick c) = [] := by
    intro v code₁ d hd hne
    rw [Traced.commit, hd]
    cases d with
    | release n => exact absurd ⟨n, rfl⟩ hne
    | _ => rfl
  rw [h.log]
  by_cases ha : ∃ n, a = .release n
  · obtain ⟨n', rfl⟩ := hrelease.mp ha
    obtain ⟨n, rfl⟩ := ha
    rw [Traced.commit, Traced.commit, hc, hcu, h.ins]
    cases u.ins c <;> rfl
  · rw [hnone hc ha, hnone hcu (fun hb => ha (hrelease.mpr hb))]

/-- A step of a CPU: the CPU that it shadows makes the same step, or the scan goes on. -/
theorem Shadows.tick_step {smp : Smp} (h : Shadows t u) (hs : tick t.smp c = some smp) :
    Shadows ⟨smp, t.ins, t.log ++ t.commit smp.code (.tick c)⟩ u ∨
    ∃ smp', tick u.smp c = some smp' ∧ Shadows ⟨smp, t.ins, t.log ++ t.commit smp.code (.tick c)⟩
      ⟨smp', u.ins, u.log ++ u.commit smp'.code (.tick c)⟩ := by
  obtain ⟨p, x, hc, rfl⟩ | ⟨p, n, hc, hfree, rfl⟩ | ⟨p, n, hc, hheld, rfl⟩ |
    ⟨p, site, f, n, krnl, hc, hf, rfl⟩ := tick_cases hs
  · -- the instruction returns
    obtain ⟨b, hcu, hb, hcode⟩ := h.code_some hc
    obtain rfl := hcode.done_iff.mp rfl
    exact Or.inr ⟨_, tick_done_of hcu, h.goOn .idle rfl rfl
      (congrArg (fun sys : Sys => sys.setCpu c (.holding p)) h.sys) rfl h.owner
      h.ins (h.commit_eq hc hcu Iff.rfl)⟩
  · -- the lock is taken
    obtain ⟨b, hcu, hb, hcode⟩ := h.code_some hc
    obtain ⟨n', rfl, rfl⟩ := hcode.acquire
    refine Or.inr ⟨_, tick_acquire_of hcu (h.owner ▸ hfree),
      h.goOn (.code (b := n') hb (.start n')) rfl rfl h.sys rfl rfl h.ins
        (h.commit_eq hc hcu ?_)⟩
    exact ⟨fun ⟨_, hn⟩ => (nomatch hn), fun ⟨_, hn⟩ => (nomatch hn)⟩
  · -- the lock is given back
    obtain ⟨b, hcu, hb, hcode⟩ := h.code_some hc
    obtain ⟨n', rfl, rfl⟩ := hcode.release
    exact Or.inr ⟨_, tick_release_of hcu (h.owner ▸ hheld),
      h.goOn (.code (b := n') hb (.start n')) rfl rfl h.sys rfl rfl h.ins
        (h.commit_eq hc hcu ⟨fun _ => ⟨_, rfl⟩, fun _ => ⟨_, rfl⟩⟩)⟩
  · obtain ⟨b, hcu, hb, hcode⟩ := h.code_some hc
    rw [h.sys] at hf
    obtain ⟨site', f', n', rfl, hcases⟩ := hcode.access rfl hb hf
    have hlog : ∀ {code code' : Nat → Option (Pid × Prog Int)},
        t.log ++ t.commit code (.tick c) = u.log ++ u.commit code' (.tick c) := fun {_ _} =>
      h.commit_eq hc hcu ⟨fun ⟨_, hn⟩ => (nomatch hn), fun ⟨_, hn⟩ => (nomatch hn)⟩
    have hsys : ({ t.smp.sys with krnl } : Sys) = { u.smp.sys with krnl } :=
      congrArg (fun sys : Sys => { sys with krnl }) h.sys
    rcases hcases with ⟨rfl, hunrolled⟩ | ⟨hf', hrest⟩
    · -- the scan goes on
      left
      show Shadows _ ⟨u.smp, u.ins, u.log⟩
      refine h.goOn (.code hb ?_) rfl ?_ hsys rfl h.owner h.ins ?_
      · rw [h.sys]
        exact hunrolled
      · rw [← hcu, Function.update_eq_self]
      · rw [Traced.commit, hc, List.append_nil, h.log]
    · -- an access
      refine Or.inr ⟨_, tick_access_of hcu hf', h.goOn (.code (hb.2 _) ?_) rfl rfl hsys ?_
        h.owner h.ins hlog⟩
      · rw [h.sys, hrest]
        exact .start _
      · have hpart := hb.1.onto_eq (procFrame.onto_self p u.smp.sys.krnl) hf'
        rw [← hpart]
        rfl

theorem Traced.commit_begin {code : Nat → Option (Pid × Prog Int)} {d : Prog Int} {ins : Inst}
    {junk : Byte} (hcode : code c = some (p, d)) :
    t.commit code (.begin c ins junk) = returned d (.run c ins junk) := by
  rw [Traced.commit, hcode]
  cases d with
  | _ => rfl

/-- An instruction that is begun is begun unrolled. -/
theorem Shadows.begin_step {ins : Inst} {junk : Byte} {smp : Smp} (h : Shadows t u)
    (hlocked : ins.Locked) (hs : unrolledStep t.smp (.begin c ins junk) = some smp) :
    ∃ smp', smpStep u.smp (.begin c ins junk) = some smp' ∧
      Shadows ⟨smp, t.insAfter (.begin c ins junk),
          t.log ++ t.commit smp.code (.begin c ins junk)⟩
        ⟨smp', u.insAfter (.begin c ins junk),
          u.log ++ u.commit smp'.code (.begin c ins junk)⟩ := by
  rw [unrolledStep] at hs
  split at hs
  · next p hcpu hnone =>
    obtain rfl := Option.some.inj hs
    have hcpu' : u.smp.sys.cpu c = .restored p := by rw [← h.sys, hcpu]
    have hnone' := h.code_none_iff.mp hnone
    have hbegin : smpStep u.smp (.begin c ins junk) =
        some (u.smp.setCode c (some (p, Access.exec p ins junk))) := by
      rw [smpStep, hcpu', hnone']
    refine ⟨_, hbegin, h.goOn
      (.code (Access.exec_framed (p := p) ins junk hlocked.1) (.start _)) rfl rfl h.sys rfl
      h.owner ?_ ?_⟩
    · exact congrArg (fun i => Function.update i c (some (ins, junk))) h.ins
    · refine congrArg₂ (fun l l' => l ++ l') h.log ?_
      calc t.commit _ (.begin c ins junk)
          = returned (unroll p (Access.exec p ins junk)) (.run c ins junk) :=
            Traced.commit_begin (p := p) (Function.update_self c _ _)
        _ = returned (Access.exec p ins junk) (.run c ins junk) := unroll_returned
        _ = u.commit _ (.begin c ins junk) :=
            (Traced.commit_begin (p := p) (Function.update_self c _ _)).symm
  · cases hs

/-- Every step of the unrolled CPUs is a load of a scan that goes on, or a step of the CPUs. -/
theorem Shadows.step {e : SmpEvent} (h : Shadows t u) (hu : Serial u m) (hok : t.smp.Steady e)
    (hs : unrolledTrace t e = some t') :
    ((∃ c, e = .tick c) ∧ Shadows t' u) ∨ ∃ u', tracedStep u e = some u' ∧ Shadows t' u' := by
  obtain ⟨smp, hsmp, rfl⟩ := Option.map_eq_some_iff.mp hs
  cases e with
  | sys e =>
      obtain ⟨smp', hsmp', hshadows⟩ := h.sys_step (t.log ++ [e]) hu hok hsmp
      refine Or.inr ⟨_, congrArg (Option.map _) hsmp', ?_⟩
      show Shadows ⟨smp, t.ins, t.log ++ [e]⟩ ⟨smp', u.ins, u.log ++ [e]⟩
      rw [← h.log]
      exact hshadows
  | begin c ins junk =>
      obtain ⟨smp', hsmp', hshadows⟩ := h.begin_step hok hsmp
      exact Or.inr ⟨_, congrArg (Option.map _) hsmp', hshadows⟩
  | tick c =>
      rcases h.tick_step hsmp with hshadows | ⟨smp', hsmp', hshadows⟩
      · exact Or.inl ⟨⟨c, rfl⟩, hshadows⟩
      · exact Or.inr ⟨_, congrArg (Option.map _) hsmp', hshadows⟩

theorem Shadows.serial_eq (h : Shadows t u) (m : Krnl) : t.smp.serial m = u.smp.serial m := by
  have hcpu : t.smp.serialCpu = u.smp.serialCpu := by
    funext c
    cases hc : t.smp.code c with
    | none =>
        rw [Smp.serialCpu_none hc, Smp.serialCpu_none (h.code_none_iff.mp hc), h.sys]
    | some r =>
        obtain ⟨p, a⟩ := r
        obtain ⟨b, hcu, _, hcode⟩ := h.code_some hc
        by_cases hdone : ∃ x, b = .done x
        · obtain ⟨x, rfl⟩ := hdone
          obtain rfl := hcode.done_iff.mpr rfl
          rw [Smp.serialCpu_done hc, Smp.serialCpu_done hcu]
        · rw [Smp.serialCpu_some hcu fun x hx => hdone ⟨x, hx⟩,
            Smp.serialCpu_some hc fun x hx => hdone ⟨x, hcode.done_iff.mp hx⟩, h.sys]
  rw [Smp.serial, Smp.serial, hcpu, h.sys]

theorem Shadows.unfinished_eq (h : Shadows t u) (c : Nat) : t.unfinished c = u.unfinished c := by
  cases hc : t.smp.code c with
  | none => rw [Traced.unfinished_none hc, Traced.unfinished_none (h.code_none_iff.mp hc)]
  | some r =>
      obtain ⟨p, a⟩ := r
      obtain ⟨b, hcu, _, hcode⟩ := h.code_some hc
      by_cases hdone : ∃ x, b = .done x
      · obtain ⟨x, rfl⟩ := hdone
        obtain rfl := hcode.done_iff.mpr rfl
        rw [Traced.unfinished_done hc, Traced.unfinished_done hcu]
      · rw [Traced.unfinished_some hcu fun x hx => hdone ⟨x, hx⟩,
          Traced.unfinished_some hc fun x hx => hdone ⟨x, hcode.done_iff.mp hx⟩, h.ins]

end Step

/-! ## In every run -/

/-- A run of the unrolled CPUs, without the loads of scans that go on, is one of the CPUs. -/
theorem unrolled_serializes {sys : Sys} {es : List SmpEvent} {t : Traced}
    (hw : (Smp.start sys).Wf)
    (h : Lts.Run unrolledTrace (fun t e => t.smp.Steady e) (.start sys) es t) :
    ∃ es' u m, Serializes sys es' u m ∧ Shadows t u ∧
      es'.filterMap SmpEvent.outside = es.filterMap SmpEvent.outside ∧
      ∀ c, es'.filterMap (SmpEvent.instOf c) = es.filterMap (SmpEvent.instOf c) := by
  induction h with
  | nil =>
      exact ⟨[], _, _, .start hw, ⟨rfl, rfl, rfl, rfl, fun _ => .idle⟩, rfl, fun _ => rfl⟩
  | snoc e _ hok hs ih =>
      obtain ⟨es', u, m, hser, hshadows, hout, hins⟩ := ih
      rcases hshadows.step hser.serial hok hs with ⟨⟨c, rfl⟩, hstay⟩ | ⟨u', hu, hgo⟩
      · refine ⟨es', u, m, hser, hstay, ?_, fun c => ?_⟩
        · rw [hout, List.filterMap_append]
          exact (List.append_nil _).symm
        · rw [hins, List.filterMap_append]
          exact (List.append_nil _).symm
      · obtain ⟨m', hser'⟩ := hser.snoc hok.locked hu
        refine ⟨es' ++ [e], u', m', hser', hgo, ?_, fun c => ?_⟩
        · rw [List.filterMap_append, List.filterMap_append, hout]
        · rw [List.filterMap_append, List.filterMap_append, hins]

/-- In every run in which only instructions that take the lock are begun and `remove_proc` does not
run during a scan, the machine can make the steps written down, in that order: those outside of
instructions as they were made, and of every CPU the instructions that it has begun, but for the
one it is in.  It comes to the kernel of the CPUs, except for what the CPU that has the lock has
done to its process and the devices; that instruction, run in the machine, ends as it will end. -/
theorem serializable {memramsz memswpsz : Addr} {ramJunk swpJunk : Bool} {es : List SmpEvent}
    {t : Traced}
    (h : Lts.Run unrolledTrace (fun t e => t.smp.Steady e)
      (.start (boot memramsz memswpsz ramJunk swpJunk)) es t) :
    t.log.filterMap Event.outside = es.filterMap SmpEvent.outside ∧
    (∀ c, t.log.filterMap (Event.instOf c) ++ t.unfinished c =
      es.filterMap (SmpEvent.instOf c)) ∧
    ∃ m, Lts.Reaches step (boot memramsz memswpsz ramJunk swpJunk) t.log (t.smp.serial m) ∧
      (t.smp.owner = none → m = t.smp.sys.krnl) ∧
      ∀ c p code, t.smp.owner = some c → t.smp.code c = some (p, code) →
        procFrame.onto p t.smp.sys.krnl m = t.smp.sys.krnl ∧
        ∃ ins junk, t.ins c = some (ins, junk) ∧
          exec m p ins junk = code.solo t.smp.sys.krnl := by
  obtain ⟨es', u, m, hm, hshadows, hout, hinsts⟩ := unrolled_serializes (start_wf _ _ _ _) h
  rw [hshadows.log, hshadows.owner, hshadows.sys]
  refine ⟨hm.outside.trans hout, fun c => ?_, m, ?_, hm.serial.free, fun c p code ho hc => ?_⟩
  · rw [hshadows.unfinished_eq, hm.insts, hinsts]
  · rw [hshadows.serial_eq]
    exact hm.reaches
  · obtain ⟨b, hcu, hb, hcode⟩ := hshadows.code_some hc
    obtain ⟨_, n, ⟨ins, junk, hins, hexec, _⟩, hbehind⟩ := hm.serial.held c p b ho hcu
    refine ⟨hbehind.part, ins, junk, by rw [hshadows.ins, hins], ?_⟩
    rw [hcode.solo_eq hb, ← Access.exec_solo, hexec]
    exact hbehind.same

/-- Two allocations begun at the same time.  CPU 0 gets the lock; when it has loaded the size of
`running_list` the loader adds a third process, which CPU 2 appends to the list, and CPU 1 waits. -/
def twoAllocs : List SmpEvent :=
  (loadOn 0 1 ++ loadOn 1 2).map .sys ++
    [.begin 1 ⟨.alloc, 300, 0, 0, 0⟩ 0, .begin 0 ⟨.alloc, 256, 0, 0, 0⟩ 0] ++
    List.replicate 4 (.tick 0) ++ (loadOn 2 3).map .sys ++
    List.replicate 10 (.tick 0) ++ List.replicate 5 (.tick 1)

/-- In the machine CPU 0 has run its allocation after the third process was dispatched; CPU 1,
which has begun first and is in the middle of its scan, has not run. -/
theorem serializable_twoAllocs : ∃ t,
    Lts.Run unrolledTrace (fun t e => t.smp.Steady e) (.start (boot 512 512 true true))
      twoAllocs t ∧
    t.smp.owner = some 1 ∧ t.smp.scanning 1 = true ∧
    t.log.filterMap (Event.instOf 0) = [(⟨.alloc, 256, 0, 0, 0⟩, 0)] ∧
    t.log.filterMap (Event.instOf 1) = [] ∧
    t.log.filterMap Event.outside = twoAllocs.filterMap SmpEvent.outside ∧
    ∃ m, Lts.Reaches step (boot 512 512 true true) t.log (t.smp.serial m) := by
  obtain ⟨t, ht⟩ := Option.isSome_iff_exists.mp
    (by decide +kernel : (Lts.check unrolledTrace (fun t e => t.smp.Steady e)
      (.start (boot 512 512 true true)) twoAllocs).isSome)
  have hlock : (t.smp.owner, t.smp.scanning 1) = (some 1, true) :=
    Lts.check_map (g := fun t => (t.smp.owner, t.smp.scanning 1)) ht (by decide +kernel)
  have hread : (t.log.filterMap (Event.instOf 0), t.log.filterMap (Event.instOf 1)) =
      ([(⟨.alloc, 256, 0, 0, 0⟩, 0)], []) :=
    Lts.check_map (g := fun t => (t.log.filterMap (Event.instOf 0),
      t.log.filterMap (Event.instOf 1))) ht (by decide +kernel)
  obtain ⟨howner, hscan⟩ := Prod.mk.inj hlock
  obtain ⟨hzero, hone⟩ := Prod.mk.inj hread
  have hrun := Lts.run_of_check ht
  obtain ⟨houtside, _, m, hreach, _⟩ := serializable hrun
  exact ⟨t, hrun, howner, hscan, hzero, hone, houtside, m, hreach⟩

/-- `remove_proc` during a scan.  CPU 1 has passed the entry of process 1 when CPU 0 removes it, and
does not see its own process, moved into that place: a region is recorded and nothing mapped. -/
example : (Lts.exec unrolledTrace (.start (boot 1024 512 true true))
    ((loadOn 0 1 ++ loadOn 1 2).map .sys ++
      [.begin 0 ⟨.calc, 0, 0, 0, 0⟩ 0, .tick 0, .begin 1 ⟨.alloc, 300, 0, 0, 0⟩ 0] ++
      List.replicate 5 (.tick 1) ++ [.sys (.finish 0)] ++ List.replicate 4 (.tick 1))).map
      (fun t => (t.smp.sys.krnl.ownMm 2).map (fun mm => (mm.sbrk, (mm.symrgtbl 0).rgEnd))) =
    some (some (0, 300)) := by decide +kernel

end SimpleOs
