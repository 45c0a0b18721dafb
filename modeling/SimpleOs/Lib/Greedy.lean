/-
# `SimpleOs.Lib.Greedy` — rounds of a machine that leaves no job waiting

Jobs `i` with `left i` units of work.  In a round every one of `n` workers
serves one unit of a job of its own, or some worker has no job because every
job with work left is being served.

The bound is the one of list scheduling.  A round in which all workers serve
takes `n` units off the total; any other takes a unit off every job, and so off
the longest.  `potential` is the total and `n` times the longest job, and a
round takes at least `n` off it.
-/
import Mathlib.Algebra.BigOperators.Group.Finset.Piecewise
import Mathlib.Algebra.Order.BigOperators.Group.Finset
import Mathlib.Data.Finset.Lattice.Fold
import Mathlib.Order.Lattice.Nat

namespace Greedy

variable {ι : Type} [DecidableEq ι] {n : Nat} {jobs : Finset ι} {left left' left₀ : ι → Nat}

/-- The work left after one unit of each job of `served`. -/
def serve (served : Finset ι) (left : ι → Nat) (i : ι) : Nat :=
  if i ∈ served then left i - 1 else left i

/-- A round: `served` are the jobs that are served, at least one. -/
structure Round (n : Nat) (jobs served : Finset ι) (left : ι → Nat) : Prop where
  sub : served ⊆ jobs
  nonempty : served.Nonempty
  work : ∀ i ∈ served, 0 < left i
  greedy : served.card = n ∨ ∀ i ∈ jobs, 0 < left i → i ∈ served

/-- `k` rounds, from `left₀` to `left`. -/
inductive Rounds (n : Nat) (jobs : Finset ι) (left₀ : ι → Nat) : Nat → (ι → Nat) → Prop
  | zero : Rounds n jobs left₀ 0 left₀
  | round {k : Nat} {left : ι → Nat} (served : Finset ι) :
      Rounds n jobs left₀ k left → Round n jobs served left →
      Rounds n jobs left₀ (k + 1) (serve served left)

/-- The total, and `n` times the longest job. -/
def potential (n : Nat) (jobs : Finset ι) (left : ι → Nat) : Nat :=
  ∑ i ∈ jobs, left i + n * jobs.sup left

section Round
variable {served : Finset ι}

theorem serve_le (served : Finset ι) (left : ι → Nat) (i : ι) : serve served left i ≤ left i := by
  rw [serve]
  split
  · exact Nat.sub_le _ _
  · exact Nat.le_refl _

theorem serve_empty (left : ι → Nat) : serve ∅ left = left :=
  funext fun i => if_neg (Finset.notMem_empty i)

theorem sum_serve (hsub : served ⊆ jobs) (hwork : ∀ i ∈ served, 0 < left i) :
    ∑ i ∈ jobs, serve served left i + served.card = ∑ i ∈ jobs, left i := by
  have hcard : served.card = ∑ i ∈ jobs, if i ∈ served then 1 else 0 := by
    rw [Finset.sum_ite_mem, Finset.inter_eq_right.mpr hsub, Finset.card_eq_sum_ones]
  rw [hcard, ← Finset.sum_add_distrib]
  refine Finset.sum_congr rfl fun i _ => ?_
  rw [serve]
  split
  next hi => exact Nat.sub_add_cancel (hwork i hi)
  next => exact Nat.add_zero _

/-- A round in which some worker has no job shortens the longest one. -/
theorem Round.sup_lt (h : Round n jobs served left)
    (hall : ∀ i ∈ jobs, 0 < left i → i ∈ served) :
    jobs.sup (serve served left) + 1 ≤ jobs.sup left := by
  obtain ⟨i₀, hi₀⟩ := h.nonempty
  have hpos : 0 < jobs.sup left := (h.work i₀ hi₀).trans_le (Finset.le_sup (h.sub hi₀))
  refine (Finset.sup_lt_iff hpos).mpr fun i hi => ?_
  have hle : left i ≤ jobs.sup left := Finset.le_sup hi
  rcases Nat.eq_zero_or_pos (left i) with hzero | hwork
  · have hserve := serve_le served left i
    omega
  · rw [serve, if_pos (hall i hi hwork)]
    omega

/-- A round takes at least `n` off the potential. -/
theorem Round.potential (h : Round n jobs served left) :
    potential n jobs (serve served left) + n ≤ potential n jobs left := by
  have hsum := sum_serve h.sub h.work
  rw [Greedy.potential, Greedy.potential]
  rcases h.greedy with hfull | hall
  · have hsup : jobs.sup (serve served left) ≤ jobs.sup left :=
      Finset.sup_mono_fun fun i _ => serve_le served left i
    have hmul := Nat.mul_le_mul_left n hsup
    omega
  · have hmul := Nat.mul_le_mul_left n (h.sup_lt hall)
    rw [Nat.mul_add, Nat.mul_one] at hmul
    omega

end Round

omit [DecidableEq ι] in
theorem potential_mono (h : ∀ i ∈ jobs, left i ≤ left' i) :
    potential n jobs left ≤ potential n jobs left' :=
  Nat.add_le_add (Finset.sum_le_sum h) (Nat.mul_le_mul_left n (Finset.sup_mono_fun h))

/-- However the jobs are chosen, there are no more rounds than the total work divided by the
workers, and the longest job. -/
theorem Rounds.length_le {k : Nat} (h : Rounds n jobs left₀ k left) :
    n * k + potential n jobs left ≤ potential n jobs left₀ := by
  induction h with
  | zero => exact Nat.le_of_eq (Nat.zero_add _)
  | round served _ hround ih =>
      have hstep := hround.potential
      rw [Nat.mul_add, Nat.mul_one]
      omega

end Greedy
