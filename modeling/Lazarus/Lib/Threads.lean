import Mathlib

/-! Threads that each are in a phase of their own, and what all of them together weigh. -/

namespace Threads

open Finset

variable {ι : Type u} {σ : Type v} [Fintype ι]

/-- What the threads weigh together. -/
def count (weight : σ → Nat) (phase : ι → σ) : Nat := ∑ i, weight (phase i)

/-- What all threads are in weighs nothing together where it weighs nothing alone. -/
theorem count_eq_zero {weight : σ → Nat} {phase : ι → σ} (none : ∀ i, weight (phase i) = 0) :
    count weight phase = 0 :=
  Finset.sum_eq_zero fun i _ => none i

theorem count_le_count {weight heavier : σ → Nat} (each : ∀ s, weight s ≤ heavier s) (phase : ι → σ) :
    count weight phase ≤ count heavier phase :=
  Finset.sum_le_sum fun i _ => each (phase i)

/-- Where nothing weighs more than one, a thread that weighs nothing leaves room for one more. -/
theorem count_lt_card {weight : σ → Nat} (small : ∀ s, weight s ≤ 1) {phase : ι → σ}
    {i : ι} (idle : weight (phase i) = 0) : count weight phase < Fintype.card ι := by
  have one : ∑ j : ι, weight (phase j) < ∑ _j : ι, 1 :=
    Finset.sum_lt_sum (fun j _ => small (phase j)) ⟨i, Finset.mem_univ i, idle ▸ Nat.zero_lt_one⟩
  rwa [Finset.sum_const, Finset.card_univ, smul_eq_mul, mul_one] at one

variable [DecidableEq ι]

/-- A thread that goes on changes the weight by what it weighs. -/
theorem count_update (weight : σ → Nat) (phase : ι → σ) (i : ι) (next : σ) :
    count weight (Function.update phase i next) + weight (phase i) = count weight phase + weight next := by
  have others : ∑ j ∈ univ \ {i}, weight (Function.update phase i next j) = ∑ j ∈ univ \ {i},
      weight (phase j) := by
    refine Finset.sum_congr rfl fun j member => ?_
    rw [Function.update_of_ne fun same => (Finset.mem_sdiff.mp member).2 (Finset.mem_singleton.mpr same)]
  rw [count, count, ← Finset.sum_sdiff (Finset.subset_univ {i}),
    ← Finset.sum_sdiff (Finset.subset_univ {i}), others, Finset.sum_singleton,
    Finset.sum_singleton, Function.update_self]
  omega

end Threads
