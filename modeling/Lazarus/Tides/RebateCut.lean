import Lazarus.Tides.RebateCap
import Lazarus.Tides.Split

/-! Cutting the rebate among a block's adjustments leaves what miners are paid and what
they earned as it was. -/

namespace Lazarus.Tides

open Last Machine

section Delta

variable (payees : List Payee) (unpaid : List Unpaid) (planned : List (String × Nat)) (wasPaid : Payee → Bool)

private theorem carryDelta_credits :
    carryDelta payees unpaid planned wasPaid =
      carryDelta payees unpaid [] wasPaid ++ (planned.filter fun credit => 0 < credit.2).map entryOf := by
  have listed :
    (planned.filterMap fun credit => if 0 < credit.2 then some (credit.1, clampI64 credit.2) else none) =
      (planned.filter fun credit => 0 < credit.2).map entryOf := by
    induction planned with
    | nil => rfl
    | cons credit rest ih =>
      by_cases some : 0 < credit.2
      · simp [some, ih, entryOf]
      · simp [some, ih]
  simp only [carryDelta, listed, List.filterMap_nil, List.append_nil]

private theorem carryDelta_ne_zero {entry : String × Int}
    (member : entry ∈ carryDelta payees unpaid planned wasPaid) : entry.2 ≠ 0 := by
  have positive : ∀ {n : Nat}, 0 < n → 0 < clampI64 n := by
    intro n some
    unfold clampI64 i64Max
    omega
  simp only [carryDelta, List.mem_append, List.mem_filterMap, Option.ite_none_right_eq_some, Option.some.injEq,
    Bool.and_eq_true, decide_eq_true_eq] at member
  rcases member with (⟨payee, _, ⟨some, _⟩, rfl⟩ | ⟨u, _, defers, rfl⟩) | ⟨credit, _, some, rfl⟩
  · have here := positive some
    show -clampI64 payee.carry ≠ 0
    omega
  · have some : 0 < u.earned := by
      simp only [Unpaid.defers, Bool.and_eq_true, decide_eq_true_eq] at defers
      exact defers.2
    exact (positive some).ne'
  · exact (positive some).ne'

end Delta

private theorem capCredit_nothing {credit : String × Nat} (nothing : credit.2 = 0)
    (state : List (String × Int) × Nat) : capCredit state credit = state := by
  obtain ⟨delta, cut⟩ := state
  unfold capCredit
  dsimp only
  split
  · rfl
  · split
    · rfl
    · rename_i entry found
      obtain ⟨before, after, shape, _, _, replaced⟩ := replaceLast_split found entry
      have kept : replaceLast (credits credit.1) entry delta = delta := replaced.trans shape.symm
      simp [nothing, kept]

private theorem foldl_capCredit_filter (planned : List (String × Nat)) (state : List (String × Int) × Nat) :
    planned.foldl capCredit state = (planned.filter fun credit => 0 < credit.2).foldl capCredit state := by
  induction planned generalizing state with
  | nil => rfl
  | cons credit rest ih =>
    by_cases some : 0 < credit.2
    · rw [List.filter_cons_of_pos (by simpa using some), List.foldl_cons, List.foldl_cons, ih]
    · rw [List.filter_cons_of_neg (by simpa using some), List.foldl_cons, capCredit_nothing (by omega), ih]

private theorem gain_entries {planned : List (String × Nat)} (fits : ∀ credit ∈ planned, credit.2 ≤ i64Max) :
    gain ((planned.filter fun credit => 0 < credit.2).map entryOf) = (planned.map Prod.snd).sum := by
  induction planned with
  | nil => rfl
  | cons credit rest ih =>
    have later := ih fun other member => fits other (by simp [member])
    have here : (clampI64 credit.2).toNat = credit.2 := by simp [clampI64_eq (fits credit (by simp))]
    by_cases some : 0 < credit.2
    · rw [List.filter_cons_of_pos (by simpa using some), List.map_cons,
        gain_cons, later, List.map_cons, List.sum_cons]
      exact congrArg (· + _) here
    · rw [List.filter_cons_of_neg (by simpa using some), later, List.map_cons, List.sum_cons]
      omega

/-- Every rebate entry keeps its identity and gives up some of its credit; the entries give up in all
just what the plan has beyond what is allowed; every other adjustment stays; and what is returned is
the credit that is left. -/
theorem cap_cuts_rebate (payees : List Payee) (unpaid : List Unpaid) (planned : List (String × Nat))
    (wasPaid : Payee → Bool) (distinct : (planned.map Prod.fst).Nodup)
    (fits : ∀ credit ∈ planned, credit.2 ≤ i64Max) :
    let delta := carryDelta payees unpaid planned wasPaid
    let entries := (planned.filter fun credit => 0 < credit.2).map entryOf
    let plannedSum := (planned.map Prod.snd).sum
    (∀ allowed, ∃ left, List.Forall₂ Shrunk entries left ∧
      (capRebateCredits delta planned allowed).1 =
        carryDelta payees unpaid [] wasPaid ++ left.filter (fun entry => entry.2 ≠ 0) ∧
      gain left + (plannedSum - allowed) = gain entries ∧
        (capRebateCredits delta planned allowed).2 = gain left) ∧
    ∀ owedCredited owedDrawn,
      (capRebateToOwedDrawn delta planned owedCredited owedDrawn).2 =
        plannedSum - (owedCredited - owedDrawn) := by
  intro delta entries plannedSum
  have cut : ∀ allowed, ∃ left, List.Forall₂ Shrunk entries left ∧
      (capRebateCredits delta planned allowed).1 =
        carryDelta payees unpaid [] wasPaid ++ left.filter (fun entry => entry.2 ≠ 0) ∧
      gain left + (plannedSum - allowed) = gain entries ∧
        (capRebateCredits delta planned allowed).2 = gain left := by
    intro allowed
    have whole : gain entries = plannedSum := gain_entries fits
    have shape : delta = carryDelta payees unpaid [] wasPaid ++ entries :=
      carryDelta_credits payees unpaid planned wasPaid
    by_cases within : plannedSum ≤ allowed
    · have same : capRebateCredits delta planned allowed = (delta, plannedSum) := if_pos within
      have some : ∀ entry ∈ entries, entry.2 ≠ 0 := by
        intro entry member
        have within : entry ∈ delta := shape ▸ List.mem_append_right _ member
        exact carryDelta_ne_zero payees unpaid planned wasPaid within
      refine ⟨entries, List.forall₂_same.mpr fun entry member => ⟨rfl, ?_, le_refl _⟩, ?_, by omega, ?_⟩
      · obtain ⟨credit, _, rfl⟩ := List.mem_map.mp member
        exact clampI64_nonneg
      · rw [same, List.filter_eq_self.mpr fun entry member => by simpa using some entry member]
        exact shape
      · rw [same, whole]
    · have positive : ∀ credit ∈ planned.filter fun credit => 0 < credit.2, 0 < credit.2 := by
        intro credit member
        simpa using (List.mem_filter.mp member).2
      have apart : ((planned.filter fun credit => 0 < credit.2).map Prod.fst).Nodup :=
        distinct.sublist (List.filter_sublist.map _)
      obtain ⟨left, cut', after, balance, spent, shrunk⟩ :=
        foldl_capCredit (carryDelta payees unpaid [] wasPaid) [] positive apart (by simp) (plannedSum - allowed)
      rw [List.append_nil, List.append_nil, ← List.filter_reverse, ← foldl_capCredit_filter] at after
      have ran : capRebateCredits delta planned allowed =
          ((carryDelta payees unpaid [] wasPaid ++ left).filter (fun entry => entry.2 ≠ 0),
            plannedSum - (plannedSum - allowed - cut')) := by
        unfold capRebateCredits
        rw [if_neg within, shape, after]
      have kept : (carryDelta payees unpaid [] wasPaid).filter (fun entry => entry.2 ≠ 0) =
          carryDelta payees unpaid [] wasPaid :=
        List.filter_eq_self.mpr fun entry member => by
          simpa using carryDelta_ne_zero payees unpaid [] wasPaid member
      have used : gain left + (plannedSum - allowed) = gain entries + cut' := balance
      refine ⟨left, shrunk, ?_, ?_, ?_⟩
      · rw [ran, List.filter_append, kept]
      · omega
      · rw [ran]
        show plannedSum - (plannedSum - allowed - cut') = gain left
        omega
  refine ⟨cut, ?_⟩
  intro owedCredited owedDrawn
  obtain ⟨left, _, _, dropped, returned⟩ := cut (plannedSum - (owedCredited - owedDrawn))
  have whole : gain entries = plannedSum := gain_entries fits
  show (capRebateCredits delta planned (plannedSum - (owedCredited - owedDrawn))).2 = _
  rw [returned]
  omega

/-- Two credits, one of them to a miner that deferred earnings too, held to what was drawn. -/
theorem cap_cuts_rebate_deferred :
    (capRebateToOwedDrawn
      (carryDelta [] [⟨"bc1qa", 40, 40, .belowMinimum⟩] [("bc1qa", 25), ("bc1qb", 35)] fun _ => true)
      [("bc1qa", 25), ("bc1qb", 35)] 50 10).2 = 20 :=
  (cap_cuts_rebate [] [⟨"bc1qa", 40, 40, .belowMinimum⟩] [("bc1qa", 25), ("bc1qb", 35)] (fun _ => true)
    (by decide) (by decide)).2 50 10

/-- A credit past the signed range is entered at its top, and the credit returned is not
the one in the delta. -/
theorem cap_past_signed_range :
    capRebateCredits (carryDelta [] [] [("bc1qa", 2 ^ 63)] fun _ => true) [("bc1qa", 2 ^ 63)] 0 = ([], 1) := by
  decide

end Lazarus.Tides
