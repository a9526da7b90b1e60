import Lazarus.Lib.Last
import Lazarus.Lib.Machine

/-! Holding the rebate credits among a block's carry adjustments to what the block may still
credit. -/

namespace Lazarus.Tides

open Last Machine

/-- An adjustment that credits this identity. -/
def credits (identity : String) (entry : String × Int) : Bool := entry.1 == identity && 0 < entry.2

/-- One planned credit, matched against the last adjustment that credits its identity, gives up what
it can of the cut. -/
def capCredit (state : List (String × Int) × Nat) (planned : String × Nat) : List (String × Int) × Nat :=
  let (delta, cut) := state
  if cut = 0 then state
  else
    match delta.reverse.find? (credits planned.1) with
    | none => state
    | some entry =>
      let dropN := min (min planned.2 cut) entry.2.toNat
      (replaceLast (credits planned.1) (entry.1, entry.2 - dropN) delta, cut - dropN)

/-- Hold the rebate credits inside `delta` to `allowed` sats; also the rebate credit left in it. -/
def capRebateCredits (delta : List (String × Int)) (planned : List (String × Nat)) (allowed : Nat) :
    List (String × Int) × Nat :=
  let plannedSum := (planned.map Prod.snd).sum
  if plannedSum ≤ allowed then (delta, plannedSum)
  else
    let (delta, cut) := planned.reverse.foldl capCredit (delta, plannedSum - allowed)
    (delta.filter fun entry => entry.2 ≠ 0, plannedSum - (plannedSum - allowed - cut))

/-- Take out of the rebate credits inside `delta` the owed rebate an earlier block drew. -/
def capRebateToOwedDrawn (delta : List (String × Int)) (planned : List (String × Nat))
    (owedCredited owedDrawn : Nat) : List (String × Int) × Nat :=
  capRebateCredits delta planned ((planned.map Prod.snd).sum - (owedCredited - owedDrawn))

section Cap

/-- What a block's adjustments put on in all. -/
def gain (delta : List (String × Int)) : Nat := (delta.map fun entry => entry.2.toNat).sum

@[simp] theorem gain_nil : gain [] = 0 := rfl

@[simp] theorem gain_append (first second : List (String × Int)) : gain
    (first ++ second) = gain first + gain second := by
  simp [gain]

@[simp] theorem gain_cons (entry : String × Int) (rest : List (String × Int)) :
    gain (entry :: rest) = entry.2.toNat + gain rest := rfl

/-- Dropping entries of nothing drops no gain. -/
@[simp] theorem gain_filter_ne_zero (delta : List (String × Int)) :
    gain (delta.filter fun entry => entry.2 ≠ 0) = gain delta := by
  induction delta with
  | nil => rfl
  | cons entry rest ih =>
    by_cases nothing : entry.2 = 0
    · simpa [nothing] using ih
    · simpa [nothing] using ih

/-- A credit as it stands among the adjustments. -/
def entryOf (credit : String × Nat) : String × Int := (credit.1, clampI64 credit.2)

theorem gain_entries_le (credits : List (String × Nat)) :
    gain (credits.map entryOf) ≤ (credits.map Prod.snd).sum := by
  induction credits with
  | nil => simp
  | cons credit rest ih =>
    have here : (clampI64 credit.2).toNat ≤ credit.2 := by
      have most := clampI64_le (n := credit.2)
      omega
    simp only [List.map_cons, gain_cons, List.sum_cons, entryOf]
    exact Nat.add_le_add here ih

private theorem foldl_capCredit_zero (planned : List (String × Nat)) (delta : List (String × Int)) :
    planned.foldl capCredit (delta, 0) = (delta, 0) := by
  induction planned with
  | nil => rfl
  | cons credit rest ih => simpa [capCredit] using ih

private theorem capCredit_own (base after : List (String × Int)) {credit : String × Nat}
    (positive : 0 < credit.2) (apart : ∀ entry ∈ after, entry.1 ≠ credit.1) {cut : Nat} (some : cut ≠ 0) :
    capCredit (base ++ entryOf credit :: after, cut) credit =
      (base ++ (credit.1, clampI64 credit.2 - min (min credit.2 cut) (clampI64 credit.2).toNat) :: after,
        cut - min (min credit.2 cut) (clampI64 credit.2).toNat) := by
  have own : credits credit.1 (entryOf credit) = true := by
    have floor : 0 < clampI64 credit.2 := by
      unfold clampI64 i64Max
      omega
    simp [credits, entryOf, floor]
  have others : ∀ entry ∈ after, credits credit.1 entry = false := by
    intro entry member
    simp [credits, apart entry member]
  simp only [capCredit, some, ↓reduceIte, find?_last others own, replaceLast_here others own]
  rfl

/-- An adjustment that keeps its identity and gives up some of its credit, at most all of it. -/
def Shrunk (before after : String × Int) : Prop := after.1 = before.1 ∧ 0 ≤ after.2 ∧ after.2 ≤ before.2

/-- The loop over the planned credits, last first, leaves the adjustments before them alone and takes
the cut out of the credits until one of the two is used up. -/
theorem foldl_capCredit (base tail : List (String × Int)) {planned : List (String × Nat)}
    (positive : ∀ credit ∈ planned, 0 < credit.2) (distinct : (planned.map Prod.fst).Nodup)
    (apart : ∀ entry ∈ tail, ∀ credit ∈ planned, entry.1 ≠ credit.1) (cut : Nat) :
    ∃ left cut', planned.reverse.foldl capCredit (base ++ planned.map entryOf ++ tail, cut) =
        (base ++ left ++ tail, cut') ∧
      gain left + cut = gain (planned.map entryOf) + cut' ∧ (cut' = 0 ∨ gain left = 0) ∧
      List.Forall₂ Shrunk (planned.map entryOf) left := by
  induction planned using List.reverseRecOn generalizing tail cut with
  | nil => exact ⟨[], cut, rfl, rfl, .inr rfl, .nil⟩
  | append_singleton rest credit ih =>
    by_cases done : cut = 0
    · subst done
      refine ⟨(rest ++ [credit]).map entryOf, 0, foldl_capCredit_zero _ _, rfl, .inl rfl, ?_⟩
      refine List.forall₂_same.mpr fun entry member => ⟨rfl, ?_, le_refl _⟩
      obtain ⟨credit, _, rfl⟩ := List.mem_map.mp member
      exact clampI64_nonneg
    · have shape : base ++ (rest ++ [credit]).map entryOf ++ tail =
          (base ++ rest.map entryOf) ++ entryOf credit :: tail := by simp
      have first := capCredit_own (base ++ rest.map entryOf) tail (positive credit (by simp))
        (fun entry member => apart entry member credit (by simp)) done
      have dropped : min (min credit.2 cut) (clampI64 credit.2).toNat ≤ (clampI64 credit.2).toNat :=
        Nat.min_le_right _ _
      have within : min (min credit.2 cut) (clampI64 credit.2).toNat ≤ cut := by omega
      have short : min (min credit.2 cut) (clampI64 credit.2).toNat < cut →
          min (min credit.2 cut) (clampI64 credit.2).toNat = (clampI64 credit.2).toNat := by
        have most := clampI64_le (n := credit.2)
        omega
      have floor := clampI64_nonneg (n := credit.2)
      generalize min (min credit.2 cut) (clampI64 credit.2).toNat = dropN at first dropped within short
      rw [List.map_append, List.nodup_append] at distinct
      obtain ⟨left, cut', after, balance, spent, shrunk⟩ := ih ((credit.1, clampI64 credit.2 - dropN) :: tail)
        (fun other member => positive other (by simp [member])) distinct.1 (by
          intro entry member other listed
          rcases List.mem_cons.mp member with rfl | later
          · exact fun same =>
              distinct.2.2 other.1 (List.mem_map.mpr ⟨other, listed, rfl⟩) credit.1 (by simp) same.symm
          · exact apart entry later other (by simp [listed])) (cut - dropN)
      refine ⟨left ++ [(credit.1, clampI64 credit.2 - dropN)], cut', ?_, ?_, ?_, ?_⟩
      · rw [shape, List.reverse_append, List.reverse_singleton, List.singleton_append,
          List.foldl_cons, first, after]
        simp
      · simp only [gain_append, gain_cons, gain_nil, List.map_append, List.map_cons, List.map_nil, entryOf]
        omega
      · rcases Nat.eq_zero_or_pos cut' with spentAll | remains
        · exact .inl spentAll
        · right
          simp only [gain_append, gain_cons, gain_nil]
          omega
      · rw [List.map_append]
        refine List.rel_append shrunk (.cons ⟨rfl, ?_, ?_⟩ .nil)
        · show 0 ≤ clampI64 credit.2 - dropN
          omega
        · show clampI64 credit.2 - dropN ≤ clampI64 credit.2
          omega

/-- Held to `allowed`, the credits at the end of a block's adjustments come to no more than that. -/
theorem gain_capRebateCredits (base : List (String × Int)) {planned : List (String × Nat)}
    (positive : ∀ credit ∈ planned, 0 < credit.2) (distinct : (planned.map Prod.fst).Nodup) (allowed : Nat) :
    gain base ≤ gain (capRebateCredits (base ++ planned.map entryOf) planned allowed).1 ∧
      gain (capRebateCredits (base ++ planned.map entryOf) planned allowed).1 ≤ gain base + allowed := by
  have most := gain_entries_le planned
  unfold capRebateCredits
  simp only
  split
  · simp only [gain_append]
    omega
  · obtain ⟨left, cut', after, balance, spent, _⟩ :=
      foldl_capCredit base [] positive distinct (by simp) ((planned.map Prod.snd).sum - allowed)
    rw [List.append_nil, List.append_nil] at after
    simp only [after, gain_filter_ne_zero, gain_append]
    omega

end Cap

end Lazarus.Tides
