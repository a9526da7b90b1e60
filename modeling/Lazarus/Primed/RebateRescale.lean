import Lazarus.Primed.Rebate

/-! The rebate credits of a block that is not worth what its coinbaser was priced for. They hold a
share of the block's own fees, which moves with the reward, and the owed rebate, which is a fixed
debt; settling moves both. -/

namespace Lazarus.Primed

open Machine Tides Wire

section Moving

variable (value issuedValue : Nat)

/-- What a rebate credit is entered as once it is moved to another value. -/
def movedCredit (sats : Nat) : Nat := min (scale (min sats i64Max) value issuedValue) i64Max

variable {value issuedValue}

private theorem movedCredit_le (priced : 0 < issuedValue) (sats : Nat) :
    movedCredit value issuedValue sats ≤ sats * value / issuedValue := by
  refine (Nat.min_le_left _ _).trans ?_
  rw [scale, if_neg (Nat.ne_of_gt priced)]
  exact asU64_le.trans (Nat.div_le_div_right (Nat.mul_le_mul_right value (Nat.min_le_left _ _)))

private theorem movedCredit_eq (priced : 0 < issuedValue) {sats : Nat} (fits : sats ≤ i64Max)
    (movedFits : sats * value ≤ i64Max * issuedValue) :
    movedCredit value issuedValue sats = sats * value / issuedValue := by
  have moved : sats * value / issuedValue ≤ i64Max := Nat.div_le_of_le_mul (by rwa [Nat.mul_comm issuedValue])
  have wide : i64Max ≤ u64Max := by decide
  rw [movedCredit, Nat.min_eq_left fits, scale, if_neg (Nat.ne_of_gt priced), asU64_eq (moved.trans wide),
    Nat.min_eq_left moved]

private theorem sum_movedCredit_le (priced : 0 < issuedValue) (credits : List (String × Nat)) :
    issuedValue * (credits.map fun credit => movedCredit value issuedValue credit.2).sum ≤
      (credits.map Prod.snd).sum * value := by
  induction credits with
  | nil => simp
  | cons credit rest ih =>
    have here : issuedValue * movedCredit value issuedValue credit.2 ≤ credit.2 * value :=
      (Nat.mul_le_mul_left _ (movedCredit_le priced _)).trans (Nat.mul_div_le _ _)
    simp only [List.map_cons, List.sum_cons, Nat.mul_add, Nat.add_mul]
    omega

private theorem le_sum_movedCredit (priced : 0 < issuedValue) :
    ∀ credits : List (String × Nat),
      (∀ credit ∈ credits, credit.2 ≤ i64Max ∧ credit.2 * value ≤ i64Max * issuedValue) →
      (credits.map Prod.snd).sum * value ≤
        issuedValue * ((credits.map fun credit => movedCredit value issuedValue credit.2).sum + credits.length)
  | [], _ => by simp
  | credit :: rest, fits => by
    obtain ⟨⟨stands, moves⟩, others⟩ := List.forall_mem_cons.mp fits
    have ih := le_sum_movedCredit priced rest others
    have whole := Nat.div_add_mod (credit.2 * value) issuedValue
    have rest := Nat.mod_lt (credit.2 * value) priced
    rw [List.map_cons, List.map_cons, List.sum_cons, List.sum_cons, movedCredit_eq priced stands moves]
    simp only [List.length_cons, Nat.mul_add, Nat.add_mul] at ih ⊢
    omega

end Moving

namespace Issued

variable (i : Issued)

/-- Sats among the credits that the block did not earn: what is there of the rebate owed from before. -/
def owedIn : Nat := (i.split.rebateCredits.map Prod.snd).sum - i.own

/-- Moved to a coinbase of this value, the owed sats come to no more than was owed and a sat a credit. A
coinbaser priced for nothing moves none. -/
def OwedHeld (value : Nat) : Prop :=
  i.found.value = 0 ∨
    i.owedIn * value ≤ (i.split.rebateOwedCredited + i.split.rebateCredits.length) * i.found.value

/-- Moved to a coinbase of this value, the owed sats come to more than was owed and two sats a credit. -/
def OwedOutgrown (value : Nat) : Prop :=
  (i.split.rebateOwedCredited + 2 * i.split.rebateCredits.length) * i.found.value < i.owedIn * value

/-- Every credit fits the width of an adjustment, before and after it is moved to this value. -/
def CreditsFit (value : Nat) : Prop :=
  ∀ credit ∈ i.split.rebateCredits, credit.2 ≤ i64Max ∧ credit.2 * value ≤ i64Max * i.found.value

instance (value : Nat) : Decidable (i.OwedHeld value) := inferInstanceAs (Decidable (_ ∨ _))

instance (value : Nat) : Decidable (i.OwedOutgrown value) := inferInstanceAs (Decidable (_ < _))

instance (value : Nat) : Decidable (i.CreditsFit value) := inferInstanceAs (Decidable (∀ _ ∈ _, _))

/-- The rebate credits among the adjustments of a block settled for another value. -/
theorem carryDelta_rescaled (kind : BlockKind) (value : Nat) (placed : Payee → Bool) (paidTo : Payee → Nat) :
    (i.coinbaser.settleRescaled kind value placed paidTo).carryDelta.drop i.base.length =
      i.split.rebateCredits.map fun credit => (credit.1, (movedCredit value i.found.value credit.2 : Int)) := by
  have entries : (i.coinbaser.settleRescaled kind value placed paidTo).carryDelta = i.coinbaser.carryDelta.map
      fun entry =>
        if 0 < entry.2 then (entry.1, clampI64 (scale entry.2.toNat value i.found.value)) else entry := rfl
  rw [entries, i.carryDelta_eq, List.map_append, List.drop_left' (by rw [List.length_map]), List.map_map]
  apply List.map_congr_left
  intro credit member
  obtain ⟨positive, -⟩ := i.credits_positive credit member
  have entered : 0 < (entryOf credit).2 := by
    change 0 < ((min credit.2 i64Max : Nat) : Int)
    have signed : 0 < i64Max := by decide
    omega
  simp only [Function.comp_apply, entered, ↓reduceIte]
  rfl

theorem own_le (bounded : i.found.params.Bounded)
    (worked : (i.found.miners.map MinerStat.work).sum ≤ i.found.totalWork) : i.own ≤ i.found.value := by
  have parts := SplitParams.sum_earned_add_fromFee_le bounded worked i.found.value
  exact (Nat.le_add_left _ _).trans parts

theorem scale_own (bounded : i.found.params.Bounded)
    (worked : (i.found.miners.map MinerStat.work).sum ≤ i.found.totalWork) {value : Nat}
    (fits : value ≤ u64Max) (priced : 0 < i.found.value) :
    scale i.own value i.found.value = i.own * value / i.found.value := by
  have small : i.own * value / i.found.value ≤ value :=
    Nat.div_le_of_le_mul (Nat.mul_le_mul_right value (i.own_le bounded worked))
  rw [scale, if_neg (Nat.ne_of_gt priced), asU64_eq (small.trans fits)]

theorem owedIn_le : i.owedIn ≤ i.split.rebateOwedCredited := by
  have pot := i.sum_credits_le
  rw [owedIn]
  omega

/-- A block worth no more than its coinbaser was priced for hands out no more of the owed
rebate than there is. -/
theorem OwedHeld.of_le {value : Nat} (lower : value ≤ i.found.value) : i.OwedHeld value :=
  .inr (Nat.mul_le_mul (i.owedIn_le.trans (Nat.le_add_right _ _)) lower)

/-- The credits, moved, come to what the block earned itself, moved, and what was owed, up to a sat a credit. -/
theorem sum_movedCredit_of_held (bounded : i.found.params.Bounded)
    (worked : (i.found.miners.map MinerStat.work).sum ≤ i.found.totalWork) {value : Nat}
    (fits : value ≤ u64Max) (held : i.OwedHeld value) :
    (i.split.rebateCredits.map fun credit => movedCredit value i.found.value credit.2).sum ≤
      scale i.own value i.found.value + i.split.rebateOwedCredited + i.split.rebateCredits.length := by
  have pot := i.sum_credits_le
  rcases Nat.eq_zero_or_pos i.found.value with unpriced | priced
  · -- a coinbaser for nothing has no fees, and its credits stand as they are
    have nothing : i.own = 0 := Nat.le_zero.mp (unpriced ▸ i.own_le bounded worked)
    have each : ∀ credit ∈ i.split.rebateCredits, movedCredit value i.found.value credit.2 ≤ credit.2 := by
      intro credit _
      rw [unpriced]
      exact (Nat.min_le_left _ _).trans (Nat.min_le_left _ _)
    have sum := List.sum_le_sum each
    omega
  · have few : i.owedIn * value ≤ (i.split.rebateOwedCredited + i.split.rebateCredits.length) * i.found.value :=
      held.resolve_left (Nat.ne_of_gt priced)
    have moved : _ ≤ (i.split.rebateCredits.map Prod.snd).sum * value :=
      sum_movedCredit_le priced i.split.rebateCredits
    have parts : (i.split.rebateCredits.map Prod.snd).sum ≤ i.own + i.owedIn := by
      rw [owedIn]
      omega
    have product := Nat.mul_le_mul_right value parts
    rw [i.scale_own bounded worked fits priced, Nat.add_assoc, ← Nat.lt_add_one_iff,
      ← Nat.mul_lt_mul_left priced]
    -- a sum of whole sats that is less than one more sat over the bound is within it
    have whole := Nat.div_add_mod (i.own * value) i.found.value
    have part := Nat.mod_lt (i.own * value) priced
    rw [Nat.add_mul] at product
    rw [Nat.mul_add, Nat.mul_add, Nat.mul_one, Nat.mul_comm i.found.value (_ + _)]
    omega

/-- Owed sats that have outgrown what was owed are handed out beyond it, where no amount is cut. -/
theorem sum_movedCredit_of_outgrown (bounded : i.found.params.Bounded)
    (worked : (i.found.miners.map MinerStat.work).sum ≤ i.found.totalWork) {value : Nat}
    (fits : value ≤ u64Max) (whole : i.CreditsFit value) (outgrown : i.OwedOutgrown value) :
    scale i.own value i.found.value + i.split.rebateOwedCredited + i.split.rebateCredits.length <
      (i.split.rebateCredits.map fun credit => movedCredit value i.found.value credit.2).sum := by
  have some : 0 < i.owedIn * value := Nat.zero_lt_of_lt outgrown
  have priced : 0 < i.found.value := by
    rcases Nat.eq_zero_or_pos i.found.value with unpriced | priced
    · -- priced for nothing, no credit could be moved and fit
      have none : (i.split.rebateCredits.map Prod.snd).sum * value = 0 := by
        rw [← List.sum_map_mul_right, List.sum_eq_zero]
        intro product member
        obtain ⟨credit, listed, rfl⟩ := List.mem_map.mp member
        have := (whole credit listed).2
        rw [unpriced] at this
        omega
      have few : i.owedIn * value ≤ _ := Nat.mul_le_mul_right value (Nat.sub_le _ i.own)
      omega
    · exact priced
  have moved := le_sum_movedCredit priced i.split.rebateCredits whole
  have parts : i.own + i.owedIn ≤ (i.split.rebateCredits.map Prod.snd).sum := by
    have positive : 0 < i.owedIn := Nat.pos_of_mul_pos_right some
    rw [owedIn] at positive ⊢
    omega
  have product := Nat.mul_le_mul_right value parts
  have own := Nat.mul_div_le (i.own * value) i.found.value
  rw [i.scale_own bounded worked fits priced, ← Nat.mul_lt_mul_left priced]
  rw [OwedOutgrown, Nat.mul_comm _ i.found.value] at outgrown
  simp only [Nat.mul_add, Nat.add_mul] at moved outgrown product ⊢
  rw [Nat.mul_left_comm] at outgrown
  omega

end Issued

/-- The rebate credits of a block settled for what it was worth come to its own rebate, moved with the reward,
and the owed rebate, up to a sat a credit, when the owed rebate moved with it comes to no more than that. Where
it comes to a sat a credit more still, and no amount is cut, the credits come to more. -/
theorem rebate_rescaled_held (i : Issued) (bounded : i.found.params.Bounded)
    (worked : (i.found.miners.map MinerStat.work).sum ≤ i.found.totalWork) (kind : CoinbaseKind) (value : Nat)
    (fits : value ≤ u64Max) (paidTo : Script → Nat)
    (far : kind = .poolOnly ∨
      (kind = .split ∨ ∃ present, kind = .partialSplit present) ∧ ¬ rewardMatches value i.found.value) :
    let credited := (settle kind (some i.coinbaser) value paidTo).carryDelta.drop i.base.length
    let bound := ((scale i.own value i.found.value + i.split.rebateOwedCredited +
      i.split.rebateCredits.length : Nat) : Int)
    credited.map Prod.fst = i.split.rebateCredits.map Prod.fst ∧
      (i.OwedHeld value → (credited.map Prod.snd).sum ≤ bound) ∧
      (i.CreditsFit value → i.OwedOutgrown value → ¬ (credited.map Prod.snd).sum ≤ bound) := by
  intro credited bound
  have rescaled : ∃ name placed paid,
      settle kind (some i.coinbaser) value paidTo = i.coinbaser.settleRescaled name value placed paid := by
    rcases far with rfl | ⟨named, apart⟩
    · exact ⟨_, _, _, rfl⟩
    · have branch : ¬ (!false && decide (rewardMatches value i.coinbaser.value)) = true := by
        rw [Bool.not_false, Bool.true_and, decide_eq_true_eq]
        exact apart
      rcases named with rfl | ⟨present, rfl⟩
      · exact ⟨.split, _, _, if_neg branch⟩
      · exact ⟨.partialSplit, _, _, if_neg branch⟩
  obtain ⟨name, placed, paid, same⟩ := rescaled
  have entries : credited = i.split.rebateCredits.map
      fun credit => (credit.1, (movedCredit value i.found.value credit.2 : Int)) := by
    change (settle kind (some i.coinbaser) value paidTo).carryDelta.drop i.base.length = _
    rw [same, i.carryDelta_rescaled]
  have sum : (credited.map Prod.snd).sum =
      ((i.split.rebateCredits.map fun credit => movedCredit value i.found.value credit.2).sum : Nat) := by
    rw [entries, List.map_map, Nat.cast_list_sum, List.map_map]
    rfl
  rw [sum, Int.ofNat_le]
  refine ⟨?_, i.sum_movedCredit_of_held bounded worked fits, fun whole outgrown => ?_⟩
  · rw [entries, List.map_map]
    rfl
  · exact Nat.not_le_of_gt (i.sum_movedCredit_of_outgrown bounded worked fits whole outgrown)

/-- A coinbaser priced for a hundredth of the reward, with a million sats of rebate owed from before. -/
def pricedLow : Issued where
  found := {
    miners := [{ identity := "datum", work := 100 }]
    totalWork := 100
    value := 1000000
    params := { stratumFeeBps := 2500, datumRebateBps := 1250 }
    scriptFor := fun _ => some [] }
  rebateOwed := 1000000
  distinct := by decide

/-- Mined for just what it was priced for, by a gateway that pays the pool alone, it hands out what was owed. -/
theorem rebate_rescaled_even :
    pricedLow.OwedHeld 1000000 ∧
      (((settle .poolOnly (some pricedLow.coinbaser) 1000000 fun _ => 0).carryDelta.drop
        pricedLow.base.length).map Prod.snd).sum ≤
          ((scale pricedLow.own 1000000 1000000 + pricedLow.split.rebateOwedCredited +
          pricedLow.split.rebateCredits.length : Nat) : Int) := by
  have held : pricedLow.OwedHeld 1000000 := .of_le pricedLow (Nat.le_refl _)
  exact ⟨held,
    (rebate_rescaled_held pricedLow (by decide) (by decide) .poolOnly 1000000 (by decide) (fun _ => 0)
    (.inl rfl)).2.1 held⟩

/-- Mined for a hundred times that, it hands the owed rebate out a hundred times over. -/
theorem owed_rebate_multiplied :
    let settled := settle .split (some pricedLow.coinbaser) 100000000 fun _ => 0
    let credited := settled.carryDelta.drop pricedLow.base.length
    credited = [("datum", 100000000)] ∧ ¬ rewardMatches 100000000 pricedLow.found.value ∧
      ¬ (credited.map Prod.snd).sum ≤ ((scale pricedLow.own 100000000 pricedLow.found.value +
        pricedLow.split.rebateOwedCredited + pricedLow.split.rebateCredits.length : Nat) : Int) := by
  decide

end Lazarus.Primed
