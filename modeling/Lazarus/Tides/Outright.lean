import Lazarus.Tides.Booking
import Lazarus.Tides.RebateCap

/-! Adjustments applied outright: what a list of them does to the carry and the debt of each identity. -/

namespace Lazarus.Tides

open Machine Tally

/-- A carry and a debt after one adjustment. What is put on pays the debt down first, and what is
taken off stops at zero. -/
def adjusted (balance : Nat × Nat) (sats : Int) : Nat × Nat :=
  if 0 < sats then
    (if balance.2 < sats.toNat then satAdd balance.1 (min (sats.toNat - balance.2) i64Max) else balance.1,
      balance.2 - sats.toNat)
  else (balance.1 - sats.natAbs, balance.2)

/-- The adjustments of one identity, in order. -/
def adjustments (identity : String) (delta : List (String × Int)) : List Int :=
  (delta.filter fun entry => entry.1 = identity).map Prod.snd

/-- The carry and the debt of an identity. -/
def Window.balanceOf (w : Window) (identity : String) : Nat × Nat := (w.carryOf identity, w.debtOf identity)

section Adjusted

variable {balance : Nat × Nat}

@[simp] theorem adjusted_zero : adjusted balance 0 = balance := by simp [adjusted]

private theorem adjusted_net {sats : Nat} (signed : sats ≤ i64Max) (fits : balance.1 + sats ≤ u64Max) :
    ((adjusted balance sats).1 : Int) - (adjusted balance sats).2 = balance.1 - balance.2 + sats ∧
      (adjusted balance sats).1 ≤ balance.1 + sats := by
  unfold adjusted
  by_cases some : (0 : Int) < sats
  · simp only [some, ↓reduceIte, Int.toNat_natCast]
    split
    · rw [Nat.min_eq_left (by omega), satAdd_eq (by omega)]
      omega
    · omega
  · have none : sats = 0 := by omega
    simp [none]

private theorem foldl_adjusted_net {amounts : List Nat} (signed : ∀ sats ∈ amounts, sats ≤ i64Max)
    (fits : balance.1 + amounts.sum ≤ u64Max) :
    let after := (amounts.map fun sats : Nat => (sats : Int)).foldl adjusted balance
    (after.1 : Int) - after.2 = balance.1 - balance.2 + (amounts.sum : Nat) := by
  induction amounts generalizing balance with
  | nil => simp
  | cons sats rest ih =>
    obtain ⟨here, others⟩ := List.forall_mem_cons.mp signed
    rw [List.sum_cons] at fits
    obtain ⟨moved, most⟩ := @adjusted_net balance sats here (by omega)
    have later := @ih (adjusted balance sats) others (by omega)
    simp only [List.map_cons, List.foldl_cons, List.sum_cons] at later ⊢
    rw [later, moved]
    push_cast
    ring

end Adjusted

section Settling

variable (l : Ledger) (delta : List (String × Int)) (identity : String)

private theorem balanceOf_settleEntry (state : Ledger × List (String × Nat)) (entry : String × Int) :
    (settleEntry state entry).1.window.balanceOf identity =
      if entry.1 = identity then adjusted (state.1.window.balanceOf identity) entry.2
      else state.1.window.balanceOf identity := by
  obtain ⟨l, out⟩ := state
  by_cases nothing : entry.2 = 0
  · simp [settleEntry, nothing]
  · by_cases earned : 0 < entry.2
    · simp only [settleEntry, nothing, earned, ↓reduceIte, Window.balanceOf, Window.carryOf_restoreCarry,
        Window.debtOf_restoreCarry, adjusted]
      have size : entry.2.natAbs = entry.2.toNat := by omega
      by_cases mine : entry.1 = identity
      · subst mine
        simp [size]
      · simp [mine, Ne.symm mine]
    · have taken : entry.2 < 0 := by omega
      simp only [settleEntry, nothing, earned, ↓reduceIte, Window.balanceOf,
        Window.carryOf_adjustCarry_neg _ _ _ _ taken, Window.debtOf_adjustCarry, adjusted]
      by_cases mine : entry.1 = identity
      · subst mine
        simp
      · simp [mine, Ne.symm mine]

/-- The carry and the debt of an identity, after its own adjustments one by one. -/
theorem balanceOf_settleCarry :
    (l.settleCarry delta).1.window.balanceOf identity =
      (adjustments identity delta).foldl adjusted (l.window.balanceOf identity) := by
  unfold Ledger.settleCarry
  generalize ([] : List (String × Nat)) = out
  induction delta generalizing l out with
  | nil => rfl
  | cons entry rest ih =>
    rw [List.foldl_cons, ih, balanceOf_settleEntry, adjustments, adjustments]
    by_cases mine : entry.1 = identity
    · simp [mine]
    · simp [mine]

theorem rebateOwed_settleCarry : (l.settleCarry delta).1.window.rebateOwed = l.window.rebateOwed := by
  refine Run.foldl_kept settleEntry (fun state => state.1.window.rebateOwed = l.window.rebateOwed) ?_ delta rfl
  intro state entry same
  simp only [settleEntry]
  split
  · exact same
  · split
    · exact (Window.rebateOwed_restoreCarry _ _ _).trans same
    · exact (Window.rebateOwed_adjustCarry _ _ _).trans same

end Settling

section Credits

variable {credits : List (String × Nat)}

/-- The credits of one identity, in order. -/
private def creditsOf (identity : String) (credits : List (String × Nat)) : List Nat :=
  (credits.filter fun credit => credit.1 = identity).map Prod.snd

private theorem adjustments_entryOf (identity : String) (signed : ∀ credit ∈ credits, credit.2 ≤ i64Max) :
    adjustments identity (credits.map entryOf) = (creditsOf identity credits).map fun sats : Nat =>
      (sats : Int) := by
  induction credits with
  | nil => rfl
  | cons credit rest ih =>
    obtain ⟨here, others⟩ := List.forall_mem_cons.mp signed
    have entry : entryOf credit = (credit.1, (credit.2 : Int)) := by
      rw [entryOf, clampI64, Nat.min_eq_left here]
    have later := ih others
    rw [adjustments, creditsOf] at later ⊢
    by_cases mine : credit.1 = identity <;> simpa [entry, mine] using later

private theorem sum_creditsOf (identity : String) (credits : List (String × Nat)) :
    (creditsOf identity credits).sum = tally identity credits := by
  induction credits with
  | nil => rfl
  | cons credit rest ih =>
    rw [tally_cons, ← ih, creditsOf, creditsOf]
    by_cases mine : credit.1 = identity <;> simp [mine]

/-- Credits applied outright move each identity's balance by its own, below the tops of the types. -/
theorem settleCarry_credits (l : Ledger) (signed : ∀ credit ∈ credits, credit.2 ≤ i64Max)
    (fits : ∀ credit ∈ credits, l.window.carryOf credit.1 + (credits.map Prod.snd).sum ≤ u64Max)
    (identity : String) :
    let after := (l.settleCarry (credits.map entryOf)).1.window
    (after.carryOf identity : Int) - after.debtOf identity =
      l.window.carryOf identity - l.window.debtOf identity + (tally identity credits : Nat) := by
  intro after
  have moved : after.balanceOf identity =
      ((creditsOf identity credits).map fun sats : Nat => (sats : Int)).foldl adjusted
        (l.window.balanceOf identity) := by
    rw [← adjustments_entryOf identity signed]
    exact balanceOf_settleCarry l _ identity
  have net := congrArg (fun balance : Nat × Nat => (balance.1 : Int) - balance.2) moved
  refine Eq.trans net ?_
  rw [← sum_creditsOf]
  rcases (credits.filter fun credit => credit.1 = identity).eq_nil_or_concat with none | ⟨_, credit, shape⟩
  · rw [creditsOf, none]
    simp [Window.balanceOf]
  · have listed : credit ∈ credits.filter fun credit => credit.1 = identity := by
      rw [shape, List.concat_eq_append]
      exact List.mem_concat_self
    obtain ⟨member, mine⟩ := List.mem_filter.mp listed
    have room := fits credit member
    have part : (creditsOf identity credits).sum ≤ (credits.map Prod.snd).sum :=
      (List.filter_sublist.map Prod.snd).sum_le_sum fun _ _ => Nat.zero_le _
    rw [of_decide_eq_true mine] at room
    refine foldl_adjusted_net ?_ (by simp only [Window.balanceOf]; omega)
    intro sats listed
    obtain ⟨credit, present, rfl⟩ := List.mem_map.mp listed
    exact signed credit (List.mem_filter.mp present).1

end Credits

end Lazarus.Tides
