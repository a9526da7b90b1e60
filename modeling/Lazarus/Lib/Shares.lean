import Mathlib

/-! Amounts divided pro rata and rounded down. -/

namespace Shares

/-- What `part` of `whole` comes to out of `amount`, rounded down. -/
def share (amount part whole : Nat) : Nat := amount * part / whole

theorem share_mono {part part' : Nat} (lower : part ≤ part') (amount whole : Nat) :
    share amount part whole ≤ share amount part' whole :=
  Nat.div_le_div_right (Nat.mul_le_mul_left amount lower)

/-- A part no larger than the whole comes to no more than the amount. -/
theorem share_le (amount : Nat) (within : part ≤ whole) : share amount part whole ≤ amount :=
  Nat.div_le_of_le_mul (Nat.mul_comm whole amount ▸ Nat.mul_le_mul_left amount within)

theorem share_add_le (amount first second whole : Nat) :
    share amount first whole + share amount second whole ≤ share amount (first + second) whole := by
  unfold share
  rw [Nat.mul_add]
  exact Nat.div_add_div_le_add_div

/-- Rounding each part down loses, never gains. -/
theorem sum_share_le (amount : Nat) (parts : List Nat) (whole : Nat) :
    (parts.map fun part => share amount part whole).sum ≤ share amount parts.sum whole := by
  induction parts with
  | nil => exact Nat.zero_le _
  | cons part rest ih =>
    rw [List.map_cons, List.sum_cons, List.sum_cons]
    exact Nat.le_trans (Nat.add_le_add_left ih _) (share_add_le amount part rest.sum whole)

theorem sum_share_le_amount (amount : Nat) {parts : List Nat} {whole : Nat} (within : parts.sum ≤ whole) :
    (parts.map fun part => share amount part whole).sum ≤ amount :=
  Nat.le_trans (sum_share_le amount parts whole) (share_le amount within)

/-- Rounding down what the whole is divided into loses less than one for each part. -/
theorem lt_sum_share (amount : Nat) {parts : List Nat} (some : 0 < parts.sum) :
    amount < (parts.map fun part => share amount part parts.sum).sum + parts.length := by
  have each : ∀ rest : List Nat, rest ≠ [] →
      amount * rest.sum <
      parts.sum * ((rest.map fun part => share amount part parts.sum).sum + rest.length) := by
    intro rest
    induction rest with
    | nil => exact fun empty => absurd rfl empty
    | cons part rest ih =>
      intro _
      have here : amount * part < parts.sum * (share amount part parts.sum + 1) := by
        rw [Nat.mul_comm parts.sum]
        exact Nat.lt_mul_of_div_lt (Nat.lt_succ_self _) some
      rw [List.map_cons, List.sum_cons, List.sum_cons, List.length_cons]
      rcases rest.eq_nil_or_concat with rfl | ⟨_, _, rfl⟩
      · simpa using here
      · have later := ih (by simp)
        calc amount * (part + _) = amount * part + amount * _ := Nat.mul_add ..
          _ < parts.sum * (share amount part parts.sum + 1) + parts.sum * (_ + _) := Nat.add_lt_add here later
          _ = _ := by ring
  have nonempty : parts ≠ [] := by
    rintro rfl
    simp at some
  have whole := each parts nonempty
  rw [Nat.mul_comm amount] at whole
  exact Nat.lt_of_mul_lt_mul_left whole

/-- Where the whole divides each part's product nothing is lost. -/
theorem sum_share_of_dvd {amount : Nat} {parts : List Nat} (some : 0 < parts.sum)
    (even : ∀ part ∈ parts, parts.sum ∣ amount * part) :
    (parts.map fun part => share amount part parts.sum).sum = amount := by
  have each : ∀ rest : List Nat, (∀ part ∈ rest, parts.sum ∣ amount * part) →
      parts.sum * (rest.map fun part => share amount part parts.sum).sum = amount * rest.sum := by
    intro rest
    induction rest with
    | nil => simp
    | cons part rest ih =>
      intro even
      obtain ⟨here, others⟩ := List.forall_mem_cons.mp even
      rw [List.map_cons, List.sum_cons, List.sum_cons, Nat.mul_add, Nat.mul_add,
        ih others, share, Nat.mul_div_cancel' here]
  have whole := each parts even
  rw [Nat.mul_comm amount] at whole
  exact Nat.eq_of_mul_eq_mul_left some whole

/-- Two parts rounded down on their own come to at most one less than together. -/
theorem share_add_lt (amount first second whole : Nat) :
    share amount (first + second) whole ≤ share amount first whole + share amount second whole + 1 := by
  unfold share
  rcases Nat.eq_zero_or_pos whole with none | some
  · simp [none]
  · rw [Nat.mul_add, Nat.add_div some]
    split
    · exact Nat.le_refl _
    · exact Nat.le_succ _

end Shares
