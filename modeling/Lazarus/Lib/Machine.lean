import Mathlib

/-! Fixed-width unsigned and signed amounts read as `Nat` and `Int`. An operation that saturates,
clamps or truncates is a definition here. Plain arithmetic is not: a build that checks overflow
either returns the exact result or does not return. Subtraction of naturals is `saturating_sub`. -/

namespace Machine

/-- Largest unsigned 64-bit value. -/
def u64Max : Nat := 2 ^ 64 - 1

/-- Largest unsigned 32-bit value. -/
def u32Max : Nat := 2 ^ 32 - 1

/-- Largest signed 64-bit value. -/
def i64Max : Nat := 2 ^ 63 - 1

/-- Addition that stops at the largest unsigned value. -/
def satAdd (a b : Nat) : Nat := min (a + b) u64Max

/-- A wider unsigned value cut down to 64 bits. -/
def asU64 (n : Nat) : Nat := n % 2 ^ 64

/-- An unsigned value brought into the signed range by stopping at its top. -/
def clampI64 (n : Nat) : Int := (min n i64Max : Nat)

/-- An unsigned value reread as signed, its top bit the sign. -/
def asI64 (n : Nat) : Int := if n ≤ i64Max then (n : Int) else (n : Int) - 2 ^ 64

theorem satAdd_eq (fits : a + b ≤ u64Max) : satAdd a b = a + b := Nat.min_eq_left fits

theorem satAdd_le : satAdd a b ≤ a + b := Nat.min_le_left _ _

theorem satAdd_le_max : satAdd a b ≤ u64Max := Nat.min_le_right _ _

@[simp] theorem satAdd_eq_zero : satAdd a b = 0 ↔ a = 0 ∧ b = 0 := by
  unfold satAdd u64Max
  omega

theorem le_satAdd_left (fits : a ≤ u64Max) : a ≤ satAdd a b := by
  unfold satAdd
  omega

/-- Summing with a stop at the top gives at most the sum. -/
theorem foldl_satAdd_le (start : Nat) (amounts : List Nat) :
    amounts.foldl satAdd start ≤ start + amounts.sum := by
  induction amounts generalizing start with
  | nil => simp
  | cons amount rest ih =>
    have here := satAdd_le (a := start) (b := amount)
    have later := ih (satAdd start amount)
    rw [List.foldl_cons, List.sum_cons]
    omega

theorem foldl_satAdd_le_max {start : Nat} (fits : start ≤ u64Max) (amounts : List Nat) :
    amounts.foldl satAdd start ≤ u64Max := by
  induction amounts generalizing start with
  | nil => exact fits
  | cons amount rest ih => exact ih satAdd_le_max

/-- Summing with a stop at the top, in closed form. -/
theorem foldl_satAdd_eq_min {start : Nat} (fits : start ≤ u64Max) (amounts : List Nat) :
    amounts.foldl satAdd start = min (start + amounts.sum) u64Max := by
  induction amounts generalizing start with
  | nil => exact (Nat.min_eq_left fits).symm
  | cons amount rest ih =>
    rw [List.foldl_cons, ih satAdd_le_max, List.sum_cons]
    unfold satAdd
    omega

/-- A sum that did not reach the top is exact. -/
theorem sum_le_of_foldl_satAdd {start : Nat} {amounts : List Nat}
    (below : amounts.foldl satAdd start < u64Max) : start + amounts.sum ≤ u64Max := by
  cases amounts with
  | nil => exact Nat.le_of_lt below
  | cons amount rest =>
    rw [List.foldl_cons, foldl_satAdd_eq_min satAdd_le_max] at below
    rw [List.sum_cons]
    unfold satAdd at below
    omega

theorem foldl_satAdd_eq {start : Nat} {amounts : List Nat} (fits : start + amounts.sum ≤ u64Max) :
    amounts.foldl satAdd start = start + amounts.sum := by
  induction amounts generalizing start with
  | nil => simp
  | cons amount rest ih =>
    rw [List.sum_cons] at fits
    rw [List.foldl_cons, satAdd_eq (by omega), ih (by omega), List.sum_cons, Nat.add_assoc]

theorem asU64_eq (fits : n ≤ u64Max) : asU64 n = n :=
  Nat.mod_eq_of_lt (Nat.lt_of_le_of_lt fits (by decide))

theorem asU64_le : asU64 n ≤ n := Nat.mod_le _ _

@[simp] theorem clampI64_zero : clampI64 0 = 0 := rfl

theorem clampI64_eq (fits : n ≤ i64Max) : clampI64 n = n := by
  unfold clampI64
  rw [Nat.min_eq_left fits]

theorem clampI64_nonneg : 0 ≤ clampI64 n := Int.natCast_nonneg _

@[simp] theorem clampI64_natAbs : (clampI64 n).natAbs = min n i64Max := rfl

theorem clampI64_le : clampI64 n ≤ n := by
  unfold clampI64
  omega

theorem asI64_eq (fits : n ≤ i64Max) : asI64 n = n := by
  simp [asI64, fits]

end Machine
