import Mathlib

/-! Byte strings as numbers, lowest byte first: the bytes of a number, shifting a string down in place,
and comparing two strings from the top byte. -/

namespace LittleEndian

/-- The number a byte string stands for. -/
def value : List UInt8 → Nat
  | [] => 0
  | b :: rest => b.toNat + 256 * value rest

/-- The lowest bytes of a number. -/
def bytes : Nat → Nat → List UInt8
  | 0, _ => []
  | width + 1, n => UInt8.ofNat n :: bytes width (n / 256)

@[simp] theorem value_nil : value [] = 0 := rfl

@[simp] theorem value_cons : value (b :: rest) = b.toNat + 256 * value rest := rfl

@[simp] theorem length_bytes (width n : Nat) : (bytes width n).length = width := by
  induction width generalizing n with
  | zero => rfl
  | succ width ih => simp [bytes, ih]

theorem value_lt (s : List UInt8) : value s < 256 ^ s.length := by
  induction s with
  | nil => simp
  | cons b rest ih =>
    have byte := b.toNat_lt
    rw [value_cons, List.length_cons, Nat.pow_succ]
    omega

theorem value_bytes (width n : Nat) : value (bytes width n) = n % 256 ^ width := by
  induction width generalizing n with
  | zero => simp [bytes, Nat.mod_one]
  | succ width ih =>
    have byte : (UInt8.ofNat n).toNat = n % 256 := UInt8.toNat_ofNat'
    rw [bytes, value_cons, ih, byte, Nat.pow_succ' (m := 256), Nat.mod_mul]

/-- A byte string is the bytes of its number. -/
theorem bytes_value (s : List UInt8) : bytes s.length (value s) = s := by
  induction s with
  | nil => rfl
  | cons b rest ih =>
    have byte := b.toNat_lt
    have low : UInt8.ofNat (b.toNat + 256 * value rest) = b := by
      apply UInt8.toNat_inj.mp
      rw [UInt8.toNat_ofNat']
      omega
    have high : (b.toNat + 256 * value rest) / 256 = value rest := by omega
    rw [List.length_cons, bytes, value_cons, low, high, ih]

theorem value_append (low high : List UInt8) : value
    (low ++ high) = value low + 256 ^ low.length * value high := by
  induction low with
  | nil => simp
  | cons b rest ih =>
    rw [List.cons_append, value_cons, ih, value_cons, List.length_cons, Nat.pow_succ]
    ring

@[simp] theorem value_replicate_zero (k : Nat) : value (List.replicate k 0) = 0 := by
  induction k with
  | zero => rfl
  | succ k ih => simp [List.replicate_succ, ih]

/-- Dropping the lowest bytes divides. -/
theorem value_drop (s : List UInt8) (k : Nat) : value (s.drop k) = value s / 256 ^ k := by
  induction k generalizing s with
  | zero => simp
  | succ k ih =>
    cases s with
    | nil => simp
    | cons b rest =>
      have byte : (b.toNat + 256 * value rest) / 256 = value rest := by
        rw [Nat.add_mul_div_left _ _ (by decide), Nat.div_eq_of_lt b.toNat_lt, Nat.zero_add]
      rw [List.drop_succ_cons, ih, value_cons, Nat.pow_succ', ← Nat.div_div_eq_div_mul, byte]

/-- A byte written where a zero stands adds its share. -/
theorem value_set {s : List UInt8} {i : Nat} (zero : s[i]? = some 0) (b : UInt8) :
    value (s.set i b) = value s + 256 ^ i * b.toNat := by
  induction s generalizing i with
  | nil => simp at zero
  | cons first rest ih =>
    cases i with
    | zero =>
      have first : first = 0 := by simpa using zero
      subst first
      simp only [List.set_cons_zero, value_cons, Nat.pow_zero, Nat.one_mul, UInt8.toNat_zero]
      omega
    | succ i =>
      rw [List.getElem?_cons_succ] at zero
      rw [List.set_cons_succ, value_cons, value_cons, ih zero, Nat.pow_succ]
      ring

section Shift

/-- Each byte moved down by less than a byte, its top filled from the byte above. -/
def shrBits (rem : Nat) : List UInt8 → List UInt8
  | [] => []
  | [top] => [top >>> UInt8.ofNat rem]
  | b :: above :: rest =>
    (b >>> UInt8.ofNat rem ||| above <<< UInt8.ofNat (8 - rem)) :: shrBits rem (above :: rest)

/-- A string shifted down by a number of bits: by whole bytes first, then by what is left. -/
def shr (s : List UInt8) (bits : Nat) : List UInt8 :=
  let whole := bits / 8
  let rem := bits % 8
  let moved := if 0 < whole then s.drop whole ++ List.replicate whole 0 else s
  if 0 < rem then shrBits rem moved else moved

@[simp] theorem length_shrBits (rem : Nat) (s : List UInt8) : (shrBits rem s).length = s.length := by
  fun_induction shrBits rem s with
  | case1 => rfl
  | case2 top => rfl
  | case3 b above rest ih => simp [ih]

theorem length_shr {s : List UInt8} {bits : Nat} (within : bits / 8 ≤ s.length) :
    (shr s bits).length = s.length := by
  have moved :
      (if 0 < bits / 8 then s.drop (bits / 8) ++ List.replicate (bits / 8) 0 else s).length = s.length := by
    split
    · rw [List.length_append, List.length_drop, List.length_replicate, Nat.sub_add_cancel within]
    · rfl
  rw [shr, apply_ite List.length, length_shrBits, moved, ite_self]

private theorem toNat_shiftRight (b : UInt8) {rem : Nat} (small : rem < 8) :
    (b >>> UInt8.ofNat rem).toNat = b.toNat / 2 ^ rem := by
  simp [UInt8.toNat_shiftRight, Nat.shiftRight_eq_div_pow, Nat.mod_eq_of_lt (show rem < 256 by omega),
    Nat.mod_eq_of_lt small]

/-- What a byte hands down: its low bits, at the top of the byte below. -/
private theorem toNat_shiftLeft (b : UInt8) {rem : Nat} (pos : 0 < rem) (small : rem < 8) :
    (b <<< UInt8.ofNat (8 - rem)).toNat = 2 ^ (8 - rem) * (b.toNat % 2 ^ rem) := by
  have width : 256 = 2 ^ (8 - rem) * 2 ^ rem := by
    rw [← Nat.pow_add, show 8 - rem + rem = 8 by omega]
  rw [UInt8.toNat_shiftLeft, UInt8.toNat_ofNat', Nat.mod_eq_of_lt (show 8 - rem < 2 ^ 8 by omega),
    Nat.mod_eq_of_lt (show 8 - rem < 8 by omega), Nat.shiftLeft_eq, Nat.mul_comm b.toNat,
    show 2 ^ 8 = 256 from rfl,
    width, Nat.mul_mod_mul_left]

private theorem toNat_handed (b above : UInt8) {rem : Nat} (pos : 0 < rem) (small : rem < 8) :
    (b >>> UInt8.ofNat rem ||| above <<< UInt8.ofNat (8 - rem)).toNat =
      b.toNat / 2 ^ rem + 2 ^ (8 - rem) * (above.toNat % 2 ^ rem) := by
  have below : b.toNat / 2 ^ rem < 2 ^ (8 - rem) := by
    rw [Nat.div_lt_iff_lt_mul (by positivity), ← Nat.pow_add, show 8 - rem + rem = 8 by omega]
    exact b.toNat_lt
  rw [UInt8.toNat_or, toNat_shiftRight b small, toNat_shiftLeft above pos small, Nat.or_comm,
    ← Nat.two_pow_add_eq_or_of_lt below, Nat.add_comm]

theorem value_shrBits {rem : Nat} (pos : 0 < rem) (small : rem < 8) (s : List UInt8) :
    value (shrBits rem s) = value s / 2 ^ rem := by
  have split : 256 = 2 ^ rem * 2 ^ (8 - rem) := by
    rw [← Nat.pow_add, show rem + (8 - rem) = 8 by omega]
  fun_induction shrBits rem s with
  | case1 => simp
  | case2 top => simp [toNat_shiftRight top small]
  | case3 b above rest ih =>
    have high : value (above :: rest) % 2 ^ rem = above.toNat % 2 ^ rem := by
      rw [value_cons, split, Nat.mul_assoc, Nat.add_mul_mod_self_left]
    have parts := Nat.div_add_mod (value (above :: rest)) (2 ^ rem)
    calc value ((b >>> UInt8.ofNat rem ||| above <<< UInt8.ofNat (8 - rem)) :: shrBits rem (above :: rest))
        = b.toNat / 2 ^ rem + 2 ^ (8 - rem) * (value (above :: rest) % 2 ^ rem) +
            256 * (value (above :: rest) / 2 ^ rem) := by
          rw [value_cons, toNat_handed b above pos small, ih, high]
      _ = b.toNat / 2 ^ rem +
            2 ^ (8 - rem) *
            (2 ^ rem * (value (above :: rest) / 2 ^ rem) + value (above :: rest) % 2 ^ rem) := by
          rw [split]
          ring
      _ = b.toNat / 2 ^ rem + 2 ^ (8 - rem) * value (above :: rest) := by rw [parts]
      _ = value (b :: above :: rest) / 2 ^ rem := by
          rw [value_cons (b := b), split, Nat.mul_assoc, Nat.add_mul_div_left _ _ (by positivity)]

theorem value_shr (s : List UInt8) (bits : Nat) : value (shr s bits) = value s / 2 ^ bits := by
  have moved : value (if 0 < bits / 8 then s.drop (bits / 8) ++ List.replicate (bits / 8) 0 else s) =
      value s / 256 ^ (bits / 8) := by
    split
    · rw [value_append, value_drop, value_replicate_zero, Nat.mul_zero, Nat.add_zero]
    · rw [show bits / 8 = 0 by omega]
      simp
  have whole : 2 ^ bits = 256 ^ (bits / 8) * 2 ^ (bits % 8) := by
    rw [show (256 : Nat) = 2 ^ 8 from rfl, ← Nat.pow_mul, ← Nat.pow_add, Nat.div_add_mod]
  rw [whole, ← Nat.div_div_eq_div_mul, ← moved, shr]
  split
  · exact value_shrBits (by assumption) (Nat.mod_lt _ (by decide)) _
  · rw [show bits % 8 = 0 by omega]
    simp

/-- Each byte moved up by less than a byte, its bottom filled from the byte below. What the top byte
hands up is lost. -/
def shlBits (rem : Nat) (carry : UInt8) : List UInt8 → List UInt8
  | [] => []
  | b :: rest => (b <<< UInt8.ofNat rem ||| carry) :: shlBits rem (b >>> UInt8.ofNat (8 - rem)) rest

@[simp] theorem length_shlBits (rem : Nat) (carry : UInt8) (s : List UInt8) :
    (shlBits rem carry s).length = s.length := by
  induction s generalizing carry with
  | nil => rfl
  | cons b rest ih => simp [shlBits, ih]

/-- A byte moved up, over what the byte below hands it. -/
private theorem toNat_lifted (b : UInt8) {carry : UInt8} {rem : Nat} (pos : 0 < rem) (small : rem < 8)
    (low : carry.toNat < 2 ^ rem) :
    (b <<< UInt8.ofNat rem ||| carry).toNat + 256 * (b >>> UInt8.ofNat (8 - rem)).toNat =
      carry.toNat + 2 ^ rem * b.toNat := by
  have split : 256 = 2 ^ rem * 2 ^ (8 - rem) := by
    rw [← Nat.pow_add, show rem + (8 - rem) = 8 by omega]
  have moved := toNat_shiftLeft b (show 0 < 8 - rem by omega) (by omega)
  rw [show 8 - (8 - rem) = rem by omega] at moved
  have parts := Nat.div_add_mod b.toNat (2 ^ (8 - rem))
  calc (b <<< UInt8.ofNat rem ||| carry).toNat + 256 * (b >>> UInt8.ofNat (8 - rem)).toNat
      = 2 ^ rem * (b.toNat % 2 ^ (8 - rem)) + carry.toNat + 256 * (b.toNat / 2 ^ (8 - rem)) := by
        rw [UInt8.toNat_or, moved, toNat_shiftRight b (by omega), ← Nat.two_pow_add_eq_or_of_lt low]
    _ = carry.toNat + 2 ^ rem * (2 ^ (8 - rem) * (b.toNat / 2 ^ (8 - rem)) + b.toNat % 2 ^ (8 - rem)) := by
        rw [split]
        ring
    _ = carry.toNat + 2 ^ rem * b.toNat := by rw [parts]

theorem value_shlBits {rem : Nat} (pos : 0 < rem) (small : rem < 8) {carry : UInt8}
    (low : carry.toNat < 2 ^ rem) (s : List UInt8) :
    value (shlBits rem carry s) = (carry.toNat + 2 ^ rem * value s) % 256 ^ s.length := by
  induction s generalizing carry with
  | nil => simp [shlBits, Nat.mod_one]
  | cons b rest ih =>
    have lifted := toNat_lifted b pos small low
    have byte := (b <<< UInt8.ofNat rem ||| carry).toNat_lt
    have handed : (b >>> UInt8.ofNat (8 - rem)).toNat < 2 ^ rem := by
      rw [toNat_shiftRight b (by omega), Nat.div_lt_iff_lt_mul (by positivity), ← Nat.pow_add,
        show rem + (8 - rem) = 8 by omega]
      exact b.toNat_lt
    have total : carry.toNat + 2 ^ rem * value (b :: rest) =
        (b <<< UInt8.ofNat rem ||| carry).toNat +
          256 * ((b >>> UInt8.ofNat (8 - rem)).toNat + 2 ^ rem * value rest) := by
      rw [value_cons, Nat.mul_add, ← Nat.add_assoc, ← lifted]
      ring
    rw [shlBits, value_cons, ih handed, total, List.length_cons, Nat.pow_succ', Nat.mod_mul,
      Nat.add_mul_mod_self_left, Nat.mod_eq_of_lt byte, Nat.add_mul_div_left _ _ (by decide),
      Nat.div_eq_of_lt byte, Nat.zero_add]

end Shift

section Order

/-- Bytes paired from the top down: the first pair that differs decides. -/
def atMost : List (UInt8 × UInt8) → Bool
  | [] => true
  | (b, bound) :: below => if b ≠ bound then b < bound else atMost below

theorem atMost_iff (pairs : List (UInt8 × UInt8)) :
    atMost pairs = true ↔ value (pairs.map Prod.fst).reverse ≤ value (pairs.map Prod.snd).reverse := by
  induction pairs with
  | nil => simp [atMost]
  | cons pair below ih =>
    obtain ⟨b, bound⟩ := pair
    have low := value_lt (below.map Prod.fst).reverse
    have low' := value_lt (below.map Prod.snd).reverse
    simp only [List.length_reverse, List.length_map] at low low'
    simp only [List.map_cons, List.reverse_cons, value_append, List.length_reverse, List.length_map, value_cons,
      value_nil, Nat.mul_zero, Nat.add_zero]
    by_cases same : b = bound
    · subst same
      simp [atMost, ih]
    · rw [atMost, if_pos same, decide_eq_true_iff, UInt8.lt_iff_toNat_lt]
      have apart : b.toNat ≠ bound.toNat := fun equal => same (UInt8.toNat_inj.mp equal)
      constructor
      · intro less
        have step : 256 ^ below.length * (b.toNat + 1) ≤ 256 ^ below.length * bound.toNat :=
          Nat.mul_le_mul_left _ less
        rw [Nat.mul_add] at step
        omega
      · intro least
        by_contra more
        have step : 256 ^ below.length * (bound.toNat + 1) ≤ 256 ^ below.length * b.toNat :=
          Nat.mul_le_mul_left _ (by omega)
        rw [Nat.mul_add] at step
        omega

/-- Strings of one length compared from the top byte down compare as numbers. -/
theorem reverse_lt_iff {a b : List UInt8} (same : a.length = b.length) :
    a.reverse < b.reverse ↔ value a < value b := by
  suffices down : ∀ x y : List UInt8, x.length = y.length → (x < y ↔ value x.reverse < value y.reverse) by
    simpa using down a.reverse b.reverse (by simpa using same)
  intro x
  induction x with
  | nil =>
    intro y same
    rw [List.length_nil] at same
    rw [List.eq_nil_of_length_eq_zero same.symm]
    simp
  | cons top x ih =>
    intro y same
    cases y with
    | nil => cases same
    | cons top' y =>
      have equal : x.length = y.length := Nat.succ.inj same
      have low := value_lt x.reverse
      have low' := value_lt y.reverse
      rw [List.length_reverse] at low low'
      rw [List.cons_lt_cons_iff, ih y equal]
      simp only [List.reverse_cons, value_append, List.length_reverse,
        value_cons, value_nil, Nat.mul_zero, Nat.add_zero, equal, UInt8.lt_iff_toNat_lt]
      rw [equal] at low
      constructor
      · rintro (less | ⟨rfl, less⟩)
        · have step : 256 ^ y.length * (top.toNat + 1) ≤ 256 ^ y.length * top'.toNat :=
            Nat.mul_le_mul_left _ less
          rw [Nat.mul_add] at step
          omega
        · omega
      · intro less
        by_cases above : top.toNat < top'.toNat
        · exact .inl above
        · by_cases tie : top = top'
          · subst tie
            exact .inr ⟨rfl, by omega⟩
          · have apart : top.toNat ≠ top'.toNat := fun equal => tie (UInt8.toNat_inj.mp equal)
            have step : 256 ^ y.length * (top'.toNat + 1) ≤ 256 ^ y.length * top.toNat :=
              Nat.mul_le_mul_left _ (by omega)
            rw [Nat.mul_add] at step
            omega

/-- Zero bits on top of the first byte that has one set, from the top byte down. -/
def leadingZeros : List UInt8 → Nat
  | [] => 0
  | b :: below => if b = 0 then 8 + leadingZeros below else 7 - b.toNat.log2

/-- A number has so many zero bits on top when it is below the power that leaves them free. -/
theorem le_leadingZeros_iff {s : List UInt8} {k : Nat} (within : k ≤ 8 * s.length) :
    k ≤ leadingZeros s ↔ value s.reverse < 2 ^ (8 * s.length - k) := by
  induction s generalizing k with
  | nil =>
    rw [List.length_nil, Nat.mul_zero, Nat.le_zero] at within
    subst within
    simp [leadingZeros]
  | cons b below ih =>
    rw [List.length_cons] at within
    have low : value below.reverse < 2 ^ (8 * below.length) := by
      have bound := value_lt below.reverse
      rwa [List.length_reverse, show (256 : Nat) = 2 ^ 8 from rfl, ← Nat.pow_mul] at bound
    have whole : value (b :: below).reverse = value below.reverse + 2 ^ (8 * below.length) * b.toNat := by
      rw [List.reverse_cons, value_append, List.length_reverse, show (256 : Nat) = 2 ^ 8 from rfl,
        ← Nat.pow_mul, value_cons, value_nil, Nat.mul_zero, Nat.add_zero]
    rw [whole, List.length_cons, leadingZeros]
    by_cases zero : b = 0
    · subst zero
      rw [if_pos rfl, UInt8.toNat_zero, Nat.mul_zero, Nat.add_zero]
      by_cases few : k ≤ 8
      · have room : 2 ^ (8 * below.length) ≤ 2 ^ (8 * (below.length + 1) - k) :=
          Nat.pow_le_pow_right (by decide) (by omega)
        exact iff_of_true (by omega) (low.trans_le room)
      · have rest := ih (k := k - 8) (by omega)
        rw [show 8 * (below.length + 1) - k = 8 * below.length - (k - 8) by omega, ← rest]
        omega
    · rw [if_neg zero]
      have some : b.toNat ≠ 0 := fun none => zero (UInt8.toNat_inj.mp none)
      have byte : b.toNat.log2 < 8 := (Nat.log2_lt some).mpr b.toNat_lt
      by_cases few : k ≤ 8
      · have free : b.toNat.log2 < 8 - k ↔ b.toNat < 2 ^ (8 - k) := Nat.log2_lt some
        have top :
            (value below.reverse + 2 ^ (8 * below.length) * b.toNat) / 2 ^ (8 * below.length) = b.toNat := by
          rw [Nat.add_mul_div_left _ _ (by positivity), Nat.div_eq_of_lt low, Nat.zero_add]
        rw [show 8 * (below.length + 1) - k = 8 - k + 8 * below.length by omega, Nat.pow_add,
          ← Nat.div_lt_iff_lt_mul (by positivity), top, ← free]
        omega
      · have room : 2 ^ (8 * (below.length + 1) - k) ≤ 2 ^ (8 * below.length) :=
          Nat.pow_le_pow_right (by decide) (by omega)
        have step : 2 ^ (8 * below.length) * 1 ≤ 2 ^ (8 * below.length) * b.toNat :=
          Nat.mul_le_mul_left _ (Nat.pos_of_ne_zero some)
        omega

end Order

end LittleEndian
