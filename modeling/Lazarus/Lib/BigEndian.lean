import Lazarus.Lib.LittleEndian

/-! Byte strings as numbers, highest byte first. -/

namespace BigEndian

open LittleEndian (value shr value_shr reverse_lt_iff)

/-- Each byte moved down by less than a byte, its top filled from the byte before it. -/
def shrBits (rem : Nat) (before : UInt8) : List UInt8 → List UInt8
  | [] => []
  | b :: rest => (b >>> UInt8.ofNat rem ||| before <<< UInt8.ofNat (8 - rem)) :: shrBits rem b rest

/-- A string shifted down by a number of bits: by whole bytes first, then by what is left. -/
def shrInPlace (s : List UInt8) (bits : Nat) : List UInt8 :=
  let whole := bits / 8
  let rem := bits % 8
  let moved := List.replicate whole 0 ++ s.take (s.length - whole)
  if 0 < rem then shrBits rem 0 moved else moved

theorem shrBits_concat (rem : Nat) (before : UInt8) (s : List UInt8) (b : UInt8) :
    shrBits rem before (s ++ [b]) =
      shrBits rem before s ++
        [b >>> UInt8.ofNat rem ||| (s.getLast?.getD before) <<< UInt8.ofNat (8 - rem)] := by
  induction s generalizing before with
  | nil => rfl
  | cons first rest ih =>
    rw [List.cons_append, shrBits, ih, shrBits, List.cons_append]
    cases rest with
    | nil => rfl
    | cons second rest => simp [List.getLast?_cons]

/-- Read from the other end it is the shift of a string with its lowest byte first. -/
theorem reverse_shrBits (rem : Nat) (s : List UInt8) :
    (shrBits rem 0 s).reverse = LittleEndian.shrBits rem s.reverse := by
  induction s using List.reverseRecOn with
  | nil => rfl
  | append_singleton s b ih =>
    rw [shrBits_concat, List.reverse_append, ih, List.reverse_append]
    cases s using List.reverseRecOn with
    | nil => simp [LittleEndian.shrBits]
    | append_singleton s above => simp [LittleEndian.shrBits]

theorem length_shrBits (rem : Nat) (before : UInt8) (s : List UInt8) :
    (shrBits rem before s).length = s.length := by
  induction s generalizing before with
  | nil => rfl
  | cons b rest ih => rw [shrBits, List.length_cons, ih, List.length_cons]

theorem length_shrInPlace {s : List UInt8} {bits : Nat} (within : bits / 8 ≤ s.length) :
    (shrInPlace s bits).length = s.length := by
  unfold shrInPlace
  dsimp only
  split
  · rw [length_shrBits]
    simp only [List.length_append, List.length_replicate, List.length_take]
    omega
  · simp only [List.length_append, List.length_replicate, List.length_take]
    omega

/-- Both orders shift alike. -/
theorem reverse_shrInPlace (s : List UInt8) (bits : Nat) :
    (shrInPlace s bits).reverse = shr s.reverse bits := by
  have moved : (List.replicate (bits / 8) 0 ++ s.take (s.length - bits / 8)).reverse =
      s.reverse.drop (bits / 8) ++ List.replicate (bits / 8) 0 := by
    rw [List.reverse_append, List.reverse_replicate, List.drop_reverse]
  have whole : (if 0 < bits / 8 then s.reverse.drop (bits / 8) ++ List.replicate (bits / 8) 0 else s.reverse) =
      s.reverse.drop (bits / 8) ++ List.replicate (bits / 8) 0 := by
    split
    · rfl
    · rename_i none
      rw [Nat.eq_zero_of_not_pos none]
      simp
  unfold shrInPlace shr
  dsimp only
  rw [whole]
  split
  · rw [reverse_shrBits, moved]
  · exact moved

/-- Shifting down divides. -/
theorem value_shrInPlace (s : List UInt8) (bits : Nat) :
    value (shrInPlace s bits).reverse = value s.reverse / 2 ^ bits := by
  rw [reverse_shrInPlace, value_shr]

/-- Strings of one length compare as numbers. -/
theorem le_iff {a b : List UInt8} (same : a.length = b.length) : a ≤ b ↔ value a.reverse ≤ value b.reverse := by
  have less := reverse_lt_iff (a := b.reverse) (b := a.reverse) (by simpa using same.symm)
  rw [List.reverse_reverse, List.reverse_reverse] at less
  rw [← Nat.not_lt, ← less]
  rfl

end BigEndian
