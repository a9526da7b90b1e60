import Lazarus.Wire.Frame

/-! The nonces of a session. Both directions share one key and start from nonces that differ by the same
pattern in every word; each is counted up by one a message. -/

namespace Lazarus.Wire

def nonceBytes : Nat := 24

def signPk : Nat := 32

abbrev Nonce := Fixed nonceBytes

/-- The words of a nonce, each mixed from the one before. -/
def nonceWords : Nat → UInt32 → List UInt32
  | 0, _ => []
  | count + 1, nk =>
    let word := feedback (nk - 42)
    word :: nonceWords count (~~~word)

/-- What a word of the one nonce differs by from that of the other. -/
def nonceMask : UInt32 := 0x57575757

theorem length_nonceWords (count : Nat) (nk : UInt32) : (nonceWords count nk).length = count := by
  induction count generalizing nk with
  | zero => rfl
  | succ count ih => simp [nonceWords, ih]

/-- Words one after the other as bytes. -/
def wordBytes (words : List UInt32) : Bytes := words.flatMap fun w => LittleEndian.bytes 4 w.toNat

theorem length_wordBytes (words : List UInt32) : (wordBytes words).length = 4 * words.length := by
  induction words with
  | nil => rfl
  | cons w words ih =>
    rw [wordBytes, List.flatMap_cons, List.length_append, LittleEndian.length_bytes, List.length_cons]
    change 4 + (wordBytes words).length = _
    omega

/-- The nonces of a session, to the client and from it. -/
def sessionNonces (seed : UInt32) (clientSessionSignPk : Fixed signPk) : Nonce × Nonce :=
  let pk7 := UInt32.ofNat (LittleEndian.value ((clientSessionSignPk.val.drop 7).take 4))
  let words := nonceWords 6 ((seed - 42) ^^^ pk7)
  (⟨wordBytes words, by rw [length_wordBytes, length_nonceWords]; rfl⟩,
    ⟨wordBytes (words.map (· ^^^ nonceMask)), by
      rw [length_wordBytes, List.length_map, length_nonceWords]; rfl⟩)

/-- Add one to the words of a nonce from the lowest, as far as they carry. -/
def bumpWords : Nat → Bytes → Bytes
  | 0, n => n
  | count + 1, n =>
    let w := UInt32.ofNat (LittleEndian.value (n.take 4)) + 1
    LittleEndian.bytes 4 w.toNat ++ if w ≠ 0 then n.drop 4 else bumpWords count (n.drop 4)

private theorem length_bumpWords {count : Nat} {n : Bytes} (size : n.length = 4 * count) :
    (bumpWords count n).length = n.length := by
  induction count generalizing n with
  | zero => rfl
  | succ count ih =>
    have rest : (n.drop 4).length = 4 * count := by
      rw [List.length_drop]
      omega
    rw [bumpWords, List.length_append, LittleEndian.length_bytes]
    split
    · omega
    · rw [ih rest]
      omega

/-- Advance a nonce by one message. -/
def bumpNonce (n : Nonce) : Nonce := ⟨bumpWords 6 n.val, (length_bumpWords n.property).trans n.property⟩

section Counter

private theorem value_words (n : Bytes) (enough : 4 ≤ n.length) :
    LittleEndian.value n = LittleEndian.value (n.take 4) + 2 ^ 32 * LittleEndian.value (n.drop 4) ∧
      LittleEndian.value (n.take 4) < 2 ^ 32 := by
  have four : (n.take 4).length = 4 := by
    rw [List.length_take]
    omega
  constructor
  · have parts := LittleEndian.value_append (n.take 4) (n.drop 4)
    rwa [List.take_append_drop, four] at parts
  · have small := LittleEndian.value_lt (n.take 4)
    rwa [four] at small

private theorem value_bumpWords {count : Nat} {n : Bytes} (size : n.length = 4 * count) :
    LittleEndian.value (bumpWords count n) = (LittleEndian.value n + 1) % 2 ^ (32 * count) := by
  induction count generalizing n with
  | zero =>
    rw [List.length_eq_zero_iff.mp size]
    rfl
  | succ count ih =>
    obtain ⟨whole, low⟩ := value_words n (by omega)
    have rest : (n.drop 4).length = 4 * count := by
      rw [List.length_drop]
      omega
    have high := LittleEndian.value_lt (n.drop 4)
    rw [rest,
      show 256 ^ (4 * count) = 2 ^ (32 * count) by rw [show 256 = 2 ^ 8 by rfl, ← Nat.pow_mul]; ring_nf] at high
    have word : (UInt32.ofNat (LittleEndian.value (n.take 4)) + 1).toNat =
        (LittleEndian.value (n.take 4) + 1) % 2 ^ 32 := by
      rw [UInt32.toNat_add, UInt32.toNat_ofNat', Nat.mod_eq_of_lt low]
      rfl
    have zero : UInt32.ofNat (LittleEndian.value (n.take 4)) + 1 = 0 ↔
        LittleEndian.value (n.take 4) + 1 = 2 ^ 32 := by
      rw [← UInt32.toNat_inj, word, UInt32.toNat_zero]
      omega
    have wide : 2 ^ (32 * (count + 1)) = 2 ^ 32 * 2 ^ (32 * count) := by rw [← Nat.pow_add]; ring_nf
    rw [bumpWords, LittleEndian.value_append, LittleEndian.length_bytes,
      LittleEndian.value_bytes, word, whole, wide]
    split
    · rename_i carries
      have more : LittleEndian.value (n.take 4) + 1 ≠ 2 ^ 32 := fun full => carries (zero.mpr full)
      rw [Nat.mod_eq_of_lt (by omega : LittleEndian.value (n.take 4) + 1 < 2 ^ 32)]
      have step : 2 ^ 32 * (LittleEndian.value (n.drop 4) + 1) ≤ 2 ^ 32 * 2 ^ (32 * count) :=
        Nat.mul_le_mul_left _ high
      rw [Nat.mod_eq_of_lt (a := LittleEndian.value (n.take 4) + 1) (show _ < 256 ^ 4 by omega),
        Nat.mod_eq_of_lt (by omega)]
      omega
    · rename_i full
      have top := zero.mp (not_not.mp full)
      rw [ih rest, top, Nat.mod_self, Nat.zero_mod, Nat.zero_add]
      rw [show LittleEndian.value (n.take 4) + 2 ^ 32 * LittleEndian.value (n.drop 4) + 1 =
        2 ^ 32 * (LittleEndian.value (n.drop 4) + 1) by omega, Nat.mul_mod_mul_left]
      rfl

/-- A nonce is a counter of 192 bits. -/
theorem value_bumpNonce (n : Nonce) :
    LittleEndian.value (bumpNonce n).val = (LittleEndian.value n.val + 1) % 2 ^ 192 :=
      value_bumpWords n.property

private theorem value_bumps (n : Nonce) (i : Nat) :
    LittleEndian.value (bumpNonce^[i] n).val = (LittleEndian.value n.val + i) % 2 ^ 192 := by
  induction i with
  | zero =>
    have small := LittleEndian.value_lt n.val
    rw [n.property] at small
    exact (Nat.mod_eq_of_lt small).symm
  | succ i ih =>
    rw [Function.iterate_succ_apply', value_bumpNonce, ih, Nat.mod_add_mod]
    rfl

/-- A nonce is not met again before the counter has gone all the way round. -/
theorem bumps_ne {n : Nonce} {i k : Nat} (before : i < k) (within : k < 2 ^ 192) :
    bumpNonce^[i] n ≠ bumpNonce^[k] n := by
  intro same
  have equal := value_bumps n i
  rw [same, value_bumps n k] at equal
  omega

end Counter

section Apart

private theorem top_masked (w : UInt32) :
    w.toNat / 2 ^ 28 + 3 ≤ (w ^^^ nonceMask).toNat / 2 ^ 28 ∧
      (w ^^^ nonceMask).toNat / 2 ^ 28 ≤ w.toNat / 2 ^ 28 + 5 ∨
      (w ^^^ nonceMask).toNat / 2 ^ 28 + 3 ≤ w.toNat / 2 ^ 28 ∧
        w.toNat / 2 ^ 28 ≤ (w ^^^ nonceMask).toNat / 2 ^ 28 + 5 := by
  have masked : (w ^^^ nonceMask).toNat / 2 ^ 28 = (w.toNat / 2 ^ 28) ^^^ 5 := by
    rw [UInt32.toNat_xor, ← Nat.shiftRight_eq_div_pow, Nat.shiftRight_xor_distrib, Nat.shiftRight_eq_div_pow]
    rfl
  have top : w.toNat / 2 ^ 28 < 16 := by
    have small := w.toNat_lt
    omega
  rw [masked]
  generalize w.toNat / 2 ^ 28 = nibble at top ⊢
  revert nibble
  decide

private theorem value_wordBytes_concat (words : List UInt32) (w : UInt32) :
    LittleEndian.value (wordBytes (words ++ [w])) =
      LittleEndian.value (wordBytes words) + 256 ^ (4 * words.length) * w.toNat := by
  have last : wordBytes (words ++ [w]) = wordBytes words ++ LittleEndian.bytes 4 w.toNat := by
    simp [wordBytes]
  rw [last, LittleEndian.value_append, length_wordBytes, LittleEndian.value_bytes,
    Nat.mod_eq_of_lt (show w.toNat < 256 ^ 4 from w.toNat_lt)]

private theorem sessionNonces_parts (seed : UInt32) (pk : Fixed signPk) :
    ∃ (low low' : Nat) (w : UInt32), low < 2 ^ 160 ∧ low' < 2 ^ 160 ∧
      LittleEndian.value (sessionNonces seed pk).1.val = low + 2 ^ 160 * w.toNat ∧
      LittleEndian.value (sessionNonces seed pk).2.val = low' + 2 ^ 160 * (w ^^^ nonceMask).toNat := by
  obtain ⟨words, w, parts⟩ : ∃ words w, nonceWords 6 ((seed - 42) ^^^
      UInt32.ofNat (LittleEndian.value ((pk.val.drop 7).take 4))) = words ++ [w] :=
    ⟨_, _, (List.dropLast_append_getLast (List.ne_nil_of_length_eq_add_one (length_nonceWords 6 _))).symm⟩
  have five : words.length = 5 := by
    have six := length_nonceWords 6 ((seed - 42) ^^^ UInt32.ofNat (LittleEndian.value ((pk.val.drop 7).take 4)))
    rw [parts, List.length_append, List.length_singleton] at six
    omega
  have low := LittleEndian.value_lt (wordBytes words)
  rw [length_wordBytes, five] at low
  have low' := LittleEndian.value_lt (wordBytes (words.map (· ^^^ nonceMask)))
  rw [length_wordBytes, List.length_map, five] at low'
  refine ⟨_, _, w, low, low', ?_, ?_⟩
  · have value := value_wordBytes_concat words w
    rw [← parts, five] at value
    exact value
  · have value := value_wordBytes_concat (words.map (· ^^^ nonceMask)) (w ^^^ nonceMask)
    rw [List.length_map, five, show words.map (· ^^^ nonceMask) ++ [w ^^^ nonceMask] =
      (words ++ [w]).map (· ^^^ nonceMask) by simp, ← parts] at value
    exact value

/-- The counters of the two directions start so far apart, either way round, that they do not meet. -/
theorem directions_apart (seed : UInt32) (pk : Fixed signPk) {i k : Nat}
    (fewOut : i < 2 ^ 160) (fewIn : k < 2 ^ 160) :
    bumpNonce^[i] (sessionNonces seed pk).1 ≠ bumpNonce^[k] (sessionNonces seed pk).2 := by
  obtain ⟨low, low', w, small, small', out, back⟩ := sessionNonces_parts seed pk
  intro same
  have equal := value_bumps (sessionNonces seed pk).1 i
  rw [same, value_bumps, out, back] at equal
  have bound := w.toNat_lt
  have bound' := (w ^^^ nonceMask).toNat_lt
  obtain ⟨above, near⟩ | ⟨below, near⟩ := top_masked w <;> omega

end Apart

end Lazarus.Wire
