import Lazarus.Wire.Cursor

/-! The header of a frame and the rolling key it is sent under. -/

namespace Lazarus.Wire

/-- Largest payload a command is meant to have. -/
def maxCmdLen : Nat := 2 ^ 22

def rotateLeft (x n : UInt32) : UInt32 := x <<< n ||| x >>> (32 - n)

/-- The next header key from the current one. -/
def feedback (i : UInt32) : UInt32 :=
  let k := i * 0xcc9e2d51
  let k := rotateLeft k 15
  let k := k * 0x1b873593
  let h := 0xb10cfeed ^^^ k
  let h := rotateLeft h 13
  let h := h * 5 + 0xe6546b64
  let h := h ^^^ 4
  let h := h ^^^ h >>> 16
  let h := h * 0x85ebca6b
  let h := h ^^^ h >>> 13
  let h := h * 0xc2b2ae35
  h ^^^ h >>> 16

/-- The rolling key of one direction, as it stands. -/
abbrev KeyStream := UInt32

/-- The key in use, and the stream past it. -/
def KeyStream.advance (keys : KeyStream) : UInt32 × KeyStream := (keys, feedback keys)

structure Header where
  len : UInt32
  signed : Bool := false
  isSealed : Bool := false
  channel : Bool := false
  cmd : UInt8
deriving DecidableEq

namespace Header

def size : Nat := 4

def toU32 (h : Header) : UInt32 :=
  (h.len &&& (0x003fffff : UInt32)) ||| (h.signed.toUInt32 <<< (24 : UInt32)) |||
    (h.isSealed.toUInt32 <<< (25 : UInt32)) ||| (h.channel.toUInt32 <<< (26 : UInt32)) |||
    ((h.cmd &&& (0x1f : UInt8)).toUInt32 <<< (27 : UInt32))

def fromU32 (v : UInt32) : Header where
  len := v &&& (0x003fffff : UInt32)
  signed := v &&& ((1 : UInt32) <<< (24 : UInt32)) != 0
  isSealed := v &&& ((1 : UInt32) <<< (25 : UInt32)) != 0
  channel := v &&& ((1 : UInt32) <<< (26 : UInt32)) != 0
  cmd := (v >>> (27 : UInt32)).toUInt8

/-- The header's bytes under the key in use, and the stream past it. -/
def encode (h : Header) (keys : KeyStream) : Bytes × KeyStream :=
  let (key, keys) := keys.advance
  (LittleEndian.bytes 4 (h.toU32 ^^^ key).toNat, keys)

def decode (bytes : Bytes) (keys : KeyStream) : Except Error Header × KeyStream :=
  let (key, keys) := keys.advance
  let h := fromU32 (UInt32.ofNat (LittleEndian.value bytes) ^^^ key)
  (if maxCmdLen < h.len.toNat then .error .tooLong else .ok h, keys)

section Bits

/-- What is put above the bits of a number is added to it. -/
theorem or_above {low : Nat} {i : Nat} (small : low < 2 ^ i) (high : Nat) :
    low ||| high <<< i = low + 2 ^ i * high := by
  rw [Nat.shiftLeft_eq, Nat.mul_comm high, Nat.or_comm, ← Nat.two_pow_add_eq_or_of_lt small, Nat.add_comm]

theorem toNat_bool (b : Bool) : b.toUInt32.toNat = b.toNat := by
  cases b <;> rfl

theorem toNat_shiftLeft {x i : UInt32} (small : i.toNat < 32) (fits : x.toNat * 2 ^ i.toNat < 2 ^ 32) :
    (x <<< i).toNat = x.toNat <<< i.toNat := by
  rw [UInt32.toNat_shiftLeft, Nat.mod_eq_of_lt small, Nat.shiftLeft_eq, Nat.mod_eq_of_lt fits]

/-- A header as a number, field above field. -/
theorem toNat_toU32 (h : Header) :
    h.toU32.toNat = h.len.toNat % 2 ^ 22 + 2 ^ 24 * h.signed.toNat + 2 ^ 25 * h.isSealed.toNat +
      2 ^ 26 * h.channel.toNat + 2 ^ 27 * (h.cmd.toNat % 2 ^ 5) := by
  have signed := h.signed.toNat_lt
  have closed := h.isSealed.toNat_lt
  have channel := h.channel.toNat_lt
  have low : h.len.toNat &&& 0x003fffff = h.len.toNat % 2 ^ 22 := Nat.and_two_pow_sub_one_eq_mod h.len.toNat 22
  have top : h.cmd.toNat &&& 0x1f = h.cmd.toNat % 2 ^ 5 := Nat.and_two_pow_sub_one_eq_mod h.cmd.toNat 5
  have cmd : (h.cmd &&& (0x1f : UInt8)).toUInt32.toNat = h.cmd.toNat % 2 ^ 5 := by
    rw [UInt8.toNat_toUInt32, UInt8.toNat_and, ← top]
    rfl
  unfold toU32
  simp only [UInt32.toNat_or, UInt32.toNat_and]
  rw [toNat_shiftLeft (i := 24) (by decide) (by rw [toNat_bool]; change _ * 2 ^ 24 < _; omega),
    toNat_shiftLeft (i := 25) (by decide) (by rw [toNat_bool]; change _ * 2 ^ 25 < _; omega),
    toNat_shiftLeft (i := 26) (by decide) (by rw [toNat_bool]; change _ * 2 ^ 26 < _; omega),
    toNat_shiftLeft (i := 27) (by decide) (by rw [cmd]; change _ * 2 ^ 27 < _; omega), cmd]
  simp only [toNat_bool]
  change (h.len.toNat &&& 0x003fffff) ||| h.signed.toNat <<< 24 ||| h.isSealed.toNat <<< 25 |||
    h.channel.toNat <<< 26 ||| (h.cmd.toNat % 2 ^ 5) <<< 27 = _
  rw [low, or_above (i := 24) (show h.len.toNat % 2 ^ 22 < 2 ^ 24 by omega),
    or_above (i := 25) (show h.len.toNat % 2 ^ 22 + 2 ^ 24 * h.signed.toNat < 2 ^ 25 by omega),
    or_above (i := 26)
      (show h.len.toNat % 2 ^ 22 + 2 ^ 24 * h.signed.toNat + 2 ^ 25 * h.isSealed.toNat < 2 ^ 26 by omega),
    or_above (by omega)]

/-- One bit of a word. -/
theorem flag_eq {v mask : UInt32} {i : Nat} (power : mask.toNat = 2 ^ i) :
    (v &&& mask != 0) = decide (v.toNat / 2 ^ i % 2 = 1) := by
  have zero : v &&& mask = 0 ↔ v.toNat / 2 ^ i % 2 = 0 := by
    rw [← UInt32.toNat_inj, UInt32.toNat_and, power, UInt32.toNat_zero,
      Nat.and_two_pow, Nat.testBit_eq_decide_div_mod_eq]
    rcases Nat.mod_two_eq_zero_or_one (v.toNat / 2 ^ i) with even | odd
    · simp [even]
    · simp [odd]
  have two := Nat.mod_two_eq_zero_or_one (v.toNat / 2 ^ i)
  rw [bne, Bool.eq_iff_iff]
  simp only [Bool.not_eq_true', beq_eq_false_iff_ne, ne_eq, zero, decide_eq_true_eq]
  omega

theorem toNat_len_fromU32 (v : UInt32) : (fromU32 v).len.toNat = v.toNat % 2 ^ 22 :=
  (UInt32.toNat_and _ _).trans (Nat.and_two_pow_sub_one_eq_mod v.toNat 22)

theorem toNat_cmd_fromU32 (v : UInt32) : (fromU32 v).cmd.toNat = v.toNat / 2 ^ 27 := by
  have top := v.toNat_lt
  change ((v >>> (27 : UInt32)).toUInt8).toNat = _
  rw [UInt32.toNat_toUInt8, UInt32.toNat_shiftRight]
  change v.toNat >>> 27 % 2 ^ 8 = _
  rw [Nat.shiftRight_eq_div_pow]
  omega

/-- What is read has no length past 22 bits and no command past five. -/
theorem fromU32_fits (v : UInt32) : (fromU32 v).len.toNat < 2 ^ 22 ∧ (fromU32 v).cmd.toNat < 32 := by
  have top := v.toNat_lt
  rw [toNat_len_fromU32, toNat_cmd_fromU32]
  omega

theorem fromU32_toU32 {h : Header} (short : h.len.toNat < 2 ^ 22) (known : h.cmd.toNat < 32) :
    fromU32 h.toU32 = h := by
  have signed := h.signed.toNat_lt
  have closed := h.isSealed.toNat_lt
  have channel := h.channel.toNat_lt
  have whole := h.toNat_toU32
  have bit : ∀ b : Bool, decide (b.toNat = 1) = b := by
    intro b
    cases b <;> rfl
  have len : (fromU32 h.toU32).len = h.len := by
    apply UInt32.toNat_inj.mp
    rw [toNat_len_fromU32]
    omega
  have cmd : (fromU32 h.toU32).cmd = h.cmd := by
    apply UInt8.toNat_inj.mp
    rw [toNat_cmd_fromU32]
    omega
  have first : (fromU32 h.toU32).signed = h.signed := by
    rw [← bit h.signed, show h.signed.toNat = h.toU32.toNat / 2 ^ 24 % 2 by omega]
    exact flag_eq (by decide)
  have second : (fromU32 h.toU32).isSealed = h.isSealed := by
    rw [← bit h.isSealed, show h.isSealed.toNat = h.toU32.toNat / 2 ^ 25 % 2 by omega]
    exact flag_eq (by decide)
  have third : (fromU32 h.toU32).channel = h.channel := by
    rw [← bit h.channel, show h.channel.toNat = h.toU32.toNat / 2 ^ 26 % 2 by omega]
    exact flag_eq (by decide)
  calc fromU32 h.toU32
      = ⟨(fromU32 h.toU32).len, (fromU32 h.toU32).signed, (fromU32 h.toU32).isSealed, (fromU32 h.toU32).channel,
          (fromU32 h.toU32).cmd⟩ := rfl
    _ = h := by rw [len, first, second, third, cmd]

/-- A header that fits its fields is read back from its bytes, and the two streams stay together. -/
theorem decode_encode {h : Header} (short : h.len.toNat < 2 ^ 22) (known : h.cmd.toNat < 32)
    (keys : KeyStream) : decode (h.encode keys).1 keys = (.ok h, (h.encode keys).2) := by
  have sent : UInt32.ofNat (LittleEndian.value (LittleEndian.bytes 4 (h.toU32 ^^^ keys).toNat)) ^^^
      keys = h.toU32 := by
    rw [LittleEndian.value_bytes, Nat.mod_eq_of_lt (show _ < 256 ^ 4 from (h.toU32 ^^^ keys).toNat_lt),
      UInt32.ofNat_toNat, UInt32.xor_assoc, UInt32.xor_self, UInt32.xor_zero]
  have small : ¬ maxCmdLen < h.len.toNat := by
    rw [maxCmdLen]
    omega
  simp only [decode, encode, KeyStream.advance, sent, fromU32_toU32 short known, if_neg small]

theorem decode_fits {bytes : Bytes} {keys : KeyStream} {h : Header} (read : (decode bytes keys).1 = .ok h) :
    h.len.toNat < 2 ^ 22 ∧ h.cmd.toNat < 32 := by
  have fits := fromU32_fits (UInt32.ofNat (LittleEndian.value bytes) ^^^ keys)
  have small : ¬ maxCmdLen < (fromU32 (UInt32.ofNat (LittleEndian.value bytes) ^^^ keys)).len.toNat := by
    rw [maxCmdLen]
    omega
  change (if maxCmdLen < (fromU32 (UInt32.ofNat (LittleEndian.value bytes) ^^^ keys)).len.toNat then
    _ else _) = _ at read
  rw [if_neg small] at read
  cases read
  exact fits

theorem length_encode (h : Header) (keys : KeyStream) : (h.encode keys).1.length = size :=
  LittleEndian.length_bytes _ _

end Bits

end Header

end Lazarus.Wire
