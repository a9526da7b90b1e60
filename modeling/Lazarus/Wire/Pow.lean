import Lazarus.Wire.Cursor

/-! The proof of work of a share: the header commitment, the hash that is ground, and the targets it is
held to. The two hash functions are parameters. -/

namespace Lazarus.Wire

open LittleEndian

abbrev Hash := Fixed 32

/-- The hash functions of the chain. -/
structure Hashes where
  sha256 : Bytes → Hash
  blake2b256 : Bytes → Hash

namespace Hashes

def sha256d (H : Hashes) (data : Bytes) : Hash := H.sha256 (H.sha256 data).val

def taggedSha256 (H : Hashes) (tag : String) (data : Bytes) : Hash :=
  let t := H.sha256 tag.toUTF8.data.toList
  H.sha256 (t.val ++ t.val ++ data)

/-- Fold a coinbase txid through its merkle branches. -/
def merkleRoot (H : Hashes) (txid : Hash) (branches : List Hash) : Hash :=
  branches.foldl (fun acc b => H.sha256d (acc.val ++ b.val)) txid

def xorKeyHash (H : Hashes) (key : Fixed 16) : Hash := H.taggedSha256 "Bitcoin block hash PoW XOR key" key.val

/-- The mask over the hash. A zero key masks nothing. -/
def xorMask (H : Hashes) (key : Fixed 16) (clearBits : UInt8) : Hash :=
  if key.val.all (· == 0) then Fixed.zero 32
  else
    let whole := clearBits.toNat / 8
    let mask := H.taggedSha256 "Bitcoin block hash PoW XOR mask" key.val
    ⟨mask.val.mapIdx fun i b =>
      if i < whole then 0 else if i = whole then b &&& 0xff >>> (clearBits % 8) else b, by simp [mask.property]⟩

end Hashes

/-- The header fields that the template fixes. -/
structure Commitment where
  version : UInt32
  prevHash : Hash
  height : UInt32
  merkleRoot : Hash
  timeOnWire : UInt32
  nbits : UInt32
  txcount : UInt32
  flags : UInt8
  xorClearBits : UInt8
  xorKey : Fixed 16
  rhs : Hash
deriving DecidableEq

def v2Bit : UInt32 := 0x80000000

def flagUseTimeOffset : UInt8 := 0x04

namespace Commitment

def h1Preimage (H : Hashes) (c : Commitment) : Bytes :=
  bytes 4 (c.version ||| v2Bit).toNat ++ c.prevHash.val.reverse ++ bytes 4 c.height.toNat ++ c.merkleRoot.val ++
    bytes 4 c.timeOnWire.toNat ++ [0] ++ bytes 4 c.nbits.toNat ++ bytes 4 c.txcount.toNat ++ [c.flags] ++
    [c.xorClearBits] ++ (H.xorKeyHash c.xorKey).val

/-- The commitment that is ground on. -/
def h2 (H : Hashes) (c : Commitment) : Hash :=
  let h1 := H.taggedSha256 "Bitcoin block header 1" (c.h1Preimage H)
  H.taggedSha256 "Merge-mining hook" (h1.val ++ List.replicate 32 0 ++ c.rhs.val)

end Commitment

section Work

def siaCoinb1 (h2 : Hash) : Bytes := List.replicate 3 0 ++ h2.val ++ List.replicate 4 0

def workRoot (H : Hashes) (h2 : Hash) (extranonce : Fixed 12) : Hash :=
  H.blake2b256 (0 :: siaCoinb1 h2 ++ extranonce.val)

/-- What stands in for the previous block: its hash hashed, the first six bytes cleared. -/
def siaPrevhash (H : Hashes) (prev : Hash) : Hash :=
  let h := H.taggedSha256 "Bitcoin prevblock header, hashed" prev.val.reverse
  ⟨List.replicate 6 0 ++ h.val.drop 6, by simp [h.property]⟩

def workHeader (siaPrev : Hash) (nonce ntime : Fixed 8) (root : Hash) : Bytes :=
  siaPrev.val ++ nonce.val ++ ntime.val ++ root.val

/-- The block hash, lowest byte first. -/
def powHashLe (H : Hashes) (work : Bytes) (xorKey : Fixed 16) (clearBits : UInt8) : Hash :=
  let h := H.blake2b256 work
  let mask := H.xorMask xorKey clearBits
  ⟨(List.zipWith (· ^^^ ·) h.val mask.val).reverse, by simp [h.property, mask.property]⟩

def shareNtime (timeOnWire : UInt32) (ntime : Fixed 8) (flags : UInt8) : UInt32 :=
  if flags &&& flagUseTimeOffset = 0 then timeOnWire
  else timeOnWire + UInt32.ofNat (value (ntime.val.take 4))

/-- The header as it goes into a block: a commitment, and the fields that are ground. The header's extranonce is
longer than the share's, which is its end. -/
def serializeHeaderV2 (c : Commitment) (nonce ntime : Fixed 8) (extranonce : Fixed 12) : Bytes :=
  bytes 4 (c.version ||| v2Bit).toNat ++ c.prevHash.val ++ c.merkleRoot.val ++ bytes 4 c.timeOnWire.toNat ++
    bytes 4 c.nbits.toNat ++ nonce.val ++ ntime.val.drop 4 ++ List.replicate 4 0 ++
    extranonce.val ++ ntime.val.take 4 ++
    bytes 2 c.txcount.toUInt16.toNat ++ [c.flags] ++ [c.xorClearBits] ++
      c.xorKey.val ++ bytes 4 c.height.toNat ++ c.rhs.val

end Work

section Targets

/-- The target of a power-of-two difficulty, none past the top. -/
def shareTargetLe (pot : UInt8) : Option Hash :=
  if within : pot < 224 then
    some ⟨shr (List.replicate 28 0xff ++ List.replicate 4 0) pot.toNat, by
      have bound : pot.toNat < 224 := UInt8.lt_iff_toNat_lt.mp within
      rw [length_shr] <;> simp
      omega⟩
  else none

def Fixed.set (s : Fixed n) (i : Nat) (b : UInt8) : Fixed n := ⟨s.val.set i b, by simp [s.property]⟩

/-- The target of a compact difficulty, none where it is negative, zero or does not fit. -/
def nbitsToTargetLe (nbits : UInt32) : Option Hash :=
  let exp := (nbits >>> 24).toNat
  let mant := nbits &&& 0x007fffff
  if nbits &&& 0x00800000 ≠ 0 ∨ mant = 0 then none
  else if exp ≤ 3 then
    let v := mant >>> UInt32.ofNat (8 * (3 - exp))
    some ⟨bytes 4 v.toNat ++ List.replicate 28 0, by simp⟩
  else if 32 < exp then none
  else
    (bytes 3 mant.toNat).zipIdx.foldlM (fun t (byte, i) =>
      let idx := exp - 3 + i
      if idx < 32 then some (t.set idx byte) else if byte ≠ 0 then none else some t) (Fixed.zero 32)

/-- At most the target, from the top byte down. -/
def meetsTarget (hash target : Hash) : Bool := atMost (hash.val.zip target.val).reverse

/-- Meeting a target is being at most that number. -/
theorem meetsTarget_iff {h t : Hash} : meetsTarget h t = true ↔ value h.val ≤ value t.val := by
  have same : h.val.length = t.val.length := h.property.trans t.property.symm
  rw [meetsTarget, atMost_iff, List.map_reverse, List.map_reverse, List.reverse_reverse, List.reverse_reverse,
    List.map_fst_zip (Nat.le_of_eq same), List.map_snd_zip (Nat.le_of_eq same.symm)]

theorem shareTargetLe_eq_some {pot : UInt8} {target : Hash} (found : shareTargetLe pot = some target) :
    pot < 224 ∧ value target.val = (2 ^ 224 - 1) / 2 ^ pot.toNat := by
  unfold shareTargetLe at found
  split at found
  · rename_i within
    cases found
    refine ⟨within, ?_⟩
    rw [value_shr]
    congr 1
  · cases found

/-- There is a target for every difficulty below the top. -/
theorem exists_shareTargetLe {pot : UInt8} (within : pot < 224) :
    ∃ target, shareTargetLe pot = some target := by
  unfold shareTargetLe
  rw [dif_pos within]
  exact ⟨_, rfl⟩

/-- A hash that meets a target meets every easier one. -/
theorem meetsTarget_of_le {h harder easier : Hash} {pot low : UInt8} (least : low ≤ pot)
    (hard : shareTargetLe pot = some harder) (easy : shareTargetLe low = some easier)
    (met : meetsTarget h harder = true) : meetsTarget h easier = true := by
  rw [meetsTarget_iff] at met ⊢
  rw [(shareTargetLe_eq_some hard).2] at met
  rw [(shareTargetLe_eq_some easy).2]
  exact met.trans
    (Nat.div_le_div_left (Nat.pow_le_pow_right (by decide) (UInt8.le_iff_toNat_le.mp least)) (by positivity))

/-- The difficulty of a hash as an exponent: how many zero bits it has on top beyond the first 32. -/
def hashPot (hash : Hash) : Nat := leadingZeros hash.val.reverse - 32

/-- A hash below the top meets the share targets up to its own difficulty. -/
theorem meetsTarget_shareTargetLe_iff {h target : Hash} {pot : UInt8} (found : shareTargetLe pot = some target)
    (below : value h.val < 2 ^ 224) : meetsTarget h target = true ↔ pot.toNat ≤ hashPot h := by
  obtain ⟨within, number⟩ := shareTargetLe_eq_some found
  have bound : pot.toNat < 224 := UInt8.lt_iff_toNat_lt.mp within
  have size : h.val.reverse.length = 32 := by rw [List.length_reverse, h.property]
  have deep := le_leadingZeros_iff (s := h.val.reverse) (k := 32 + pot.toNat) (by rw [size]; omega)
  have split : 2 ^ (8 * 32 - (32 + pot.toNat)) * 2 ^ pot.toNat = 2 ^ 224 := by
    rw [← Nat.pow_add]
    congr 1
    omega
  rw [size, List.reverse_reverse] at deep
  have apart : pot.toNat ≤ hashPot h ↔ 32 + pot.toNat ≤ leadingZeros h.val.reverse := by
    have top := le_leadingZeros_iff (s := h.val.reverse) (k := 32) (by rw [size]; decide)
    rw [size, List.reverse_reverse] at top
    have reached := top.mpr below
    unfold hashPot
    omega
  rw [apart, deep, meetsTarget_iff, number, Nat.le_div_iff_mul_le (by positivity),
    ← Nat.mul_lt_mul_right (Nat.two_pow_pos pot.toNat), split]
  omega

/-- A mantissa that is moved down loses its lowest bytes. -/
theorem value_lowered {mant : UInt32} {exp : Nat} (small : exp ≤ 3) (k : Nat) :
    value (bytes 4 (mant >>> UInt32.ofNat (8 * (3 - exp))).toNat ++ List.replicate k 0) =
      mant.toNat * 256 ^ exp / 256 ^ 3 := by
  have shift : (UInt32.ofNat (8 * (3 - exp))).toNat = 8 * (3 - exp) := by
    rw [UInt32.toNat_ofNat']
    exact Nat.mod_eq_of_lt (by omega)
  have moved : (mant >>> UInt32.ofNat (8 * (3 - exp))).toNat = mant.toNat / 256 ^ (3 - exp) := by
    rw [UInt32.toNat_shiftRight, shift, Nat.mod_eq_of_lt (by omega), Nat.shiftRight_eq_div_pow, Nat.pow_mul]
  have kept : mant.toNat / 256 ^ (3 - exp) < 256 ^ 4 := (Nat.div_le_self _ _).trans_lt mant.toNat_lt
  have width : 256 ^ 3 = 256 ^ (3 - exp) * 256 ^ exp := by
    rw [← Nat.pow_add, Nat.sub_add_cancel small]
  rw [value_append, value_replicate_zero, Nat.mul_zero, Nat.add_zero, value_bytes,
    moved, Nat.mod_eq_of_lt kept, width, Nat.mul_div_mul_right _ _ (by positivity)]

private theorem value_raised {s : Bytes} {lowest : Nat} (blank : ∀ i < s.length, s[i]? = some 0)
    (within : lowest + 3 ≤ s.length) (low middle high : UInt8) :
    value (((s.set lowest low).set (lowest + 1) middle).set (lowest + 2) high) =
      value s + 256 ^ lowest * value [low, middle, high] := by
  rw [value_set, value_set, value_set]
  · simp only [value_cons, value_nil, Nat.pow_add]
    ring
  · exact blank _ (by omega)
  · rw [List.getElem?_set_ne (by omega), blank _ (by omega)]
  · rw [List.getElem?_set_ne (by omega), List.getElem?_set_ne (by omega), blank _ (by omega)]

private theorem foldlM_written {exp : Nat} (fits : exp ≤ 32) (large : 3 < exp) (m : Nat) :
    (bytes 3 m).zipIdx.foldlM (fun t (byte, i) =>
      let idx := exp - 3 + i
      if idx < 32 then some (t.set idx byte) else if byte ≠ 0 then none else some t) (Fixed.zero 32) =
    some
      ((((Fixed.zero 32).set (exp - 3) (UInt8.ofNat m)).set (exp - 3 + 1) (UInt8.ofNat (m / 256))).set
        (exp - 3 + 2)
      (UInt8.ofNat (m / 256 / 256))) := by
  have inside : exp - 3 < 32 ∧ exp - 3 + 1 < 32 ∧ exp - 3 + 2 < 32 := by omega
  simp only [bytes, List.zipIdx_cons, List.zipIdx_nil, List.foldlM_cons,
    List.foldlM_nil, Nat.add_zero, Nat.zero_add, inside, if_true, Option.bind_eq_bind,
    Option.bind_some, Option.pure_def, Nat.reduceAdd]

private theorem value_written {exp m : Nat} (fits : exp ≤ 32) (large : 3 < exp) (narrow : m < 256 ^ 3) :
    value
      ((((Fixed.zero 32).set (exp - 3) (UInt8.ofNat m)).set (exp - 3 + 1) (UInt8.ofNat (m / 256))).set
        (exp - 3 + 2)
      (UInt8.ofNat (m / 256 / 256))).val = m * 256 ^ exp / 256 ^ 3 := by
  have size := (Fixed.zero 32).property
  have blank : ∀ i < (Fixed.zero 32).val.length, (Fixed.zero 32).val[i]? = some 0 := fun i within => by
    rw [size] at within
    simp only [Fixed.zero, List.getElem?_replicate, within, if_true]
  have zero : value (Fixed.zero 32).val = 0 := value_replicate_zero 32
  have parts : value [UInt8.ofNat m, UInt8.ofNat (m / 256), UInt8.ofNat (m / 256 / 256)] = m :=
    (value_bytes 3 m).trans (Nat.mod_eq_of_lt narrow)
  have wide : m * 256 ^ exp / 256 ^ 3 = 256 ^ (exp - 3) * m := by
    rw [show 256 ^ exp = 256 ^ (exp - 3) * 256 ^ 3 by rw [← Nat.pow_add, Nat.sub_add_cancel (by omega)],
      ← Nat.mul_assoc, Nat.mul_div_cancel _ (by decide), Nat.mul_comm]
  have raised := @value_raised _ (exp - 3) blank (by rw [size]; omega) (UInt8.ofNat m) (UInt8.ofNat (m / 256))
    (UInt8.ofNat (m / 256 / 256))
  rw [zero, Nat.zero_add, parts, ← wide] at raised
  exact raised

/-- The number a compact target stands for, its exponent being one that fits. -/
theorem nbitsToTargetLe_value {nbits : UInt32} (fits : (nbits >>> 24).toNat ≤ 32)
    (nonneg : ¬ (nbits &&& 0x00800000 ≠ 0 ∨ nbits &&& 0x007fffff = 0)) :
    ∃ t, nbitsToTargetLe nbits = some t ∧
      value t.val = (nbits &&& 0x007fffff).toNat * 256 ^ (nbits >>> 24).toNat / 256 ^ 3 := by
  by_cases small : (nbits >>> 24).toNat ≤ 3
  · refine ⟨⟨_, ?_⟩, ?_, @value_lowered (nbits &&& 0x007fffff) _ small 28⟩
    · simp
    · simp only [nbitsToTargetLe, if_neg nonneg, if_pos small]
  · have large := Nat.not_le.mp small
    have narrow : (nbits &&& 0x007fffff).toNat < 256 ^ 3 := by
      rw [UInt32.toNat_and]
      exact (Nat.and_lt_two_pow _ (show (0x007fffff : UInt32).toNat < 2 ^ 23 by decide)).trans (by decide)
    refine ⟨_, ?_, value_written fits large narrow⟩
    simp only [nbitsToTargetLe, if_neg nonneg, if_neg small, if_neg (Nat.not_lt.mpr fits)]
    exact foldlM_written fits large _

/-- A compact target with an exponent that fits is none where it is negative or zero. -/
theorem nbitsToTargetLe_eq_none {nbits : UInt32} (fits : (nbits >>> 24).toNat ≤ 32) :
    nbitsToTargetLe nbits = none ↔ nbits &&& 0x00800000 ≠ 0 ∨ nbits &&& 0x007fffff = 0 := by
  constructor
  · intro none
    by_contra nonneg
    obtain ⟨t, found, -⟩ := nbitsToTargetLe_value fits nonneg
    rw [none] at found
    cases found
  · intro negative
    unfold nbitsToTargetLe
    dsimp only
    rw [if_pos negative]

end Targets

end Lazarus.Wire
