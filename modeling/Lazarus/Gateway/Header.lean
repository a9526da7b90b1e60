import Lazarus.Lib.BigEndian
import Lazarus.Lib.Merkle
import Lazarus.Wire.Pow

/-! The header of this chain as a gateway hashes it, the targets it holds a hash to, and the merkle root. A hash
and a target have their highest byte first here. -/

namespace Lazarus.Gateway

open LittleEndian
open Wire (Fixed Hash Hashes)

section Digests

def taggedSha256 (H : Hashes) (tag : String) (data : Wire.Bytes) : Hash :=
  let t := H.sha256 tag.toUTF8.data.toList
  H.sha256 (t.val ++ t.val ++ data)

def prevblockHidden (H : Hashes) (prevBlock : Hash) : Hash :=
  let out := taggedSha256 H "Bitcoin prevblock header, hashed" prevBlock.val.reverse
  ⟨List.replicate 6 0 ++ out.val.drop 6, by simp [out.property]⟩

/-- A zero key masks nothing. -/
def xorMask (H : Hashes) (xorKey : Fixed 16) (clearBits : UInt8) : Hash :=
  if xorKey.val.all (· == 0) then Fixed.zero 32
  else
    let m := taggedSha256 H "Bitcoin block hash PoW XOR mask" xorKey.val
    let clearBytes := clearBits.toNat / 8
    ⟨m.val.mapIdx fun i b =>
      if i < clearBytes then 0 else if i = clearBytes then b &&& 0xff >>> (clearBits % 8) else b, by
        simp [m.property]⟩

def sha256d (H : Hashes) (data : Wire.Bytes) : Hash := H.sha256 (H.sha256 data).val

end Digests

section Targets

/-- The target of a compact difficulty. Its sign is not looked at. -/
def bitsToTarget (bits : UInt32) : Option Hash :=
  let exp := (bits >>> 24).toNat
  let mant := bits &&& 0x00ffffff
  if mant = 0 ∨ 32 < exp then none
  else if within : 3 ≤ exp then
    if fits : 32 - exp + 3 ≤ 32 then
      some ⟨List.replicate (32 - exp) 0 ++ (bytes 3 mant.toNat).reverse ++
        List.replicate (32 - (32 - exp + 3)) 0, by
        simp only [List.length_append, List.length_replicate, List.length_reverse, length_bytes]
        omega⟩
    else none
  else
    let w := mant >>> UInt32.ofNat (8 * (3 - exp))
    some ⟨List.replicate 29 0 ++ (bytes 3 w.toNat).reverse, by simp⟩

/-- The target of a power-of-two difficulty, zero past the top. -/
def targetForPot (pot : UInt8) : Hash :=
  let bits := 32 + pot.toNat
  if past : 256 ≤ bits then Fixed.zero 32
  else ⟨BigEndian.shrInPlace (List.replicate 32 0xff) bits, by
    rw [BigEndian.length_shrInPlace] <;> simp
    omega⟩

def meetsTarget (hash target : Hash) : Bool := hash.val ≤ target.val

end Targets

structure HeaderV2 where
  version : Int32 := 0
  prevBlock : Hash := Fixed.zero 32
  merkleRoot : Hash := Fixed.zero 32
  time : UInt32 := 0
  bits : UInt32 := 0
  nonce : UInt32 := 0
  nonce2 : UInt32 := 0
  nonce3 : UInt32 := 0
  extranonce : Fixed 16 := Fixed.zero 16
  timeOffset : UInt32 := 0
  txcount : UInt16 := 0
  flags : UInt8 := 0
  xorKeyMaskClearBits : UInt8 := 0
  xorKey : Fixed 16 := Fixed.zero 16
  height : Int32 := 0
  mmRhs : Hash := Fixed.zero 32
deriving DecidableEq

def v2Flag : UInt32 := 0x80000000

def flagUseTimeOffset : UInt8 := 4

/-- The second pass: the 80 bytes that are ground on. -/
def asicHash (H : Hashes) (prevHidden hash1 : Hash) (nonce nonce2 timeOffset nonce3 : UInt32) : Hash :=
  H.blake2b256 (prevHidden.val ++ bytes 4 nonce.toNat ++ bytes 4 nonce2.toNat ++ bytes 4 timeOffset.toNat ++
    bytes 4 nonce3.toNat ++ hash1.val)

/-- A miner's twelve bytes, after the four that pad the first piece of its coinbase. -/
def headerExtranonce (en12 : Wire.Bytes) : Fixed 16 :=
  ⟨List.replicate 4 0 ++ (en12.take 12 ++ List.replicate (12 - en12.length) 0), by
    simp only [List.length_append, List.length_replicate, List.length_take]
    omega⟩

namespace HeaderV2

def timeOnWire (h : HeaderV2) : UInt32 :=
  if h.flags &&& flagUseTimeOffset = 0 then h.time else h.time - h.timeOffset

/-- The commitment to every field above the coinbase. -/
def h2 (H : Hashes) (h : HeaderV2) : Hash :=
  let xorKeyHash := taggedSha256 H "Bitcoin block hash PoW XOR key" h.xorKey.val
  let h1d := bytes 4 (h.version.toUInt32 ||| v2Flag).toNat ++ h.prevBlock.val.reverse ++
    bytes 4 h.height.toUInt32.toNat ++ h.merkleRoot.val ++ bytes 4 h.timeOnWire.toNat ++
    [0] ++ bytes 4 h.bits.toNat ++
    bytes 4 h.txcount.toUInt32.toNat ++ [h.flags] ++ [h.xorKeyMaskClearBits] ++ xorKeyHash.val
  let h1 := taggedSha256 H "Bitcoin block header 1" h1d
  taggedSha256 H "Merge-mining hook" (h1.val ++ List.replicate 32 0 ++ h.mmRhs.val)

/-- The first pass: everything that is fixed while a miner iterates. -/
def hash1 (H : Hashes) (h : HeaderV2) : Hash :=
  H.blake2b256 (List.replicate 4 0 ++ (h.h2 H).val ++ h.extranonce.val)

def powHash (H : Hashes) (h : HeaderV2) : Hash :=
  let hash2 := asicHash H (prevblockHidden H h.prevBlock) (h.hash1 H) h.nonce h.nonce2 h.timeOffset h.nonce3
  let mask := xorMask H h.xorKey h.xorKeyMaskClearBits
  ⟨List.zipWith (· ^^^ ·) hash2.val mask.val, by simp [hash2.property, mask.property]⟩

/-- The header as it goes into a block. -/
def serialize (h : HeaderV2) : Fixed 164 :=
  ⟨bytes 4 (h.version.toUInt32 ||| v2Flag).toNat ++ h.prevBlock.val ++
    h.merkleRoot.val ++ bytes 4 h.timeOnWire.toNat ++
    bytes 4 h.bits.toNat ++ bytes 4 h.nonce.toNat ++ bytes 4 h.nonce2.toNat ++ bytes 4 h.nonce3.toNat ++
    h.extranonce.val ++ bytes 4 h.timeOffset.toNat ++ bytes 2 h.txcount.toNat ++
      [h.flags] ++ [h.xorKeyMaskClearBits] ++
    h.xorKey.val ++ bytes 4 h.height.toUInt32.toNat ++ h.mmRhs.val, by
    simp [h.prevBlock.property, h.merkleRoot.property, h.extranonce.property,
      h.xorKey.property, h.mmRhs.property]⟩

end HeaderV2

section Merkle

def hashPair (H : Hashes) (left right : Hash) : Hash := sha256d H (left.val ++ right.val)

def merkleRootFromTxids (H : Hashes) (txids : List Hash) : Hash :=
  if txids.isEmpty then Fixed.zero 32 else (Merkle.climb (hashPair H) txids.length txids).headD (Fixed.zero 32)

def merkleRootSha256d (H : Hashes) (coinbaseTx : Wire.Bytes) (txids : List Hash) : Hash :=
  merkleRootFromTxids H (sha256d H coinbaseTx :: txids)

/-- What a coinbase is folded through. Its own leaf is never read on the way. -/
def merkleBranchesForCoinbase (H : Hashes) (txids : List Hash) : List Hash :=
  Merkle.siblings (hashPair H) (txids.length + 1) (Fixed.zero 32 :: txids)

def foldBranches (H : Hashes) (leaf : Hash) (branches : List Hash) : Hash := branches.foldl (hashPair H) leaf

/-- The root that is computed is the root of the tree. -/
theorem merkleRootFromTxids_root (H : Hashes) {txids : List Hash} (some : txids ≠ []) :
    Merkle.Root (hashPair H) txids (merkleRootFromTxids H txids) := by
  obtain ⟨root, climbed, found⟩ := Merkle.climb_root (hashPair H) some (Nat.le_succ txids.length)
  rw [merkleRootFromTxids, if_neg (by simpa using some), climbed]
  exact found

/-- The branches lead a coinbase to the root. -/
theorem foldBranches_root (H : Hashes) (coinbaseTx : Wire.Bytes) (txids : List Hash) :
    foldBranches H (sha256d H coinbaseTx) (merkleBranchesForCoinbase H txids) =
      merkleRootSha256d H coinbaseTx txids := by
  rw [merkleRootSha256d, merkleRootFromTxids, if_neg (by simp),
    Merkle.foldl_siblings (hashPair H) (sha256d H coinbaseTx) (Fixed.zero 32)
      (List.length_cons ▸ Nat.le_succ txids.length)]
  rfl

/-- **The branches rebuild the block's root** from any coinbase, on the gateway's side and on Prime's. They are
the siblings on the way from the first leaf whatever that leaf is, one for each level. -/
theorem branches_rebuild_root (H : Hashes) (txids : List Hash) :
    (∀ coinbaseTx, foldBranches H (sha256d H coinbaseTx) (merkleBranchesForCoinbase H txids) =
      merkleRootSha256d H coinbaseTx txids) ∧
    (∀ coinbaseTx, H.merkleRoot (H.sha256d coinbaseTx) (merkleBranchesForCoinbase H txids) =
      merkleRootSha256d H coinbaseTx txids) ∧
    (∀ leaf, Merkle.siblings (hashPair H) (txids.length + 1) (leaf :: txids) =
      merkleBranchesForCoinbase H txids) ∧
    (merkleBranchesForCoinbase H txids).length = Nat.clog 2 (txids.length + 1) := by
  refine ⟨fun coinbaseTx => foldBranches_root H coinbaseTx txids, fun coinbaseTx => ?_, fun leaf => ?_, ?_⟩
  · -- Prime folds by the same step
    exact foldBranches_root H coinbaseTx txids
  · exact Merkle.siblings_other (hashPair H) leaf (Fixed.zero 32) txids (txids.length + 1)
  · have enough : (Fixed.zero 32 :: txids).length ≤ txids.length + 1 + 1 := Nat.le_succ _
    exact Merkle.length_siblings (hashPair H) enough

end Merkle

end Lazarus.Gateway
