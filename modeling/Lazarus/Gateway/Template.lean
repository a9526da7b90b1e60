import Lazarus.Gateway.Block
import Lazarus.Primed.Tip

/-! Block templates of the node, the jobs a gateway makes of them, and the block it assembles from a job. -/

namespace Lazarus.Gateway

open Machine LittleEndian
open Wire (Fixed Hash Hashes)
open Primed (hexDecode)

/-- What the node answers. A number is known where it is an unsigned 64-bit value. -/
inductive Json where
  | null
  | bool (b : Bool)
  | number (n : Option UInt64)
  | string (s : String)
  | array (items : List Json)
  | object (fields : List (String × Json))

namespace Json

def get (v : Json) (key : String) : Option Json :=
  match v with
  | object fields => fields.lookup key
  | _ => none

def asStr : Json → Option String
  | string s => some s
  | _ => none

def asU64 : Json → Option UInt64
  | number n => n
  | _ => none

def asArray : Json → Option (List Json)
  | array items => some items
  | _ => none

/-- The bytes of a field of hex digits. -/
def hexField (v : Json) (key : String) : Option Wire.Bytes := do hexDecode (← (← v.get key).asStr).toList

end Json

section Fields

theorem length_reverse_eq {b : Wire.Bytes} (size : b.length = 32) : b.reverse.length = 32 :=
  List.length_reverse.trans size

def hash32Rev (h : String) : Option Hash := do
  let b ← hexDecode h.toList
  if size : b.length = 32 then some ⟨b.reverse, length_reverse_eq size⟩ else none

def hexRev (h : String) : Option Hash := hash32Rev h

def bitsLe (h : String) : Option (Fixed 4) := do
  let v ← hexDecode h.toList
  if size : v.length = 4 then some ⟨v.reverse, by simp [size]⟩ else none

/-- One transaction of a template. -/
structure TemplateTx where
  txid : Hash
  wtxid : Hash
  raw : Wire.Bytes
  weight : Nat
  fee : Nat

/-- A transaction is passed over where its id or its bytes cannot be read. -/
def readTx (tx : Json) : Option TemplateTx := do
  let txid ← hash32Rev (← (← (tx.get "txid").or (tx.get "hash")).asStr)
  let wtxid := (do hash32Rev (← (← tx.get "hash").asStr)).getD txid
  let raw ← tx.hexField "data"
  return {
    txid, wtxid, raw
    weight := (((tx.get "weight").bind Json.asU64).getD 0).toNat
    fee := (((tx.get "fee").bind Json.asU64).getD 0).toNat }

end Fields

/-- What is taken for the header and the transaction count. -/
def blockOverheadWeight : Nat := 4 * 80 + 4 * 9

/-- The output that commits to the witness ids, the coinbase's own taken as zero, with a zero nonce. -/
def witnessCommitmentScript (H : Hashes) (wtxids : List Hash) : Wire.Bytes :=
  let root := merkleRootFromTxids H (Fixed.zero 32 :: wtxids)
  let commit := sha256d H (root.val ++ List.replicate 32 0)
  [0x6a, 0x24, 0xaa, 0x21, 0xa9, 0xed] ++ commit.val

/-- The session's extranonce and the empty slot after it. -/
def coinbaseExtra (extra1 : Fixed 4) : Wire.Bytes := extra1.val ++ List.replicate 8 0

/-- What the coinbase of a split would weigh. -/
def coinbaseWeight (height : UInt32) (tag : String) (extra1 : Fixed 4)
    (cb : CoinbaserV2) (hasWitnessCommit : Bool) : Nat :=
  let wit := if hasWitnessCommit then some (List.replicate 38 0) else none
  3 * (coinbaseLegacy height tag (coinbaseExtra extra1) cb wit).length +
    (coinbaseWitness height tag (coinbaseExtra extra1) cb wit).length

section Trim

/-- The parallel lists of a template's transactions, and what they come to. -/
structure Kept where
  merkle : List Hash
  wtxids : List Hash
  txHexes : List Wire.Bytes
  weights : List Nat
  fees : List Nat
  txWeight : Nat
  value : Nat
  trimmedTxs : Nat := 0
  trimmedFees : Nat := 0

namespace Kept

/-- All of a template's transactions. -/
def all (entries : List TemplateTx) (value : Nat) : Kept where
  merkle := entries.map TemplateTx.txid
  wtxids := entries.map TemplateTx.wtxid
  txHexes := entries.map TemplateTx.raw
  weights := entries.map TemplateTx.weight
  fees := entries.map TemplateTx.fee
  txWeight := asU64 (entries.map TemplateTx.weight).sum
  value

/-- The last transaction goes, and its fee with it. -/
def dropTail (s : Kept) : Kept :=
  let w := s.weights.getLast?.getD 0
  let f := s.fees.getLast?.getD 0
  { merkle := s.merkle.dropLast
    wtxids := s.wtxids.dropLast
    txHexes := s.txHexes.dropLast
    weights := s.weights.dropLast
    fees := s.fees.dropLast
    txWeight := asU64 (s.txWeight + 2 ^ 64 - w)
    value := s.value - f
    trimmedTxs := s.trimmedTxs + 1
    trimmedFees := satAdd s.trimmedFees f }

/-- Transactions go from the tail until the rest fits. -/
def trimTo (budget : Nat) : Nat → Kept → Kept
  | 0, s => s
  | more + 1, s => if budget < s.txWeight ∧ s.merkle ≠ [] then trimTo budget more s.dropTail else s

end Kept

/-- The node's commitment is the one that is derived from its transactions; where it gave none, none
of them has a witness. -/
def commitOk (H : Hashes) (wit : Option Wire.Bytes) (s : Kept) : Bool :=
  match wit with
  | some theirs => theirs == witnessCommitmentScript H s.wtxids
  | none => (s.wtxids.zip s.merkle).all fun (w, t) => w == t

/-- Room for the coinbase: what is kept of the transactions, and the commitment to it. -/
def makeRoom (H : Hashes) (weightlimit : Option Nat) (coinbaseReserve : Nat)
    (s : Kept) (wit : Option Wire.Bytes) : Kept × Option Wire.Bytes :=
  match weightlimit with
  | none => (s, wit)
  | some limit =>
    let budget := limit - asU64 (blockOverheadWeight + coinbaseReserve)
    if budget < s.txWeight ∧ commitOk H wit s then
      let kept := s.trimTo budget s.merkle.length
      (kept, wit.map fun _ => witnessCommitmentScript H kept.wtxids)
    else (s, wit)

end Trim

structure Template where
  height : UInt32
  value : Nat
  prevNotify : Hash
  nbits : Fixed 4
  version : Int32
  curtime : UInt32
  branches : List Hash
  txids : List Hash
  txHexes : List Wire.Bytes
  txnCount : UInt32
  witnessCommit : Option Wire.Bytes
  tag : String
  weightlimit : Option Nat
  txWeight : Nat
  trimmedTxs : Nat
  trimmedFees : Nat
  prevBlock : Hash

/-- A template whose transactions cannot all be read is refused. -/
def buildTemplate (H : Hashes) (tpl : Json) (tag : String) (coinbaseReserve : Nat) : Option Template := do
  let prev ← hexRev (← (← tpl.get "previousblockhash").asStr)
  let bits ← bitsLe (← (← tpl.get "bits").asStr)
  let height ← (← tpl.get "height").asU64
  let value ← (← tpl.get "coinbasevalue").asU64
  let curtime ← (← tpl.get "curtime").asU64
  let version ← (← tpl.get "version").asU64
  let txs ← (← tpl.get "transactions").asArray
  let entries := txs.filterMap readTx
  if entries.length ≠ txs.length ∨ 65535 < txs.length + 1 then none
  else
    let weightlimit := ((tpl.get "weightlimit").bind Json.asU64).map UInt64.toNat
    let (kept, wit) :=
      makeRoom H weightlimit coinbaseReserve (Kept.all entries value.toNat)
        (tpl.hexField "default_witness_commitment")
    return {
      height := height.toUInt32
      value := kept.value
      prevNotify := prevblockHidden H prev
      nbits := bits
      version := version.toUInt32.toInt32
      curtime := curtime.toUInt32
      branches := merkleBranchesForCoinbase H kept.merkle
      txids := kept.merkle
      txHexes := kept.txHexes
      txnCount := UInt32.ofNat kept.merkle.length + 1
      witnessCommit := wit
      tag
      weightlimit
      txWeight := kept.txWeight
      trimmedTxs := kept.trimmedTxs
      trimmedFees := kept.trimmedFees
      prevBlock := prev }

/-- A template and a coinbase: what a miner is handed. -/
structure Job where
  id : String
  tpl : Template
  header : HeaderV2
  coinb1 : Wire.Bytes
  cb : CoinbaserV2
  jobId : UInt8
  who : Option String

/-- The lowest hex digits of a number, highest first. -/
def hexDigits (width n : Nat) : String :=
  String.ofList ((List.range width).reverse.map fun i => Nat.digitChar (n / 16 ^ i % 16))

def jobIdStr (extra1 : Fixed 4) (seq : Nat) : String :=
  hexDigits 4 (value (extra1.val.take 2)) ++ hexDigits 8 (seq % 2 ^ 32)

/-- The weight that is held to the limit, by the gateway's own count. -/
def jobWeight (tpl : Template) (extra1 : Fixed 4) (cb : CoinbaserV2) : Nat :=
  asU64 (4 * 80 + 4 * 9 +
    (3 * (coinbaseLegacy tpl.height tpl.tag (coinbaseExtra extra1) cb tpl.witnessCommit).length +
      (coinbaseWitness tpl.height tpl.tag (coinbaseExtra extra1) cb tpl.witnessCommit).length) + tpl.txWeight)

def coinbaseJob (H : Hashes) (tpl : Template) (extra1 : Fixed 4) (cb : CoinbaserV2) (jobId : UInt8) (seq : Nat)
    (who : Option String) : Option Job :=
  let cbleg := coinbaseLegacy tpl.height tpl.tag (coinbaseExtra extra1) cb tpl.witnessCommit
  if tpl.weightlimit.any fun limit => limit < jobWeight tpl extra1 cb then none
  else
    some {
      id := jobIdStr extra1 seq
      tpl
      header := {
        version := tpl.version
        prevBlock := tpl.prevBlock
        time := tpl.curtime
        bits := UInt32.ofNat (value tpl.nbits.val)
        height := tpl.height.toInt32
        txcount := tpl.txnCount.toUInt16
        merkleRoot := merkleRootSha256d H cbleg tpl.txids
        extranonce := headerExtranonce extra1.val }
      coinb1 := cbleg
      cb, jobId, who }

/-- The block of a job under any header. -/
def assembleBlock (extra1 : Fixed 4) (j : Job) (hdr : HeaderV2) : Wire.Bytes :=
  hdr.serialize.val ++ compact (1 + j.tpl.txHexes.length) ++
    coinbaseWitness j.tpl.height j.tpl.tag (coinbaseExtra extra1) j.cb j.tpl.witnessCommit ++
    j.tpl.txHexes.flatten

section Published

/-- A split that is worth more than what the template has left is scaled down to it. -/
def CoinbaserV2.fit (cb : CoinbaserV2) (value : Nat) : CoinbaserV2 :=
  if value < cb.valueSum then cb.scaleTo value else cb

/-- The job of the pool for a template: the template makes room for the split, and the
split follows its value. -/
def pooledJob (H : Hashes) (tpl : Json) (tag : String) (extra1 : Fixed 4)
    (coinbaseReserve : Nat) (cb : CoinbaserV2) (jobId : UInt8) (seq : Nat) : Option Job := do
  let t ← buildTemplate H tpl tag coinbaseReserve
  coinbaseJob H t extra1 (cb.fit t.value) jobId seq none

/-- Rounds down. -/
def feeFor (value bps : Nat) : Nat := asU64 (value * bps / 10000)

/-- A miner that mines alone takes all but the fee. -/
def soloSplit (value : Nat) (minerScript feeScript : Wire.Bytes) (feeBps : Nat)
    (id : UInt8) : Option CoinbaserV2 :=
  let fee := feeFor value feeBps
  if value < fee then none
  else
    let mine := value - fee
    if mine = 0 ∨ fee = 0 ∨ minerScript.length < 2 ∨ feeScript.length < 2 then none
    else if 64 < minerScript.length ∨ 64 < feeScript.length then none
    else
      let cb : CoinbaserV2 := { id, outputs := [⟨mine, minerScript⟩, ⟨fee, feeScript⟩] }
      if cb.valueSum ≠ value then none else some cb

/-- The job of a miner that mines alone, on the template that is out. -/
def soloJobFor (H : Hashes) (tpl : Template) (extra1 : Fixed 4) (ident : String) (script feeScript : Wire.Bytes)
    (feeBps seq : Nat) : Option Job := do
  let slot := UInt8.ofNat (seq % 255) + 1
  let cb ← soloSplit tpl.value script feeScript feeBps slot
  coinbaseJob H tpl extra1 cb slot seq (some ident)

end Published

end Lazarus.Gateway
