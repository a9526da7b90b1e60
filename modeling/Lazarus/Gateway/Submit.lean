import Lazarus.Gateway.Template
import Lazarus.Gateway.Vardiff
import Lazarus.Lib.Utf8
import Lazarus.Wire.Mining

/-! What a gateway makes of a miner's submission: the header the miner ground, the difficulty it is judged at,
and the share that is sent to Prime. -/

namespace Lazarus.Gateway

open LittleEndian
open Wire (Fixed Bytes JobSection CoinbaseSection)

def maxUser : Nat := 128

/-- Printable, no blank, and not too long. -/
def cleanUser (u : String) : Bool :=
  !(Utf8.bytes u).isEmpty && (Utf8.bytes u).length ≤ maxUser && (Utf8.bytes u).all fun b => 0x21 ≤ b && b < 0x7f

namespace Job

/-- The header that was ground: the job's, with the fields the miner rolls. -/
def submitted (j : Job) (sessEn1 : Fixed 4) (en2 siaT siaN : Fixed 8) : HeaderV2 :=
  { j.header with
    nonce := UInt32.ofNat (value (siaN.val.take 4))
    nonce2 := UInt32.ofNat (value (siaN.val.drop 4))
    extranonce := headerExtranonce (sessEn1.val ++ en2.val)
    timeOffset := UInt32.ofNat (value (siaT.val.take 4))
    nonce3 := UInt32.ofNat (value (siaT.val.drop 4)) }

end Job

def subShare : UInt8 := 0x27

def structEnd : UInt8 := 0xfe

structure Blake2bSection where
  siaNtime : Fixed 8
  siaNonce : Fixed 8
  timeOnWire : UInt32

/-- A share as the gateway sends it. Its job and coinbase sections have the fields Prime's have. -/
structure PowSubmit where
  jobId : UInt8
  coinbaseId : UInt8
  isBlock : Bool
  subsidyOnly : Bool
  quickdiff : Bool
  targetByte : UInt8
  ntime : UInt32
  nonce : UInt32
  version : UInt32
  extranonce : Bytes
  username : String
  useTimeOffset : Bool
  job : Option JobSection
  coinbase : Option CoinbaseSection
  blake2b : Option Blake2bSection

namespace PowSubmit

def encodeJob (j : JobSection) : Bytes :=
  0x01 :: j.prevHash.val ++ bytes 2 j.targetByteIndex.toNat ++ j.nbits.val ++
    [j.coinbaserId] ++ bytes 4 j.height.toNat ++ bytes 8 j.coinbaseValue.toNat ++
    bytes 4 j.txnCount.toNat ++ bytes 4 j.txnTotalWeight.toNat ++
    bytes 4 j.txnTotalSize.toNat ++ bytes 4 j.txnTotalSigops.toNat ++ [UInt8.ofNat j.merkleBranches.length] ++
    j.merkleBranches.flatMap Subtype.val

def encodeCoinbase (c : CoinbaseSection) : Bytes :=
  0x02 :: c.coinbaseId :: bytes 2 c.coinb1.length ++ bytes 2 c.coinb2.length ++ c.coinb1 ++ c.coinb2

def encodeBlake2b (b : Blake2bSection) : Bytes :=
  0x03 :: 0x01 :: b.siaNtime.val ++ b.siaNonce.val ++ 0x04 :: bytes 4 b.timeOnWire.toNat

def flags (s : PowSubmit) : UInt8 :=
  (if s.isBlock then 1 else 0) ||| (if s.subsidyOnly then 2 else 0) ||| if s.quickdiff then 4 else 0

def encode (s : PowSubmit) : Bytes :=
  subShare :: s.jobId :: s.coinbaseId :: s.flags :: s.targetByte :: bytes 4 s.ntime.toNat ++
    bytes 4 s.nonce.toNat ++ bytes 4 s.version.toNat ++
    12 :: (s.extranonce.take 12 ++ List.replicate (12 - s.extranonce.length) 0) ++
    Utf8.bytes s.username ++ 0 :: (if s.useTimeOffset then 1 else 0) :: [0, 0, 0] ++ s.job.elim [] encodeJob ++
    s.coinbase.elim [] encodeCoinbase ++ s.blake2b.elim [] encodeBlake2b ++ [structEnd]

end PowSubmit

/-- The share for Prime. -/
def Job.submit (j : Job) (sessEn1 : Fixed 4) (en2 siaT siaN : Fixed 8)
    (acceptDiff : Nat) (user : String) : PowSubmit where
  jobId := j.jobId
  coinbaseId := j.cb.id
  isBlock := false
  subsidyOnly := false
  quickdiff := false
  targetByte := sharePot acceptDiff
  ntime := j.header.time
  nonce := (j.submitted sessEn1 en2 siaT siaN).nonce
  version := j.header.version.toUInt32
  extranonce := sessEn1.val ++ en2.val
  username := user
  useTimeOffset := false
  job := some {
    prevHash := j.header.prevBlock
    targetByteIndex := 0
    nbits := j.tpl.nbits
    coinbaserId := j.cb.id
    height := j.tpl.height
    coinbaseValue := UInt64.ofNat j.tpl.value
    txnCount := j.tpl.txnCount
    merkleBranches := j.tpl.branches }
  coinbase := some { coinbaseId := j.cb.id, coinb1 := j.coinb1, coinb2 := [] }
  blake2b := some { siaNtime := siaT, siaNonce := siaN, timeOnWire := j.header.time }

end Lazarus.Gateway
