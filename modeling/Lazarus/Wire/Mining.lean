import Lazarus.Lib.Machine
import Lazarus.Wire.Pow

/-! What a gateway sends with a share: the job, one of its coinbases, and the fields that were
ground. -/

namespace Lazarus.Wire

open Machine

/-- Why a share or a section is refused. -/
inductive Reject where
  | badJobId
  | badCoinbaseId
  | badTarget
  | coinbaseTooLarge
  | coinbaseMissing
  | highHash
  | badNtime
  | badVersion
  | badCoinbase
  | badCoinbaseOutputs
deriving DecidableEq

/-- The number a gateway is told. -/
def Reject.code : Reject → Nat
  | badJobId => 10
  | badCoinbaseId => 11
  | badTarget => 13
  | coinbaseTooLarge => 17
  | coinbaseMissing => 18
  | highHash => 21
  | badNtime => 23
  | badVersion => 24
  | badCoinbase => 26
  | badCoinbaseOutputs => 27

/-- A job, as its gateway describes it. `targetByteIndex` is where the claimed difficulty is written
into the assembled coinbase. -/
structure JobSection where
  prevHash : Hash
  targetByteIndex : UInt16
  nbits : Fixed 4
  coinbaserId : UInt8 := 0
  height : UInt32
  coinbaseValue : UInt64 := 0
  txnCount : UInt32
  txnTotalWeight : UInt32 := 0
  txnTotalSize : UInt32 := 0
  txnTotalSigops : UInt32 := 0
  merkleBranches : List Hash := []
deriving DecidableEq

def JobSection.nbitsU32 (j : JobSection) : UInt32 := UInt32.ofNat (LittleEndian.value j.nbits.val)

/-- One of the coinbases of a job, in two pieces. -/
structure CoinbaseSection where
  coinbaseId : UInt8
  coinb1 : Bytes
  coinb2 : Bytes
deriving DecidableEq

/-- The fields the hardware returns. -/
structure Blake2bSection where
  ntime : Fixed 8
  nonce : Fixed 8
deriving DecidableEq

structure PowSubmit where
  coinbaseId : UInt8
  flags : UInt8
  targetPot : UInt8
  version : UInt32
  extranonce : Fixed 12
  reserved : Fixed 4 := Fixed.zero 4
  blake2b : Option Blake2bSection := none
  timeOnWire : Option UInt32 := none
  job : Option JobSection := none
  coinbase : Option CoinbaseSection := none
deriving DecidableEq

namespace PowSubmit

def flagSubsidyOnly : UInt8 := 0x02

def flagBlake2b : UInt8 := 0x08

def reservedUseTimeOffset : UInt8 := 0x01

def subsidyOnly (s : PowSubmit) : Bool := s.flags &&& flagSubsidyOnly != 0

/-- One lineage of gateways sets the flag, another sends only the section. -/
def isBlake2b (s : PowSubmit) : Bool := s.flags &&& flagBlake2b != 0 || s.blake2b.isSome

def useTimeOffset (s : PowSubmit) : Bool := s.reserved.val.headD 0 &&& reservedUseTimeOffset != 0

/-- The work a share claims, in difficulty-one units. -/
def claimedWork (s : PowSubmit) : Nat := if 64 ≤ s.targetPot then u64Max else 2 ^ s.targetPot.toNat

end PowSubmit

end Lazarus.Wire
