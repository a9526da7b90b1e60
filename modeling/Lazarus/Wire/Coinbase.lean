import Lazarus.Lib.Machine
import Lazarus.Wire.Cursor

/-! The coinbase transaction of a share: put together from the pieces a gateway sends, and parsed. -/

namespace Lazarus.Wire

open Machine LittleEndian

structure TxOut where
  value : Nat
  script : Bytes
deriving DecidableEq

def TxOut.isOpReturn (o : TxOut) : Bool := o.script.head? == some 0x6a

/-- A coinbase as parsed. `height` is that of the first push of its script, if it decodes. -/
structure Coinbase where
  version : UInt32 := 1
  scriptSig : Bytes := []
  sequence : UInt32 := 0
  outputs : List TxOut
  lockTime : UInt32 := 0
  height : Option UInt32 := none
  outputsAt : Nat := 0
  lockTimeAt : Nat := 0
deriving DecidableEq

namespace Coinbase

/-- Sum of the outputs, stopping at the top: the bytes are the gateway's. -/
def totalOutputValue (cb : Coinbase) : Nat := (cb.outputs.map TxOut.value).foldl satAdd 0

/-- Sum paid to one script, stopping at the top. -/
def paidTo (cb : Coinbase) (script : Bytes) : Nat :=
  ((cb.outputs.filter fun o => o.script == script).map TxOut.value).foldl satAdd 0

end Coinbase

/-- Where a share's coinbase sends the block reward. -/
inductive CoinbaseKind where
  | split
  | partialSplit (present : Nat)
  | poolOnly
  | emptySolo
  | gatewaySolo
  | foreign
deriving DecidableEq

section Assemble

def extranonceSlot : Nat := 12

/-- The form that is taken as it is: all of the coinbase in the first piece, and no target byte. -/
def isWhole (coinb2 : Bytes) (targetByteIndex : Nat) : Bool := coinb2.isEmpty && targetByteIndex == 0

/-- The two pieces around an empty extranonce slot, the claimed difficulty written over one byte. -/
def assemble (coinb1 coinb2 : Bytes) (targetByteIndex : Nat) (targetPot : UInt8) : Bytes :=
  if isWhole coinb2 targetByteIndex then coinb1
  -- `set` past the end changes nothing, as the source's bounds check has it
  else (coinb1 ++ List.replicate extranonceSlot 0 ++ coinb2).set targetByteIndex targetPot

/-- Where the scriptSig starts: after the version, the input count, the outpoint and its own length. -/
def sigAt : Nat := 4 + 1 + 36 + 1

/-- Past one push of a script. -/
def skipPush (sig : Bytes) (i : Nat) : Option Nat := do
  let n ← sig[i]?
  if 0x01 ≤ n ∧ n ≤ 0x4b then some (i + 1 + n.toNat)
  else if n = 0x4c then some (i + 2 + (← sig[i + 1]?).toNat)
  else if n = 0x00 ∨ n = 0x4f ∨ (0x51 ≤ n ∧ n ≤ 0x60) then some (i + 1)
  else none

/-- The scriptSig, where its length is a single byte and all of it is there. -/
def scriptSigOf (legacy : Bytes) : Option Bytes := do
  let len ← legacy[sigAt - 1]?
  if 0xfd ≤ len then none
  else if sigAt + len.toNat ≤ legacy.length then some ((legacy.drop sigAt).take len.toNat)
  else none

/-- Offset of the first data byte of the scriptSig's third push. -/
def targetByteAt (legacy : Bytes) : Option Nat := do
  let sig ← scriptSigOf legacy
  let tag ← skipPush sig 0
  let i ← skipPush sig tag
  let n ← sig[i]?
  if 0x01 ≤ n ∧ n ≤ 0x4b ∧ i + 1 + n.toNat ≤ sig.length then some (sigAt + i + 1) else none

/-- The byte that was written is the one the coinbase's own bytes point to. -/
def commitsTarget (assembled : Bytes) (targetByteIndex : Nat) : Bool :=
  targetByteAt assembled == some targetByteIndex

end Assemble

section Parse

open Cursor

def readVarint : Read Nat := do
  let n ← u8
  if n = 0xfd then return (← u16).toNat
  else if n = 0xfe then return (← u32).toNat
  else if n = 0xff then return (← u64).toNat
  else return n.toNat

def bip34Height (scriptSig : Bytes) : Option UInt32 :=
  match scriptSig with
  | [] => none
  | n :: rest =>
    if 0x51 ≤ n ∧ n ≤ 0x60 then some (n - 0x50).toUInt32
    else if 1 ≤ n ∧ n ≤ 4 then
      if n.toNat ≤ rest.length then some (UInt32.ofNat (value (rest.take n.toNat))) else none
    else none

def readOutputs : Nat → Read (List TxOut)
  | 0 => return []
  | more + 1 => do
    let value ← u64
    let sl ← readVarint
    if 10000 < sl then throw (.malformed "coinbase output script length")
    let script ← take sl
    return ⟨value.toNat, script⟩ :: (← readOutputs more)

def readCoinbase : Read Coinbase := do
  let version ← u32
  if (← readVarint) ≠ 1 then throw (.malformed "coinbase input count")
  let prevout ← take 36
  if prevout.take 32 ≠ List.replicate 32 0 ∨ prevout.drop 32 ≠ List.replicate 4 0xff then
    throw (.malformed "coinbase outpoint")
  let n ← readVarint
  if n < 2 ∨ 100 < n then throw (.malformed "coinbase scriptSig length")
  let scriptSig ← take n
  let sequence ← u32
  let outputsAt := (← get).pos
  let nout ← readVarint
  if nout = 0 ∨ 10000 < nout then throw (.malformed "coinbase output count")
  let outputs ← readOutputs nout
  let lockTimeAt := (← get).pos
  let lockTime ← u32
  if (← get).remaining ≠ 0 then throw (.malformed "coinbase trailing bytes")
  return {
    version, scriptSig, sequence, outputs, lockTime, height := bip34Height scriptSig, outputsAt, lockTimeAt }

/-- Exactly one input that spends the null outpoint, and no byte left over. -/
def parse (bytes : Bytes) : Except Error Coinbase := readCoinbase.run' { buf := bytes }

end Parse

end Lazarus.Wire
