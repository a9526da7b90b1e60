import Lazarus.Lib.Coins

/-! Blocks whose coinbase may pay only who attests to a template, each attestation with a list of transactions
that the block has to include. Validity is a function of the chain and the block. -/

namespace Lazarus.Nta

abbrev Bytes := List UInt8

/-- A transaction's id and the number of one of its outputs. -/
abbrev OutPoint := Bytes × Int

/-- A script and the value paid to it. -/
abbrev Pay := Bytes × Int

def maxIlTxids : Nat := 256

def maxIlWeight : Int := 32000

def maxAttestations : Nat := 512

def maxExtraWeight : Int := 32000

/-- The marker of an output that carries data. -/
def opReturn : Bytes := "OP_RETURN".toUTF8.data.toList

/-- The script anyone can spend. -/
def anyone : Bytes := []

structure Tx where
  txid : Bytes
  spends : List OutPoint
  pays : List Pay
  weight : Int := 0
deriving DecidableEq

/-- What consensus goes by to tell transactions apart. -/
abbrev TxKey := Bytes × List OutPoint × List Pay

structure Attestation where
  script : Bytes
  height : Int
  bitsTarget : Int
  powInt : Int
  extra : Tx
  wtxidTree : Bytes
  il : List Tx
deriving DecidableEq

structure Block where
  height : Int
  bitsTarget : Int
  powInt : Int
  coinbaseOuts : List Pay
  txs : List Tx
  attestations : List Attestation
  weight : Int := 4000

abbrev Utxo := AList fun _ : OutPoint => Pay

structure Chain where
  height : Int := 0
  bitsTarget : Int := 2 ^ 240
  k : Int := 1000
  W : Int := 144
  maxWeight : Int := 4000000
  utxo : Utxo := ∅
  confirmed : Finset TxKey := ∅
  windowIls : List (Int × List Tx) := []

/-- Drop the lists of blocks that are out of the window. -/
def Chain.pruneWindow (c : Chain) : Chain :=
  { c with windowIls := c.windowIls.filter fun entry => c.height - c.W + 1 ≤ entry.1 }

/-- Why a block is rejected. -/
inductive Reason where
  | badHeight
  | badBits
  | blockPowUnbind
  | blockPow
  | coinbaseNegative
  | opreturnValue
  | anyoneCanSpend
  | duplicateAttestationScript
  | unattestedPayee (script : Bytes)
  | tooManyAttestations
  | badTxid
  | duplicateTx
  | blockWeight
  | txNoInputs
  | txInternalDoubleSpend
  | txMissingInput
  | txNegativeValue
  | txOverspend
  | ilTxidConflict
  | ilUnsatisfied (txid : Bytes)
  | attHeight
  | attBits
  | attPowUnbind
  | attPow
  | attAnyone
  | attIlSize
  | attIlWeight
  | attExtraWeight
  | attEmptyExtra
  | attExtraInvalid
  | attTreeMismatch
  | attMultiplexTree
  | attWindow
deriving DecidableEq

structure Verdict where
  ok : Bool
  errors : List Reason
deriving DecidableEq

def Verdict.accept : Verdict := ⟨true, []⟩

def Verdict.reject (errors : List Reason) : Verdict := ⟨false, errors⟩

end Lazarus.Nta
