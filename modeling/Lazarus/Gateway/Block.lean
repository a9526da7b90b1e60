import Lazarus.Gateway.Cbtx
import Lazarus.Gateway.Header

/-! Transactions and blocks as the network knows them: with and without their witness data, their ids and their
weight. A gateway's two forms of a coinbase are the two forms of one transaction. -/

namespace Lazarus.Gateway

open LittleEndian
open Wire (Fixed Hash Hashes)

structure TxIn where
  prevout : Fixed 36
  script : Wire.Bytes
  sequence : Fixed 4
  witness : List Wire.Bytes := []

structure Transaction where
  version : Fixed 4
  inputs : List TxIn
  outputs : List CoinbaserOutput
  lockTime : Fixed 4

def TxIn.bytes (i : TxIn) : Wire.Bytes := i.prevout.val ++ compact i.script.length ++ i.script ++ i.sequence.val

/-- A stack of items, each after its length. -/
def TxIn.stack (i : TxIn) : Wire.Bytes :=
  compact i.witness.length ++ i.witness.flatMap fun item => compact item.length ++ item

namespace Transaction

def hasWitness (t : Transaction) : Bool := t.inputs.any fun i => !i.witness.isEmpty

/-- Inputs and outputs, each after their count. -/
def body (t : Transaction) : Wire.Bytes :=
  compact t.inputs.length ++ t.inputs.flatMap TxIn.bytes ++ compact t.outputs.length ++
    t.outputs.flatMap pushOut

/-- The transaction without marker, flag and witness. -/
def stripped (t : Transaction) : Wire.Bytes := t.version.val ++ t.body ++ t.lockTime.val

/-- The transaction as it stands in a block. -/
def full (t : Transaction) : Wire.Bytes :=
  if t.hasWitness then t.version.val ++ [0, 1] ++ t.body ++ t.inputs.flatMap TxIn.stack ++ t.lockTime.val
  else t.stripped

def weight (t : Transaction) : Nat := 3 * t.stripped.length + t.full.length

def txid (H : Hashes) (t : Transaction) : Hash := sha256d H t.stripped

def wtxid (H : Hashes) (t : Transaction) : Hash := sha256d H t.full

end Transaction

/-- The transaction a gateway's coinbase is: one input that spends nothing, and a witness of one zero item. -/
def coinbaseTransaction (height : UInt32) (tag : String) (extra : Wire.Bytes)
    (cb : CoinbaserV2) (wit : Option Wire.Bytes) : Transaction where
  version := Fixed.ofNat 4 1
  inputs := [{
    prevout := ⟨List.replicate 32 0 ++ bytes 4 0xffffffff, by simp⟩
    script := scriptsig height tag extra
    sequence := Fixed.ofNat 4 0xffffffff
    witness := [List.replicate 32 0] }]
  outputs := coinbaseOuts cb wit
  lockTime := Fixed.ofNat 4 0

section Forms

variable (height : UInt32) (tag : String) (extra : Wire.Bytes) (cb : CoinbaserV2) (wit : Option Wire.Bytes)

theorem coinbaseLegacy_eq :
    coinbaseLegacy height tag extra cb wit = (coinbaseTransaction height tag extra cb wit).stripped := by
  simp [coinbaseLegacy, coinbaseTransaction, Transaction.stripped, Transaction.body,
    TxIn.bytes, coinbaseInput, pushOuts, compact_of_lt, Fixed.ofNat]

theorem coinbaseWitness_eq :
    coinbaseWitness height tag extra cb wit = (coinbaseTransaction height tag extra cb wit).full := by
  simp [coinbaseWitness, coinbaseTransaction, Transaction.full, Transaction.hasWitness,
    Transaction.body, TxIn.bytes, TxIn.stack, coinbaseInput, pushOuts, compact_of_lt, Fixed.ofNat]

end Forms

structure Block where
  header : HeaderV2
  transactions : List Transaction

namespace Block

def serialize (b : Block) : Wire.Bytes :=
  b.header.serialize.val ++ compact b.transactions.length ++ b.transactions.flatMap Transaction.full

/-- The block without witness data. -/
def stripped (b : Block) : Wire.Bytes :=
  b.header.serialize.val ++ compact b.transactions.length ++ b.transactions.flatMap Transaction.stripped

def weight (b : Block) : Nat := 3 * b.stripped.length + b.serialize.length

/-- What a block weighs before any transaction is in it. -/
def overhead (transactions : Nat) : Nat := 4 * 164 + 4 * (compact transactions).length

/-- A block weighs what its header and count do, and its transactions. -/
theorem weight_eq (b : Block) :
    b.weight = overhead b.transactions.length + (b.transactions.map Transaction.weight).sum := by
  have sizes : ∀ ts : List Transaction,
      3 * (ts.flatMap Transaction.stripped).length + (ts.flatMap Transaction.full).length =
        (ts.map Transaction.weight).sum := by
    intro ts
    induction ts with
    | nil => rfl
    | cons t rest ih =>
      rw [List.flatMap_cons, List.flatMap_cons, List.length_append, List.length_append,
        List.map_cons, List.sum_cons, ← ih, Transaction.weight]
      omega
  have header := b.header.serialize.property
  unfold weight stripped serialize overhead
  rw [← sizes]
  simp only [List.length_append, header]
  omega

end Block

end Lazarus.Gateway
