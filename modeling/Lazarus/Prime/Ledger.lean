import Lazarus.Gateway.Coinbaser
import Lazarus.Lib.Table
import Lazarus.Lib.Tally
import Lazarus.Wire.Cursor

/-! The ledger of the older Prime: work credited in rows of a minute each, work carried from a block that was
not split, make-goods owed in satoshis, and the split of a block's value that all of them give. -/

namespace Lazarus.Prime

open Machine
open Gateway (CoinbaserOutput CoinbaserV2)
open Wire (Bytes Fixed)

def bucketSecs : Nat := 60

def seenCap : Nat := 400000

structure Credit where
  ts : Nat
  identity : String
  work : Nat
deriving DecidableEq

/-- A make-good: so many satoshis are owed to one address, out of the output of another. -/
structure Bonus where
  beneficiary : String
  source : String
  owedSats : Nat
  paidSats : Nat
  note : String
deriving DecidableEq

def Bonus.remaining (b : Bonus) : Nat := b.owedSats - b.paidSats

structure Ledger where
  credits : List Credit := []
  carry : Table String Nat := ∅
  shares : Nat := 0
  acceptedWork : Nat := 0
  total : Nat := 0
  seen : List (Fixed 16) := []
  bonuses : List Bonus := []

def bucketOf (ts : Nat) : Nat := ts - ts % bucketSecs

/-- Add to the latest row of an identity in a bucket, looking from the newest row back;
`none` where there is none. -/
def addToRow (bucket : Nat) (identity : String) (work : Nat) : List Credit → Option (List Credit)
  | [] => none
  | c :: older =>
    if c.ts < bucket then none
    else if c.identity = identity then some ({ c with work := satAdd c.work work } :: older)
    else (addToRow bucket identity work older).map (c :: ·)

/-- The rows with one more share in them, in its bucket's row where there is one already. -/
def file (bucket : Nat) (identity : String) (work : Nat) (credits : List Credit) : List Credit :=
  match addToRow bucket identity work credits.reverse with
  | some rows => rows.reverse
  | none => credits ++ [⟨bucket, identity, work⟩]

/-- How many rows go from the front until the work that is left is within the target, and that work. -/
def spill (target : Nat) : List Credit → Nat → List Credit × Nat
  | [], total => ([], total)
  | c :: rest, total => if target < total then spill target rest (total - c.work) else (c :: rest, total)

namespace Ledger

/-- Credit work to an identity. A key seen before is refused; a full set of keys is dropped first. -/
def credit (l : Ledger) (now : Nat) (identity : String) (work : Nat) (key : Fixed 16) : Ledger × Bool :=
  if key ∈ l.seen then (l, false)
  else
    ({ l with
        seen := key :: if seenCap ≤ l.seen.length then [] else l.seen
        credits := file (bucketOf now) identity work l.credits
        total := satAdd l.total work
        shares := l.shares + 1
        acceptedWork := satAdd l.acceptedWork work }, true)

def trim (l : Ledger) (targetWork : Nat) : Ledger :=
  if targetWork = 0 then l
  else { l with
    credits := (spill targetWork l.credits l.total).1, total := (spill targetWork l.credits l.total).2 }

def mergeCarry (l : Ledger) (ident : String) (work : Nat) : Ledger :=
  if ident = "" ∨ work = 0 then l
  else { l with carry := AList.insert ident (satAdd ((l.carry.get? ident).getD 0) work) l.carry }

def clearCarry (l : Ledger) : Ledger := { l with carry := ∅ }

/-- Wraps, as a sum does in a release build. -/
def windowWork (l : Ledger) : Nat := asU64 (l.total + l.carry.values.sum)

/-- What the ledger counts, entry by entry: its rows, then what is carried. -/
def entries (l : Ledger) : List (String × Nat) :=
  l.credits.map (fun c => (c.identity, c.work)) ++ l.carry.entries.map fun e => (e.1, e.2)

/-- The work of each identity, in the window and carried. -/
def byIdentity (l : Ledger) : Table String Nat :=
  l.entries.foldl (fun m e => AList.insert e.1 (asU64 ((m.get? e.1).getD 0 + e.2)) m) ∅

/-- The identities with their work, in the order a map gives them in. -/
def Lists (l : Ledger) (rows : List (String × Nat)) : Prop :=
  rows.Perm (l.byIdentity.entries.map fun e => (e.1, e.2))

end Ledger

/-- What a fee and its split are made from. -/
structure Terms where
  feeBps : Nat
  minPayout : Nat
  poolScript : Bytes

/-- Thirty-two outputs to miners at most. -/
def maxMinerOutputs : Nat := 32

section Split

variable (identityScript : String → Option Bytes)

/-- The rows that are paid, until so many have been. -/
def payRows (miners total minPayout : Nat) : List (String × Nat) → Nat → List CoinbaserOutput
  | [], _ => []
  | (ident, work) :: rest, room =>
    match identityScript ident with
    | none => payRows miners total minPayout rest room
    | some script =>
      let sats := min (miners * work) u64Max / total
      if sats < minPayout then payRows miners total minPayout rest room
      else ⟨sats, script⟩ :: if room ≤ 1 then [] else payRows miners total minPayout rest (room - 1)

/-- The split before any make-good. -/
def Ledger.plainSplit (l : Ledger) (t : Terms) (rows : List (String × Nat))
    (value : Nat) : List CoinbaserOutput :=
  let fee := min (value * t.feeBps) u64Max / 10000
  let miners := value - fee
  let total := max l.windowWork 1
  let sorted := rows.insertionSort fun a b => b.2 ≤ a.2
  let outputs := payRows identityScript miners total t.minPayout sorted maxMinerOutputs
  let paid := (outputs.map CoinbaserOutput.sats).foldl satAdd 0
  let rest := value - paid
  if 0 < rest ∨ outputs = [] then outputs ++ [⟨rest, t.poolScript⟩] else outputs

/-- Take from the outputs at these places, in this order, what is left to take. -/
def debit : List Nat → Nat → List CoinbaserOutput → List CoinbaserOutput
  | [], _, outputs => outputs
  | i :: rest, left, outputs =>
    let d := min left ((outputs[i]?.map CoinbaserOutput.sats).getD 0)
    let outputs := outputs.modify i fun o => { o with sats := o.sats - d }
    if left - d = 0 then outputs else debit rest (left - d) outputs

/-- Pay into the first output of a script, or into a new one at the end. -/
def payInto (dst : Bytes) (moved : Nat) : List CoinbaserOutput → List CoinbaserOutput
  | [] => [⟨moved, dst⟩]
  | o :: rest =>
    if o.script = dst then { o with sats := satAdd o.sats moved } :: rest else o :: payInto dst moved rest

/-- What the outputs of one script come to. -/
def satsTo (script : Bytes) (outputs : List CoinbaserOutput) : Nat :=
  Tally.tally script (outputs.map fun o => (o.script, o.sats))

def isDust (src : Bytes) (minPayout : Nat) (o : CoinbaserOutput) : Bool :=
  decide (o.script = src ∧ o.sats < minPayout)

/-- Move up to so much from the outputs of one script into that of another, with what would be dust. -/
def applyBonus (outputs : List CoinbaserOutput) (src dst : Bytes) (owed minPayout : Nat) :
    List CoinbaserOutput × Nat :=
  if src = dst then (outputs, 0)
  else
    let take := min owed (asU64 (satsTo src outputs))
    if take = 0 then (outputs, 0)
    else
      let places := (List.range outputs.length).filter fun i =>
        (outputs[i]?.map CoinbaserOutput.script) = some src
      let largest := places.insertionSort fun i j =>
        (outputs[j]?.map CoinbaserOutput.sats).getD 0 ≤ (outputs[i]?.map CoinbaserOutput.sats).getD 0
      let debited := debit largest take outputs
      let moved := asU64 (take + ((debited.filter (isDust src minPayout)).map CoinbaserOutput.sats).sum)
      (payInto dst moved (debited.filter fun o => !isDust src minPayout o), moved)

/-- Apply the make-goods still owed, one after the other; with each that moved anything, how much it moved. -/
def applyBonuses (minPayout : Nat) : List Bonus → List CoinbaserOutput →
    List CoinbaserOutput × List (Bonus × Nat)
  | [], outputs => (outputs, [])
  | b :: rest, outputs =>
    if b.remaining = 0 then applyBonuses minPayout rest outputs
    else
      match identityScript b.source, identityScript b.beneficiary with
      | some src, some dst =>
        let done := applyBonus outputs src dst b.remaining minPayout
        let later := applyBonuses minPayout rest done.1
        (later.1, if 0 < done.2 then (b, done.2) :: later.2 else later.2)
      | _, _ => applyBonuses minPayout rest outputs

/-- The split of a block's value, and what each beneficiary was moved in it. -/
def Ledger.coinbaserWithMoves (l : Ledger) (t : Terms) (rows : List (String × Nat)) (value : Nat) (id : UInt8) :
    CoinbaserV2 × List (String × Nat) :=
  let done := applyBonuses identityScript t.minPayout l.bonuses (l.plainSplit identityScript t rows value)
  (⟨id, done.1⟩, done.2.map fun m => (m.1.beneficiary, m.2))

end Split

section Settle

/-- Add a move to what its beneficiary has been paid, in the first of its debts that is open. -/
def settleMove (move : String × Nat) : List Bonus → List Bonus
  | [] => []
  | b :: rest =>
    if b.beneficiary = move.1 ∧ 0 < b.remaining then
      { b with paidSats := min (satAdd b.paidSats move.2) b.owedSats } :: rest
    else b :: settleMove move rest

/-- Settle the make-goods by what a confirmed block moved, with the debts retired by it. -/
def Ledger.settleBonuses (l : Ledger) (moves : List (String × Nat)) : Ledger × List Bonus :=
  if moves = [] then (l, [])
  else
    let settled := moves.foldl (fun bonuses move => settleMove move bonuses) l.bonuses
    ({ l with bonuses := settled.filter fun b => decide (b.remaining ≠ 0) },
      settled.filter fun b => decide (b.remaining = 0))

end Settle

end Lazarus.Prime
