import Lazarus.Wire.Coinbase

/-! Where a coinbase sends the block reward, judged against the outputs that were issued for it. -/

namespace Lazarus.Wire

open Machine

/-- An output of an issued list. -/
structure Output where
  script : Bytes
  sats : Nat
deriving DecidableEq

/-- What a share is held to. `issued` is the list under the share's coinbaser id, if it is still
held. -/
structure Policy where
  poolScript : Bytes
  issued : Option (List Output) := none
  tolerance : Nat := 0
  now : UInt32 := 0
  minPot : UInt8 := 0
  gatewayScript : Option Bytes := none
  emptySoloFeeBps : Nat := 0
  trustedTarget : Bool := false
  uncommittedPot : UInt8 := 0
  heldSplit : Bool := false

def feeSats (value bps : Nat) : Nat := asU64 (value * bps / 10000)

def isGateway (script : Bytes) (gateway : Option Bytes) : Bool := gateway == some script

/-- No transaction but the coinbase. Some gateways count that one. -/
def emptyJob (jobTxnCount : Nat) (merkleEmpty : Bool) : Bool := merkleEmpty && jobTxnCount ≤ 1

/-- What a coinbase is that pays the gateway's script and nothing else. -/
def gatewayOnly (cb : Coinbase) (gateway : Option Bytes) (subsidyOnly : Bool) (jobTxnCount : Nat)
    (merkleEmpty : Bool) : Option CoinbaseKind :=
  match gateway.filter fun g => g ≠ [] with
  | none => none
  | some gw =>
    let paid := cb.outputs.any fun o => !o.isOpReturn && o.script == gw
    let only := cb.outputs.all fun o => (o.isOpReturn && o.value == 0) || o.script == gw
    if !paid || !only then none
    else if subsidyOnly && emptyJob jobTxnCount merkleEmpty then some .emptySolo
    else if !subsidyOnly then some .gatewaySolo
    else some .foreign

/-- What the outputs of a coinbase come to, by whom they pay. -/
structure Survey where
  poolPaid : Bool := false
  gatewayPaid : Bool := false
  gatewaySats : Nat := 0
  foreign : Nat := 0

/-- One output. Value in an `OP_RETURN` is reward burned, and ends the survey. -/
def surveyOutput (p : Policy) (s : Survey) (o : TxOut) : Option Survey :=
  if o.isOpReturn then if 0 < o.value then none else some s
  else if o.script = p.poolScript then some { s with poolPaid := true }
  else if isGateway o.script p.gatewayScript then
    some { s with gatewayPaid := true, gatewaySats := satAdd s.gatewaySats o.value }
  else if p.issued.any fun iss => iss.any fun i => i.script == o.script then some s
  else some { s with foreign := s.foreign + 1 }

section Amounts

/-- What an issued list sums to. -/
def issuedValue (iss : List Output) : Nat := (iss.map Output.sats).sum

/-- What is owed on an issued amount: less of it where the template is worth less. -/
def owed (issuedValue actualValue sats : Nat) : Nat :=
  if issuedValue = 0 ∨ issuedValue ≤ actualValue then sats else asU64 (sats * actualValue / issuedValue)

/-- What may be paid on an issued amount: more where the template is worth more. -/
def cap (issuedValue actualValue sats : Nat) : Nat :=
  if issuedValue = 0 ∨ actualValue ≤ issuedValue then sats else asU64 (sats * actualValue / issuedValue)

/-- A sat of slack for each issued output, for the rounding of a rescale. -/
def slack (tolerance : Nat) (iss : List Output) : Nat := satAdd tolerance iss.length

/-- What an unlisted gateway script may take: what the template has gained since, up to a sixteenth of
the list. -/
def excess (issuedValue actualValue : Nat) : Nat := min (actualValue - issuedValue) (issuedValue / 16)

/-- The outputs of a list that are held to their amounts: all but the pool's own. -/
def minersOf (poolScript : Bytes) (iss : List Output) : List Output := iss.filter fun i => i.script ≠ poolScript

/-- What a list issues to one script. -/
def issuedTo (miners : List Output) (script : Bytes) : Nat :=
  ((miners.filter fun i => i.script == script).map Output.sats).foldl satAdd 0

end Amounts

/-- How many miner outputs are there, and whether any is short. -/
structure Placed where
  present : Nat := 0
  shorted : Bool := false

/-- One miner output against what the coinbase pays its script. More than its ceiling ends the
count. -/
def placeOutput (cb : Coinbase) (tolerance : Nat) (iss miners : List Output) (s : Placed) (i : Output) :
    Option Placed :=
  let total := issuedValue iss
  let actual := cb.totalOutputValue
  let paid := cb.paidTo i.script
  if 0 < paid then
    if satAdd (cap total actual (issuedTo miners i.script)) (slack tolerance iss) < paid then none
    else some
      { present := s.present + 1, shorted := s.shorted || satAdd paid tolerance < owed total actual i.sats }
  else some s

/-- The verdict of an issued list: a kind, or nothing where the list does not decide. -/
def classifyIssued (cb : Coinbase) (p : Policy) (s : Survey) (iss : List Output) (subsidyOnly : Bool)
    (jobTxnCount : Nat) (merkleEmpty : Bool) : Option CoinbaseKind :=
  let miners := minersOf p.poolScript iss
  let gatewayListed := p.gatewayScript.any fun g => iss.any fun i => i.script == g
  if s.gatewayPaid && !gatewayListed &&
      satAdd (excess (issuedValue iss) cb.totalOutputValue) (slack p.tolerance iss) < s.gatewaySats then
    if subsidyOnly && !emptyJob jobTxnCount merkleEmpty then some .foreign
    else if subsidyOnly then some .emptySolo
    else some .gatewaySolo
  else
    match miners.foldlM (placeOutput cb p.tolerance iss miners) {} with
    | none => some .foreign
    | some placed =>
      if placed.shorted then none
      else if placed.present = miners.length &&
        (s.poolPaid || s.gatewayPaid || !miners.isEmpty) then some .split
      else if 0 < placed.present then some (.partialSplit placed.present)
      else none

/-- The verdict where no issued list decides. -/
def classifyUnissued (cb : Coinbase) (p : Policy) (s : Survey) (subsidyOnly : Bool) (jobTxnCount : Nat)
    (merkleEmpty : Bool) : CoinbaseKind :=
  let onlyPool := cb.outputs.all fun o => o.isOpReturn || o.script == p.poolScript
  if s.poolPaid && onlyPool then .poolOnly
  else
    match gatewayOnly cb p.gatewayScript subsidyOnly jobTxnCount merkleEmpty with
    | some kind => kind
    | none =>
      let gw := p.gatewayScript.getD []
      let gatewayAndPool := s.gatewayPaid && s.poolPaid && gw ≠ [] &&
        cb.outputs.all fun o => o.isOpReturn || o.script == gw || o.script == p.poolScript
      if gatewayAndPool && 0 < p.emptySoloFeeBps && subsidyOnly && emptyJob jobTxnCount merkleEmpty then
        let want := feeSats cb.totalOutputValue p.emptySoloFeeBps
        let got := cb.paidTo p.poolScript
        if (got - want) + (want - got) ≤ p.tolerance then .emptySolo else .foreign
      else .foreign

def classifyOutputs (cb : Coinbase) (p : Policy) (subsidyOnly : Bool) (jobTxnCount : Nat) (merkleEmpty : Bool) :
    CoinbaseKind :=
  match cb.outputs.foldlM (surveyOutput p) {} with
  | none => .foreign
  | some s =>
    if 0 < s.foreign then .foreign
    else
      match p.issued.bind fun iss => classifyIssued cb p s iss subsidyOnly jobTxnCount merkleEmpty with
      | some kind => kind
      | none => classifyUnissued cb p s subsidyOnly jobTxnCount merkleEmpty

/-- A refusal is looked at again for a gateway that hands out its own script whatever split it
holds. -/
def classifyCoinbase (cb : Coinbase) (p : Policy) (subsidyOnly : Bool)
    (jobTxnCount : Nat) (merkleEmpty : Bool) :
    CoinbaseKind :=
  let kind := classifyOutputs cb p subsidyOnly jobTxnCount merkleEmpty
  if kind = .foreign && p.heldSplit then
    (gatewayOnly cb p.gatewayScript subsidyOnly jobTxnCount merkleEmpty).getD kind
  else kind

end Lazarus.Wire
