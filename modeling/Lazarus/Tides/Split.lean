import Lazarus.Lib.Machine

/-! Turning a window into coinbase outputs. -/

namespace Lazarus.Tides

open Machine

/-- A payout script. -/
abbrev Script := List UInt8

/-- Per-identity view of the window. `work` includes `stratumWork`, which includes `graceWork`. -/
structure MinerStat where
  identity : String
  work : Nat
  stratumWork : Nat := 0
  graceWork : Nat := 0
  lastTs : Nat := 0
  carry : Nat := 0
deriving DecidableEq

structure SplitParams where
  feeBps : Nat := 0
  stratumFeeBps : Nat := 0
  datumRebateBps : Nat := 0
  graceFeeBps : Nat := 0
  graceRebateBps : Nat := 0
  minPayout : Nat := 546
  maxOutputs : Nat := 512
  outputBudgetBytes : Nat := 14000
  staleAfter : Nat := 0
  staleMinPayout : Nat := 546
  staleMaxOutputs : Nat := 25

/-- An output: this block's earned share plus `carry`. -/
structure Payee where
  identity : String
  work : Nat
  sats : Nat
  carry : Nat
  script : Script
deriving DecidableEq

inductive UnpaidReason where
  | noScript
  | belowMinimum
  | overBudget
deriving DecidableEq

/-- An identity in the window, or holding carry, that a split does not pay. -/
structure Unpaid where
  identity : String
  sats : Nat
  earned : Nat
  reason : UnpaidReason
deriving DecidableEq

structure Split where
  value : Nat
  feeSats : Nat
  totalWork : Nat
  payees : List Payee
  unpaid : List Unpaid
  poolSats : Nat
  carryPaid : Nat
  rebateCredits : List (String × Nat)
  rebateSats : Nat
  rebateOwedCredited : Nat
  rebateDeferred : Nat
deriving DecidableEq

namespace SplitParams

/-- No work in the window, and none credited for `staleAfter` seconds. A `lastTs` of zero is not
known, which is not the same as long ago. -/
def isStale (p : SplitParams) (m : MinerStat) (now : Nat) : Bool :=
  0 < p.staleAfter && m.work == 0 && 0 < m.lastTs && p.staleAfter ≤ now - m.lastTs

/-- The payout floor for a miner. -/
def floorFor (p : SplitParams) (m : MinerStat) (now : Nat) : Nat :=
  if p.isStale m now then min p.staleMinPayout p.minPayout else p.minPayout

/-- The stratum fee in force; none set means the ordinary fee. -/
def stratumBps (p : SplitParams) : Nat := if p.stratumFeeBps = 0 then p.feeBps else p.stratumFeeBps

def rebateBps (p : SplitParams) : Nat := min p.datumRebateBps p.stratumBps

def graceBps (p : SplitParams) : Nat := min p.graceFeeBps 10000

def graceRebate (p : SplitParams) : Nat := min p.graceRebateBps p.graceBps

end SplitParams

/-- Whether the earned share rolls forward as carry. -/
def Unpaid.defers (u : Unpaid) : Bool :=
  (u.reason == .belowMinimum || u.reason == .overBudget) && 0 < u.earned

/-- Carry adjustments of a found block: carry paid comes off, earnings that could not be placed and
the rebate credits go on. -/
def carryDelta (payees : List Payee) (unpaid : List Unpaid) (rebateCredits : List (String × Nat))
    (wasPaid : Payee → Bool) : List (String × Int) :=
  (payees.filterMap fun p => if 0 < p.carry && wasPaid p then some (p.identity, -clampI64 p.carry) else none) ++
    (unpaid.filterMap fun u => if u.defers then some (u.identity, clampI64 u.earned) else none) ++
    rebateCredits.filterMap fun credit => if 0 < credit.2 then some (credit.1, clampI64 credit.2) else none

/-- Adjustment of the owed rebate. The difference of two clamped amounts stays in range. -/
def rebateDelta (rebateOwedCredited rebateDeferred : Nat) : Int :=
  clampI64 rebateDeferred - clampI64 rebateOwedCredited

namespace Split

def paidSats (s : Split) : Nat := (s.payees.map Payee.sats).sum

def carryDelta (s : Split) (wasPaid : Payee → Bool) : List (String × Int) :=
  Tides.carryDelta s.payees s.unpaid s.rebateCredits wasPaid

def rebateDelta (s : Split) : Int := Tides.rebateDelta s.rebateOwedCredited s.rebateDeferred

end Split

namespace MinerStat

/-- A miner's work by fee class: house stratum at the full fee, house stratum in its grace, and the
rest. -/
def classes (m : MinerStat) : Nat × Nat × Nat :=
  let stratum := min m.stratumWork m.work
  let gw := min m.graceWork stratum
  (stratum - gw, gw, m.work - stratum)

/-- Work that is not house stratum's. -/
def datumWork (m : MinerStat) : Nat := m.work - min m.stratumWork m.work

end MinerStat

/-- Share `pot` over the payable work that is not house stratum's, pro rata, rounded down; also
what was not placed. -/
def rebateCredits (miners : List MinerStat) (pot : Nat) (scriptFor : String → Option Script) :
    List (String × Nat) × Nat :=
  if pot = 0 then ([], 0)
  else
    let eligible := miners.filter fun m => 0 < m.datumWork && (scriptFor m.identity).isSome
    let total := (eligible.map MinerStat.datumWork).sum
    if total = 0 then ([], pot)
    else
      let shares := eligible.map fun m => (m.identity, asU64 (pot * m.datumWork / total))
      (shares.filter fun credit => 0 < credit.2, pot - (shares.map Prod.snd).sum)

/-- A block's rebate out of a stratum fee, on the window's totals. -/
def stratumRebate (value totalWork totalSw rebateBps : Nat) : Nat :=
  if totalWork = 0 ∨ rebateBps = 0 then 0
  else asU64 (value * totalSw * rebateBps / totalWork / 10000)

/-- The parts of each miner's work that pay a fee and that keep their share, in basis points. -/
def SplitParams.keep (p : SplitParams) (m : MinerStat) : Nat :=
  let (sw, gw, dw) := m.classes
  sw * (10000 - p.stratumBps) + gw * (10000 - p.graceBps) + dw * (10000 - p.feeBps)

def SplitParams.charge (p : SplitParams) (m : MinerStat) : Nat :=
  let (sw, gw, dw) := m.classes
  sw * p.stratumBps + gw * p.graceBps + dw * p.feeBps

/-- A miner's share of a block, after its fee. -/
def SplitParams.earned (p : SplitParams) (totalWork value : Nat) (m : MinerStat) : Nat :=
  if 0 < totalWork ∧ 0 < m.work then asU64 (value * p.keep m / totalWork / 10000) else 0

def SplitParams.fee (p : SplitParams) (totalWork value : Nat) (m : MinerStat) : Nat :=
  if 0 < totalWork ∧ 0 < m.work then asU64 (value * p.charge m / totalWork / 10000) else 0

/-- A script is looked up only for a miner with something to its name. -/
def scriptOf (scriptFor : String → Option Script) (m : MinerStat) : Option Script :=
  if 0 < m.work ∨ 0 < m.carry then scriptFor m.identity else none

/-- A miner queued for an output, with its script and its share. -/
structure Queued where
  miner : MinerStat
  script : Option Script
  earned : Nat

/-- What a queued miner is owed in all. -/
def Queued.total (q : Queued) : Nat := satAdd q.earned q.miner.carry

/-- Largest first; ties keep the window's order. -/
def Queued.before (a b : Queued) : Prop := b.total ≤ a.total

instance : DecidableRel Queued.before := fun _ _ => inferInstanceAs (Decidable (_ ≤ _))

/-- A miner that has an output, unless there proves to be no room for its carry. -/
structure Placed where
  miner : MinerStat
  script : Script
  earned : Nat

structure Placing where
  carryRoom : Nat
  placed : List Placed := []
  unpaid : List Unpaid := []
  bytes : Nat := 0
  stalePlaced : Nat := 0

/-- First pass: who has an output. Whoever has none leaves its earned share with the pool. -/
def place (p : SplitParams) (now : Nat) (s : Placing) (q : Queued) : Placing :=
  let m := q.miner
  if q.total = 0 then s
  else
    match q.script with
    | none =>
      { s with
        unpaid := s.unpaid ++
        [{ identity := m.identity, sats := q.total, earned := q.earned, reason := .noScript }] }
    | some script =>
      let need := 8 + 1 + script.length
      let reason :=
        if q.total < p.floorFor m now then some UnpaidReason.belowMinimum
        else if p.maxOutputs ≤ s.placed.length ∨ p.outputBudgetBytes < s.bytes + need ∨
            p.isStale m now ∧ p.staleMaxOutputs ≤ s.stalePlaced then some .overBudget
        else none
      match reason with
      | some reason =>
        { s with
          carryRoom := satAdd s.carryRoom q.earned
          unpaid := s.unpaid ++ [{ identity := m.identity, sats := q.total, earned := q.earned, reason }] }
      | none =>
        { s with
          bytes := s.bytes + need
          stalePlaced := s.stalePlaced + if p.isStale m now then 1 else 0
          placed := s.placed ++ [⟨m, script, q.earned⟩] }

structure Paying where
  carryRoom : Nat
  payees : List Payee := []
  unpaid : List Unpaid := []
  paid : Nat := 0
  carryPaid : Nat := 0

/-- Second pass: how much carry each placed miner is paid. One that cleared its floor only with
carry there is no room for goes without, and a stale balance is paid whole or not at all. -/
def pay (p : SplitParams) (now : Nat) (s : Paying) (q : Placed) : Paying :=
  let m := q.miner
  let carry := min m.carry s.carryRoom
  let sats := q.earned + carry
  if sats < p.floorFor m now ∨ p.isStale m now ∧ carry < m.carry then
    { s with
      carryRoom := satAdd s.carryRoom q.earned
      unpaid := s.unpaid ++
        [{ identity := m.identity, sats := satAdd q.earned m.carry, earned := q.earned, reason := .overBudget }]
          }
  else
    { s with
      carryRoom := s.carryRoom - carry
      paid := s.paid + sats
      carryPaid := s.carryPaid + carry
      payees := s.payees ++ [{ identity := m.identity, work := m.work, sats, carry, script := q.script }] }

namespace SplitParams

/-- This block's rebate out of the stratum fees. -/
def fromFee (p : SplitParams) (miners : List MinerStat) (totalWork value : Nat) : Nat :=
  let totalSw := (miners.map fun m => m.classes.1).foldl satAdd 0
  let totalGw := (miners.map fun m => m.classes.2.1).foldl satAdd 0
  satAdd (stratumRebate value totalWork totalSw p.rebateBps)
    (stratumRebate value totalWork totalGw p.graceRebate)

/-- Whether any of the window's fees is rebated. -/
def rebates (p : SplitParams) (miners : List MinerStat) : Prop :=
  0 < p.rebateBps ∨ 0 < (miners.map fun m => m.classes.2.1).foldl satAdd 0 ∧ 0 < p.graceRebate

instance (p : SplitParams) (miners : List MinerStat) : Decidable (p.rebates miners) :=
  inferInstanceAs (Decidable (_ ∨ _ ∧ _))

/-- The queue for outputs: each miner with its script and share, largest claim first. -/
def queue (p : SplitParams) (miners : List MinerStat) (totalWork value : Nat)
    (scriptFor : String → Option Script) : List Queued :=
  (miners.map fun m => (⟨m, scriptOf scriptFor m, p.earned totalWork value m⟩ : Queued)).insertionSort
    Queued.before

end SplitParams

/-- The script the rebate finds for an identity: that of the last miner listed under it. -/
def rebateScript (miners : List MinerStat) (scriptFor : String → Option Script)
    (identity : String) : Option Script :=
  (miners.reverse.find? fun m => m.identity == identity).bind (scriptOf scriptFor)

/-- The split of a block worth `value`. -/
def compute (miners : List MinerStat) (totalWork value : Nat) (p : SplitParams) (rebateOwed now : Nat)
    (scriptFor : String → Option Script) : Split :=
  let fromFee := p.fromFee miners totalWork value
  let credits :=
    if p.rebates miners then
      (rebateCredits miners (satAdd fromFee rebateOwed) (rebateScript miners scriptFor)).1
    else []
  let feeSats := (miners.map (p.fee totalWork value)).foldl satAdd 0
  let payable := miners.filter fun m => (scriptOf scriptFor m).isSome
  let earnedPayable := (payable.map (p.earned totalWork value)).foldl satAdd 0
  let first :=
    (p.queue miners totalWork value scriptFor).foldl (place p now) { carryRoom := value - earnedPayable }
  let second := first.placed.foldl (pay p now) { carryRoom := first.carryRoom, unpaid := first.unpaid }
  { value
    feeSats
    totalWork
    payees := second.payees
    unpaid := second.unpaid
    poolSats := value - second.paid
    carryPaid := second.carryPaid
    rebateCredits := credits
    rebateSats := (credits.map Prod.snd).sum
    rebateOwedCredited := if credits = [] then 0 else rebateOwed
    rebateDeferred := if credits = [] then fromFee else 0 }

end Lazarus.Tides
