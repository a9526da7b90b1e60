import Lazarus.Primed.Record
import Lazarus.Tides.RebateCap
import Lazarus.Tides.Split
import Lazarus.Wire.Coinbase

/-! A block candidate: what it does to the books, worked out from the coinbaser it was mined on, and
the record that is made of it. -/

namespace Lazarus.Primed

open Machine Tides Wire

/-- The parts of a coinbaser that a found block settles against. -/
structure Coinbaser where
  value : Nat
  payees : List Payee := []
  unpaid : List Unpaid := []
  rebateCredits : List (String × Nat) := []
  rebateOwedCredited : Nat := 0
  rebateDeferred : Nat := 0
  classCapped : Bool := false

/-- What a found block does to the books. -/
structure Settlement where
  kind : BlockKind
  owed : Nat := 0
  split : List (String × Nat) := []
  carryPaid : Nat := 0
  carryPlaced : List (String × Nat) := []
  carryDelta : List (String × Int) := []
  rebateCredits : List (String × Nat) := []
  rebateCredited : Nat := 0
  rebateDelta : Int := 0
  carryReserved : Nat := 0

/-- An amount of a split priced for one value, moved to another. -/
def scale (sats value issuedValue : Nat) : Nat :=
  if issuedValue = 0 then sats else asU64 (sats * value / issuedValue)

/-- Whether a coinbase is worth what its coinbaser was asked about: no less, and at most a sixteenth
more. -/
def rewardMatches (actual issued : Nat) : Prop := issued = 0 ∨ issued ≤ actual ∧ actual - issued ≤ issued / 16

instance (actual issued : Nat) : Decidable (rewardMatches actual issued) :=
  inferInstanceAs (Decidable (_ ∨ _ ∧ _))

namespace Coinbaser

/-- What a class-capped coinbaser deferred for want of room. -/
def reserved (cb : Coinbaser) (each : Nat → Nat) : Nat :=
  if cb.classCapped then
    ((cb.unpaid.filter fun u => u.reason == .overBudget && u.defers).map fun u => each u.earned).foldl satAdd 0
  else 0

def carryDelta (cb : Coinbaser) : List (String × Int) :=
  Tides.carryDelta cb.payees cb.unpaid cb.rebateCredits fun _ => true

def rebateDelta (cb : Coinbaser) : Int := Tides.rebateDelta cb.rebateOwedCredited cb.rebateDeferred

/-- A block worth what its coinbaser was priced for: the coinbaser's own figures stand. -/
def settleAsIssued (cb : Coinbaser) (kind : BlockKind) (fullSplit : Bool)
    (placed : Payee → Bool) : Settlement :=
  let carryPlaced := (cb.payees.filter fun p => 0 < p.carry && (fullSplit || placed p)).map
    fun p => (p.identity, p.carry)
  { kind
    owed := if fullSplit then 0 else ((cb.payees.filter fun p => !placed p).map Payee.sats).sum
    split := cb.payees.map fun p => (p.identity, p.sats)
    carryPaid := (carryPlaced.map Prod.snd).sum
    carryPlaced
    carryDelta := cb.carryDelta
    rebateCredits := cb.rebateCredits
    rebateCredited := (cb.rebateCredits.map Prod.snd).sum
    rebateDelta := cb.rebateDelta
    carryReserved := cb.reserved id }

/-- A block far from that: earned shares and rebate move with the reward, carry does not, and what
the coinbase did not pay of the whole is owed. -/
def settleRescaled (cb : Coinbaser) (kind : BlockKind) (coinbaseValue : Nat) (placed : Payee → Bool)
    (paidTo : Payee → Nat) : Settlement :=
  let rescale := fun sats => scale sats coinbaseValue cb.value
  let entitled := fun p : Payee => satAdd (rescale (p.sats - p.carry)) p.carry
  let paid := fun p : Payee => min (paidTo p) (entitled p)
  let carryPlaced := (cb.payees.filter fun p => 0 < p.carry && placed p).map
    fun p => (p.identity, min p.carry (paid p))
  { kind
    owed := (cb.payees.map fun p => entitled p - paid p).sum
    split := cb.payees.map fun p => (p.identity, entitled p)
    carryPaid := (carryPlaced.map Prod.snd).sum
    carryPlaced
    carryDelta := cb.carryDelta.map fun entry =>
      if 0 < entry.2 then (entry.1, clampI64 (rescale entry.2.toNat)) else entry
    rebateCredits := cb.rebateCredits.map fun credit => (credit.1, rescale credit.2)
    rebateCredited := (cb.rebateCredits.map fun credit => rescale credit.2).sum
    rebateDelta := cb.rebateDelta
    carryReserved := cb.reserved fun earned => min (rescale earned) i64Max }

end Coinbaser

/-- Settle a found block against the coinbaser it was mined on. -/
def settle (kind : CoinbaseKind) (cb : Option Coinbaser) (coinbaseValue : Nat)
    (paidTo : Script → Nat) : Settlement :=
  let against := fun (name : BlockKind) (fullSplit poolOnly : Bool) (unpriced : BlockKind) =>
    match cb with
    | none => { kind := unpriced }
    | some cb =>
      let placed := fun p : Payee => !poolOnly && 0 < paidTo p.script
      if !poolOnly && decide (rewardMatches coinbaseValue cb.value) then cb.settleAsIssued name fullSplit placed
      else cb.settleRescaled name coinbaseValue placed fun p => if poolOnly then 0 else paidTo p.script
  match kind with
  | .split => against .split true false .split
  | .partialSplit _ => against .partialSplit false false .unknown
  | .poolOnly => against .poolOnly false true .unknown
  | .emptySolo | .gatewaySolo => { kind := .solo }
  | .foreign => { kind := .unknown }

/-- The carry a coinbase handed out that the books held, and the carry its coinbaser listed that
they did not. -/
def carryOnRecord (carryPlaced : List (String × Nat)) (books : Books) : Nat × Nat :=
  let shortOf := fun identity => ((books.shortfall.filter fun entry => entry.1 == identity).map Prod.snd).sum
  ((carryPlaced.map fun placed => placed.2 - shortOf placed.1).sum, (books.shortfall.map Prod.snd).sum)

/-- A share that met its job's target. `issued` is the coinbaser its job named, if it is still held;
`live` is a split of the window as it stands, for a pool-only coinbase whose job named none. -/
structure Candidate where
  ts : Nat := 0
  height : Nat := 0
  hash : String
  finder : String := ""
  gateway : String := ""
  coinbaseKind : CoinbaseKind
  coinbaseValue : Nat
  coinbase : Coinbase
  paidToPool : Nat := 0
  issued : Option Coinbaser
  live : Option Coinbaser := none

namespace Candidate

def coinbaser (c : Candidate) : Option Coinbaser :=
  match c.issued with
  | some cb => some cb
  | none => if c.coinbaseKind = .poolOnly then c.live else none

def settlement (c : Candidate) : Settlement :=
  settle c.coinbaseKind c.coinbaser c.coinbaseValue c.coinbase.paidTo

/-- Whether the block moves any balance. -/
def settles (c : Candidate) : Bool :=
  c.settlement.carryDelta ≠ [] || 0 < c.settlement.rebateCredited || c.settlement.rebateDelta ≠ 0

/-- The block's books before anything is on them. -/
def opened (c : Candidate) : Books :=
  if c.settles then
    { rebateOwedCredited := (c.coinbaser.map Coinbaser.rebateOwedCredited).getD 0
      rebateDeferred := (c.coinbaser.map Coinbaser.rebateDeferred).getD 0 }
  else {}

/-- The block's adjustments with its rebate credits held to the owed rebate it drew; also the rebate
credit in them. Only an issued coinbaser can be out of date. -/
def capped (c : Candidate) (books : Books) : List (String × Int) × Nat :=
  let s := c.settlement
  match c.issued with
  | some cb =>
    if books.rebateDebited < cb.rebateOwedCredited then
      capRebateToOwedDrawn s.carryDelta s.rebateCredits cb.rebateOwedCredited books.rebateDebited
    else (s.carryDelta, s.rebateCredited)
  | none => (s.carryDelta, s.rebateCredited)

/-- The record of a candidate whose books are as given. -/
def record (c : Candidate) (books : Books) (carryDelta : List (String × Int))
    (carryPaid rebateCredited carryShortfallSats : Nat) : BlockRecord :=
  { ts := c.ts
    height := c.height
    hash := c.hash
    finder := some c.finder
    coinbaseValue := c.coinbaseValue
    kind := c.settlement.kind
    owedSats := c.settlement.owed
    split := c.settlement.split
    poolSats := c.paidToPool
    carryPaid
    carryDelta
    rebateCredited
    rebateDelta := c.settlement.rebateDelta
    settled := false
    submit := "pending"
    gateway := c.gateway
    books := some books
    carryShortfallSats
    carryReservedSats := c.settlement.carryReserved }

/-- Take off the books what the candidate's coinbase paid out, and make its record. -/
def book (c : Candidate) (l : Ledger) : Ledger × BlockRecord :=
  let s := c.settlement
  if c.settles then
    let (l, books) := l.bookDebits s.carryDelta c.opened
    let (carryPaid, short) := carryOnRecord s.carryPlaced books
    let (carryDelta, rebateCredited) := c.capped books
    (l.noteDebitApplied c.hash, c.record books carryDelta carryPaid rebateCredited short)
  else (l, c.record c.opened s.carryDelta s.carryPaid s.rebateCredited 0)

/-- The calls on the ledger that booking makes. -/
def postings (c : Candidate) : List Posting :=
  if c.settles then [.bookDebits c.hash c.settlement.carryDelta c.opened, .noteDebitApplied c.hash] else []

theorem replays (c : Candidate) (l : Ledger) : c.postings.foldl Posting.apply l = (c.book l).1 := by
  cases moved : c.settles with
  | true => simp [postings, book, moved, Posting.apply]
  | false => simp [postings, book, moved]

theorem opened_unbooked (c : Candidate) : c.opened.debitsLive = false ∧ c.opened.creditsLive = false := by
  unfold opened
  split <;> exact ⟨rfl, rfl⟩

/-- A new record is of the candidate's hash; its debits are on the ledger if it moves any balance,
its credits are not. -/
theorem book_record (c : Candidate) (l : Ledger) :
    (c.book l).2.hash = c.hash ∧ (c.book l).2.debitsLive = c.settles ∧ (c.book l).2.creditsLive = false := by
  obtain ⟨debits, credits⟩ := c.opened_unbooked
  cases moved : c.settles with
  | true => simp [book, moved, record, BlockRecord.debitsLive, BlockRecord.creditsLive, credits]
  | false => simp [book, moved, record, BlockRecord.debitsLive, BlockRecord.creditsLive, debits, credits]

theorem debits_postings (c : Candidate) (hash : String) :
    (c.postings.map (Posting.debits hash)).sum = if c.hash = hash then c.settles.toInt else 0 := by
  cases moved : c.settles with
  | true => simp [postings, moved, Posting.debits, c.opened_unbooked]
  | false => simp [postings, moved]

theorem credits_postings (c : Candidate) (hash : String) : (c.postings.map (Posting.credits hash)).sum = 0 := by
  cases moved : c.settles with
  | true => simp [postings, moved, Posting.credits]
  | false => simp [postings, moved]

end Candidate

end Lazarus.Primed
