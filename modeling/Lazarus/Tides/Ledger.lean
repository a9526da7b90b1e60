import Lazarus.Tides.Window

/-! Booking a found block in two steps and undoing it, and the holds. A `Books` record remembers
what each step actually moved. -/

namespace Lazarus.Tides

open Machine Interner

/-- A found block's effect on the ledger. Every amount is what moved, not what was asked for. -/
structure Books where
  rebateOwedCredited : Nat := 0
  rebateDeferred : Nat := 0
  debitsLive : Bool := false
  debited : List (String × Nat) := []
  rebateDebited : Nat := 0
  creditsLive : Bool := false
  credited : List (String × Nat) := []
  rebateAdded : Nat := 0
  shortfall : List (String × Nat) := []
  debtPaid : List (String × Nat) := []
deriving DecidableEq

/-- The durable window. `identsOut` is what has been written to the identity file; `appliedDebits`
is the set of block hashes whose debits the window includes. -/
structure Ledger where
  window : Window := {}
  identsOut : List String := []
  dirty : Bool := false
  appliedDebits : Finset String := ∅
  debitsTracked : Bool := false

/-- Why a requested entry was not put in a hold. -/
inductive SkipReason where
  | listedTwice
  | nothingRequested
  | notStale
  | balanceChanged
deriving DecidableEq

def SkipReason.text : SkipReason → String
  | listedTwice => "listed twice"
  | nothingRequested => "nothing requested"
  | notStale => "not stale"
  | balanceChanged => "balance changed"

structure HoldSkip where
  identity : String
  requested : Nat
  carry : Nat
  reason : SkipReason
deriving DecidableEq

/-- One negative entry of a block's carry adjustments: off the carry, then out of the holds, and
what neither held is a debt. -/
def bookDebit (state : Window × Books) (entry : String × Int) : Window × Books :=
  let (window, books) := state
  let before := window.carryOf entry.1
  let (window, after) := window.adjustCarry entry.1 entry.2
  let short := entry.2.natAbs - (before - after)
  let (window, drawn) := if 0 < short then window.drawFromHolds entry.1 short else (window, 0)
  let moved := before - after + drawn
  let books := if 0 < moved then { books with debited := books.debited ++ [(entry.1, moved)] } else books
  let overpaid := entry.2.natAbs - moved
  if 0 < overpaid then
    (window.accrueDebt entry.1 overpaid, { books with shortfall := books.shortfall ++ [(entry.1, overpaid)] })
  else (window, books)

/-- One positive entry: the debt is collected before any of the earning becomes a balance. -/
def bookCredit (state : Ledger × Books) (entry : String × Int) : Ledger × Books :=
  let (ledger, books) := state
  let earn := entry.2.natAbs
  let known := (ledger.window.idents.position entry.1).isSome
  let (window, paidDown) := ledger.window.reduceDebt entry.1 earn
  let books := if 0 < paidDown then
    { books with debtPaid := books.debtPaid ++ [(entry.1, paidDown)] } else books
  let onto := earn - paidDown
  let before := window.carryOf entry.1
  let (window, after) := if 0 < onto then window.adjustCarry entry.1 (clampI64 onto) else (window, before)
  let identsOut := if known then ledger.identsOut else ledger.identsOut ++ [entry.1]
  let books :=
    if before < after then { books with credited := books.credited ++ [(entry.1, after - before)] } else books
  ({ ledger with window, identsOut }, books)

/-- One booked credit taken back. The sum is what had already been paid out. -/
def unbookCredit (state : Window × Nat) (entry : String × Nat) : Window × Nat :=
  let before := state.1.carryOf entry.1
  let (window, after) := state.1.adjustCarry entry.1 (-clampI64 entry.2)
  (window, satAdd state.2 (entry.2 - (before - after)))

/-- The first half of undoing a block: what its confirmation put on. -/
def takeBackCredits (window : Window) (books : Books) : Window × Books × Nat :=
  if books.creditsLive then
    let (window, short) := books.credited.foldl unbookCredit (window, 0)
    let window := books.debtPaid.foldl (fun window entry => window.restoreDebt entry.1 entry.2) window
    (window.adjustRebateOwed (-clampI64 books.rebateAdded),
      { books with credited := [], debtPaid := [], rebateAdded := 0, creditsLive := false }, short)
  else (window, books, 0)

/-- The second half: what its coinbase took off. -/
def giveBackDebits (window : Window) (books : Books) : Window × Books :=
  if books.debitsLive then
    let window := books.debited.foldl (fun window entry => (window.restoreCarry entry.1 entry.2).1) window
    let window := books.shortfall.foldl (fun window entry => window.forgiveDebt entry.1 entry.2) window
    (window.adjustRebateOwed (clampI64 books.rebateDebited),
      { books with debited := [], shortfall := [], rebateDebited := 0, debitsLive := false })
  else (window, books)

/-- One adjustment applied outright, with the carry it leaves. -/
def settleEntry (state : Ledger × List (String × Nat)) (entry : String × Int) : Ledger × List (String × Nat) :=
  let (ledger, out) := state
  if entry.2 = 0 then state
  else
    let known := (ledger.window.idents.position entry.1).isSome
    let (window, new) :=
      if 0 < entry.2 then ledger.window.restoreCarry entry.1 entry.2.natAbs
      else ledger.window.adjustCarry entry.1 entry.2
    let identsOut := if known then ledger.identsOut else ledger.identsOut ++ [entry.1]
    ({ ledger with window, identsOut, dirty := true }, out ++ [(entry.1, new)])

/-- One requested entry of a hold, judged against the balances that were stale when the request
was taken up. -/
def holdEntry (stale : List StaleCarry)
    (state : Window × List (String × Nat) × List HoldSkip) (entry : String × Nat) :
    Window × List (String × Nat) × List HoldSkip :=
  let (window, held, skipped) := state
  let carry := window.carryOf entry.1
  let reason :=
    if held.any fun taken => taken.1 == entry.1 then some SkipReason.listedTwice
    else if entry.2 = 0 then some .nothingRequested
    else
      match stale.find? fun balance => balance.identity == entry.1 with
      | none => some .notStale
      | some have' => if have'.sats ≠ entry.2 then some .balanceChanged else none
  match reason with
  | some reason => (window, held, skipped ++ [{ identity := entry.1, requested := entry.2, carry, reason }])
  | none => ((window.adjustCarry entry.1 (-asI64 entry.2)).1, held ++ [entry], skipped)

namespace Ledger

/-- First step of booking a found block: take off what its coinbase paid out. -/
def bookDebits (l : Ledger) (carryDelta : List (String × Int)) (books : Books) : Ledger × Books :=
  if books.debitsLive then (l, books)
  else
    let (window, books) := (carryDelta.filter fun entry => entry.2 < 0).foldl bookDebit
      (l.window, { books with debited := [], shortfall := [] })
    let after := window.adjustRebateOwed (-clampI64 books.rebateOwedCredited)
    ({ l with window := after, dirty := true },
      { books with rebateDebited := window.rebateOwed - after.rebateOwed, debitsLive := true })

/-- Second step, once the node has the block: put on what it earned people. -/
def bookCredits (l : Ledger) (carryDelta : List (String × Int)) (books : Books) : Ledger × Books :=
  if books.creditsLive then (l, books)
  else
    let (l, books) := (carryDelta.filter fun entry => 0 < entry.2).foldl bookCredit
      (l, { books with credited := [], debtPaid := [] })
    let after := l.window.adjustRebateOwed (clampI64 books.rebateDeferred)
    ({ l with window := after, dirty := true },
      { books with rebateAdded := after.rebateOwed - l.window.rebateOwed, creditsLive := true })

/-- The block is not in the chain: undo what it has on the ledger. Also what a credit could not
take back because it had been paid out. -/
def unbook (l : Ledger) (books : Books) : Ledger × Books × Nat :=
  let (window, books, short) := takeBackCredits l.window books
  let (window, books) := giveBackDebits window books
  ({ l with window, dirty := true }, books, short)

/-- Apply carry adjustments outright; also the identities touched with their new carry. -/
def settleCarry (l : Ledger) (delta : List (String × Int)) : Ledger × List (String × Nat) :=
  delta.foldl settleEntry (l, [])

/-- Move the owed rebate; also the new balance. -/
def settleRebate (l : Ledger) (delta : Int) : Ledger × Nat :=
  if delta = 0 then (l, l.window.rebateOwed)
  else
    let window := l.window.adjustRebateOwed delta
    ({ l with window, dirty := true }, window.rebateOwed)

/-- Set stale balances aside. An entry is held only if its identity is stale now and holds exactly
the sats named. -/
def holdCarry (l : Ledger) (batch : String) (entries : List (String × Nat))
    (now after least tipHeight readyHeight : Nat) :
    Except String (Ledger × List (String × Nat) × List HoldSkip) :=
  if (l.window.holds.lookup batch).isSome then .error "a hold with this id exists"
  else
    let stale := l.window.staleCarries now after least
    let (window, held, skipped) := entries.foldl (holdEntry stale) (l.window, [], [])
    if held = [] then .ok ({ l with window }, held, skipped)
    else
      let hold : Hold := { createdTs := now, height := tipHeight, readyHeight, entries := held }
      .ok ({ l with window := { window with holds := window.holds.insert batch hold }, dirty := true },
        held, skipped)

/-- The payment was abandoned: the held balances are carry again, less any debt. -/
def releaseHold (l : Ledger) (batch : String) : Option (Ledger × List (String × Nat)) :=
  (l.window.holds.lookup batch).map fun hold =>
    let window := { l.window with holds := l.window.holds.erase batch }
    ({ l with
        window := hold.entries.foldl (fun window entry => (window.restoreCarry entry.1 entry.2).1) window
        dirty := true },
      hold.entries)

/-- The payment is in the chain: the held balances leave the books. -/
def finishHold (l : Ledger) (batch : String) : Option (Ledger × List (String × Nat)) :=
  (l.window.holds.lookup batch).map fun hold =>
    ({ l with window := { l.window with holds := l.window.holds.erase batch }, dirty := true }, hold.entries)

end Ledger

end Lazarus.Tides
