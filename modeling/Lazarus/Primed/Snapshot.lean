import Lazarus.Lib.CachedView
import Lazarus.Primed.Payouts
import Lazarus.Primed.Record
import Lazarus.Primed.Solo

/-! The snapshot of the window that coinbasers are priced off, against everything that moves balances. The
snapshot's lock comes before the ledger's: whoever books a block holds both, and whoever pays out by hand
lets go of the ledger before the snapshot is dropped. -/

namespace Lazarus.Primed

open Tides CachedView

/-- The ledger, with the block records that are changed under its lock. -/
structure Accounts where
  store : Store
  blocks : List BlockRecord := []

namespace Accounts

def ledger (a : Accounts) : Ledger := a.store.ledger

def onLedger (a : Accounts) (change : Ledger → Ledger) : Accounts := { a with store := a.store.onLedger change }

/-- Change the last record of a hash, and the ledger with it. -/
def onBlock (a : Accounts) (hash : String) (change : Ledger → BlockRecord → Ledger × BlockRecord) : Accounts :=
  match mutateBlock a.blocks hash (change a.ledger) with
  | none => a
  | some (ledger, blocks, _) => { store := { a.store with ledger }, blocks }

end Accounts

/-- What a coinbaser reply is computed from. -/
structure CoinbaserBase where
  miners : List MinerStat
  totalWork : Nat
  targetWork : Nat
  rebateOwed : Nat
  scripts : List (String × Script)
deriving DecidableEq

/-- The snapshot of the accounts as they stand. -/
def Accounts.base (toScript : String → Option Script) (a : Accounts) : CoinbaserBase where
  miners := a.store.miners
  totalWork := a.store.totalWork
  targetWork := a.store.targetWork
  rebateOwed := a.store.window.rebateOwed
  scripts := a.store.miners.filterMap fun m => (toScript m.identity).map fun script => (m.identity, script)

/-- What holds the snapshot's lock around the ledger's. A `mark_orphan` is one once it has found the block
not orphaned yet. -/
inductive Booking where
  | bookBlockDebits (hash : String) (carryDelta : List (String × Int)) (books : Books)
  | settleConfirmed (hash : String)
  | markOrphan (hash : String)
  | soloRebate (cfg : Solo.Config) (rebate : Nat)

def Booking.apply (a : Accounts) : Booking → Accounts
  | bookBlockDebits hash carryDelta books =>
    a.onLedger fun l => (l.bookDebits carryDelta books).1.noteDebitApplied hash
  | settleConfirmed hash => a.onBlock hash settleRecord
  | markOrphan hash => a.onBlock hash orphanRecord
  | soloRebate cfg rebate => { a with store := (cfg.book a.store rebate).1 }

/-- The payout requests that move balances between the books and the holds. -/
inductive Transfer where
  | hold (entries : List (String × Nat))
  | credit (entries : List (String × Int)) (note : String)
  | release

def Transfer.request : Transfer → Request
  | hold entries => .hold entries
  | credit entries note => .credit entries note
  | release => .release

structure Payout where
  payer : Payer
  ts : Nat
  tip : Option Nat
  id : String
  transfer : Transfer

namespace Payout

/-- Whether the request gets as far as dropping the snapshot: not a hold that is refused before the ledger is
asked, nor the release of a batch that has none. -/
def drops (p : Payout) (l : Ledger) : Bool :=
  match p.transfer with
  | .hold _ => p.payer.staleAfterSecs ≠ 0 && p.tip.isSome
  | .credit _ _ => true
  | .release => (l.releaseHold p.id).isSome

def handled (p : Payout) (l : Ledger) : Ledger := (handle p.payer p.ts p.tip none l p.id p.transfer.request).1

def apply (p : Payout) (a : Accounts) : Option Accounts :=
  if p.drops a.ledger then some (a.onLedger p.handled) else none

/-- A request that does not drop the snapshot has not touched the ledger. -/
theorem handled_of_not_drops {p : Payout} {l : Ledger} (quiet : p.drops l = false) : p.handled l = l := by
  unfold handled
  unfold drops at quiet
  cases asked : p.transfer with
  | hold entries =>
    simp only [asked, Bool.and_eq_false_iff, decide_eq_false_iff_not, ne_eq, Decidable.not_not,
      Option.isSome_eq_false_iff, Option.isNone_iff_eq_none] at quiet
    simp only [Transfer.request, handle]
    rcases quiet with zero | tipless
    · rw [if_pos zero]
    · rw [tipless]
      split <;> rfl
  | credit entries note => simp [asked] at quiet
  | release =>
    simp only [asked, Option.isSome_eq_false_iff, Option.isNone_iff_eq_none] at quiet
    simp only [Transfer.request, handle, quiet]

end Payout

/-- The snapshot as a cached view of the accounts. -/
def snapshots (toScript : String → Option Script) : Protocol Accounts CoinbaserBase Booking Payout where
  view := Accounts.base toScript
  book b a := b.apply a
  move p a := p.apply a

/-- Prime as it starts, with no snapshot and nothing under way. Tasks are numbered. -/
def started (a : Accounts) : CachedView.State Accounts CoinbaserBase Booking Payout Nat := { store := a }

/-- In any interleaving: once an operation that moved balances has returned, every call with a snapshot in hand
has one of the accounts as they stood at some moment after the move; for a booking this is so from the move
on; and a payout that does not drop the snapshot has moved nothing. -/
theorem no_stale_snapshot (toScript : String → Option Script) (start : Accounts)
    (before : List (CachedView.Turn Accounts Booking Payout Nat)) (task : Nat) (good : Bool) :
    let P := snapshots toScript
    let s := (started start).exec P before
    let moved := s.go P task good
    (s.changes P task = true → ∀ first second, ((moved.exec P first).phase task).isIdle = true →
      ∀ caller base, ((moved.exec P (first ++ second)).phase caller).inHand = some base →
        base ∈ moved.views P (first ++ second)) ∧
    (∀ b, s.phase task = .bookingBoth b → ∀ later caller base,
      ((moved.exec P later).phase caller).inHand = some base → base ∈ moved.views P later) ∧
    (∀ p, s.phase task = .movingStore p → s.changes P task = false →
      moved.store = s.store ∧ p.handled s.store.ledger = s.store.ledger) := by
  intro P s moved
  have exclusive : s.Exclusive := by
    apply State.Exclusive.exec
    intro t held
    cases held
  refine ⟨?_, ?_, ?_⟩
  · intro changes first second done caller base hand
    exact State.view_since_change exclusive changes good done second hand
  · intro b booking later caller base hand
    exact State.view_since_booking exclusive booking good later hand
  · intro p here still
    have quiet : p.drops s.store.ledger = false := by
      by_contra dropping
      simp [State.changes, here, P, snapshots, Payout.apply, dropping] at still
    refine ⟨?_, Payout.handled_of_not_drops quiet⟩
    simp [moved, State.go, here, P, snapshots, Payout.apply, quiet, State.enter]

/-- A task's steps, with the clock calling any snapshot good. -/
def steps (task count : Nat) : List (CachedView.Turn Accounts Booking Payout Nat) :=
  List.replicate count (.go task true)

/-- A credit of five sats made by hand. -/
def creditFive : Payout where
  payer := { staleAfterSecs := 0, staleMinPayout := 0, toScript := fun _ => none, node := fun _ _ => .error "" }
  ts := 0
  tip := none
  id := "b1"
  transfer := .credit [("a", 5)] ""

/-- A call caches a snapshot, a credit is made, and the call after it sees the credit. -/
theorem no_stale_snapshot_credit :
    let P := snapshots fun _ => none
    let s := (started { store := { ledger := { window := noBalances } } }).exec P
      (.start 0 .ask :: steps 0 6 ++ .start 1 (.move creditFive) :: steps 1 1)
    let moved := s.go P 1 true
    let base : CoinbaserBase :=
      { miners := [{ identity := "a", work := 0, carry := 5 }], totalWork := 0,
        targetWork := 0, rebateOwed := 0, scripts := [] }
    s.cached = some { miners := [], totalWork := 0, targetWork := 0, rebateOwed := 0, scripts := [] } ∧
      ((moved.exec P (steps 1 3 ++ .start 0 .ask :: steps 0 5)).phase 0).inHand = some base ∧
      base ∈ moved.views P (steps 1 3 ++ .start 0 .ask :: steps 0 5) := by
  intro P s moved base
  have hand : ((moved.exec P (steps 1 3 ++ .start 0 .ask :: steps 0 5)).phase 0).inHand = some base := by decide
  refine ⟨by decide, hand, ?_⟩
  have since : s.changes P 1 = true → ∀ first second, ((moved.exec P first).phase 1).isIdle = true →
      ∀ caller base, ((moved.exec P (first ++ second)).phase caller).inHand = some base →
        base ∈ moved.views P (first ++ second) :=
    (no_stale_snapshot (fun _ => none) { store := { ledger := { window := noBalances } } }
      (.start 0 .ask :: steps 0 6 ++ .start 1 (.move creditFive) :: steps 1 1) 1 true).1
  exact since (by decide) (steps 1 3) (.start 0 .ask :: steps 0 5) (by decide) 0 base hand

end Lazarus.Primed
