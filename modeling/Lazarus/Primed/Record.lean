import Lazarus.Tides.BlockLog
import Lazarus.Tides.Booking

/-! The three ways a block record is changed after it is written, each with what it does to the
ledger. A journal beside the ledger says which bookings its balances are made of. -/

namespace Lazarus.Primed

open Tides Last

section Change

/-- The record of a block the node has in its main chain. A record without books had all of it on
from the start, and off again only while it was an orphan. -/
def settleRecord (l : Ledger) (r : BlockRecord) : Ledger × BlockRecord :=
  let settled := { r with kind := r.kind.stripOrphan, settled := true }
  match r.books with
  | some books =>
    let (l, books) := l.bookDebits r.carryDelta books
    let (l, books) := l.bookCredits r.carryDelta books
    (l, { settled with books := some books })
  | none =>
    if r.kind.isOrphan ∧ (r.carryDelta ≠ [] ∨ r.rebateDelta ≠ 0) then
      ((((l.settleCarry r.carryDelta).1).settleRebate r.rebateDelta).1, settled)
    else (l, settled)

/-- A record's carry adjustments the other way round. -/
def reversed (carryDelta : List (String × Int)) : List (String × Int) :=
  carryDelta.map fun entry => (entry.1, -entry.2)

/-- The record of a block that is not in the chain. -/
def orphanRecord (l : Ledger) (r : BlockRecord) : Ledger × BlockRecord :=
  let orphaned := { r with kind := .orphan r.kind, settled := false }
  match r.books with
  | some books =>
    let (l, books, _) := l.unbook books
    (l, { orphaned with books := some books })
  | none =>
    if reversed r.carryDelta ≠ [] ∨ -r.rebateDelta ≠ 0 then
      ((((l.settleCarry (reversed r.carryDelta)).1).settleRebate (-r.rebateDelta)).1, orphaned)
    else (l, orphaned)

/-- A call that updates a block's record: the submission's outcome, the poller that finds the block
confirmed, and the two that find it is none. -/
inductive Update where
  | submitted (outcome : String)
  | settle
  | orphan
deriving DecidableEq

/-- The submission's outcome is recorded without the ledger. Settling and orphaning hold its lock
around the change, the append and the sync after it. -/
def Update.needsLedger : Update → Bool
  | submitted _ => false
  | _ => true

/-- What the call does to the record, and to the ledger while it holds it. -/
def Update.apply (l : Ledger) (r : BlockRecord) : Update → Ledger × BlockRecord
  | submitted outcome => (l, { r with submit := outcome })
  | settle => settleRecord l r
  | orphan => orphanRecord l r

/-- The half of `update_block` under the lock on the blocks in memory: the last record of the hash
is changed, and a copy taken. -/
def mutateBlock {σ : Type} (blocks : List BlockRecord) (hash : String) (f : BlockRecord → σ × BlockRecord) :
    Option (σ × List BlockRecord × BlockRecord) :=
  (blocks.reverse.find? (BlockRecord.isFor hash)).map fun r =>
    let (out, updated) := f r
    (out, replaceLast (BlockRecord.isFor hash) updated blocks, updated)

/-- How many records stay in memory. -/
def blocksKept : Nat := 10000

/-- The half of `record_block` under that lock: the oldest records beyond those kept go. -/
def pushBlock (blocks : List BlockRecord) (r : BlockRecord) : List BlockRecord :=
  (blocks ++ [r]).drop ((blocks ++ [r]).length - blocksKept)

theorem find?_pushBlock {blocks : List BlockRecord} {r found : BlockRecord} {hash : String}
    (last : (pushBlock blocks r).reverse.find? (BlockRecord.isFor hash) = some found) :
    (blocks ++ [r]).reverse.find? (BlockRecord.isFor hash) = some found := by
  unfold pushBlock at last
  exact find?_of_drop last

end Change

section Journal

/-- A call that moves the ledger, with the block it is made for. -/
inductive Posting where
  | bookDebits (hash : String) (carryDelta : List (String × Int)) (books : Books)
  | bookCredits (hash : String) (carryDelta : List (String × Int)) (books : Books)
  | unbook (hash : String) (books : Books)
  | settleCarry (delta : List (String × Int))
  | settleRebate (delta : Int)
  | noteDebitApplied (hash : String)
  | adoptLegacyDebits (blocks : List BlockRecord)
  | reapplyDebits (hash : String) (books : Books)

namespace Posting

def apply (l : Ledger) : Posting → Ledger
  | bookDebits _ carryDelta books => (l.bookDebits carryDelta books).1
  | bookCredits _ carryDelta books => (l.bookCredits carryDelta books).1
  | unbook _ books => (l.unbook books).1
  | settleCarry delta => (l.settleCarry delta).1
  | settleRebate delta => (l.settleRebate delta).1
  | noteDebitApplied hash => l.noteDebitApplied hash
  | adoptLegacyDebits blocks => l.adoptLegacyDebits blocks
  | reapplyDebits hash books => l.reapplyDebits hash books

end Posting

/-- Whether the books record anything taken off. -/
def takesOff (books : Books) : Bool := books.debited ≠ [] || books.shortfall ≠ [] || books.rebateDebited ≠ 0

namespace Posting

/-- How often a call puts a block's debits on the ledger, less how often it takes them off again.
Debits already on are not booked again, and only debits that are on can be undone. -/
def debits (hash : String) : Posting → Int
  | bookDebits block _ books => if block = hash ∧ books.debitsLive = false then 1 else 0
  | unbook block books => if block = hash ∧ books.debitsLive = true then -1 else 0
  | reapplyDebits block books => if block = hash ∧ takesOff books = true then 1 else 0
  | _ => 0

/-- The same for its credits. -/
def credits (hash : String) : Posting → Int
  | bookCredits block _ books => if block = hash ∧ books.creditsLive = false then 1 else 0
  | unbook block books => if block = hash ∧ books.creditsLive = true then -1 else 0
  | _ => 0

end Posting

/-- A ledger with the calls that made it out of the one it started as. -/
structure Posted (start : Ledger) where
  ledger : Ledger
  journal : List Posting
  replays : journal.foldl Posting.apply start = ledger

namespace Posted

variable {start : Ledger}

def fresh (start : Ledger) : Posted start := ⟨start, [], rfl⟩

/-- Enter calls that were made. -/
def enter (p : Posted start) (postings : List Posting) : Posted start :=
  ⟨postings.foldl Posting.apply p.ledger, p.journal ++ postings, by rw [List.foldl_append, p.replays]⟩

/-- How often a block's debits are on the ledger. -/
def debits (p : Posted start) (hash : String) : Int := (p.journal.map (Posting.debits hash)).sum

/-- How often its credits are. -/
def credits (p : Posted start) (hash : String) : Int := (p.journal.map (Posting.credits hash)).sum

@[simp] theorem debits_fresh (hash : String) : (fresh start).debits hash = 0 := rfl

@[simp] theorem credits_fresh (hash : String) : (fresh start).credits hash = 0 := rfl

@[simp] theorem debits_enter (p : Posted start) (postings : List Posting) (hash : String) :
    (p.enter postings).debits hash = p.debits hash + (postings.map (Posting.debits hash)).sum := by
  simp [enter, debits]

@[simp] theorem credits_enter (p : Posted start) (postings : List Posting) (hash : String) :
    (p.enter postings).credits hash = p.credits hash + (postings.map (Posting.credits hash)).sum := by
  simp [enter, credits]

end Posted

/-- The calls on the ledger that an update makes. -/
def Update.postings (l : Ledger) (r : BlockRecord) : Update → List Posting
  | submitted _ => []
  | settle =>
    match r.books with
    | some books =>
      [.bookDebits r.hash r.carryDelta books,
        .bookCredits r.hash r.carryDelta (l.bookDebits r.carryDelta books).2]
    | none => if r.kind.isOrphan then [.settleCarry r.carryDelta, .settleRebate r.rebateDelta] else []
  | orphan =>
    match r.books with
    | some books => [.unbook r.hash books]
    | none => [.settleCarry (reversed r.carryDelta), .settleRebate (-r.rebateDelta)]

/-- The ledger an update leaves is the one its calls make. -/
theorem Update.replays (l : Ledger) (r : BlockRecord) (u : Update) :
    (u.postings l r).foldl Posting.apply l = (u.apply l r).1 := by
  cases u with
  | submitted outcome => rfl
  | settle =>
    cases booked : r.books with
    | some books => simp [postings, apply, settleRecord, booked, Posting.apply]
    | none =>
      by_cases orphan : r.kind.isOrphan = true
      · by_cases moved : r.carryDelta ≠ [] ∨ r.rebateDelta ≠ 0
        · simp [postings, apply, settleRecord, booked, orphan, moved, Posting.apply]
        · have nothing : r.carryDelta = [] ∧ r.rebateDelta = 0 := by simpa [not_or] using moved
          simp [postings, apply, settleRecord, booked, orphan, nothing, Posting.apply, Ledger.settleCarry,
            Ledger.settleRebate]
      · simp [postings, apply, settleRecord, booked, orphan]
  | orphan =>
    cases booked : r.books with
    | some books => simp [postings, apply, orphanRecord, booked, Posting.apply]
    | none =>
      by_cases moved : reversed r.carryDelta ≠ [] ∨ -r.rebateDelta ≠ 0
      · simp only [postings, apply, orphanRecord, booked, if_pos moved, List.foldl_cons, List.foldl_nil,
          Posting.apply]
      · have nothing : reversed r.carryDelta = [] ∧ -r.rebateDelta = 0 := by simpa [not_or] using moved
        simp [postings, apply, orphanRecord, booked, nothing, Posting.apply, Ledger.settleCarry,
          Ledger.settleRebate]

/-- What an update leaves of a block's books. -/
def Update.rebook (l : Ledger) (carryDelta : List (String × Int)) (books : Books) : Update → Books
  | submitted _ => books
  | settle =>
    let (l, books) := l.bookDebits carryDelta books
    (l.bookCredits carryDelta books).2
  | orphan => (l.unbook books).2.1

/-- An update keeps the block's hash and adjustments, and rewrites its books if it has any. -/
theorem Update.apply_record (l : Ledger) (r : BlockRecord) (u : Update) :
    (u.apply l r).2.hash = r.hash ∧ (u.apply l r).2.carryDelta = r.carryDelta ∧
      (u.apply l r).2.books = r.books.map fun books => u.rebook l r.carryDelta books := by
  cases booked : r.books with
  | some books =>
    cases u with
    | submitted outcome => exact ⟨rfl, rfl, booked⟩
    | settle => simp [apply, settleRecord, rebook, booked]
    | orphan => simp [apply, orphanRecord, rebook, booked]
  | none =>
    cases u with
    | submitted outcome => exact ⟨rfl, rfl, booked⟩
    | settle =>
      simp only [apply, settleRecord, booked]
      split
      · simp
      · simp
    | orphan =>
      simp only [apply, orphanRecord, booked]
      split
      · simp
      · simp

/-- An update moves a block's debits on the ledger exactly as it moves the mark in its record. -/
theorem Update.debits_postings (l : Ledger) (r : BlockRecord) (u : Update) (hash : String) :
    ((u.postings l r).map (Posting.debits hash)).sum =
      if r.hash = hash then (u.apply l r).2.debitsLive.toInt - r.debitsLive.toInt else 0 := by
  rw [BlockRecord.debitsLive, (u.apply_record l r).2.2, BlockRecord.debitsLive]
  cases booked : r.books with
  | some books =>
    cases u with
    | submitted outcome => simp [postings, rebook]
    | settle => cases live : books.debitsLive <;> simp [postings, rebook, booked, live, Posting.debits]
    | orphan => cases live : books.debitsLive <;> simp [postings, rebook, booked, live, Posting.debits]
  | none =>
    cases u with
    | submitted outcome => simp [postings]
    | settle => cases marked : r.kind.isOrphan <;> simp [postings, booked, marked, Posting.debits]
    | orphan => simp [postings, booked, Posting.debits]

/-- And its credits. -/
theorem Update.credits_postings (l : Ledger) (r : BlockRecord) (u : Update) (hash : String) :
    ((u.postings l r).map (Posting.credits hash)).sum =
      if r.hash = hash then (u.apply l r).2.creditsLive.toInt - r.creditsLive.toInt else 0 := by
  rw [BlockRecord.creditsLive, (u.apply_record l r).2.2, BlockRecord.creditsLive]
  cases booked : r.books with
  | some books =>
    cases u with
    | submitted outcome => simp [postings, rebook]
    | settle => cases live : books.creditsLive <;> simp [postings, rebook, booked, live, Posting.credits]
    | orphan => cases live : books.creditsLive <;> simp [postings, rebook, booked, live, Posting.credits]
  | none =>
    cases u with
    | submitted outcome => simp [postings]
    | settle => cases marked : r.kind.isOrphan <;> simp [postings, booked, marked, Posting.credits]
    | orphan => simp [postings, booked, Posting.credits]

end Journal

end Lazarus.Primed
