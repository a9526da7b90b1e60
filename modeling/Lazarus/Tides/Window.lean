import Lazarus.Lib.Interned
import Lazarus.Lib.Machine

/-! The money of the share window: carry, double-pay debt, the owed rebate and the holds, with the
primitives that move them. Balances are filed under the index of an interned identity. -/

namespace Lazarus.Tides

open Machine Interner

/-- Carry set aside to be paid by an ordinary transaction, outside any coinbase. -/
structure Hold where
  createdTs : Nat
  height : Nat
  readyHeight : Nat
  entries : List (String × Nat)
deriving DecidableEq

/-- A balance whose owner has stopped mining. -/
structure StaleCarry where
  identity : String
  sats : Nat
  lastSeen : Nat
deriving DecidableEq

/-- The balances of the sliding window. `totals` is work, credit rows and last credit per identity
with rows left; `carry` and `debt` hold only indices the identity table has given out. -/
structure Window where
  idents : Interner String := {}
  totals : AList (fun _ : Nat => Nat × Nat × Nat) := ∅
  carry : Book := ∅
  rebateOwed : Nat := 0
  lastSeen : Book := ∅
  holds : AList (fun _ : String => Hold) := ∅
  debt : Book := ∅
  carryKnown : idents.Known carry := by decide
  debtKnown : idents.Known debt := by decide

/-- A window starts out with no identity and no balance. -/
theorem known_empty : Interner.Known (⟨[], List.nodup_nil⟩ : Interner String) ∅ := by decide

def noBalances : Window := ⟨⟨[], List.nodup_nil⟩, ∅, ∅, 0, ∅, ∅, ∅, known_empty, known_empty⟩

namespace Window

/-- Intern an identity, keeping every balance. -/
def intern (w : Window) (identity : String) : Window :=
  { w with
    idents := w.idents.intern identity
    carryKnown := w.carryKnown.intern identity
    debtKnown := w.debtKnown.intern identity }

/-- File a carry under an identity's index; an identity without one has nothing to file under. -/
def fileCarry (w : Window) (identity : String) (sats : Nat) : Window :=
  match found : w.idents.position identity with
  | none => w
  | some index =>
    { w with carry := put w.carry index sats, carryKnown := w.carryKnown.put (position_lt found) sats }

/-- File a debt under an identity's index. -/
def fileDebt (w : Window) (identity : String) (sats : Nat) : Window :=
  match found : w.idents.position identity with
  | none => w
  | some index =>
    { w with debt := put w.debt index sats, debtKnown := w.debtKnown.put (position_lt found) sats }

/-- Unplaced earnings held for one identity. -/
def carryOf (w : Window) (identity : String) : Nat := w.idents.amount w.carry identity

/-- Carry a coinbase paid twice, still to be collected. -/
def debtOf (w : Window) (identity : String) : Nat := w.idents.amount w.debt identity

/-- Set an identity's carry outright. -/
def setCarry (w : Window) (identity : String) (sats : Nat) : Window :=
  (w.intern identity).fileCarry identity sats

/-- Move an identity's carry by `delta`, stopping at zero; also the new carry. -/
def adjustCarry (w : Window) (identity : String) (delta : Int) : Window × Nat :=
  let w := w.intern identity
  let cur := w.carryOf identity
  let new := if 0 ≤ delta then satAdd cur delta.natAbs else cur - delta.natAbs
  (w.fileCarry identity new, new)

/-- Move the owed rebate by `delta`, stopping at zero. -/
def adjustRebateOwed (w : Window) (delta : Int) : Window :=
  { w with
    rebateOwed := if delta < 0 then w.rebateOwed - delta.natAbs else satAdd w.rebateOwed delta.natAbs }

/-- Record that a coinbase paid `identity` carry the books did not hold. -/
def accrueDebt (w : Window) (identity : String) (sats : Nat) : Window :=
  if sats = 0 then w
  else
    let w := w.intern identity
    w.fileDebt identity (satAdd (w.debtOf identity) sats)

/-- Collect up to `sats` of debt; also what was collected. -/
def reduceDebt (w : Window) (identity : String) (sats : Nat) : Window × Nat :=
  match w.idents.position identity with
  | none => (w, 0)
  | some _ =>
    let cur := w.debtOf identity
    let take := min cur sats
    (w.fileDebt identity (cur - take), take)

/-- Put a debt back after the block that paid it down is orphaned, taking it from carry first. -/
def restoreDebt (w : Window) (identity : String) (sats : Nat) : Window :=
  if sats = 0 then w
  else
    let fromCarry := min (w.carryOf identity) sats
    let w := if 0 < fromCarry then (w.adjustCarry identity (-clampI64 fromCarry)).1 else w
    w.accrueDebt identity (sats - fromCarry)

/-- The payment a debt was for is undone: what is still owed comes off, the rest is carry again. -/
def forgiveDebt (w : Window) (identity : String) (sats : Nat) : Window :=
  let (w, fromDebt) := w.reduceDebt identity sats
  let back := sats - fromDebt
  if 0 < back then (w.adjustCarry identity (clampI64 back)).1 else w

/-- Put sats back on an identity's books, paying its debt down first; also the new carry. -/
def restoreCarry (w : Window) (identity : String) (sats : Nat) : Window × Nat :=
  let (w, paid) := w.reduceDebt identity sats
  let rest := sats - paid
  if rest = 0 then (w, w.carryOf identity) else w.adjustCarry identity (clampI64 rest)

/-- Largest balance first, then by name. -/
def staleBefore (a b : StaleCarry) : Prop := b.sats < a.sats ∨ b.sats = a.sats ∧ a.identity ≤ b.identity

instance : DecidableRel staleBefore := fun _ _ => inferInstanceAs (Decidable (_ ∨ _ ∧ _))

/-- Balances with no work in the window, last credited at least `after` seconds ago, of at least
`least` sats. An identity never seen is not stale. -/
def staleCarries (w : Window) (now after least : Nat) : List StaleCarry :=
  (w.carry.entries.filterMap fun entry =>
    let lastSeen := (w.lastSeen.lookup entry.1).getD 0
    if max least 1 ≤ entry.2 ∧ entry.1 ∉ w.totals ∧ 0 < lastSeen ∧ after ≤ now - lastSeen then
      (w.idents.name? entry.1).map fun identity => { identity, sats := entry.2, lastSeen }
    else none).insertionSort staleBefore

/-- Take up to `left` sats of one identity out of a hold's entries; also what is left to take. -/
def drawEntries (identity : String) : Nat → List (String × Nat) → List (String × Nat) × Nat
  | left, [] => ([], left)
  | left, entry :: rest =>
    let take := if entry.1 = identity then min entry.2 left else 0
    let (rest, left) := drawEntries identity (left - take) rest
    ((entry.1, entry.2 - take) :: rest, left)

/-- Oldest batch first, then by id. -/
def batchBefore (a b : Nat × String) : Prop := a.1 < b.1 ∨ a.1 = b.1 ∧ a.2 ≤ b.2

instance : DecidableRel batchBefore := fun _ _ => inferInstanceAs (Decidable (_ ∨ _ ∧ _))

/-- Draw from one batch. A hold left with nothing in it is dropped. -/
def drawBatch (identity : String) (state : AList (fun _ : String => Hold) × Nat) (batch : String) :
    AList (fun _ : String => Hold) × Nat :=
  let (holds, left) := state
  if left = 0 then state
  else
    match holds.lookup batch with
    | none => state
    | some hold =>
      let (drawn, left) := drawEntries identity left hold.entries
      let entries := drawn.filter fun entry => 0 < entry.2
      (if entries = [] then holds.erase batch else holds.insert batch { hold with entries }, left)

/-- Take up to `sats` of one identity's money out of the holds, oldest batch first; also what was
taken. -/
def drawFromHolds (w : Window) (identity : String) (sats : Nat) : Window × Nat :=
  let order := (w.holds.entries.map fun entry => (entry.2.createdTs, entry.1)).insertionSort batchBefore
  let (holds, left) := (order.map Prod.snd).foldl (drawBatch identity) (w.holds, sats)
  ({ w with holds }, sats - left)

end Window

end Lazarus.Tides
