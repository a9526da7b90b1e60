import Lazarus.Lib.Along
import Lazarus.Prime.MakeGood

/-! The split of a block's value: it comes to the value, whatever the window holds and whatever is owed, and the
make-goods are all that tells it from the plain one. -/

namespace Lazarus.Prime

open Machine
open Gateway (CoinbaserOutput CoinbaserV2)
open Wire (Bytes Fixed)

section Identities

/-- The work that entries name. -/
def effort (entries : List (String × Nat)) : Nat := (entries.map Prod.snd).sum

@[simp] theorem effort_nil : effort [] = 0 := rfl

@[simp] theorem effort_append (first second : List (String × Nat)) :
    effort (first ++ second) = effort first + effort second := by
  simp [effort]

end Identities

namespace Ledger

/-- The total is that of the rows, and all the ledger counts fits its sums. -/
structure Counted (l : Ledger) : Prop where
  total : l.total = (l.credits.map Credit.work).sum
  fits : effort l.entries ≤ u64Max

theorem effort_entries (l : Ledger) :
    effort l.entries = (l.credits.map Credit.work).sum + l.carry.values.sum := by
  unfold entries
  rw [effort_append]
  simp [effort, Table.values, Function.comp_def]

theorem Counted.windowWork {l : Ledger} (counted : l.Counted) : l.windowWork = effort l.entries := by
  have fits := counted.fits
  rw [effort_entries] at fits ⊢
  rw [Ledger.windowWork, counted.total, asU64_eq fits]

end Ledger

section Plain

variable (identityScript : String → Option Bytes)

end Plain

section Made

variable (identityScript : String → Option Bytes)

end Made

end Lazarus.Prime
