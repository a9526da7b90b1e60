import Lazarus.Lib.Lines
import Lazarus.Tides.BlockLog
import Lazarus.Tides.MetaFile
import Lazarus.Tides.Rows
import Lazarus.Tides.Split

/-! The ledger with the files it is kept in: the rows, the identity table and the balances, each with
its own file, written at different moments and read back together. -/

namespace Lazarus.Tides

open Machine Interner

/-- The data directory. `credits` is the whole rows of `credits.bin`. -/
structure Disk where
  identities : List Char := []
  credits : List Credit := []
  window : MetaFiles := {}
deriving DecidableEq

/-- The ledger, the rows of its window and its row writer. `creditsOut` is what the writer has been
given since it last reached the file, as `identsOut` of the ledger is for the identities. -/
structure Store where
  ledger : Ledger := {}
  credits : List Credit := []
  totalWork : Nat := 0
  targetWork : Nat := 0
  lifetimeShares : Nat := 0
  lifetimeWork : Nat := 0
  creditsOut : List Credit := []
  rowsOnDisk : Nat := 0

namespace Store

def window (s : Store) : Window := s.ledger.window

def names (s : Store) : List String := s.ledger.window.idents.names

/-- The window's rows with their sums. -/
def rows (s : Store) : Rows := ⟨s.credits, s.ledger.window.totals, s.totalWork, s.targetWork⟩

def withRows (s : Store) (r : Rows) : Store :=
  { s with
    ledger := { s.ledger with window := { s.ledger.window with totals := r.totals } }
    credits := r.credits
    totalWork := r.totalWork
    targetWork := r.targetWork }

def onLedger (s : Store) (f : Ledger → Ledger) : Store := { s with ledger := f s.ledger }

end Store

section Window

/-- Keep the latest time an identity was credited. -/
def Window.noteSeen (w : Window) (ident ts : Nat) : Window :=
  { w with lastSeen := w.lastSeen.insert ident (max ((w.lastSeen.lookup ident).getD 0) ts) }

/-- When an identity last had work credited; zero if never. -/
def Window.lastSeenOf (w : Window) (identity : String) : Nat := w.idents.amount w.lastSeen identity

/-- Record when an identity was last seen. -/
def Window.setLastSeen (w : Window) (identity : String) (ts : Nat) : Window :=
  let w := w.intern identity
  match w.idents.position identity with
  | none => w
  | some ident => w.noteSeen ident ts

/-- The amounts of a book by name. -/
def Window.named (w : Window) (book : Book) : List (String × Nat) :=
  (book.entries.filterMap fun entry => (w.idents.name? entry.1).map fun name => (name, entry.2)).insertionSort
    fun a b => a.1 ≤ b.1

/-- The holds by batch. -/
def Window.batches (w : Window) : List (String × Hold) :=
  (w.holds.entries.map fun entry => (entry.1, entry.2)).insertionSort fun a b => a.1 ≤ b.1

end Window

section Miners

/-- House stratum work of an identity among the rows, and the part of it inside its grace. -/
def stratumWork (credits : List Credit) (ident : Nat) : Nat × Nat :=
  credits.foldl
    (fun sum c =>
      if c.ident = ident ∧ (c.source = sourceStratum ∨ c.source = sourceStratumGrace) then
        (sum.1 + c.work, if c.source = sourceStratumGrace then sum.2 + c.work else sum.2)
      else sum)
    (0, 0)

/-- Most work first, then the largest carry, then by name. -/
def minerBefore (a b : MinerStat) : Prop :=
  b.work < a.work ∨ b.work = a.work ∧ (b.carry < a.carry ∨ b.carry = a.carry ∧ a.identity ≤ b.identity)

instance : DecidableRel minerBefore := fun _ _ => inferInstanceAs (Decidable (_ ∨ _ ∧ (_ ∨ _ ∧ _)))

/-- Per-identity totals. An identity with carry and no work left is listed with no work. -/
def Store.miners (s : Store) : List MinerStat :=
  let w := s.window
  let working := w.totals.entries.filterMap fun entry =>
    (w.idents.name? entry.1).map fun identity =>
      { identity
        work := entry.2.1
        stratumWork := min (stratumWork s.credits entry.1).1 entry.2.1
        graceWork := min (stratumWork s.credits entry.1).2 entry.2.1
        lastTs := entry.2.2.2
        carry := (w.carry.lookup entry.1).getD 0 }
  let idle := w.carry.entries.filterMap fun entry =>
    if 0 < entry.2 ∧ entry.1 ∉ w.totals then
      (w.idents.name? entry.1).map fun identity =>
        { identity, work := 0, lastTs := (w.lastSeen.lookup entry.1).getD 0, carry := entry.2 }
    else none
  (working ++ idle).insertionSort minerBefore

end Miners

namespace Ledger

/-- Set one identity's carry outright. -/
def setCarry (l : Ledger) (identity : String) (sats : Nat) : Ledger :=
  let known := (l.window.idents.position identity).isSome
  { l with
    window := l.window.setCarry identity sats
    identsOut := if known then l.identsOut else l.identsOut ++ [identity]
    dirty := true }

/-- Set the owed rebate outright. -/
def setRebateOwed (l : Ledger) (sats : Nat) : Ledger :=
  { l with window := { l.window with rebateOwed := sats }, dirty := true }

end Ledger

namespace Store

/-- The row a credit appends: the identity is interned first. -/
def rowFor (w : Window) (identity : String) (work height ts : Nat) (source : UInt8) : Credit :=
  { ts, ident := (w.idents.position identity).getD 0, work, height, source }

/-- Record work as one appended row. -/
def credit (s : Store) (identity : String) (work height ts : Nat) (source : UInt8) : Store :=
  let known := (s.window.idents.position identity).isSome
  let window := s.window.intern identity
  let row := rowFor window identity work height ts source
  let identsOut := if known then s.ledger.identsOut else s.ledger.identsOut ++ [identity]
  let ledger := { s.ledger with window := window.noteSeen row.ident ts, identsOut, dirty := true }
  let next : Store :=
    { s with
      ledger
      lifetimeShares := s.lifetimeShares + 1
      lifetimeWork := satAdd s.lifetimeWork work
      creditsOut := s.creditsOut ++ [row]
      rowsOnDisk := s.rowsOnDisk + 1 }
  next.withRows (next.rows.creditRow row)

def setTarget (s : Store) (targetWork : Nat) : Store :=
  if s.targetWork = targetWork then s
  else (s.withRows (s.rows.setTarget targetWork)).onLedger fun l => { l with dirty := true }

/-- A row of another pool's ledger. -/
structure ImportRow where
  ts : Nat
  identity : String
  work : Nat
  height : Nat := 0
  source : UInt8 := 0
deriving DecidableEq

/-- Only the two plain tags are imported as they are. -/
def importSource (source : UInt8) : UInt8 :=
  if source = sourceStratum then sourceStratum else if source = sourceDatum then sourceDatum else sourceUnknown

def importRow (s : Store) (r : ImportRow) : Store :=
  s.credit r.identity r.work r.height r.ts (importSource r.source)

/-- What a flush writes to `window.json`. Last-seen times go with everyone owed money, on the books or
in a hold. -/
def toMeta (s : Store) : Meta :=
  let owed := (s.window.named s.window.carry).map Prod.fst ++
    s.window.batches.flatMap fun batch => batch.2.entries.map Prod.fst
  { targetWork := s.targetWork
    lifetimeShares := s.lifetimeShares
    lifetimeWork := s.lifetimeWork
    carry := s.window.named s.window.carry
    rebateOwed := s.window.rebateOwed
    lastSeen :=
      (owed.dedup.map fun identity => (identity, s.window.lastSeenOf identity)).filter fun seen => 0 < seen.2
    holds := s.window.batches
    debt := s.window.named s.window.debt
    appliedDebits := s.ledger.appliedDebits
    appliedDebitsTracked := s.ledger.debitsTracked }

/-- Rewrite `credits.bin` with only the rows still in the window. -/
def compact (s : Store) (d : Disk) : Store × Disk :=
  ({ s with creditsOut := [], rowsOnDisk := s.credits.length }, { d with credits := s.credits })

/-- Push buffered rows to the files and write the balances. -/
def flush (s : Store) (d : Disk) : Store × Disk :=
  if !s.ledger.dirty then (s, d)
  else
    let d : Disk :=
      { identities := d.identities ++ Lines.text s.ledger.identsOut
        credits := d.credits ++ s.creditsOut
        window := writeAtomic d.window s.toMeta }
    let s := { s with ledger := { s.ledger with identsOut := [], dirty := false }, creditsOut := [] }
    if s.credits.length + 8192 < s.rowsOnDisk then s.compact d else (s, d)

/-- Make the files identical to the window in memory. -/
def persistWindow (s : Store) (d : Disk) : Store × Disk :=
  let (s, d) := s.flush d
  if s.rowsOnDisk ≠ s.credits.length then s.compact d else (s, d)

def importJsonCredits (s : Store) (d : Disk) (doc : List ImportRow) : Store × Disk :=
  (doc.foldl importRow s).flush d

end Store

section Open

/-- One balance of the file; also the identities it names that the table did not have. -/
def loadCarry (state : Window × List String) (entry : String × Nat) : Window × List String :=
  let (window, newIdents) := state
  (window.setCarry entry.1 entry.2,
    if (window.idents.position entry.1).isSome then newIdents else newIdents ++ [entry.1])

/-- One debt of the file. -/
def loadDebt (state : Window × List String) (entry : String × Nat) : Window × List String :=
  let (window, newIdents) := state
  (window.accrueDebt entry.1 entry.2,
    if (window.idents.position entry.1).isSome then newIdents else newIdents ++ [entry.1])

/-- One last-seen time of the file, for an identity the table has. -/
def loadSeen (window : Window) (entry : String × Nat) : Window :=
  if (window.idents.position entry.1).isSome then window.setLastSeen entry.1 entry.2 else window

/-- A new window with the balances no identity is needed for. -/
def Meta.bare (m : Meta) : Window :=
  { idents := ⟨[], List.nodup_nil⟩
    rebateOwed := m.rebateOwed
    holds := (m.holds.map fun batch => ⟨batch.1, batch.2⟩).toAList
    carryKnown := known_empty
    debtKnown := known_empty }

/-- The window of the balances alone, and the identities they brought in. -/
def loadWindow (m : Meta) (identities : List Char) : Window × List String :=
  let window := (Lines.read identities).foldl Window.intern m.bare
  let (window, newIdents) := m.debt.foldl loadDebt (m.carry.foldl loadCarry (window, []))
  (m.lastSeen.foldl loadSeen window, newIdents)

/-- Replay a stored row. -/
def Store.pushRaw (s : Store) (row : Credit) : Store :=
  let s := s.onLedger fun l => { l with window := l.window.noteSeen row.ident row.ts }
  s.withRows (s.rows.pushRaw row)

/-- What `open` makes of balances that were read and of the other two files. A torn last line is cut
off, and a row whose identity never reached the file leaves `credits.bin` too. -/
def openFrom (m : Meta) (d : Disk) : Store × Disk :=
  let d := { d with identities := Lines.whole d.identities }
  let (window, newIdents) := loadWindow m d.identities
  let usable := d.credits.filter fun row => row.ident < window.idents.size
  let start : Store :=
    { ledger :=
        { window
          identsOut := newIdents
          dirty := newIdents ≠ []
          appliedDebits := m.appliedDebits
          debitsTracked := m.appliedDebitsTracked }
      lifetimeShares := m.lifetimeShares
      lifetimeWork := m.lifetimeWork
      rowsOnDisk := usable.length }
  let replayed := usable.foldl Store.pushRaw start
  let s := replayed.withRows (replayed.rows.setTarget m.targetWork)
  if usable.length < d.credits.length ∨ s.credits.length + 8192 < s.rowsOnDisk then s.compact d else (s, d)

/-- Open the ledger in a directory and replay it. -/
def openLedger (d : Disk) : Except String (Store × Disk) :=
  match loadMeta d.window with
  | .error complaint => .error complaint
  | .ok m => .ok (openFrom m d)

end Open

end Lazarus.Tides
