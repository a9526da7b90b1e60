import Lazarus.Lib.Along
import Lazarus.Lib.Last
import Lazarus.Tides.Ledger

/-! Found blocks on record: the record, the append-only log it is kept in, and the marks that tell
which blocks' debits a window includes. -/

namespace Lazarus.Tides

open Machine Last

/-- What a found block's coinbase was, and how often it has been called an orphan. -/
inductive BlockKind where
  | split
  | partialSplit
  | poolOnly
  | solo
  | unknown
  | orphan (kind : BlockKind)
deriving DecidableEq

namespace BlockKind

/-- The kind as it is written to the log. -/
def text : BlockKind → String
  | split => "split"
  | partialSplit => "partial"
  | poolOnly => "pool-only"
  | solo => "solo"
  | unknown => "unknown"
  | orphan kind => "orphan:" ++ kind.text

def isOrphan : BlockKind → Bool
  | orphan _ => true
  | _ => false

/-- The kind without its orphan mark, if it has one. Only one mark comes off. -/
def stripOrphan : BlockKind → BlockKind
  | orphan kind => kind
  | kind => kind

end BlockKind

/-- A block the pool's coinbase paid. `books` is missing on records written before blocks were
booked in two steps. -/
structure BlockRecord where
  ts : Nat := 0
  height : Nat := 0
  hash : String
  finder : Option String := none
  coinbaseValue : Nat := 0
  kind : BlockKind := .split
  owedSats : Nat := 0
  split : List (String × Nat) := []
  poolSats : Nat := 0
  carryPaid : Nat := 0
  carryDelta : List (String × Int) := []
  rebateCredited : Nat := 0
  rebateDelta : Int := 0
  settled : Bool := false
  submit : String := "pending"
  gateway : String := ""
  books : Option Books := none
  carryShortfallSats : Nat := 0
  carryReservedSats : Nat := 0
deriving DecidableEq

namespace BlockRecord

/-- The record says that the block's debits are on the ledger. -/
def debitsLive (r : BlockRecord) : Bool := r.books.any Books.debitsLive

/-- The record says that the block's credits are on the ledger. -/
def creditsLive (r : BlockRecord) : Bool := r.books.any Books.creditsLive

/-- Whether the record is of the block with this hash. -/
def isFor (hash : String) (r : BlockRecord) : Bool := r.hash == hash

@[simp] theorem isFor_iff {hash : String} {r : BlockRecord} : r.isFor hash = true ↔
    r.hash = hash := by simp [isFor]

@[simp] theorem isFor_eq_false {hash : String} {r : BlockRecord} : r.isFor hash = false ↔
    r.hash ≠ hash := by simp [isFor]

end BlockRecord

section Log

/-- The lines of `blocks.jsonl`; `none` is a line that does not parse. -/
abbrev BlockLog := List (Option BlockRecord)

/-- A record takes the place of an earlier one of its hash, or the last place. -/
def fileRecord (out : List BlockRecord) (r : BlockRecord) : List BlockRecord :=
  if out.any (BlockRecord.isFor r.hash) then replaceFirst (BlockRecord.isFor r.hash) r out else out ++ [r]

namespace BlockLog

def append (log : BlockLog) (r : BlockRecord) : BlockLog := List.append log [some r]

/-- A line that does not parse is skipped. -/
def readLine (out : List BlockRecord) : Option BlockRecord → List BlockRecord
  | none => out
  | some r => fileRecord out r

/-- All records in first-seen order, each as its latest line has it. -/
def readAll (log : BlockLog) : List BlockRecord := log.foldl readLine []

/-- The last line for a hash. -/
def lastLine (log : BlockLog) (hash : String) : Option BlockRecord :=
  (log.filterMap id).reverse.find? (BlockRecord.isFor hash)

end BlockLog

private theorem find?_fileRecord (out : List BlockRecord) (r : BlockRecord) (hash : String) :
    (fileRecord out r).find? (BlockRecord.isFor hash) =
      if r.hash = hash then some r else out.find? (BlockRecord.isFor hash) := by
  unfold fileRecord
  cases found : out.find? (BlockRecord.isFor r.hash) with
  | none =>
    have absent : ¬ out.any (BlockRecord.isFor r.hash) = true := by simpa using found
    rw [if_neg absent, List.find?_append]
    by_cases same : r.hash = hash
    · subst same
      simp [found]
    · simp [same, BlockRecord.isFor]
  | some old =>
    have present : out.any (BlockRecord.isFor r.hash) = true := by
      simpa using ⟨old, List.mem_of_find?_eq_some found, by simpa using List.find?_some found⟩
    obtain ⟨before, after, shape, fail, here, replaced⟩ := replaceFirst_split found r
    rw [if_pos present, replaced, shape, List.find?_append, List.find?_append]
    by_cases same : r.hash = hash
    · subst same
      have none : before.find? (BlockRecord.isFor r.hash) = none := by simpa using fail
      simp [none, BlockRecord.isFor]
    · have other : old.hash ≠ hash := by
        rw [BlockRecord.isFor_iff.mp here]
        exact same
      simp [same, other, BlockRecord.isFor]

private theorem nodup_fileRecord {out : List BlockRecord} (distinct : (out.map BlockRecord.hash).Nodup)
    (r : BlockRecord) : ((fileRecord out r).map BlockRecord.hash).Nodup := by
  unfold fileRecord
  cases found : out.find? (BlockRecord.isFor r.hash) with
  | none =>
    have absent : ¬ out.any (BlockRecord.isFor r.hash) = true := by simpa using found
    rw [if_neg absent, List.map_append, List.map_cons, List.map_nil]
    refine List.Nodup.append distinct (by simp) ?_
    intro hash member single
    obtain ⟨other, present, rfl⟩ := List.mem_map.mp member
    have fails := List.find?_eq_none.mp found other present
    simp_all
  | some old =>
    have present : out.any (BlockRecord.isFor r.hash) = true := by
      simpa using ⟨old, List.mem_of_find?_eq_some found, by simpa using List.find?_some found⟩
    obtain ⟨before, after, shape, _, here, replaced⟩ := replaceFirst_split found r
    have same : old.hash = r.hash := BlockRecord.isFor_iff.mp here
    rw [if_pos present, replaced]
    rw [shape] at distinct
    simpa [same] using distinct

namespace BlockLog

@[simp] theorem readAll_append (log : BlockLog) (r : BlockRecord) :
    (log.append r).readAll = fileRecord log.readAll r := by
  have split : log.append r = List.append log [some r] := rfl
  simp [readAll, split, readLine]

@[simp] theorem lastLine_append (log : BlockLog) (r : BlockRecord) (hash : String) :
    (log.append r).lastLine hash = if r.hash = hash then some r else log.lastLine hash := by
  have split : log.append r = List.append log [some r] := rfl
  by_cases same : r.hash = hash
  · simp [lastLine, split, same, BlockRecord.isFor]
  · simp [lastLine, split, same, BlockRecord.isFor]

theorem nodup_readAll (log : BlockLog) : (log.readAll.map BlockRecord.hash).Nodup := by
  refine Run.foldl_kept readLine (fun out => (out.map BlockRecord.hash).Nodup) ?_ log (by simp)
  intro out line distinct
  cases line with
  | none => exact distinct
  | some r => exact nodup_fileRecord distinct r

/-- What is read back for a hash is the last line for it. -/
theorem find?_readAll (log : BlockLog) (hash : String) :
    log.readAll.find? (BlockRecord.isFor hash) = log.lastLine hash := by
  induction log using List.reverseRecOn with
  | nil => rfl
  | append_singleton log line ih =>
    cases line with
    | none => simpa [readAll, readLine, lastLine] using ih
    | some r =>
      have append : (log ++ [some r] : BlockLog) = BlockLog.append log r := rfl
      rw [append, readAll_append, find?_fileRecord, lastLine_append, ih]

theorem lastLine_of_mem_readAll {log : BlockLog} {r : BlockRecord} (member : r ∈ log.readAll) :
    log.lastLine r.hash = some r := by
  rw [← find?_readAll]
  have distinct := nodup_readAll log
  cases found : log.readAll.find? (BlockRecord.isFor r.hash) with
  | none => simpa using List.find?_eq_none.mp found r member
  | some other =>
    have same : other.hash = r.hash := BlockRecord.isFor_iff.mp (List.find?_some found)
    rw [List.inj_on_of_nodup_map distinct (List.mem_of_find?_eq_some found) member same]

theorem mem_readAll_of_lastLine {log : BlockLog} {hash : String} {r : BlockRecord}
    (last : log.lastLine hash = some r) : r ∈ log.readAll ∧ r.hash = hash := by
  rw [← find?_readAll] at last
  exact ⟨List.mem_of_find?_eq_some last, BlockRecord.isFor_iff.mp (List.find?_some last)⟩

end BlockLog

end Log

namespace Ledger

/-- The debits of a block are in this window. -/
def noteDebitApplied (l : Ledger) (hash : String) : Ledger :=
  if hash ∉ l.appliedDebits ∨ l.debitsTracked = false then
    { l with appliedDebits := insert hash l.appliedDebits, debitsTracked := true, dirty := true }
  else l

/-- A ledger from before debits were tracked: every debit on the block log is in the balances. -/
def adoptLegacyDebits (l : Ledger) (blocks : List BlockRecord) : Ledger :=
  if l.debitsTracked then l
  else
    { l with
      appliedDebits :=
        (blocks.filter BlockRecord.debitsLive).foldl (fun applied b => insert b.hash applied) l.appliedDebits
      debitsTracked := true
      dirty := true }

/-- Take off the books what a record says its block took off. -/
def reapplyDebits (l : Ledger) (hash : String) (books : Books) : Ledger :=
  let window := books.debited.foldl (fun w entry => (w.adjustCarry entry.1 (-clampI64 entry.2)).1) l.window
  let window := window.adjustRebateOwed (-clampI64 books.rebateDebited)
  let window := books.shortfall.foldl (fun w entry => w.accrueDebt entry.1 entry.2) window
  { l with window, appliedDebits := insert hash l.appliedDebits, dirty := true }

/-- One record of the block log, set against the window's marks. -/
def reconcileDebit (l : Ledger) (b : BlockRecord) : Ledger :=
  match b.books with
  | none => l
  | some books => if !books.debitsLive || b.hash ∈ l.appliedDebits then l else l.reapplyDebits b.hash books

/-- Re-apply debits that are on the block log but not in this window. -/
def reconcileDebits (l : Ledger) (blocks : List BlockRecord) : Ledger :=
  if l.debitsTracked then blocks.foldl reconcileDebit l else l

end Ledger

end Lazarus.Tides
