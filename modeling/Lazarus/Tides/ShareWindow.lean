import Lazarus.Tides.Opening

/-! The share window by itself: crediting work with or without merging it into the last row, resizing,
and replaying a ledger's files into a new window. Its sums are kept beside the rows and moved with each
of them. -/

namespace Lazarus.Tides

open Machine Interner

section Coalesce

/-- Work that agrees with a row in all but the amount belongs to it. -/
def Credit.Continues (tail c : Credit) : Prop :=
  tail.ident = c.ident ∧ tail.ts = c.ts ∧ tail.height = c.height ∧ tail.source = c.source

instance Credit.continues_decidable (tail c : Credit) : Decidable (tail.Continues c) :=
  inferInstanceAs (Decidable (_ ∧ _))

/-- Count work in without a row of its own. -/
def Totals.swell (totals : Totals) (c : Credit) : Totals :=
  let t := (totals.lookup c.ident).getD (0, 0, 0)
  totals.insert c.ident (satAdd t.1 c.work, t.2.1, c.ts)

namespace Rows

/-- The row that new work is merged into. -/
def tailFor (r : Rows) (c : Credit) : Option Credit := r.credits.getLast?.filter fun tail => tail.Continues c

/-- Put work into the last row where it belongs there, else in a row of its own. -/
def coalesce (r : Rows) (c : Credit) : Rows :=
  match r.tailFor c with
  | some tail =>
    { r with
      credits := r.credits.dropLast ++ [{ tail with work := satAdd tail.work c.work }]
      totals := r.totals.swell c
      totalWork := satAdd r.totalWork c.work }
  | none => r.append (fun _ ts => ts) c

end Rows

end Coalesce

/-- The sliding share window: the identities with their balances, and the rows with their sums. -/
structure ShareWindow where
  balances : Window := noBalances
  credits : List Credit := []
  totalWork : Nat := 0
  targetWork : Nat := 0
  lifetimeShares : Nat := 0
  lifetimeWork : Nat := 0

namespace ShareWindow

def rows (w : ShareWindow) : Rows := ⟨w.credits, w.balances.totals, w.totalWork, w.targetWork⟩

def withRows (w : ShareWindow) (r : Rows) : ShareWindow :=
  { w with
    balances := { w.balances with totals := r.totals }
    credits := r.credits
    totalWork := r.totalWork
    targetWork := r.targetWork }

/-- What a credit does before the rows: intern, count and date. -/
def enter (w : ShareWindow) (identity : String) (work ts : Nat) : ShareWindow :=
  let balances := w.balances.intern identity
  { w with
    balances := balances.noteSeen ((balances.idents.position identity).getD 0) ts
    lifetimeShares := w.lifetimeShares + 1
    lifetimeWork := satAdd w.lifetimeWork work }

/-- The work as a row; the identity has been interned. -/
def row (w : ShareWindow) (identity : String) (work height ts : Nat) (source : UInt8) : Credit :=
  Store.rowFor w.balances identity work height ts source

/-- Add work; also the row it is stored in and whether that is a new one. -/
def credit (w : ShareWindow) (identity : String) (work height ts : Nat) (source : UInt8) :
    ShareWindow × Credit × Bool :=
  let w := w.enter identity work ts
  let c := w.row identity work height ts source
  let stored := w.rows.coalesce c
  (w.withRows stored.trim, stored.credits.getLast?.getD c, (w.rows.tailFor c).isNone)

/-- Add work as its own row, never merging into the tail; also that row. -/
def creditRow (w : ShareWindow) (identity : String) (work height ts : Nat)
    (source : UInt8) : ShareWindow × Credit :=
  let w := w.enter identity work ts
  let c := w.row identity work height ts source
  (w.withRows (w.rows.creditRow c), c)

/-- Resize the window and trim. -/
def setTarget (w : ShareWindow) (targetWork : Nat) : ShareWindow := w.withRows (w.rows.setTarget targetWork)

/-- Replay a stored row. -/
def pushRaw (w : ShareWindow) (c : Credit) : ShareWindow :=
  let w := { w with balances := w.balances.noteSeen c.ident c.ts }
  w.withRows (w.rows.pushRaw c)

/-- The window a ledger's files are read into, before any row. -/
def loaded (m : Meta) (identities : List Char) : ShareWindow :=
  { balances := (loadWindow m identities).1
    lifetimeShares := m.lifetimeShares
    lifetimeWork := m.lifetimeWork }

/-- The stored rows whose identity the table has. -/
def known (w : ShareWindow) (credits : List Credit) : List Credit :=
  credits.filter fun row => row.ident < w.balances.idents.size

/-- Replay a ledger's files into a new window. -/
def replay (m : Meta) (identities : List Char) (credits : List Credit) : ShareWindow :=
  let w := loaded m identities
  ((w.known credits).foldl pushRaw w).setTarget m.targetWork

/-- Per-identity totals. -/
def miners (w : ShareWindow) : List MinerStat :=
  ({ ledger := { window := w.balances }, credits := w.credits } : Store).miners

end ShareWindow

/-- The window of a ledger. -/
def Store.shareWindow (s : Store) : ShareWindow :=
  { balances := s.ledger.window
    credits := s.credits
    totalWork := s.totalWork
    targetWork := s.targetWork
    lifetimeShares := s.lifetimeShares
    lifetimeWork := s.lifetimeWork }

section Ledger

variable (s : Store)

theorem Store.miners_shareWindow : s.shareWindow.miners = s.miners := rfl

/-- The ledger credits its window row by row. -/
theorem Store.shareWindow_credit (identity : String) (work height ts : Nat) (source : UInt8) :
    (s.credit identity work height ts source).shareWindow =
      (s.shareWindow.creditRow identity work height ts source).1 := rfl

theorem Store.shareWindow_pushRaw (row : Credit) :
    (s.pushRaw row).shareWindow = s.shareWindow.pushRaw row := rfl

theorem Store.shareWindow_replay (credits : List Credit) :
    (credits.foldl Store.pushRaw s).shareWindow = credits.foldl ShareWindow.pushRaw s.shareWindow := by
  induction credits generalizing s with
  | nil => rfl
  | cons row rest ih => exact ih (s.pushRaw row)

/-- Opening a ledger leaves the window that its files replay to. -/
theorem Store.shareWindow_open (m : Meta) (d : Disk) :
    (openFrom m d).1.shareWindow = ShareWindow.replay m (Lines.whole d.identities) d.credits := by
  have replayed := Store.shareWindow_replay
    { ledger :=
        { window := (loadWindow m (Lines.whole d.identities)).1
          identsOut := (loadWindow m (Lines.whole d.identities)).2
          dirty := (loadWindow m (Lines.whole d.identities)).2 ≠ []
          appliedDebits := m.appliedDebits
          debitsTracked := m.appliedDebitsTracked }
      lifetimeShares := m.lifetimeShares
      lifetimeWork := m.lifetimeWork
      rowsOnDisk := ((ShareWindow.loaded m (Lines.whole d.identities)).known d.credits).length }
    ((ShareWindow.loaded m (Lines.whole d.identities)).known d.credits)
  unfold openFrom
  simp only
  split
  · exact congrArg (fun w => w.setTarget m.targetWork) replayed
  · exact congrArg (fun w => w.setTarget m.targetWork) replayed

end Ledger

/-- What can happen to a share window. A replay makes a new one. -/
inductive WindowOp where
  | credit (identity : String) (work height ts : Nat) (source : UInt8)
  | creditRow (identity : String) (work height ts : Nat) (source : UInt8)
  | setTarget (targetWork : Nat)
  | replay (m : Meta) (identities : List Char) (credits : List Credit)
  | setCarry (identity : String) (sats : Nat)
  | adjustCarry (identity : String) (delta : Int)

namespace ShareWindow

def step (w : ShareWindow) : WindowOp → ShareWindow
  | .credit identity work height ts source => (w.credit identity work height ts source).1
  | .creditRow identity work height ts source => (w.creditRow identity work height ts source).1
  | .setTarget targetWork => w.setTarget targetWork
  | .replay m identities credits => replay m identities credits
  | .setCarry identity sats => { w with balances := w.balances.setCarry identity sats }
  | .adjustCarry identity delta => { w with balances := (w.balances.adjustCarry identity delta).1 }

/-- The rows present when an operation comes to trim them. -/
def present (w : ShareWindow) : WindowOp → List Credit
  | .credit identity work height ts source =>
    let entered := w.enter identity work ts
    (entered.rows.coalesce (entered.row identity work height ts source)).credits
  | .creditRow identity work height ts source =>
    w.credits ++ [(w.enter identity work ts).row identity work height ts source]
  | .replay m identities credits => (loaded m identities).known credits
  | _ => w.credits

/-- No sum of work saturates. -/
def Fits (w : ShareWindow) : WindowOp → Prop
  | .credit _ work _ _ _ => w.totalWork + work ≤ u64Max
  | .creditRow _ work _ _ _ => w.totalWork + work ≤ u64Max
  | .replay m identities credits => Tides.work ((loaded m identities).known credits) ≤ u64Max
  | _ => True

instance fits_decidable (w : ShareWindow) (op : WindowOp) : Decidable (w.Fits op) := by
  cases op
  all_goals
    unfold Fits
    infer_instance

/-- The sums are those of the rows: the identities with a row are the ones that have totals, each with
the work of its rows and their number. -/
structure Summed (w : ShareWindow) : Prop where
  total : w.totalWork = work w.credits
  listed : ∀ ident, ident ∈ w.balances.totals ↔ ∃ row ∈ w.credits, row.ident = ident
  each : ∀ ident t, w.balances.totals.lookup ident = some t →
    t.1 = work (rowsOf ident w.credits) ∧ t.2.1 = (rowsOf ident w.credits).length

/-- The miners are the identities with a row or with carry, each once, and the work of all is the
window's. -/
structure Listed (w : ShareWindow) : Prop where
  once : (w.miners.map MinerStat.identity).Nodup
  mem : ∀ identity, identity ∈ w.miners.map MinerStat.identity ↔
    (∃ row ∈ w.credits, w.balances.idents.name? row.ident = some identity) ∨ 0 < w.balances.carryOf identity
  total : (w.miners.map MinerStat.work).sum = w.totalWork
  nested : ∀ m ∈ w.miners, m.graceWork ≤ m.stratumWork ∧ m.stratumWork ≤ m.work

end ShareWindow

section Rows

theorem Totals.tallied_swell {totals : Totals} {c : Credit} {t : Nat × Nat}
    (found : totals.tallied c.ident = some t) (ident : Nat) :
    (totals.swell c).tallied ident = if c.ident = ident then some (satAdd t.1 c.work, t.2) else
      totals.tallied ident := by
  unfold Totals.swell Totals.tallied
  obtain ⟨whole, present, rfl⟩ := Option.map_eq_some_iff.mp found
  by_cases own : c.ident = ident
  · subst own
    simp [present]
  · simp [own, AList.lookup_insert_ne (Ne.symm own)]

private theorem rowTally_le {credits : List Credit} {ident : Nat} {t : Nat × Nat}
    (found : rowTally credits ident = some t) : t.1 ≤ work credits := by
  unfold rowTally at found
  split at found
  · cases found
  · cases found
    exact work_rowsOf_le ident credits

namespace Rows

theorem tailFor_eq {r : Rows} {c tail : Credit} (found : r.tailFor c = some tail) :
    r.credits = r.credits.dropLast ++ [tail] ∧ tail.Continues c := by
  obtain ⟨last, continues⟩ := Option.filter_eq_some_iff.mp found
  have shape := List.dropLast_append_getLast? tail last
  exact ⟨shape.symm, of_decide_eq_true continues⟩

/-- Work put into the last row, or into a new one, is counted exactly while it fits. -/
theorem Tallied.coalesce {r : Rows} (tallied : r.Tallied) (c : Credit)
    (fits : work r.credits + c.work ≤ u64Max) : (r.coalesce c).Tallied := by
  unfold Rows.coalesce
  cases found : r.tailFor c with
  | none => exact tallied.append (fun _ ts => ts) c fits
  | some tail =>
    obtain ⟨shape, continues⟩ := tailFor_eq found
    generalize r.credits.dropLast = earlier at shape
    have summed : work r.credits = work earlier + tail.work := by simp [shape]
    have grown : satAdd tail.work c.work = tail.work + c.work := satAdd_eq (by omega)
    constructor
    · show satAdd r.totalWork c.work = work (earlier ++ [{ tail with work := satAdd tail.work c.work }])
      rw [tallied.total, satAdd_eq fits, summed]
      simp only [work_append, work_cons, work_nil, grown]
      omega
    · intro ident
      have before := tallied.each c.ident
      rw [shape, rowTally_append, if_pos continues.1] at before
      have own : ((rowTally earlier c.ident).getD (0, 0)).1 + tail.work ≤ work r.credits := by
        have grown : rowTally r.credits c.ident = some (((rowTally earlier c.ident).getD (0, 0)).1 + tail.work,
            ((rowTally earlier c.ident).getD (0, 0)).2 + 1) := by
          rw [shape, rowTally_append, if_pos continues.1]
        exact rowTally_le grown
      show (r.totals.swell c).tallied ident =
        rowTally (earlier ++ [{ tail with work := satAdd tail.work c.work }]) ident
      rw [Totals.tallied_swell before, rowTally_append, continues.1]
      by_cases here : c.ident = ident
      · subst here
        rw [if_pos rfl, if_pos rfl, satAdd_eq (by omega), grown, Nat.add_assoc]
      · rw [if_neg here, if_neg here, tallied.each ident, shape, rowTally_append, continues.1, if_neg here]

/-- No row is filed under an index that neither a row nor the work had. -/
theorem ident_coalesce {r : Rows} {c row : Credit} (member : row ∈ (r.coalesce c).credits) :
    row.ident = c.ident ∨ row ∈ r.credits := by
  unfold coalesce at member
  cases found : r.tailFor c with
  | none =>
    rw [found] at member
    rcases List.mem_append.mp member with earlier | new
    · exact .inr earlier
    · exact .inl (congrArg Credit.ident (List.mem_singleton.mp new))
  | some tail =>
    rw [found] at member
    obtain ⟨_, continues⟩ := tailFor_eq found
    rcases List.mem_append.mp member with earlier | new
    · exact .inr (List.mem_of_mem_dropLast earlier)
    · exact .inl ((congrArg Credit.ident (List.mem_singleton.mp new)).trans continues.1)

end Rows

end Rows

section Loading

variable {w : Window}

private theorem totals_accrueDebt (w : Window) (identity : String) (sats : Nat) :
    (w.accrueDebt identity sats).totals = w.totals := by
  unfold Window.accrueDebt
  split
  · rfl
  · exact Window.totals_fileDebt (w.intern identity) identity _

private theorem totals_loadSeen (w : Window) (entry : String × Nat) : (loadSeen w entry).totals = w.totals := by
  unfold loadSeen Window.setLastSeen
  split
  · simp only
    split
    · rfl
    · rfl
  · rfl

private theorem totals_loadWindow (m : Meta) (identities : List Char) :
    (loadWindow m identities).1.totals = ∅ := by
  have same (w : Window) (identity : String) : (w.intern identity).totals = w.totals := rfl
  have named : ((Lines.read identities).foldl Window.intern m.bare).totals = m.bare.totals :=
    Run.foldl_unmoved Window.totals same m.bare (Lines.read identities)
  have carried (start : Window × List String) : (m.carry.foldl loadCarry start).1.totals = start.1.totals :=
    Run.foldl_unmoved (fun state => state.1.totals)
      (fun state entry => Window.totals_setCarry state.1 entry.1 entry.2) start m.carry
  have owing (start : Window × List String) : (m.debt.foldl loadDebt start).1.totals = start.1.totals :=
    Run.foldl_unmoved (fun state => state.1.totals)
      (fun state entry => totals_accrueDebt state.1 entry.1 entry.2) start m.debt
  have dated (start : Window) : (m.lastSeen.foldl loadSeen start).totals = start.totals :=
    Run.foldl_unmoved Window.totals totals_loadSeen start m.lastSeen
  exact (dated _).trans ((owing _).trans ((carried _).trans named))

end Loading

namespace ShareWindow

section Exact

/-- The sums are exact, every row has an identity, and there is nothing left to trim. -/
structure Exact (w : ShareWindow) : Prop where
  tallied : w.rows.Tallied
  indexed : ∀ row ∈ w.credits, row.ident < w.balances.idents.size
  settled : Trim.kept Credit.work w.targetWork w.credits = w.credits

theorem exact_empty : ({} : ShareWindow).Exact where
  tallied := Rows.tallied_empty
  indexed := by simp
  settled := rfl

variable {w : ShareWindow}

theorem size_enter (identity : String) (work ts : Nat) :
    w.balances.idents.size ≤ (w.enter identity work ts).balances.idents.size :=
  size_le_intern w.balances.idents identity

/-- A new row is its identity's. -/
theorem ident_row (w : ShareWindow) (identity : String) (work height ts : Nat) (source : UInt8) :
    ((w.enter identity work ts).row identity work height ts source).ident <
      (w.enter identity work ts).balances.idents.size := by
  obtain ⟨index, found⟩ := exists_position_intern w.balances.idents identity
  have here : (w.enter identity work ts).balances.idents.position identity = some index := found
  simp only [row, Store.rowFor, here, Option.getD_some]
  exact position_lt here

/-- Rows whose sums are exact are still so once trimmed, under the same identities or more. -/
theorem Exact.trimmed (start : ShareWindow) {r : Rows} (tallied : r.Tallied)
    (indexed : ∀ row ∈ r.credits, row.ident < start.balances.idents.size) :
    (start.withRows r.trim).Exact ∧
      (start.withRows r.trim).credits = Trim.kept Credit.work r.targetWork r.credits := by
  obtain ⟨tallied', kept⟩ := tallied.trim
  refine ⟨⟨tallied', ?_, ?_⟩, kept⟩
  · intro row member
    exact indexed row ((Rows.trim_suffix r).subset member)
  · show Trim.kept Credit.work r.trim.targetWork r.trim.credits = r.trim.credits
    rw [Rows.targetWork_trim, kept]
    exact Trim.kept_idem Credit.work _ _

theorem rows_replay (credits : List Credit) :
    (credits.foldl pushRaw w).rows = credits.foldl Rows.pushRaw w.rows ∧
    (credits.foldl pushRaw w).balances.idents = w.balances.idents := by
  induction credits generalizing w with
  | nil => exact ⟨rfl, rfl⟩
  | cons row rest ih => exact ih (w := w.pushRaw row)

/-- Work that has been entered, in whatever row, leaves exact sums once trimmed. -/
theorem Exact.entered (exactly : w.Exact) (identity : String) (amount ts : Nat) {r : Rows} {c : Credit}
    (tallied : r.Tallied)
    (seated : c.ident < (w.enter identity amount ts).balances.idents.size)
    (within : ∀ row ∈ r.credits, row.ident = c.ident ∨ row ∈ w.credits) :
    ((w.enter identity amount ts).withRows r.trim).Exact ∧
      r.trim.credits = Trim.kept Credit.work r.trim.targetWork r.credits := by
  obtain ⟨trimmed, kept⟩ := Exact.trimmed (w.enter identity amount ts) tallied (by
    intro row member
    rcases within row member with new | earlier
    · exact new ▸ seated
    · exact Nat.lt_of_lt_of_le (exactly.indexed row earlier) (size_enter identity amount ts))
  rw [Rows.targetWork_trim]
  exact ⟨trimmed, kept⟩

theorem Exact.room (exactly : w.Exact) (identity : String) {amount : Nat} (height ts : Nat) (source : UInt8)
    (fits : w.totalWork + amount ≤ u64Max) :
    Tides.work w.credits +
      ((w.enter identity amount ts).row identity amount height ts source).work ≤ u64Max := by
  have total : w.totalWork = Tides.work w.credits := exactly.tallied.total
  rw [← total]
  exact fits

/-- Every operation keeps the sums exact, and leaves of the rows present those its target keeps. -/
theorem Exact.step (exactly : w.Exact) (op : WindowOp) (fits : w.Fits op) :
    (w.step op).Exact ∧ (w.step op).credits = Trim.kept Credit.work (w.step op).targetWork (w.present op) := by
  cases op with
  | credit identity amount height ts source =>
    have seated := w.ident_row identity amount height ts source
    have tallied := exactly.tallied.coalesce _ (exactly.room identity height ts source fits)
    exact exactly.entered identity amount ts tallied seated fun row member => Rows.ident_coalesce member
  | creditRow identity amount height ts source =>
    have seated := w.ident_row identity amount height ts source
    have tallied := exactly.tallied.append (fun _ ts => ts) _
      (exactly.room identity height ts source fits)
    refine exactly.entered identity amount ts tallied seated ?_
    intro row member
    rcases List.mem_append.mp member with earlier | new
    · exact .inr earlier
    · exact .inl (congrArg Credit.ident (List.mem_singleton.mp new))
  | setTarget target =>
    have aim : (w.step (.setTarget target)).targetWork = target := Rows.targetWork_setTarget w.rows target
    rw [aim]
    have aimed : Rows.Tallied { w.rows with targetWork := target } :=
      ⟨exactly.tallied.total, exactly.tallied.each⟩
    exact Exact.trimmed w aimed exactly.indexed
  | replay m identities credits =>
    have blank : (loaded m identities).rows = {} := by
      unfold rows
      rw [loaded, totals_loadWindow]
    obtain ⟨rows, idents⟩ := rows_replay (w := loaded m identities) ((loaded m identities).known credits)
    obtain ⟨tallied, all⟩ := Rows.tallied_empty.replay ((loaded m identities).known credits)
      (by rw [work_nil, Nat.zero_add]; exact fits)
    rw [← blank, ← rows] at tallied all
    have aim : (w.step (.replay m identities credits)).targetWork = m.targetWork :=
      Rows.targetWork_setTarget _ _
    rw [aim]
    have listed : (((loaded m identities).known credits).foldl pushRaw (loaded m identities)).rows.credits =
        (loaded m identities).known credits := by
      rw [all, blank, List.nil_append]
    have trimmed := Exact.trimmed (((loaded m identities).known credits).foldl pushRaw (loaded m identities))
      (r := { (((loaded m identities).known credits).foldl pushRaw (loaded m identities)).rows with
        targetWork := m.targetWork })
      ⟨tallied.total, tallied.each⟩ (by
        intro row member
        rw [idents]
        rw [listed] at member
        exact of_decide_eq_true (List.mem_filter.mp member).2)
    rw [listed] at trimmed
    exact trimmed
  | setCarry identity sats =>
    refine ⟨⟨⟨exactly.tallied.total, ?_⟩, ?_, exactly.settled⟩, exactly.settled.symm⟩
    · intro ident
      have same : (w.step (.setCarry identity sats)).rows = w.rows := by
        simp only [ShareWindow.step, rows, Window.totals_setCarry]
      rw [same]
      exact exactly.tallied.each ident
    · intro row member
      have grown := size_le_intern w.balances.idents identity
      rw [← Window.idents_setCarry w.balances identity sats] at grown
      exact Nat.lt_of_lt_of_le (exactly.indexed row member) grown
  | adjustCarry identity delta =>
    refine ⟨⟨⟨exactly.tallied.total, ?_⟩, ?_, exactly.settled⟩, exactly.settled.symm⟩
    · intro ident
      have same : (w.step (.adjustCarry identity delta)).rows = w.rows := by
        simp only [ShareWindow.step, rows, Window.totals_adjustCarry]
      rw [same]
      exact exactly.tallied.each ident
    · intro row member
      have grown := size_le_intern w.balances.idents identity
      rw [← Window.idents_adjustCarry w.balances identity delta] at grown
      exact Nat.lt_of_lt_of_le (exactly.indexed row member) grown

end Exact

section Summed

variable {w : ShareWindow}

theorem Exact.summed (exactly : w.Exact) : w.Summed where
  total := exactly.tallied.total
  listed ident := by
    have counted : (w.balances.totals.lookup ident).map (fun t => (t.1, t.2.1)) = rowTally w.credits ident :=
      exactly.tallied.each ident
    constructor
    · intro member
      obtain ⟨t, found⟩ := Option.isSome_iff_exists.mp (AList.lookup_isSome.mpr member)
      rw [found] at counted
      cases own : rowsOf ident w.credits with
      | nil => simp [rowTally, own] at counted
      | cons row rest =>
        have present : row ∈ rowsOf ident w.credits := by simp [own]
        obtain ⟨listed, same⟩ := List.mem_filter.mp present
        exact ⟨row, listed, of_decide_eq_true same⟩
    · rintro ⟨row, listed, rfl⟩
      by_contra absent
      rw [AList.lookup_eq_none.mpr absent] at counted
      have present : row ∈ rowsOf row.ident w.credits := List.mem_filter.mpr ⟨listed, by simp⟩
      cases own : rowsOf row.ident w.credits with
      | nil => simp [own] at present
      | cons first rest => simp [rowTally, own] at counted
  each ident t found := by
    have counted : (w.balances.totals.lookup ident).map (fun t => (t.1, t.2.1)) = rowTally w.credits ident :=
      exactly.tallied.each ident
    rw [found] at counted
    cases own : rowsOf ident w.credits with
    | nil => simp [rowTally, own] at counted
    | cons row rest =>
      simp only [Option.map_some, rowTally, own, Option.some.injEq, Prod.mk.injEq] at counted
      exact counted

end Summed

section Miners

variable {w : ShareWindow}

theorem tally_rows (ident : Nat) (credits : List Credit) :
    Tally.tally ident (credits.map fun row => (row.ident, row.work)) = Tides.work (rowsOf ident credits) := by
  induction credits with
  | nil => rfl
  | cons row rest ih =>
    rw [List.map_cons, Tally.tally_cons, ih]
    by_cases own : row.ident = ident
    · simp [rowsOf, own]
    · simp [rowsOf, own]

/-- The part of an identity's stratum work inside its grace is no more than all of it. -/
theorem graceWork_le (credits : List Credit) (ident : Nat) :
    (stratumWork credits ident).2 ≤ (stratumWork credits ident).1 := by
  refine Run.foldl_kept _ (fun sum : Nat × Nat => sum.2 ≤ sum.1) ?_ credits (Nat.le_refl 0)
  intro sum row below
  split
  · split
    · exact Nat.add_le_add_right below row.work
    · exact Nat.le_add_right_of_le below
  · exact below

/-- What the miners say of one identity with rows. -/
def working (w : ShareWindow) (entry : Sigma fun _ : Nat => Nat × Nat × Nat) : Option MinerStat :=
  (w.balances.idents.name? entry.1).map fun identity =>
    { identity
      work := entry.2.1
      stratumWork := min (stratumWork w.credits entry.1).1 entry.2.1
      graceWork := min (stratumWork w.credits entry.1).2 entry.2.1
      lastTs := entry.2.2.2
      carry := (w.balances.carry.lookup entry.1).getD 0 }

/-- What the miners say of one identity with carry, if it has no rows. -/
def idle (w : ShareWindow) (entry : Sigma fun _ : Nat => Nat) : Option MinerStat :=
  if 0 < entry.2 ∧ entry.1 ∉ w.balances.totals then
    (w.balances.idents.name? entry.1).map fun identity =>
      { identity, work := 0, lastTs := (w.balances.lastSeen.lookup entry.1).getD 0, carry := entry.2 }
  else none

theorem miners_perm (w : ShareWindow) : w.miners.Perm
    (w.balances.totals.entries.filterMap w.working ++ w.balances.carry.entries.filterMap w.idle) :=
  List.perm_insertionSort _ _

theorem mem_miners {w : ShareWindow} {m : MinerStat} : m ∈ w.miners ↔
    (∃ entry ∈ w.balances.totals.entries, w.working entry = some m) ∨
      ∃ entry ∈ w.balances.carry.entries, w.idle entry = some m := by
  rw [w.miners_perm.mem_iff, List.mem_append, List.mem_filterMap, List.mem_filterMap]

/-- Each miner's index is that of its name. -/
theorem name?_working {entry : Sigma fun _ : Nat => Nat × Nat × Nat} {m : MinerStat}
    (found : w.working entry = some m) : w.balances.idents.name? entry.1 = some m.identity := by
  obtain ⟨identity, named, rfl⟩ := Option.map_eq_some_iff.mp found
  exact named

theorem idle_eq {entry : Sigma fun _ : Nat => Nat} {m : MinerStat} (found : w.idle entry = some m) :
    (0 < entry.2 ∧ entry.1 ∉ w.balances.totals) ∧ w.balances.idents.name? entry.1 = some m.identity := by
  unfold idle at found
  split at found
  · rename_i resting
    obtain ⟨identity, named, rfl⟩ := Option.map_eq_some_iff.mp found
    exact ⟨resting, named⟩
  · cases found

theorem exists_working (entry : Sigma fun _ : Nat => Nat × Nat × Nat) {identity : String}
    (named : w.balances.idents.name? entry.1 = some identity) :
    ∃ m, w.working entry = some m ∧ m.identity = identity := by
  unfold working
  rw [named]
  exact ⟨_, rfl, rfl⟩

theorem exists_idle (entry : Sigma fun _ : Nat => Nat) {identity : String}
    (resting : 0 < entry.2 ∧ entry.1 ∉ w.balances.totals)
    (named : w.balances.idents.name? entry.1 = some identity) :
    ∃ m, w.idle entry = some m ∧ m.identity = identity := by
  unfold idle
  rw [if_pos resting, named]
  exact ⟨_, rfl, rfl⟩

theorem name?_injective {table : Interner String} {first second : Nat} {identity : String}
    (one : table.name? first = some identity) (two : table.name? second = some identity) : first = second :=
  Option.some.inj ((position_name? one).symm.trans (position_name? two))

/-- Entries under distinct indices bring in distinct names. -/
theorem nodup_filterMap {β : Type u} {entries : List (Sigma fun _ : Nat => β)}
    {tell : (Sigma fun _ : Nat => β) → Option MinerStat} {table : Interner String}
    (distinct : (entries.map Sigma.fst).Nodup)
    (named : ∀ entry m, tell entry = some m → table.name? entry.1 = some m.identity) :
    ((entries.filterMap tell).map MinerStat.identity).Nodup := by
  rw [List.Nodup, List.pairwise_map, List.pairwise_filterMap]
  refine (List.pairwise_map.mp distinct).imp ?_
  intro first second different m found m' found' same
  exact different (name?_injective (named first m found) (same ▸ named second m' found'))

theorem Exact.name?_row (exactly : w.Exact) {ident : Nat} (listed : ident ∈ w.balances.totals) :
    ∃ identity, w.balances.idents.name? ident = some identity := by
  obtain ⟨row, member, rfl⟩ := (exactly.summed.listed ident).mp listed
  exact ⟨_, List.getElem?_eq_getElem (exactly.indexed row member)⟩

/-- Every identity with totals is told of, with its work. -/
theorem Exact.work_working (exactly : w.Exact) :
    ((w.balances.totals.entries.filterMap w.working).map MinerStat.work).sum = w.totalWork := by
  have told : (w.balances.totals.entries.filterMap w.working).map MinerStat.work =
      w.balances.totals.entries.map fun entry => Tides.work (rowsOf entry.1 w.credits) := by
    rw [List.map_filterMap, ← List.filterMap_eq_map]
    apply List.filterMap_congr
    intro entry member
    obtain ⟨identity, named⟩ := exactly.name?_row (List.mem_keys_of_mem member)
    have found : w.balances.totals.lookup entry.1 = some entry.2 :=
      (List.mem_dlookup_iff w.balances.totals.nodupKeys).mpr member
    obtain ⟨same, _⟩ := exactly.summed.each entry.1 entry.2 found
    simp [working, named, same]
  have keyed : (w.balances.totals.entries.map fun entry => Tides.work (rowsOf entry.1 w.credits)) =
      w.balances.totals.keys.map fun ident =>
        Tally.tally ident (w.credits.map fun row => (row.ident, row.work)) := by
    show _ = (w.balances.totals.entries.map Sigma.fst).map _
    rw [List.map_map]
    exact List.map_congr_left fun entry _ => (tally_rows entry.1 w.credits).symm
  rw [told, keyed, Tally.sum_tally _ w.balances.totals.keys_nodup, exactly.summed.total, List.map_map]
  · rfl
  · intro entry member
    obtain ⟨row, listed, rfl⟩ := List.mem_map.mp member
    exact (exactly.summed.listed row.ident).mpr ⟨row, listed, rfl⟩

theorem work_idle (w : ShareWindow) :
    ((w.balances.carry.entries.filterMap w.idle).map MinerStat.work).sum = 0 := by
  apply List.sum_eq_zero
  intro amount member
  obtain ⟨m, listed, rfl⟩ := List.mem_map.mp member
  obtain ⟨entry, _, found⟩ := List.mem_filterMap.mp listed
  unfold idle at found
  split at found
  · obtain ⟨identity, _, rfl⟩ := Option.map_eq_some_iff.mp found
    rfl
  · cases found

/-- An identity is told of when it has rows or carry. -/
theorem Exact.mem_identities (exactly : w.Exact) (identity : String) :
    identity ∈ w.miners.map MinerStat.identity ↔
      (∃ row ∈ w.credits, w.balances.idents.name? row.ident = some identity) ∨
        0 < w.balances.carryOf identity := by
  constructor
  · intro member
    obtain ⟨m, listed, rfl⟩ := List.mem_map.mp member
    rcases mem_miners.mp listed with ⟨entry, present, found⟩ | ⟨entry, present, found⟩
    · obtain ⟨row, stored, same⟩ := (exactly.summed.listed entry.1).mp (List.mem_keys_of_mem present)
      exact .inl ⟨row, stored, same ▸ name?_working found⟩
    · obtain ⟨⟨carried, _⟩, named⟩ := idle_eq found
      have filed : w.balances.carry.lookup entry.1 = some entry.2 :=
        (List.mem_dlookup_iff w.balances.carry.nodupKeys).mpr present
      right
      unfold Window.carryOf amount
      rw [position_name? named, Option.bind_some, filed]
      exact carried
  · intro owned
    suffices told : ∃ m ∈ w.miners, m.identity = identity by
      obtain ⟨m, listed, same⟩ := told
      exact List.mem_map.mpr ⟨m, listed, same⟩
    have counted (ident : Nat) (named : w.balances.idents.name? ident = some identity)
        (listed : ident ∈ w.balances.totals) : ∃ m ∈ w.miners, m.identity = identity := by
      obtain ⟨t, found⟩ := Option.isSome_iff_exists.mp (AList.lookup_isSome.mpr listed)
      obtain ⟨m, told, same⟩ := exists_working ⟨ident, t⟩ named
      exact ⟨m, mem_miners.mpr (.inl ⟨⟨ident, t⟩, List.of_mem_dlookup found, told⟩), same⟩
    rcases owned with ⟨row, stored, named⟩ | carried
    · exact counted row.ident named ((exactly.summed.listed row.ident).mpr ⟨row, stored, rfl⟩)
    · unfold Window.carryOf amount at carried
      cases here : w.balances.idents.position identity with
      | none => simp [here] at carried
      | some ident =>
        have named := name?_position here
        by_cases listed : ident ∈ w.balances.totals
        · exact counted ident named listed
        · cases filed : w.balances.carry.lookup ident with
          | none => simp [here, filed] at carried
          | some sats =>
            have some : 0 < sats := by simpa [here, filed] using carried
            obtain ⟨m, told, same⟩ := exists_idle ⟨ident, sats⟩ ⟨some, listed⟩ named
            exact ⟨m, mem_miners.mpr (.inr ⟨⟨ident, sats⟩, List.of_mem_dlookup filed, told⟩), same⟩

theorem Exact.listed (exactly : w.Exact) : w.Listed where
  once := by
    rw [(w.miners_perm.map MinerStat.identity).nodup_iff, List.map_append, List.nodup_append]
    refine ⟨nodup_filterMap w.balances.totals.nodupKeys fun _ _ => name?_working,
      nodup_filterMap w.balances.carry.nodupKeys fun _ _ found => (idle_eq found).2, ?_⟩
    intro identity counted other resting same
    obtain ⟨m, listed, rfl⟩ := List.mem_map.mp counted
    obtain ⟨m', listed', rfl⟩ := List.mem_map.mp resting
    obtain ⟨entry, present, found⟩ := List.mem_filterMap.mp listed
    obtain ⟨entry', _, found'⟩ := List.mem_filterMap.mp listed'
    obtain ⟨⟨_, absent⟩, named'⟩ := idle_eq found'
    have equal := name?_injective (name?_working found) (same ▸ named')
    exact absent (equal ▸ List.mem_keys_of_mem present)
  mem := exactly.mem_identities
  total := by
    rw [(w.miners_perm.map MinerStat.work).sum_eq, List.map_append, List.sum_append, exactly.work_working,
      work_idle, Nat.add_zero]
  nested m listed := by
    rcases mem_miners.mp listed with ⟨entry, _, found⟩ | ⟨entry, _, found⟩
    · obtain ⟨identity, _, rfl⟩ := Option.map_eq_some_iff.mp found
      have below := graceWork_le w.credits entry.1
      exact ⟨min_le_min_right entry.2.1 below, Nat.min_le_right _ _⟩
    · unfold idle at found
      split at found
      · obtain ⟨identity, _, rfl⟩ := Option.map_eq_some_iff.mp found
        exact ⟨Nat.le_refl 0, Nat.le_refl 0⟩
      · cases found

end Miners

/-- From an empty window, over any run of credits, resizes, replays and moves of carry in which no sum
saturates, the sums are those of the rows, every operation leaves the shortest suffix of the rows present
that covers its target, and the miners are listed once each. -/
theorem window_represented (run : List WindowOp) (fits : Run.Along Fits step {} run) :
    let w := run.foldl step {}
    w.Summed ∧ w.Listed ∧ ∀ op, w.Fits op →
      ((w.step op).targetWork = 0 → (w.step op).credits = w.present op) ∧
      ((w.step op).targetWork ≠ 0 →
        Trim.Shortest Credit.work (w.step op).targetWork (w.present op) (w.step op).credits) := by
  have exactly : (run.foldl step {}).Exact :=
    Run.foldl_invariant Exact (fun _ op exactly fits => (exactly.step op fits).1) fits exact_empty
  refine ⟨exactly.summed, exactly.listed, ?_⟩
  intro op fits
  obtain ⟨_, kept⟩ := exactly.step op fits
  constructor
  · intro untargeted
    rw [kept, Trim.kept, if_pos untargeted]
  · intro targeted
    rw [kept]
    exact Trim.shortest_kept Credit.work targeted _

/-- Work merged and not merged, a smaller target, carry for someone without work, and a restart. -/
def restartedRun : List WindowOp :=
  [.credit "a" 5 1 10 sourceStratum, .credit "a" 3 1 10 sourceStratum,
    .creditRow "b" 4 1 11 sourceDatum, .setTarget 6, .setCarry "c" 9,
    .replay { targetWork := 5, carry := [("c", 9)] } "a\nb\n".toList
      [⟨10, 0, 8, 1, sourceStratum⟩, ⟨11, 1, 4, 1, sourceDatum⟩, ⟨12, 7, 2, 1, sourceDatum⟩]]

theorem window_represented_restarted :
    Run.Along Fits step {} restartedRun ∧ (restartedRun.foldl step {}).Summed ∧
      (restartedRun.foldl step {}).Listed := by
  have fits : Run.Along Fits step {} restartedRun := by decide
  obtain ⟨summed, listed, _⟩ := window_represented restartedRun fits
  exact ⟨fits, summed, listed⟩

end ShareWindow

end Lazarus.Tides
