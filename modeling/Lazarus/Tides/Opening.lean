import Lazarus.Tides.StoreRun

/-! What `open` makes of a directory whose identity file holds every name the balances use. -/

namespace Lazarus.Tides

open Machine Interner

section Rows

/-- A trim leaves the newest rows, whatever the sums say. -/
theorem Rows.trimFrom_suffix (target : Nat) (credits : List Credit) (totals : Totals) (total : Nat) :
    (Rows.trimFrom target credits totals total).1 <:+ credits := by
  induction credits generalizing totals total with
  | nil => exact List.suffix_refl []
  | cons front rest ih =>
    unfold Rows.trimFrom
    split
    · exact (ih _ _).trans (List.suffix_cons front rest)
    · exact List.suffix_refl _

theorem Rows.trim_suffix (r : Rows) : r.trim.credits <:+ r.credits := by
  unfold Rows.trim
  split
  · exact List.suffix_refl _
  · exact trimFrom_suffix _ _ _ _

theorem Rows.setTarget_suffix (r : Rows) (target : Nat) : (r.setTarget target).credits <:+ r.credits :=
  trim_suffix { r with targetWork := target }

theorem Rows.credits_replay (r : Rows) (credits : List Credit) :
    (credits.foldl Rows.pushRaw r).credits = r.credits ++ credits := by
  induction credits generalizing r with
  | nil => simp
  | cons c rest ih =>
    rw [List.foldl_cons, ih]
    simp [Rows.pushRaw, Rows.append]

end Rows

namespace Store

@[simp] theorem rows_withRows (s : Store) (r : Rows) : (s.withRows r).rows = r := rfl

/-- Two ledgers that differ only in the rows of the window, their sums and the last-seen times. -/
structure SameBooks (s s' : Store) : Prop where
  ledger : ∃ totals lastSeen, s'.ledger = { s.ledger with window := { s.ledger.window with totals, lastSeen } }
  lifetimeShares : s'.lifetimeShares = s.lifetimeShares
  lifetimeWork : s'.lifetimeWork = s.lifetimeWork
  creditsOut : s'.creditsOut = s.creditsOut
  rowsOnDisk : s'.rowsOnDisk = s.rowsOnDisk

theorem SameBooks.trans {first second third : Store} (one : first.SameBooks second)
    (two : second.SameBooks third) : first.SameBooks third := by
  obtain ⟨_, _, ledger⟩ := one.ledger
  obtain ⟨totals, lastSeen, ledger'⟩ := two.ledger
  refine ⟨⟨totals, lastSeen, ?_⟩, two.lifetimeShares.trans one.lifetimeShares,
    two.lifetimeWork.trans one.lifetimeWork, two.creditsOut.trans one.creditsOut,
    two.rowsOnDisk.trans one.rowsOnDisk⟩
  rw [ledger', ledger]

theorem SameBooks.withRows (s : Store) (r : Rows) : s.SameBooks (s.withRows r) :=
  ⟨⟨r.totals, s.ledger.window.lastSeen, rfl⟩, rfl, rfl, rfl, rfl⟩

theorem SameBooks.pushRaw (s : Store) (row : Credit) : s.SameBooks (s.pushRaw row) :=
  ⟨⟨_, _, rfl⟩, rfl, rfl, rfl, rfl⟩

theorem SameBooks.refl (s : Store) : s.SameBooks s :=
  ⟨⟨s.ledger.window.totals, s.ledger.window.lastSeen, rfl⟩, rfl, rfl, rfl, rfl⟩

theorem rows_replay (s : Store) (credits : List Credit) :
    (credits.foldl Store.pushRaw s).rows = credits.foldl Rows.pushRaw s.rows ∧
      s.SameBooks (credits.foldl Store.pushRaw s) := by
  induction credits generalizing s with
  | nil => exact ⟨rfl, .refl s⟩
  | cons row rest ih =>
    obtain ⟨rows, same⟩ := ih (s.pushRaw row)
    exact ⟨rows, (SameBooks.pushRaw s row).trans same⟩

end Store

section Balances

/-- Every identity the balances name is among these. -/
structure Meta.Names (m : Meta) (names : List String) : Prop where
  carry : ∀ entry ∈ m.carry, entry.1 ∈ names
  debt : ∀ entry ∈ m.debt, entry.1 ∈ names
  holds : ∀ batch ∈ m.holds, ∀ entry ∈ batch.2.entries, entry.1 ∈ names

theorem Meta.Names.mono {m : Meta} {names more : List String} (named : m.Names names) (within : names ⊆ more) :
    m.Names more where
  carry entry member := within (named.carry entry member)
  debt entry member := within (named.debt entry member)
  holds batch member entry listed := within (named.holds batch member entry listed)

private theorem lookup_bare_holds {m : Meta} {batch : String} {hold : Hold}
    (found : m.bare.holds.lookup batch = some hold) : (batch, hold) ∈ m.holds := by
  have listed : (⟨batch, hold⟩ : Sigma fun _ : String => Hold) ∈ m.holds.map fun batch =>
      ⟨batch.1, batch.2⟩ := by
    rw [Meta.bare, AList.lookup_to_alist] at found
    exact List.of_mem_dlookup found
  obtain ⟨⟨name, value⟩, member, same⟩ := List.mem_map.mp listed
  cases same
  exact member

/-- Interning the names of the file, in order, into a window without any. -/
structure Tabled (m : Meta) (file : List String) (w : Window) : Prop where
  names : w.idents.names = file
  totals : w.totals = ∅
  holds : w.holds = m.bare.holds
  rebateOwed : w.rebateOwed = m.rebateOwed
  carryOf : ∀ identity, w.carryOf identity = 0
  debtOf : ∀ identity, w.debtOf identity = 0

private theorem tabled_intern (m : Meta) {file : List String} (distinct : file.Nodup) :
    Tabled m file (file.foldl Window.intern m.bare) := by
  have kept : ∀ names : List String,
      (names.foldl Window.intern m.bare).idents = names.foldl Interner.intern {} ∧
        (names.foldl Window.intern m.bare).totals = ∅ ∧
        (names.foldl Window.intern m.bare).holds = m.bare.holds ∧
        (names.foldl Window.intern m.bare).rebateOwed = m.rebateOwed ∧
        (names.foldl Window.intern m.bare).carry = ∅ ∧ (names.foldl Window.intern m.bare).debt = ∅ := by
    intro names
    induction names using List.reverseRecOn with
    | nil => exact ⟨rfl, rfl, rfl, rfl, rfl, rfl⟩
    | append_singleton names name ih =>
      rw [List.foldl_append, List.foldl_append, List.foldl_cons, List.foldl_cons,
        List.foldl_nil, List.foldl_nil, ← ih.1]
      exact ⟨rfl, ih.2⟩
  obtain ⟨idents, totals, holds, rebate, carry, debt⟩ := kept file
  refine ⟨?_, totals, holds, rebate, ?_, ?_⟩
  · rw [idents, names_foldl_intern (by simpa using distinct)]
    rfl
  · intro identity
    simp [Window.carryOf, amount, carry]
  · intro identity
    simp [Window.debtOf, amount, debt]

theorem Tabled.sound {m : Meta} {file : List String} {w : Window} (tabled : Tabled m file w)
    (named : m.Names file) : w.Sound := by
  constructor
  · intro batch hold found entry member
    rw [tabled.holds] at found
    unfold Window.Knows
    rw [tabled.names]
    exact named.holds (batch, hold) (lookup_bare_holds found) entry member
  · intro identity
    rw [tabled.debtOf]
    exact Nat.zero_le _

private theorem carryOf_loadCarry (state : Window × List String) (entry : String × Nat) (identity : String) :
    (loadCarry state entry).1.carryOf identity = if identity = entry.1 then
      entry.2 else state.1.carryOf identity :=
  Window.carryOf_fileCarry state.1 entry.1 identity entry.2

private theorem debtOf_loadDebt (state : Window × List String) (entry : String × Nat) (identity : String) :
    (loadDebt state entry).1.debtOf identity =
      if identity = entry.1 then
        if entry.2 = 0 then state.1.debtOf identity else satAdd (state.1.debtOf identity) entry.2
      else state.1.debtOf identity := by
  show (state.1.accrueDebt entry.1 entry.2).debtOf identity = _
  rw [Window.debtOf_accrueDebt]
  by_cases same : identity = entry.1
  · subst same
    by_cases nothing : entry.2 = 0
    · simp [nothing]
    · simp [nothing]
  · simp [same]

private theorem ne_of_not_named {entries : List (String × Nat)} {identity : String}
    (absent : identity ∉ entries.map Prod.fst) : ∀ entry ∈ entries, identity ≠ entry.1 := by
  rintro entry member rfl
  exact absent (List.mem_map_of_mem member)

private theorem carryOf_loaded {entries : List (String × Nat)} (distinct : (entries.map Prod.fst).Nodup)
    {entry : String × Nat} (member : entry ∈ entries) (start : Window × List String) :
    (entries.foldl loadCarry start).1.carryOf entry.1 = entry.2 :=
  Run.foldl_key_own (fun state : Window × List String => state.1.carryOf) Prod.fst (fun _ entry => entry.2)
    carryOf_loadCarry distinct member start

private theorem carryOf_unloaded {entries : List (String × Nat)} {identity : String}
    (absent : identity ∉ entries.map Prod.fst) (start : Window × List String) :
    (entries.foldl loadCarry start).1.carryOf identity = start.1.carryOf identity :=
  Run.foldl_key_other (fun state : Window × List String => state.1.carryOf) Prod.fst (fun _ entry => entry.2)
    carryOf_loadCarry (ne_of_not_named absent) start

private theorem debtOf_loaded {entries : List (String × Nat)} (distinct : (entries.map Prod.fst).Nodup)
    {entry : String × Nat} (member : entry ∈ entries) (start : Window × List String)
    (clear : start.1.debtOf entry.1 = 0) (bound : entry.2 ≤ u64Max) :
    (entries.foldl loadDebt start).1.debtOf entry.1 = entry.2 := by
  have here := Run.foldl_key_own (fun state : Window × List String => state.1.debtOf) Prod.fst
    (fun debt entry => if entry.2 = 0 then debt else satAdd debt entry.2) debtOf_loadDebt distinct member start
  simp only [clear] at here
  rw [here]
  split
  · rename_i nothing
    exact nothing.symm
  · rw [satAdd_eq (by omega), Nat.zero_add]

private theorem debtOf_unloaded {entries : List (String × Nat)} {identity : String}
    (absent : identity ∉ entries.map Prod.fst) (start : Window × List String) :
    (entries.foldl loadDebt start).1.debtOf identity = start.1.debtOf identity :=
  Run.foldl_key_other (fun state : Window × List String => state.1.debtOf) Prod.fst
    (fun debt entry => if entry.2 = 0 then debt else satAdd debt entry.2)
      debtOf_loadDebt (ne_of_not_named absent) start

/-- The balances of the file laid on a table that has every name they use. -/
structure Laid (m : Meta) (start : Window) (state : Window × List String) : Prop where
  steady : start.Steady state.1
  known : state.2 = []
  holds : state.1.holds = start.holds
  rebateOwed : state.1.rebateOwed = start.rebateOwed

private theorem laid_carry {m : Meta} {start : Window} (named : ∀ entry ∈ m.carry, start.Knows entry.1) :
    Laid m start (m.carry.foldl loadCarry (start, [])) ∧
      ∀ identity, (m.carry.foldl loadCarry (start, [])).1.debtOf identity = start.debtOf identity := by
  apply Run.foldl_mem loadCarry (fun state => Laid m start state ∧
    ∀ identity, state.1.debtOf identity = start.debtOf identity) ?_
    ⟨⟨.refl start, rfl, rfl, rfl⟩, fun _ => rfl⟩
  rintro ⟨w, names⟩ entry member ⟨⟨steady, known, holds, rebate⟩, debts⟩
  have here : w.Knows entry.1 := steady.knows (named entry member)
  refine ⟨⟨steady.trans (.setCarry here entry.2), ?_, ?_, ?_⟩, ?_⟩
  · simp only [loadCarry, if_pos (Window.knows_iff.mp here)]
    exact known
  · rw [← holds]
    exact Window.holds_fileCarry _ _ _
  · rw [← rebate]
    exact Window.rebateOwed_fileCarry _ _ _
  · intro identity
    rw [← debts identity]
    exact Window.debtOf_setCarry w entry.1 entry.2 identity

private theorem laid_debt {m : Meta} {start : Window} (named : ∀ entry ∈ m.debt, start.Knows entry.1) :
    Laid m start (m.debt.foldl loadDebt (start, [])) ∧
      ∀ identity, (m.debt.foldl loadDebt (start, [])).1.carryOf identity = start.carryOf identity := by
  apply Run.foldl_mem loadDebt (fun state => Laid m start state ∧
    ∀ identity, state.1.carryOf identity = start.carryOf identity) ?_
    ⟨⟨.refl start, rfl, rfl, rfl⟩, fun _ => rfl⟩
  rintro ⟨w, names⟩ entry member ⟨⟨steady, known, holds, rebate⟩, carries⟩
  have here : w.Knows entry.1 := steady.knows (named entry member)
  refine ⟨⟨steady.trans (.accrueDebt here entry.2), ?_, ?_, ?_⟩, ?_⟩
  · simp only [loadDebt, if_pos (Window.knows_iff.mp here)]
    exact known
  · rw [← holds]
    exact Window.holds_accrueDebt _ _ _
  · rw [← rebate]
    exact Window.rebateOwed_accrueDebt _ _ _
  · intro identity
    rw [← carries identity]
    exact Window.carryOf_accrueDebt w entry.1 identity entry.2

private theorem loadSeen_cases (w : Window) (entry : String × Nat) :
    loadSeen w entry = w ∨ ∃ ident, loadSeen w entry = w.noteSeen ident entry.2 := by
  unfold loadSeen
  split
  · rename_i found
    unfold Window.setLastSeen
    rw [Window.intern_known (Window.knows_iff.mpr found)]
    simp only
    split
    · exact .inl rfl
    · exact .inr ⟨_, rfl⟩
  · exact .inl rfl

private theorem loadSeen_all (w : Window) (seen : List (String × Nat)) :
    ∃ lastSeen, seen.foldl loadSeen w = { w with lastSeen } := by
  apply Run.foldl_kept loadSeen (fun later => ∃ lastSeen, later = { w with lastSeen }) ?_ seen ⟨w.lastSeen, rfl⟩
  rintro later entry ⟨lastSeen, rfl⟩
  rcases loadSeen_cases { w with lastSeen } entry with same | ⟨ident, noted⟩
  · exact ⟨lastSeen, same⟩
  · exact ⟨_, noted⟩

/-- The window `open` reads, when the identity file has every name the balances use. -/
structure Read (m : Meta) (file : List String) (w : Window) : Prop where
  names : w.idents.names = file
  totals : w.totals = ∅
  sound : w.Sound
  holds : w.holds = m.bare.holds
  rebateOwed : w.rebateOwed = m.rebateOwed
  carried : (m.carry.map Prod.fst).Nodup → ∀ entry ∈ m.carry, w.carryOf entry.1 = entry.2
  uncarried : ∀ identity, identity ∉ m.carry.map Prod.fst → w.carryOf identity = 0
  indebted : (m.debt.map Prod.fst).Nodup → ∀ entry ∈ m.debt, entry.2 ≤ u64Max → w.debtOf entry.1 = entry.2
  clear : ∀ identity, identity ∉ m.debt.map Prod.fst → w.debtOf identity = 0

private theorem loadWindow_read {m : Meta} {file : List String} (clean : ∀ name ∈ file, Lines.Clean name)
    (distinct : file.Nodup) (named : m.Names file) :
    ∃ w, loadWindow m (Lines.text file) = (w, []) ∧ Read m file w := by
  have tabled := tabled_intern m distinct
  have start : loadWindow m (Lines.text file) =
      (m.lastSeen.foldl loadSeen
          (m.debt.foldl loadDebt (m.carry.foldl loadCarry (file.foldl Window.intern m.bare, []))).1,
        (m.debt.foldl loadDebt (m.carry.foldl loadCarry (file.foldl Window.intern m.bare, []))).2) := by
    unfold loadWindow
    rw [Lines.read_text clean]
  generalize file.foldl Window.intern m.bare = table at tabled start
  have knows : ∀ name ∈ file, table.Knows name := by
    intro name member
    unfold Window.Knows
    rw [tabled.names]
    exact member
  obtain ⟨carries, debts⟩ := laid_carry fun entry member => knows entry.1 (named.carry entry member)
  have carried {entry : String × Nat} (distinct : (m.carry.map Prod.fst).Nodup) (member : entry ∈ m.carry) :=
    carryOf_loaded distinct member (table, [])
  have uncarried {identity : String} (absent : identity ∉ m.carry.map Prod.fst) :=
    carryOf_unloaded absent (table, [])
  obtain ⟨middle, none⟩ : ∃ w, m.carry.foldl loadCarry (table, []) = (w, []) := ⟨_, Prod.ext rfl carries.known⟩
  rw [none] at carries debts carried uncarried start
  obtain ⟨owed, stayed⟩ := laid_debt fun entry member =>
    carries.steady.knows (knows entry.1 (named.debt entry member))
  have unowed (identity : String) : middle.debtOf identity = 0 :=
    (debts identity).trans (tabled.debtOf identity)
  have indebted {entry : String × Nat} (distinct : (m.debt.map Prod.fst).Nodup) (member : entry ∈ m.debt) :=
    debtOf_loaded distinct member (middle, []) (unowed entry.1)
  have clear {identity : String} (absent : identity ∉ m.debt.map Prod.fst) :=
    debtOf_unloaded absent (middle, [])
  obtain ⟨last, nobody⟩ : ∃ w, m.debt.foldl loadDebt (middle, []) = (w, []) := ⟨_, Prod.ext rfl owed.known⟩
  rw [nobody] at owed stayed indebted clear start
  obtain ⟨lastSeen, seen⟩ := loadSeen_all last m.lastSeen
  have steady := carries.steady.trans owed.steady
  refine ⟨{ last with lastSeen }, by rw [start, ← seen], ?_⟩
  exact {
    names := steady.idents ▸ tabled.names
    totals := steady.totals.trans tabled.totals
    sound := ⟨(steady.sound (tabled.sound named)).held, (steady.sound (tabled.sound named)).bounded⟩
    holds := owed.holds.trans (carries.holds.trans tabled.holds)
    rebateOwed := owed.rebateOwed.trans (carries.rebateOwed.trans tabled.rebateOwed)
    carried := fun distinct entry member => (stayed entry.1).trans (carried distinct member)
    uncarried := fun identity absent =>
      (stayed identity).trans ((uncarried absent).trans (tabled.carryOf identity))
    indebted := fun distinct entry member bound => indebted distinct member bound
    clear := fun identity absent => (clear absent).trans (unowed identity) }

end Balances

/-- The rows of the file that name an identity the table has. -/
def usable (window : Window) (credits : List Credit) : List Credit :=
  credits.filter fun row => row.ident < window.idents.size

/-- The ledger that `open` builds before it decides whether to rewrite the row file: the balances of the
file, and the rows that the target keeps. -/
structure Loaded (m : Meta) (d : Disk) (window : Window) (s : Store) : Prop where
  ledger : ∃ totals lastSeen, s.ledger.window = { window with totals, lastSeen }
  identsOut : s.ledger.identsOut = []
  dirty : s.ledger.dirty = false
  appliedDebits : s.ledger.appliedDebits = m.appliedDebits
  debitsTracked : s.ledger.debitsTracked = m.appliedDebitsTracked
  rows : s.rows = ((usable window d.credits).foldl Rows.pushRaw {}).setTarget m.targetWork
  creditsOut : s.creditsOut = []

/-- The rows of the window are the last of those replayed. -/
theorem Loaded.credits_suffix {m : Meta} {d : Disk} {window : Window} {s : Store}
    (loaded : Loaded m d window s) : s.credits <:+ usable window d.credits := by
  have rows : s.credits = (((usable window d.credits).foldl Rows.pushRaw {}).setTarget m.targetWork).credits :=
    congrArg Rows.credits loaded.rows
  have replayed : ((usable window d.credits).foldl Rows.pushRaw {}).credits = usable window d.credits :=
    Rows.credits_replay {} (usable window d.credits)
  rw [rows]
  nth_rewrite 2 [← replayed]
  exact Rows.setTarget_suffix _ _

private theorem openFrom_cases {m : Meta} {d : Disk} {window : Window}
    (loads : loadWindow m (Lines.whole d.identities) = (window, [])) (start : window.totals = ∅) :
    ∃ s, Loaded m d window s ∧
      (openFrom m d = (s, { d with identities := Lines.whole d.identities }) ∧
        usable window d.credits = d.credits ∧
          s.rowsOnDisk = d.credits.length ∨
        openFrom m d = s.compact { d with identities := Lines.whole d.identities }) := by
  let fresh : Store :=
    { ledger := { window, appliedDebits := m.appliedDebits, debitsTracked := m.appliedDebitsTracked }
      lifetimeShares := m.lifetimeShares
      lifetimeWork := m.lifetimeWork
      rowsOnDisk := (usable window d.credits).length }
  obtain ⟨replayed, same⟩ := Store.rows_replay fresh (usable window d.credits)
  have empty : fresh.rows = {} := by
    show (⟨[], window.totals, 0, 0⟩ : Rows) = {}
    rw [start]
  rw [empty] at replayed
  let s := ((usable window d.credits).foldl Store.pushRaw fresh).withRows
    (((usable window d.credits).foldl Store.pushRaw fresh).rows.setTarget m.targetWork)
  have books : fresh.SameBooks s := same.trans (.withRows _ _)
  obtain ⟨totals, lastSeen, ledger⟩ := books.ledger
  have loaded : Loaded m d window s := by
    refine ⟨⟨totals, lastSeen, ?_⟩, ?_, ?_, ?_, ?_, ?_, books.creditsOut⟩
    · rw [ledger]
    · rw [ledger]
    · rw [ledger]
    · rw [ledger]
    · rw [ledger]
    · show s.rows = _
      rw [Store.rows_withRows, replayed]
  have opens : openFrom m d =
      if (usable window d.credits).length < d.credits.length ∨ s.credits.length + 8192 < s.rowsOnDisk then
        s.compact { d with identities := Lines.whole d.identities }
      else (s, { d with identities := Lines.whole d.identities }) := by
    unfold openFrom
    simp only [loads]
    rfl
  refine ⟨s, loaded, ?_⟩
  rw [opens]
  split
  · exact .inr rfl
  · rename_i small
    have whole : usable window d.credits = d.credits := by
      apply List.Sublist.eq_of_length_le List.filter_sublist
      exact Nat.not_lt.mp fun less => small (.inl less)
    refine .inl ⟨rfl, whole, ?_⟩
    rw [books.rowsOnDisk]
    show (usable window d.credits).length = _
    rw [whole]

theorem Loaded.compact {m : Meta} {d : Disk} {window : Window} {s : Store}
    (loaded : Loaded m d window s) (d' : Disk) : Loaded m d window (s.compact d').1 :=
  ⟨loaded.ledger, loaded.identsOut, loaded.dirty, loaded.appliedDebits, loaded.debitsTracked, loaded.rows, rfl⟩

/-- The ledger and the files after `open`: the identity file is cut back to whole lines, and the row file
is as it was, every row of it usable, or holds just the window. -/
structure Opened (m : Meta) (d : Disk) (file : List String) (window : Window)
    (s : Store) (d' : Disk) : Prop where
  read : Read m file window
  loaded : Loaded m d window s
  identities : d'.identities = Lines.text file
  balances : d'.window = d.window
  credits : d'.credits = d.credits ∧ usable window d.credits = d.credits ∨ d'.credits = s.credits
  counted : s.rowsOnDisk = d'.credits.length

theorem openLedger_opened {d : Disk} {m : Meta} {file : List String} (loaded : loadMeta d.window = .ok m)
    (whole : Lines.whole d.identities = Lines.text file) (clean : ∀ name ∈ file, Lines.Clean name)
    (distinct : file.Nodup) (named : m.Names file) :
    ∃ window s d', openLedger d = .ok (s, d') ∧ Opened m d file window s d' := by
  obtain ⟨window, loads, read⟩ := loadWindow_read clean distinct named
  rw [← whole] at loads
  obtain ⟨s, from', opens⟩ := openFrom_cases loads read.totals
  have opened : openLedger d = .ok (openFrom m d) := by simp only [openLedger, loaded]
  rcases opens with ⟨same, all, counted⟩ | compacted
  · rw [same] at opened
    exact ⟨window, s, _, opened, read, from', whole, rfl, .inl ⟨rfl, all⟩, counted⟩
  · rw [compacted] at opened
    exact ⟨window, _, _, opened, read, from'.compact d, whole, rfl, .inr rfl, rfl⟩

theorem Opened.names {m : Meta} {d : Disk} {file : List String} {window : Window} {s : Store} {d' : Disk}
    (opened : Opened m d file window s d') : s.names = file := by
  obtain ⟨totals, lastSeen, same⟩ := opened.loaded.ledger
  show s.ledger.window.idents.names = file
  rw [same, opened.read.names]

end Lazarus.Tides
