import Lazarus.Tides.Replay

/-! Writing the window down and opening the directory again: the balances as `window.json` tells them,
and the rows as the compacted file has them. -/

namespace Lazarus.Tides

open Machine Interner

section Told

variable {w : Window}

private theorem named_nodup (w : Window) (book : Book) : ((w.named book).map Prod.fst).Nodup := by
  have sorted : ((w.named book).map Prod.fst).Perm
      ((book.entries.filterMap fun entry => (w.idents.name? entry.1).map fun name => (name, entry.2)).map
        Prod.fst) :=
    (List.perm_insertionSort _ _).map Prod.fst
  have keyed :
    (book.entries.filterMap fun entry => (w.idents.name? entry.1).map fun name => (name, entry.2)).map
    Prod.fst =
      book.keys.filterMap w.idents.name? := by
    show _ = (book.entries.map Sigma.fst).filterMap w.idents.name?
    rw [List.map_filterMap, List.filterMap_map]
    apply List.filterMap_congr
    intro entry _
    rw [Function.comp_apply]
    cases w.idents.name? entry.1 with
    | none => rfl
    | some name => rfl
  rw [sorted.nodup_iff, keyed]
  apply List.Nodup.filterMap ?_ book.nodupKeys
  intro first second name one two
  exact Option.some.inj ((position_name? one).symm.trans (position_name? two))

private theorem amount_of_mem_named {book : Book} {entry : String × Nat} (member : entry ∈ w.named book) :
    w.idents.amount book entry.1 = entry.2 := by
  obtain ⟨filed, listed, found⟩ := List.mem_filterMap.mp (List.mem_insertionSort _ |>.mp member)
  obtain ⟨name, named, rfl⟩ := Option.map_eq_some_iff.mp found
  have stored : book.lookup filed.1 = some filed.2 := (List.mem_dlookup_iff book.nodupKeys).mpr listed
  simp [amount, position_name? named, stored]

private theorem amount_of_not_named {book : Book} {identity : String}
    (absent : identity ∉ (w.named book).map Prod.fst) : w.idents.amount book identity = 0 := by
  unfold amount
  cases here : w.idents.position identity with
  | none => rfl
  | some index =>
    cases filed : book.lookup index with
    | none => simp [filed]
    | some sats =>
      have listed : (⟨index, sats⟩ : Sigma fun _ : Nat => Nat) ∈ book.entries := List.of_mem_dlookup filed
      refine absurd (List.mem_map.mpr ⟨(identity, sats), ?_, rfl⟩) absent
      refine List.mem_insertionSort _ |>.mpr (List.mem_filterMap.mpr ⟨_, listed, ?_⟩)
      rw [name?_position here]
      rfl

private theorem lookup_batches (w : Window) (batch : String) :
    ((w.batches.map fun batch => (⟨batch.1, batch.2⟩ : Sigma fun _ : String => Hold)).toAList).lookup batch =
      w.holds.lookup batch := by
  have back : (w.holds.entries.map fun entry => (entry.1, entry.2)).map
      (fun batch => (⟨batch.1, batch.2⟩ : Sigma fun _ : String => Hold)) = w.holds.entries := by
    rw [List.map_map]
    exact List.map_id _
  have sorted : (w.batches.map fun batch => (⟨batch.1, batch.2⟩ : Sigma fun _ : String => Hold)).Perm
      w.holds.entries := by
    rw [← back]
    exact (List.perm_insertionSort _ _).map _
  rw [AList.lookup_to_alist]
  exact (List.perm_dlookup batch w.holds.nodupKeys sorted.symm).symm

end Told

/-- Balances that name nobody twice, and no debt above what the machine can hold. -/
structure Meta.Tidy (m : Meta) : Prop where
  carry : (m.carry.map Prod.fst).Nodup
  debt : (m.debt.map Prod.fst).Nodup
  bounded : ∀ entry ∈ m.debt, entry.2 ≤ u64Max

/-- The balances are those of the ledger. -/
structure Meta.Tells (m : Meta) (s : Store) : Prop where
  targetWork : s.targetWork = m.targetWork
  carried : ∀ entry ∈ m.carry, s.window.carryOf entry.1 = entry.2
  uncarried : ∀ identity, identity ∉ m.carry.map Prod.fst → s.window.carryOf identity = 0
  indebted : ∀ entry ∈ m.debt, s.window.debtOf entry.1 = entry.2
  clear : ∀ identity, identity ∉ m.debt.map Prod.fst → s.window.debtOf identity = 0
  holds : ∀ batch, s.window.holds.lookup batch = m.bare.holds.lookup batch
  rebateOwed : s.window.rebateOwed = m.rebateOwed
  appliedDebits : s.ledger.appliedDebits = m.appliedDebits
  debitsTracked : s.ledger.debitsTracked = m.appliedDebitsTracked

private theorem toMeta_tidy {s : Store} (sound : s.window.Sound) : s.toMeta.Tidy where
  carry := named_nodup s.window s.window.carry
  debt := named_nodup s.window s.window.debt
  bounded entry member := by
    rw [← amount_of_mem_named member]
    exact sound.bounded entry.1

private theorem toMeta_tells (s : Store) : s.toMeta.Tells s where
  targetWork := rfl
  carried _ member := amount_of_mem_named member
  uncarried _ absent := amount_of_not_named absent
  indebted _ member := amount_of_mem_named member
  clear _ absent := amount_of_not_named absent
  holds batch := (lookup_batches s.window batch).symm
  rebateOwed := rfl
  appliedDebits := rfl
  debitsTracked := rfl

theorem Opened.tells {m : Meta} {d d' : Disk} {file : List String} {w : Window} {s : Store}
    (opened : Opened m d file w s d') (tidy : m.Tidy) : m.Tells s := by
  obtain ⟨totals, lastSeen, same⟩ := opened.loaded.ledger
  have window : s.window = { w with totals, lastSeen } := same
  have carries (identity : String) : s.window.carryOf identity = w.carryOf identity := by rw [window]; rfl
  have debts (identity : String) : s.window.debtOf identity = w.debtOf identity := by rw [window]; rfl
  constructor
  · exact opened.targetWork
  · intro entry member
    rw [carries, opened.read.carried tidy.carry entry member]
  · intro identity absent
    rw [carries, opened.read.uncarried identity absent]
  · intro entry member
    rw [debts, opened.read.indebted tidy.debt entry member (tidy.bounded entry member)]
  · intro identity absent
    rw [debts, opened.read.clear identity absent]
  · intro batch
    rw [window, ← opened.read.holds]
  · rw [window, ← opened.read.rebateOwed]
  · exact opened.loaded.appliedDebits
  · exact opened.loaded.debitsTracked

/-- Two ledgers hold the same: the table, the rows with their sums, and the balances. -/
structure Store.SameState (s s' : Store) : Prop where
  names : s'.names = s.names
  credits : s'.credits = s.credits
  totalWork : s'.totalWork = s.totalWork
  totals : ∀ ident, Totals.tallied s'.window.totals ident = Totals.tallied s.window.totals ident
  targetWork : s'.targetWork = s.targetWork
  carry : ∀ identity, s'.window.carryOf identity = s.window.carryOf identity
  debt : ∀ identity, s'.window.debtOf identity = s.window.debtOf identity
  holds : ∀ batch, s'.window.holds.lookup batch = s.window.holds.lookup batch
  rebateOwed : s'.window.rebateOwed = s.window.rebateOwed
  appliedDebits : s'.ledger.appliedDebits = s.ledger.appliedDebits
  debitsTracked : s'.ledger.debitsTracked = s.ledger.debitsTracked

theorem Store.SameState.refl (s : Store) : s.SameState s :=
  ⟨rfl, rfl, rfl, fun _ => rfl, rfl, fun _ => rfl, fun _ => rfl, fun _ => rfl, rfl, rfl, rfl⟩

theorem Store.SameState.trans {first second third : Store} (one : first.SameState second)
    (two : second.SameState third) : first.SameState third where
  names := two.names.trans one.names
  credits := two.credits.trans one.credits
  totalWork := two.totalWork.trans one.totalWork
  totals ident := (two.totals ident).trans (one.totals ident)
  targetWork := two.targetWork.trans one.targetWork
  carry identity := (two.carry identity).trans (one.carry identity)
  debt identity := (two.debt identity).trans (one.debt identity)
  holds batch := (two.holds batch).trans (one.holds batch)
  rebateOwed := two.rebateOwed.trans one.rebateOwed
  appliedDebits := two.appliedDebits.trans one.appliedDebits
  debitsTracked := two.debitsTracked.trans one.debitsTracked

/-- Ledgers with the same table and rows that the same balances tell of. -/
theorem Meta.Tells.sameState {m : Meta} {s s' : Store} (tells : m.Tells s) (tells' : m.Tells s')
    (names : s'.names = s.names) (credits : s'.credits = s.credits) (tallied : s.rows.Tallied)
    (tallied' : s'.rows.Tallied) : s.SameState s' := by
  have total : s.totalWork = work s.credits := tallied.total
  have total' : s'.totalWork = work s'.credits := tallied'.total
  constructor
  · exact names
  · exact credits
  · rw [total', total, credits]
  · intro ident
    have each : Totals.tallied s.window.totals ident = rowTally s.credits ident := tallied.each ident
    have each' : Totals.tallied s'.window.totals ident = rowTally s'.credits ident := tallied'.each ident
    rw [each', each, credits]
  · rw [tells'.targetWork, tells.targetWork]
  · intro identity
    by_cases listed : identity ∈ m.carry.map Prod.fst
    · obtain ⟨entry, member, rfl⟩ := List.mem_map.mp listed
      rw [tells'.carried entry member, tells.carried entry member]
    · rw [tells'.uncarried identity listed, tells.uncarried identity listed]
  · intro identity
    by_cases listed : identity ∈ m.debt.map Prod.fst
    · obtain ⟨entry, member, rfl⟩ := List.mem_map.mp listed
      rw [tells'.indebted entry member, tells.indebted entry member]
    · rw [tells'.clear identity listed, tells.clear identity listed]
  · intro batch
    rw [tells'.holds, tells.holds]
  · rw [tells'.rebateOwed, tells.rebateOwed]
  · rw [tells'.appliedDebits, tells.appliedDebits]
  · rw [tells'.debitsTracked, tells.debitsTracked]

/-- No sum of work goes over what the machine can hold. -/
def StoreOp.Unsaturated (s : Store) (d : Disk) : StoreOp → Prop
  | credit _ work _ _ _ => Tides.work s.credits + work ≤ u64Max
  | importJsonCredits doc => Tides.work s.credits + (doc.map Store.ImportRow.work).sum ≤ u64Max
  | reopen chars rows => Tides.work (d.spilled s chars rows).credits ≤ u64Max
  | _ => True

/-- Steps that name identities the file keeps in step, and saturate no sum. -/
def StoreOp.Persistable (s : Store) (d : Disk) (op : StoreOp) : Prop := op.Named s d ∧ op.Unsaturated s d

/-- The files are those of the ledger, and tell its balances whenever nothing is waiting to be written. -/
structure Persists (s : Store) (d : Disk) : Prop extends Filed s d, Logged s d where
  fits : work s.credits ≤ u64Max
  told : ∃ m, loadMeta d.window = .ok m ∧ m.Tidy ∧ (s.ledger.dirty = false → m.Tells s)

namespace Persists

variable {s : Store} {d : Disk}

/-- Opening a directory whose balances are tidy. -/
theorem of_opened {m : Meta} {file : List String} (loaded : loadMeta d.window = .ok m)
    (whole : Lines.whole d.identities = Lines.text file) (clean : ∀ name ∈ file, Lines.Clean name)
    (distinct : file.Nodup) (named : m.Names file) (tidy : m.Tidy) (fits : work d.credits ≤ u64Max) :
    ∃ s' d', openLedger d = .ok (s', d') ∧ Persists s' d' := by
  obtain ⟨w, s', d', opens, opened⟩ := openLedger_opened loaded whole clean distinct named
  obtain ⟨s'', d'', opens', filed, _⟩ := Filed.opened loaded whole clean distinct named
  rw [opens] at opens'
  cases opens'
  have logged := opened.logged fits
  have fewer : work s'.credits ≤ work d.credits :=
    Trim.load_le_of_sublist Credit.work (opened.loaded.credits_suffix.sublist.trans List.filter_sublist)
  refine ⟨s', d', opens, filed, logged, fewer.trans fits, m, ?_, tidy, fun _ => opened.tells tidy⟩
  rw [opened.balances]
  exact loaded

theorem fresh (opens : openLedger {} = .ok (s, d)) : Persists s d := by
  have loaded : loadMeta ({} : Disk).window = .ok {} := rfl
  have whole : Lines.whole ({} : Disk).identities = Lines.text [] := rfl
  obtain ⟨s', d', opens', persists⟩ :=
    of_opened loaded whole (by simp) List.nodup_nil ⟨by simp, by simp, by simp⟩
    ⟨List.nodup_nil, List.nodup_nil, by simp⟩ (Nat.zero_le _)
  rw [opens] at opens'
  cases opens'
  exact persists

theorem money (persists : Persists s d) {op : MoneyOp} (named : op.Named s.ledger) :
    Persists (s.onLedger op.apply) d := by
  obtain ⟨lined, touched⟩ := MoneyOp.lined persists.sound named
  have rows : (s.onLedger op.apply).rows = s.rows := by
    show (⟨s.credits, (op.apply s.ledger).window.totals, s.totalWork, s.targetWork⟩ : Rows) = s.rows
    rw [lined.totals]
    rfl
  have tallied : (s.onLedger op.apply).rows.Tallied := rows ▸ persists.tallied
  obtain ⟨m, loaded, tidy, tells⟩ := persists.told
  refine ⟨persists.toFiled.money named, ⟨tallied, persists.settled, persists.within, persists.counted⟩,
    persists.fits, m, loaded, tidy, ?_⟩
  intro dry
  rcases touched with same | wet
  · have unmoved : s.onLedger op.apply = s := by
      show { s with ledger := op.apply s.ledger } = s
      rw [same]
    rw [unmoved] at dry ⊢
    exact tells dry
  · exact absurd dry (by simp [Store.onLedger, wet])

theorem work_credit_le (s : Store) (identity : String) (work height ts : Nat) (source : UInt8) :
    Tides.work (s.credit identity work height ts source).credits ≤ Tides.work s.credits + work := by
  let row := Store.rowFor (s.window.intern identity) identity work height ts source
  have kept : (s.rows.creditRow row).credits <:+ s.credits ++ [row] :=
    Rows.trim_suffix (s.rows.append (fun _ ts => ts) row)
  have bound := Trim.load_le_of_sublist Credit.work kept.sublist
  rw [Trim.load_append, Trim.load_cons, Trim.load_nil, Nat.add_zero] at bound
  exact bound

theorem credit (persists : Persists s d) {identity : String} {work : Nat} (clean : Lines.Clean identity)
    (fits : Tides.work s.credits + work ≤ u64Max) (height ts : Nat) (source : UInt8) :
    Persists (s.credit identity work height ts source) d := by
  obtain ⟨m, loaded, tidy, _⟩ := persists.told
  exact ⟨persists.toFiled.credit clean work height ts source,
    persists.toLogged.credit identity height ts source fits,
    (work_credit_le s identity work height ts source).trans fits, m, loaded, tidy, fun dry => by cases dry⟩

theorem setTarget (persists : Persists s d) (target : Nat) : Persists (s.setTarget target) d := by
  obtain ⟨m, loaded, tidy, tells⟩ := persists.told
  refine ⟨persists.toFiled.setTarget target, persists.toLogged.setTarget target, ?_, m, loaded, tidy, ?_⟩
  · unfold Store.setTarget
    split
    · exact persists.fits
    · exact (Trim.load_le_of_sublist Credit.work (Rows.setTarget_suffix s.rows target).sublist).trans
        persists.fits
  · unfold Store.setTarget
    split
    · exact tells
    · exact fun dry => by cases dry

theorem compact (persists : Persists s d) : Persists (s.compact d).1 (s.compact d).2 := by
  obtain ⟨m, loaded, tidy, tells⟩ := persists.told
  refine ⟨persists.toFiled.compact, persists.toLogged.compact, persists.fits, m, loaded, tidy, ?_⟩
  intro dry
  have told := tells dry
  exact ⟨told.targetWork, told.carried, told.uncarried, told.indebted, told.clear, told.holds, told.rebateOwed,
    told.appliedDebits, told.debitsTracked⟩

theorem flush (persists : Persists s d) : Persists (s.flush d).1 (s.flush d).2 := by
  have filed := persists.toFiled.flush
  have logged := persists.toLogged.flush
  have tells := toMeta_tells s
  by_cases wet : s.ledger.dirty = true
  · rw [flush_dirty d wet] at filed logged ⊢
    refine ⟨filed, logged, ?_, s.toMeta, ?_, toMeta_tidy persists.sound, fun _ => ?_⟩
    · split
      · exact persists.fits
      · exact persists.fits
    · split
      · exact loadMeta_writeAtomic _ _
      · exact loadMeta_writeAtomic _ _
    · split
      · exact ⟨rfl, tells.carried, tells.uncarried, tells.indebted, tells.clear, tells.holds, rfl, rfl, rfl⟩
      · exact ⟨rfl, tells.carried, tells.uncarried, tells.indebted, tells.clear, tells.holds, rfl, rfl, rfl⟩
  · rw [flush_clean d (by simpa using wet)]
    exact persists

theorem persistWindow (persists : Persists s d) : Persists (s.persistWindow d).1 (s.persistWindow d).2 := by
  unfold Store.persistWindow
  simp only
  split
  · exact persists.flush.compact
  · exact persists.flush

theorem importRows (persists : Persists s d) {doc : List Store.ImportRow}
    (clean : ∀ row ∈ doc, Lines.Clean row.identity)
    (fits : work s.credits + (doc.map Store.ImportRow.work).sum ≤ u64Max) :
    Persists (doc.foldl Store.importRow s) d := by
  induction doc generalizing s with
  | nil => exact persists
  | cons row rest ih =>
    rw [List.map_cons, List.sum_cons] at fits
    have credited :=
      persists.credit (clean row List.mem_cons_self) (by omega : _ + row.work ≤ u64Max) row.height row.ts
      (Store.importSource row.source)
    have grown : work (s.importRow row).credits ≤ work s.credits + row.work := work_credit_le s _ _ _ _ _
    exact ih credited (fun other member => clean other (List.mem_cons_of_mem _ member)) (by omega)

theorem reopen (persists : Persists s d) {chars rows : Nat}
    (fits : work (d.spilled s chars rows).credits ≤ u64Max) :
    ∃ s' d', openLedger (d.spilled s chars rows) = .ok (s', d') ∧ Persists s' d' := by
  obtain ⟨file, m, loaded, whole, clean, distinct, named, _⟩ := persists.toFiled.torn chars rows
  obtain ⟨m', loaded', tidy, _⟩ := persists.told
  have same : m' = m := Except.ok.inj (loaded'.symm.trans loaded)
  exact of_opened loaded whole clean distinct named (same ▸ tidy) fits

theorem step (persists : Persists s d) {op : StoreOp} (sure : op.Persistable s d) {s' : Store} {d' : Disk}
    (took : op.step s d = .ok (s', d')) : Persists s' d' := by
  obtain ⟨named, fits⟩ := sure
  cases op with
  | money op =>
    cases took
    exact persists.money named
  | credit identity work height ts source =>
    cases took
    exact persists.credit named fits height ts source
  | setTarget target =>
    cases took
    exact persists.setTarget target
  | importJsonCredits doc =>
    have here := Except.ok.inj took
    rw [show s' = (s.importJsonCredits d doc).1 by rw [here],
      show d' = (s.importJsonCredits d doc).2 by rw [here]]
    exact (persists.importRows named fits).flush
  | flush =>
    have here := Except.ok.inj took
    rw [show s' = (s.flush d).1 by rw [here], show d' = (s.flush d).2 by rw [here]]
    exact persists.flush
  | persistWindow =>
    have here := Except.ok.inj took
    rw [show s' = (s.persistWindow d).1 by rw [here], show d' = (s.persistWindow d).2 by rw [here]]
    exact persists.persistWindow
  | reopen chars rows =>
    obtain ⟨_, _, opens, persists'⟩ := persists.reopen fits
    have same := opens.symm.trans took
    cases same
    exact persists'

theorem of_reached (reached : Reached StoreOp.Persistable s d) : Persists s d :=
  reached.invariant (fun _ _ => fresh) fun _ _ _ _ _ persists sure took => persists.step sure took

/-- Once written down, the files hold just the window. -/
theorem written (persists : Persists s d) :
    (s.persistWindow d).1.ledger.dirty = false ∧
      (s.persistWindow d).2.credits = (s.persistWindow d).1.credits := by
  obtain ⟨dry, _, out⟩ := flush_clear persists.toFiled
  unfold Store.persistWindow
  simp only
  split
  · exact ⟨dry, rfl⟩
  · rename_i full
    have file := persists.flush.whole (not_not.mp full)
    rw [out, List.append_nil] at file
    exact ⟨dry, file.symm⟩

/-- Writing the window down changes nothing of it. -/
theorem sameState_persistWindow (s : Store) (d : Disk) : s.SameState (s.persistWindow d).1 := by
  have flushed : s.SameState (s.flush d).1 := by
    unfold Store.flush
    split
    · exact .refl s
    · simp only
      split
      · exact ⟨rfl, rfl, rfl, fun _ => rfl, rfl, fun _ => rfl, fun _ => rfl, fun _ => rfl, rfl, rfl, rfl⟩
      · exact ⟨rfl, rfl, rfl, fun _ => rfl, rfl, fun _ => rfl, fun _ => rfl, fun _ => rfl, rfl, rfl, rfl⟩
  unfold Store.persistWindow
  simp only
  split
  · exact ⟨flushed.names, flushed.credits, flushed.totalWork, flushed.totals, flushed.targetWork, flushed.carry,
      flushed.debt, flushed.holds, flushed.rebateOwed, flushed.appliedDebits, flushed.debitsTracked⟩
  · exact flushed

theorem reload (persists : Persists s d) (dry : s.ledger.dirty = false) (file : d.credits = s.credits) :
    ∃ s' d', openLedger d = .ok (s', d') ∧ s.SameState s' := by
  obtain ⟨m, loaded, tidy, tells⟩ := persists.told
  obtain ⟨w, s', d', opens, opened, all⟩ := persists.toFiled.reload (persists.flushed dry).1 loaded
  have fits : work d.credits ≤ u64Max := by
    rw [file]
    exact persists.fits
  have told := tells dry
  obtain ⟨tallied, credits⟩ := opened.tallied_kept fits
  rw [all, file, ← told.targetWork, persists.settled] at credits
  exact ⟨s', d', opens, told.sameState (opened.tells tidy) opened.names credits persists.tallied tallied⟩

end Persists

/-- Writing the window down and opening the directory again gives back the ledger, as long as
book_debits, unbook and reconcile_debits, which intern identities without a line in the file, name only
identities in the table. -/
theorem persist_reopens {s : Store} {d : Disk} (reached : Reached StoreOp.Persistable s d) :
    ∃ s' d', openLedger (s.persistWindow d).2 = .ok (s', d') ∧ s.SameState s' := by
  have persists := Persists.of_reached reached
  obtain ⟨dry, file⟩ := persists.written
  obtain ⟨s', d', opens, same⟩ := persists.persistWindow.reload dry file
  exact ⟨s', d', opens, (Persists.sameState_persistWindow s d).trans same⟩

theorem persist_reopens_tidy :
    ∃ s' d', openLedger (tidy.persistWindow {}).2 = .ok (s', d') ∧ tidy.SameState s' := by
  have readable : Lines.Clean "y" := by decide
  have fits : work unused.credits + 10 ≤ u64Max := by decide
  have credited : Reached StoreOp.Persistable (unused.credit "y" 10 1 1 sourceDatum) {} :=
    .next (.credit "y" 10 1 1 sourceDatum) (.opened open_unused) ⟨readable, fits⟩ rfl
  have known :
      MoneyOp.Named (unused.credit "y" 10 1 1 sourceDatum).ledger (.move (.bookDebits [("y", -5)] {})) := by
    intro _ entry member _
    rw [List.mem_singleton.mp member]
    decide
  exact persist_reopens (.next (.money (.move (.bookDebits [("y", -5)] {}))) credited ⟨known, trivial⟩ rfl)

/-- Work in the window for one identity. -/
def Window.workOf (w : Window) (identity : String) : Nat :=
  (((w.idents.position identity).bind fun ident => w.totals.lookup ident).map fun t => t.1).getD 0

/-- The work of "y" is written under an index that the file gives to "x", whom book_debits interned
without a line. -/
theorem persist_shifts_work :
    Reached (fun _ _ _ => True) shifted {} ∧
      (shifted.window.workOf "x", shifted.window.workOf "y") = (0, 10) ∧
      ((openLedger (shifted.persistWindow {}).2).toOption.map fun opened =>
        (opened.1.window.workOf "x", opened.1.window.workOf "y")) = some (10, 0) := by
  have booked :
    Reached (fun _ _ _ => True) (unused.onLedger (MoneyOp.apply (.move (.bookDebits [("x", -5)] {})))) {} :=
    .next (.money (.move (.bookDebits [("x", -5)] {}))) (.opened open_unused) trivial rfl
  refine ⟨.next (.credit "y" 10 1 1 sourceDatum) booked trivial rfl, ?_, ?_⟩
  all_goals decide

end Lazarus.Tides
