import Lazarus.Tides.Opening

/-! The identity file and the identity table grow in step: what is read back after a flush is the table,
and so every row keeps its owner. -/

namespace Lazarus.Tides

open Machine Interner

/-- The identity a row counts for. -/
def Store.owner (s : Store) (row : Credit) : Option String := s.window.idents.name? row.ident

/-- An operation names identities that stay in step with the file. -/
def StoreOp.Named (s : Store) (_ : Disk) : StoreOp → Prop
  | money op => op.Named s.ledger
  | credit identity .. => Lines.Clean identity
  | importJsonCredits doc => ∀ row ∈ doc, Lines.Clean row.identity
  | setTarget _ => True
  | flush => True
  | persistWindow => True
  | reopen _ _ => True

section Written

private theorem named_names (w : Window) (book : Book) : ∀ entry ∈ w.named book, entry.1 ∈ w.idents.names := by
  intro entry member
  obtain ⟨filed, _, found⟩ := List.mem_filterMap.mp (List.mem_insertionSort _ |>.mp member)
  obtain ⟨name, named, rfl⟩ := Option.map_eq_some_iff.mp found
  exact List.mem_of_getElem? named

private theorem lookup_of_mem_batches {w : Window} {batch : String × Hold} (member : batch ∈ w.batches) :
    w.holds.lookup batch.1 = some batch.2 := by
  obtain ⟨entry, filed, rfl⟩ := List.mem_map.mp (List.mem_insertionSort _ |>.mp member)
  exact (List.mem_dlookup_iff w.holds.nodupKeys).mpr filed

private theorem toMeta_names {s : Store} (sound : s.window.Sound) : s.toMeta.Names s.names where
  carry := named_names s.window s.window.carry
  debt := named_names s.window s.window.debt
  holds batch member entry listed := sound.held batch.1 batch.2 (lookup_of_mem_batches member) entry listed

end Written

/-- The files are those of the ledger in memory, less what the writers still hold. -/
structure Filed (s : Store) (d : Disk) : Prop where
  lines : ∃ written, d.identities = Lines.text written ∧ written ++ s.ledger.identsOut = s.names ∧
    ∃ m, loadMeta d.window = .ok m ∧ m.Names written
  clean : ∀ name ∈ s.names, Lines.Clean name
  sound : s.window.Sound
  indexed : ∀ row ∈ d.credits ++ s.creditsOut ++ s.credits, row.ident < s.names.length
  flushed : s.ledger.dirty = false → s.ledger.identsOut = [] ∧ s.creditsOut = []

namespace Filed

variable {s : Store} {d : Disk}

/-- Opening a directory whose identity file, cut back to whole lines, has every name the balances use. -/
theorem opened {m : Meta} {file : List String} (loaded : loadMeta d.window = .ok m)
    (whole : Lines.whole d.identities = Lines.text file) (clean : ∀ name ∈ file, Lines.Clean name)
    (distinct : file.Nodup) (named : m.Names file) :
    ∃ s' d', openLedger d = .ok (s', d') ∧ Filed s' d' ∧ s'.names = file := by
  obtain ⟨w, s', d', opens, opened⟩ := openLedger_opened loaded whole clean distinct named
  obtain ⟨totals, lastSeen, window⟩ := opened.loaded.ledger
  have names : s'.names = file := opened.names
  have small : ∀ row ∈ usable w d.credits, row.ident < file.length := by
    intro row member
    rw [← opened.read.names]
    exact of_decide_eq_true (List.mem_filter.mp member).2
  have live : ∀ row ∈ s'.credits, row.ident < file.length :=
    fun row member => small row (opened.loaded.credits_suffix.subset member)
  refine ⟨s', d', opens, ⟨⟨file, opened.identities, ?_, m, ?_, named⟩, ?_, ?_, ?_, ?_⟩, names⟩
  · rw [opened.loaded.identsOut, names, List.append_nil]
  · rw [opened.balances, loaded]
  · rw [names]
    exact clean
  · show s'.ledger.window.Sound
    rw [window]
    exact ⟨opened.read.sound.held, opened.read.sound.bounded⟩
  · intro row member
    rw [names]
    rw [opened.loaded.creditsOut, List.append_nil] at member
    rcases List.mem_append.mp member with stored | kept
    · rcases opened.credits with ⟨same, all⟩ | rewritten
      · exact small row (by rwa [all, ← same])
      · exact live row (rewritten ▸ stored)
    · exact live row kept
  · exact fun _ => ⟨opened.loaded.identsOut, opened.loaded.creditsOut⟩

theorem fresh (opens : openLedger {} = .ok (s, d)) : Filed s d := by
  have named : ({} : Meta).Names [] := ⟨by simp, by simp, by simp⟩
  have loaded : loadMeta ({} : Disk).window = .ok {} := rfl
  have whole : Lines.whole ({} : Disk).identities = Lines.text [] := rfl
  obtain ⟨s', d', opens', filed, _⟩ := opened loaded whole (by simp) List.nodup_nil named
  rw [opens] at opens'
  cases opens'
  exact filed

/-- Lines that follow what was written keep the two in step. -/
theorem of_lined (filed : Filed s d) {l : Ledger} (lined : s.ledger.Lined l) (touched : s.ledger.Touched l) :
    Filed { s with ledger := l } d := by
  obtain ⟨fresh, names, out, clean⟩ := lined.lines
  obtain ⟨written, text, grown, loaded⟩ := filed.lines
  constructor
  · refine ⟨written, text, ?_, loaded⟩
    show written ++ l.identsOut = l.window.idents.names
    rw [out, names, ← List.append_assoc, grown]
    rfl
  · intro name member
    have listed : name ∈ s.names ++ fresh := names ▸ member
    rcases List.mem_append.mp listed with old | new
    · exact filed.clean name old
    · exact clean name new
  · exact lined.sound filed.sound
  · intro row member
    have before : row.ident < s.names.length := filed.indexed row member
    show row.ident < l.window.idents.names.length
    rw [names, List.length_append]
    exact Nat.lt_add_right _ before
  · intro dry
    rcases touched with same | wet
    · rw [same] at dry ⊢
      exact filed.flushed dry
    · exact absurd dry (by simp [wet])

theorem money (filed : Filed s d) {op : MoneyOp} (named : op.Named s.ledger) : Filed (s.onLedger op.apply) d :=
  let ⟨lined, touched⟩ := MoneyOp.lined filed.sound named
  filed.of_lined lined touched

/-- New rows that the window keeps, under indices the table has. -/
theorem withRows (filed : Filed s d) {r : Rows} (within : ∀ row ∈ r.credits, row.ident < s.names.length) :
    Filed (s.withRows r) d := by
  refine ⟨filed.lines, filed.clean, ⟨filed.sound.held, filed.sound.bounded⟩, ?_, filed.flushed⟩
  intro row member
  rcases List.mem_append.mp member with stored | live
  · exact filed.indexed row (List.mem_append_left _ stored)
  · exact within row live

theorem setTarget (filed : Filed s d) (target : Nat) : Filed (s.setTarget target) d := by
  unfold Store.setTarget
  split
  · exact filed
  · have resized : Filed (s.withRows (s.rows.setTarget target)) d := by
      apply filed.withRows
      intro row member
      exact filed.indexed row (List.mem_append_right _ ((Rows.setTarget_suffix s.rows target).subset member))
    exact ⟨resized.lines, resized.clean, resized.sound, resized.indexed, fun dry => by cases dry⟩

/-- The row a credit appends is its identity's. -/
theorem owner_rowFor (w : Window) (identity : String) (work height ts : Nat) (source : UInt8) :
    (w.intern identity).idents.name? (Store.rowFor (w.intern identity) identity work height ts source).ident =
      some identity := by
  obtain ⟨index, found⟩ := exists_position_intern w.idents identity
  have here : (w.intern identity).idents.position identity = some index := found
  simp only [Store.rowFor, here, Option.getD_some]
  exact name?_position here

theorem lined_credit {l : Ledger} {identity : String} (clean : Lines.Clean identity) (ident ts : Nat) :
    l.Lined { l with
      window := (l.window.intern identity).noteSeen ident ts
      identsOut := if (l.window.idents.position identity).isSome then l.identsOut else l.identsOut ++ [identity]
      dirty := true } := by
  refine .of_interns ⟨?_, rfl, ?_⟩ rfl clean
  · exact Window.names_intern l.window identity
  · intro sound
    have same (other : String) :
      ((l.window.intern identity).noteSeen ident ts).debtOf other = l.window.debtOf other :=
      Window.debtOf_intern l.window identity other
    exact sound.of_interned rfl rfl same

theorem credit (filed : Filed s d) {identity : String} (clean : Lines.Clean identity) (work height ts : Nat)
    (source : UInt8) : Filed (s.credit identity work height ts source) d := by
  unfold Store.credit
  simp only
  generalize shape : Store.rowFor (s.window.intern identity) identity work height ts source = row
  have seated : (s.window.intern identity).idents.name? row.ident = some identity := by
    rw [← shape]
    exact owner_rowFor s.window identity work height ts source
  have interned := filed.of_lined (lined_credit clean row.ident ts) (.inr rfl)
  have bound : row.ident < (s.window.intern identity).idents.names.length :=
    (List.getElem?_eq_some_iff.mp seated).1
  have appended : Filed
      { s with
        ledger := { s.ledger with
          window := (s.window.intern identity).noteSeen row.ident ts
          identsOut :=
            if (s.window.idents.position identity).isSome then s.ledger.identsOut else
              s.ledger.identsOut ++ [identity]
          dirty := true }
        lifetimeShares := s.lifetimeShares + 1
        lifetimeWork := satAdd s.lifetimeWork work
        creditsOut := s.creditsOut ++ [row]
        rowsOnDisk := s.rowsOnDisk + 1 } d := by
    refine ⟨interned.lines, interned.clean, interned.sound, ?_, fun dry => by cases dry⟩
    intro other member
    simp only [List.mem_append, List.mem_singleton] at member
    rcases member with (stored | written | new) | live
    · exact interned.indexed other (by simp [stored])
    · exact interned.indexed other (by simp [written])
    · rw [new]
      exact bound
    · exact interned.indexed other (by simp [live])
  apply appended.withRows
  intro other member
  have listed := (Rows.trim_suffix _).subset member
  rcases List.mem_append.mp listed with live | new
  · exact appended.indexed other (List.mem_append_right _ live)
  · rw [List.mem_singleton.mp new]
    exact bound

theorem compact (filed : Filed s d) : Filed (s.compact d).1 (s.compact d).2 := by
  refine ⟨filed.lines, filed.clean, filed.sound, ?_, fun dry => ⟨(filed.flushed dry).1, rfl⟩⟩
  intro row member
  simp only [Store.compact, List.append_nil, List.mem_append, or_self] at member
  exact filed.indexed row (List.mem_append_right _ member)

theorem flush (filed : Filed s d) : Filed (s.flush d).1 (s.flush d).2 := by
  unfold Store.flush
  split
  · exact filed
  · obtain ⟨written, text, grown, _⟩ := filed.lines
    have wrote : Filed { s with ledger := { s.ledger with identsOut := [], dirty := false }, creditsOut := [] }
        { identities := d.identities ++ Lines.text s.ledger.identsOut
          credits := d.credits ++ s.creditsOut
          window := writeAtomic d.window s.toMeta } := by
      refine ⟨⟨s.names, ?_, List.append_nil _, s.toMeta, loadMeta_writeAtomic _ _, toMeta_names filed.sound⟩,
        filed.clean, filed.sound, ?_, fun _ => ⟨rfl, rfl⟩⟩
      · rw [text, ← Lines.text_append, grown]
      · intro row member
        rw [List.append_nil] at member
        exact filed.indexed row member
    simp only
    split
    · exact wrote.compact
    · exact wrote

theorem persistWindow (filed : Filed s d) : Filed (s.persistWindow d).1 (s.persistWindow d).2 := by
  unfold Store.persistWindow
  simp only
  split
  · exact filed.flush.compact
  · exact filed.flush

theorem importJsonCredits (filed : Filed s d) {doc : List Store.ImportRow}
    (clean : ∀ row ∈ doc, Lines.Clean row.identity) :
    Filed (s.importJsonCredits d doc).1 (s.importJsonCredits d doc).2 := by
  have imported : Filed (doc.foldl Store.importRow s) d :=
    Run.foldl_mem Store.importRow (fun s => Filed s d)
      (fun s row member before => before.credit (clean row member) _ _ _ _) filed
  exact imported.flush

/-- Whatever of the writers' buffers had reached the files, the lines that are whole are the first
identities of the table, all that the balances name among them. -/
theorem torn (filed : Filed s d) (chars rows : Nat) :
    ∃ file m, loadMeta (d.spilled s chars rows).window = .ok m ∧
      Lines.whole (d.spilled s chars rows).identities = Lines.text file ∧ (∀ name ∈ file, Lines.Clean name) ∧
      file.Nodup ∧ m.Names file ∧ file <+: s.names := by
  obtain ⟨written, text, grown, m, loaded, named⟩ := filed.lines
  have clean : ∀ name ∈ written ++ s.ledger.identsOut, Lines.Clean name := by
    rw [grown]
    exact filed.clean
  obtain ⟨count, torn⟩ := Lines.whole_torn
    (fun name member => (clean name (List.mem_append_right _ member)).2.1) chars
  have whole : Lines.whole (d.spilled s chars rows).identities =
      Lines.text (written ++ s.ledger.identsOut.take count) := by
    show Lines.whole (d.identities ++ (Lines.text s.ledger.identsOut).take chars) = _
    rw [text, Lines.whole_text_append, torn, Lines.text_append]
  have begins : written ++ s.ledger.identsOut.take count <+: s.names := by
    rw [← grown]
    exact (List.prefix_append_right_inj written).mpr (List.take_prefix count _)
  exact ⟨_, m, loaded, whole, fun name member => filed.clean name (begins.subset member),
    s.ledger.window.idents.distinct.sublist begins.sublist, named.mono (List.subset_append_left _ _), begins⟩

theorem reopen (filed : Filed s d) (chars rows : Nat) :
    ∃ s' d', openLedger (d.spilled s chars rows) = .ok (s', d') ∧ Filed s' d' ∧ s'.names <+: s.names := by
  obtain ⟨file, m, loaded, whole, clean, distinct, named, begins⟩ := filed.torn chars rows
  obtain ⟨s', d', opens, filed', names⟩ := opened loaded whole clean distinct named
  exact ⟨s', d', opens, filed', names ▸ begins⟩

theorem step (filed : Filed s d) {op : StoreOp} (named : op.Named s d) {s' : Store} {d' : Disk}
    (took : op.step s d = .ok (s', d')) : Filed s' d' := by
  cases op with
  | money op =>
    cases took
    exact filed.money named
  | credit identity work height ts source =>
    cases took
    exact filed.credit named work height ts source
  | setTarget target =>
    cases took
    exact filed.setTarget target
  | importJsonCredits doc =>
    have here := Except.ok.inj took
    rw [show s' = (s.importJsonCredits d doc).1 by rw [here],
      show d' = (s.importJsonCredits d doc).2 by rw [here]]
    exact filed.importJsonCredits named
  | flush =>
    have here := Except.ok.inj took
    rw [show s' = (s.flush d).1 by rw [here], show d' = (s.flush d).2 by rw [here]]
    exact filed.flush
  | persistWindow =>
    have here := Except.ok.inj took
    rw [show s' = (s.persistWindow d).1 by rw [here], show d' = (s.persistWindow d).2 by rw [here]]
    exact filed.persistWindow
  | reopen chars rows =>
    obtain ⟨_, _, opens, filed', _⟩ := filed.reopen chars rows
    have same := opens.symm.trans took
    cases same
    exact filed'

theorem of_reached (reached : Reached StoreOp.Named s d) : Filed s d :=
  reached.invariant (fun _ _ => fresh) fun _ _ _ _ _ filed named took => filed.step named took

end Filed

/-- The identity table survives a restart in order: after a flush the lines of the file are the table,
and every row of the row file is read back as the row of the identity it was credited to. -/
structure InStep (s : Store) (d : Disk) : Prop where
  lines : Lines.read (s.flush d).2.identities = (s.flush d).1.names
  credited : ∀ identity work height ts source, Lines.Clean identity →
    ∃ row, (s.credit identity work height ts source).creditsOut = s.creditsOut ++ [row] ∧
      (s.credit identity work height ts source).owner row = some identity
  reloaded : ∃ s' d', openLedger (s.flush d).2 = .ok (s', d') ∧
    ∀ row ∈ (s.flush d).2.credits, ∃ identity, s.owner row = some identity ∧ s'.owner row = some identity

section Flushed

variable {s : Store} {d : Disk}

private theorem names_flush (s : Store) (d : Disk) : (s.flush d).1.names = s.names := by
  unfold Store.flush
  split
  · rfl
  · simp only
    split
    · rfl
    · rfl

/-- Once flushed, the writers hold nothing. -/
theorem flush_clear (filed : Filed s d) :
    (s.flush d).1.ledger.dirty = false ∧ (s.flush d).1.ledger.identsOut = [] ∧
      (s.flush d).1.creditsOut = [] := by
  have dry : (s.flush d).1.ledger.dirty = false := by
    unfold Store.flush
    split
    · rename_i clean
      simpa using clean
    · simp only
      split
      · rfl
      · rfl
  exact ⟨dry, filed.flush.flushed dry⟩

theorem Filed.inStep (filed : Filed s d) : InStep s d := by
  obtain ⟨_, out, _⟩ := flush_clear filed
  obtain ⟨written, text, grown, m, loaded, named⟩ := filed.flush.lines
  rw [out, List.append_nil] at grown
  have clean : ∀ name ∈ written, Lines.Clean name := by
    rw [grown]
    exact filed.flush.clean
  constructor
  · rw [text, Lines.read_text clean, grown]
  · intro identity work height ts source _
    exact ⟨_, rfl, Filed.owner_rowFor s.window identity work height ts source⟩
  · have whole : Lines.whole (s.flush d).2.identities = Lines.text written := by
      rw [text]
      simpa [Lines.whole] using Lines.whole_text_append written []
    have distinct : written.Nodup := by
      rw [grown]
      exact (s.flush d).1.ledger.window.idents.distinct
    obtain ⟨s', d', opens, _, names⟩ := Filed.opened loaded whole clean distinct named
    refine ⟨s', d', opens, ?_⟩
    intro row member
    have bound : row.ident < s.names.length := by
      rw [← names_flush s d]
      exact filed.flush.indexed row (by simp [member])
    have here : s.owner row = some s.names[row.ident] := List.getElem?_eq_getElem bound
    refine ⟨s.names[row.ident], here, ?_⟩
    have same : s'.names = s.names := by rw [names, grown, names_flush]
    have there : s'.owner row = s'.names[row.ident]? := rfl
    rw [there, same]
    exact here

/-- As long as every identity that gets a line can be read from one, and book_debits, unbook and
reconcile_debits, which write none, name only identities in the table, the table survives restarts in
order. -/
theorem identities_survive {s : Store} {d : Disk} (reached : Reached StoreOp.Named s d) : InStep s d :=
  (Filed.of_reached reached).inStep

/-- The ledger of a new directory. -/
def unused : Store := (openFrom {} {}).1

theorem open_unused : openLedger {} = .ok (unused, {}) :=
  congrArg Except.ok (Prod.ext rfl (by decide))

/-- A ledger that credited "y" and was told to take 5 sats off it. -/
def tidy : Store :=
  (unused.credit "y" 10 1 1 sourceDatum).onLedger (MoneyOp.apply (.move (.bookDebits [("y", -5)] {})))

theorem identities_survive_tidy : InStep tidy {} := by
  have readable : Lines.Clean "y" := by decide
  have credited : Reached StoreOp.Named (unused.credit "y" 10 1 1 sourceDatum) {} :=
    .next (.credit "y" 10 1 1 sourceDatum) (.opened open_unused) readable rfl
  have known :
      MoneyOp.Named (unused.credit "y" 10 1 1 sourceDatum).ledger (.move (.bookDebits [("y", -5)] {})) := by
    intro _ entry member _
    rw [List.mem_singleton.mp member]
    decide
  exact identities_survive (.next (.money (.move (.bookDebits [("y", -5)] {}))) credited known rfl)

/-- A block that paid carry to "x", whom the table had never met, and then work for "y". -/
def shifted : Store :=
  (unused.onLedger (MoneyOp.apply (.move (.bookDebits [("x", -5)] {})))).credit "y" 10 1 1 sourceDatum

/-- A correction by hand for an identity of two lines. -/
def broken : Store := unused.onLedger (MoneyOp.apply (.move (.settleCarry [("a\nb", 5)])))

/-- "x" is interned without a line, so "y", second in the table, is first in the file: its work is
reloaded as work of "x". And an identity with a line feed in it is read back as two. -/
theorem identities_shifted :
    Reached (fun _ _ _ => True) shifted {} ∧ shifted.names = ["x", "y"] ∧
      Lines.read (shifted.flush {}).2.identities = ["y"] ∧
      (shifted.flush {}).2.credits.map shifted.owner = [some "y"] ∧
      ((openLedger (shifted.flush {}).2).toOption.map fun opened => opened.2.credits.map opened.1.owner) =
        some [some "x"] ∧
      Reached (fun _ _ _ => True) broken {} ∧ broken.names = ["a\nb"] ∧
      Lines.read (broken.flush {}).2.identities = ["a", "b"] := by
  have booked :
    Reached (fun _ _ _ => True) (unused.onLedger (MoneyOp.apply (.move (.bookDebits [("x", -5)] {})))) {} :=
    .next (.money (.move (.bookDebits [("x", -5)] {}))) (.opened open_unused) trivial rfl
  refine ⟨.next (.credit "y" 10 1 1 sourceDatum) booked trivial rfl, ?_, ?_, ?_, ?_,
    .next (.money (.move (.settleCarry [("a\nb", 5)]))) (.opened open_unused) trivial rfl, ?_, ?_⟩
  all_goals decide

end Flushed

end Lazarus.Tides
