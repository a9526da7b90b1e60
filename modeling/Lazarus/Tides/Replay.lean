import Lazarus.Tides.Identities

/-! Replaying the row file. The live window trims after every row, under the target of that moment; a
replay pushes every row still in the file and trims once, under the last target. -/

namespace Lazarus.Tides

open Machine Interner

section Step

variable (s : Store) (d : Disk)

/-- The ledger once its writers have reached the files. -/
def Store.drained : Store :=
  { s with ledger := { s.ledger with identsOut := [], dirty := false }, creditsOut := [] }

/-- The files once the writers of a ledger have reached them. -/
def Disk.synced : Disk :=
  { identities := d.identities ++ Lines.text s.ledger.identsOut
    credits := d.credits ++ s.creditsOut
    window := writeAtomic d.window s.toMeta }

theorem flush_clean {s : Store} (dry : s.ledger.dirty = false) : s.flush d = (s, d) := by
  simp [Store.flush, dry]

theorem flush_dirty {s : Store} (wet : s.ledger.dirty = true) :
    s.flush d =
      if s.credits.length + 8192 < s.rowsOnDisk then s.drained.compact (d.synced s) else
        (s.drained, d.synced s) := by
  simp [Store.flush, wet, Store.drained, Disk.synced]

private theorem rows_credit (identity : String) (work height ts : Nat) (source : UInt8) :
    (s.credit identity work height ts source).rows =
      s.rows.creditRow (Store.rowFor (s.window.intern identity) identity work height ts source) := rfl

private theorem creditsOut_credit (identity : String) (work height ts : Nat) (source : UInt8) :
    (s.credit identity work height ts source).creditsOut =
      s.creditsOut ++ [Store.rowFor (s.window.intern identity) identity work height ts source] := rfl

private theorem rows_setTarget {s : Store} {target : Nat} (other : s.targetWork ≠ target) :
    (s.setTarget target).rows = s.rows.setTarget target := by
  rw [Store.setTarget, if_neg other]
  rfl

end Step

/-- The rows of the window are the newest of the file and of the writer, counted and trimmed. -/
structure Logged (s : Store) (d : Disk) : Prop where
  tallied : s.rows.Tallied
  settled : Trim.kept Credit.work s.targetWork s.credits = s.credits
  within : s.credits <:+ d.credits ++ s.creditsOut
  counted : s.rowsOnDisk = (d.credits ++ s.creditsOut).length

namespace Logged

variable {s : Store} {d : Disk}

theorem credit (logged : Logged s d) (identity : String) {work : Nat} (height ts : Nat) (source : UInt8)
    (fits : Tides.work s.credits + work ≤ u64Max) : Logged (s.credit identity work height ts source) d := by
  generalize shape : Store.rowFor (s.window.intern identity) identity work height ts source = row
  have weight : row.work = work := by rw [← shape]; rfl
  have rows := rows_credit s identity work height ts source
  have out := creditsOut_credit s identity work height ts source
  rw [shape] at rows out
  obtain ⟨tallied, kept⟩ := logged.tallied.creditRow row (by rw [weight]; exact fits)
  have credits : (s.credit identity work height ts source).credits =
      Trim.kept Credit.work s.targetWork (s.credits ++ [row]) := (congrArg Rows.credits rows).trans kept
  have target : (s.credit identity work height ts source).targetWork = s.targetWork :=
    (congrArg Rows.targetWork rows).trans (Rows.targetWork_creditRow s.rows row)
  constructor
  · rw [rows]
    exact tallied
  · rw [target, credits]
    exact Trim.kept_idem _ _ _
  · obtain ⟨earlier, file⟩ := logged.within
    rw [credits, out, ← List.append_assoc, ← file, List.append_assoc]
    exact (Trim.kept_suffix _ _ _).trans (List.suffix_append earlier _)
  · show s.rowsOnDisk + 1 = _
    rw [out, logged.counted]
    simp only [List.length_append, List.length_singleton]
    omega

theorem setTarget (logged : Logged s d) (target : Nat) : Logged (s.setTarget target) d := by
  by_cases same : s.targetWork = target
  · rw [Store.setTarget, if_pos same]
    exact logged
  · have rows := rows_setTarget same
    obtain ⟨tallied, kept⟩ := logged.tallied.setTarget target
    have credits : (s.setTarget target).credits = Trim.kept Credit.work target s.credits :=
      (congrArg Rows.credits rows).trans kept
    have aim : (s.setTarget target).targetWork = target :=
      (congrArg Rows.targetWork rows).trans (Rows.targetWork_setTarget s.rows target)
    have out : (s.setTarget target).creditsOut = s.creditsOut := by rw [Store.setTarget, if_neg same]; rfl
    have stored : (s.setTarget target).rowsOnDisk = s.rowsOnDisk := by rw [Store.setTarget, if_neg same]; rfl
    constructor
    · rw [rows]
      exact tallied
    · rw [aim, credits]
      exact Trim.kept_idem _ _ _
    · rw [credits, out]
      exact (Trim.kept_suffix _ _ _).trans logged.within
    · rw [stored, out]
      exact logged.counted

theorem compact (logged : Logged s d) : Logged (s.compact d).1 (s.compact d).2 where
  tallied := logged.tallied
  settled := logged.settled
  within := by simp [Store.compact]
  counted := by simp [Store.compact]

theorem synced (logged : Logged s d) : Logged s.drained (d.synced s) where
  tallied := logged.tallied
  settled := logged.settled
  within := by simpa [Store.drained, Disk.synced] using logged.within
  counted := by simpa [Store.drained, Disk.synced] using logged.counted

theorem flush (logged : Logged s d) : Logged (s.flush d).1 (s.flush d).2 := by
  by_cases wet : s.ledger.dirty = true
  · rw [flush_dirty d wet]
    split
    · exact logged.synced.compact
    · exact logged.synced
  · rw [flush_clean d (by simpa using wet)]
    exact logged

/-- With no row in the file that has left the window, the file is the window. -/
theorem whole (logged : Logged s d) (full : s.rowsOnDisk = s.credits.length) :
    s.credits = d.credits ++ s.creditsOut :=
  logged.within.sublist.eq_of_length (by rw [← full, logged.counted])

end Logged

namespace Rows

/-- No row is dated before an earlier one of its identity. -/
def Forward (credits : List Credit) : Prop := credits.Pairwise fun a b => a.ident = b.ident → a.ts ≤ b.ts

theorem lastOf_le {ident ts : Nat} {credits : List Credit}
    (earlier : ∀ row ∈ credits, row.ident = ident → row.ts ≤ ts) : lastOf ident credits ≤ ts := by
  unfold lastOf
  cases last : (rowsOf ident credits).getLast? with
  | none => exact Nat.zero_le _
  | some row =>
    have member : row ∈ rowsOf ident credits := List.mem_of_getLast? last
    obtain ⟨listed, own⟩ := List.mem_filter.mp member
    exact earlier row listed (of_decide_eq_true own)

/-- Replayed in the order of their dates, rows leave every identity dated by its last one. -/
theorem Dated.replay {r : Rows} (dated : r.Dated) (credits : List Credit)
    (forward : Forward (r.credits ++ credits)) : (credits.foldl pushRaw r).Dated := by
  induction credits generalizing r with
  | nil => exact dated
  | cons c rest ih =>
    have listed : (r.pushRaw c).credits ++ rest = r.credits ++ c :: rest := by simp [pushRaw, Rows.append]
    apply ih (r := r.pushRaw c)
    · refine dated.append ?_ (Nat.zero_max _)
      intro t found
      have earlier : ∀ row ∈ r.credits, row.ident = c.ident → row.ts ≤ c.ts :=
        fun row member => (List.pairwise_append.mp forward).2.2 row member c List.mem_cons_self
      rw [dated c.ident t found]
      exact Nat.max_eq_right (lastOf_le earlier)
    · rw [listed]
      exact forward

/-- Rows that are the same, counted and dated by themselves, have the same sums. -/
theorem lookup_eq {r r' : Rows} (tallied : r.Tallied) (tallied' : r'.Tallied)
    (dated : r.Dated) (dated' : r'.Dated) (same : r'.credits = r.credits) (ident : Nat) :
    r'.totals.lookup ident = r.totals.lookup ident := by
  have counts : r'.totals.tallied ident = r.totals.tallied ident := by
    rw [tallied.each, tallied'.each, same]
  unfold Totals.tallied at counts
  cases found : r.totals.lookup ident with
  | none =>
    rw [found, Option.map_none, Option.map_eq_none_iff] at counts
    exact counts
  | some t =>
    rw [found, Option.map_some, Option.map_eq_some_iff] at counts
    obtain ⟨t', found', equal⟩ := counts
    obtain ⟨work, rows⟩ := Prod.mk.inj equal
    have last : t'.2.2 = t.2.2 := by rw [dated ident t found, dated' ident t' found', same]
    rw [found']
    exact congrArg some (Prod.ext work (Prod.ext rows last))

end Rows

section Reload

variable {s : Store} {d : Disk}

/-- What `open` finds once the writers hold nothing: the same table, and every row of the file. -/
theorem Filed.reload (filed : Filed s d) (out : s.ledger.identsOut = [])
    {m : Meta} (loaded : loadMeta d.window = .ok m) :
    ∃ w s' d', openLedger d = .ok (s', d') ∧ Opened m d s.names w s' d' ∧ usable w d.credits = d.credits := by
  obtain ⟨written, text, grown, m', loaded', named⟩ := filed.lines
  rw [loaded, Except.ok.injEq] at loaded'
  subst loaded'
  rw [out, List.append_nil] at grown
  subst grown
  have whole : Lines.whole d.identities = Lines.text s.names := by
    rw [text]
    simpa [Lines.whole] using Lines.whole_text_append s.names []
  obtain ⟨w, s', d', opens, opened⟩ :=
    openLedger_opened loaded whole filed.clean s.ledger.window.idents.distinct named
  refine ⟨w, s', d', opens, opened, List.filter_eq_self.mpr ?_⟩
  intro row member
  have bound := filed.indexed row (by simp [member])
  rw [← opened.read.names] at bound
  exact decide_eq_true bound

section Opened

variable {m : Meta} {file : List String} {w : Window} {d' : Disk}

theorem Opened.tallied_kept (opened : Opened m d file w s d') (fits : work d.credits ≤ u64Max) :
    s.rows.Tallied ∧ s.credits = Trim.kept Credit.work m.targetWork (usable w d.credits) := by
  have fewer : work (usable w d.credits) ≤ work d.credits :=
    Trim.load_le_of_sublist Credit.work List.filter_sublist
  obtain ⟨tallied, listed⟩ := Rows.tallied_empty.replay (usable w d.credits)
    (by rw [work_nil, Nat.zero_add]; exact fewer.trans fits)
  obtain ⟨tallied', listed'⟩ := tallied.setTarget m.targetWork
  rw [listed, List.nil_append] at listed'
  exact ⟨by rw [opened.loaded.rows]; exact tallied', (congrArg Rows.credits opened.loaded.rows).trans listed'⟩

theorem Opened.targetWork (opened : Opened m d file w s d') : s.targetWork = m.targetWork :=
  (congrArg Rows.targetWork opened.loaded.rows).trans (Rows.targetWork_setTarget _ _)

/-- What `open` replays is counted and trimmed, and the newest of the file. -/
theorem Opened.logged (opened : Opened m d file w s d') (fits : work d.credits ≤ u64Max) : Logged s d' := by
  obtain ⟨tallied, credits⟩ := opened.tallied_kept fits
  constructor
  · exact tallied
  · rw [opened.targetWork, credits]
    exact Trim.kept_idem _ _ _
  · rw [opened.loaded.creditsOut, List.append_nil]
    rcases opened.credits with ⟨same, all⟩ | rewritten
    · rw [same, ← all]
      exact opened.loaded.credits_suffix
    · rw [rewritten]
  · rw [opened.loaded.creditsOut, List.append_nil]
    exact opened.counted

end Opened

end Reload

/-- The window a restart finds is the one the ledger had: rows, work and the totals of every identity. -/
structure Store.SameRows (s s' : Store) : Prop where
  names : s'.names = s.names
  credits : s'.credits = s.credits
  totalWork : s'.totalWork = s.totalWork
  totals : ∀ ident, s'.window.totals.lookup ident = s.window.totals.lookup ident

/-- The steps of a run that only credits work, moves the target and flushes. -/
def StoreOp.OnRows : StoreOp → Prop
  | credit .. => True
  | setTarget _ => True
  | flush => True
  | _ => False

/-- A credit that the file can carry, and a target that asks for no row that has left the window while it
is still in the file: the file holds none, or so many that the next flush rewrites it, or the window
covers the new target without them. -/
def StoreOp.Replayable (s : Store) (d : Disk) : StoreOp → Prop
  | credit identity work _ ts _ =>
    Lines.Clean identity ∧ Tides.work (d.credits ++ s.creditsOut) + work ≤ u64Max ∧
      ∀ row ∈ d.credits ++ s.creditsOut, s.owner row = some identity → row.ts ≤ ts
  | setTarget target =>
    s.rowsOnDisk = s.credits.length ∨ s.credits.length + 8192 < s.rowsOnDisk ∨ target ≠ 0 ∧ target ≤ s.totalWork
  | flush => True
  | _ => False

/-- The target keeps of the file just the rows of the window, or the next flush rewrites the file. -/
structure Replays (s : Store) (d : Disk) : Prop extends Filed s d, Logged s d where
  dated : s.rows.Dated
  fits : work (d.credits ++ s.creditsOut) ≤ u64Max
  forward : Rows.Forward (d.credits ++ s.creditsOut)
  kept : Trim.kept Credit.work s.targetWork (d.credits ++ s.creditsOut) = s.credits ∨
    s.ledger.dirty = true ∧ s.credits.length + 8192 < s.rowsOnDisk
  saved : s.ledger.dirty = false → ∃ m, loadMeta d.window = .ok m ∧ m.targetWork = s.targetWork

namespace Replays

variable {s : Store} {d : Disk}

theorem fresh (opens : openLedger {} = .ok (s, d)) : Replays s d := by
  have filed := Filed.fresh opens
  rw [open_unused] at opens
  cases opens
  have rows : unused.rows = {} := rfl
  have none : unused.credits = [] := rfl
  have file : ({} : Disk).credits ++ unused.creditsOut = [] := rfl
  have empty : Trim.kept Credit.work unused.targetWork [] = [] := Trim.kept_nil _ _
  have logged : Logged unused {} := by
    refine ⟨by rw [rows]; exact Rows.tallied_empty, ?_, ?_, rfl⟩
    · rw [none, empty]
    · rw [none]
      exact List.nil_suffix
  refine ⟨filed, logged, by rw [rows]; exact Rows.dated_empty, Nat.zero_le _,
    .nil, .inl ?_, fun _ => ⟨{}, rfl, rfl⟩⟩
  rw [file, empty, none]

theorem credit (replays : Replays s d) {identity : String} {work height ts : Nat} {source : UInt8}
    (ready : (StoreOp.credit identity work height ts source).Replayable s d) :
    Replays (s.credit identity work height ts source) d := by
  obtain ⟨clean, fits, latest⟩ := ready
  have shorter : Tides.work s.credits ≤ Tides.work (d.credits ++ s.creditsOut) :=
    Trim.load_le_of_sublist Credit.work replays.within.sublist
  have filed := replays.toFiled.credit clean work height ts source
  have logged := replays.toLogged.credit identity height ts source (by omega : _ + work ≤ u64Max)
  generalize shape : Store.rowFor (s.window.intern identity) identity work height ts source = row
  have weight : row.work = work := by rw [← shape]; rfl
  have date : row.ts = ts := by rw [← shape]; rfl
  have rows := rows_credit s identity work height ts source
  have out := creditsOut_credit s identity work height ts source
  have seated := Filed.owner_rowFor s.window identity work height ts source
  rw [shape] at rows out seated
  have file : d.credits ++ (s.credit identity work height ts source).creditsOut =
      d.credits ++ s.creditsOut ++ [row] := by rw [out, List.append_assoc]
  have counted : Tides.work s.credits + row.work ≤ u64Max := by omega
  have credits : (s.credit identity work height ts source).credits =
      Trim.kept Credit.work s.targetWork (s.credits ++ [row]) :=
    (congrArg Rows.credits rows).trans (replays.tallied.creditRow row counted).2
  have target : (s.credit identity work height ts source).targetWork = s.targetWork :=
    (congrArg Rows.targetWork rows).trans (Rows.targetWork_creditRow s.rows row)
  refine ⟨filed, logged, ?_, ?_, ?_, ?_, fun dry => by cases dry⟩
  · rw [rows]
    have appended := replays.tallied.append (fun _ ts => ts) row counted
    exact (replays.dated.append (fun _ _ => rfl) rfl).trim appended
  · rw [file, work_append, work_cons, work_nil, weight]
    exact fits
  · rw [file]
    refine List.pairwise_append.mpr ⟨replays.forward, List.pairwise_singleton _ _, ?_⟩
    intro earlier member last own same
    rw [List.mem_singleton.mp own] at same ⊢
    rw [date]
    apply latest earlier member
    -- The table only grows, so an index it already had names whom it named.
    have bound : earlier.ident < s.window.idents.names.length :=
      replays.indexed earlier (List.mem_append_left _ member)
    have named : (s.window.idents.intern identity).names[earlier.ident]? = some identity := same ▸ seated
    rw [Window.names_intern, List.getElem?_append_left bound] at named
    exact named
  · rw [file, target, credits]
    rcases replays.kept with kept | ⟨_, rewrites⟩
    · refine .inl ?_
      rw [← kept, Trim.kept_append]
    · refine .inr ⟨rfl, ?_⟩
      have fewer := (Trim.kept_suffix Credit.work s.targetWork (s.credits ++ [row])).length_le
      rw [List.length_append, List.length_singleton] at fewer
      show _ < s.rowsOnDisk + 1
      omega

theorem setTarget (replays : Replays s d) {target : Nat} (ready : (StoreOp.setTarget target).Replayable s d) :
    Replays (s.setTarget target) d := by
  have filed := replays.toFiled.setTarget target
  have logged := replays.toLogged.setTarget target
  by_cases same : s.targetWork = target
  · rw [Store.setTarget, if_pos same]
    exact replays
  · have rows := rows_setTarget same
    have credits : (s.setTarget target).credits = Trim.kept Credit.work target s.credits :=
      (congrArg Rows.credits rows).trans (replays.tallied.setTarget target).2
    have aim : (s.setTarget target).targetWork = target :=
      (congrArg Rows.targetWork rows).trans (Rows.targetWork_setTarget s.rows target)
    have next : s.setTarget target =
        (s.withRows (s.rows.setTarget target)).onLedger fun l => { l with dirty := true } := by
      rw [Store.setTarget, if_neg same]
    have out : (s.setTarget target).creditsOut = s.creditsOut := by rw [next]; rfl
    refine ⟨filed, logged, ?_, ?_, ?_, ?_, fun dry => ?_⟩
    · rw [rows]
      exact Rows.Dated.trim (r := { s.rows with targetWork := target }) replays.dated
        ⟨replays.tallied.total, replays.tallied.each⟩
    · rw [out]
      exact replays.fits
    · rw [out]
      exact replays.forward
    · rw [out, aim, credits]
      rcases ready with full | rewrites | ⟨some, covered⟩
      · exact .inl (by rw [← replays.whole full])
      · refine .inr ⟨by rw [next]; rfl, ?_⟩
        have fewer := (Trim.kept_suffix Credit.work target s.credits).length_le
        have stored : (s.setTarget target).rowsOnDisk = s.rowsOnDisk := by rw [next]; rfl
        rw [stored]
        omega
      · refine .inl ?_
        obtain ⟨earlier, file⟩ := replays.within
        have total : s.totalWork = Trim.load Credit.work s.credits := replays.tallied.total
        rw [← file, Trim.kept_of_covered Credit.work some earlier s.credits (by rw [← total]; exact covered)]
    · rw [next] at dry
      cases dry

theorem flush (replays : Replays s d) : Replays (s.flush d).1 (s.flush d).2 := by
  have filed := replays.toFiled.flush
  have logged := replays.toLogged.flush
  by_cases wet : s.ledger.dirty = true
  · rw [flush_dirty d wet] at filed logged ⊢
    split
    · rename_i rewrites
      rw [if_pos rewrites] at filed logged
      refine ⟨filed, logged, replays.dated, ?_, ?_, .inl ?_, fun _ => ⟨s.toMeta, loadMeta_writeAtomic _ _, rfl⟩⟩
      · simp only [Store.compact, Store.drained, List.append_nil]
        exact Nat.le_trans (Trim.load_le_of_sublist Credit.work replays.within.sublist) replays.fits
      · simp only [Store.compact, Store.drained, List.append_nil]
        exact replays.forward.sublist replays.within.sublist
      · simp only [Store.compact, Store.drained, List.append_nil]
        exact replays.settled
    · rename_i stays
      rw [if_neg stays] at filed logged
      have file : (d.synced s).credits ++ s.drained.creditsOut = d.credits ++ s.creditsOut := List.append_nil _
      refine ⟨filed, logged, replays.dated, ?_, ?_, .inl ?_, fun _ => ⟨s.toMeta, loadMeta_writeAtomic _ _, rfl⟩⟩
      · rw [file]
        exact replays.fits
      · rw [file]
        exact replays.forward
      · rw [file]
        rcases replays.kept with kept | ⟨_, rewrites⟩
        · exact kept
        · exact absurd rewrites stays
  · rw [flush_clean d (by simpa using wet)]
    exact replays

theorem step (replays : Replays s d) {op : StoreOp} (ready : op.Replayable s d) {s' : Store} {d' : Disk}
    (took : op.step s d = .ok (s', d')) : Replays s' d' := by
  cases op with
  | credit identity work height ts source =>
    cases took
    exact replays.credit ready
  | setTarget target =>
    cases took
    exact replays.setTarget ready
  | flush =>
    have here := Except.ok.inj took
    rw [show s' = (s.flush d).1 by rw [here], show d' = (s.flush d).2 by rw [here]]
    exact replays.flush
  | money _ => exact absurd ready id
  | importJsonCredits _ => exact absurd ready id
  | persistWindow => exact absurd ready id
  | reopen _ _ => exact absurd ready id

theorem of_reached (reached : Reached StoreOp.Replayable s d) : Replays s d :=
  reached.invariant (fun _ _ => fresh) fun _ _ _ _ _ replays ready took => replays.step ready took

/-- Once flushed, the file gives back the window. -/
theorem reload (replays : Replays s d) (dry : s.ledger.dirty = false) :
    ∃ s' d', openLedger d = .ok (s', d') ∧ s.SameRows s' := by
  obtain ⟨out, gone⟩ := replays.flushed dry
  obtain ⟨m, loaded, target⟩ := replays.saved dry
  obtain ⟨w, s', d', opens, opened, all⟩ := replays.toFiled.reload out loaded
  have fits := replays.fits
  have kept := replays.kept.resolve_right fun wet => by rw [dry] at wet; cases wet.1
  have forward := replays.forward
  rw [gone, List.append_nil] at fits kept forward
  obtain ⟨tallied, listed⟩ := opened.tallied_kept fits
  rw [all, target, kept] at listed
  have counted := (Rows.tallied_empty.replay d.credits (by simpa using fits)).1
  have dated : (d.credits.foldl Rows.pushRaw {}).Dated :=
    Rows.dated_empty.replay d.credits (by simpa using forward)
  have dated' : s'.rows.Dated := by
    rw [opened.loaded.rows, all]
    exact Rows.Dated.trim (r := { d.credits.foldl Rows.pushRaw {} with targetWork := m.targetWork }) dated
      ⟨counted.total, counted.each⟩
  refine ⟨s', d', opens, opened.names, listed, ?_,
    Rows.lookup_eq replays.tallied tallied replays.dated dated' listed⟩
  have here : s.totalWork = work s.credits := replays.tallied.total
  have there : s'.totalWork = work s'.credits := tallied.total
  rw [there, here, listed]

end Replays

/-- Replaying the row file reproduces the live window, as long as the target is never raised over rows
that have left the window and are still in the file. -/
theorem replay_reproduces {s : Store} {d : Disk} (reached : Reached StoreOp.Replayable s d) :
    ∃ s' d', openLedger (s.flush d).2 = .ok (s', d') ∧ (s.flush d).1.SameRows s' :=
  have flushed := (Replays.of_reached reached).flush
  flushed.reload (flush_clear (Replays.of_reached reached).toFiled).1

/-- Two rows under a target that keeps one of them. -/
def narrowed : Store :=
  ((unused.setTarget 10).credit "alice" 10 1 1 sourceDatum).credit "alice" 10 1 2 sourceDatum

private theorem narrowed_reached {allowed : Store → Disk → StoreOp → Prop}
    (aim : allowed unused {} (.setTarget 10))
    (one : allowed (unused.setTarget 10) {} (.credit "alice" 10 1 1 sourceDatum))
    (two : allowed ((unused.setTarget 10).credit "alice" 10 1 1 sourceDatum)
      {} (.credit "alice" 10 1 2 sourceDatum)) :
    Reached allowed narrowed {} := by
  have aimed : Reached allowed (unused.setTarget 10) {} := .next (.setTarget 10) (.opened open_unused) aim rfl
  have credited : Reached allowed ((unused.setTarget 10).credit "alice" 10 1 1 sourceDatum) {} :=
    .next (.credit "alice" 10 1 1 sourceDatum) aimed one rfl
  exact .next (.credit "alice" 10 1 2 sourceDatum) credited two rfl

theorem replay_reproduces_narrowed :
    (narrowed.credits.length, narrowed.rowsOnDisk) = (1, 2) ∧
      ∃ s' d', openLedger (narrowed.flush {}).2 = .ok (s', d') ∧ (narrowed.flush {}).1.SameRows s' := by
  refine ⟨by decide, replay_reproduces (narrowed_reached (.inl (by decide)) ?_ ?_)⟩
  · exact ⟨by decide, by decide, by decide⟩
  · exact ⟨by decide, by decide, by decide⟩

/-- The difficulty rises: the row that had left the window is still in the file, and a restart puts it
back. -/
theorem replay_widens :
    Reached (fun _ _ op => op.OnRows) (narrowed.setTarget 100) {} ∧
      ((narrowed.setTarget 100).flush {}).1.credits.map Credit.ts = [2] ∧
      ((narrowed.setTarget 100).flush {}).1.totalWork = 10 ∧
      ((openLedger ((narrowed.setTarget 100).flush {}).2).toOption.map fun opened =>
        (opened.1.credits.map Credit.ts, opened.1.totalWork)) = some ([1, 2], 20) := by
  refine ⟨.next (.setTarget 100) (narrowed_reached trivial trivial trivial) trivial rfl, ?_, ?_, ?_⟩
  all_goals decide

end Lazarus.Tides
