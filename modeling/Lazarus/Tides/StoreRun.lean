import Lazarus.Tides.Interning

/-! Runs of the durable ledger: every operation on the balances and on the rows, flushes, and restarts
that lose whatever the writers had not yet put in the files. -/

namespace Lazarus.Tides

open Machine Interner

/-- Date a balance whose identity is known. -/
def Ledger.setLastSeen (l : Ledger) (identity : String) (ts : Nat) : Ledger :=
  if (l.window.idents.position identity).isSome then
    { l with window := l.window.setLastSeen identity ts, dirty := true }
  else l

/-- The operations that leave the rows alone. -/
inductive MoneyOp where
  | move (m : Move)
  | setCarry (identity : String) (sats : Nat)
  | settleRebate (delta : Int)
  | setRebateOwed (sats : Nat)
  | noteDebitApplied (hash : String)
  | adoptLegacyDebits (blocks : List BlockRecord)
  | reconcileDebits (blocks : List BlockRecord)
  | setLastSeen (identity : String) (ts : Nat)

def MoneyOp.apply (op : MoneyOp) (l : Ledger) : Ledger :=
  match op with
  | move m => l.move m
  | setCarry identity sats => l.setCarry identity sats
  | settleRebate delta => (l.settleRebate delta).1
  | setRebateOwed sats => l.setRebateOwed sats
  | noteDebitApplied hash => l.noteDebitApplied hash
  | adoptLegacyDebits blocks => l.adoptLegacyDebits blocks
  | reconcileDebits blocks => l.reconcileDebits blocks
  | setLastSeen identity ts => l.setLastSeen identity ts

section Named

/-- Identities that an operation writes a line for must be readable from one, and identities that it
interns without writing must be in the table already. -/
def Move.Named (l : Ledger) : Move → Prop
  | .bookDebits carryDelta books =>
    books.debitsLive = false → ∀ entry ∈ carryDelta, entry.2 < 0 → l.window.Knows entry.1
  | .bookCredits carryDelta books =>
    books.creditsLive = false → ∀ entry ∈ carryDelta, 0 < entry.2 → Lines.Clean entry.1
  | .unbook books =>
    (books.creditsLive = true → ∀ entry ∈ books.credited ++ books.debtPaid, l.window.Knows entry.1) ∧
      (books.debitsLive = true → ∀ entry ∈ books.debited ++ books.shortfall, l.window.Knows entry.1)
  | .settleCarry delta => ∀ entry ∈ delta, entry.2 ≠ 0 → Lines.Clean entry.1
  | .holdCarry .. => True
  | .releaseHold _ => True
  | .finishHold _ => True

def MoneyOp.Named (l : Ledger) : MoneyOp → Prop
  | move m => m.Named l
  | setCarry identity _ => Lines.Clean identity
  | reconcileDebits blocks =>
    ∀ b ∈ blocks, ∀ books, b.books = some books → books.debitsLive = true → b.hash ∉ l.appliedDebits →
      ∀ entry ∈ books.debited ++ books.shortfall, l.window.Knows entry.1
  | settleRebate _ => True
  | setRebateOwed _ => True
  | noteDebitApplied _ => True
  | adoptLegacyDebits _ => True
  | setLastSeen _ _ => True

/-- An operation changed nothing, or the next flush will write. -/
def Ledger.Touched (l l' : Ledger) : Prop := l' = l ∨ l'.dirty = true

end Named

section Moves

variable {l : Ledger}

private theorem steady_bookDebit {state : Window × Books} {entry : String × Int} (below : entry.2 < 0)
    (known : state.1.Knows entry.1) : state.1.Steady (bookDebit state entry).1 := by
  obtain ⟨w, books⟩ := state
  rw [bookDebit_eq w books below]
  have adjusted := Window.Steady.adjustCarry known entry.2
  have drawn := adjusted.trans (.drawFromHolds _ entry.1 (entry.2.natAbs - w.carryOf entry.1))
  exact drawn.trans (.accrueDebt (drawn.knows known) _)

private theorem bookDebits_lined {carryDelta : List (String × Int)} {books : Books}
    (named : (Move.bookDebits carryDelta books).Named l) :
    l.Lined (l.bookDebits carryDelta books).1 ∧ l.Touched (l.bookDebits carryDelta books).1 := by
  unfold Ledger.bookDebits
  by_cases live : books.debitsLive = true
  · rw [if_pos live]
    exact ⟨.refl l, .inl rfl⟩
  · rw [if_neg live]
    refine ⟨.of_steady ?_ rfl, .inr rfl⟩
    have booked : l.window.Steady ((carryDelta.filter fun entry => entry.2 < 0).foldl bookDebit
        (l.window, { books with debited := [], shortfall := [] })).1 := by
      apply Window.Steady.foldl Prod.fst bookDebit ?_ (.refl l.window)
      intro state entry member steady
      obtain ⟨listed, below⟩ := List.mem_filter.mp member
      have negative : entry.2 < 0 := by simpa using below
      exact steady_bookDebit negative (steady.knows (named (by simpa using live) entry listed negative))
    exact booked.trans (.adjustRebateOwed _ _)

private theorem bookCredit_lined {state : Ledger × Books} {entry : String × Int} (above : 0 < entry.2)
    (clean : Lines.Clean entry.1) : state.1.Lined (bookCredit state entry).1 := by
  have interns : state.1.window.Interns entry.1 (bookCredit state entry).1.window := by
    rw [bookCredit_window]
    exact .restoreCarry _ _ (by omega)
  exact .of_interns interns rfl clean

private theorem bookCredits_lined {carryDelta : List (String × Int)} {books : Books}
    (named : (Move.bookCredits carryDelta books).Named l) :
    l.Lined (l.bookCredits carryDelta books).1 ∧ l.Touched (l.bookCredits carryDelta books).1 := by
  unfold Ledger.bookCredits
  by_cases live : books.creditsLive = true
  · rw [if_pos live]
    exact ⟨.refl l, .inl rfl⟩
  · rw [if_neg live]
    refine ⟨?_, .inr rfl⟩
    have each (state : Ledger × Books) (entry : String × Int)
        (member : entry ∈ carryDelta.filter fun entry => 0 < entry.2) :
        state.1.Lined (bookCredit state entry).1 := by
      obtain ⟨listed, above⟩ := List.mem_filter.mp member
      have positive : 0 < entry.2 := by simpa using above
      exact bookCredit_lined positive (named (by simpa using live) entry listed positive)
    have booked :=
      Ledger.Lined.foldl Prod.fst bookCredit each (l, { books with credited := [], debtPaid := [] })
    exact booked.trans (.of_steady (.adjustRebateOwed _ _) rfl)

private theorem steady_takeBackCredits {w : Window} {books : Books}
    (known : books.creditsLive = true → ∀ entry ∈ books.credited ++ books.debtPaid, w.Knows entry.1) :
    w.Steady (takeBackCredits w books).1 := by
  unfold takeBackCredits
  by_cases live : books.creditsLive = true
  · rw [if_pos live]
    have taken : w.Steady (books.credited.foldl unbookCredit (w, 0)).1 := by
      apply Window.Steady.foldl Prod.fst unbookCredit ?_ (.refl w)
      intro state entry member steady
      exact .adjustCarry (steady.knows (known live entry (by simp [member]))) _
    have restored : w.Steady (books.debtPaid.foldl (fun window entry => window.restoreDebt entry.1 entry.2)
        (books.credited.foldl unbookCredit (w, 0)).1) := by
      apply Window.Steady.foldl id _ ?_ taken
      intro window entry member steady
      exact .restoreDebt (steady.knows (known live entry (by simp [member]))) _
    exact restored.trans (.adjustRebateOwed _ _)
  · rw [if_neg live]
    exact .refl w

private theorem steady_giveBackDebits {w : Window} {books : Books}
    (known : books.debitsLive = true → ∀ entry ∈ books.debited ++ books.shortfall, w.Knows entry.1) :
    w.Steady (giveBackDebits w books).1 := by
  unfold giveBackDebits
  by_cases live : books.debitsLive = true
  · rw [if_pos live]
    have restored :
        w.Steady (books.debited.foldl (fun window entry => (window.restoreCarry entry.1 entry.2).1) w) := by
      apply Window.Steady.foldl id _ ?_ (.refl w)
      intro window entry member steady
      exact .restoreCarry (steady.knows (known live entry (by simp [member]))) _
    have forgiven : w.Steady (books.shortfall.foldl (fun window entry => window.forgiveDebt entry.1 entry.2)
        (books.debited.foldl (fun window entry => (window.restoreCarry entry.1 entry.2).1) w)) := by
      apply Window.Steady.foldl id _ ?_ restored
      intro window entry member steady
      exact .forgiveDebt (steady.knows (known live entry (by simp [member]))) _
    exact forgiven.trans (.adjustRebateOwed _ _)
  · rw [if_neg live]
    exact .refl w

private theorem unbook_lined {books : Books} (named : (Move.unbook books).Named l) :
    l.Lined (l.unbook books).1 ∧ l.Touched (l.unbook books).1 := by
  obtain ⟨credits, debits⟩ := named
  have taken := steady_takeBackCredits credits
  have given : (takeBackCredits l.window books).1.Steady
      (giveBackDebits (takeBackCredits l.window books).1 (takeBackCredits l.window books).2.1).1 := by
    apply steady_giveBackDebits
    intro live entry member
    rw [takeBackCredits_debitsLive] at live
    rw [takeBackCredits_debited, takeBackCredits_shortfall] at member
    exact taken.knows (debits live entry member)
  exact ⟨.of_steady (taken.trans given) rfl, .inr rfl⟩

private theorem settleEntry_lined {state : Ledger × List (String × Nat)} {entry : String × Int}
    (clean : entry.2 ≠ 0 → Lines.Clean entry.1) : state.1.Lined (settleEntry state entry).1 := by
  obtain ⟨l, out⟩ := state
  simp only [settleEntry]
  by_cases nothing : entry.2 = 0
  · rw [if_pos nothing]
    exact .refl l
  · rw [if_neg nothing]
    refine .of_interns ?_ rfl (clean nothing)
    simp only
    by_cases above : 0 < entry.2
    · rw [if_pos above]
      exact .restoreCarry _ _ (by omega)
    · rw [if_neg above]
      exact .adjustCarry _ _ _

private theorem settleCarry_lined {delta : List (String × Int)} (named : (Move.settleCarry delta).Named l) :
    l.Lined (l.settleCarry delta).1 ∧ l.Touched (l.settleCarry delta).1 := by
  constructor
  · have each (state : Ledger × List (String × Nat)) (entry : String × Int) (member : entry ∈ delta) :
        state.1.Lined (settleEntry state entry).1 := settleEntry_lined (named entry member)
    exact Ledger.Lined.foldl Prod.fst settleEntry each (l, [])
  · apply Run.foldl_kept settleEntry (fun state => l.Touched state.1) ?_ delta (.inl rfl)
    rintro ⟨ledger, out⟩ entry before
    simp only [settleEntry]
    by_cases nothing : entry.2 = 0
    · rw [if_pos nothing]
      exact before
    · rw [if_neg nothing]
      exact .inr rfl

end Moves

section Holds

variable {l : Ledger}

private theorem knows_stale {w : Window} {balance : StaleCarry}
    (member : balance ∈ w.staleCarries now after least) : w.Knows balance.identity := by
  obtain ⟨entry, _, found⟩ := List.mem_filterMap.mp (List.mem_insertionSort _ |>.mp member)
  simp only at found
  split at found
  · obtain ⟨identity, named, rfl⟩ := Option.map_eq_some_iff.mp found
    exact List.mem_of_getElem? named
  · cases found

/-- What setting entries aside leaves: only known identities are taken, and taking none changes
nothing. -/
theorem holdEntries_steady {w : Window} {stale : List StaleCarry}
    (known : ∀ balance ∈ stale, w.Knows balance.identity) (entries : List (String × Nat)) :
    let left := entries.foldl (holdEntry stale) (w, [], [])
    w.Steady left.1 ∧ (∀ taken ∈ left.2.1, w.Knows taken.1) ∧ (left.2.1 = [] → left.1 = w) := by
  apply Run.foldl_kept (holdEntry stale) (fun state : Window × List (String × Nat) × List HoldSkip =>
    w.Steady state.1 ∧ (∀ taken ∈ state.2.1, w.Knows taken.1) ∧ (state.2.1 = [] → state.1 = w)) ?_ entries
    ⟨.refl w, by simp, fun _ => rfl⟩
  rintro ⟨window, held, skipped⟩ entry ⟨steady, taken, untouched⟩
  rcases holdEntry_cases stale window held skipped
    entry with ⟨skip, _, same⟩ | ⟨_, _, ⟨balance, listed, named, _⟩, took⟩
  · rw [same]
    exact ⟨steady, taken, untouched⟩
  · have here : w.Knows entry.1 := named ▸ known balance listed
    rw [took]
    refine ⟨steady.trans (.adjustCarry (steady.knows here) _), ?_, by simp⟩
    intro other member
    rcases List.mem_append.mp member with earlier | last
    · exact taken other earlier
    · rw [List.mem_singleton.mp last]
      exact here

private theorem holdCarry_lined (batch : String) (entries : List (String × Nat))
    (now after least tipHeight readyHeight : Nat) :
    let next := l.move (.holdCarry batch entries now after least tipHeight readyHeight)
    l.Lined next ∧ l.Touched next := by
  simp only [Ledger.move, Ledger.holdCarry]
  by_cases used : (l.window.holds.lookup batch).isSome
  · rw [if_pos used]
    exact ⟨.refl l, .inl rfl⟩
  · rw [if_neg used]
    have stale : ∀ balance ∈ l.window.staleCarries now after least, l.window.Knows balance.identity :=
      fun balance member => knows_stale member
    obtain ⟨steady, known, untouched⟩ := holdEntries_steady stale entries
    by_cases none :
      (entries.foldl (holdEntry (l.window.staleCarries now after least)) (l.window, [], [])).2.1 = []
    · simp only [none, if_true, untouched none]
      exact ⟨.refl l, .inl rfl⟩
    · simp only [none, if_false]
      refine ⟨⟨⟨[], ?_, ?_, by simp⟩, steady.totals, ?_⟩, .inr rfl⟩
      · rw [List.append_nil]
        exact congrArg Interner.names steady.idents
      · rw [List.append_nil]
      · intro sound
        have kept := steady.sound sound
        refine ⟨?_, kept.bounded⟩
        intro other hold found entry member
        by_cases same : other = batch
        · subst same
          rw [AList.lookup_insert, Option.some.injEq] at found
          subst found
          exact steady.knows (known entry member)
        · rw [AList.lookup_insert_ne same] at found
          exact kept.held other hold found entry member

private theorem steady_erase (w : Window) (batch : String) : w.Steady
    { w with holds := w.holds.erase batch } := by
  refine ⟨rfl, rfl, fun sound => ⟨?_, sound.bounded⟩⟩
  intro other hold found
  by_cases same : other = batch
  · subst same
    simp at found
  · simp only [AList.lookup_erase_ne same] at found
    exact sound.held other hold found

private theorem releaseHold_lined (sound : l.window.Sound) (batch : String) :
    l.Lined (l.move (.releaseHold batch)) ∧ l.Touched (l.move (.releaseHold batch)) := by
  simp only [Ledger.move, Ledger.releaseHold]
  cases found : l.window.holds.lookup batch with
  | none => exact ⟨.refl l, .inl rfl⟩
  | some hold =>
    refine ⟨.of_steady ?_ rfl, .inr rfl⟩
    apply Window.Steady.foldl id _ ?_ (steady_erase l.window batch)
    intro window entry member steady
    exact .restoreCarry (steady.knows (sound.held batch hold found entry member)) _

private theorem finishHold_lined (batch : String) :
    l.Lined (l.move (.finishHold batch)) ∧ l.Touched (l.move (.finishHold batch)) := by
  simp only [Ledger.move, Ledger.finishHold]
  cases l.window.holds.lookup batch with
  | none => exact ⟨.refl l, .inl rfl⟩
  | some hold => exact ⟨.of_steady (steady_erase l.window batch) rfl, .inr rfl⟩

end Holds

/-- Every operation writes a line for each identity it brings in, as long as those it does not write
for are known. -/
theorem move_lined {l : Ledger} (sound : l.window.Sound) {m : Move} (named : m.Named l) :
    l.Lined (l.move m) ∧ l.Touched (l.move m) := by
  cases m with
  | bookDebits carryDelta books => exact bookDebits_lined named
  | bookCredits carryDelta books => exact bookCredits_lined named
  | unbook books => exact unbook_lined named
  | settleCarry delta => exact settleCarry_lined named
  | holdCarry batch entries now after least tipHeight readyHeight =>
    exact holdCarry_lined batch entries now after least tipHeight readyHeight
  | releaseHold batch => exact releaseHold_lined sound batch
  | finishHold batch => exact finishHold_lined batch

section Money

variable {l : Ledger}

private theorem reapplyDebits_steady (hash : String) {books : Books}
    (known : ∀ entry ∈ books.debited ++ books.shortfall, l.window.Knows entry.1) :
    l.window.Steady (l.reapplyDebits hash books).window := by
  have debited : l.window.Steady
      (books.debited.foldl (fun w entry => (w.adjustCarry entry.1 (-clampI64 entry.2)).1) l.window) := by
    apply Window.Steady.foldl id _ ?_ (.refl l.window)
    intro w entry member steady
    exact .adjustCarry (steady.knows (known entry (by simp [member]))) _
  have rebated := debited.trans (.adjustRebateOwed _ (-clampI64 books.rebateDebited))
  apply Window.Steady.foldl id _ ?_ rebated
  intro w entry member steady
  exact .accrueDebt (steady.knows (known entry (by simp [member]))) _

private theorem reconcileDebits_lined {blocks : List BlockRecord}
    (named : (MoneyOp.reconcileDebits blocks).Named l) :
    l.Lined (l.reconcileDebits blocks) ∧ l.Touched (l.reconcileDebits blocks) := by
  unfold Ledger.reconcileDebits
  split
  · -- The marks only grow, so a block passed over at the start is passed over throughout.
    have kept : l.window.Steady (blocks.foldl Ledger.reconcileDebit l).window ∧
        (blocks.foldl Ledger.reconcileDebit l).identsOut = l.identsOut ∧
        l.appliedDebits ⊆ (blocks.foldl Ledger.reconcileDebit l).appliedDebits ∧
        l.Touched (blocks.foldl Ledger.reconcileDebit l) := by
      apply Run.foldl_mem Ledger.reconcileDebit (fun s : Ledger => l.window.Steady s.window ∧
        s.identsOut = l.identsOut ∧ l.appliedDebits ⊆ s.appliedDebits ∧ l.Touched s) ?_
        ⟨.refl l.window, rfl, subset_rfl, .inl rfl⟩
      rintro s b member ⟨steady, out, marks, touched⟩
      unfold Ledger.reconcileDebit
      split
      · exact ⟨steady, out, marks, touched⟩
      · rename_i books recorded
        split
        · exact ⟨steady, out, marks, touched⟩
        · rename_i due
          simp only [Bool.or_eq_true, Bool.not_eq_true', decide_eq_true_eq, not_or, Bool.not_eq_false] at due
          have known := named b member books recorded due.1 fun marked => due.2 (marks marked)
          have reapplied := reapplyDebits_steady b.hash fun entry listed => steady.knows (known entry listed)
          exact ⟨steady.trans reapplied, out, marks.trans (Finset.subset_insert _ _), .inr rfl⟩
    exact ⟨.of_steady kept.1 kept.2.1, kept.2.2.2⟩
  · exact ⟨.refl l, .inl rfl⟩

theorem Window.Steady.noteSeen (w : Window) (ident ts : Nat) : w.Steady (w.noteSeen ident ts) :=
  ⟨rfl, rfl, fun sound => ⟨sound.held, sound.bounded⟩⟩

private theorem setLastSeen_lined (identity : String) (ts : Nat) :
    l.Lined (l.setLastSeen identity ts) ∧ l.Touched (l.setLastSeen identity ts) := by
  unfold Ledger.setLastSeen
  split
  · rename_i found
    refine ⟨.of_steady ?_ rfl, .inr rfl⟩
    unfold Window.setLastSeen
    rw [Window.intern_known (Window.knows_iff.mpr found)]
    simp only
    split
    · exact .refl _
    · exact .noteSeen _ _ _
  · exact ⟨.refl l, .inl rfl⟩

theorem MoneyOp.lined (sound : l.window.Sound) {op : MoneyOp} (named : op.Named l) :
    l.Lined (op.apply l) ∧ l.Touched (op.apply l) := by
  cases op with
  | move m => exact move_lined sound named
  | setCarry identity sats => exact ⟨.of_interns (.setCarry _ _ _) rfl named, .inr rfl⟩
  | settleRebate delta =>
    simp only [MoneyOp.apply, Ledger.settleRebate]
    split
    · exact ⟨.refl l, .inl rfl⟩
    · exact ⟨.of_steady (.adjustRebateOwed _ _) rfl, .inr rfl⟩
  | setRebateOwed sats =>
    exact ⟨.of_steady ⟨rfl, rfl, fun sound => ⟨sound.held, sound.bounded⟩⟩ rfl, .inr rfl⟩
  | noteDebitApplied hash =>
    simp only [MoneyOp.apply, Ledger.noteDebitApplied]
    split
    · exact ⟨.of_steady (.refl _) rfl, .inr rfl⟩
    · exact ⟨.refl l, .inl rfl⟩
  | adoptLegacyDebits blocks =>
    simp only [MoneyOp.apply, Ledger.adoptLegacyDebits]
    split
    · exact ⟨.refl l, .inl rfl⟩
    · exact ⟨.of_steady (.refl _) rfl, .inr rfl⟩
  | reconcileDebits blocks => exact reconcileDebits_lined named
  | setLastSeen identity ts => exact setLastSeen_lined identity ts

end Money

section Run

/-- What happens to the ledger and its files. A restart finds what had reached the files, with the first
`chars` characters and `rows` rows of what the writers still held. -/
inductive StoreOp where
  | money (op : MoneyOp)
  | credit (identity : String) (work height ts : Nat) (source : UInt8)
  | setTarget (targetWork : Nat)
  | importJsonCredits (doc : List Store.ImportRow)
  | flush
  | persistWindow
  | reopen (chars rows : Nat)

/-- The directory a process leaves that stops without a flush. -/
def Disk.spilled (d : Disk) (s : Store) (chars rows : Nat) : Disk :=
  { d with
    identities := d.identities ++ (Lines.text s.ledger.identsOut).take chars
    credits := d.credits ++ s.creditsOut.take rows }

def StoreOp.step (s : Store) (d : Disk) : StoreOp → Except String (Store × Disk)
  | money op => .ok (s.onLedger op.apply, d)
  | credit identity work height ts source => .ok (s.credit identity work height ts source, d)
  | setTarget targetWork => .ok (s.setTarget targetWork, d)
  | importJsonCredits doc => .ok (s.importJsonCredits d doc)
  | flush => .ok (s.flush d)
  | persistWindow => .ok (s.persistWindow d)
  | reopen chars rows => openLedger (d.spilled s chars rows)

/-- The ledgers reached from a new directory by allowed steps. -/
inductive Reached (allowed : Store → Disk → StoreOp → Prop) : Store → Disk → Prop where
  | opened {s : Store} {d : Disk} (fresh : openLedger {} = .ok (s, d)) : Reached allowed s d
  | next {s s' : Store} {d d' : Disk} (op : StoreOp) (before : Reached allowed s d) (permitted : allowed s d op)
      (took : op.step s d = .ok (s', d')) : Reached allowed s' d'

/-- An invariant of a new ledger that allowed steps keep holds of every ledger reached. -/
theorem Reached.invariant {allowed : Store → Disk → StoreOp → Prop} {inv : Store → Disk → Prop}
    (start : ∀ s d, openLedger {} = .ok (s, d) → inv s d)
    (kept : ∀ s d op s' d', inv s d → allowed s d op → op.step s d = .ok (s', d') → inv s' d')
    {s : Store} {d : Disk} (reached : Reached allowed s d) : inv s d := by
  induction reached with
  | opened fresh => exact start _ _ fresh
  | next _ _ permitted took ih => exact kept _ _ _ _ _ ih permitted took

end Run

end Lazarus.Tides
