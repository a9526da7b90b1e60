import Lazarus.Tides.Booking

/-! What the operations of the ledger do to the hold of one batch: it is placed and ended whole, and in
between blocks only take from it. -/

namespace Lazarus.Tides

open Machine Tally Window

/-- What a hold, if there is one, has for an identity. -/
def heldFor (hold : Option Hold) (identity : String) : Nat :=
  (hold.map fun h => tally identity h.entries).getD 0

@[simp] theorem heldFor_none (identity : String) : heldFor none identity = 0 := rfl

@[simp] theorem heldFor_some (hold : Hold) (identity : String) :
    heldFor (some hold) identity = tally identity hold.entries := rfl

/-- The hold of one batch. -/
def Ledger.hold (l : Ledger) (batch : String) : Option Hold := l.window.holds.lookup batch

/-- Money went out of a hold, perhaps all of it; it is ready when it was. -/
structure Drained (before after : Option Hold) : Prop where
  less : ∀ identity, heldFor after identity ≤ heldFor before identity
  ready : ∀ hold, after = some hold → ∃ old, before = some old ∧ hold.readyHeight = old.readyHeight

theorem Drained.refl (hold : Option Hold) : Drained hold hold :=
  ⟨fun _ => Nat.le_refl _, fun h same => ⟨h, same, rfl⟩⟩

theorem Drained.trans {first second third : Option Hold} (one : Drained first second)
    (two : Drained second third) : Drained first third := by
  constructor
  · intro identity
    exact (two.less identity).trans (one.less identity)
  · intro hold last
    obtain ⟨middle, known, same⟩ := two.ready hold last
    obtain ⟨old, before, ready⟩ := one.ready middle known
    exact ⟨old, before, same.trans ready⟩

section Draw

private theorem tally_drawEntries_le (identity other : String) (left : Nat) (entries : List (String × Nat)) :
    tally other ((drawEntries identity left entries).1.filter fun entry => 0 < entry.2) ≤
      tally other entries := by
  have kept : tally other ((drawEntries identity left entries).1.filter fun entry => 0 < entry.2) =
      tally other (drawEntries identity left entries).1 := by
    apply tally_filter
    intro entry _ dropped
    simpa using dropped
  have drawn := drawEntries_conserves identity other left entries
  have rest := drawEntries_left identity left entries
  rw [kept]
  split at drawn
  · omega
  · omega

private theorem drawBatch_drained (identity batch other : String)
    (state : AList (fun _ : String => Hold) × Nat) :
    Drained (state.1.lookup batch) ((drawBatch identity state other).1.lookup batch) := by
  obtain ⟨holds, left⟩ := state
  simp only [drawBatch]
  split
  · exact .refl _
  · cases found : holds.lookup other with
    | none => exact .refl _
    | some hold =>
      simp only
      by_cases same : batch = other
      · subst same
        split
        · rw [AList.lookup_erase]
          exact ⟨fun _ => Nat.zero_le _, fun _ none => by cases none⟩
        · rw [AList.lookup_insert, found]
          refine ⟨fun name => tally_drawEntries_le identity name left hold.entries, ?_⟩
          intro lower here
          exact ⟨hold, rfl, by rw [← Option.some.inj here]⟩
      · split
        · rw [AList.lookup_erase_ne same]
          exact .refl _
        · rw [AList.lookup_insert_ne same]
          exact .refl _

private theorem drawFromHolds_drained (w : Window) (identity batch : String) (sats : Nat) :
    Drained (w.holds.lookup batch) ((w.drawFromHolds identity sats).1.holds.lookup batch) := by
  unfold drawFromHolds
  apply Run.foldl_kept (drawBatch identity)
    (fun state => Drained (w.holds.lookup batch) (state.1.lookup batch)) ?_ _
    (Drained.refl (w.holds.lookup batch))
  intro state other drained
  exact drained.trans (drawBatch_drained identity batch other state)

private theorem bookDebit_drained (state : Window × Books) {entry : String × Int}
    (negative : entry.2 < 0) (batch : String) :
    Drained (state.1.holds.lookup batch) ((bookDebit state entry).1.holds.lookup batch) := by
  obtain ⟨w, books⟩ := state
  rw [bookDebit_eq w books negative, holds_accrueDebt]
  have drawn := drawFromHolds_drained (w.adjustCarry entry.1 entry.2).1 entry.1 batch
    (entry.2.natAbs - w.carryOf entry.1)
  rw [holds_adjustCarry] at drawn
  exact drawn

/-- A found block only takes from a hold. -/
theorem bookDebits_drained (l : Ledger) (carryDelta : List (String × Int)) (books : Books) (batch : String) :
    Drained (l.hold batch) ((l.bookDebits carryDelta books).1.hold batch) := by
  unfold Ledger.bookDebits
  split
  · exact .refl _
  · show Drained (l.window.holds.lookup batch) (((carryDelta.filter fun entry => entry.2 < 0).foldl bookDebit
      (l.window, { books with debited := [], shortfall := [] })).1.holds.lookup batch)
    apply Run.foldl_mem bookDebit
      (fun state => Drained (l.window.holds.lookup batch) (state.1.holds.lookup batch)) ?_
      (Drained.refl (l.window.holds.lookup batch))
    intro state entry member drained
    have negative : entry.2 < 0 := of_decide_eq_true (List.mem_filter.mp member).2
    exact drained.trans (bookDebit_drained state negative batch)

end Draw

section Whole

variable {l l' : Ledger} {batch : String}

/-- A hold is placed with just what was taken, and only where there was none. -/
theorem holdCarry_hold {entries held : List (String × Nat)} {skipped : List HoldSkip}
    {now after least tipHeight readyHeight : Nat}
    (placed : l.holdCarry batch entries now after least tipHeight readyHeight = .ok (l', held, skipped)) :
    l.hold batch = none ∧
      l'.hold batch = if held = [] then none else
        some { createdTs := now, height := tipHeight, readyHeight, entries := held } := by
  unfold Ledger.holdCarry at placed
  split at placed
  · cases placed
  · rename_i unused
    have none : l.hold batch = none := by simpa [Ledger.hold] using unused
    have untaken := Run.foldl_kept (holdEntry (l.window.staleCarries now after least)) (Untaken l.window)
      (fun _ entry before => before.entry entry) entries (Untaken.refl l.window)
    simp only at placed
    refine ⟨none, ?_⟩
    split at placed
    · rename_i nothing
      cases placed
      rw [if_pos nothing]
      show AList.lookup batch _ = Option.none
      rw [untaken.holds]
      exact none
    · rename_i some
      cases placed
      rw [if_neg some]
      exact AList.lookup_insert _

/-- A request that takes nothing changes nothing. -/
theorem holdCarry_nothing {entries : List (String × Nat)} {skipped : List HoldSkip}
    {now after least tipHeight readyHeight : Nat}
    (placed : l.holdCarry batch entries now after least tipHeight readyHeight = .ok (l', [], skipped)) :
    l' = l := by
  have untaken : ∀ entries : List (String × Nat),
      (entries.foldl (holdEntry (l.window.staleCarries now after least)) (l.window, [], [])).2.1 = [] →
        (entries.foldl (holdEntry (l.window.staleCarries now after least)) (l.window, [], [])).1 =
        l.window := by
    intro entries
    induction entries using List.reverseRecOn with
    | nil => exact fun _ => rfl
    | append_singleton earlier entry ih =>
      rw [List.foldl_append, List.foldl_cons, List.foldl_nil]
      generalize earlier.foldl (holdEntry (l.window.staleCarries now after least))
        (l.window, [], []) = state at ih
      obtain ⟨w, held, skipped⟩ := state
      intro nothing
      rcases holdEntry_cases (l.window.staleCarries now after least) w held skipped entry with
        ⟨skip, -, same⟩ | ⟨-, -, -, same⟩
      · rw [same] at nothing ⊢
        exact ih nothing
      · rw [same] at nothing
        simp at nothing
  unfold Ledger.holdCarry at placed
  split at placed
  · cases placed
  · simp only at placed
    split at placed
    · rename_i nothing
      rw [Except.ok.injEq, Prod.mk.injEq] at placed
      rw [← placed.1, untaken entries nothing]
    · rename_i some
      rw [Except.ok.injEq, Prod.mk.injEq, Prod.mk.injEq] at placed
      exact absurd placed.2.1 some

/-- Giving balances back leaves the holds alone. -/
theorem holds_giveBack (w : Window) (entries : List (String × Nat)) :
    (entries.foldl (fun (window : Window) entry => (window.restoreCarry entry.1 entry.2).1) w).holds =
      w.holds :=
  Run.foldl_unmoved (fun w : Window => w.holds) (fun w entry => holds_restoreCarry w entry.1 entry.2) w entries

/-- A release takes the whole hold away. -/
theorem releaseHold_hold {entries : List (String × Nat)} (released : l.releaseHold batch = some (l', entries)) :
    ∃ hold, l.hold batch = some hold ∧ entries = hold.entries ∧ l'.hold batch = none := by
  obtain ⟨hold, found, same⟩ := Option.map_eq_some_iff.mp released
  cases same
  refine ⟨hold, found, rfl, ?_⟩
  have holds := holds_giveBack { l.window with holds := l.window.holds.erase batch } hold.entries
  show AList.lookup batch _ = none
  rw [holds]
  exact AList.lookup_erase batch l.window.holds

/-- So does a payment that confirmed. -/
theorem finishHold_hold {entries : List (String × Nat)} (finished : l.finishHold batch = some (l', entries)) :
    ∃ hold, l.hold batch = some hold ∧ entries = hold.entries ∧ l'.hold batch = none := by
  obtain ⟨hold, found, same⟩ := Option.map_eq_some_iff.mp finished
  cases same
  exact ⟨hold, found, rfl, AList.lookup_erase batch l.window.holds⟩

end Whole

section Other

variable {l l' : Ledger} {batch other : String}

theorem holdCarry_other (differs : other ≠ batch) {entries held : List (String × Nat)} {skipped : List HoldSkip}
    {now after least tipHeight readyHeight : Nat}
    (placed : l.holdCarry batch entries now after least tipHeight readyHeight = .ok (l', held, skipped)) :
    l'.hold other = l.hold other := by
  unfold Ledger.holdCarry at placed
  split at placed
  · cases placed
  · have untaken := Run.foldl_kept (holdEntry (l.window.staleCarries now after least)) (Untaken l.window)
      (fun _ entry before => before.entry entry) entries (Untaken.refl l.window)
    simp only at placed
    split at placed
    · cases placed
      exact congrArg (AList.lookup other) untaken.holds
    · cases placed
      show AList.lookup other (AList.insert batch _ _) = _
      rw [AList.lookup_insert_ne differs, untaken.holds]
      rfl

theorem releaseHold_other (differs : other ≠ batch) {entries : List (String × Nat)}
    (released : l.releaseHold batch = some (l', entries)) : l'.hold other = l.hold other := by
  obtain ⟨hold, found, same⟩ := Option.map_eq_some_iff.mp released
  cases same
  have holds := holds_giveBack { l.window with holds := l.window.holds.erase batch } hold.entries
  show AList.lookup other _ = _
  rw [holds]
  exact AList.lookup_erase_ne differs

theorem finishHold_other (differs : other ≠ batch) {entries : List (String × Nat)}
    (finished : l.finishHold batch = some (l', entries)) : l'.hold other = l.hold other := by
  obtain ⟨hold, found, same⟩ := Option.map_eq_some_iff.mp finished
  cases same
  exact AList.lookup_erase_ne differs

end Other

end Lazarus.Tides
