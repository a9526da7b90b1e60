import Lazarus.Tides.Booking

/-! No identity is creditor and debtor at once. Every call keeps this but one: undoing a block
whose earnings had paid a debt down takes the debt out of the carry through a signed amount, and a
carry above the signed range is not emptied by it. -/

namespace Lazarus.Tides

open Machine Interner Tally Window

/-- No identity has both carry and debt. -/
def Window.Exclusive (w : Window) : Prop := ∀ identity, w.carryOf identity = 0 ∨ w.debtOf identity = 0

/-- A call on the ledger with arguments of its own choosing. -/
inductive Move where
  | bookDebits (carryDelta : List (String × Int)) (books : Books)
  | bookCredits (carryDelta : List (String × Int)) (books : Books)
  | unbook (books : Books)
  | settleCarry (delta : List (String × Int))
  | holdCarry (batch : String) (entries : List (String × Nat)) (now after least tipHeight readyHeight : Nat)
  | releaseHold (batch : String)
  | finishHold (batch : String)

def Ledger.move (l : Ledger) : Move → Ledger
  | .bookDebits carryDelta books => (l.bookDebits carryDelta books).1
  | .bookCredits carryDelta books => (l.bookCredits carryDelta books).1
  | .unbook books => (l.unbook books).1
  | .settleCarry delta => (l.settleCarry delta).1
  | .holdCarry batch entries now after least tipHeight readyHeight =>
    match l.holdCarry batch entries now after least tipHeight readyHeight with
    | .error _ => l
    | .ok (l, _, _) => l
  | .releaseHold batch => ((l.releaseHold batch).map Prod.fst).getD l
  | .finishHold batch => ((l.finishHold batch).map Prod.fst).getD l

section Primitives

variable {w : Window}

/-- A change of one identity that leaves it without carry, without debt, or with no more of either
keeps everybody exclusive. -/
theorem Window.Exclusive.of_one {w' : Window} (exclusive : w.Exclusive) (identity : String)
    (carries : ∀ other, other ≠ identity → w'.carryOf other = w.carryOf other)
    (debts : ∀ other, other ≠ identity → w'.debtOf other = w.debtOf other)
    (one : w'.carryOf identity = 0 ∨ w'.debtOf identity = 0) : w'.Exclusive := by
  intro other
  by_cases same : other = identity
  · exact same ▸ one
  · rw [carries other same, debts other same]
    exact exclusive other

theorem Window.Exclusive.restoreCarry (exclusive : w.Exclusive) (identity : String) (sats : Nat) :
    (w.restoreCarry identity sats).1.Exclusive := by
  apply exclusive.of_one identity
  · intro other different
    rw [carryOf_restoreCarry, if_neg (by simp [different])]
  · intro other different
    rw [debtOf_restoreCarry, if_neg different]
  · simp only [carryOf_restoreCarry, debtOf_restoreCarry, true_and, ↓reduceIte]
    have before := exclusive identity
    split <;> omega

theorem Window.Exclusive.adjustCarry_neg (exclusive : w.Exclusive) (identity : String) {delta : Int}
    (below : delta < 0) : (w.adjustCarry identity delta).1.Exclusive := by
  apply exclusive.of_one identity
  · intro other different
    rw [carryOf_adjustCarry, if_neg different]
  · intro other _
    rw [debtOf_adjustCarry]
  · rw [carryOf_adjustCarry_neg _ _ _ _ below, debtOf_adjustCarry, if_pos rfl]
    have before := exclusive identity
    omega

/-- A debt is put back without fault when it or the carry it is taken from is in the signed range. -/
theorem Window.Exclusive.restoreDebt (exclusive : w.Exclusive) {entry : String × Nat}
    (signed : w.carryOf entry.1 ≤ i64Max ∨ entry.2 ≤ i64Max) :
    (w.restoreDebt entry.1 entry.2).Exclusive := by
  apply exclusive.of_one entry.1
  · intro other different
    rw [carryOf_restoreDebt, if_neg different]
  · intro other different
    rw [debtOf_restoreDebt, if_neg (by simp [different])]
  · simp only [carryOf_restoreDebt, debtOf_restoreDebt, true_and, ↓reduceIte]
    have before := exclusive entry.1
    split <;> omega

end Primitives

section Entries

private theorem bookDebit_exclusive {state : Window × Books} (exclusive : state.1.Exclusive)
    {entry : String × Int} (below : entry.2 < 0) : (bookDebit state entry).1.Exclusive := by
  obtain ⟨w, books⟩ := state
  apply exclusive.of_one entry.1
  · intro other different
    rw [carryOf_bookDebit w books below, if_neg different]
  · intro other different
    rw [debtOf_bookDebit w books below, if_neg (by simp [different])]
  · rw [carryOf_bookDebit w books below, debtOf_bookDebit w books below, if_pos rfl]
    -- a debt is only taken on by a payment the carry did not cover
    have before := exclusive entry.1
    simp only at before
    split
    · rename_i owing
      simp only [overpaid] at owing
      omega
    · omega

private theorem unbookCredit_exclusive {state : Window × Nat} (exclusive : state.1.Exclusive)
    (entry : String × Nat) : (unbookCredit state entry).1.Exclusive := by
  apply exclusive.of_one entry.1
  · intro other different
    simp [unbookCredit, carryOf_adjustCarry, different]
  · intro other _
    simp [unbookCredit]
  · simp only [unbookCredit, carryOf_adjustCarry, debtOf_adjustCarry, ↓reduceIte]
    rcases exclusive entry.1 with carry | debt
    · left
      split
      · rename_i nothing
        have zero : -clampI64 entry.2 = 0 :=
          le_antisymm (by have := clampI64_nonneg (n := entry.2); omega) nothing
        simp [zero, carry]
      · omega
    · exact .inr debt

private theorem settleEntry_exclusive {state : Ledger × List (String × Nat)}
    (exclusive : state.1.window.Exclusive) (entry : String × Int) :
    (settleEntry state entry).1.window.Exclusive := by
  obtain ⟨l, out⟩ := state
  simp only [settleEntry]
  split
  · exact exclusive
  · by_cases above : 0 < entry.2
    · simp only [above, ↓reduceIte]
      exact exclusive.restoreCarry entry.1 _
    · simp only [above, ↓reduceIte]
      exact exclusive.adjustCarry_neg entry.1 (by omega)

/-- While a hold is drawn up, no identity is creditor and debtor at once. -/
structure Drawing (start : Window) (state : Window × List (String × Nat) × List HoldSkip) : Prop
    extends Untaken start state where
  exclusive : state.1.Exclusive

theorem Drawing.entry {start : Window} {stale : List StaleCarry}
    (whole : ∀ balance ∈ stale, start.carryOf balance.identity = balance.sats)
    (state : Window × List (String × Nat) × List HoldSkip) (entry : String × Nat)
    (drawing : Drawing start state) : Drawing start (holdEntry stale state entry) := by
  refine ⟨drawing.toUntaken.entry entry, ?_⟩
  obtain ⟨w, held, skipped⟩ := state
  rcases holdEntry_cases stale w held skipped entry with ⟨skip, _, same⟩ | ⟨fresh, requested, listed, taken⟩
  · rw [same]
    exact drawing.exclusive
  · have creditor : w.carryOf entry.1 ≠ 0 := by
      rw [drawing.toUntaken.whole whole fresh listed]
      exact requested
    rw [taken]
    apply drawing.exclusive.of_one entry.1
    · intro other different
      rw [carryOf_adjustCarry, if_neg different]
    · intro other _
      rw [debtOf_adjustCarry]
    · right
      rw [debtOf_adjustCarry]
      exact (drawing.exclusive entry.1).resolve_left creditor

end Entries

section Undoing

/-- What is left of everybody's carry when an amount has been taken off as a signed one. -/
def takeOff (carry : String → Nat) (entry : String × Nat) : String → Nat :=
  fun identity => carry identity - if entry.1 = identity then min entry.2 i64Max else 0

/-- Undoing a block's credits puts each debt back from a carry in the signed range, or puts back an
amount in that range. -/
def DebtsSigned (w : Window) (books : Books) : Prop :=
  books.creditsLive = true →
    Run.Along (fun carry entry => carry entry.1 ≤ i64Max ∨ entry.2 ≤ i64Max) takeOff
      (books.credited.foldl takeOff w.carryOf) books.debtPaid

instance (w : Window) (books : Books) : Decidable (DebtsSigned w books) := inferInstanceAs (Decidable (_ → _))

private theorem carryOf_unbookCredit_le {state : Window × Nat} {carry : String → Nat}
    (lower : ∀ identity, state.1.carryOf identity ≤ carry identity) (entry : String × Nat) (identity : String) :
    (unbookCredit state entry).1.carryOf identity ≤ takeOff carry entry identity := by
  have before := lower identity
  simp only [unbookCredit, carryOf_adjustCarry, takeOff]
  by_cases same : identity = entry.1
  · subst same
    simp only [↓reduceIte]
    split
    · rename_i nothing
      have zero : min entry.2 i64Max = 0 := by
        unfold clampI64 at nothing
        omega
      have most := satAdd_le (a := state.1.carryOf entry.1) (b := (-clampI64 entry.2).natAbs)
      simp only [Int.natAbs_neg, clampI64_natAbs, zero] at most ⊢
      omega
    · simp only [Int.natAbs_neg, clampI64_natAbs]
      omega
  · simpa [same, Ne.symm same] using before

private theorem carryOf_restoreDebt_le {w : Window} {carry : String → Nat}
    (lower : ∀ identity, w.carryOf identity ≤ carry identity) (entry : String × Nat) (identity : String) :
    (w.restoreDebt entry.1 entry.2).carryOf identity ≤ takeOff carry entry identity := by
  have before := lower identity
  simp only [carryOf_restoreDebt, takeOff]
  by_cases same : identity = entry.1
  · subst same
    simp only [↓reduceIte]
    omega
  · simpa [same, Ne.symm same] using before

private theorem restoreDebts_exclusive {w : Window} (exclusive : w.Exclusive) {carry : String → Nat}
    (lower : ∀ identity, w.carryOf identity ≤ carry identity) {debtPaid : List (String × Nat)}
    (signed : Run.Along (fun carry entry => carry entry.1 ≤ i64Max ∨ entry.2 ≤ i64Max) takeOff carry debtPaid) :
    (debtPaid.foldl (fun w entry => w.restoreDebt entry.1 entry.2) w).Exclusive := by
  induction debtPaid generalizing w carry with
  | nil => exact exclusive
  | cons entry rest ih =>
    obtain ⟨now, later⟩ := signed
    have emptied : w.carryOf entry.1 ≤ i64Max ∨ entry.2 ≤ i64Max :=
      now.imp_left (Nat.le_trans (lower entry.1))
    exact ih (exclusive.restoreDebt emptied) (carryOf_restoreDebt_le lower entry) later

private theorem unbookCredits_exclusive (state : Window × Nat) (exclusive : state.1.Exclusive)
    {carry : String → Nat} (lower : ∀ identity, state.1.carryOf identity ≤ carry identity)
    (credited : List (String × Nat)) :
    (credited.foldl unbookCredit state).1.Exclusive ∧
      ∀ identity, (credited.foldl unbookCredit state).1.carryOf identity ≤
      credited.foldl takeOff carry identity := by
  induction credited generalizing state carry with
  | nil => exact ⟨exclusive, lower⟩
  | cons entry rest ih =>
    exact ih _ (unbookCredit_exclusive exclusive entry) (carryOf_unbookCredit_le lower entry)

private theorem takeBackCredits_exclusive {w : Window} (exclusive : w.Exclusive) {books : Books}
    (signed : DebtsSigned w books) : (takeBackCredits w books).1.Exclusive := by
  unfold takeBackCredits
  split
  · rename_i live
    obtain ⟨between, lower⟩ := unbookCredits_exclusive (w, 0) exclusive
      (fun identity => Nat.le_refl (w.carryOf identity)) books.credited
    exact restoreDebts_exclusive between lower (signed live)
  · exact exclusive

private theorem giveBackDebits_exclusive {w : Window} (exclusive : w.Exclusive) (books : Books) :
    (giveBackDebits w books).1.Exclusive := by
  unfold giveBackDebits
  split
  · have carry := Run.foldl_kept (fun w entry => (w.restoreCarry entry.1 entry.2).1) Window.Exclusive
      (fun w entry exclusive => exclusive.restoreCarry entry.1 entry.2) books.debited exclusive
    exact Run.foldl_kept (fun w entry => w.forgiveDebt entry.1 entry.2) Window.Exclusive
      (fun w entry exclusive => by
        rw [forgiveDebt_eq]
        exact exclusive.restoreCarry entry.1 entry.2) books.shortfall carry
  · exact exclusive

end Undoing

/-- Every unbooking of a run puts its debts back from, or as, a signed amount. -/
def Ledger.MoveSigned (l : Ledger) : Move → Prop
  | .unbook books => DebtsSigned l.window books
  | _ => True

instance (l : Ledger) : (m : Move) → Decidable (l.MoveSigned m)
  | .unbook _ => inferInstanceAs (Decidable (DebtsSigned _ _))
  | .bookDebits _ _ | .bookCredits _ _ | .settleCarry _ | .holdCarry _ _ _ _ _ _ _ | .releaseHold _
  | .finishHold _ => inferInstanceAs (Decidable True)

section Moves

variable {l : Ledger}

theorem bookDebits_exclusive (exclusive : l.window.Exclusive) (carryDelta : List (String × Int))
    (books : Books) : (l.bookDebits carryDelta books).1.window.Exclusive := by
  unfold Ledger.bookDebits
  split
  · exact exclusive
  · have steps := (Run.along_of_forall bookDebit (fun _ _ => trivial)
      (l.window, { books with debited := [], shortfall := [] })
      (carryDelta.filter fun entry => entry.2 < 0)).and_mem (fun entry => entry.2 < 0)
      fun entry member => by simpa using (List.mem_filter.mp member).2
    exact Run.foldl_invariant (fun state : Window × Books => state.1.Exclusive)
      (fun state entry exclusive allowed => bookDebit_exclusive exclusive allowed.2) steps exclusive

private theorem bookCredits_exclusive (exclusive : l.window.Exclusive)
    (carryDelta : List (String × Int)) (books : Books) :
    (l.bookCredits carryDelta books).1.window.Exclusive := by
  unfold Ledger.bookCredits
  split
  · exact exclusive
  · exact Run.foldl_kept bookCredit (fun state : Ledger × Books => state.1.window.Exclusive)
      (fun state entry exclusive => by
        rw [bookCredit_window]
        exact exclusive.restoreCarry entry.1 entry.2.natAbs) _ exclusive

private theorem holdCarry_exclusive (exclusive : l.window.Exclusive)
    (held : l.holdCarry batch entries now after least tipHeight readyHeight = .ok (l', taken, skipped)) :
    l'.window.Exclusive := by
  have drawing := Run.foldl_kept _ (Drawing l.window)
    (Drawing.entry fun _ (member : _ ∈ l.window.staleCarries now after least) => carryOf_stale member)
    (s := (l.window, [], [])) entries ⟨Untaken.refl l.window, exclusive⟩
  simp only [Ledger.holdCarry] at held
  split at held
  · cases held
  · split at held
    · obtain ⟨rfl, -⟩ := Prod.mk.inj (Except.ok.inj held)
      exact drawing.exclusive
    · obtain ⟨rfl, -⟩ := Prod.mk.inj (Except.ok.inj held)
      exact drawing.exclusive

theorem Ledger.move_exclusive (l : Ledger) (m : Move) (exclusive : l.window.Exclusive)
    (signed : l.MoveSigned m) : (l.move m).window.Exclusive := by
  cases m with
  | bookDebits carryDelta books => exact bookDebits_exclusive exclusive carryDelta books
  | bookCredits carryDelta books => exact bookCredits_exclusive exclusive carryDelta books
  | unbook books => exact giveBackDebits_exclusive (takeBackCredits_exclusive exclusive signed) _
  | settleCarry delta =>
    exact Run.foldl_kept settleEntry (fun state => state.1.window.Exclusive)
      (fun state entry exclusive => settleEntry_exclusive exclusive entry) (s := (l, [])) delta exclusive
  | holdCarry batch entries now after least tipHeight readyHeight =>
    simp only [Ledger.move]
    split
    · exact exclusive
    · rename_i held
      exact holdCarry_exclusive exclusive held
  | releaseHold batch =>
    simp only [Ledger.move, Ledger.releaseHold]
    cases found : l.window.holds.lookup batch with
    | none => exact exclusive
    | some hold =>
      exact Run.foldl_kept (fun w entry => (w.restoreCarry entry.1 entry.2).1) Window.Exclusive
        (fun w entry exclusive => exclusive.restoreCarry entry.1 entry.2)
        (s := { l.window with holds := l.window.holds.erase batch }) hold.entries exclusive
  | finishHold batch =>
    simp only [Ledger.move, Ledger.finishHold]
    cases found : l.window.holds.lookup batch with
    | none => exact exclusive
    | some hold => exact exclusive

/-- In a run whose unbookings put every debt back from, or as, a signed amount, no identity is
creditor and debtor at once in any state reached. -/
theorem no_creditor_is_debtor (start : Ledger) (exclusive : start.window.Exclusive) (moves : List Move)
    (signed : Run.Along Ledger.MoveSigned Ledger.move start moves) (reached : List Move)
    (earlier : reached <+: moves) : (reached.foldl Ledger.move start).window.Exclusive := by
  obtain ⟨later, rfl⟩ := earlier
  have sofar := (Run.along_append.mp signed).1
  exact Run.foldl_invariant (fun l : Ledger => l.window.Exclusive) Ledger.move_exclusive sofar exclusive

/-- An unbooking that puts back 100 sats of debt against 40 sats of carry. -/
theorem no_creditor_is_debtor_reorg :
    let moves :=
      [Move.settleCarry [("miner", 40)], .unbook { creditsLive := true, debtPaid := [("miner", 100)] }]
    (moves.foldl Ledger.move {}).window.Exclusive ∧
      (moves.foldl Ledger.move {}).window.debtOf "miner" = 60 := by
  intro moves
  refine ⟨no_creditor_is_debtor {} (fun _ => .inl rfl) moves (by decide) moves List.prefix_rfl, by decide⟩

/-- Without that condition it fails: from an empty ledger a carry of 2^63 + 5 sats, and a debt of
2^64 - 1 put back, leave the identity with both. -/
theorem creditor_and_debtor :
    ¬ ∀ (start : Ledger) (moves : List Move), start.window.Exclusive →
      (moves.foldl Ledger.move start).window.Exclusive := by
  intro always
  have both := always {} [.settleCarry [("miner", 2 ^ 63 - 1), ("miner", 6)],
    .unbook { creditsLive := true, debtPaid := [("miner", 2 ^ 64 - 1)] }] (fun _ => .inl rfl) "miner"
  revert both
  decide

end Moves

end Lazarus.Tides
