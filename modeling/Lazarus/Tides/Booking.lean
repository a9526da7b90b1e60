import Lazarus.Tides.Balance
import Lazarus.Tides.Ledger

/-! What each booking step does to carry, debt and holds, and from that to what the pool owes an
identity while no amount runs into the top of its type. -/

namespace Lazarus.Tides

open Machine Interner Tally Window

namespace Window

/-- Putting sats back on an identity's books stays below the bounds. -/
def RestoreFits (w : Window) (entry : String × Nat) : Prop :=
  entry.2 - w.debtOf entry.1 ≤ i64Max ∧ w.carryOf entry.1 + (entry.2 - w.debtOf entry.1) ≤ u64Max

/-- Putting a debt back stays below the bounds. -/
def RestoreDebtFits (w : Window) (entry : String × Nat) : Prop :=
  min (w.carryOf entry.1) entry.2 ≤ i64Max ∧ w.debtOf entry.1 + (entry.2 - w.carryOf entry.1) ≤ u64Max

instance (w : Window) (entry : String × Nat) : Decidable (w.RestoreFits entry) :=
  inferInstanceAs (Decidable (_ ∧ _))

instance (w : Window) (entry : String × Nat) : Decidable (w.RestoreDebtFits entry) :=
  inferInstanceAs (Decidable (_ ∧ _))

theorem net_restoreCarry {w : Window} {entry : String × Nat} (fits : w.RestoreFits entry) (other : String) :
    (w.restoreCarry entry.1 entry.2).1.net other =
      w.net other + (if entry.1 = other then entry.2 else 0 : Nat) := by
  obtain ⟨signed, unsigned⟩ := fits
  simp only [net, heldOf, carryOf_restoreCarry, debtOf_restoreCarry, holds_restoreCarry,
    Nat.min_eq_left signed, satAdd_eq unsigned]
  by_cases same : other = entry.1
  · subst same
    simp only [true_and, ↓reduceIte]
    split <;> omega
  · simp [same, Ne.symm same]

theorem net_forgiveDebt {w : Window} {entry : String × Nat} (fits : w.RestoreFits entry) (other : String) :
    (w.forgiveDebt entry.1 entry.2).net other =
      w.net other + (if entry.1 = other then entry.2 else 0 : Nat) := by
  rw [forgiveDebt_eq]
  exact net_restoreCarry fits other

theorem net_restoreDebt {w : Window} {entry : String × Nat} (fits : w.RestoreDebtFits entry) (other : String) :
    (w.restoreDebt entry.1 entry.2).net other =
      w.net other + -(if entry.1 = other then entry.2 else 0 : Nat) := by
  obtain ⟨signed, unsigned⟩ := fits
  simp only [net, heldOf, carryOf_restoreDebt, debtOf_restoreDebt, holds_restoreDebt,
    Nat.min_eq_left signed, satAdd_eq unsigned]
  by_cases same : other = entry.1
  · subst same
    simp only [true_and, ↓reduceIte]
    split <;> omega
  · simp [same, Ne.symm same]

@[simp] theorem carryOf_adjustRebateOwed (w : Window) (delta : Int) (identity : String) :
    (w.adjustRebateOwed delta).carryOf identity = w.carryOf identity := rfl

@[simp] theorem debtOf_adjustRebateOwed (w : Window) (delta : Int) (identity : String) :
    (w.adjustRebateOwed delta).debtOf identity = w.debtOf identity := rfl

@[simp] theorem net_adjustRebateOwed (w : Window) (delta : Int) (identity : String) :
    (w.adjustRebateOwed delta).net identity = w.net identity := rfl

end Window

section Debits

/-- What the holds give towards a payment the carry does not cover. -/
def drawn (w : Window) (entry : String × Int) : Nat :=
  (w.drawFromHolds entry.1 (entry.2.natAbs - w.carryOf entry.1)).2

/-- What neither carry nor holds cover of a payment. -/
def overpaid (w : Window) (entry : String × Int) : Nat :=
  entry.2.natAbs - w.carryOf entry.1 - drawn w entry

theorem drawn_le (w : Window) (entry : String × Int) : drawn w entry ≤ entry.2.natAbs - w.carryOf entry.1 :=
  drawFromHolds_le w entry.1 _

/-- The window and the record that booking one payment leaves. -/
theorem bookDebit_eq (w : Window) (books : Books) {entry : String × Int} (negative : entry.2 < 0) :
    bookDebit (w, books) entry =
      ((((w.adjustCarry entry.1 entry.2).1.drawFromHolds entry.1
        (entry.2.natAbs - w.carryOf entry.1)).1.accrueDebt
          entry.1 (overpaid w entry)),
        { books with
          debited := books.debited ++
            if 0 < entry.2.natAbs - overpaid w entry then [(entry.1, entry.2.natAbs - overpaid w entry)] else []
          shortfall := books.shortfall ++
            if 0 < overpaid w entry then [(entry.1, overpaid w entry)] else [] }) := by
  have before :
      w.carryOf entry.1 - (w.adjustCarry entry.1 entry.2).2 = min (w.carryOf entry.1) entry.2.natAbs := by
    rw [adjustCarry_result, carryOf_adjustCarry_neg _ _ _ _ negative, if_pos rfl]
    omega
  have short :
      entry.2.natAbs - min (w.carryOf entry.1) entry.2.natAbs = entry.2.natAbs - w.carryOf entry.1 := by
    omega
  have sameDraw : ((w.adjustCarry entry.1 entry.2).1.drawFromHolds entry.1
      (entry.2.natAbs - w.carryOf entry.1)).2 = drawn w entry := by
    simp only [drawn, drawFromHolds, holds_adjustCarry]
  have bound := drawn_le w entry
  have moved : min (w.carryOf entry.1) entry.2.natAbs + drawn w entry = entry.2.natAbs - overpaid w entry := by
    unfold overpaid
    omega
  have excess : entry.2.natAbs - (entry.2.natAbs - overpaid w entry) = overpaid w entry := by
    unfold overpaid
    omega
  have draw : (if 0 < entry.2.natAbs - w.carryOf entry.1 then
      (w.adjustCarry entry.1 entry.2).1.drawFromHolds entry.1 (entry.2.natAbs - w.carryOf entry.1)
      else ((w.adjustCarry entry.1 entry.2).1, 0)) =
      (w.adjustCarry entry.1 entry.2).1.drawFromHolds entry.1 (entry.2.natAbs - w.carryOf entry.1) := by
    split
    · rfl
    · rename_i covered
      rw [Nat.eq_zero_of_not_pos covered, drawFromHolds_zero]
  simp only [bookDebit, before, short, draw, sameDraw, moved, excess]
  generalize entry.2.natAbs - overpaid w entry = paid
  generalize overpaid w entry = owing
  rcases Nat.eq_zero_or_pos paid with rfl | somePaid <;> rcases Nat.eq_zero_or_pos owing with rfl | someOwing
  · simp
  · simp [someOwing]
  · simp [somePaid]
  · simp [somePaid, someOwing]

/-- Booking a payment stays below the bounds. -/
def DebitFits (w : Window) (entry : String × Int) : Prop := w.debtOf entry.1 + overpaid w entry ≤ u64Max

instance (w : Window) (entry : String × Int) : Decidable (DebitFits w entry) :=
  inferInstanceAs (Decidable (_ ≤ _))

/-- What a block's adjustments pay an identity out of its carry. -/
def negative (identity : String) (carryDelta : List (String × Int)) : Nat :=
  tally identity (carryDelta.map fun entry => (entry.1, (-entry.2).toNat))

/-- What a block's adjustments put on an identity's carry. -/
def positive (identity : String) (carryDelta : List (String × Int)) : Nat :=
  tally identity (carryDelta.map fun entry => (entry.1, entry.2.toNat))

theorem tally_if (identity name : String) (sats : Nat) :
    tally identity (if 0 < sats then [(name, sats)] else []) = if name = identity then sats else 0 := by
  split
  · simp
  · simp_all

theorem carryOf_bookDebit (w : Window) (books : Books) {entry : String × Int} (below : entry.2 < 0)
    (other : String) : (bookDebit (w, books) entry).1.carryOf other =
      if other = entry.1 then w.carryOf entry.1 - entry.2.natAbs else w.carryOf other := by
  rw [bookDebit_eq w books below, carryOf_accrueDebt, carryOf_drawFromHolds,
    carryOf_adjustCarry_neg _ _ _ _ below]

theorem debtOf_bookDebit (w : Window) (books : Books) {entry : String × Int} (below : entry.2 < 0)
    (other : String) : (bookDebit (w, books) entry).1.debtOf other =
      if other = entry.1 ∧ overpaid w entry ≠ 0 then satAdd (w.debtOf entry.1) (overpaid w entry)
      else w.debtOf other := by
  simp only [bookDebit_eq w books below, debtOf_accrueDebt, debtOf_drawFromHolds, debtOf_adjustCarry]

theorem heldOf_bookDebit (w : Window) (books : Books) {entry : String × Int} (below : entry.2 < 0)
    (other : String) : ((bookDebit (w, books) entry).1.heldOf other : Int) =
      w.heldOf other - (if other = entry.1 then drawn w entry else 0 : Nat) := by
  have sameHeld : (w.adjustCarry entry.1 entry.2).1.heldOf other = w.heldOf other := by
    simp [heldOf]
  have sameDraw : ((w.adjustCarry entry.1 entry.2).1.drawFromHolds entry.1
      (entry.2.natAbs - w.carryOf entry.1)).2 = drawn w entry := by
    simp only [drawn, drawFromHolds, holds_adjustCarry]
  rw [bookDebit_eq w books below, ← sameHeld, ← sameDraw, ← heldOf_drawFromHolds]
  simp [heldOf]

/-- A booked payment comes off what the pool owes its payee. -/
theorem net_bookDebit {state : Window × Books} {entry : String × Int} (fits : DebitFits state.1 entry)
    (below : entry.2 < 0) (other : String) :
    (bookDebit state entry).1.net other =
      state.1.net other + -(if entry.1 = other then entry.2.natAbs else 0 : Nat) := by
  obtain ⟨w, books⟩ := state
  have bound := drawn_le w entry
  rw [net, net, heldOf_bookDebit w books below, carryOf_bookDebit w books below, debtOf_bookDebit w books below,
    satAdd_eq fits]
  by_cases same : other = entry.1
  · subst same
    simp only [overpaid, true_and, ↓reduceIte]
    split <;> omega
  · simp [same, Ne.symm same]

/-- What a booked payment files in the record adds up to the payment. -/
theorem bookDebit_recorded (state : Window × Books) {entry : String × Int} (below : entry.2 < 0)
    (other : String) :
    tally other (bookDebit state entry).2.debited + tally other (bookDebit state entry).2.shortfall =
      tally other state.2.debited + tally other state.2.shortfall +
        if entry.1 = other then entry.2.natAbs else 0 := by
  obtain ⟨w, books⟩ := state
  have bound : overpaid w entry ≤ entry.2.natAbs := by
    unfold overpaid
    omega
  simp only [bookDebit_eq w books below, tally_append, tally_if]
  split <;> omega

/-- Booking a payment writes two lists of the record and nothing else of it. -/
theorem bookDebit_frame (state : Window × Books) (entry : String × Int) :
    ∃ debited shortfall, (bookDebit state entry).2 = { state.2 with debited, shortfall } := by
  obtain ⟨w, books⟩ := state
  simp only [bookDebit]
  generalize w.adjustCarry entry.1 entry.2 = adjusted
  generalize (if 0 < entry.2.natAbs - (w.carryOf entry.1 - adjusted.2) then _ else (adjusted.1, 0)) = drew
  split
  · split
    · exact ⟨_, _, rfl⟩
    · exact ⟨_, _, rfl⟩
  · split
    · exact ⟨_, _, rfl⟩
    · exact ⟨_, _, rfl⟩

end Debits

section Credits

/-- Booking an earning does to the window what putting sats back does. -/
theorem bookCredit_window (state : Ledger × Books) (entry : String × Int) :
    (bookCredit state entry).1.window = (state.1.window.restoreCarry entry.1 entry.2.natAbs).1 := by
  obtain ⟨l, books⟩ := state
  simp only [bookCredit, restoreCarry]
  by_cases rest : entry.2.natAbs - (l.window.reduceDebt entry.1 entry.2.natAbs).2 = 0
  · simp [rest]
  · simp [rest, Nat.pos_of_ne_zero rest]

/-- Booking an earning stays below the bounds. -/
def CreditFits (w : Window) (entry : String × Int) : Prop := w.RestoreFits (entry.1, entry.2.natAbs)

instance (w : Window) (entry : String × Int) : Decidable (CreditFits w entry) :=
  inferInstanceAs (Decidable (_ ∧ _))

theorem net_bookCredit {state : Ledger × Books} {entry : String × Int} (fits : CreditFits state.1.window entry)
    (other : String) :
    (bookCredit state entry).1.window.net other =
      state.1.window.net other + (if entry.1 = other then entry.2.natAbs else 0 : Nat) := by
  rw [bookCredit_window]
  exact net_restoreCarry fits other

/-- What a booked earning files in the record adds up to the earning. -/
theorem bookCredit_recorded {state : Ledger × Books} {entry : String × Int}
    (fits : CreditFits state.1.window entry) (other : String) :
    tally other (bookCredit state entry).2.credited + tally other (bookCredit state entry).2.debtPaid =
      tally other state.2.credited + tally other state.2.debtPaid +
        if entry.1 = other then entry.2.natAbs else 0 := by
  obtain ⟨l, books⟩ := state
  obtain ⟨signed, unsigned⟩ := fits
  simp only at signed unsigned
  have taken := reduceDebt_taken l.window entry.1 entry.2.natAbs
  have onto : entry.2.natAbs - min (l.window.debtOf entry.1) entry.2.natAbs =
      entry.2.natAbs - l.window.debtOf entry.1 := by omega
  have raised : (if 0 < entry.2.natAbs - l.window.debtOf entry.1 then
      (l.window.reduceDebt entry.1 entry.2.natAbs).1.adjustCarry entry.1
        (clampI64 (entry.2.natAbs - l.window.debtOf entry.1))
      else ((l.window.reduceDebt entry.1 entry.2.natAbs).1, l.window.carryOf entry.1)).2 =
      l.window.carryOf entry.1 + (entry.2.natAbs - l.window.debtOf entry.1) := by
    split
    · rw [adjustCarry_result, carryOf_adjustCarry, if_pos rfl, if_pos clampI64_nonneg, clampI64_natAbs,
        Nat.min_eq_left signed, carryOf_reduceDebt, satAdd_eq unsigned]
    · omega
  simp only [bookCredit, taken, onto, carryOf_reduceDebt, raised]
  rcases Nat.lt_or_ge (l.window.debtOf entry.1) entry.2.natAbs with beyond | within
  · have more : l.window.carryOf entry.1 <
        l.window.carryOf entry.1 + (entry.2.natAbs - l.window.debtOf entry.1) := by omega
    rw [if_pos more, Nat.min_eq_left (Nat.le_of_lt beyond)]
    split
    · simp only [tally_append, tally_cons, tally_nil]
      split <;> omega
    · simp only [tally_append, tally_cons, tally_nil]
      split <;> omega
  · rw [Nat.sub_eq_zero_of_le within, Nat.min_eq_right within, Nat.add_zero, if_neg (Nat.lt_irrefl _)]
    split
    · simp only [tally_append, tally_cons, tally_nil]
      split <;> omega
    · split <;> omega

private theorem bookCredit_frame (state : Ledger × Books) (entry : String × Int) :
    ∃ credited debtPaid, (bookCredit state entry).2 = { state.2 with credited, debtPaid } := by
  obtain ⟨l, books⟩ := state
  simp only [bookCredit]
  generalize l.window.reduceDebt entry.1 entry.2.natAbs = reduced
  generalize (if 0 < entry.2.natAbs - reduced.2 then _ else (reduced.1, reduced.1.carryOf entry.1)) = raised
  by_cases paid : 0 < reduced.2
  · simp only [paid, ↓reduceIte]
    split
    · exact ⟨_, _, rfl⟩
    · exact ⟨_, _, rfl⟩
  · simp only [paid, ↓reduceIte]
    split
    · exact ⟨_, _, rfl⟩
    · exact ⟨_, _, rfl⟩

end Credits

section Undoing

/-- What the undoing of a block's credits could not take back, entry by entry. -/
def shortParts : Window → List (String × Nat) → List (String × Nat)
  | _, [] => []
  | w, entry :: rest =>
    let before := w.carryOf entry.1
    let (w, after) := w.adjustCarry entry.1 (-clampI64 entry.2)
    (entry.1, entry.2 - (before - after)) :: shortParts w rest

/-- Taking a credit back stays below the bounds. -/
def UnbookFits (state : Window × Nat) (entry : String × Nat) : Prop :=
  entry.2 ≤ i64Max ∧ state.1.carryOf entry.1 ≤ u64Max ∧
    state.2 + (entry.2 - state.1.carryOf entry.1) ≤ u64Max

instance (state : Window × Nat) (entry : String × Nat) : Decidable (UnbookFits state entry) :=
  inferInstanceAs (Decidable (_ ∧ _ ∧ _))

theorem carryOf_takeOff {w : Window} {entry : String × Nat} (signed : entry.2 ≤ i64Max)
    (unsigned : w.carryOf entry.1 ≤ u64Max) (other : String) :
    (w.adjustCarry entry.1 (-clampI64 entry.2)).1.carryOf other =
      if other = entry.1 then w.carryOf entry.1 - entry.2 else w.carryOf other := by
  rw [clampI64_eq signed, carryOf_adjustCarry]
  rcases Nat.eq_zero_or_pos entry.2 with nothing | some
  · have kept : satAdd (w.carryOf entry.1) 0 = w.carryOf entry.1 := satAdd_eq unsigned
    simp [nothing, kept]
  · have below : ¬ 0 ≤ -(entry.2 : Int) := by omega
    rw [if_neg below, Int.natAbs_neg, Int.natAbs_natCast]

private theorem unbookCredit_law {state : Window × Nat} {entry : String × Nat} (fits : UnbookFits state entry) :
    (unbookCredit state entry).2 = state.2 + (entry.2 - state.1.carryOf entry.1) ∧
      ∀ other, (unbookCredit state entry).1.net other = state.1.net other -
        (if entry.1 = other then min (state.1.carryOf entry.1) entry.2 else 0 : Nat) := by
  obtain ⟨w, short⟩ := state
  obtain ⟨signed, unsigned, total⟩ := fits
  simp only at signed unsigned total
  have left : (w.adjustCarry entry.1 (-clampI64 entry.2)).2 = w.carryOf entry.1 - entry.2 := by
    rw [adjustCarry_result, carryOf_takeOff signed unsigned, if_pos rfl]
  have paidOut :
      entry.2 - (w.carryOf entry.1 - (w.carryOf entry.1 - entry.2)) = entry.2 - w.carryOf entry.1 := by
    omega
  constructor
  · simp only [unbookCredit, left, paidOut]
    exact satAdd_eq total
  · intro other
    simp only [unbookCredit, net, heldOf, carryOf_takeOff signed unsigned,
      debtOf_adjustCarry, holds_adjustCarry]
    by_cases same : other = entry.1
    · subst same
      simp only [↓reduceIte]
      omega
    · simp [same, Ne.symm same]

/-- Over all of a block's credits, the parts that could not be taken back add up to the sum
reported. -/
theorem unbookCredits_law {state : Window × Nat} {credited : List (String × Nat)}
    (fits : Run.Along UnbookFits unbookCredit state credited) :
    (credited.foldl unbookCredit state).2 = state.2 + ((shortParts state.1 credited).map Prod.snd).sum ∧
      ∀ other, (credited.foldl unbookCredit state).1.net other = state.1.net other -
        (tally other credited : Nat) + (tally other (shortParts state.1 credited) : Nat) := by
  induction credited generalizing state with
  | nil => simp [shortParts]
  | cons entry rest ih =>
    obtain ⟨now, later⟩ := fits
    obtain ⟨reported, moved⟩ := unbookCredit_law now
    obtain ⟨signed, unsigned, _⟩ := now
    have part : entry.2 - (state.1.carryOf entry.1 - (state.1.adjustCarry entry.1 (-clampI64 entry.2)).2) =
        entry.2 - state.1.carryOf entry.1 := by
      rw [adjustCarry_result, carryOf_takeOff signed unsigned, if_pos rfl]
      omega
    have window : (unbookCredit state entry).1 = (state.1.adjustCarry entry.1 (-clampI64 entry.2)).1 := rfl
    obtain ⟨total, nets⟩ := ih later
    refine ⟨?_, ?_⟩
    · rw [List.foldl_cons, total, reported, window]
      simp only [shortParts, part, List.map_cons, List.sum_cons]
      omega
    · intro other
      rw [List.foldl_cons, nets, moved, window]
      simp only [shortParts, part, tally_cons]
      split <;> omega

section Sides

variable (w : Window) (books : Books)

@[simp] theorem takeBackCredits_creditsLive : (takeBackCredits w books).2.1.creditsLive = false := by
  unfold takeBackCredits
  split <;> simp_all

@[simp] theorem takeBackCredits_debitsLive : (takeBackCredits w books).2.1.debitsLive = books.debitsLive := by
  unfold takeBackCredits
  split <;> rfl

@[simp] theorem takeBackCredits_debited : (takeBackCredits w books).2.1.debited = books.debited := by
  unfold takeBackCredits
  split <;> rfl

@[simp] theorem takeBackCredits_shortfall : (takeBackCredits w books).2.1.shortfall = books.shortfall := by
  unfold takeBackCredits
  split <;> rfl

@[simp] theorem giveBackDebits_debitsLive : (giveBackDebits w books).2.debitsLive = false := by
  unfold giveBackDebits
  split <;> simp_all

@[simp] theorem giveBackDebits_creditsLive : (giveBackDebits w books).2.creditsLive = books.creditsLive := by
  unfold giveBackDebits
  split <;> rfl

@[simp] theorem unbook_rebateOwedCredited (l : Ledger) :
    (l.unbook books).2.1.rebateOwedCredited = books.rebateOwedCredited := by
  simp only [Ledger.unbook, takeBackCredits, giveBackDebits]
  split <;> split <;> rfl

@[simp] theorem unbook_debitsLive (l : Ledger) : (l.unbook books).2.1.debitsLive = false := by
  simp [Ledger.unbook]

@[simp] theorem unbook_creditsLive (l : Ledger) : (l.unbook books).2.1.creditsLive = false := by
  simp [Ledger.unbook]

end Sides

end Undoing

section Record

/-- Booking payments writes the debit side of the record and leaves it live. -/
theorem bookDebits_frame (l : Ledger) (carryDelta : List (String × Int)) (books : Books) :
    ∃ debited shortfall rebateDebited, (l.bookDebits carryDelta books).2 =
      { books with debited, shortfall, rebateDebited, debitsLive := true } := by
  unfold Ledger.bookDebits
  split
  · rename_i live
    exact ⟨books.debited, books.shortfall, books.rebateDebited, by rw [← live]⟩
  · obtain ⟨debited, shortfall, same⟩ := Run.foldl_kept bookDebit
      (fun state : Window × Books => ∃ debited shortfall, state.2 = { books with debited, shortfall })
      (fun state entry ⟨debited, shortfall, same⟩ => by
        obtain ⟨debited', shortfall', next⟩ := bookDebit_frame state entry
        exact ⟨debited', shortfall', by rw [next, same]⟩)
      (s := (l.window, { books with debited := [], shortfall := [] }))
      (carryDelta.filter fun entry => entry.2 < 0) ⟨[], [], rfl⟩
    exact ⟨debited, shortfall, _, by simp only [same]; rfl⟩

/-- Booking earnings writes the credit side of the record and leaves it live. -/
theorem bookCredits_frame (l : Ledger) (carryDelta : List (String × Int)) (books : Books) :
    ∃ credited debtPaid rebateAdded, (l.bookCredits carryDelta books).2 =
      { books with credited, debtPaid, rebateAdded, creditsLive := true } := by
  unfold Ledger.bookCredits
  split
  · rename_i live
    exact ⟨books.credited, books.debtPaid, books.rebateAdded, by rw [← live]⟩
  · obtain ⟨credited, debtPaid, same⟩ := Run.foldl_kept bookCredit
      (fun state : Ledger × Books => ∃ credited debtPaid, state.2 = { books with credited, debtPaid })
      (fun state entry ⟨credited, debtPaid, same⟩ => by
        obtain ⟨credited', debtPaid', next⟩ := bookCredit_frame state entry
        exact ⟨credited', debtPaid', by rw [next, same]⟩)
      (s := (l, { books with credited := [], debtPaid := [] }))
      (carryDelta.filter fun entry => 0 < entry.2) ⟨[], [], rfl⟩
    exact ⟨credited, debtPaid, _, by simp only [same]; rfl⟩

variable (l : Ledger) (carryDelta : List (String × Int)) (books : Books)

theorem rebateOwed_bookDebit (state : Window × Books) (entry : String × Int) :
    (bookDebit state entry).1.rebateOwed = state.1.rebateOwed := by
  obtain ⟨w, books⟩ := state
  simp only [bookDebit]
  split
  · split <;> simp
  · split <;> simp

/-- Taking an amount off the owed rebate takes what there is of it, as far as the signed range goes. -/
private theorem rebateOwed_drawn (w : Window) (sats : Nat) :
    min w.rebateOwed (min sats i64Max) ≤ w.rebateOwed - (w.adjustRebateOwed (-clampI64 sats)).rebateOwed ∧
      (sats ≠ 0 → w.rebateOwed - (w.adjustRebateOwed (-clampI64 sats)).rebateOwed ≤ min sats i64Max) := by
  rcases Nat.eq_zero_or_pos sats with rfl | positive
  · simp
  · have below : -clampI64 sats < 0 := by
      unfold clampI64 i64Max
      omega
    simp only [adjustRebateOwed, if_pos below, Int.natAbs_neg, clampI64_natAbs]
    omega

/-- What a booking draws of the owed rebate is what is left of it, up to what the block credits out. -/
theorem bookDebits_rebateDebited (unbooked : books.debitsLive = false) :
    min l.window.rebateOwed (min books.rebateOwedCredited i64Max) ≤
      (l.bookDebits carryDelta books).2.rebateDebited ∧ (books.rebateOwedCredited ≠ 0 →
        (l.bookDebits carryDelta books).2.rebateDebited ≤ min books.rebateOwedCredited i64Max) := by
  have kept : ∀ (state : Window × Books) entry,
      (bookDebit state entry).2.rebateOwedCredited = state.2.rebateOwedCredited := by
    intro state entry
    obtain ⟨debited, shortfall, same⟩ := bookDebit_frame state entry
    rw [same]
  have owed := Run.foldl_unmoved (fun state : Window × Books => state.1.rebateOwed) rebateOwed_bookDebit
    (l.window, { books with debited := [], shortfall := [] }) (carryDelta.filter fun entry => entry.2 < 0)
  have credited := Run.foldl_unmoved (fun state : Window × Books => state.2.rebateOwedCredited) kept
    (l.window, { books with debited := [], shortfall := [] }) (carryDelta.filter fun entry => entry.2 < 0)
  unfold Ledger.bookDebits
  rw [if_neg (by simp [unbooked])]
  generalize (carryDelta.filter fun entry => entry.2 < 0).foldl bookDebit _ = booked at owed credited ⊢
  simp only at owed credited
  rw [← owed, ← credited]
  exact rebateOwed_drawn booked.1 booked.2.rebateOwedCredited

@[simp] theorem bookDebits_debitsLive : (l.bookDebits carryDelta books).2.debitsLive = true := by
  obtain ⟨debited, shortfall, rebateDebited, same⟩ := bookDebits_frame l carryDelta books
  rw [same]

@[simp] theorem bookDebits_creditsLive : (l.bookDebits carryDelta books).2.creditsLive = books.creditsLive := by
  obtain ⟨debited, shortfall, rebateDebited, same⟩ := bookDebits_frame l carryDelta books
  rw [same]

@[simp] theorem bookCredits_creditsLive : (l.bookCredits carryDelta books).2.creditsLive = true := by
  obtain ⟨credited, debtPaid, rebateAdded, same⟩ := bookCredits_frame l carryDelta books
  rw [same]

@[simp] theorem bookCredits_debitsLive : (l.bookCredits carryDelta books).2.debitsLive = books.debitsLive := by
  obtain ⟨credited, debtPaid, rebateAdded, same⟩ := bookCredits_frame l carryDelta books
  rw [same]

end Record

section Holding

/-- A stale balance is the identity's whole carry. -/
theorem carryOf_stale {w : Window} {balance : StaleCarry} (member : balance ∈ w.staleCarries now after least) :
    w.carryOf balance.identity = balance.sats := by
  obtain ⟨entry, filed, found⟩ := List.mem_filterMap.mp (List.mem_insertionSort _ |>.mp member)
  simp only at found
  split at found
  · obtain ⟨identity, named, rfl⟩ := Option.map_eq_some_iff.mp found
    have lookup : w.carry.lookup entry.1 = some entry.2 := (List.mem_dlookup_iff w.carry.nodupKeys).mpr filed
    simp [carryOf, amount, position_name? named, lookup]
  · cases found

/-- A requested entry is passed over, or it names a stale balance not taken before and is taken. -/
theorem holdEntry_cases (stale : List StaleCarry) (w : Window) (held : List (String × Nat))
    (skipped : List HoldSkip) (entry : String × Nat) :
    (∃ skip : HoldSkip, (skip.identity, skip.requested) = entry ∧
        holdEntry stale (w, held, skipped) entry = (w, held, skipped ++ [skip])) ∨
      ((∀ taken ∈ held, taken.1 ≠ entry.1) ∧ entry.2 ≠ 0 ∧
        (∃ balance ∈ stale, balance.identity = entry.1 ∧ balance.sats = entry.2) ∧
        holdEntry stale (w, held, skipped) entry =
          ((w.adjustCarry entry.1 (-asI64 entry.2)).1, held ++ [entry], skipped)) := by
  simp only [holdEntry]
  split
  · exact .inl ⟨_, rfl, rfl⟩
  · rename_i accepted
    split at accepted
    · cases accepted
    · rename_i fresh
      split at accepted
      · cases accepted
      · rename_i requested
        split at accepted
        · cases accepted
        · rename_i balance found
          split at accepted
          · cases accepted
          · rename_i same
            refine .inr
              ⟨?_, requested, ⟨balance, List.mem_of_find?_eq_some found, ?_, by simpa using same⟩, rfl⟩
            · intro taken member equal
              exact fresh (List.any_eq_true.mpr ⟨taken, member, by simp [equal]⟩)
            · simpa using List.find?_some found

/-- Setting a balance aside stays below the bounds. -/
def HoldFits (state : Window × List (String × Nat) × List HoldSkip) (entry : String × Nat) : Prop :=
  state.1.carryOf entry.1 = entry.2 → entry.2 ≤ i64Max

instance (state : Window × List (String × Nat) × List HoldSkip) (entry : String × Nat) :
    Decidable (HoldFits state entry) := inferInstanceAs (Decidable (_ → _))

/-- Between two entries of a hold: debts and holds stand still, and an identity not set aside keeps
its carry. -/
structure Untaken (start : Window) (state : Window × List (String × Nat) × List HoldSkip) : Prop where
  untouched : ∀ identity, (∀ taken ∈ state.2.1, taken.1 ≠ identity) →
    state.1.carryOf identity = start.carryOf identity
  debts : ∀ identity, state.1.debtOf identity = start.debtOf identity
  holds : state.1.holds = start.holds

theorem Untaken.refl (w : Window) : Untaken w (w, [], []) := ⟨fun _ _ => rfl, fun _ => rfl, rfl⟩

theorem Untaken.entry {start : Window} {stale : List StaleCarry}
    {state : Window × List (String × Nat) × List HoldSkip} (untaken : Untaken start state)
    (entry : String × Nat) :
    Untaken start (holdEntry stale state entry) := by
  obtain ⟨w, held, skipped⟩ := state
  rcases holdEntry_cases stale w held skipped entry with ⟨skip, _, same⟩ | ⟨_, _, _, taken⟩
  · rw [same]
    exact ⟨untaken.untouched, untaken.debts, untaken.holds⟩
  · rw [taken]
    refine ⟨?_, ?_, ?_⟩
    · intro identity absent
      have different : identity ≠ entry.1 := fun same => absent entry (by simp) same.symm
      rw [carryOf_adjustCarry, if_neg different]
      exact untaken.untouched identity fun other member => absent other (by simp [member])
    · intro identity
      rw [debtOf_adjustCarry]
      exact untaken.debts identity
    · rw [holds_adjustCarry]
      exact untaken.holds

/-- An entry that is taken is its identity's whole carry. -/
theorem Untaken.whole {start w : Window} {stale : List StaleCarry} {held : List (String × Nat)}
    {skipped : List HoldSkip} {entry : String × Nat} (untaken : Untaken start (w, held, skipped))
    (whole : ∀ balance ∈ stale, start.carryOf balance.identity = balance.sats)
    (fresh : ∀ taken ∈ held, taken.1 ≠ entry.1)
    (listed : ∃ balance ∈ stale, balance.identity = entry.1 ∧ balance.sats = entry.2) :
    w.carryOf entry.1 = entry.2 := by
  obtain ⟨balance, member, named, sats⟩ := listed
  have kept : w.carryOf entry.1 = start.carryOf entry.1 := untaken.untouched entry.1 fresh
  rw [kept, ← named, whole balance member, sats]

/-- What has left the carry is what has been set aside. -/
structure Holding (start : Window) (state : Window × List (String × Nat) × List HoldSkip) : Prop
    extends Untaken start state where
  moved : ∀ identity, state.1.carryOf identity + tally identity state.2.1 = start.carryOf identity

theorem Holding.refl (w : Window) : Holding w (w, [], []) := ⟨Untaken.refl w, fun _ => rfl⟩

theorem Holding.entry {start : Window} {stale : List StaleCarry}
    (whole : ∀ balance ∈ stale, start.carryOf balance.identity = balance.sats)
    (state : Window × List (String × Nat) × List HoldSkip) (entry : String × Nat)
    (holding : Holding start state) (fits : HoldFits state entry) :
    Holding start (holdEntry stale state entry) := by
  refine ⟨holding.toUntaken.entry entry, ?_⟩
  obtain ⟨w, held, skipped⟩ := state
  rcases holdEntry_cases stale w held skipped entry with ⟨skip, _, same⟩ | ⟨fresh, _, listed, taken⟩
  · rw [same]
    exact holding.moved
  · have all : w.carryOf entry.1 = entry.2 := holding.toUntaken.whole whole fresh listed
    have signed : asI64 entry.2 = entry.2 := asI64_eq (fits all)
    intro identity
    have before := holding.moved identity
    rw [taken]
    simp only [signed, carryOf_adjustCarry, tally_append, tally_cons, tally_nil, Nat.add_zero] at before ⊢
    by_cases same : identity = entry.1
    · subst same
      simp only [↓reduceIte]
      split
      · omega
      · omega
    · simp only [same, Ne.symm same, ↓reduceIte]
      omega

end Holding

end Lazarus.Tides
