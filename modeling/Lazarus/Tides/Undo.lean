import Lazarus.Tides.Exclusive
import Lazarus.Tides.LedgerLaw

/-! Undoing a block that was just booked. Each step of booking writes down what it moved, and undoing
replays the record in another order; since nobody is creditor and debtor at once, what everybody is
owed in the end fixes both balances. -/

namespace Lazarus.Tides

open Machine Tally Window

/-- Everybody's carry and debt and the owed rebate are the same in two windows. -/
structure Window.Agrees (w w' : Window) : Prop where
  carry : ∀ identity, w.carryOf identity = w'.carryOf identity
  debt : ∀ identity, w.debtOf identity = w'.debtOf identity
  rebate : w.rebateOwed = w'.rebateOwed

/-- Every balance is in the range of its type. -/
structure Window.InRange (w : Window) : Prop where
  carry : ∀ identity, w.carryOf identity ≤ u64Max
  debt : ∀ identity, w.debtOf identity ≤ u64Max
  rebate : w.rebateOwed ≤ u64Max

section Rebate

variable {w : Window} (inRange : w.rebateOwed ≤ u64Max) (sats : Nat)

include inRange in
theorem rebateOwed_down :
    (w.adjustRebateOwed (-clampI64 sats)).rebateOwed = w.rebateOwed - min sats i64Max := by
  rcases Nat.eq_zero_or_pos sats with rfl | positive
  · have kept : satAdd w.rebateOwed 0 = w.rebateOwed := satAdd_eq inRange
    simpa [adjustRebateOwed] using kept
  · have below : -clampI64 sats < 0 := by
      unfold clampI64 i64Max
      omega
    simp only [adjustRebateOwed, if_pos below, Int.natAbs_neg, clampI64_natAbs]

private theorem rebateOwed_up : (w.adjustRebateOwed (clampI64 sats)).rebateOwed = satAdd w.rebateOwed
    (min sats i64Max) := by
  have above : ¬ clampI64 sats < 0 := by
    have := clampI64_nonneg (n := sats)
    omega
  simp only [adjustRebateOwed, if_neg above, clampI64_natAbs]

end Rebate

section Debits

/-- No debt runs past the top of its type when a block's payments are booked. -/
def DebtFits (w : Window) (carryDelta : List (String × Int)) : Prop :=
  ∀ identity, w.debtOf identity + (negative identity carryDelta - w.carryOf identity) ≤ u64Max

private theorem debitsFit_along {payments : List (String × Int)} (below : ∀ entry ∈ payments, entry.2 < 0)
    (state : Window × Books) (fits : DebtFits state.1 payments) :
    Run.Along (fun state entry => DebitFits state.1 entry) bookDebit state payments := by
  induction payments generalizing state with
  | nil => trivial
  | cons entry rest ih =>
    obtain ⟨w, books⟩ := state
    have paid := below entry (by simp)
    have here := fits entry.1
    simp only [negative, List.map_cons, tally_cons, ↓reduceIte] at here
    have bound := drawn_le w entry
    have first : DebitFits w entry := by
      unfold DebitFits overpaid
      omega
    refine ⟨first, ih (fun other member => below other (by simp [member])) _ ?_⟩
    intro identity
    have before := fits identity
    simp only [negative, List.map_cons, tally_cons] at before ⊢
    rw [carryOf_bookDebit w books paid, debtOf_bookDebit w books paid, satAdd_eq first]
    by_cases same : identity = entry.1
    · subst same
      simp only [true_and, ↓reduceIte] at before ⊢
      unfold overpaid
      split <;> omega
    · simp only [same, Ne.symm same, false_and, ↓reduceIte, Nat.zero_add] at before ⊢
      exact before

theorem negative_filter (identity : String) (carryDelta : List (String × Int)) :
    negative identity (carryDelta.filter fun entry => entry.2 < 0) = negative identity carryDelta := by
  induction carryDelta with
  | nil => rfl
  | cons entry rest ih =>
    unfold negative at ih ⊢
    by_cases below : entry.2 < 0
    · simp [below, ih]
    · have nothing : (-entry.2).toNat = 0 := by omega
      simp [below, ih, nothing]

private theorem debitsFit_of_debtFits {w : Window} {carryDelta : List (String × Int)}
    (fits : DebtFits w carryDelta) (books : Books) : DebitsFit w carryDelta books := by
  intro _
  apply debitsFit_along
  · intro entry member
    simpa using (List.mem_filter.mp member).2
  · intro identity
    rw [negative_filter]
    exact fits identity

/-- An amount filed by a booked payment is no larger than the payment. -/
def PartOf (carryDelta : List (String × Int)) (entry : String × Nat) : Prop :=
  ∃ payment ∈ carryDelta, payment.1 = entry.1 ∧ payment.2 < 0 ∧ entry.2 ≤ payment.2.natAbs

private theorem partOf_bookDebit {carryDelta : List (String × Int)} {state : Window × Books}
    {entry : String × Int} (member : entry ∈ carryDelta) (below : entry.2 < 0)
    (filed : ∀ part ∈ state.2.debited ++ state.2.shortfall, PartOf carryDelta part) :
    ∀ part ∈ (bookDebit state entry).2.debited ++ (bookDebit state entry).2.shortfall,
      PartOf carryDelta part := by
  obtain ⟨w, books⟩ := state
  have own : ∀ sats ≤ entry.2.natAbs, PartOf carryDelta (entry.1, sats) :=
    fun sats most => ⟨entry, member, rfl, below, most⟩
  have least : overpaid w entry ≤ entry.2.natAbs := by
    unfold overpaid
    omega
  have piece : ∀ (sats : Nat) (part : String × Nat), sats ≤ entry.2.natAbs →
      part ∈ (if 0 < sats then [(entry.1, sats)] else []) → PartOf carryDelta part := by
    intro sats part most listed
    split at listed
    · rw [List.mem_singleton.mp listed]
      exact own sats most
    · cases listed
  intro part listed
  simp only [bookDebit_eq w books below, List.mem_append] at listed
  rcases listed with (old | new) | old | new
  · exact filed part (List.mem_append_left _ old)
  · exact piece _ part (Nat.sub_le _ _) new
  · exact filed part (List.mem_append_right _ old)
  · exact piece _ part least new

private theorem partOf_bookDebits (l : Ledger) (carryDelta : List (String × Int)) {books : Books}
    (unbooked : books.debitsLive = false) :
    ∀ part ∈ (l.bookDebits carryDelta books).2.debited ++ (l.bookDebits carryDelta books).2.shortfall,
      PartOf carryDelta part := by
  unfold Ledger.bookDebits
  rw [if_neg (by simp [unbooked])]
  refine Run.foldl_mem bookDebit (fun state : Window × Books =>
    ∀ part ∈ state.2.debited ++ state.2.shortfall, PartOf carryDelta part) ?_ (by simp)
  intro state entry listed filed
  obtain ⟨member, below⟩ := List.mem_filter.mp listed
  exact partOf_bookDebit member (by simpa using below) filed

/-- What stands between a window and the one a block's payments were booked on. -/
structure Paid (start : Window) (w : Window) (books : Books) : Prop where
  live : books.debitsLive = true
  exclusive : w.Exclusive
  inRange : w.InRange
  owing : ∀ identity, (w.carryOf identity : Int) - w.debtOf identity +
    (tally identity (books.debited ++ books.shortfall) : Nat) = start.carryOf identity - start.debtOf identity
  signed : ∀ part ∈ books.debited ++ books.shortfall, part.2 ≤ i64Max ∨ start.carryOf part.1 ≤ i64Max
  rebate : w.rebateOwed + books.rebateDebited = start.rebateOwed ∧ books.rebateDebited ≤ i64Max

theorem Paid.of_debits {start w : Window} {books : Books} (paid : Paid start w books) (books' : Books)
    (live : books'.debitsLive = books.debitsLive) (debited : books'.debited = books.debited)
    (shortfall : books'.shortfall = books.shortfall) (rebate : books'.rebateDebited = books.rebateDebited) :
    Paid start w books' where
  live := live.trans paid.live
  exclusive := paid.exclusive
  inRange := paid.inRange
  owing := by rw [debited, shortfall]; exact paid.owing
  signed := by rw [debited, shortfall]; exact paid.signed
  rebate := by rw [rebate]; exact paid.rebate

variable {l : Ledger} {carryDelta : List (String × Int)} {books : Books}

private theorem inRange_bookDebits (inRange : l.window.InRange) (unbooked : books.debitsLive = false) :
    (l.bookDebits carryDelta books).1.window.InRange := by
  have along := (Run.along_of_forall bookDebit (fun _ _ => trivial)
    (l.window, { books with debited := [], shortfall := [] })
    (carryDelta.filter fun entry => entry.2 < 0)).and_mem (fun entry => entry.2 < 0)
    fun entry member => by simpa using (List.mem_filter.mp member).2
  have kept : (((carryDelta.filter fun entry => entry.2 < 0).foldl bookDebit
      (l.window, { books with debited := [], shortfall := [] })).1).InRange := by
    refine Run.foldl_invariant (fun state : Window × Books => state.1.InRange) ?_ along inRange
    intro state entry inRange allowed
    obtain ⟨w, books⟩ := state
    refine ⟨?_, ?_, by rw [rebateOwed_bookDebit]; exact inRange.rebate⟩
    · intro identity
      rw [carryOf_bookDebit w books allowed.2]
      split
      · exact Nat.le_trans (Nat.sub_le _ _) (inRange.carry entry.1)
      · exact inRange.carry identity
    · intro identity
      rw [debtOf_bookDebit w books allowed.2]
      split
      · exact Nat.min_le_right _ _
      · exact inRange.debt identity
  unfold Ledger.bookDebits
  rw [if_neg (by simp [unbooked])]
  refine ⟨kept.carry, kept.debt, ?_⟩
  simp only
  rw [rebateOwed_down kept.rebate]
  exact Nat.le_trans (Nat.sub_le _ _) kept.rebate

private theorem paid_bookDebits (inRange : l.window.InRange) (exclusive : l.window.Exclusive)
    (unbooked : books.debitsLive = false) (fits : DebtFits l.window carryDelta)
    (signed : ∀ entry ∈ carryDelta, -(i64Max : Int) ≤ entry.2 ∨ l.window.carryOf entry.1 ≤ i64Max)
    (undrawn : ∀ identity,
      (l.bookDebits carryDelta books).1.window.heldOf identity = l.window.heldOf identity) :
    Paid l.window (l.bookDebits carryDelta books).1.window (l.bookDebits carryDelta books).2 where
  live := bookDebits_debitsLive l carryDelta books
  exclusive := bookDebits_exclusive exclusive carryDelta books
  inRange := inRange_bookDebits inRange unbooked
  owing := by
    intro identity
    obtain ⟨owed, recorded⟩ := bookDebits_law (debitsFit_of_debtFits fits books) unbooked identity
    have held := undrawn identity
    rw [tally_append, recorded]
    unfold net at owed
    omega
  signed := by
    intro part listed
    obtain ⟨payment, member, named, below, most⟩ := partOf_bookDebits l carryDelta unbooked part listed
    rw [← named]
    refine (signed payment member).imp_left ?_
    intro least
    omega
  rebate := by
    have kept := Run.foldl_unmoved (fun state : Window × Books => state.1.rebateOwed) rebateOwed_bookDebit
      (l.window, { books with debited := [], shortfall := [] }) (carryDelta.filter fun entry => entry.2 < 0)
    unfold Ledger.bookDebits
    rw [if_neg (by simp [unbooked])]
    generalize (carryDelta.filter fun entry => entry.2 < 0).foldl bookDebit _ = booked at kept ⊢
    simp only at kept ⊢
    rw [rebateOwed_down (kept ▸ inRange.rebate), kept]
    omega

end Debits

section GiveBack

/-- Putting sats back moves what an identity is owed by as much, when the carry it ends with is in range. -/
private theorem owed_restoreCarry {w : Window} (exclusive : w.Exclusive) (entry : String × Nat) (target : Int)
    (reaches : (w.carryOf entry.1 : Int) - w.debtOf entry.1 + entry.2 ≤ target) (inRange : target ≤ u64Max)
    (signed : entry.2 ≤ i64Max ∨ target ≤ i64Max) (identity : String) :
    ((w.restoreCarry entry.1 entry.2).1.carryOf identity : Int) -
      (w.restoreCarry entry.1 entry.2).1.debtOf identity =
      w.carryOf identity - w.debtOf identity + (if entry.1 = identity then entry.2 else 0 : Nat) := by
  rw [carryOf_restoreCarry, debtOf_restoreCarry]
  by_cases same : identity = entry.1
  · subst same
    have one := exclusive entry.1
    simp only [true_and, ↓reduceIte]
    by_cases beyond : w.debtOf entry.1 < entry.2
    · have rest : entry.2 - w.debtOf entry.1 ≤ i64Max := by omega
      have whole : w.carryOf entry.1 + (entry.2 - w.debtOf entry.1) ≤ u64Max := by omega
      rw [if_pos beyond, Nat.min_eq_left rest, satAdd_eq whole]
      omega
    · rw [if_neg beyond]
      omega
  · simp [same, Ne.symm same]

private theorem restoreAll (parts : List (String × Nat)) {w : Window} (exclusive : w.Exclusive)
    (target : String → Int) (reaches : ∀ identity,
      (w.carryOf identity : Int) - w.debtOf identity + (tally identity parts : Nat) = target identity)
    (inRange : ∀ identity, target identity ≤ u64Max)
    (signed : ∀ part ∈ parts, part.2 ≤ i64Max ∨ target part.1 ≤ i64Max) :
    let after := parts.foldl (fun w part => (w.restoreCarry part.1 part.2).1) w
    after.Exclusive ∧ (∀ identity, (after.carryOf identity : Int) - after.debtOf identity = target identity) ∧
      after.rebateOwed = w.rebateOwed := by
  induction parts generalizing w with
  | nil => exact ⟨exclusive, fun identity => by simpa using reaches identity, rfl⟩
  | cons part rest ih =>
    have here := reaches part.1
    rw [tally_cons, if_pos rfl] at here
    have step := owed_restoreCarry exclusive part (target part.1) (by omega) (inRange part.1)
      (signed part (by simp))
    have later := ih (exclusive.restoreCarry part.1 part.2) (fun identity => by
        have before := reaches identity
        rw [tally_cons] at before
        rw [step]
        push_cast at before ⊢
        omega) (fun other member => signed other (by simp [member]))
    simp only [List.foldl_cons]
    refine ⟨later.1, later.2.1, ?_⟩
    rw [later.2.2]
    exact rebateOwed_restoreCarry w part.1 part.2

/-- Giving a block's payments back undoes their booking. -/
theorem Paid.giveBack {start w : Window} {books : Books} (paid : Paid start w books) (inRange : start.InRange)
    (exclusive : start.Exclusive) {w' : Window} (agrees : w'.Agrees w) :
    (giveBackDebits w' books).1.Agrees start := by
  have shape : (giveBackDebits w' books).1 = ((books.debited ++ books.shortfall).foldl
      (fun w part => (w.restoreCarry part.1 part.2).1) w').adjustRebateOwed (clampI64 books.rebateDebited) := by
    simp only [giveBackDebits, paid.live, ↓reduceIte, List.foldl_append, forgiveDebt_eq]
  have sameExclusive : w'.Exclusive := by
    intro identity
    rw [agrees.carry, agrees.debt]
    exact paid.exclusive identity
  obtain ⟨after, owed, rebate⟩ := restoreAll (books.debited ++ books.shortfall) sameExclusive
    (fun identity => start.carryOf identity - start.debtOf identity)
    (fun identity => by rw [agrees.carry, agrees.debt]; exact paid.owing identity)
    (fun identity => by have most := inRange.carry identity; omega)
    (fun part member => (paid.signed part member).imp_right fun most => by omega)
  obtain ⟨whole, few⟩ := paid.rebate
  rw [shape]
  refine ⟨?_, ?_, ?_⟩
  · intro identity
    have one := after identity
    have other := exclusive identity
    have same := owed identity
    rw [carryOf_adjustRebateOwed]
    omega
  · intro identity
    have one := after identity
    have other := exclusive identity
    have same := owed identity
    rw [debtOf_adjustRebateOwed]
    omega
  · have most : w.rebateOwed + books.rebateDebited ≤ u64Max := whole ▸ inRange.rebate
    rw [rebateOwed_up, rebate, agrees.rebate, Nat.min_eq_left few, satAdd_eq most, whole]

end GiveBack

section Credits

variable {l : Ledger} {books : Books}

/-- What booking an earning adds to a carry, which the top of its type may cut short. -/
def raise (w : Window) (entry : String × Int) : Nat :=
  satAdd (w.carryOf entry.1) (min (entry.2.natAbs - w.debtOf entry.1) i64Max) - w.carryOf entry.1

private theorem bookCredit_eq (inRange : l.window.carryOf entry.1 ≤ u64Max) :
    (bookCredit (l, books) entry).2 =
      { books with
        debtPaid := books.debtPaid ++
          if 0 < min (l.window.debtOf entry.1) entry.2.natAbs then
            [(entry.1, min (l.window.debtOf entry.1) entry.2.natAbs)]
          else []
        credited := books.credited ++ if 0 < raise l.window entry then
          [(entry.1, raise l.window entry)] else [] } := by
  have onto : entry.2.natAbs - min (l.window.debtOf entry.1) entry.2.natAbs =
      entry.2.natAbs - l.window.debtOf entry.1 := by omega
  have raised : (if 0 < entry.2.natAbs - l.window.debtOf entry.1 then
      (l.window.reduceDebt entry.1 entry.2.natAbs).1.adjustCarry entry.1
        (clampI64 (entry.2.natAbs - l.window.debtOf entry.1))
      else ((l.window.reduceDebt entry.1 entry.2.natAbs).1, l.window.carryOf entry.1)).2 =
      satAdd (l.window.carryOf entry.1) (min (entry.2.natAbs - l.window.debtOf entry.1) i64Max) := by
    split
    · rw [adjustCarry_result, carryOf_adjustCarry, if_pos rfl, if_pos clampI64_nonneg, clampI64_natAbs,
        carryOf_reduceDebt]
    · rename_i nothing
      rw [Nat.eq_zero_of_not_pos nothing, Nat.zero_min, satAdd_eq inRange, Nat.add_zero]
  have more : ∀ total : Nat, l.window.carryOf entry.1 < total ↔ 0 < total - l.window.carryOf entry.1 := by
    intro total
    omega
  simp only [bookCredit, reduceDebt_taken, onto, carryOf_reduceDebt, raised, more]
  unfold raise
  generalize min (l.window.debtOf entry.1) entry.2.natAbs = paid
  generalize satAdd (l.window.carryOf entry.1) _ - l.window.carryOf entry.1 = put
  rcases Nat.eq_zero_or_pos paid with rfl | somePaid <;> rcases Nat.eq_zero_or_pos put with rfl | somePut
  · simp
  · simp [somePut]
  · simp [somePaid]
  · simp [somePaid, somePut]

/-- What stands between a window and the one a block's earnings were booked on. -/
structure Earned (start : Window) (w : Window) (books : Books) : Prop where
  inRange : ∀ identity, w.carryOf identity ≤ u64Max
  carry : ∀ identity, w.carryOf identity = start.carryOf identity + tally identity books.credited
  debt : ∀ identity, w.debtOf identity + tally identity books.debtPaid = start.debtOf identity
  signed : ∀ part ∈ books.credited, part.2 ≤ i64Max

theorem Earned.bookCredit {start : Window} (earned : Earned start l.window books) (entry : String × Int) :
    Earned start (bookCredit (l, books) entry).1.window (bookCredit (l, books) entry).2 := by
  have own := earned.inRange entry.1
  have top : l.window.carryOf entry.1 ≤ satAdd (l.window.carryOf entry.1)
      (min (entry.2.natAbs - l.window.debtOf entry.1) i64Max) := le_satAdd_left own
  rw [bookCredit_window, bookCredit_eq own]
  refine ⟨?_, ?_, ?_, ?_⟩
  · intro identity
    rw [carryOf_restoreCarry]
    split
    · exact Nat.min_le_right _ _
    · exact earned.inRange identity
  · intro identity
    have before := earned.carry identity
    rw [carryOf_restoreCarry, tally_append, tally_if]
    by_cases same : identity = entry.1
    · subst same
      simp only [true_and, ↓reduceIte, raise]
      split
      · omega
      · rename_i covered
        have nothing : entry.2.natAbs - l.window.debtOf entry.1 = 0 := by omega
        rw [nothing, Nat.zero_min, satAdd_eq own]
        omega
    · simp only [same, Ne.symm same, false_and, ↓reduceIte]
      omega
  · intro identity
    have before := earned.debt identity
    rw [debtOf_restoreCarry, tally_append, tally_if]
    by_cases same : identity = entry.1
    · subst same
      simp only [↓reduceIte]
      omega
    · simp only [same, Ne.symm same, ↓reduceIte]
      omega
  · intro part listed
    rcases List.mem_append.mp listed with old | new
    · exact earned.signed part old
    · split at new
      · rw [List.mem_singleton.mp new]
        have most := satAdd_le (a := l.window.carryOf entry.1)
          (b := min (entry.2.natAbs - l.window.debtOf entry.1) i64Max)
        simp only [raise]
        omega
      · cases new

private theorem rebateOwed_bookCredit (state : Ledger × Books) (entry : String × Int) :
    (bookCredit state entry).1.window.rebateOwed = state.1.window.rebateOwed := by
  rw [bookCredit_window]
  exact rebateOwed_restoreCarry state.1.window entry.1 entry.2.natAbs

private theorem earned_bookCredits (inRange : l.window.InRange) (carryDelta : List (String × Int))
    (unbooked : books.creditsLive = false) :
    Earned l.window (l.bookCredits carryDelta books).1.window (l.bookCredits carryDelta books).2 ∧
      (l.bookCredits carryDelta books).1.window.rebateOwed =
        l.window.rebateOwed + (l.bookCredits carryDelta books).2.rebateAdded ∧
      (l.bookCredits carryDelta books).1.window.rebateOwed ≤ u64Max ∧
      (l.bookCredits carryDelta books).2.rebateAdded ≤ i64Max := by
  have start : Earned l.window l.window { books with credited := [], debtPaid := [] } :=
    ⟨inRange.carry, by simp, by simp, by simp⟩
  have earned :=
    Run.foldl_kept bookCredit (fun state : Ledger × Books => Earned l.window state.1.window state.2)
    (fun state entry earned => earned.bookCredit entry)
      (s := (l, { books with credited := [], debtPaid := [] }))
    (carryDelta.filter fun entry => 0 < entry.2) start
  have owed := Run.foldl_unmoved (fun state : Ledger × Books => state.1.window.rebateOwed) rebateOwed_bookCredit
    (l, { books with credited := [], debtPaid := [] }) (carryDelta.filter fun entry => 0 < entry.2)
  unfold Ledger.bookCredits
  rw [if_neg (by simp [unbooked])]
  generalize (carryDelta.filter fun entry => 0 < entry.2).foldl bookCredit _ = booked at earned owed ⊢
  simp only at owed ⊢
  have least := le_satAdd_left (a := booked.1.window.rebateOwed) (b := min booked.2.rebateDeferred i64Max)
    (owed ▸ inRange.rebate)
  have most := satAdd_le (a := booked.1.window.rebateOwed) (b := min booked.2.rebateDeferred i64Max)
  rw [rebateOwed_up, ← owed]
  refine ⟨⟨earned.inRange, earned.carry, earned.debt, earned.signed⟩, by omega, Nat.min_le_right _ _, by omega⟩

end Credits

section TakeBack

private theorem unbookCredits_exact (parts : List (String × Nat)) {w : Window}
    (there : ∀ identity, tally identity parts ≤ w.carryOf identity)
    (inRange : ∀ identity, w.carryOf identity ≤ u64Max)
    (signed : ∀ part ∈ parts, part.2 ≤ i64Max) :
    let after := parts.foldl unbookCredit (w, 0)
    after.2 = 0 ∧ (∀ identity, after.1.carryOf identity + tally identity parts = w.carryOf identity) ∧
      (∀ identity, after.1.debtOf identity = w.debtOf identity) ∧ after.1.rebateOwed = w.rebateOwed := by
  induction parts generalizing w with
  | nil => simp
  | cons part rest ih =>
    have few := signed part (by simp)
    have own := there part.1
    rw [tally_cons, if_pos rfl] at own
    have off : ∀ identity, (w.adjustCarry part.1 (-clampI64 part.2)).1.carryOf identity =
        if identity = part.1 then w.carryOf part.1 - part.2 else w.carryOf identity :=
      carryOf_takeOff few (inRange part.1)
    have none : (unbookCredit (w, 0) part).2 = 0 := by
      simp only [unbookCredit, adjustCarry_result, off, ↓reduceIte]
      rw [satAdd_eq_zero]
      exact ⟨rfl, by omega⟩
    have step : unbookCredit (w, 0) part = ((w.adjustCarry part.1 (-clampI64 part.2)).1, 0) := Prod.ext rfl none
    have lower :
        ∀ identity, (w.adjustCarry part.1 (-clampI64 part.2)).1.carryOf identity ≤ w.carryOf identity := by
      intro identity
      rw [off]
      split
      · rename_i same
        rw [same]
        exact Nat.sub_le _ _
      · exact Nat.le_refl _
    obtain ⟨short, carry, debt, rebate⟩ :=
      ih (w := (w.adjustCarry part.1 (-clampI64 part.2)).1) (fun identity => by
        have before := there identity
        rw [tally_cons] at before
        rw [off]
        by_cases same : identity = part.1
        · subst same
          simp only [↓reduceIte] at before ⊢
          omega
        · simpa [same, Ne.symm same] using before)
      (fun identity => Nat.le_trans (lower identity) (inRange identity))
        (fun other member => signed other (by simp [member]))
    simp only [List.foldl_cons, step]
    refine ⟨short, ?_, ?_, ?_⟩
    · intro identity
      have later := carry identity
      rw [off] at later
      rw [tally_cons]
      by_cases same : identity = part.1
      · subst same
        simp only [↓reduceIte] at later ⊢
        omega
      · simpa [same, Ne.symm same] using later
    · intro identity
      rw [debt, debtOf_adjustCarry]
    · rw [rebate, rebateOwed_adjustCarry]

private theorem restoreDebts_exact (parts : List (String × Nat)) {w : Window}
    (bare : ∀ identity, tally identity parts ≠ 0 → w.carryOf identity = 0)
    (inRange : ∀ identity, w.debtOf identity + tally identity parts ≤ u64Max) :
    let after := parts.foldl (fun w part => w.restoreDebt part.1 part.2) w
    (∀ identity, after.carryOf identity = w.carryOf identity) ∧
      (∀ identity, after.debtOf identity = w.debtOf identity + tally identity parts) ∧
      after.rebateOwed = w.rebateOwed := by
  induction parts generalizing w with
  | nil => simp
  | cons part rest ih =>
    have own := inRange part.1
    have empty := bare part.1
    rw [tally_cons, if_pos rfl] at own empty
    have carries : ∀ identity, (w.restoreDebt part.1 part.2).carryOf identity = w.carryOf identity := by
      intro identity
      rw [carryOf_restoreDebt]
      split
      · rename_i same
        rw [same]
        omega
      · rfl
    have debts : ∀ identity, (w.restoreDebt part.1 part.2).debtOf identity =
        w.debtOf identity + if part.1 = identity then part.2 else 0 := by
      intro identity
      rw [debtOf_restoreDebt]
      by_cases same : identity = part.1
      · subst same
        simp only [true_and, ↓reduceIte]
        split
        · have zero : w.carryOf part.1 = 0 := empty (by omega)
          rw [zero, Nat.sub_zero, satAdd_eq (by omega)]
        · rename_i covered
          have nothing : part.2 = 0 := by omega
          rw [nothing, Nat.add_zero]
      · simp [same, Ne.symm same]
    obtain ⟨carry, debt, rebate⟩ := ih (w := w.restoreDebt part.1 part.2) (fun identity some => by
        rw [carries]
        exact bare identity (by rw [tally_cons]; omega))
      (fun identity => by
        have before := inRange identity
        rw [tally_cons] at before
        rw [debts]
        omega)
    simp only [List.foldl_cons]
    refine ⟨?_, ?_, ?_⟩
    · intro identity
      rw [carry, carries]
    · intro identity
      rw [debt, debts, tally_cons]
      omega
    · rw [rebate, rebateOwed_restoreDebt]

/-- Taking a block's earnings back undoes their booking. -/
theorem Earned.takeBack {start w : Window} {books : Books} (earned : Earned start w books)
    (inRange : start.InRange) (exclusive : start.Exclusive) (live : books.creditsLive = true)
    (rebate : w.rebateOwed = start.rebateOwed + books.rebateAdded) (top : w.rebateOwed ≤ u64Max)
    (few : books.rebateAdded ≤ i64Max) :
    (takeBackCredits w books).1.Agrees start ∧ (takeBackCredits w books).2.2 = 0 := by
  obtain ⟨short, carry, debt, owed⟩ := unbookCredits_exact books.credited
    (fun identity => by rw [earned.carry]; exact Nat.le_add_left _ _) earned.inRange earned.signed
  have shape : takeBackCredits w books =
      ((books.debtPaid.foldl (fun w part => w.restoreDebt part.1 part.2)
          (books.credited.foldl unbookCredit (w, 0)).1).adjustRebateOwed (-clampI64 books.rebateAdded),
        { books with credited := [], debtPaid := [], rebateAdded := 0, creditsLive := false },
        (books.credited.foldl unbookCredit (w, 0)).2) := by
    simp only [takeBackCredits, live, ↓reduceIte]
  rw [shape]
  generalize books.credited.foldl unbookCredit (w, 0) = between at short carry debt owed ⊢
  have back : ∀ identity, between.1.carryOf identity = start.carryOf identity := by
    intro identity
    have taken := carry identity
    rw [earned.carry] at taken
    omega
  obtain ⟨carry', debt', owed'⟩ := restoreDebts_exact books.debtPaid (w := between.1)
    (fun identity some => by
      have before := earned.debt identity
      rw [back]
      exact (exclusive identity).resolve_right (by omega))
    (fun identity => by
      rw [debt, earned.debt]
      exact inRange.debt identity)
  refine ⟨⟨?_, ?_, ?_⟩, short⟩
  · intro identity
    rw [carryOf_adjustRebateOwed, carry', back]
  · intro identity
    rw [debtOf_adjustRebateOwed, debt', debt, earned.debt]
  · have same : (books.debtPaid.foldl (fun w part => w.restoreDebt part.1 part.2) between.1).rebateOwed =
        start.rebateOwed + books.rebateAdded := by rw [owed', owed, rebate]
    rw [rebateOwed_down (by rw [same, ← rebate]; exact top), same, Nat.min_eq_left few]
    omega

end TakeBack

section Undo

/-- Nothing of the block is on the ledger, and the record says so. -/
def Books.Clear (books : Books) : Prop :=
  books.debitsLive = false ∧ books.creditsLive = false ∧ books.debited = [] ∧ books.shortfall = [] ∧
    books.credited = [] ∧ books.debtPaid = []

instance (books : Books) : Decidable books.Clear := inferInstanceAs (Decidable (_ ∧ _ ∧ _ ∧ _ ∧ _ ∧ _))

private theorem giveBackDebits_clear (w : Window) {books : Books} (live : books.debitsLive = true)
    (off : books.creditsLive = false) (credited : books.credited = []) (debtPaid : books.debtPaid = []) :
    (giveBackDebits w books).2.Clear := by
  simp [giveBackDebits, live, Books.Clear, off, credited, debtPaid]

private theorem unbook_again (l : Ledger) {books : Books} (debits : books.debitsLive = false)
    (credits : books.creditsLive = false) : (l.unbook books).1.window = l.window ∧
    (l.unbook books).2.1 = books := by
  simp [Ledger.unbook, takeBackCredits, giveBackDebits, debits, credits]

/-- Where nobody is creditor and debtor at once, no debt runs past the top of its type and no carry above
the signed range meets a payment below it, undoing a block right after its payments were booked, or right
after its earnings were too, puts every carry, every debt and the owed rebate back, is short of nothing and
leaves the record clear, provided the record had no credits noted when only the payments were booked.
Booking or undoing again changes nothing. -/
theorem undo_exact {l : Ledger} {carryDelta : List (String × Int)} {books : Books} (inRange : l.window.InRange)
    (exclusive : l.window.Exclusive) (debitsOff : books.debitsLive = false)
    (creditsOff : books.creditsLive = false)
    (fits : DebtFits l.window carryDelta)
    (signed : ∀ entry ∈ carryDelta, -(i64Max : Int) ≤ entry.2 ∨ l.window.carryOf entry.1 ≤ i64Max)
    (undrawn : ∀ identity,
      (l.bookDebits carryDelta books).1.window.heldOf identity = l.window.heldOf identity) :
    (let debited := l.bookDebits carryDelta books
      let undone := debited.1.unbook debited.2
      undone.1.window.Agrees l.window ∧ undone.2.2 = 0 ∧
        (books.credited = [] → books.debtPaid = [] → undone.2.1.Clear)) ∧
      (let debited := l.bookDebits carryDelta books
        let credited := debited.1.bookCredits carryDelta debited.2
        let undone := credited.1.unbook credited.2
        undone.1.window.Agrees l.window ∧ undone.2.2 = 0 ∧ undone.2.1.Clear) ∧
      ∀ (l : Ledger) (carryDelta : List (String × Int)) (books : Books),
        (l.bookDebits carryDelta books).1.bookDebits carryDelta (l.bookDebits carryDelta books).2 =
            l.bookDebits carryDelta books ∧
          (l.bookCredits carryDelta books).1.bookCredits carryDelta (l.bookCredits carryDelta books).2 =
            l.bookCredits carryDelta books ∧
          ((l.unbook books).1.unbook (l.unbook books).2.1).1.window = (l.unbook books).1.window ∧
          ((l.unbook books).1.unbook (l.unbook books).2.1).2.1 = (l.unbook books).2.1 := by
  have paid := paid_bookDebits inRange exclusive debitsOff fits signed undrawn
  obtain ⟨listed, listed', rebate, shape⟩ := bookDebits_frame l carryDelta books
  refine ⟨?_, ?_, ?_⟩
  · intro debited undone
    have off : debited.2.creditsLive = false := by simp [debited, creditsOff]
    have through : takeBackCredits debited.1.window debited.2 = (debited.1.window, debited.2, 0) := by
      simp [takeBackCredits, off]
    simp only [undone, Ledger.unbook, through]
    refine ⟨paid.giveBack inRange exclusive ⟨fun _ => rfl, fun _ => rfl, rfl⟩, trivial, ?_⟩
    intro credited debtPaid
    exact giveBackDebits_clear _ paid.live off (by simp [debited, shape, credited])
      (by simp [debited, shape, debtPaid])
  · intro debited credited undone
    have off : debited.2.creditsLive = false := by simp [debited, creditsOff]
    obtain ⟨earned, owed, top, few⟩ := earned_bookCredits paid.inRange carryDelta off
    have live : credited.2.creditsLive = true := bookCredits_creditsLive _ _ _
    obtain ⟨agrees, short⟩ := earned.takeBack paid.inRange paid.exclusive live owed top few
    obtain ⟨credits, debtPaid, added, other⟩ := bookCredits_frame debited.1 carryDelta debited.2
    -- taking the earnings back leaves the debit side of the record as the payments left it
    have record : (takeBackCredits credited.1.window credited.2).2.1 =
        { debited.2 with credited := [], debtPaid := [], rebateAdded := 0, creditsLive := false } := by
      simp only [takeBackCredits, live, ↓reduceIte]
      simp only [credited, other]
    have still :=
      paid.of_debits ({ debited.2 with credited := [], debtPaid := [], rebateAdded := 0, creditsLive := false })
      rfl rfl rfl rfl
    simp only [undone, Ledger.unbook, record]
    exact ⟨still.giveBack inRange exclusive agrees, short, giveBackDebits_clear _ still.live rfl rfl rfl⟩
  · intro l carryDelta books
    refine ⟨?_, ?_, unbook_again _ (unbook_debitsLive books l) (unbook_creditsLive books l)⟩
    · have live := bookDebits_debitsLive l carryDelta books
      rw [Ledger.bookDebits, if_pos live]
    · have live := bookCredits_creditsLive l carryDelta books
      rw [Ledger.bookCredits, if_pos live]

/-- A miner with seventy sats of carry. -/
def seventyOwed : Ledger := { window := noBalances.setCarry "miner" 70 }

/-- A block that pays the miner more than that in two outputs, and defers an earning of its and of another. -/
def twicePaid : List (String × Int) := [("miner", -50), ("miner", 45), ("miner", -40), ("other", 8)]

theorem undo_exact_twicePaid :
    let debited := seventyOwed.bookDebits twicePaid {}
    let credited := debited.1.bookCredits twicePaid debited.2
    debited.1.window.debtOf "miner" = 20 ∧ credited.1.window.carryOf "miner" = 25 ∧
      (credited.1.unbook credited.2).1.window.Agrees seventyOwed.window := by
  have carry : ∀ identity, seventyOwed.window.carryOf identity = if identity = "miner" then 70 else 0 :=
    fun identity => carryOf_fileCarry noBalances "miner" identity 70
  have debt : ∀ identity, seventyOwed.window.debtOf identity = 0 := by
    intro identity
    have none : noBalances.debtOf identity = 0 := rfl
    simp [seventyOwed, setCarry, none]
  have paid : ∀ identity, negative identity twicePaid ≤ 90 := by
    intro identity
    simp only [negative, twicePaid, List.map_cons, List.map_nil, tally_cons, tally_nil]
    split <;> split <;> simp
  have held : (seventyOwed.bookDebits twicePaid {}).1.window.holds = seventyOwed.window.holds := by rfl
  refine ⟨by decide, by decide, ?_⟩
  have inRange : seventyOwed.window.InRange := by
    refine ⟨?_, ?_, by decide⟩
    · intro identity
      rw [carry]
      split <;> decide
    · intro identity
      rw [debt]
      decide
  have fits : DebtFits seventyOwed.window twicePaid := by
    intro identity
    have most := paid identity
    rw [debt]
    unfold u64Max
    omega
  have undrawn : ∀ identity, (seventyOwed.bookDebits twicePaid {}).1.window.heldOf identity =
      seventyOwed.window.heldOf identity := by
    intro identity
    rw [heldOf, held, heldOf]
  exact (undo_exact inRange (fun identity => .inr (debt identity)) rfl rfl fits (by decide) undrawn).2.1.1

/-- As stated for every record and every amount it fails: a record may have credits noted that are not on
the ledger, a debt at the top of its type takes on no more, and what is given back of a carry above the
signed range is cut short. -/
theorem undo_inexact :
    let undone := fun (l : Ledger) carryDelta books =>
      (l.bookDebits carryDelta books).1.unbook (l.bookDebits carryDelta books).2
    let indebted : Ledger := { window := noBalances.accrueDebt "miner" u64Max }
    let wealthy : Ledger := { window := noBalances.setCarry "miner" (2 ^ 63) }
    (undone seventyOwed [] { credited := [("miner", 1)] }).2.1.credited = [("miner", 1)] ∧
      indebted.window.debtOf "miner" = u64Max ∧
      (undone indebted [("miner", -5)] {}).1.window.debtOf "miner" = u64Max - 5 ∧
      wealthy.window.carryOf "miner" = 2 ^ 63 ∧
      (undone wealthy [("miner", -2 ^ 63)] {}).1.window.carryOf "miner" = 2 ^ 63 - 1 := by
  decide

end Undo

end Lazarus.Tides
