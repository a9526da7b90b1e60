import Lazarus.Tides.BlockLog
import Lazarus.Tides.Undo

/-! Taking a block's debits off the books a second time, from its record. Booking takes a payment off the
carry and then out of the holds and records the sum; the record is taken off the carry alone. -/

namespace Lazarus.Tides

open Machine Interner Tally Window

section Drawing

/-- A batch that a draw for an identity leaves as it is: it holds something, each entry of it does, and none is
the identity's. -/
structure Untouched (identity : String) (hold : Hold) : Prop where
  some : hold.entries ≠ []
  each : ∀ entry ∈ hold.entries, 0 < entry.2 ∧ entry.1 ≠ identity

/-- What there is of a batch is left as it is by a draw for the identity. -/
def ClearAt (identity : String) (holds : AList fun _ : String => Hold) (batch : String) : Prop :=
  ∀ hold, holds.lookup batch = some hold → Untouched identity hold

/-- Every batch is one that a draw for the identity leaves as it is. -/
def Clear (identity : String) (holds : AList fun _ : String => Hold) : Prop :=
  ∀ batch, ClearAt identity holds batch

private theorem drawEntries_others {identity : String} {entries : List (String × Nat)} (left : Nat)
    (others : ∀ entry ∈ entries, entry.1 ≠ identity) : drawEntries identity left entries = (entries, left) := by
  induction entries with
  | nil => rfl
  | cons entry rest ih =>
    rw [drawEntries, if_neg (others entry (by simp)), Nat.sub_zero,
      ih fun other member => others other (by simp [member])]
    rfl

private theorem drawEntries_short {identity : String} {left : Nat} {entries : List (String × Nat)}
    (short : (drawEntries identity left entries).2 ≠ 0) :
    ∀ entry ∈ (drawEntries identity left entries).1, entry.1 = identity → entry.2 = 0 := by
  induction entries generalizing left with
  | nil => simp [drawEntries]
  | cons entry rest ih =>
    simp only [drawEntries] at short ⊢
    have later := ih short
    have bound := drawEntries_left identity (left - if entry.1 = identity then min entry.2 left else 0) rest
    intro other member named
    rcases List.mem_cons.mp member with rfl | behind
    · simp only at named ⊢
      rw [if_pos named] at bound short ⊢
      omega
    · exact later other behind named

private theorem mem_drawEntries {identity : String} {left : Nat} {entries : List (String × Nat)}
    {entry : String × Nat} (member : entry ∈ (drawEntries identity left entries).1) :
    entry.1 ∈ entries.map Prod.fst := by
  induction entries generalizing left with
  | nil => cases member
  | cons first rest ih =>
    simp only [drawEntries] at member
    rcases List.mem_cons.mp member with rfl | behind
    · simp
    · exact List.mem_cons_of_mem _ (ih behind)

variable {identity : String} {holds : AList fun _ : String => Hold} {left : Nat}

private theorem drawBatch_clear (left : Nat) (clear : Clear identity holds) (batch : String) :
    (∀ other, (drawBatch identity (holds, left) batch).1.lookup other = holds.lookup other) ∧
      (drawBatch identity (holds, left) batch).2 = left := by
  simp only [drawBatch]
  split
  · exact ⟨fun _ => rfl, rfl⟩
  · cases found : holds.lookup batch with
    | none => exact ⟨fun _ => rfl, rfl⟩
    | some hold =>
      have untouched := clear batch hold found
      have same : (hold.entries.filter fun entry => 0 < entry.2) = hold.entries :=
        List.filter_eq_self.mpr fun entry member => decide_eq_true (untouched.each entry member).1
      simp only [drawEntries_others left fun entry member => (untouched.each entry member).2, same,
        if_neg untouched.some, and_true]
      intro other
      by_cases here : other = batch
      · rw [here, AList.lookup_insert, found]
      · rw [AList.lookup_insert_ne here]

/-- A batch that is untouched by the draws for an identity stays so. -/
theorem ClearAt.drawBatch {name batch : String} (clear : ClearAt name holds batch) (other : String) :
    ClearAt name (drawBatch identity (holds, left) other).1 batch := by
  simp only [Window.drawBatch]
  split
  · exact clear
  · cases found : holds.lookup other with
    | none => exact clear
    | some hold =>
      simp only
      by_cases same : batch = other
      · subst same
        have untouched := clear hold found
        split
        · intro kept here
          rw [AList.lookup_erase] at here
          cases here
        · rename_i some
          intro kept here
          rw [AList.lookup_insert] at here
          obtain rfl := Option.some.inj here
          refine ⟨some, fun entry member => ?_⟩
          obtain ⟨drawn, positive⟩ := List.mem_filter.mp member
          obtain ⟨old, present, named⟩ := List.mem_map.mp (mem_drawEntries drawn)
          exact ⟨of_decide_eq_true positive, named ▸ (untouched.each old present).2⟩
      · split
        · intro kept here
          rw [AList.lookup_erase_ne same] at here
          exact clear kept here
        · intro kept here
          rw [AList.lookup_insert_ne same] at here
          exact clear kept here

theorem ClearAt.foldl {name batch : String} (clear : ClearAt name holds batch) (order : List String) :
    ClearAt name (order.foldl (Window.drawBatch identity) (holds, left)).1 batch := by
  apply Run.foldl_kept (Window.drawBatch identity) (fun state => ClearAt name state.1 batch) ?_ order clear
  intro state other kept
  exact kept.drawBatch other

/-- A batch drawn on while there is more to draw is left untouched by any later draw for the identity. -/
theorem drawBatch_short {batch : String} {hold : Hold} (short : (drawBatch identity (holds, left) batch).2 ≠ 0)
    (after : (drawBatch identity (holds, left) batch).1.lookup batch = some hold) :
    Untouched identity hold := by
  have more : left ≠ 0 := by
    rintro rfl
    exact short rfl
  simp only [drawBatch, if_neg more] at short after
  cases found : holds.lookup batch with
  | none =>
    rw [found] at after
    simp only [found] at after
    cases after
  | some old =>
    simp only [found] at short after
    split at after
    · rw [AList.lookup_erase] at after
      cases after
    · rename_i some
      rw [AList.lookup_insert] at after
      obtain rfl := Option.some.inj after
      refine ⟨some, fun entry member => ?_⟩
      obtain ⟨drawn, positive⟩ := List.mem_filter.mp member
      have positive := of_decide_eq_true positive
      refine ⟨positive, fun named => ?_⟩
      have none := drawEntries_short short entry drawn named
      omega

private theorem foldl_short {order : List String}
    (short : (order.foldl (drawBatch identity) (holds, left)).2 ≠ 0) :
    ∀ batch ∈ order, ClearAt identity (order.foldl (drawBatch identity) (holds, left)).1 batch := by
  induction order generalizing holds left with
  | nil => simp
  | cons first rest ih =>
    rw [List.foldl_cons] at short ⊢
    intro batch member
    rcases List.mem_cons.mp member with rfl | later
    · apply ClearAt.foldl
      intro hold here
      apply drawBatch_short ?_ here
      have bound := Run.foldl_kept (drawBatch identity)
        (fun state => state.2 ≤ (drawBatch identity (holds, left) batch).2)
        (fun state other lower => (drawBatch_left identity state other).trans lower) rest (Nat.le_refl _)
      omega
    · exact ih short batch later

variable {w : Window} {sats : Nat}

private theorem drawFromHolds_clear (sats : Nat) (clear : Clear identity w.holds) :
    (∀ batch, (w.drawFromHolds identity sats).1.holds.lookup batch = w.holds.lookup batch) ∧
      (w.drawFromHolds identity sats).2 = 0 := by
  let order :=
    ((w.holds.entries.map fun entry => (entry.2.createdTs, entry.1)).insertionSort batchBefore).map Prod.snd
  have kept := Run.foldl_kept (drawBatch identity)
    (fun state => (∀ batch, state.1.lookup batch = w.holds.lookup batch) ∧ state.2 = sats)
    (fun state batch same => by
      obtain ⟨holds, left⟩ := state
      have here : Clear identity holds :=
        fun other hold found => clear other hold ((same.1 other).symm.trans found)
      have step := drawBatch_clear left here batch
      exact ⟨fun other => (step.1 other).trans (same.1 other), step.2.trans same.2⟩)
    (s := (w.holds, sats)) order ⟨fun _ => rfl, rfl⟩
  exact ⟨kept.1, Nat.sub_eq_zero_of_le kept.2.ge⟩

theorem Clear.drawFromHolds {name : String} (clear : Clear name w.holds) :
    Clear name (w.drawFromHolds identity sats).1.holds := fun batch => (clear batch).foldl _

/-- A draw that does not get all it asks for leaves nothing of the identity's, and no empty entries. -/
theorem clear_of_short (short : (w.drawFromHolds identity sats).2 < sats) :
    Clear identity (w.drawFromHolds identity sats).1.holds := by
  intro batch
  simp only [Window.drawFromHolds] at short ⊢
  by_cases listed : batch ∈
      ((w.holds.entries.map fun entry => (entry.2.createdTs, entry.1)).insertionSort batchBefore).map Prod.snd
  · exact foldl_short (by omega) batch listed
  · apply ClearAt.foldl
    intro hold found
    have key : batch ∈ w.holds.entries.map Sigma.fst := by
      have present : batch ∈ w.holds := AList.lookup_isSome.mp (by rw [found]; rfl)
      exact present
    obtain ⟨entry, member, rfl⟩ := List.mem_map.mp key
    have sorted := (List.mem_insertionSort batchBefore).mpr
      (List.mem_map_of_mem (f := fun entry : Sigma _ => (entry.2.createdTs, entry.1)) member)
    exact absurd (List.mem_map_of_mem (f := Prod.snd) sorted) listed

end Drawing

section Payments

variable {w : Window} {books : Books} {entry : String × Int} {payments : List (String × Int)}

private theorem negative_cons (below : entry.2 < 0) (identity : String) :
    negative identity (entry :: payments) =
      (if entry.1 = identity then entry.2.natAbs else 0) + negative identity payments := by
  have size : (-entry.2).toNat = entry.2.natAbs := by omega
  rw [negative, List.map_cons, tally_cons, size]
  rfl

private theorem carryOf_bookDebits (below : ∀ entry ∈ payments, entry.2 < 0) (identity : String) :
    (payments.foldl bookDebit (w, books)).1.carryOf identity =
      w.carryOf identity - negative identity payments := by
  induction payments generalizing w books with
  | nil => rfl
  | cons entry rest ih =>
    have here := carryOf_bookDebit w books (below entry (by simp)) identity
    obtain ⟨w', books'⟩ := bookDebit (w, books) entry
    rw [List.foldl_cons, ih fun other member => below other (by simp [member]), here,
      negative_cons (below entry (by simp))]
    by_cases same : identity = entry.1
    · subst same
      rw [if_pos rfl, if_pos rfl]
      omega
    · rw [if_neg same, if_neg (Ne.symm same), Nat.zero_add]

private theorem holds_bookDebit (w : Window) (books : Books) (below : entry.2 < 0) :
    (bookDebit (w, books) entry).1.holds =
      ((w.adjustCarry entry.1 entry.2).1.drawFromHolds entry.1
        (entry.2.natAbs - w.carryOf entry.1)).1.holds := by
  rw [bookDebit_eq w books below, holds_accrueDebt]

private theorem bookDebit_carry (books : Books) (below : entry.2 < 0)
    (pays : entry.2.natAbs ≤ w.carryOf entry.1 ∨ Clear entry.1 w.holds) :
    (∀ batch, (bookDebit (w, books) entry).1.holds.lookup batch = w.holds.lookup batch) ∧
      (bookDebit (w, books) entry).2.debited = books.debited ++
        [(entry.1, min (w.carryOf entry.1) entry.2.natAbs)].filter fun moved => 0 < moved.2 := by
  have quiet : (∀ batch, ((w.adjustCarry entry.1 entry.2).1.drawFromHolds entry.1
      (entry.2.natAbs - w.carryOf entry.1)).1.holds.lookup batch = w.holds.lookup batch) ∧
      (w.drawFromHolds entry.1 (entry.2.natAbs - w.carryOf entry.1)).2 = 0 := by
    rcases pays with covered | clear
    · rw [Nat.sub_eq_zero_of_le covered, drawFromHolds_zero, drawFromHolds_zero, holds_adjustCarry]
      exact ⟨fun _ => rfl, rfl⟩
    · have adjusted : Clear entry.1 (w.adjustCarry entry.1 entry.2).1.holds := by rwa [holds_adjustCarry]
      have same := (drawFromHolds_clear (entry.2.natAbs - w.carryOf entry.1) adjusted).1
      rw [holds_adjustCarry] at same
      exact ⟨same, (drawFromHolds_clear _ clear).2⟩
  have moved : entry.2.natAbs - overpaid w entry = min (w.carryOf entry.1) entry.2.natAbs := by
    rw [overpaid, drawn, quiet.2]
    omega
  constructor
  · intro batch
    rw [holds_bookDebit w books below]
    exact quiet.1 batch
  · rw [bookDebit_eq w books below, moved]
    simp [List.filter_cons]

/-- What each payment takes off the carry, one after the other. -/
def taken (carry : String → Nat) : List (String × Int) → List (String × Nat)
  | [] => []
  | entry :: rest =>
    (entry.1, min (carry entry.1) entry.2.natAbs) ::
      taken (fun identity => if identity = entry.1 then carry entry.1 - entry.2.natAbs else carry identity) rest

private theorem tally_taken (carry : String → Nat) (below : ∀ entry ∈ payments, entry.2 < 0)
    (identity : String) :
    tally identity (taken carry payments) = min (carry identity) (negative identity payments) := by
  induction payments generalizing carry with
  | nil => exact (Nat.min_zero _).symm
  | cons entry rest ih =>
    rw [taken, tally_cons, ih _ fun other member => below other (by simp [member]),
      negative_cons (below entry (by simp))]
    by_cases same : identity = entry.1
    · subst same
      simp only [if_true]
      omega
    · rw [if_neg same, if_neg (Ne.symm same), Nat.zero_add, if_neg (Ne.symm same), Nat.zero_add]

/-- Nothing has to come out of a hold: the carry of each payee covers what it is paid, or it has nothing held
and no hold has anything empty about it. -/
def CarryPays (w : Window) (payments : List (String × Int)) : Prop :=
  ∀ identity, negative identity payments ≤ w.carryOf identity ∨ Clear identity w.holds

theorem CarryPays.head (pays : CarryPays w (entry :: payments)) (below : entry.2 < 0) :
    entry.2.natAbs ≤ w.carryOf entry.1 ∨ Clear entry.1 w.holds := by
  rcases pays entry.1 with covered | clear
  · rw [negative_cons below, if_pos rfl] at covered
    exact .inl (by omega)
  · exact .inr clear

theorem CarryPays.tail (books : Books) (pays : CarryPays w (entry :: payments)) (below : entry.2 < 0) :
    CarryPays (bookDebit (w, books) entry).1 payments := by
  intro identity
  rcases pays identity with covered | clear
  · left
    rw [negative_cons below] at covered
    rw [carryOf_bookDebit w books below]
    by_cases same : identity = entry.1
    · subst same
      rw [if_pos rfl] at covered ⊢
      omega
    · rw [if_neg (Ne.symm same)] at covered
      rw [if_neg same]
      omega
  · right
    intro batch hold found
    rw [(bookDebit_carry books below (pays.head below)).1] at found
    exact clear batch hold found

private theorem bookDebits_carry (below : ∀ entry ∈ payments, entry.2 < 0) (pays : CarryPays w payments) :
    (∀ batch, (payments.foldl bookDebit (w, books)).1.holds.lookup batch = w.holds.lookup batch) ∧
      (payments.foldl bookDebit (w, books)).2.debited =
        books.debited ++ (taken w.carryOf payments).filter fun moved => 0 < moved.2 := by
  induction payments generalizing w books with
  | nil => exact ⟨fun _ => rfl, by simp [taken]⟩
  | cons entry rest ih =>
    have first := below entry (by simp)
    obtain ⟨sameHolds, debited⟩ := bookDebit_carry books first (pays.head first)
    have later := pays.tail books first
    have carry := carryOf_bookDebit w books first
    rw [List.foldl_cons]
    cases stepped : bookDebit (w, books) entry with
    | mk w' books' =>
      rw [stepped] at sameHolds debited later carry
      obtain ⟨restHolds, restDebited⟩ :=
        @ih w' books' (fun other member => below other (by simp [member])) later
      constructor
      · intro batch
        exact (restHolds batch).trans (sameHolds batch)
      · rw [restDebited, debited, List.append_assoc, ← List.filter_append,
          taken, List.singleton_append, funext carry]

private theorem heldOf_bookDebits_le (w : Window) (books : Books) (below : ∀ entry ∈ payments, entry.2 < 0)
    (identity : String) : (payments.foldl bookDebit (w, books)).1.heldOf identity ≤ w.heldOf identity := by
  apply Run.foldl_mem bookDebit (fun state => state.1.heldOf identity ≤ w.heldOf identity) ?_ (Nat.le_refl _)
  intro state entry member least
  obtain ⟨w', books'⟩ := state
  have drawn := heldOf_bookDebit w' books' (below entry member) identity
  dsimp only at least
  omega

private theorem clear_bookDebits {identity : String} (below : ∀ entry ∈ payments, entry.2 < 0)
    (clear : Clear identity w.holds) : Clear identity (payments.foldl bookDebit (w, books)).1.holds := by
  apply Run.foldl_mem bookDebit (fun state => Clear identity state.1.holds) ?_ clear
  intro state entry member kept
  obtain ⟨w', books'⟩ := state
  rw [holds_bookDebit _ _ (below entry member)]
  apply Clear.drawFromHolds
  rwa [holds_adjustCarry]

private theorem heldOf_congr {w w' : Window} (same : ∀ batch, w.holds.lookup batch = w'.holds.lookup batch)
    (identity : String) : w.heldOf identity = w'.heldOf identity :=
  total_congr (fun hold : Hold => tally identity hold.entries) same

private theorem clear_of_kept {identity : String} (below : ∀ entry ∈ payments, entry.2 < 0)
    (kept : (payments.foldl bookDebit (w, books)).1.heldOf identity = w.heldOf identity)
    (more : w.carryOf identity < negative identity payments) :
    Clear identity (payments.foldl bookDebit (w, books)).1.holds := by
  induction payments generalizing w books with
  | nil => cases more
  | cons entry rest ih =>
    have first := below entry (by simp)
    have later : ∀ other ∈ rest, other.2 < 0 := fun other member => below other (by simp [member])
    have drew := heldOf_bookDebit w books first identity
    have carry := carryOf_bookDebit w books first identity
    have holds := holds_bookDebit w books first
    rw [List.foldl_cons] at kept ⊢
    rw [negative_cons first] at more
    cases stepped : bookDebit (w, books) entry with
    | mk w' books' =>
      rw [stepped] at kept drew carry holds
      have least := heldOf_bookDebits_le w' books' later identity
      dsimp only at drew carry holds
      by_cases same : identity = entry.1
      · subst same
        rw [if_pos rfl] at carry more drew
        by_cases covered : entry.2.natAbs ≤ w.carryOf entry.1
        · exact ih later (by omega) (by omega)
        · apply clear_bookDebits later
          rw [holds]
          apply clear_of_short
          have sameDraw : ((w.adjustCarry entry.1 entry.2).1.drawFromHolds entry.1
              (entry.2.natAbs - w.carryOf entry.1)).2 = drawn w entry := by
            simp only [drawn, drawFromHolds, holds_adjustCarry]
          omega
      · rw [if_neg same] at carry drew
        rw [if_neg (Ne.symm same)] at more
        exact ih later (by omega) (by omega)

private theorem holds_kept_iff (w : Window) (books : Books) (below : ∀ entry ∈ payments, entry.2 < 0) :
    (∀ batch, (payments.foldl bookDebit (w, books)).1.holds.lookup batch = w.holds.lookup batch) ↔
      CarryPays w payments := by
  constructor
  · intro kept identity
    rcases Nat.lt_or_ge (w.carryOf identity) (negative identity payments) with more | covered
    · right
      intro batch hold found
      exact clear_of_kept below (heldOf_congr kept identity) more batch hold ((kept batch).trans found)
    · exact .inl covered
  · intro pays
    exact (bookDebits_carry below pays).1

end Payments

section Record

variable {w : Window} {payments : List (String × Int)}

/-- An amount as far as it fits in a signed one. -/
def clamped (entry : String × Nat) : String × Nat := (entry.1, min entry.2 i64Max)

private theorem tally_clamped_cons (identity : String) (entry : String × Nat) (rest : List (String × Nat)) :
    tally identity ((entry :: rest).map clamped) =
      (if entry.1 = identity then min entry.2 i64Max else 0) + tally identity (rest.map clamped) := rfl

private theorem carryOf_reapplied {debited : List (String × Nat)} (some : ∀ entry ∈ debited, 0 < entry.2)
    (identity : String) :
    (debited.foldl (fun w entry => (w.adjustCarry entry.1 (-clampI64 entry.2)).1) w).carryOf identity =
      w.carryOf identity - tally identity (debited.map clamped) := by
  induction debited generalizing w with
  | nil => rfl
  | cons entry rest ih =>
    have positive := some entry (by simp)
    have below : -clampI64 entry.2 < 0 := by
      unfold clampI64 i64Max
      omega
    rw [List.foldl_cons, ih fun other member => some other (by simp [member]),
      carryOf_adjustCarry_neg _ _ _ _ below, Int.natAbs_neg, clampI64_natAbs, tally_clamped_cons]
    by_cases same : identity = entry.1
    · subst same
      rw [if_pos rfl, if_pos rfl]
      omega
    · rw [if_neg same, if_neg (Ne.symm same), Nat.zero_add]

/-- What is taken off the carry payment by payment fits in signed amounts. -/
def Signed (w : Window) (payments : List (String × Int)) : Prop :=
  ∀ before entry after, payments = before ++ entry :: after →
    entry.2.natAbs ≤ i64Max ∨ w.carryOf entry.1 ≤ i64Max + negative entry.1 before

private theorem taken_fits_iff {carry : String → Nat} (below : ∀ entry ∈ payments, entry.2 < 0) :
    (∀ moved ∈ taken carry payments, moved.2 ≤ i64Max) ↔
      ∀ before entry after, payments = before ++ entry :: after →
      entry.2.natAbs ≤ i64Max ∨ carry entry.1 ≤ i64Max + negative entry.1 before := by
  induction payments generalizing carry with
  | nil => simp [taken]
  | cons first rest ih =>
    have paid := below first (by simp)
    rw [taken, List.forall_mem_cons, ih fun other member => below other (by simp [member])]
    constructor
    · rintro ⟨here, later⟩ before entry after split
      cases before with
      | nil =>
        obtain ⟨rfl, rfl⟩ := List.cons.inj split
        dsimp only at here
        have none : negative first.1 [] = 0 := rfl
        omega
      | cons head before =>
        obtain ⟨rfl, rfl⟩ := List.cons.inj split
        have fits := later before entry after rfl
        rw [negative_cons paid]
        split at fits
        · rename_i same
          rw [same, if_pos rfl]
          rw [same] at fits
          omega
        · rename_i other
          rw [if_neg (Ne.symm other)]
          omega
    · intro fits
      constructor
      · have here := fits [] first rest rfl
        have none : negative first.1 [] = 0 := rfl
        dsimp only
        omega
      · intro before entry after split
        have here := fits (first :: before) entry after (by rw [split]; rfl)
        rw [negative_cons paid] at here
        by_cases same : entry.1 = first.1
        · rw [if_pos same.symm] at here
          rw [if_pos same, ← same]
          omega
        · rw [if_neg (Ne.symm same)] at here
          rw [if_neg same]
          omega

private theorem tally_clamped_le (identity : String) (moved : List (String × Nat)) :
    tally identity (moved.map clamped) ≤ tally identity moved := by
  induction moved with
  | nil => exact Nat.le_refl _
  | cons entry rest ih =>
    rw [tally_clamped_cons, tally_cons]
    split
    · omega
    · omega

private theorem tally_clamped_filter (identity : String) (moved : List (String × Nat)) :
    tally identity ((moved.filter fun entry => 0 < entry.2).map clamped) =
      tally identity (moved.map clamped) := by
  induction moved with
  | nil => rfl
  | cons entry rest ih =>
    rw [tally_clamped_cons]
    by_cases some : 0 < entry.2
    · rw [List.filter_cons_of_pos (by simpa using some), tally_clamped_cons, ih]
    · rw [List.filter_cons_of_neg (by simpa using some), ih, Nat.eq_zero_of_not_pos some,
        Nat.zero_min, ite_self, Nat.zero_add]

private theorem tally_clamped_iff {moved : List (String × Nat)} :
    (∀ identity, tally identity (moved.map clamped) = tally identity moved) ↔
      ∀ entry ∈ moved, entry.2 ≤ i64Max := by
  induction moved with
  | nil => simp
  | cons entry rest ih =>
    rw [List.forall_mem_cons]
    constructor
    · intro same
      have own := same entry.1
      have bound := tally_clamped_le entry.1 rest
      rw [tally_clamped_cons, tally_cons, if_pos rfl, if_pos rfl] at own
      have here : entry.2 ≤ i64Max := by omega
      refine ⟨here, ih.mp fun identity => ?_⟩
      have all := same identity
      rw [tally_clamped_cons, tally_cons, Nat.min_eq_left here] at all
      omega
    · rintro ⟨here, later⟩ identity
      rw [tally_clamped_cons, tally_cons, Nat.min_eq_left here, ih.mpr later identity]

private theorem debtOf_accrued {w w' : Window} (same : ∀ identity, w.debtOf identity = w'.debtOf identity)
    (shortfall : List (String × Nat)) (identity : String) :
    (shortfall.foldl (fun w entry => w.accrueDebt entry.1 entry.2) w).debtOf identity =
      (shortfall.foldl (fun w entry => w.accrueDebt entry.1 entry.2) w').debtOf identity := by
  induction shortfall generalizing w w' with
  | nil => exact same identity
  | cons entry rest ih =>
    apply ih
    intro name
    rw [debtOf_accrueDebt, debtOf_accrueDebt, same, same]

private theorem debtOf_bookDebits (w : Window) (books : Books) (below : ∀ entry ∈ payments, entry.2 < 0) :
    ∃ short, (payments.foldl bookDebit (w, books)).2.shortfall = books.shortfall ++ short ∧
      ∀ identity, (payments.foldl bookDebit (w, books)).1.debtOf identity =
        (short.foldl (fun w entry => w.accrueDebt entry.1 entry.2) w).debtOf identity := by
  induction payments generalizing w books with
  | nil => exact ⟨[], by simp, fun _ => rfl⟩
  | cons entry rest ih =>
    have first := below entry (by simp)
    have debt := debtOf_bookDebit w books first
    have filed : (bookDebit (w, books) entry).2.shortfall = books.shortfall ++
        if 0 < overpaid w entry then [(entry.1, overpaid w entry)] else [] := by
      rw [bookDebit_eq w books first]
    rw [List.foldl_cons]
    cases stepped : bookDebit (w, books) entry with
    | mk w' books' =>
      rw [stepped] at debt filed
      obtain ⟨short, record, debts⟩ := @ih w' books' fun other member => below other (by simp [member])
      refine ⟨(if 0 < overpaid w entry then [(entry.1, overpaid w entry)] else []) ++ short, ?_, ?_⟩
      · rw [record, filed, List.append_assoc]
      · intro identity
        rw [debts, List.foldl_append]
        apply debtOf_accrued
        intro name
        rw [debt]
        split
        · rename_i owing
          rw [if_pos (by omega), List.foldl_cons, List.foldl_nil, debtOf_accrueDebt, if_pos owing]
        · rename_i none
          split
          · rw [List.foldl_cons, List.foldl_nil, debtOf_accrueDebt, if_neg none]
          · rfl

@[simp] theorem holds_adjustRebateOwed (delta : Int) : (w.adjustRebateOwed delta).holds = w.holds := rfl

@[simp] theorem holds_accrued (shortfall : List (String × Nat)) :
    (shortfall.foldl (fun w entry => w.accrueDebt entry.1 entry.2) w).holds = w.holds :=
  Run.foldl_unmoved holds (fun w entry => holds_accrueDebt w entry.1 entry.2) w shortfall

@[simp] theorem carryOf_accrued (shortfall : List (String × Nat)) (identity : String) :
    (shortfall.foldl (fun w entry => w.accrueDebt entry.1 entry.2) w).carryOf identity = w.carryOf identity :=
  Run.foldl_unmoved (fun w => w.carryOf identity)
    (fun w entry => carryOf_accrueDebt w entry.1 identity entry.2) w shortfall

@[simp] theorem rebateOwed_accrued (shortfall : List (String × Nat)) :
    (shortfall.foldl (fun w entry => w.accrueDebt entry.1 entry.2) w).rebateOwed = w.rebateOwed :=
  Run.foldl_unmoved rebateOwed (fun w entry => rebateOwed_accrueDebt w entry.1 entry.2) w shortfall

variable (debited : List (String × Nat))

@[simp] theorem holds_taken :
    (debited.foldl (fun w entry => (w.adjustCarry entry.1 (-clampI64 entry.2)).1) w).holds = w.holds :=
  Run.foldl_unmoved holds (fun w entry => holds_adjustCarry w entry.1 _) w debited

@[simp] theorem rebateOwed_taken :
    (debited.foldl (fun w entry => (w.adjustCarry entry.1 (-clampI64 entry.2)).1) w).rebateOwed =
      w.rebateOwed :=
  Run.foldl_unmoved rebateOwed (fun w entry => rebateOwed_adjustCarry w entry.1 _) w debited

@[simp] theorem debtOf_taken (identity : String) :
    (debited.foldl (fun w entry => (w.adjustCarry entry.1 (-clampI64 entry.2)).1) w).debtOf identity =
      w.debtOf identity :=
  Run.foldl_unmoved (fun w => w.debtOf identity)
    (fun w entry => debtOf_adjustCarry w entry.1 identity _) w debited

private theorem carry_replayed_iff (w : Window) (books : Books) (below : ∀ entry ∈ payments, entry.2 < 0)
    (pays : CarryPays w payments) (empty : books.debited = []) :
    (∀ identity, ((payments.foldl bookDebit (w, books)).2.debited.foldl
        (fun w entry => (w.adjustCarry entry.1 (-clampI64 entry.2)).1) w).carryOf identity =
      (payments.foldl bookDebit (w, books)).1.carryOf identity) ↔ Signed w payments := by
  have some : ∀ entry ∈ (taken w.carryOf payments).filter fun moved => 0 < moved.2, 0 < entry.2 :=
    fun entry member => of_decide_eq_true (List.mem_filter.mp member).2
  rw [(bookDebits_carry below pays).2, empty, List.nil_append, Signed,
    ← taken_fits_iff below, ← tally_clamped_iff]
  apply forall_congr'
  intro identity
  have most := tally_clamped_le identity (taken w.carryOf payments)
  have whole := tally_taken w.carryOf below identity
  rw [carryOf_reapplied some, tally_clamped_filter, carryOf_bookDebits below]
  omega

end Record

section Replay

variable (l : Ledger) {carryDelta : List (String × Int)} {books : Books}

private theorem bookDebits_fold (carryDelta : List (String × Int)) (unbooked : books.debitsLive = false) :
    ∃ booked, booked = (carryDelta.filter fun entry => entry.2 < 0).foldl bookDebit
        (l.window, { books with debited := [], shortfall := [] }) ∧
      (l.bookDebits carryDelta books).1.window =
        booked.1.adjustRebateOwed (-clampI64 books.rebateOwedCredited) ∧
      (l.bookDebits carryDelta books).2.debited = booked.2.debited ∧
      (l.bookDebits carryDelta books).2.shortfall = booked.2.shortfall ∧
        booked.1.rebateOwed = l.window.rebateOwed ∧
      (l.bookDebits carryDelta books).2.rebateDebited =
        booked.1.rebateOwed - (booked.1.adjustRebateOwed (-clampI64 books.rebateOwedCredited)).rebateOwed := by
  refine ⟨_, rfl, ?_⟩
  have kept : ∀ (state : Window × Books) entry,
      (bookDebit state entry).2.rebateOwedCredited = state.2.rebateOwedCredited := by
    intro state entry
    obtain ⟨debited, shortfall, same⟩ := bookDebit_frame state entry
    rw [same]
  have owed := Run.foldl_unmoved (fun state : Window × Books => state.1.rebateOwed) rebateOwed_bookDebit
    (l.window, { books with debited := [], shortfall := [] }) (carryDelta.filter fun entry => entry.2 < 0)
  have credited := Run.foldl_unmoved (fun state : Window × Books => state.2.rebateOwedCredited) kept
    (l.window, { books with debited := [], shortfall := [] }) (carryDelta.filter fun entry => entry.2 < 0)
  unfold Ledger.bookDebits
  rw [if_neg (by simp [unbooked])]
  dsimp only at credited ⊢
  rw [credited]
  exact ⟨rfl, rfl, rfl, owed, rfl⟩

/-- Two windows have the same balances, whatever their tables look like. -/
structure SameBalances (w w' : Window) : Prop where
  carry : ∀ identity, w.carryOf identity = w'.carryOf identity
  debt : ∀ identity, w.debtOf identity = w'.debtOf identity
  holds : ∀ batch, w.holds.lookup batch = w'.holds.lookup batch
  rebateOwed : w.rebateOwed = w'.rebateOwed

private theorem carryPays_filter {w : Window} :
    CarryPays w (carryDelta.filter fun entry => entry.2 < 0) ↔ CarryPays w carryDelta := by
  simp only [CarryPays, negative_filter]

private theorem reconcileDebits_one {b : BlockRecord} (tracked : l.debitsTracked = true)
    (recorded : b.books = some books) (live : books.debitsLive = true) (absent : b.hash ∉ l.appliedDebits) :
    l.reconcileDebits [b] = l.reapplyDebits b.hash books := by
  simp only [Ledger.reconcileDebits, tracked, if_true, List.foldl_cons,
    List.foldl_nil, Ledger.reconcileDebit, recorded, live, Bool.not_true,
    Bool.false_or, absent, decide_false, Bool.false_eq_true, if_false]

/-- Debits replayed from the record of a block leave the balances that booking them did, just when the carry
paid: nothing came out of a hold, and no payment took more off the carry than a signed amount. -/
theorem replay_is_booking (inRange : l.window.rebateOwed ≤ u64Max) (carryDelta : List (String × Int))
    (books : Books) (b : BlockRecord) (unbooked : books.debitsLive = false)
    (recorded : b.books = some (l.bookDebits carryDelta books).2) (tracked : l.debitsTracked = true)
    (absent : b.hash ∉ l.appliedDebits) :
    SameBalances (l.reconcileDebits [b]).window (l.bookDebits carryDelta books).1.window ↔
      CarryPays l.window carryDelta ∧ Signed l.window (carryDelta.filter fun entry => entry.2 < 0) := by
  have below : ∀ entry ∈ carryDelta.filter (fun entry => entry.2 < 0), entry.2 < 0 :=
    fun entry member => of_decide_eq_true (List.mem_filter.mp member).2
  obtain ⟨booked, folded, window, debited, shortfall, owed, rebate⟩ := bookDebits_fold l carryDelta unbooked
  rw [reconcileDebits_one l tracked recorded (bookDebits_debitsLive l carryDelta books) absent,
    ← carryPays_filter, window]
  simp only [Ledger.reapplyDebits, debited, shortfall, rebate]
  have kept := holds_kept_iff l.window { books with debited := [], shortfall := [] } below
  have debts := debtOf_bookDebits l.window { books with debited := [], shortfall := [] } below
  have carries := carry_replayed_iff l.window { books with debited := [], shortfall := [] } below
  rw [← folded] at kept debts carries
  obtain ⟨short, filed, debts⟩ := debts
  constructor
  · intro same
    have pays := kept.mp fun batch => by simpa using (same.holds batch).symm
    exact ⟨pays, (carries pays rfl).mp fun identity => by simpa using same.carry identity⟩
  · rintro ⟨pays, signed⟩
    constructor
    · intro identity
      simpa using (carries pays rfl).mpr signed identity
    · intro identity
      rw [filed, List.nil_append]
      simp only [debtOf_adjustRebateOwed, debts]
      apply debtOf_accrued
      intro name
      simp
    · intro batch
      simpa using (kept.mpr pays batch).symm
    · have down := rebateOwed_down (w := booked.1) (by rw [owed]; exact inRange) books.rebateOwedCredited
      rw [rebateOwed_accrued, rebateOwed_down (by simpa using inRange), rebateOwed_taken, down, owed]
      omega

/-- A ledger that marks the debits it has, with nothing on it but the given window. -/
def marking (window : Window) : Ledger := { window, debitsTracked := true }

/-- The record of a block whose debits were booked on a ledger. -/
def recordOf (l : Ledger) (carryDelta : List (String × Int)) : BlockRecord :=
  { hash := "aa", books := some (l.bookDebits carryDelta {}).2 }

/-- Five sats paid out of a carry of seven. -/
theorem replay_is_booking_carryOnly :
    let l := marking (noBalances.setCarry "a" 7)
    SameBalances (l.reconcileDebits [recordOf l [("a", -5)]]).window
      (l.bookDebits [("a", -5)] {}).1.window := by
  intro l
  refine (replay_is_booking l (by decide) [("a", -5)] {} (recordOf l [("a", -5)]) rfl rfl rfl (by decide)).mpr
    ⟨?_, ?_⟩
  · intro identity
    left
    by_cases payee : identity = "a"
    · subst payee
      decide
    · have other : ¬ "a" = identity := fun same => payee same.symm
      simp [negative, other]
  · intro before entry after split
    cases before with
    | nil =>
      obtain ⟨rfl, _⟩ := List.cons.inj split
      exact .inl (by decide)
    | cons head before =>
      have none := (List.cons.inj split).2
      simp at none

/-- Five sats paid out of a hold: the record says five were paid, and the replay finds none on the carry. The
hold keeps them. -/
theorem held_debit_not_replayed :
    let l := marking { noBalances with
      holds := AList.singleton "b1" { createdTs := 1, height := 2, readyHeight := 3, entries := [("a", 5)] } }
    ¬ SameBalances (l.reconcileDebits [recordOf l [("a", -5)]]).window
      (l.bookDebits [("a", -5)] {}).1.window := by
  intro l same
  have hold := same.holds "b1"
  revert hold
  decide

end Replay

end Lazarus.Tides
