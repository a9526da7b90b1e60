import Lazarus.Tides.Booking

/-! The carry ledger's conservation law over whole runs. A run books blocks, confirms them, undoes
them and moves balances through holds, in any order; the law says what every identity is owed after
it in terms of the blocks that are on the ledger at that point. -/

namespace Lazarus.Tides

open Machine Interner Tally Window

/-- A found block: what its coinbase asks of the ledger, and the record of what the ledger did. -/
structure Found where
  carryDelta : List (String × Int)
  books : Books := {}

/-- A ledger with the blocks booked on it, the entries of the holds that were paid, and the part of
each identity's credits that an undoing found already paid out. -/
structure Account where
  ledger : Ledger
  blocks : List Found
  finished : List (String × Nat) := []
  short : List (String × Nat) := []
  reported : Nat := 0

/-- A call on the ledger. Blocks are named by their place in the account. -/
inductive Call where
  | bookDebits (block : Nat)
  | bookCredits (block : Nat)
  | unbook (block : Nat)
  | holdCarry (batch : String) (entries : List (String × Nat)) (now after least tipHeight readyHeight : Nat)
  | releaseHold (batch : String)
  | finishHold (batch : String)

namespace Account

def call (a : Account) : Call → Account
  | .bookDebits i =>
    match a.blocks[i]? with
    | none => a
    | some block =>
      let (ledger, books) := a.ledger.bookDebits block.carryDelta block.books
      { a with ledger, blocks := a.blocks.set i { block with books } }
  | .bookCredits i =>
    match a.blocks[i]? with
    | none => a
    | some block =>
      let (ledger, books) := a.ledger.bookCredits block.carryDelta block.books
      { a with ledger, blocks := a.blocks.set i { block with books } }
  | .unbook i =>
    match a.blocks[i]? with
    | none => a
    | some block =>
      let (ledger, books, reported) := a.ledger.unbook block.books
      let short := if block.books.creditsLive then shortParts a.ledger.window block.books.credited else []
      { a with
        ledger
        blocks := a.blocks.set i { block with books }
        short := a.short ++ short
        reported := a.reported + reported }
  | .holdCarry batch entries now after least tipHeight readyHeight =>
    match a.ledger.holdCarry batch entries now after least tipHeight readyHeight with
    | .error _ => a
    | .ok (ledger, _, _) => { a with ledger }
  | .releaseHold batch =>
    match a.ledger.releaseHold batch with
    | none => a
    | some (ledger, _) => { a with ledger }
  | .finishHold batch =>
    match a.ledger.finishHold batch with
    | none => a
    | some (ledger, entries) => { a with ledger, finished := a.finished ++ entries }

end Account

section Fits

/-- Booking a block's payments stays below the bounds. -/
def DebitsFit (w : Window) (carryDelta : List (String × Int)) (books : Books) : Prop :=
  books.debitsLive = false →
    Run.Along (fun state entry => DebitFits state.1 entry) bookDebit
      (w, { books with debited := [], shortfall := [] }) (carryDelta.filter fun entry => entry.2 < 0)

/-- Booking a block's earnings stays below the bounds. -/
def CreditsFit (l : Ledger) (carryDelta : List (String × Int)) (books : Books) : Prop :=
  books.creditsLive = false →
    Run.Along (fun state entry => CreditFits state.1.window entry) bookCredit
      (l, { books with credited := [], debtPaid := [] }) (carryDelta.filter fun entry => 0 < entry.2)

/-- Taking a block's earnings back stays below the bounds. -/
def TakeBackFits (w : Window) (books : Books) : Prop :=
  books.creditsLive = true →
    Run.Along UnbookFits unbookCredit (w, 0) books.credited ∧
      Run.Along RestoreDebtFits (fun w entry => w.restoreDebt entry.1 entry.2)
        (books.credited.foldl unbookCredit (w, 0)).1 books.debtPaid

/-- Giving a block's payments back stays below the bounds. -/
def GiveBackFits (w : Window) (books : Books) : Prop :=
  books.debitsLive = true →
    Run.Along RestoreFits (fun w entry => (w.restoreCarry entry.1 entry.2).1) w books.debited ∧
      Run.Along RestoreFits (fun w entry => w.forgiveDebt entry.1 entry.2)
        (books.debited.foldl (fun w entry => (w.restoreCarry entry.1 entry.2).1) w) books.shortfall

/-- No amount a call moves runs into the top of its type. -/
def Account.Fits (a : Account) : Call → Prop
  | .bookDebits i => ∀ block ∈ a.blocks[i]?, DebitsFit a.ledger.window block.carryDelta block.books
  | .bookCredits i => ∀ block ∈ a.blocks[i]?, CreditsFit a.ledger block.carryDelta block.books
  | .unbook i => ∀ block ∈ a.blocks[i]?,
    TakeBackFits a.ledger.window block.books ∧
      GiveBackFits (takeBackCredits a.ledger.window block.books).1
        (takeBackCredits a.ledger.window block.books).2.1
  | .holdCarry batch entries now after least _ _ => a.ledger.window.holds.lookup batch = none →
    Run.Along HoldFits (holdEntry (a.ledger.window.staleCarries now after least))
      (a.ledger.window, [], []) entries
  | .releaseHold batch => ∀ hold ∈ a.ledger.window.holds.lookup batch,
    Run.Along RestoreFits (fun w entry => (w.restoreCarry entry.1 entry.2).1)
      { a.ledger.window with holds := a.ledger.window.holds.erase batch } hold.entries
  | .finishHold _ => True

instance (w : Window) (carryDelta : List (String × Int)) (books : Books) :
    Decidable (DebitsFit w carryDelta books) := inferInstanceAs (Decidable (_ → _))

instance (l : Ledger) (carryDelta : List (String × Int)) (books : Books) :
    Decidable (CreditsFit l carryDelta books) := inferInstanceAs (Decidable (_ → _))

instance (w : Window) (books : Books) : Decidable (TakeBackFits w books) :=
  inferInstanceAs (Decidable (_ → _ ∧ _))

instance (w : Window) (books : Books) : Decidable (GiveBackFits w books) :=
  inferInstanceAs (Decidable (_ → _ ∧ _))

instance Account.decidableFits (a : Account) : (call : Call) → Decidable (a.Fits call)
  | .bookDebits i => inferInstanceAs (Decidable (∀ block ∈ a.blocks[i]?, _))
  | .bookCredits i => inferInstanceAs (Decidable (∀ block ∈ a.blocks[i]?, _))
  | .unbook i => inferInstanceAs (Decidable (∀ block ∈ a.blocks[i]?, _ ∧ _))
  | .holdCarry _ _ _ _ _ _ _ => inferInstanceAs (Decidable (_ → _))
  | .releaseHold batch => inferInstanceAs (Decidable (∀ hold ∈ a.ledger.window.holds.lookup batch, _))
  | .finishHold _ => inferInstanceAs (Decidable True)

end Fits

section Block

/-- What a block on the ledger says its adjustments moved is what they are. -/
structure Found.Faithful (block : Found) : Prop where
  debits : block.books.debitsLive = true → ∀ identity,
    tally identity block.books.debited + tally identity block.books.shortfall =
      negative identity block.carryDelta
  credits : block.books.creditsLive = true → ∀ identity,
    tally identity block.books.credited + tally identity block.books.debtPaid =
      positive identity block.carryDelta

/-- A block's standing effect on what an identity is owed. -/
def Found.effect (identity : String) (block : Found) : Int :=
  (if block.books.creditsLive then (positive identity block.carryDelta : Int) else 0) -
    if block.books.debitsLive then (negative identity block.carryDelta : Int) else 0

private theorem sum_filter_identity (identity : String) (carryDelta : List (String × Int))
    (keep : String × Int → Bool) (size : Int → Nat)
    (agree : ∀ entry, size entry.2 = if keep entry then entry.2.natAbs else 0) :
    ((carryDelta.filter keep).map fun entry => if entry.1 = identity then entry.2.natAbs else 0).sum =
      tally identity (carryDelta.map fun entry => (entry.1, size entry.2)) := by
  induction carryDelta with
  | nil => rfl
  | cons entry rest ih =>
    rw [List.map_cons, tally_cons, ← ih, agree entry]
    cases kept : keep entry with
    | true => simp [kept]
    | false => simp [kept]

private theorem sum_negative (identity : String) (carryDelta : List (String × Int)) :
    ((carryDelta.filter fun entry => entry.2 < 0).map
      fun entry => if entry.1 = identity then entry.2.natAbs else 0).sum = negative identity carryDelta := by
  apply sum_filter_identity identity carryDelta _ fun sats => (-sats).toNat
  intro entry
  simp only [decide_eq_true_eq]
  split <;> omega

private theorem sum_positive (identity : String) (carryDelta : List (String × Int)) :
    ((carryDelta.filter fun entry => 0 < entry.2).map
      fun entry => if entry.1 = identity then entry.2.natAbs else 0).sum = positive identity carryDelta := by
  apply sum_filter_identity identity carryDelta _ Int.toNat
  intro entry
  simp only [decide_eq_true_eq]
  split <;> omega

private theorem sum_cast (identity : String) (entries : List (String × Int)) :
    (entries.map fun entry => ((if entry.1 = identity then entry.2.natAbs else 0 : Nat) : Int)).sum =
      ((entries.map fun entry => if entry.1 = identity then entry.2.natAbs else 0).sum : Nat) := by
  induction entries with
  | nil => rfl
  | cons entry rest ih => rw [List.map_cons, List.sum_cons, ih, List.map_cons, List.sum_cons, Int.natCast_add]

section Booking

variable {l : Ledger} {carryDelta : List (String × Int)} {books : Books}

/-- Booking the payments takes them off, and the record says where they came from. -/
theorem bookDebits_law (fits : DebitsFit l.window carryDelta books) (unbooked : books.debitsLive = false)
    (identity : String) :
    (l.bookDebits carryDelta books).1.window.net identity =
        l.window.net identity - (negative identity carryDelta : Nat) ∧
      tally identity (l.bookDebits carryDelta books).2.debited +
        tally identity (l.bookDebits carryDelta books).2.shortfall = negative identity carryDelta := by
  have steps := (fits unbooked).and_mem (fun entry => entry.2 < 0) fun entry member => by
    simpa using (List.mem_filter.mp member).2
  have owed := Run.foldl_measure (fun state : Window × Books => -state.1.net identity)
    (fun entry : String × Int => ((if entry.1 = identity then entry.2.natAbs else 0 : Nat) : Int))
    (fun state entry allowed => by
      have paid := net_bookDebit allowed.1 allowed.2 identity
      omega) steps
  have recorded := Run.foldl_measure
    (fun state : Window × Books => tally identity state.2.debited + tally identity state.2.shortfall)
    (fun entry : String × Int => if entry.1 = identity then entry.2.natAbs else 0)
    (fun state entry allowed => bookDebit_recorded state allowed.2 identity) steps
  rw [sum_cast, sum_negative] at owed
  simp only at owed
  rw [sum_negative] at recorded
  unfold Ledger.bookDebits
  rw [if_neg (by simp [unbooked])]
  refine ⟨?_, ?_⟩
  · simp only [net_adjustRebateOwed]
    omega
  · simpa using recorded

private theorem bookCredits_law (fits : CreditsFit l carryDelta books) (unbooked : books.creditsLive = false)
    (identity : String) :
    (l.bookCredits carryDelta books).1.window.net identity =
        l.window.net identity + (positive identity carryDelta : Nat) ∧
      tally identity (l.bookCredits carryDelta books).2.credited +
        tally identity (l.bookCredits carryDelta books).2.debtPaid = positive identity carryDelta := by
  have owed := Run.foldl_measure (fun state : Ledger × Books => state.1.window.net identity)
    (fun entry : String × Int => ((if entry.1 = identity then entry.2.natAbs else 0 : Nat) : Int))
    (fun state entry allowed => net_bookCredit allowed identity) (fits unbooked)
  have recorded := Run.foldl_measure
    (fun state : Ledger × Books => tally identity state.2.credited + tally identity state.2.debtPaid)
    (fun entry : String × Int => if entry.1 = identity then entry.2.natAbs else 0)
    (fun state entry allowed => bookCredit_recorded allowed identity) (fits unbooked)
  rw [sum_cast, sum_positive] at owed
  rw [sum_positive] at recorded
  unfold Ledger.bookCredits
  rw [if_neg (by simp [unbooked])]
  refine ⟨?_, ?_⟩
  · simpa using owed
  · simpa using recorded

private theorem takeBackCredits_law {w : Window} (fits : TakeBackFits w books)
    (live : books.creditsLive = true) :
    (takeBackCredits w books).2.2 = ((shortParts w books.credited).map Prod.snd).sum ∧
      ∀ identity, (takeBackCredits w books).1.net identity =
        w.net identity - (tally identity books.credited + tally identity books.debtPaid : Nat) +
          (tally identity (shortParts w books.credited) : Nat) := by
  obtain ⟨credited, debtPaid⟩ := fits live
  obtain ⟨reported, owed⟩ := unbookCredits_law credited
  simp only [takeBackCredits, live, ↓reduceIte, net_adjustRebateOwed]
  refine ⟨by simpa using reported, ?_⟩
  intro identity
  have paid := Run.foldl_measure (fun w : Window => -w.net identity)
    (fun entry : String × Nat => ((if entry.1 = identity then entry.2 else 0 : Nat) : Int))
    (fun w entry allowed => by
      have restored := net_restoreDebt allowed identity
      omega) debtPaid
  have taken := owed identity
  simp only at taken
  rw [← cast_tally] at paid
  push_cast
  omega

private theorem giveBackDebits_law {w : Window} (fits : GiveBackFits w books) (live : books.debitsLive = true)
    (identity : String) :
    (giveBackDebits w books).1.net identity =
      w.net identity + (tally identity books.debited + tally identity books.shortfall : Nat) := by
  obtain ⟨debited, shortfall⟩ := fits live
  have back := Run.foldl_measure (fun w : Window => w.net identity)
    (fun entry : String × Nat => ((if entry.1 = identity then entry.2 else 0 : Nat) : Int))
    (fun w entry allowed => net_restoreCarry allowed identity) debited
  have forgiven := Run.foldl_measure (fun w : Window => w.net identity)
    (fun entry : String × Nat => ((if entry.1 = identity then entry.2 else 0 : Nat) : Int))
    (fun w entry allowed => net_forgiveDebt allowed identity) shortfall
  simp only [giveBackDebits, live, ↓reduceIte, net_adjustRebateOwed]
  rw [← cast_tally] at back forgiven
  push_cast
  omega

end Booking

section Kept

variable {l : Ledger} {block : Found}

private theorem bookDebits_kept (faithful : block.Faithful)
    (fits : DebitsFit l.window block.carryDelta block.books) :
    let after := l.bookDebits block.carryDelta block.books
    let booked : Found := { block with books := after.2 }
    booked.Faithful ∧ ∀ identity,
      after.1.window.net identity - booked.effect identity = l.window.net identity - block.effect identity := by
  intro after booked
  obtain ⟨debited, shortfall, rebateDebited, same⟩ := bookDebits_frame l block.carryDelta block.books
  cases live : block.books.debitsLive with
  | true =>
    have unchanged : after = (l, block.books) := by simp [after, Ledger.bookDebits, live]
    have kept : booked = block := by simp [booked, unchanged]
    rw [kept, unchanged]
    exact ⟨faithful, fun _ => rfl⟩
  | false =>
    have law := bookDebits_law fits live
    refine ⟨⟨fun _ identity => (law identity).2, ?_⟩, ?_⟩
    · simp only [booked, after, same]
      exact faithful.credits
    · intro identity
      have moved := (law identity).1
      simp only [Found.effect, booked, after, same, live] at moved ⊢
      simp only [↓reduceIte, Bool.false_eq_true]
      omega

private theorem bookCredits_kept (faithful : block.Faithful)
    (fits : CreditsFit l block.carryDelta block.books) : let after := l.bookCredits block.carryDelta block.books
    let booked : Found := { block with books := after.2 }
    booked.Faithful ∧ ∀ identity,
      after.1.window.net identity - booked.effect identity = l.window.net identity - block.effect identity := by
  intro after booked
  obtain ⟨credited, debtPaid, rebateAdded, same⟩ := bookCredits_frame l block.carryDelta block.books
  cases live : block.books.creditsLive with
  | true =>
    have unchanged : after = (l, block.books) := by simp [after, Ledger.bookCredits, live]
    have kept : booked = block := by simp [booked, unchanged]
    rw [kept, unchanged]
    exact ⟨faithful, fun _ => rfl⟩
  | false =>
    have law := bookCredits_law fits live
    refine ⟨⟨?_, fun _ identity => (law identity).2⟩, ?_⟩
    · simp only [booked, after, same]
      exact faithful.debits
    · intro identity
      have moved := (law identity).1
      simp only [Found.effect, booked, after, same, live] at moved ⊢
      simp only [↓reduceIte, Bool.false_eq_true]
      omega

private theorem unbook_kept (faithful : block.Faithful) (taking : TakeBackFits l.window block.books)
    (giving : GiveBackFits (takeBackCredits l.window block.books).1
      (takeBackCredits l.window block.books).2.1) :
    let after := l.unbook block.books
    let undone : Found := { block with books := after.2.1 }
    let short := if block.books.creditsLive then shortParts l.window block.books.credited else []
    undone.Faithful ∧ after.2.2 = (short.map Prod.snd).sum ∧ ∀ identity,
      after.1.window.net identity - undone.effect identity =
        l.window.net identity - block.effect identity + (tally identity short : Nat) := by
  intro after undone short
  have credits : (takeBackCredits l.window block.books).2.2 = (short.map Prod.snd).sum ∧ ∀ identity,
      (takeBackCredits l.window block.books).1.net identity = l.window.net identity -
        (if block.books.creditsLive then (positive identity block.carryDelta : Int) else 0) +
          (tally identity short : Nat) := by
    cases live : block.books.creditsLive with
    | true =>
      obtain ⟨reported, owed⟩ := takeBackCredits_law taking live
      simp only [short, live, ↓reduceIte]
      refine ⟨reported, fun identity => ?_⟩
      rw [owed identity, faithful.credits live identity]
    | false => simp [takeBackCredits, live, short]
  have debits :
    ∀ identity, after.1.window.net identity = (takeBackCredits l.window block.books).1.net identity +
      if block.books.debitsLive then (negative identity block.carryDelta : Int) else 0 := by
    intro identity
    simp only [after, Ledger.unbook]
    cases live : block.books.debitsLive with
    | true =>
      rw [giveBackDebits_law giving (by simp [live]), takeBackCredits_debited, takeBackCredits_shortfall,
        faithful.debits live]
      simp
    | false => simp [giveBackDebits, live]
  have cleared : after.2.1.creditsLive = false ∧ after.2.1.debitsLive = false :=
    ⟨unbook_creditsLive block.books l, unbook_debitsLive block.books l⟩
  refine ⟨⟨?_, ?_⟩, credits.1, ?_⟩
  · intro live
    rw [cleared.2] at live
    cases live
  · intro live
    rw [cleared.1] at live
    cases live
  · intro identity
    have first := credits.2 identity
    have second := debits identity
    simp only [Found.effect, undone, cleared, Bool.false_eq_true, ↓reduceIte]
    omega

end Kept

end Block

section Holds

variable {l : Ledger} {batch : String}

/-- Setting balances aside owes everybody what it owed them. -/
theorem net_holdCarry
    (fits : Run.Along HoldFits (holdEntry (l.window.staleCarries now after least)) (l.window, [], []) entries)
    (held : l.holdCarry batch entries now after least tipHeight readyHeight = .ok (l', taken, skipped))
    (identity : String) : l'.window.net identity = l.window.net identity := by
  have holding := Run.foldl_invariant (Holding l.window) (Holding.entry fun _ member => carryOf_stale member)
    fits (Holding.refl l.window)
  simp only [Ledger.holdCarry] at held
  split at held
  · cases held
  · rename_i fresh
    generalize entries.foldl (holdEntry (l.window.staleCarries now after least)) (l.window, [], []) = final at *
    obtain ⟨w, entries, passed⟩ := final
    have moved := holding.moved identity
    have debt := holding.debts identity
    have holds := holding.holds
    simp only at moved debt holds held
    split at held
    · rename_i none
      obtain ⟨rfl, -, -⟩ := by simpa using held
      simp only [none, tally_nil, Nat.add_zero] at moved
      simp only [net, heldOf, moved, debt, holds]
    · obtain ⟨rfl, -, -⟩ := by simpa using held
      have missing : w.holds.lookup batch = none := by simpa [holds] using fresh
      have added := total_insert (fun hold : Hold => tally identity hold.entries) w.holds batch
        { createdTs := now, height := tipHeight, readyHeight, entries }
      simp only [missing, Option.map_none, Option.getD_none, Nat.add_zero] at added
      simp only [net, heldOf, heldIn, carryOf, debtOf] at moved debt added ⊢
      rw [added, holds]
      omega

private theorem net_erase_hold {w : Window} (found : w.holds.lookup batch = some hold) (identity : String) :
    ({ w with holds := w.holds.erase batch } : Window).net identity =
      w.net identity - (tally identity hold.entries : Nat) := by
  have removed := total_erase (fun hold : Hold => tally identity hold.entries) w.holds batch
  simp only [found, Option.map_some, Option.getD_some] at removed
  simp only [net, heldOf, heldIn, carryOf, debtOf]
  omega

private theorem net_releaseHold
    (fits : ∀ hold ∈ l.window.holds.lookup batch,
      Run.Along RestoreFits (fun w entry => (w.restoreCarry entry.1 entry.2).1)
        { l.window with holds := l.window.holds.erase batch } hold.entries)
    (released : l.releaseHold batch = some (l', entries)) (identity : String) :
    l'.window.net identity = l.window.net identity := by
  obtain ⟨hold, found, same⟩ := Option.map_eq_some_iff.mp released
  obtain ⟨rfl, rfl⟩ := Prod.mk.inj same
  have back := Run.foldl_measure (fun w : Window => w.net identity)
    (fun entry : String × Nat => ((if entry.1 = identity then entry.2 else 0 : Nat) : Int))
    (fun w entry allowed => net_restoreCarry allowed identity) (fits hold found)
  rw [← cast_tally, net_erase_hold found] at back
  simpa using back

private theorem net_finishHold (finished : l.finishHold batch = some (l', entries)) (identity : String) :
    l'.window.net identity = l.window.net identity - (tally identity entries : Nat) := by
  obtain ⟨hold, found, same⟩ := Option.map_eq_some_iff.mp finished
  obtain ⟨rfl, rfl⟩ := Prod.mk.inj same
  exact net_erase_hold found identity

end Holds

namespace Account

/-- The law, with what its steps need: every record faithful, and the short parts adding up to what
was reported. -/
structure Balanced (start : Window) (a : Account) : Prop where
  faithful : ∀ block ∈ a.blocks, block.Faithful
  owed : ∀ identity, a.ledger.window.net identity = start.net identity +
    (a.blocks.map (Found.effect identity)).sum - (tally identity a.finished : Nat) +
      (tally identity a.short : Nat)
  reported : (a.short.map Prod.snd).sum = a.reported

/-- Replacing one block moves the sum of effects by the difference of the two. -/
private theorem sum_effect_set {blocks : List Found} (found : blocks[i]? = some block) (block' : Found)
    (identity : String) : ((blocks.set i block').map (Found.effect identity)).sum =
      (blocks.map (Found.effect identity)).sum - block.effect identity + block'.effect identity := by
  obtain ⟨bound, same⟩ := List.getElem?_eq_some_iff.mp found
  rw [List.map_set, List.sum_set']
  simp only [List.length_map, bound, ↓reduceDIte, List.getElem_map, same]
  omega

/-- A call that moves one block and owes the difference of its effects keeps the law. -/
private theorem Balanced.replace {start : Window} {a : Account} (balanced : a.Balanced start)
    (found : a.blocks[i]? = some block) {block' : Found} (faithful : block'.Faithful) (ledger : Ledger)
    (short : List (String × Nat)) (reported : Nat) (total : reported = (short.map Prod.snd).sum)
    (moved : ∀ identity, ledger.window.net identity - block'.effect identity =
      a.ledger.window.net identity - block.effect identity + (tally identity short : Nat)) :
    Balanced start { a with
      ledger, blocks := a.blocks.set i block', short := a.short ++ short, reported :=
        a.reported + reported } := by
  refine ⟨?_, ?_, ?_⟩
  · intro other member
    rcases List.mem_or_eq_of_mem_set member with before | same
    · exact balanced.faithful other before
    · exact same ▸ faithful
  · intro identity
    have before := balanced.owed identity
    have change := moved identity
    simp only [sum_effect_set found, tally_append]
    push_cast
    omega
  · simp [balanced.reported, total]

theorem Balanced.call {start : Window} (a : Account) (c : Call) (balanced : a.Balanced start)
    (fits : a.Fits c) : (a.call c).Balanced start := by
  cases c with
  | bookDebits i =>
    simp only [Account.call]
    split
    · exact balanced
    · rename_i block found
      obtain ⟨faithful, moved⟩ := bookDebits_kept (balanced.faithful block (List.mem_of_getElem? found))
        (fits block found)
      simpa using balanced.replace found faithful _ [] 0 rfl (by simpa using moved)
  | bookCredits i =>
    simp only [Account.call]
    split
    · exact balanced
    · rename_i block found
      obtain ⟨faithful, moved⟩ := bookCredits_kept (balanced.faithful block (List.mem_of_getElem? found))
        (fits block found)
      simpa using balanced.replace found faithful _ [] 0 rfl (by simpa using moved)
  | unbook i =>
    simp only [Account.call]
    split
    · exact balanced
    · rename_i block found
      obtain ⟨taking, giving⟩ := fits block found
      obtain ⟨faithful, reported, moved⟩ := unbook_kept (balanced.faithful block (List.mem_of_getElem? found))
        taking giving
      exact balanced.replace found faithful _ _ _ reported moved
  | holdCarry batch entries now after least tipHeight readyHeight =>
    simp only [Account.call]
    split
    · exact balanced
    · rename_i held
      refine ⟨balanced.faithful, fun identity => ?_, balanced.reported⟩
      have fresh : a.ledger.window.holds.lookup batch = none := by
        by_contra present
        have filed := Option.isSome_iff_ne_none.mpr present
        simp [Ledger.holdCarry, filed] at held
      rw [net_holdCarry (fits fresh) held]
      exact balanced.owed identity
  | releaseHold batch =>
    simp only [Account.call]
    split
    · exact balanced
    · rename_i released
      refine ⟨balanced.faithful, fun identity => ?_, balanced.reported⟩
      rw [net_releaseHold fits released]
      exact balanced.owed identity
  | finishHold batch =>
    simp only [Account.call]
    split
    · exact balanced
    · rename_i finished
      refine ⟨balanced.faithful, fun identity => ?_, balanced.reported⟩
      rw [net_finishHold finished, balanced.owed identity, tally_append]
      push_cast
      omega

/-- Blocks keep the adjustments they were found with. -/
theorem call_carryDelta (a : Account) (c : Call) :
    (a.call c).blocks.map Found.carryDelta = a.blocks.map Found.carryDelta := by
  have kept : ∀ {i : Nat} {block : Found} (books : Books), a.blocks[i]? = some block →
      (a.blocks.set i { block with books }).map Found.carryDelta = a.blocks.map Found.carryDelta := by
    intro i block books found
    obtain ⟨bound, rfl⟩ := List.getElem?_eq_some_iff.mp found
    have same : (a.blocks.map Found.carryDelta)[i]? = some a.blocks[i].carryDelta := by simp [bound]
    obtain ⟨_, same⟩ := List.getElem?_eq_some_iff.mp same
    rw [List.map_set, ← same, List.set_getElem_self]
  cases c <;> simp only [Account.call] <;> split <;> first | rfl | exact kept _ (by assumption)

/-- The sum of standing effects, credits and debits apart. -/
private theorem sum_effect (blocks : List Found) (identity : String) :
    (blocks.map (Found.effect identity)).sum =
      (((blocks.filter fun block => block.books.creditsLive).map fun block =>
        positive identity block.carryDelta).sum : Nat) -
      (((blocks.filter fun block => block.books.debitsLive).map fun block =>
        negative identity block.carryDelta).sum : Nat) := by
  induction blocks with
  | nil => rfl
  | cons block rest ih =>
    simp only [List.map_cons, List.sum_cons, ih, Found.effect]
    cases credits : block.books.creditsLive <;> cases debits : block.books.debitsLive <;>
      simp [credits, debits] <;> omega

/-- The carry ledger law. Starting from blocks none of which is on the ledger, and over calls none
of which meets a bound, an identity's carry and holds less its debt are what they were, plus its
earnings from the blocks whose credits are live, less its payments from the blocks whose debits are
live, less its holds that were paid, plus its share of the credits that an undoing reported short. -/
theorem carry_ledger_law (ledger : Ledger) (blocks : List Found)
    (unbooked : ∀ block ∈ blocks, block.books.debitsLive = false ∧ block.books.creditsLive = false)
    (calls : List Call) (fits : Run.Along Fits Account.call { ledger, blocks } calls) (identity : String) :
    let a := calls.foldl Account.call { ledger, blocks }
    (a.ledger.window.carryOf identity : Int) + a.ledger.window.heldOf identity -
      a.ledger.window.debtOf identity =
      (ledger.window.carryOf identity + ledger.window.heldOf identity - ledger.window.debtOf identity) +
        (((a.blocks.filter fun block => block.books.creditsLive).map fun block =>
          positive identity block.carryDelta).sum : Nat) -
        (((a.blocks.filter fun block => block.books.debitsLive).map fun block =>
          negative identity block.carryDelta).sum : Nat) -
        (tally identity a.finished : Nat) + (tally identity a.short : Nat) ∧
      (a.short.map Prod.snd).sum = a.reported ∧
      a.blocks.map Found.carryDelta = blocks.map Found.carryDelta := by
  intro a
  have opened : Balanced ledger.window { ledger, blocks } := by
    refine ⟨?_, ?_, rfl⟩
    · intro block member
      obtain ⟨debits, credits⟩ := unbooked block member
      exact ⟨by simp [debits], by simp [credits]⟩
    · intro other
      have nothing : (blocks.map (Found.effect other)).sum = 0 := by
        apply List.sum_eq_zero
        intro effect member
        obtain ⟨block, present, rfl⟩ := List.mem_map.mp member
        simp [Found.effect, unbooked block present]
      simp [nothing]
  have balanced : a.Balanced ledger.window :=
    Run.foldl_invariant (Balanced ledger.window) Balanced.call fits opened
  have owed := balanced.owed identity
  rw [sum_effect, net, net] at owed
  refine ⟨by omega, balanced.reported, ?_⟩
  exact Run.foldl_unmoved (fun a : Account => a.blocks.map Found.carryDelta) call_carryDelta _ _

/-- Two blocks found on the same coinbaser, each paying the same 500 sats of carry. The first is
orphaned after it was confirmed, when the second has already collected its credit. -/
theorem carry_ledger_law_double_paid :
    let start : Account :=
      { ledger := { window := Window.setCarry {} "miner" 500 }
        blocks := [⟨[("miner", -500), ("other", 300)], {}⟩, ⟨[("miner", -500), ("other", -300)], {}⟩] }
    let calls := [Call.bookDebits 0, .bookCredits 0, .bookDebits 1, .unbook 0, .bookCredits 1]
    Run.Along Fits Account.call start calls ∧
      ((calls.foldl Account.call start).ledger.window.carryOf "other" : Int) +
        (calls.foldl Account.call start).ledger.window.heldOf "other" -
        (calls.foldl Account.call start).ledger.window.debtOf "other" = 0 - 300 + 300 := by
  intro start calls
  have fits : Run.Along Fits Account.call start calls := by decide
  refine ⟨fits, ?_⟩
  rw [(carry_ledger_law start.ledger start.blocks (by decide) calls fits "other").1]
  decide

end Account

end Lazarus.Tides
