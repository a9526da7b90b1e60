import Lazarus.Lib.Fallible
import Lazarus.Primed.Payouts

/-! What a payment that is taken for a hold covers. Outputs are added up script by script, and each balance is
held against the sum of its own script, whatever else is held against that sum. -/

namespace Lazarus.Primed

open Tally Machine Fallible

namespace ShownTx

/-- The node says what each output is worth. -/
def Readable (tx : ShownTx) : Prop := ∃ vout, tx.vout = some vout ∧ ∀ out ∈ vout, out.2.isSome

/-- The outputs as they are added up. -/
def outputs (tx : ShownTx) : List (String × Nat) :=
  (tx.vout.getD []).map fun out => (out.1.toLower, out.2.getD 0)

/-- What the transaction pays to a script. -/
def paid (tx : ShownTx) (script : String) : Nat := tally script tx.outputs

/-- No sum leaves its width, where the build would stop. -/
def Summable (tx : ShownTx) : Prop := ∀ script, tx.paid script ≤ u64Max

end ShownTx

variable {tx : ShownTx} {entries : List (String × Nat)} {scriptFor : String → Option String}

/-- What the entries hold of a script together. -/
def heldOf (entries : List (String × Nat)) (scriptFor : String → Option String) (script : String) : Nat :=
  tally (some script) (entries.map fun entry => (scriptFor entry.1, entry.2))

/-- The payment is taken for the hold. -/
def Accepts (tx : ShownTx) (entries : List (String × Nat)) (scriptFor : String → Option String) : Prop :=
  tx.Summable ∧ paysAll tx entries scriptFor = .ok ()

/-- The payment is taken only where every script has all that is held of it. -/
def CoversHeld (tx : ShownTx) (entries : List (String × Nat)) (scriptFor : String → Option String) : Prop :=
  Accepts tx entries scriptFor → ∀ script, heldOf entries scriptFor script ≤ tx.paid script

/-- Two of the entries hold a balance of one script. -/
def Shared (entries : List (String × Nat)) (scriptFor : String → Option String) (script : String) : Prop :=
  ∃ first second, [first, second].Sublist entries ∧ scriptFor first.1 = some script ∧
    scriptFor second.1 = some script ∧ 0 < first.2 ∧ 0 < second.2

/-- Every balance is at most what its script is paid, and a script that several share is paid less than
they hold of it together. -/
def CountedTwice (tx : ShownTx) (entries : List (String × Nat)) (scriptFor : String → Option String) : Prop :=
  tx.Readable ∧ tx.Summable ∧
    (∀ entry ∈ entries, ∃ script, scriptFor entry.1 = some script ∧ entry.2 ≤ tx.paid script) ∧
    ∃ script, Shared entries scriptFor script ∧ tx.paid script < heldOf entries scriptFor script

section Amounts

variable {α : Type} {f : α → Nat}

private theorem exists_pair_of_lt_sum {items : List α} {bound : Nat} (each : ∀ item ∈ items, f item ≤ bound)
    (beyond : bound < (items.map f).sum) : ∃ first second, [first, second].Sublist items ∧
      0 < f first ∧ 0 < f second := by
  induction items with
  | nil => simp at beyond
  | cons item rest ih =>
    rw [List.map_cons, List.sum_cons] at beyond
    by_cases some : 0 < f item
    · have more : (rest.map f).sum ≠ 0 := by
        have within := each item (by simp)
        omega
      obtain ⟨other, member, here⟩ : ∃ other ∈ rest, f other ≠ 0 := by
        by_contra none
        push Not at none
        exact more (List.sum_eq_zero fun amount member => by
          obtain ⟨other, present, rfl⟩ := List.mem_map.mp member
          exact none other present)
      exact ⟨item, other, List.cons_sublist_cons.mpr (List.singleton_sublist.mpr member),
        some, Nat.pos_of_ne_zero here⟩
    · obtain ⟨first, second, two, here, there⟩ :=
        ih (fun other member => each other (by simp [member])) (by omega)
      exact ⟨first, second, two.trans (List.sublist_cons_self item rest), here, there⟩

private theorem lt_sum_of_pair {items : List α} {first second item : α}
    (two : [first, second].Sublist items) (here : 0 < f first)
    (there : 0 < f second) (member : item ∈ items) : f item < (items.map f).sum := by
  induction items with
  | nil => cases member
  | cons head rest ih =>
    rw [List.map_cons, List.sum_cons]
    have part : ∀ other ∈ rest, f other ≤ (rest.map f).sum := fun other present =>
      List.single_le_sum (fun _ _ => Nat.zero_le _) _ (List.mem_map_of_mem present)
    cases two with
    | cons _ two =>
      rcases List.mem_cons.mp member with rfl | later
      · have some := part first (two.subset (by simp))
        omega
      · have less := ih two later
        omega
    | cons_cons _ two =>
      have some := part second (two.subset (by simp))
      rcases List.mem_cons.mp member with rfl | later
      · omega
      · have within := part item later
        omega

end Amounts

section Check

private theorem heldOf_eq (entries : List (String × Nat)) (scriptFor : String → Option String)
    (script : String) : heldOf entries scriptFor script =
    ((entries.filter fun entry => scriptFor entry.1 = some script).map Prod.snd).sum := by
  induction entries with
  | nil => rfl
  | cons entry rest ih =>
    unfold heldOf at ih ⊢
    rw [List.map_cons, tally_cons, ih, List.filter_cons]
    by_cases here : scriptFor entry.1 = some script
    · simp [here]
    · simp [here]

private theorem paysAll_eq_ok : paysAll tx entries scriptFor = .ok () ↔
    tx.Readable ∧ ∀ entry ∈ entries, ∃ script, scriptFor entry.1 = some script ∧ entry.2 ≤ tx.paid script := by
  unfold paysAll ShownTx.Readable ShownTx.paid ShownTx.outputs
  cases listed : tx.vout with
  | none => simp [bind, Except.bind]
  | some vout =>
    simp only [Option.some.injEq, exists_eq_left', Option.getD_some]
    rw [bind_eq_ok]
    refine (exists_congr fun outs => and_congr
      (mapM_eq_ok fun out got => (?worthOf : _ ↔ out.2.isSome ∧ got = (out.1.toLower, out.2.getD 0)))
      (forM_eq_ok.trans (forall₂_congr fun entry _ =>
        (?each : _ ↔ ∃ script, scriptFor entry.1 = some script ∧ entry.2 ≤ tally script outs)))).trans ?_
    case worthOf =>
      cases out.2 with
      | none => simp
      | some sats => simp [eq_comm]
    case each =>
      cases scriptFor entry.1 with
      | none => simp [bind, Except.bind]
      | some script => simp [bind, Except.bind, pure, Except.pure]
    constructor
    · rintro ⟨_, ⟨worth, rfl⟩, covered⟩
      exact ⟨worth, covered⟩
    · rintro ⟨worth, covered⟩
      exact ⟨_, ⟨worth, rfl⟩, covered⟩

private theorem accepts_iff : Accepts tx entries scriptFor ↔ tx.Readable ∧ tx.Summable ∧
    ∀ entry ∈ entries, ∃ script, scriptFor entry.1 = some script ∧ entry.2 ≤ tx.paid script := by
  rw [Accepts, paysAll_eq_ok]
  tauto

private theorem shared_of_lt {script : String}
    (each : ∀ entry ∈ entries, ∃ script, scriptFor entry.1 = some script ∧ entry.2 ≤ tx.paid script)
    (less : tx.paid script < heldOf entries scriptFor script) : Shared entries scriptFor script := by
  have within : ∀ entry ∈ entries.filter fun entry => scriptFor entry.1 = some script,
      entry.2 ≤ tx.paid script := by
    intro entry member
    obtain ⟨present, here⟩ := List.mem_filter.mp member
    obtain ⟨other, there, covered⟩ := each entry present
    rw [of_decide_eq_true here, Option.some.injEq] at there
    exact there ▸ covered
  rw [heldOf_eq] at less
  obtain ⟨first, second, two, here, there⟩ := exists_pair_of_lt_sum within less
  have ours : ∀ entry ∈ [first, second], scriptFor entry.1 = some script := fun entry member =>
    of_decide_eq_true (List.mem_filter.mp (two.subset member)).2
  exact ⟨first, second, two.trans List.filter_sublist, ours first (by simp), ours second (by simp), here, there⟩

private theorem coversHeld_iff : CoversHeld tx entries scriptFor ↔ ¬ CountedTwice tx entries scriptFor := by
  constructor
  · rintro covers ⟨readable, summable, each, script, -, less⟩
    exact Nat.not_lt.mpr (covers (accepts_iff.mpr ⟨readable, summable, each⟩) script) less
  · intro single accepted script
    obtain ⟨readable, summable, each⟩ := accepts_iff.mp accepted
    by_contra less
    have less := Nat.not_le.mp less
    exact single ⟨readable, summable, each, script, shared_of_lt each less, less⟩

end Check

section Largest

/-- The largest of the balances of a script. -/
def largestOf (entries : List (String × Nat)) (scriptFor : String → Option String) (script : String) : Nat :=
  ((entries.filter fun entry => scriptFor entry.1 = some script).map Prod.snd).max?.getD 0

/-- A transaction that pays each script the largest of its balances. -/
def payLargest (entries : List (String × Nat)) (scriptFor : String → Option String) : ShownTx where
  confirmations := some paidConfirmations
  vout := some ((entries.filterMap fun entry => scriptFor entry.1).dedup.map fun script =>
    (script, some (largestOf entries scriptFor script)))

private theorem le_largestOf {entry : String × Nat} {script : String} (member : entry ∈ entries)
    (here : scriptFor entry.1 = some script) : entry.2 ≤ largestOf entries scriptFor script := by
  have present : entry.2 ∈ (entries.filter fun entry => scriptFor entry.1 = some script).map Prod.snd :=
    List.mem_map_of_mem (List.mem_filter.mpr ⟨member, by simpa using here⟩)
  unfold largestOf
  cases top : ((entries.filter fun entry => scriptFor entry.1 = some script).map Prod.snd).max? with
  | none =>
    rw [List.max?_eq_none_iff.mp top] at present
    cases present
  | some most => exact (List.max?_eq_some_iff.mp top).2 _ present

private theorem largestOf_cases (entries : List (String × Nat)) (scriptFor : String → Option String)
    (script : String) : largestOf entries scriptFor script = 0 ∨
      ∃ entry ∈ entries, scriptFor entry.1 = some script ∧ entry.2 = largestOf entries scriptFor script := by
  unfold largestOf
  cases top : ((entries.filter fun entry => scriptFor entry.1 = some script).map Prod.snd).max? with
  | none => exact .inl rfl
  | some most =>
    obtain ⟨entry, member, same⟩ := List.mem_map.mp (List.max?_eq_some_iff.mp top).1
    obtain ⟨present, here⟩ := List.mem_filter.mp member
    exact .inr ⟨entry, present, of_decide_eq_true here, same⟩

private theorem largestOf_lt {script : String} (shared : Shared entries scriptFor script) :
    largestOf entries scriptFor script < heldOf entries scriptFor script := by
  obtain ⟨first, second, two, here, there, pos, more⟩ := shared
  have pair : [first, second].Sublist (entries.filter fun entry => scriptFor entry.1 = some script) := by
    have kept := two.filter fun entry => scriptFor entry.1 = some script
    simpa [here, there] using kept
  have within : ∀ entry ∈ entries.filter fun entry => scriptFor entry.1 = some script,
      entry.2 < heldOf entries scriptFor script := fun entry member => by
    rw [heldOf_eq]
    exact lt_sum_of_pair pair pos more member
  rcases largestOf_cases entries scriptFor script with none | ⟨entry, member, mine, same⟩
  · rw [none]
    exact pos.trans (within first (pair.subset (by simp)))
  · rw [← same]
    exact within entry (List.mem_filter.mpr ⟨member, by simpa using mine⟩)

private theorem outputs_payLargest
    (lower : ∀ identity script, scriptFor identity = some script → script.toLower = script) :
    (payLargest entries scriptFor).outputs =
      (entries.filterMap fun entry => scriptFor entry.1).dedup.map fun script =>
      (script, largestOf entries scriptFor script) := by
  unfold ShownTx.outputs payLargest
  rw [Option.getD_some, List.map_map]
  refine List.map_congr_left fun script member => ?_
  obtain ⟨entry, -, here⟩ := List.mem_filterMap.mp (List.mem_dedup.mp member)
  simp [lower entry.1 script here]

private theorem paid_payLargest
    (lower : ∀ identity script, scriptFor identity = some script → script.toLower = script)
    (script : String) : (payLargest entries scriptFor).paid script = largestOf entries scriptFor script := by
  unfold ShownTx.paid
  rw [outputs_payLargest lower]
  by_cases named : script ∈ (entries.filterMap fun entry => scriptFor entry.1).dedup
  · apply tally_of_mem
    · rw [List.map_map]
      exact (List.map_id _).symm ▸ List.nodup_dedup _
    · exact List.mem_map_of_mem named
  · have absent : largestOf entries scriptFor script = 0 := by
      refine (largestOf_cases entries scriptFor script).resolve_right ?_
      rintro ⟨entry, member, here, -⟩
      exact named (List.mem_dedup.mpr (List.mem_filterMap.mpr ⟨entry, member, here⟩))
    rw [absent]
    apply tally_eq_zero
    intro out member same
    obtain ⟨other, present, rfl⟩ := List.mem_map.mp member
    exact named (same ▸ present)

private theorem countedTwice_payLargest (fits : ∀ entry ∈ entries, entry.2 ≤ u64Max)
    (lower : ∀ identity script, scriptFor identity = some script → script.toLower = script)
    (payable : ∀ entry ∈ entries, scriptFor entry.1 ≠ none) {script : String}
    (shared : Shared entries scriptFor script) :
    CountedTwice (payLargest entries scriptFor) entries scriptFor := by
  refine ⟨⟨_, rfl, ?_⟩, fun script => ?_, fun entry member => ?_, script, shared, ?_⟩
  · intro out member
    obtain ⟨script, -, rfl⟩ := List.mem_map.mp member
    rfl
  · rw [paid_payLargest lower]
    rcases largestOf_cases entries scriptFor script with none | ⟨entry, member, -, same⟩
    · exact none ▸ Nat.zero_le _
    · exact same ▸ fits entry member
  · obtain ⟨mine, here⟩ := Option.ne_none_iff_exists'.mp (payable entry member)
    exact ⟨mine, here, paid_payLargest lower mine ▸ le_largestOf member here⟩
  · rw [paid_payLargest lower]
    exact largestOf_lt shared

end Largest

/-- **What a payment covers.** A payment that is taken pays each script all that is held of it, unless one
payment is counted for several balances; and no payment is, whatever transaction is named, exactly where no two
balances of the hold share a script, or the hold cannot be paid at all. -/
theorem payment_covers_iff (fits : ∀ entry ∈ entries, entry.2 ≤ u64Max)
    (lower : ∀ identity script, scriptFor identity = some script → script.toLower = script) :
    (∀ tx, CoversHeld tx entries scriptFor ↔ ¬ CountedTwice tx entries scriptFor) ∧
      ((∀ tx, CoversHeld tx entries scriptFor) ↔
        (∃ entry ∈ entries, scriptFor entry.1 = none) ∨ ∀ script, ¬ Shared entries scriptFor script) := by
  refine ⟨fun tx => coversHeld_iff, ?_, ?_⟩
  · intro covers
    by_contra sharing
    push Not at sharing
    obtain ⟨payable, script, shared⟩ := sharing
    exact coversHeld_iff.mp (covers _) (countedTwice_payLargest fits lower payable shared)
  · rintro apart tx
    rw [coversHeld_iff]
    rintro ⟨-, -, each, script, shared, -⟩
    rcases apart with ⟨entry, member, unpayable⟩ | single
    · obtain ⟨mine, here, -⟩ := each entry member
      rw [unpayable] at here
      cases here
    · exact single script shared

/-- One address in the two cases it can be written in. -/
def eitherCase (identity : String) : Option String :=
  if identity = "bc1qa" ∨ identity = "BC1QA" then some "0014aa" else none

private theorem toLower_eitherCase (identity script : String) (here : eitherCase identity = some script) :
    script.toLower = script := by
  unfold eitherCase at here
  split at here
  · cases here
    apply String.toList_inj.mp
    rw [String.toLower, String.toList_map]
    decide
  · cases here

/-- Two addresses with scripts of their own. -/
def twoAddresses (identity : String) : Option String :=
  if identity = "bc1qa" then some "0014aa" else if identity = "bc1qb" then some "0014bb" else none

private theorem toLower_twoAddresses (identity script : String) (here : twoAddresses identity = some script) :
    script.toLower = script := by
  unfold twoAddresses at here
  split at here
  · cases here
    apply String.toList_inj.mp
    rw [String.toLower, String.toList_map]
    decide
  · split at here
    · cases here
      apply String.toList_inj.mp
      rw [String.toLower, String.toList_map]
      decide
    · cases here

/-- Balances apart are each paid whole by a payment that is taken. -/
theorem payment_covers_iff_apart :
    CoversHeld ⟨some 3, some [("0014aa", some 30000), ("0014bb", some 20000)]⟩
      [("bc1qa", 30000), ("bc1qb", 20000)]
      twoAddresses := by
  refine (payment_covers_iff (by decide) toLower_twoAddresses).2.mpr (.inr ?_) _
  rintro script ⟨first, second, among, here, there, _⟩
  obtain ⟨rfl, rfl⟩ : first = ("bc1qa", 30000) ∧ second = ("bc1qb", 20000) := by
    simpa using among.eq_of_length rfl
  have apart : twoAddresses "bc1qa" ≠ twoAddresses "bc1qb" := by decide
  exact apart (here.trans there.symm)

/-- Two balances of one script, and a payment of the larger. -/
theorem payment_counted_twice :
    ¬ CoversHeld ⟨some 3, some [("0014aa", some 30000)]⟩ [("bc1qa", 30000), ("BC1QA", 20000)] eitherCase := by
  have lowered : "0014aa".toLower = "0014aa" := toLower_eitherCase "bc1qa" "0014aa" (by decide)
  have paid : ∀ script, ShownTx.paid ⟨some 3, some [("0014aa", some 30000)]⟩ script =
      if "0014aa" = script then 30000 else 0 := fun script => by
    simp [ShownTx.paid, ShownTx.outputs, lowered]
  intro covers
  have taken :
      Accepts ⟨some 3, some [("0014aa", some 30000)]⟩ [("bc1qa", 30000), ("BC1QA", 20000)] eitherCase := by
    refine accepts_iff.mpr ⟨⟨_, rfl, by simp⟩, fun script => ?_, fun entry member => ⟨"0014aa", ?_⟩⟩
    · rw [paid]
      split <;> decide
    · rw [paid]
      revert entry
      decide
  have short := covers taken "0014aa"
  rw [paid] at short
  revert short
  decide

end Lazarus.Primed
