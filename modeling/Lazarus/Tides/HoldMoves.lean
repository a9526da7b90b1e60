import Lazarus.Tides.BatchHold
import Lazarus.Tides.LedgerLaw
import Lazarus.Tides.Reapply

/-! Where the sats go when a hold is made, drawn on and released: out of the carry, out of the oldest
batch first, and back to the carry less what is owed. -/

namespace Lazarus.Tides

open Machine Interner Tally Window

/-- No batch is empty, and no entry of a batch is. -/
def NoneEmpty (holds : AList fun _ : String => Hold) : Prop :=
  ∀ batch hold, holds.lookup batch = some hold → hold.entries ≠ [] ∧ ∀ entry ∈ hold.entries, 0 < entry.2

section Drawing

variable {identity other batch : String} {holds : AList fun _ : String => Hold} {left : Nat}

theorem NoneEmpty.drawBatch (noneEmpty : NoneEmpty holds) (batch : String) :
    NoneEmpty (drawBatch identity (holds, left) batch).1 := by
  simp only [Window.drawBatch]
  split
  · exact noneEmpty
  · cases found : holds.lookup batch with
    | none => exact noneEmpty
    | some hold =>
      intro other kept here
      by_cases same : other = batch
      · subst same
        simp only at here
        split at here
        · rw [AList.lookup_erase] at here
          cases here
        · rename_i some
          rw [AList.lookup_insert] at here
          obtain rfl := Option.some.inj here
          exact ⟨some, fun entry member => of_decide_eq_true (List.mem_filter.mp member).2⟩
      · simp only at here
        split at here
        · rw [AList.lookup_erase_ne same] at here
          exact noneEmpty other kept here
        · rw [AList.lookup_insert_ne same] at here
          exact noneEmpty other kept here

private theorem lookup_drawBatch_other (differs : other ≠ batch) :
    (drawBatch identity (holds, left) batch).1.lookup other = holds.lookup other := by
  simp only [Window.drawBatch]
  split
  · rfl
  · cases found : holds.lookup batch with
    | none => rfl
    | some hold =>
      simp only
      split
      · rw [AList.lookup_erase_ne differs]
      · rw [AList.lookup_insert_ne differs]

private theorem heldFor_drawBatch_other (differs : other ≠ identity) (batch next : String) :
    heldFor ((drawBatch identity (holds, left) next).1.lookup batch) other =
      heldFor (holds.lookup batch) other := by
  simp only [Window.drawBatch]
  split
  · rfl
  · cases found : holds.lookup next with
    | none => rfl
    | some hold =>
      have drawn := drawEntries_conserves identity other left hold.entries
      have kept : tally other ((drawEntries identity left hold.entries).1.filter fun entry => 0 < entry.2) =
          tally other (drawEntries identity left hold.entries).1 := by
        apply tally_filter
        intro entry _ dropped
        simpa using dropped
      rw [if_neg differs, if_neg differs] at drawn
      by_cases same : batch = next
      · subst same
        simp only
        split
        · rename_i empty
          rw [empty, tally_nil] at kept
          rw [AList.lookup_erase, found, heldFor_none, heldFor_some]
          omega
        · rw [AList.lookup_insert, found, heldFor_some, heldFor_some, kept]
          omega
      · simp only
        split
        · rw [AList.lookup_erase_ne same]
        · rw [AList.lookup_insert_ne same]

/-- A batch left alone by the draws for an identity has nothing of its. -/
theorem ClearAt.heldFor (clear : ClearAt identity holds batch) : heldFor (holds.lookup batch) identity = 0 := by
  cases found : holds.lookup batch with
  | none => rfl
  | some hold =>
    exact tally_eq_zero identity hold.entries fun entry member => ((clear hold found).each entry member).2

private theorem foldl_drawBatch_zero (identity : String) (holds : AList fun _ : String => Hold)
    (order : List String) : order.foldl (drawBatch identity) (holds, 0) = (holds, 0) :=
  Run.foldl_kept (drawBatch identity) (fun state => state = (holds, 0))
    (fun state next same => by subst same; rfl) order rfl

private theorem foldl_oldest {order : List String} (distinct : order.Nodup) :
    order.Pairwise fun first second =>
      heldFor ((order.foldl (drawBatch identity) (holds, left)).1.lookup second) identity <
          heldFor (holds.lookup second) identity →
        heldFor ((order.foldl (drawBatch identity) (holds, left)).1.lookup first) identity = 0 := by
  suffices general : ∀ {rest : List String} {holds : AList fun _ : String => Hold} {left : Nat}, rest.Nodup →
      rest.Pairwise fun first second =>
        heldFor ((rest.foldl (drawBatch identity) (holds, left)).1.lookup second) identity <
            heldFor (holds.lookup second) identity →
          heldFor ((rest.foldl (drawBatch identity) (holds, left)).1.lookup first) identity =
            0 from general distinct
  clear distinct
  intro rest
  induction rest with
  | nil => exact fun _ => List.Pairwise.nil
  | cons first rest ih =>
    intro holds left distinct
    obtain ⟨absent, distinct⟩ := List.nodup_cons.mp distinct
    have elsewhere : ∀ second ∈ rest,
        (drawBatch identity (holds, left) first).1.lookup second = holds.lookup second := by
      intro second member
      have differs : second ≠ first := fun same => absent (same ▸ member)
      exact lookup_drawBatch_other differs
    rw [List.foldl_cons]
    constructor
    · intro second member drawn
      by_cases done : (drawBatch identity (holds, left) first).2 = 0
      · have stopped := foldl_drawBatch_zero identity (drawBatch identity (holds, left) first).1 rest
        rw [← done] at stopped
        rw [stopped, elsewhere second member] at drawn
        exact absurd drawn (Nat.lt_irrefl _)
      · have clear : ClearAt identity (drawBatch identity (holds, left) first).1 first :=
          fun hold here => drawBatch_short done here
        exact (clear.foldl rest).heldFor
    · have later :=
        @ih (drawBatch identity (holds, left) first).1 (drawBatch identity (holds, left) first).2 distinct
      refine later.imp_of_mem ?_
      intro one two _ member emptied
      rw [elsewhere two member] at emptied
      exact emptied

end Drawing

section Drawn

/-- Sats drawn out of the holds for one identity. -/
structure DrawnDown (w : Window) (identity : String) (sats : Nat) (w' : Window) (taken : Nat) : Prop where
  /-- As much as was asked for, or all there is. -/
  amount : taken = min sats (w.heldOf identity)
  held : w'.heldOf identity + taken = w.heldOf identity
  /-- Batches go by when they were made, then by id: one is touched only when those before it are dry. -/
  oldest : ∀ first second hold later, w.holds.lookup first = some hold → w.holds.lookup second = some later →
    first ≠ second → batchBefore (hold.createdTs, first) (later.createdTs, second) →
    heldFor (w'.holds.lookup second) identity < heldFor (w.holds.lookup second) identity →
    heldFor (w'.holds.lookup first) identity = 0
  others : ∀ other, other ≠ identity → ∀ batch,
    heldFor (w'.holds.lookup batch) other = heldFor (w.holds.lookup batch) other
  carry : ∀ other, w'.carryOf other = w.carryOf other
  debt : ∀ other, w'.debtOf other = w.debtOf other
  noneEmpty : NoneEmpty w.holds → NoneEmpty w'.holds

variable (w : Window) (identity : String) (sats : Nat)

private theorem heldOf_clear (clear : Clear identity w.holds) : w.heldOf identity = 0 := by
  apply List.sum_eq_zero
  intro amount member
  obtain ⟨entry, filed, rfl⟩ := List.mem_map.mp member
  have found : w.holds.lookup entry.1 = some entry.2 := (List.mem_dlookup_iff w.holds.nodupKeys).mpr filed
  exact tally_eq_zero identity entry.2.entries fun listed here =>
    ((clear entry.1 entry.2 found).each listed here).2

private theorem drawFromHolds_taken : (w.drawFromHolds identity sats).2 = min sats (w.heldOf identity) := by
  have moved := heldOf_drawFromHolds w identity identity sats
  have bound := drawFromHolds_le w identity sats
  rw [if_pos rfl] at moved
  by_cases short : (w.drawFromHolds identity sats).2 < sats
  · have dry := heldOf_clear _ identity (clear_of_short short)
    omega
  · omega

instance batchBefore_total : Std.Total batchBefore where
  total a b := by
    rcases Nat.lt_trichotomy a.1 b.1 with lower | same | higher
    · exact .inl (.inl lower)
    · rcases le_total a.2 b.2 with names | names
      · exact .inl (.inr ⟨same, names⟩)
      · exact .inr (.inr ⟨same.symm, names⟩)
    · exact .inr (.inl higher)

instance batchBefore_trans : IsTrans (Nat × String) batchBefore where
  trans a b c := by
    rintro (lower | ⟨same, names⟩) (lower' | ⟨same', names'⟩)
    · exact .inl (by omega)
    · exact .inl (by omega)
    · exact .inl (by omega)
    · exact .inr ⟨by omega, names.trans names'⟩

private theorem batchBefore_antisymm {a b : Nat × String} (forth : batchBefore a b)
    (back : batchBefore b a) : a = b := by
  unfold batchBefore at forth back
  rcases forth with lower | ⟨same, names⟩ <;> rcases back with lower' | ⟨same', names'⟩
  · omega
  · omega
  · omega
  · exact Prod.ext same (le_antisymm names names')

private theorem stamps_ordered (holds : AList fun _ : String => Hold) :
    let stamps := (holds.entries.map fun entry => (entry.2.createdTs, entry.1)).insertionSort batchBefore
    stamps.Pairwise batchBefore ∧ (stamps.map Prod.snd).Nodup := by
  refine ⟨List.pairwise_insertionSort batchBefore _, ?_⟩
  have unsorted : ((holds.entries.map fun entry => (entry.2.createdTs, entry.1)).map Prod.snd).Nodup := by
    rw [List.map_map]
    exact holds.nodupKeys
  exact (((List.perm_insertionSort batchBefore _).map Prod.snd).nodup_iff).mpr unsorted

private theorem drawFromHolds_oldest {first second : String} {hold later : Hold}
    (one : w.holds.lookup first = some hold) (two : w.holds.lookup second = some later)
    (differ : first ≠ second)
    (before : batchBefore (hold.createdTs, first) (later.createdTs, second))
    (drawn : heldFor ((w.drawFromHolds identity sats).1.holds.lookup second) identity <
      heldFor (w.holds.lookup second) identity) :
    heldFor ((w.drawFromHolds identity sats).1.holds.lookup first) identity = 0 := by
  let stamps := (w.holds.entries.map fun entry => (entry.2.createdTs, entry.1)).insertionSort batchBefore
  let final := (stamps.map Prod.snd).foldl (drawBatch identity) (w.holds, sats)
  let Emptied (one two : Nat × String) : Prop :=
    heldFor (final.1.lookup two.2) identity < heldFor (w.holds.lookup two.2) identity →
      heldFor (final.1.lookup one.2) identity = 0
  obtain ⟨sorted, distinct⟩ := stamps_ordered w.holds
  have oldest : stamps.Pairwise Emptied := List.pairwise_map.mp (foldl_oldest distinct)
  have apart : stamps.Pairwise fun a b => a ≠ b := List.Nodup.of_map Prod.snd distinct
  -- the pair as the order has it, and not the other way round
  have both : stamps.Pairwise fun a b => (batchBefore a b → Emptied a b) ∧ (batchBefore b a → Emptied b a) := by
    refine (sorted.and (oldest.and apart)).imp ?_
    intro a b facts
    exact ⟨fun _ => facts.2.1, fun back => absurd (batchBefore_antisymm facts.1 back) facts.2.2⟩
  have listed : ∀ {batch : String} {kept : Hold}, w.holds.lookup batch = some kept →
      (kept.createdTs, batch) ∈ stamps := by
    intro batch kept found
    apply (List.mem_insertionSort batchBefore).mpr
    exact List.mem_map.mpr ⟨⟨batch, kept⟩, (List.mem_dlookup_iff w.holds.nodupKeys).mp found, rfl⟩
  have symmetric : Std.Symm fun a b : Nat × String =>
      (batchBefore a b → Emptied a b) ∧ (batchBefore b a → Emptied b a) := ⟨fun _ _ facts => facts.symm⟩
  have apart : (hold.createdTs, first) ≠ (later.createdTs, second) :=
    fun same => differ (congrArg Prod.snd same)
  exact (both.forall (listed one) (listed two) apart).1 before drawn

private theorem drawFromHolds_drawn :
    DrawnDown w identity sats (w.drawFromHolds identity sats).1 (w.drawFromHolds identity sats).2 where
  amount := drawFromHolds_taken w identity sats
  held := by
    have moved := heldOf_drawFromHolds w identity identity sats
    rw [if_pos rfl] at moved
    omega
  oldest := fun _ _ _ _ one two differ before drawn =>
    drawFromHolds_oldest w identity sats one two differ before drawn
  others := by
    intro other differs batch
    unfold drawFromHolds
    exact Run.foldl_unmoved
      (fun state : AList (fun _ : String => Hold) × Nat => heldFor (state.1.lookup batch) other)
      (fun state next => heldFor_drawBatch_other differs batch next) (w.holds, sats) _
  carry := fun other => carryOf_drawFromHolds w identity other sats
  debt := fun other => debtOf_drawFromHolds w identity other sats
  noneEmpty := by
    intro noneEmpty
    unfold drawFromHolds
    exact Run.foldl_kept (drawBatch identity) (fun state => NoneEmpty state.1)
      (fun state batch noneEmpty => NoneEmpty.drawBatch noneEmpty batch) _ noneEmpty

end Drawn

section Holding

/-- An identity of that balance has stopped mining: no row in the window, seen, and not for `after` seconds. -/
def Stale (w : Window) (now after least : Nat) (identity : String) (sats : Nat) : Prop :=
  ∃ index, w.idents.position identity = some index ∧ w.carry.lookup index = some sats ∧ max least 1 ≤ sats ∧
    index ∉ w.totals ∧ 0 < (w.lastSeen.lookup index).getD 0 ∧ after ≤ now - (w.lastSeen.lookup index).getD 0

private theorem stale_of_mem {w : Window} {balance : StaleCarry}
    (member : balance ∈ w.staleCarries now after least) :
    Stale w now after least balance.identity balance.sats := by
  obtain ⟨entry, filed, found⟩ := List.mem_filterMap.mp (List.mem_insertionSort _ |>.mp member)
  simp only at found
  split at found
  · rename_i gone
    obtain ⟨identity, named, rfl⟩ := Option.map_eq_some_iff.mp found
    obtain ⟨large, unlisted, seen, long⟩ := gone
    have lookup : w.carry.lookup entry.1 = some entry.2 := (List.mem_dlookup_iff w.carry.nodupKeys).mpr filed
    exact ⟨entry.1, position_name? named, lookup, large, unlisted, seen, long⟩
  · cases found

private theorem mem_of_stale {w : Window} {identity : String} {sats : Nat}
    (stale : Stale w now after least identity sats) :
    ∃ balance ∈ w.staleCarries now after least, balance.identity = identity ∧ balance.sats = sats := by
  obtain ⟨index, placed, filed, large, unlisted, seen, long⟩ := stale
  refine ⟨{ identity, sats, lastSeen := (w.lastSeen.lookup index).getD 0 }, ?_, rfl, rfl⟩
  refine List.mem_insertionSort _ |>.mpr (List.mem_filterMap.mpr ⟨⟨index, sats⟩, ?_, ?_⟩)
  · exact (List.mem_dlookup_iff w.carry.nodupKeys).mp filed
  · simp only
    rw [if_pos ⟨large, unlisted, seen, long⟩, name?_position placed]
    rfl

/-- A request sorted into what was held and what was not. -/
structure Sorted (stale : List StaleCarry) (entries held : List (String × Nat))
    (skipped : List HoldSkip) : Prop where
  each : (held ++ skipped.map fun skip => (skip.identity, skip.requested)).Perm entries
  once : (held.map Prod.fst).Nodup
  listed : ∀ entry ∈ held, entry.2 ≠ 0 ∧ ∃ balance ∈ stale, balance.identity = entry.1 ∧ balance.sats = entry.2

theorem Sorted.entry {stale : List StaleCarry} {entries held : List (String × Nat)} {skipped : List HoldSkip}
    (sorted : Sorted stale entries held skipped) (w : Window) (entry : String × Nat) :
    Sorted stale (entries ++ [entry]) (holdEntry stale (w, held, skipped) entry).2.1
      (holdEntry stale (w, held, skipped) entry).2.2 := by
  rcases holdEntry_cases stale w held skipped entry with ⟨skip, asked, same⟩ | ⟨fresh, some, listed, taken⟩
  · rw [same]
    refine ⟨?_, sorted.once, sorted.listed⟩
    simp only [List.map_append, List.map_cons, List.map_nil, asked, ← List.append_assoc]
    exact sorted.each.append_right [entry]
  · rw [taken]
    refine ⟨?_, ?_, ?_⟩
    · rw [List.append_assoc]
      refine (List.perm_append_comm.append_left held).trans ?_
      rw [← List.append_assoc]
      exact sorted.each.append_right [entry]
    · rw [List.map_append, List.nodup_append]
      refine ⟨sorted.once, by simp, ?_⟩
      intro name member other same equal
      obtain ⟨earlier, present, rfl⟩ := List.mem_map.mp member
      exact fresh earlier present (equal.trans (List.mem_singleton.mp same))
    · intro other member
      rcases List.mem_append.mp member with earlier | here
      · exact sorted.listed other earlier
      · obtain rfl := List.mem_singleton.mp here
        exact ⟨some, listed⟩

private theorem sorted_foldl (stale : List StaleCarry) (w : Window) (entries : List (String × Nat)) :
    Sorted stale entries (entries.foldl (holdEntry stale) (w, [], [])).2.1
      (entries.foldl (holdEntry stale) (w, [], [])).2.2 := by
  induction entries using List.reverseRecOn with
  | nil => exact ⟨List.Perm.nil, List.nodup_nil, by simp⟩
  | append_singleton earlier entry ih =>
    rw [List.foldl_append]
    exact ih.entry _ entry

private theorem mem_held_of_stale {w : Window} {entries : List (String × Nat)}
    {entry : String × Nat} (asked : entry ∈ entries) (stale : Stale w now after least entry.1 entry.2) :
    entry ∈ (entries.foldl (holdEntry (w.staleCarries now after least)) (w, [], [])).2.1 := by
  obtain ⟨balance, listed, named, sats⟩ := mem_of_stale stale
  have only : ∀ other ∈ w.staleCarries now after least, other.identity = entry.1 → other.sats = entry.2 := by
    intro other member same
    rw [← carryOf_stale member, same, ← named, carryOf_stale listed, sats]
  induction entries using List.reverseRecOn with
  | nil => cases asked
  | append_singleton earlier last ih =>
    have sorted := sorted_foldl (w.staleCarries now after least) w earlier
    rw [List.foldl_append, List.foldl_cons, List.foldl_nil]
    generalize earlier.foldl (holdEntry (w.staleCarries now after least)) (w, [], []) = state at ih sorted
    obtain ⟨w', held, skipped⟩ := state
    rcases List.mem_append.mp asked with before | here
    · have already := ih before
      rcases holdEntry_cases (w.staleCarries now after least) w' held skipped last with
        ⟨skip, -, same⟩ | ⟨-, -, -, same⟩
      · rw [same]
        exact already
      · rw [same]
        exact List.mem_append_left _ already
    · obtain rfl := List.mem_singleton.mp here
      by_cases taken : held.any fun taken => taken.1 == entry.1
      · -- the identity was listed before, with the same balance
        obtain ⟨earlier, present, same⟩ := List.any_eq_true.mp taken
        have same : earlier.1 = entry.1 := beq_iff_eq.mp same
        obtain ⟨-, other, member, its, amount⟩ := sorted.listed earlier present
        have equal : earlier = entry := Prod.ext same (amount.symm.trans (only other member (its.trans same)))
        simp only [holdEntry, taken, ↓reduceIte]
        exact equal ▸ present
      · obtain ⟨_, _, _, large, _⟩ := stale
        have some : entry.2 ≠ 0 := by omega
        have found :
          ((w.staleCarries now after least).find? fun balance => balance.identity == entry.1).isSome :=
          List.find?_isSome.mpr ⟨balance, listed, by simp [named]⟩
        obtain ⟨match', its⟩ := Option.isSome_iff_exists.mp found
        have equal : match'.sats = entry.2 :=
          only match' (List.mem_of_find?_eq_some its) (by simpa using List.find?_some its)
        simp only [holdEntry, taken, some, its, equal, ne_eq, not_true, Bool.false_eq_true, ↓reduceIte]
        exact List.mem_append_right _ (List.mem_singleton_self entry)

/-- Balances set aside. -/
structure SetAside (l : Ledger) (batch : String) (entries : List (String × Nat)) (now after least : Nat)
    (l' : Ledger) (held : List (String × Nat)) (skipped : List HoldSkip) : Prop where
  /-- Each entry is held or skipped. -/
  each : (held ++ skipped.map fun skip => (skip.identity, skip.requested)).Perm entries
  once : (held.map Prod.fst).Nodup
  stale : ∀ entry ∈ held, Stale l.window now after least entry.1 entry.2 ∧ l.window.carryOf entry.1 = entry.2
  asked : ∀ entry ∈ entries, Stale l.window now after least entry.1 entry.2 → entry ∈ held
  moved : ∀ identity, l'.window.carryOf identity + tally identity held = l.window.carryOf identity
  kept : ∀ identity, l'.window.carryOf identity + l'.window.heldOf identity =
    l.window.carryOf identity + l.window.heldOf identity
  debt : ∀ identity, l'.window.debtOf identity = l.window.debtOf identity
  placed : (l'.hold batch).map Hold.entries = if held = [] then none else some held
  others : ∀ other, other ≠ batch → l'.hold other = l.hold other
  noneEmpty : NoneEmpty l.window.holds → NoneEmpty l'.window.holds

/-- No identity has more than the largest signed value in carry and holds together. -/
def Window.Signed (w : Window) : Prop := ∀ identity, w.carryOf identity + w.heldOf identity ≤ i64Max

variable {l l' : Ledger} {batch : String} {entries held : List (String × Nat)} {skipped : List HoldSkip}
  {now after least tipHeight readyHeight : Nat}

theorem Window.Signed.fits {w : Window} (signed : w.Signed) (now after least : Nat)
    (entries : List (String × Nat)) :
    Run.Along HoldFits (holdEntry (w.staleCarries now after least)) (w, [], []) entries := by
  have below : ∀ identity, w.carryOf identity ≤ i64Max :=
    fun identity => Nat.le_of_add_right_le (signed identity)
  refine Run.along_of_kept
    (fun state : Window × List (String × Nat) × List HoldSkip => ∀ identity, state.1.carryOf identity ≤ i64Max)
    ?_ ?_ entries below
  · intro state entry below whole
    rw [← whole]
    exact below entry.1
  · intro state entry below' identity
    obtain ⟨now', held, skipped⟩ := state
    rcases holdEntry_cases (w.staleCarries now after least) now' held skipped entry with
      ⟨skip, _, same⟩ | ⟨_, _, ⟨balance, listed, named, sats⟩, taken⟩
    · rw [same]
      exact below' identity
    · have small : entry.2 ≤ i64Max := by
        rw [← sats, ← carryOf_stale listed]
        exact below balance.identity
      have before := below' identity
      rw [taken, asI64_eq small, carryOf_adjustCarry]
      split
      · rename_i same
        subst same
        split
        · have nothing : entry.2 = 0 := by omega
          rw [nothing]
          exact satAdd_le.trans before
        · exact (Nat.sub_le _ _).trans before
      · exact before

/-- A hold moves each balance it takes out of the carry, whole. -/
theorem holdCarry_setAside (signed : l.window.Signed)
    (placed : l.holdCarry batch entries now after least tipHeight readyHeight = .ok (l', held, skipped)) :
    SetAside l batch entries now after least l' held skipped := by
  have fits := signed.fits now after least entries
  have here := holdCarry_hold placed
  have net := net_holdCarry fits placed
  have holding := Run.foldl_invariant (Holding l.window) (Holding.entry fun _ member => carryOf_stale member)
    fits (Holding.refl l.window)
  have sorted := sorted_foldl (l.window.staleCarries now after least) l.window entries
  have others : ∀ other, other ≠ batch → l'.hold other = l.hold other :=
    fun other differs => holdCarry_other differs placed
  have parts :
    held = (entries.foldl (holdEntry (l.window.staleCarries now after least)) (l.window, [], [])).2.1 ∧
      skipped = (entries.foldl (holdEntry (l.window.staleCarries now after least)) (l.window, [], [])).2.2 ∧
      (∀ identity, l'.window.carryOf identity =
        (entries.foldl (holdEntry (l.window.staleCarries now after least)) (l.window, [], [])).1.carryOf
          identity) ∧
      ∀ identity, l'.window.debtOf identity =
        (entries.foldl (holdEntry (l.window.staleCarries now after least)) (l.window, [], [])).1.debtOf
          identity := by
    unfold Ledger.holdCarry at placed
    split at placed
    · cases placed
    · simp only at placed
      split at placed
      · cases placed
        exact ⟨rfl, rfl, fun _ => rfl, fun _ => rfl⟩
      · cases placed
        exact ⟨rfl, rfl, fun _ => rfl, fun _ => rfl⟩
  obtain ⟨heldSame, skippedSame, carrySame, debtSame⟩ := parts
  rw [← heldSame, ← skippedSame] at sorted
  have debt : ∀ identity, l'.window.debtOf identity = l.window.debtOf identity := by
    intro identity
    rw [debtSame]
    exact holding.debts identity
  refine ⟨sorted.each, sorted.once, ?_, ?_, ?_, ?_, debt, ?_, others, ?_⟩
  · intro entry member
    obtain ⟨_, balance, listed, named, sats⟩ := sorted.listed entry member
    rw [← named, ← sats]
    exact ⟨stale_of_mem listed, carryOf_stale listed⟩
  · intro entry member gone
    rw [heldSame]
    exact mem_held_of_stale member gone
  · intro identity
    rw [carrySame, heldSame]
    exact holding.moved identity
  · intro identity
    have same := net identity
    rw [Window.net, Window.net, debt identity] at same
    omega
  · rw [here.2]
    split
    · rfl
    · rfl
  · intro noneEmpty other kept found
    by_cases same : other = batch
    · subst same
      have known : l'.hold other = some kept := found
      rw [here.2] at known
      split at known
      · cases known
      · rename_i some
        obtain rfl := Option.some.inj known
        exact ⟨some, fun entry member => Nat.pos_of_ne_zero (sorted.listed entry member).1⟩
    · exact noneEmpty other kept ((others other same).symm.trans found)

end Holding

section Releasing

/-- A hold given back. -/
structure Released (l : Ledger) (batch : String) (l' : Ledger) (entries : List (String × Nat)) : Prop where
  whole : (l.hold batch).map Hold.entries = some entries
  gone : l'.hold batch = none
  others : ∀ other, other ≠ batch → l'.hold other = l.hold other
  /-- An entry pays its identity's debt first, and the rest is carry. -/
  debt : ∀ identity, l'.window.debtOf identity = l.window.debtOf identity - tally identity entries
  carry : ∀ identity, l'.window.carryOf identity =
    l.window.carryOf identity + (tally identity entries - l.window.debtOf identity)
  held : ∀ identity, l'.window.heldOf identity + tally identity entries = l.window.heldOf identity
  net : ∀ identity, l'.window.net identity = l.window.net identity
  noneEmpty : NoneEmpty l.window.holds → NoneEmpty l'.window.holds

variable {l l' : Ledger} {batch : String} {entries : List (String × Nat)}

private theorem restored {w : Window} (fits : ∀ identity, w.carryOf identity + tally identity entries ≤ i64Max)
    (identity : String) :
    let after := entries.foldl (fun (window : Window) entry => (window.restoreCarry entry.1 entry.2).1) w
    after.debtOf identity = w.debtOf identity - tally identity entries ∧
      after.carryOf identity = w.carryOf identity + (tally identity entries - w.debtOf identity) := by
  induction entries generalizing w with
  | nil => simp
  | cons entry rest ih =>
    have room : ∀ name, (if name = entry.1 ∧ w.debtOf entry.1 < entry.2 then
        satAdd (w.carryOf entry.1) (min (entry.2 - w.debtOf entry.1) i64Max) else w.carryOf name) =
        w.carryOf name + (if name = entry.1 then entry.2 - w.debtOf entry.1 else 0) := by
      intro name
      by_cases same : name = entry.1
      · subst same
        have here := fits entry.1
        rw [tally_cons, if_pos rfl] at here
        by_cases more : w.debtOf entry.1 < entry.2
        · rw [if_pos ⟨rfl, more⟩, if_pos rfl, Nat.min_eq_left (by omega), satAdd_eq]
          unfold i64Max at here
          unfold u64Max
          omega
        · rw [if_neg (fun both => more both.2), if_pos rfl]
          omega
      · rw [if_neg (fun both => same both.1), if_neg same, Nat.add_zero]
    have next : ∀ name, (w.restoreCarry entry.1 entry.2).1.carryOf name + tally name rest ≤ i64Max := by
      intro name
      have before := fits name
      rw [carryOf_restoreCarry, room]
      rw [tally_cons] at before
      by_cases same : name = entry.1
      · rw [if_pos same]
        rw [if_pos same.symm] at before
        omega
      · rw [if_neg same]
        rw [if_neg (Ne.symm same)] at before
        omega
    have later := ih next
    rw [debtOf_restoreCarry, carryOf_restoreCarry, room] at later
    rw [List.foldl_cons, tally_cons]
    by_cases same : identity = entry.1
    · subst same
      simp only [↓reduceIte] at later ⊢
      omega
    · simp only [same, Ne.symm same, ↓reduceIte] at later ⊢
      omega

theorem releaseHold_released (signed : l.window.Signed) (released : l.releaseHold batch = some (l', entries)) :
    Released l batch l' entries := by
  have ended := releaseHold_hold released
  have others : ∀ other, other ≠ batch → l'.hold other = l.hold other :=
    fun other differs => releaseHold_other differs released
  obtain ⟨hold, found, same⟩ := Option.map_eq_some_iff.mp released
  obtain ⟨rfl, rfl⟩ := Prod.mk.inj same
  obtain ⟨_, _, _, gone⟩ := ended
  let w : Window := { l.window with holds := l.window.holds.erase batch }
  have removed : ∀ identity, w.heldOf identity + tally identity hold.entries = l.window.heldOf identity := by
    intro identity
    have erased := total_erase (fun hold : Hold => tally identity hold.entries) l.window.holds batch
    rw [found] at erased
    exact erased
  have fits : ∀ identity, w.carryOf identity + tally identity hold.entries ≤ i64Max := by
    intro identity
    have both := signed identity
    have less := removed identity
    have kept : w.carryOf identity = l.window.carryOf identity := rfl
    omega
  have back := restored fits
  have left := holds_giveBack w hold.entries
  have held : ∀ identity, (hold.entries.foldl
      (fun (window : Window) entry => (window.restoreCarry entry.1 entry.2).1) w).heldOf identity +
        tally identity hold.entries = l.window.heldOf identity := by
    intro identity
    rw [heldOf, left]
    exact removed identity
  refine ⟨by rw [Ledger.hold, found]; rfl, gone, others, fun identity => (back identity).1,
    fun identity => (back identity).2, held, ?_, ?_⟩
  · intro identity
    obtain ⟨debt, carry⟩ := back identity
    have holds := held identity
    have before : w.carryOf identity = l.window.carryOf identity ∧
      w.debtOf identity = l.window.debtOf identity :=
      ⟨rfl, rfl⟩
    change (hold.entries.foldl (fun (window : Window) entry => (window.restoreCarry entry.1 entry.2).1) w).net
      identity = _
    simp only [Window.net]
    omega
  · intro noneEmpty other kept here
    by_cases same : other = batch
    · subst same
      exact absurd (gone.symm.trans here) (by simp)
    · exact noneEmpty other kept ((others other same).symm.trans here)

end Releasing

/-- Holds move money and never make it: what a request sets aside, what a draw takes and what a release gives
back, while no identity's sats run past the signed range. -/
theorem holds_move_money (l : Ledger) (signed : l.window.Signed) :
    (∀ batch entries now after least tipHeight readyHeight,
      if (l.hold batch).isSome then
        l.holdCarry batch entries now after least tipHeight readyHeight = .error "a hold with this id exists"
      else ∃ l' held skipped,
        l.holdCarry batch entries now after least tipHeight readyHeight = .ok (l', held, skipped) ∧
          SetAside l batch entries now after least l' held skipped) ∧
    (∀ identity sats, DrawnDown l.window identity sats (l.window.drawFromHolds identity sats).1
      (l.window.drawFromHolds identity sats).2) ∧
    ∀ batch, if (l.hold batch).isSome then
        ∃ l' entries, l.releaseHold batch = some (l', entries) ∧ Released l batch l' entries
      else l.releaseHold batch = none := by
  refine ⟨?_, fun identity sats => drawFromHolds_drawn l.window identity sats, ?_⟩
  · intro batch entries now after least tipHeight readyHeight
    split
    · rename_i taken
      exact if_pos taken
    · rename_i free
      have placed : ∃ result, l.holdCarry batch entries now after least tipHeight readyHeight = .ok result := by
        have unused : ¬ (l.window.holds.lookup batch).isSome := free
        unfold Ledger.holdCarry
        rw [if_neg unused]
        simp only
        split
        · exact ⟨_, rfl⟩
        · exact ⟨_, rfl⟩
      obtain ⟨⟨l', held, skipped⟩, placed⟩ := placed
      exact ⟨l', held, skipped, placed, holdCarry_setAside signed placed⟩
  · intro batch
    split
    · rename_i known
      obtain ⟨hold, found⟩ := Option.isSome_iff_exists.mp known
      have released := congrArg (Option.map fun hold : Hold =>
        let window := { l.window with holds := l.window.holds.erase batch }
        (({ l with
            window := hold.entries.foldl (fun window entry => (window.restoreCarry entry.1 entry.2).1) window
            dirty := true } : Ledger),
          hold.entries)) found
      exact ⟨_, _, released, releaseHold_released signed released⟩
    · rename_i unknown
      exact congrArg (Option.map _) (Option.not_isSome_iff_eq_none.mp unknown)

/-- One identity, last seen at second one, with sats in its carry and in an older batch. -/
def oneIdle (carry held : Nat) : Ledger :=
  { window :=
    { noBalances.setCarry "miner" carry with
      lastSeen := put ∅ 0 1
      holds := AList.insert "older"
        { createdTs := 7, height := 1, readyHeight := 2, entries := [("miner", held)] } ∅ } }

/-- Of three sats held beside a carry of seven, two are drawn. -/
theorem holds_move_money_idle : (oneIdle 7 3).window.Signed ∧
    DrawnDown (oneIdle 7 3).window "miner" 2 ((oneIdle 7 3).window.drawFromHolds "miner" 2).1 2 := by
  have signed : (oneIdle 7 3).window.Signed := by
    intro identity
    have carry : (oneIdle 7 3).window.carryOf identity = if identity = "miner" then
      7 else noBalances.carryOf identity :=
      carryOf_fileCarry noBalances "miner" identity 7
    have none : noBalances.carryOf identity = 0 := rfl
    have held : (oneIdle 7 3).window.heldOf identity = (if "miner" = identity then 3 else 0) + 0 + 0 := rfl
    rw [carry, none, held]
    unfold i64Max
    split
    · split
      · omega
      · omega
    · split
      · omega
      · omega
  exact ⟨signed, (holds_move_money (oneIdle 7 3) signed).2.1 "miner" 2⟩

/-- A balance past the signed range is added to the carry again as it is set aside. -/
theorem hold_past_signed_range :
    ((oneIdle (2 ^ 63 + 1) 0).holdCarry "batch" [("miner", 2 ^ 63 + 1)] 100 0 0 0 0).toOption.map
        (fun result => result.1.window.carryOf "miner" + result.1.window.heldOf "miner") =
      some (2 ^ 64 - 1 + (2 ^ 63 + 1)) ∧
    (oneIdle (2 ^ 63 + 1) 0).window.carryOf "miner" + (oneIdle (2 ^ 63 + 1) 0).window.heldOf "miner" =
      2 ^ 63 + 1 := by
  decide

end Lazarus.Tides
