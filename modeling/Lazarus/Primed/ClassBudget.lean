import Lazarus.Lib.Along
import Lazarus.Lib.FirstFit
import Lazarus.Primed.Issue

/-! What a session learns of the room that its gateway's coinbase classes have for payees, and the
lists it is then handed. -/

namespace Lazarus.Primed

open Machine Tides Wire

section Kept

/-- The walk over an issued list from its end: the bytes kept after each output, and whether one was skipped. An
output that was skipped though it is no larger than what was kept after it was not skipped for room. -/
def keptBack (cb : Coinbase) : List Output → Nat → Bool → Option (Nat × Bool)
  | [], kept, skipped => some (kept, skipped)
  | o :: before, kept, skipped =>
    let need := 8 + 1 + o.script.length
    if 0 < cb.paidTo o.script then keptBack cb before (kept + need) skipped
    else if need ≤ kept then none
    else keptBack cb before kept true

/-- The payee bytes a coinbase kept of the list it was issued, where packing the list into
some room keeps those. -/
def keptPayeeBytes (issued : List Output) (poolScript : Bytes) (cb : Coinbase) : Option Nat :=
  if cb.totalOutputValue < (issued.map Output.sats).foldl satAdd 0 then none
  else
    match keptBack cb (issued.reverse.filter fun o => o.script ≠ poolScript) 0 false with
    | some (kept, skipped) => if 0 < kept ∧ skipped then some kept else none
    | none => none

end Kept

def classRoomMinBytes : Nat := 500 - (119 + 22 + 85)

/-- A P2WSH or P2TR script, the longest an address gives. -/
def rdtsMaxOutputScript : Nat := 34

def payeeOutputMaxBytes : Nat := 8 + 1 + rdtsMaxOutputScript

/-- Payee bytes below which a coinbase that was cut is not of a size class. -/
def classBudgetMinBytes : Nat := classRoomMinBytes - payeeOutputMaxBytes

/-- Coinbasers on which one section must keep the same bytes. -/
def classBudgetSightings : Nat := 3

/-- KeptOn of bytes a section keeps a tally of at once. -/
def classBudgetTally : Nat := 8

/-- In nanoseconds, as an instant is. -/
def classBudgetTtl : Nat := 6 * 3600 * 10 ^ 9

structure ClassBudget where
  /-- By section: bytes kept, and the coinbasers they were kept on with when. A section not seen has none. -/
  seen : UInt8 → List (Nat × List (UInt8 × Nat)) := fun _ => []
  bytes : Option Nat := none
  setAt : Option Nat := none

namespace ClassBudget

/-- What is left of a section's tally once the sightings that are too old are gone. -/
def dropOld (now : Nat) (tally : List (Nat × List (UInt8 × Nat))) : List (Nat × List (UInt8 × Nat)) :=
  (tally.map fun entry => (entry.1, entry.2.filter fun id => now - id.2 < classBudgetTtl)).filter fun entry =>
    !entry.2.isEmpty

def dropOldSightings (b : ClassBudget) (now : Nat) : ClassBudget :=
  { b with seen := fun section_ => dropOld now (b.seen section_) }

/-- Forget the budget and all it was learned from once it is too old, and say whether it was. -/
def expire (b : ClassBudget) (now : Nat) : ClassBudget × Bool :=
  let b := b.dropOldSightings now
  if b.setAt.any fun t => classBudgetTtl ≤ now - t then ({}, true) else (b, false)

/-- The tally with an entry for these bytes, and where that is. The oldest entry makes way for a new one. -/
def entryFor (tally : List (Nat × List (UInt8 × Nat))) (kept : Nat) : List (Nat × List (UInt8 × Nat)) × Nat :=
  match tally.findIdx? fun entry => entry.1 == kept with
  | some i => (tally, i)
  | none =>
    let tally := (if classBudgetTally ≤ tally.length then tally.eraseIdx 0 else tally) ++ [(kept, [])]
    (tally, tally.length - 1)

/-- The coinbasers of an entry with this one among them, while there are too few. -/
def sighted (ids : List (UInt8 × Nat)) (coinbaserId : UInt8) (now : Nat) : List (UInt8 × Nat) :=
  if ids.length < classBudgetSightings ∧ !ids.any fun id => id.1 == coinbaserId then
    ids ++ [(coinbaserId, now)] else ids

/-- Count one sighting, and say whether it changed the budget. -/
def observe (b : ClassBudget) (section_ coinbaserId : UInt8) (kept now : Nat) : ClassBudget × Bool :=
  if kept < classBudgetMinBytes then (b, false)
  else
    let b := b.dropOldSightings now
    let (tally, i) := entryFor (b.seen section_) kept
    let ids := sighted ((tally[i]?.map Prod.snd).getD []) coinbaserId now
    let b := { b with seen := fun other => if other = section_ then tally.set i (kept, ids) else b.seen other }
    if ids.length < classBudgetSightings ∨ b.bytes.any fun bytes => bytes ≤ kept then (b, false)
    else ({ b with bytes := some kept, setAt := some now }, true)

end ClassBudget

/-- The parameters a coinbaser is computed with. -/
def classParams (pool : SplitParams) (budget : Option Nat) : SplitParams :=
  match budget with
  | some b => if b < pool.outputBudgetBytes then { pool with outputBudgetBytes := b } else pool
  | none => pool

inductive BudgetCall where
  | observe (section_ coinbaserId : UInt8) (kept now : Nat)
  | expire (now : Nat)
deriving DecidableEq

def BudgetCall.now : BudgetCall → Nat
  | .observe _ _ _ now => now
  | .expire now => now

namespace ClassBudget

def step (b : ClassBudget) : BudgetCall → ClassBudget
  | .observe section_ coinbaserId kept now => (b.observe section_ coinbaserId kept now).1
  | .expire now => (b.expire now).1

def run (calls : List BudgetCall) : ClassBudget := calls.foldl step {}

/-- A call that forgets the budget. -/
def Forgets (b : ClassBudget) : BudgetCall → Prop
  | .observe .. => False
  | .expire now => (b.expire now).2 = true

/-- No more room than before. -/
def Lowered (before after : Option Nat) : Prop := ∀ n, before = some n → ∃ m, after = some m ∧ m ≤ n

/-- One section kept these bytes on three coinbasers, none of them too long ago. -/
def Learned (calls : List BudgetCall) (now kept : Nat) : Prop :=
  ∃ section_, ∃ ids : List (UInt8 × Nat), ids.length = classBudgetSightings ∧ (ids.map Prod.fst).Nodup ∧
    ∀ id ∈ ids, now - id.2 < classBudgetTtl ∧ .observe section_ id.1 kept id.2 ∈ calls

/-- Each sighting in the tallies was called in, on coinbasers that differ, and what is
learned is of a size class. -/
structure Vouched (calls : List BudgetCall) (b : ClassBudget) : Prop where
  few : ∀ section_, ∀ entry ∈ b.seen section_, entry.2.length ≤ classBudgetSightings
  distinct : ∀ section_, ∀ entry ∈ b.seen section_, (entry.2.map Prod.fst).Nodup
  called : ∀ section_, ∀ entry ∈ b.seen section_, ∀ id ∈ entry.2, .observe section_ id.1 entry.1 id.2 ∈ calls
  least : ∀ n, b.bytes = some n → classBudgetMinBytes ≤ n

end ClassBudget

/-- A coinbase that was made by packing a list's miner outputs, in order, into some room, with outputs of others
beside them. Some were placed and some skipped, and it is worth the list. -/
structure Packed (issued : List Output) (poolScript : Bytes) (room : Nat) (cb : Coinbase) : Prop where
  outputs : ∃ others, cb.outputs.Perm
      ((FirstFit.place Output.serializedLen room (minersOf poolScript issued)).map
        (fun o => ⟨o.sats, o.script⟩) ++ others) ∧
    ∀ o ∈ others, ∀ miner ∈ minersOf poolScript issued, o.script ≠ miner.script
  worth : (issued.map Output.sats).foldl satAdd 0 ≤ cb.totalOutputValue
  placed : FirstFit.place Output.serializedLen room (minersOf poolScript issued) ≠ []
  skipped : FirstFit.place Output.serializedLen room (minersOf poolScript issued) ≠ minersOf poolScript issued

/-- The bytes that packing a list's miner outputs into some room places. -/
def placedBytes (issued : List Output) (poolScript : Bytes) (room : Nat) : Nat :=
  FirstFit.load Output.serializedLen (FirstFit.place Output.serializedLen room (minersOf poolScript issued))

section Learning

variable {issued : List Output} {poolScript : Bytes} {cb : Coinbase} {room : Nat}

private theorem keptBack_eq (outputs : List Output) (kept : Nat) (skipped : Bool) :
    keptBack cb outputs kept skipped = FirstFit.readBack Output.serializedLen
    (fun o => decide (0 < cb.paidTo o.script)) outputs kept skipped := by
  induction outputs generalizing kept skipped with
  | nil => rfl
  | cons o before ih =>
    simp only [keptBack, FirstFit.readBack, ih, decide_eq_true_eq]
    rfl

private theorem paidTo_pos_iff (script : Bytes) : 0 < cb.paidTo script ↔
    ∃ o ∈ cb.outputs, o.script = script ∧ 0 < o.value := by
  have sum : cb.paidTo script = min (0 + _) u64Max := foldl_satAdd_eq_min (Nat.zero_le _) _
  have pos : 0 < cb.paidTo script ↔
      0 < ((cb.outputs.filter fun o => o.script == script).map TxOut.value).sum := by
    rw [sum]
    have top : 0 < u64Max := by decide
    omega
  rw [pos, List.sum_pos_iff_exists_pos_nat]
  constructor
  · rintro ⟨amount, listed, pays⟩
    obtain ⟨o, member, rfl⟩ := List.mem_map.mp listed
    obtain ⟨present, same⟩ := List.mem_filter.mp member
    exact ⟨o, present, beq_iff_eq.mp same, pays⟩
  · rintro ⟨o, present, same, pays⟩
    exact ⟨o.value, List.mem_map_of_mem (List.mem_filter.mpr ⟨present, beq_iff_eq.mpr same⟩), pays⟩

/-- Of outputs that each pay something, a coinbase made by packing pays exactly those that were placed. -/
theorem Packed.paid_iff (packed : Packed issued poolScript room cb)
    (distinct : (issued.map Output.script).Nodup)
    (paying : ∀ o ∈ minersOf poolScript issued, 0 < o.sats) {o : Output}
    (member : o ∈ minersOf poolScript issued) :
    0 < cb.paidTo o.script ↔ o ∈ FirstFit.place Output.serializedLen room (minersOf poolScript issued) := by
  obtain ⟨others, outputs, apart⟩ := packed.outputs
  rw [paidTo_pos_iff]
  constructor
  · rintro ⟨out, present, same, -⟩
    rcases List.mem_append.mp (outputs.mem_iff.mp present) with placed | other
    · obtain ⟨issue, kept, rfl⟩ := List.mem_map.mp placed
      have listed : issue ∈ issued := List.mem_of_mem_filter ((FirstFit.place_sublist _ _).subset kept)
      have one : issue = o := List.inj_on_of_nodup_map distinct listed (List.mem_of_mem_filter member) same
      exact one ▸ kept
    · exact absurd same (apart out other o member)
  · intro kept
    exact ⟨⟨o.sats, o.script⟩, outputs.mem_iff.mpr (List.mem_append_left _ (List.mem_map_of_mem kept)), rfl,
      paying o member⟩

/-- What the walk finds of such a coinbase is what was placed. -/
theorem Packed.keptPayeeBytes (packed : Packed issued poolScript room cb)
    (distinct : (issued.map Output.script).Nodup) (paying : ∀ o ∈ minersOf poolScript issued, 0 < o.sats) :
    keptPayeeBytes issued poolScript cb = some (placedBytes issued poolScript room) := by
  have miners :
      issued.reverse.filter (fun o => o.script ≠ poolScript) = (minersOf poolScript issued).reverse ++ [] := by
    rw [List.append_nil, minersOf, List.filter_reverse]
  have single : (minersOf poolScript issued).Nodup := (List.Nodup.of_map _ distinct).filter _
  have back := FirstFit.readBack_place single
    (fun o member => decide_eq_true_iff.trans (packed.paid_iff distinct paying member)) []
  have short := (FirstFit.length_place_lt_iff room (minersOf poolScript issued)).mpr packed.skipped
  have some : 0 < placedBytes issued poolScript room := by
    obtain ⟨o, rest, shape⟩ := List.exists_cons_of_ne_nil packed.placed
    rw [placedBytes, shape]
    show 0 < o.serializedLen + _
    unfold Output.serializedLen
    omega
  rw [Primed.keptPayeeBytes, if_neg (Nat.not_lt.mpr packed.worth), miners, keptBack_eq, back]
  simp only [FirstFit.readBack]
  exact if_pos ⟨some, decide_eq_true short⟩

private theorem placed_whole {list : List Output}
    (fits : FirstFit.load Output.serializedLen (minersOf poolScript list) ≤
      placedBytes issued poolScript room) :
    FirstFit.place Output.serializedLen room (minersOf poolScript list) = minersOf poolScript list :=
  FirstFit.place_of_fits (fits.trans (FirstFit.load_place_le room _))

end Learning

section Sightings

open ClassBudget

variable {calls : List BudgetCall} {b : ClassBudget} {tally : List (Nat × List (UInt8 × Nat))}

private theorem mem_dropOld {now : Nat} {entry : Nat × List (UInt8 × Nat)}
    (member : entry ∈ dropOld now tally) : ∃ old ∈ tally, old.1 = entry.1 ∧
    entry.2 = old.2.filter fun id => now - id.2 < classBudgetTtl := by
  obtain ⟨old, listed, rfl⟩ := List.mem_map.mp (List.mem_of_mem_filter member)
  exact ⟨old, listed, rfl, rfl⟩

private theorem mem_entryFor {kept : Nat} {entry : Nat × List (UInt8 × Nat)}
    (member : entry ∈ (entryFor tally kept).1) : entry ∈ tally ∨ entry = (kept, []) := by
  unfold entryFor at member
  split at member
  · exact .inl member
  · rcases List.mem_append.mp member with old | new
    · left
      split at old
      · exact (List.eraseIdx_sublist tally 0).subset old
      · exact old
    · exact .inr (List.mem_singleton.mp new)

private theorem entryFor_ids (tally : List (Nat × List (UInt8 × Nat))) (kept : Nat) :
    ∃ ids, (entryFor tally kept).1[(entryFor tally kept).2]? = some (kept, ids) := by
  unfold entryFor
  split
  · rename_i i found
    obtain ⟨inside, same, -⟩ := List.findIdx?_eq_some_iff_getElem.mp found
    exact ⟨tally[i].2, by rw [List.getElem?_eq_getElem inside, ← beq_iff_eq.mp same]⟩
  · exact ⟨[], by simp⟩

theorem ClassBudget.Vouched.start : Vouched [] {} where
  few _ _ member := nomatch member
  distinct _ _ member := nomatch member
  called _ _ member := nomatch member
  least _ set := nomatch set

theorem ClassBudget.Vouched.later (vouched : Vouched calls b) (call : BudgetCall) :
    Vouched (calls ++ [call]) b :=
  { vouched with called := fun section_ entry member id listed =>
      List.mem_append_left _ (vouched.called section_ entry member id listed) }

theorem ClassBudget.Vouched.dropOldSightings (vouched : Vouched calls b)
    (now : Nat) : Vouched calls (b.dropOldSightings now) where
  few section_ entry member := by
    obtain ⟨old, listed, -, ids⟩ := mem_dropOld member
    rw [ids]
    exact (List.length_filter_le _ _).trans (vouched.few section_ old listed)
  distinct section_ entry member := by
    obtain ⟨old, listed, -, ids⟩ := mem_dropOld member
    rw [ids]
    exact (vouched.distinct section_ old listed).sublist (List.filter_sublist.map _)
  called section_ entry member id listed := by
    obtain ⟨old, present, same, ids⟩ := mem_dropOld member
    rw [ids] at listed
    rw [← same]
    exact vouched.called section_ old present id (List.mem_of_mem_filter listed)
  least := vouched.least

/-- The entry that a sighting is counted in, as the sighting leaves it. -/
structure KeptOn (calls : List BudgetCall) (section_ : UInt8) (kept now : Nat)
    (ids : List (UInt8 × Nat)) : Prop where
  few : ids.length ≤ classBudgetSightings
  distinct : (ids.map Prod.fst).Nodup
  called : ∀ id ∈ ids, .observe section_ id.1 kept id.2 ∈ calls
  fresh : ∀ id ∈ ids, now - id.2 < classBudgetTtl

theorem KeptOn.sighted {section_ : UInt8} {kept now : Nat} {ids : List (UInt8 × Nat)}
    (counts : KeptOn calls section_ kept now ids) (coinbaserId : UInt8)
    (call : .observe section_ coinbaserId kept now ∈ calls) :
    KeptOn calls section_ kept now (sighted ids coinbaserId now) := by
  unfold ClassBudget.sighted
  split
  · rename_i fewNew
    obtain ⟨few, new⟩ := fewNew
    refine ⟨by rw [List.length_append]; exact few, ?_, ?_, ?_⟩
    · rw [List.map_append, List.nodup_append]
      refine ⟨counts.distinct, by simp, ?_⟩
      rintro one listed other last rfl
      obtain ⟨id, present, rfl⟩ := List.mem_map.mp listed
      have same : id.1 = coinbaserId := by simpa using last
      exact Bool.false_ne_true ((Bool.not_eq_true' _ ▸ new).symm.trans
        (List.any_eq_true.mpr ⟨id, present, beq_iff_eq.mpr same⟩))
    · intro id listed
      rcases List.mem_append.mp listed with old | last
      · exact counts.called id old
      · obtain rfl := List.mem_singleton.mp last
        exact call
    · intro id listed
      rcases List.mem_append.mp listed with old | last
      · exact counts.fresh id old
      · obtain rfl := List.mem_singleton.mp last
        simp [classBudgetTtl]
  · exact counts

/-- The coinbasers a sighting is counted among, before it. -/
theorem ClassBudget.Vouched.entryFor (vouched : Vouched calls b) (section_ : UInt8) (kept now : Nat) :
    ∃ ids,
      ((entryFor (dropOld now (b.seen section_)) kept).1[(entryFor (dropOld now (b.seen section_)) kept).2]?.map
      Prod.snd).getD [] = ids ∧ KeptOn calls section_ kept now ids := by
  obtain ⟨ids, found⟩ := entryFor_ids (dropOld now (b.seen section_)) kept
  refine ⟨ids, by rw [found]; rfl, ?_⟩
  rcases mem_entryFor (List.mem_of_getElem? found) with listed | new
  · have dropped := vouched.dropOldSightings now
    refine ⟨dropped.few section_ _ listed, dropped.distinct section_ _ listed,
      dropped.called section_ _ listed, ?_⟩
    obtain ⟨old, -, -, left⟩ := mem_dropOld listed
    intro id member
    rw [show ids = _ from left] at member
    exact decide_eq_true_iff.mp (List.mem_filter.mp member).2
  · obtain rfl : ids = [] := (Prod.mk.injEq _ _ _ _ ▸ new).2
    exact ⟨Nat.zero_le _, List.nodup_nil, fun _ member => (List.not_mem_nil member).elim,
      fun _ member => (List.not_mem_nil member).elim⟩

/-- What a sighting does: nothing where it is of too few bytes. Else the tallies stay vouched, and the budget
changes only to these bytes, where it was none or more and enough coinbasers of the section have kept them. -/
theorem ClassBudget.Vouched.observe (vouched : Vouched calls b) (section_ coinbaserId : UInt8)
    (kept now : Nat) : let call := BudgetCall.observe section_ coinbaserId kept now
    Vouched (calls ++ [call]) (b.step call) ∧
      ((b.step call).bytes = b.bytes ∨
        (b.step call).bytes = some kept ∧ (∀ n, b.bytes = some n → kept < n) ∧
        Learned (calls ++ [call]) now kept) := by
  intro call
  have later := vouched.later call
  have stays := later.dropOldSightings now
  obtain ⟨ids, found, before⟩ := later.entryFor section_ kept now
  have counts := before.sighted coinbaserId (List.mem_append_right _ (List.mem_singleton.mpr rfl))
  show Vouched _ (b.observe section_ coinbaserId kept now).1 ∧ _
  simp only [call, step]
  unfold ClassBudget.observe
  by_cases small : kept < classBudgetMinBytes
  · rw [if_pos small]
    exact ⟨later, .inl rfl⟩
  rw [if_neg small]
  simp only [ClassBudget.dropOldSightings, found]
  -- the section's tally with the entry that was counted in, any other as it was
  have each : ∀ other,
    ∀ entry ∈ (if other = section_ then (ClassBudget.entryFor (dropOld now (b.seen section_)) kept).1.set
        (ClassBudget.entryFor (dropOld now (b.seen section_)) kept).2
          (kept, ClassBudget.sighted ids coinbaserId now)
        else dropOld now (b.seen other)), entry ∈ dropOld now (b.seen other) ∨ entry.2 = [] ∨
          other = section_ ∧ entry = (kept, ClassBudget.sighted ids coinbaserId now) := by
    intro other entry member
    split at member
    · rename_i same
      rcases List.mem_or_eq_of_mem_set member with old | new
      · rcases mem_entryFor old with listed | new
        · exact .inl (same ▸ listed)
        · exact .inr (.inl (new ▸ rfl))
      · exact .inr (.inr ⟨same, new⟩)
    · exact .inl member
  have kind : ∀ bytes setAt, (∀ n, bytes = some n → classBudgetMinBytes ≤ n) → Vouched (calls ++ [call])
      { seen := fun other => if other = section_ then
        (ClassBudget.entryFor (dropOld now (b.seen section_)) kept).1.set
          (ClassBudget.entryFor (dropOld now (b.seen section_)) kept).2
            (kept, ClassBudget.sighted ids coinbaserId now)
          else dropOld now (b.seen other), bytes, setAt } := by
    intro bytes setAt least
    refine ⟨fun other entry member => ?_, fun other entry member => ?_, fun other entry member => ?_, least⟩
    · rcases each other entry member with old | none | ⟨-, rfl⟩
      · exact stays.few other entry old
      · rw [none]
        exact Nat.zero_le _
      · exact counts.few
    · rcases each other entry member with old | none | ⟨-, rfl⟩
      · exact stays.distinct other entry old
      · rw [none]
        exact List.nodup_nil
      · exact counts.distinct
    · rcases each other entry member with old | none | ⟨rfl, rfl⟩
      · exact stays.called other entry old
      · rw [none]
        exact fun id listed => nomatch listed
      · exact counts.called
  split
  · exact ⟨kind _ _ vouched.least, .inl rfl⟩
  · rename_i enough
    rw [not_or, Nat.not_lt] at enough
    refine ⟨kind _ _ fun n set => ?_,
      .inr ⟨rfl, fun n had => ?_, section_, ClassBudget.sighted ids coinbaserId now,
      Nat.le_antisymm counts.few enough.1, counts.distinct, fun id listed =>
        ⟨counts.fresh id listed, counts.called id listed⟩⟩⟩
    · obtain rfl := Option.some.inj set
      exact Nat.le_of_not_lt small
    · rw [had] at enough
      simpa using enough.2

/-- An expiry forgets the budget or leaves it. -/
theorem ClassBudget.Vouched.expire (vouched : Vouched calls b) (now : Nat) :
    let call := BudgetCall.expire now
    Vouched (calls ++ [call]) (b.step call) ∧
      (b.Forgets call ∧ (b.step call).bytes = none ∨ (b.step call).bytes = b.bytes) := by
  intro call
  simp only [call, step, Forgets, ClassBudget.expire]
  split
  · exact ⟨⟨fun _ _ member => (List.not_mem_nil member).elim, fun _ _ member => (List.not_mem_nil member).elim,
      fun _ _ member => (List.not_mem_nil member).elim, fun _ set => nomatch set⟩, .inl ⟨rfl, rfl⟩⟩
  · exact ⟨(vouched.later call).dropOldSightings now, .inr rfl⟩

theorem ClassBudget.Vouched.step (vouched : Vouched calls b) (call : BudgetCall) :
    Vouched (calls ++ [call]) (b.step call) := by
  cases call with
  | observe section_ coinbaserId kept now => exact (vouched.observe section_ coinbaserId kept now).1
  | expire now => exact (vouched.expire now).1

private theorem vouched_run (calls : List BudgetCall) : Vouched calls (run calls) := by
  induction calls using List.reverseRecOn with
  | nil => exact Vouched.start
  | append_singleton calls call ih =>
    rw [run, List.foldl_append]
    exact ih.step call

private theorem lowered_along (between : List BudgetCall) (vouched : Vouched calls b)
    (kept : Run.Along (fun b call => ¬ b.Forgets call) step b between) :
    Lowered b.bytes (between.foldl step b).bytes := by
  induction between generalizing calls b with
  | nil => exact fun n set => ⟨n, set, Nat.le_refl n⟩
  | cons call rest ih =>
    obtain ⟨here, later⟩ := kept
    have first : Lowered b.bytes (b.step call).bytes := by
      intro n set
      cases call with
      | observe section_ coinbaserId kept now =>
        rcases (vouched.observe section_ coinbaserId kept now).2 with same | ⟨bytes, below, -⟩
        · exact ⟨n, same ▸ set, Nat.le_refl n⟩
        · exact ⟨kept, bytes, Nat.le_of_lt (below n set)⟩
      | expire now =>
        rcases (vouched.expire now).2 with ⟨forgot, -⟩ | same
        · exact absurd forgot here
        · exact ⟨n, same ▸ set, Nat.le_refl n⟩
    intro n set
    obtain ⟨m, next, less⟩ := first n set
    obtain ⟨last, final, least⟩ := ih (vouched.step call) later m next
    exact ⟨last, final, least.trans less⟩

end Sightings

section Capped

/-- A list computed under a budget is placed whole by any packing into at least that room,
the pool's output apart. -/
theorem capped_placed_whole (miners : List MinerStat) (totalWork value : Nat)
    (pool : SplitParams) (rebateOwed now : Nat) (scriptFor : String → Option Script)
    (poolScript : Script) {budget room : Nat} (fits : budget ≤ room) :
    let list := coinbaserOutputs
      (compute miners totalWork value (classParams pool (some budget)) rebateOwed now scriptFor) poolScript
    FirstFit.place Output.serializedLen room (minersOf poolScript list) = minersOf poolScript list := by
  intro list
  let s := compute miners totalWork value (classParams pool (some budget)) rebateOwed now scriptFor
  have held : (classParams pool (some budget)).outputBudgetBytes ≤ budget := by
    unfold classParams
    simp only
    split
    · exact Nat.le_refl _
    · rename_i small
      exact Nat.le_of_not_lt small
  have bytes : (s.payees.map fun payee => 9 + payee.script.length).sum ≤ _ :=
    (payees_limits miners totalWork value (classParams pool (some budget)) rebateOwed now scriptFor).2
  -- the pool's own output goes when the list is read for its miners
  have miners : (minersOf poolScript list).Sublist
      (s.payees.map fun payee => ({ sats := payee.sats, script := payee.script } : Output)) := by
    show (minersOf poolScript (coinbaserOutputs s poolScript)).Sublist _
    unfold coinbaserOutputs minersOf
    simp only
    split
    · rw [List.filter_append]
      simp only [ne_eq, not_true_eq_false, decide_false, Bool.false_eq_true,
        not_false_eq_true, List.filter_cons_of_neg, List.filter_nil, List.append_nil]
      exact List.filter_sublist
    · exact List.filter_sublist
  apply FirstFit.place_of_fits
  have load : FirstFit.load Output.serializedLen (minersOf poolScript list) ≤
      (s.payees.map fun payee => 9 + payee.script.length).sum := by
    have part := (miners.map Output.serializedLen).sum_le_sum fun _ _ => Nat.zero_le _
    rwa [List.map_map] at part
  exact load.trans (bytes.trans (held.trans fits))

end Capped

open ClassBudget

/-- A class budget is learned only from room, and then fits. Of a list whose miner outputs all pay something, a
coinbase made by packing it tells exactly the bytes that were placed, and a list of no more is placed whole.
Over any calls the budget is of a size class, gets smaller until it is forgotten, and is set only to bytes that
one section kept on enough coinbasers that are not too long ago. -/
theorem class_budget_fits {issued : List Output} {poolScript : Bytes} {room : Nat} {cb : Coinbase}
    (distinct : (issued.map Output.script).Nodup) (paying : ∀ o ∈ minersOf poolScript issued, 0 < o.sats)
    (packed : Packed issued poolScript room cb) (calls : List BudgetCall) :
    keptPayeeBytes issued poolScript cb = some (placedBytes issued poolScript room) ∧
    (∀ list : List Output,
      FirstFit.load Output.serializedLen (minersOf poolScript list) ≤ placedBytes issued poolScript room →
      FirstFit.place Output.serializedLen room (minersOf poolScript list) = minersOf poolScript list) ∧
    (∀ n, (run calls).bytes = some n → classBudgetMinBytes ≤ n) ∧
    (∀ between, Run.Along (fun b call => ¬ b.Forgets call) step (run calls) between →
      Lowered (run calls).bytes (run (calls ++ between)).bytes) ∧
    ∀ call n, (run (calls ++ [call])).bytes = some n → (run calls).bytes ≠ some n →
      Learned (calls ++ [call]) call.now n := by
  refine ⟨packed.keptPayeeBytes distinct paying, fun list fits => placed_whole fits,
    (vouched_run calls).least, ?_, ?_⟩
  · intro between kept
    rw [run, run, List.foldl_append]
    exact lowered_along between (vouched_run calls) kept
  · intro call n set fresh
    have next : run (calls ++ [call]) = (run calls).step call := by
      rw [run, List.foldl_append]
      rfl
    rw [next] at set
    cases call with
    | observe section_ coinbaserId kept now =>
      rcases ((vouched_run calls).observe section_ coinbaserId kept now).2 with same | ⟨bytes, -, learned⟩
      · exact absurd (same ▸ set) fresh
      · obtain rfl : kept = n := Option.some.inj (bytes.symm.trans set)
        exact learned
    | expire now =>
      rcases ((vouched_run calls).expire now).2 with ⟨-, none⟩ | same
      · rw [none] at set
        cases set
      · exact absurd (same ▸ set) fresh

section Cut

/-- Three payees and the pool. The last of the payees does not fit what the others leave of the room. -/
private def cutList (second : Nat) : List Output :=
  [{ script := [0xa1, 1], sats := 60 }, { script := [0xa2, 2], sats := second },
    { script := [0xa3, 3, 3, 3, 3], sats := 40 }, { script := [0xee], sats := 10 }]

private def cutCoinbase (second : Nat) : Coinbase where
  outputs := [⟨60, [0xa1, 1]⟩, ⟨second, [0xa2, 2]⟩, ⟨50, [0xee]⟩]

private theorem cutPacked (second : Nat) : Packed (cutList second) [0xee] 22 (cutCoinbase second) where
  outputs := ⟨[⟨50, [0xee]⟩], List.Perm.refl _, by simp [minersOf, cutList]⟩
  worth := by
    show (([60, second, 40, 10] : List Nat).foldl satAdd 0) ≤ ([60, second, 50] : List Nat).foldl satAdd 0
    rw [foldl_satAdd_eq_min (Nat.zero_le _), foldl_satAdd_eq_min (Nat.zero_le _)]
    simp only [List.sum_cons, List.sum_nil]
    omega
  placed := by simp [minersOf, cutList, FirstFit.place, Output.serializedLen]
  skipped := by simp [minersOf, cutList, FirstFit.place, Output.serializedLen]

theorem class_budget_fits_cut :
    keptPayeeBytes (cutList 50) [0xee] (cutCoinbase 50) = some 22 ∧
      placedBytes (cutList 50) [0xee] 22 = 22 := by
  have placed : placedBytes (cutList 50) [0xee] 22 = 22 := by decide
  have learned :=
    (@class_budget_fits (cutList 50) [0xee] 22 (cutCoinbase 50) (by decide) (by decide) (cutPacked 50) []).1
  exact ⟨learned.trans (by rw [placed]), placed⟩

/-- A payee that is paid nothing does not count among those that were placed. -/
theorem placed_unpaid_uncounted : ¬ ∀ (issued : List Output) (poolScript : Bytes) (room : Nat) (cb : Coinbase),
    (issued.map Output.script).Nodup → Packed issued poolScript room cb →
      keptPayeeBytes issued poolScript cb = some (placedBytes issued poolScript room) := by
  intro claim
  have learned := claim (cutList 0) [0xee] 22 (cutCoinbase 0) (by decide) (cutPacked 0)
  revert learned
  decide

end Cut

end Lazarus.Primed
