import Lazarus.Prime.Split

/-! The older Prime at work. Sessions number, make and issue splits in steps of their own, shares are credited
as they come, and a block found on an issued split settles the make-goods by what that split moved. -/

namespace Lazarus.Prime

open Machine
open Gateway (CoinbaserOutput CoinbaserV2)
open Wire (Bytes Fixed)

abbrev Moves := List (String × Nat)

/-- How far a session is with the split it was asked for. -/
inductive Asking where
  | idle
  | numbered (id : UInt8) (value : UInt64)
  | made (cb : CoinbaserV2) (moves : Moves)

/-- What the threads of Prime share, and what each session has in hand. -/
structure Shared where
  ledger : Ledger
  coinbaserId : UInt8 := 1
  issued : Table UInt8 (CoinbaserV2 × Moves) := ∅
  asking : Nat → Asking := fun _ => .idle

inductive Event where
  | number (session : Nat) (value : UInt64)
  | split (session : Nat) (rows : List (String × Nat))
  | issue (session : Nat)
  | share (now : Nat) (identity : String) (work : Nat) (key : Fixed 16) (windowTarget : Nat)
  | carry (identity : String) (work : Nat)
  | block (isOurs : Bool) (outputs : List (Bytes × Nat)) (order : List UInt8)

/-- The value outputs of a coinbase in one order. -/
def outputSet (outputs : List (Bytes × Nat)) : List (Bytes × Nat) :=
  (outputs.filter fun o => decide (0 < o.2)).insertionSort fun a b => a.1 < b.1 ∨ a.1 = b.1 ∧ a.2 ≤ b.2

def CoinbaserV2.paid (cb : CoinbaserV2) : List (Bytes × Nat) := cb.outputs.map fun o => (o.script, o.sats)

namespace Shared

/-- The next id of a split: never zero. -/
def nextId (s : Shared) : UInt8 := if s.coinbaserId + 1 = 0 then 1 else s.coinbaserId + 1

def withAsking (s : Shared) (i : Nat) (asking : Asking) : Shared :=
  { s with asking := Function.update s.asking i asking }

/-- The moves of an issued split that a block's outputs are, in the order the map is gone through in. -/
def matched (s : Shared) (outputs : List (Bytes × Nat)) (order : List UInt8) : Option Moves :=
  order.findSome? fun id => (s.issued.get? id).bind fun entry =>
    if outputSet (CoinbaserV2.paid entry.1) = outputSet outputs then some entry.2 else none

variable (identityScript : String → Option Bytes) (t : Terms)

/-- One step, and the moves it settled. -/
def step (s : Shared) : Event → Shared × Moves
  | .number i value => ({ s with coinbaserId := s.nextId }.withAsking i (.numbered s.nextId value), [])
  | .split i rows =>
    match s.asking i with
    | .numbered id value =>
      let made := s.ledger.coinbaserWithMoves identityScript t rows value.toNat id
      (s.withAsking i (.made made.1 made.2), [])
    | _ => (s, [])
  | .issue i =>
    match s.asking i with
    | .made cb moves => ({ s with issued := AList.insert cb.id (cb, moves) s.issued }.withAsking i .idle, [])
    | _ => (s, [])
  | .share now identity work key windowTarget =>
    ({ s with ledger := (s.ledger.credit now identity work key).1.trim (max windowTarget 1) }, [])
  | .carry identity work => ({ s with ledger := s.ledger.mergeCarry identity work }, [])
  | .block isOurs outputs order =>
    if isOurs ∧ 2 ≤ outputs.length then
      match s.matched outputs order with
      | some moves => ({ s with ledger := (s.ledger.settleBonuses moves).1.clearCarry }, moves)
      | none => ({ s with ledger := s.ledger.clearCarry }, [])
    else (s, [])

/-- A run, and all it settled. -/
def run : Shared → List Event → Shared × Moves
  | s, [] => (s, [])
  | s, e :: rest =>
    ((run (s.step identityScript t e).1 rest).1,
      (s.step identityScript t e).2 ++ (run (s.step identityScript t e).1 rest).2)

end Shared

section Debts

/-- A debt after so much was settled: paid by that much and no further, and gone once it is whole. -/
def Bonus.settledBy (moves : Moves) (b : Bonus) : Option Bonus :=
  if b.owedSats ≤ b.paidSats + Tally.tally b.beneficiary moves then none
  else some { b with paidSats := b.paidSats + Tally.tally b.beneficiary moves }

/-- Debts as they are armed: open, of satoshis that fit, and one to a beneficiary. -/
structure Armed (bonuses : List Bonus) : Prop where
  distinct : (bonuses.map Bonus.beneficiary).Nodup
  unpaid : ∀ b ∈ bonuses, b.paidSats < b.owedSats ∧ b.owedSats ≤ u64Max

private theorem settleMove_eq_map {bonuses : List Bonus} (distinct : (bonuses.map Bonus.beneficiary).Nodup)
    (within : ∀ b ∈ bonuses, b.paidSats ≤ b.owedSats ∧ b.owedSats ≤ u64Max) (move : String × Nat) :
    settleMove move bonuses = bonuses.map fun b =>
      { b with paidSats := min (b.paidSats + if move.1 = b.beneficiary then move.2 else 0) b.owedSats } := by
  induction bonuses with
  | nil => rfl
  | cons b rest ih =>
    obtain ⟨fresh, distinct⟩ := List.nodup_cons.mp distinct
    obtain ⟨paid, owed⟩ := within b (by simp)
    have restWithin := fun other member => within other (List.mem_cons_of_mem b member)
    rw [settleMove, List.map_cons]
    by_cases here : b.beneficiary = move.1
    · have others : rest.map (fun b => { b with
          paidSats := min (b.paidSats + if move.1 = b.beneficiary then move.2 else 0) b.owedSats }) = rest := by
        nth_rewrite 2 [← List.map_id rest]
        apply List.map_congr_left
        intro other member
        have differ : move.1 ≠ other.beneficiary := by
          intro same
          exact fresh (List.mem_map.mpr ⟨other, member, same.symm.trans here.symm⟩)
        obtain ⟨otherPaid, -⟩ := restWithin other member
        simp [differ, Nat.min_eq_left otherPaid]
      by_cases live : 0 < b.remaining
      · have capped : min (satAdd b.paidSats move.2) b.owedSats = min (b.paidSats + move.2) b.owedSats := by
          unfold satAdd
          omega
        rw [if_pos ⟨here, live⟩, others, if_pos here.symm, capped]
      · have whole : b.paidSats = b.owedSats := by
          unfold Bonus.remaining at live
          omega
        have same : min (b.paidSats + move.2) b.owedSats = b.paidSats := by omega
        rw [if_neg fun both => live both.2, others, if_pos here.symm, same, ih distinct restWithin, others]
    · have same : min (b.paidSats + 0) b.owedSats = b.paidSats := by omega
      rw [if_neg fun both => here both.1, if_neg (Ne.symm here), same, ih distinct restWithin]

/-- The moves of a block settled one after the other: each debt by all that went to its beneficiary, and no
further than what is owed. -/
theorem foldl_settleMove {bonuses : List Bonus} (distinct : (bonuses.map Bonus.beneficiary).Nodup)
    (within : ∀ b ∈ bonuses, b.paidSats ≤ b.owedSats ∧ b.owedSats ≤ u64Max) (moves : Moves) :
    moves.foldl (fun bonuses move => settleMove move bonuses) bonuses = bonuses.map fun b =>
      { b with paidSats := min (b.paidSats + Tally.tally b.beneficiary moves) b.owedSats } := by
  induction moves generalizing bonuses with
  | nil =>
    rw [List.foldl_nil]
    nth_rewrite 1 [← List.map_id bonuses]
    apply List.map_congr_left
    intro b member
    simp [Nat.min_eq_left (within b member).1]
  | cons move rest ih =>
    rw [List.foldl_cons, settleMove_eq_map distinct within move, ih, List.map_map]
    · apply List.map_congr_left
      intro b _
      simp only [Function.comp_apply, Tally.tally_cons, Bonus.mk.injEq, true_and, and_true]
      omega
    · rw [List.map_map]
      exact distinct
    · intro b member
      obtain ⟨b', member', rfl⟩ := List.mem_map.mp member
      exact ⟨Nat.min_le_right _ _, (within b' member').2⟩

private theorem filterMap_settledBy_nil {bonuses : List Bonus} (armed : Armed bonuses) :
    bonuses.filterMap (Bonus.settledBy []) = bonuses := by
  nth_rewrite 2 [← List.filterMap_some (l := bonuses)]
  apply List.filterMap_congr
  intro b member
  have short := (armed.unpaid b member).1
  rw [Bonus.settledBy, if_neg (by simp only [Tally.tally_nil]; omega)]
  rfl

private theorem settleBonuses_bonuses {l : Ledger} (armed : Armed l.bonuses) (moves : Moves) :
    (l.settleBonuses moves).1.bonuses = l.bonuses.filterMap (Bonus.settledBy moves) := by
  have within : ∀ b ∈ l.bonuses, b.paidSats ≤ b.owedSats ∧ b.owedSats ≤ u64Max :=
    fun b member => ⟨Nat.le_of_lt (armed.unpaid b member).1, (armed.unpaid b member).2⟩
  rw [Ledger.settleBonuses]
  by_cases none : moves = []
  · rw [if_pos none, none, filterMap_settledBy_nil armed]
  · rw [if_neg none]
    simp only
    rw [foldl_settleMove armed.distinct within moves, List.filter_map, ← List.filterMap_eq_map,
      List.filterMap_filter]
    apply List.filterMap_congr
    intro b member
    unfold Bonus.settledBy Bonus.remaining
    by_cases whole : b.owedSats ≤ b.paidSats + Tally.tally b.beneficiary moves
    · have cap : min (b.paidSats + Tally.tally b.beneficiary moves) b.owedSats = b.owedSats := by omega
      simp [whole]
    · have free : min (b.paidSats + Tally.tally b.beneficiary moves) b.owedSats =
          b.paidSats + Tally.tally b.beneficiary moves := by omega
      have rest : b.owedSats - (b.paidSats + Tally.tally b.beneficiary moves) ≠ 0 := by omega
      simp [whole, free, rest]

private theorem settledBy_append (first second : Moves) (b : Bonus) :
    (b.settledBy first).bind (Bonus.settledBy second) = b.settledBy (first ++ second) := by
  unfold Bonus.settledBy
  rw [Tally.tally_append]
  by_cases whole : b.owedSats ≤ b.paidSats + Tally.tally b.beneficiary first
  · rw [if_pos whole, if_pos (by omega)]
    rfl
  · rw [if_neg whole, Option.bind_some]
    simp only [Nat.add_assoc]

theorem Armed.filterMap_settledBy {bonuses : List Bonus} (armed : Armed bonuses) (moves : Moves) :
    Armed (bonuses.filterMap (Bonus.settledBy moves)) := by
  have same : ∀ b b', Bonus.settledBy moves b = some b' →
      b'.beneficiary = b.beneficiary ∧ b'.paidSats < b'.owedSats ∧ b'.owedSats = b.owedSats := by
    intro b b' left
    unfold Bonus.settledBy at left
    by_cases whole : b.owedSats ≤ b.paidSats + Tally.tally b.beneficiary moves
    · rw [if_pos whole] at left
      cases left
    · rw [if_neg whole] at left
      cases left
      exact ⟨rfl, by simp only; omega, rfl⟩
  constructor
  · have among : ((bonuses.filterMap (Bonus.settledBy moves)).map Bonus.beneficiary).Sublist
        (bonuses.map Bonus.beneficiary) := by
      clear armed
      induction bonuses with
      | nil => exact List.Sublist.refl _
      | cons b rest ih =>
        cases left : b.settledBy moves with
        | none =>
          rw [List.filterMap_cons_none left, List.map_cons]
          exact ih.cons _
        | some b' =>
          rw [List.filterMap_cons_some left, List.map_cons, List.map_cons, (same b b' left).1]
          exact ih.cons_cons _
    exact armed.distinct.sublist among
  · intro b' member
    obtain ⟨b, before, left⟩ := List.mem_filterMap.mp member
    obtain ⟨-, short, owed⟩ := same b b' left
    exact ⟨short, owed ▸ (armed.unpaid b before).2⟩

variable {identityScript : String → Option Bytes} {t : Terms}

private theorem trim_bonuses (l : Ledger) (target : Nat) : (l.trim target).bonuses = l.bonuses := by
  unfold Ledger.trim
  split <;> rfl

private theorem credit_bonuses (l : Ledger) (now : Nat) (identity : String) (work : Nat) (key : Fixed 16) :
    (l.credit now identity work key).1.bonuses = l.bonuses := by
  unfold Ledger.credit
  split <;> rfl

private theorem mergeCarry_bonuses (l : Ledger) (identity : String) (work : Nat) :
    (l.mergeCarry identity work).bonuses = l.bonuses := by
  unfold Ledger.mergeCarry
  split <;> rfl

private theorem step_bonuses {s : Shared} (armed : Armed s.ledger.bonuses) (e : Event) :
    (s.step identityScript t e).1.ledger.bonuses =
      s.ledger.bonuses.filterMap (Bonus.settledBy (s.step identityScript t e).2) := by
  have kept : s.ledger.bonuses = s.ledger.bonuses.filterMap (Bonus.settledBy []) :=
    (filterMap_settledBy_nil armed).symm
  cases e with
  | number i value => exact kept
  | split i rows =>
    rw [Shared.step]
    cases s.asking i <;> exact kept
  | issue i =>
    rw [Shared.step]
    cases s.asking i <;> exact kept
  | share now identity work key windowTarget =>
    show ((s.ledger.credit now identity work key).1.trim (max windowTarget 1)).bonuses = _
    rw [trim_bonuses, credit_bonuses]
    exact kept
  | carry identity work =>
    show (s.ledger.mergeCarry identity work).bonuses = _
    rw [mergeCarry_bonuses]
    exact kept
  | block isOurs outputs order =>
    rw [Shared.step]
    by_cases split : isOurs = true ∧ 2 ≤ outputs.length
    · rw [if_pos split]
      cases found : s.matched outputs order with
      | none => exact kept
      | some moves => exact settleBonuses_bonuses armed moves
    · rw [if_neg split]
      exact kept

/-- Over any run, each make-good is paid by exactly what the confirmed splits moved to its beneficiary, and is
gone when that makes it whole: issuing splits, crediting work and blocks of other splits do not touch it. -/
theorem make_goods_settled (s : Shared) (armed : Armed s.ledger.bonuses) (events : List Event) :
    (s.run identityScript t events).1.ledger.bonuses =
      s.ledger.bonuses.filterMap (Bonus.settledBy (s.run identityScript t events).2) := by
  induction events generalizing s with
  | nil => exact (filterMap_settledBy_nil armed).symm
  | cons e rest ih =>
    have stepped := @step_bonuses identityScript t s armed e
    have later := ih (s.step identityScript t e).1 (stepped ▸ armed.filterMap_settledBy _)
    rw [Shared.run, later, stepped, List.filterMap_filterMap]
    simp only [settledBy_append]

/-- Three addresses, by their scripts. -/
def wallets (address : String) : Option Bytes :=
  if address = "pool" then some [0x51, 1] else if address = "miner" then some [0x51, 2]
  else if address = "friend" then some [0x51, 3] else none

def noFee : Terms := ⟨0, 0, [0x51, 1]⟩

/-- The pool and a miner have worked alike, and the pool owes a friend what two of its shares come to. -/
def oneDebt : Shared where
  ledger :=
    { credits := [⟨60, "pool", 1⟩, ⟨60, "miner", 1⟩], total := 2, bonuses := [⟨"friend", "pool", 100, 0, ""⟩] }

/-- A split asked for, made and issued. -/
def splitIssued : List Event := [.number 0 100, .split 0 [("pool", 1), ("miner", 1)], .issue 0]

/-- A block found on it, the outputs in another order. -/
def blockFound : Event := .block true [([0x51, 3], 50), ([0x51, 2], 50)] [2, 3]

/-- Two blocks make the friend whole. -/
theorem make_goods_settled_twoBlocks :
    (oneDebt.run wallets noFee (splitIssued ++ blockFound :: splitIssued ++ [blockFound])).2 =
        [("friend", 50), ("friend", 50)] ∧
      (oneDebt.run wallets noFee (splitIssued ++ blockFound :: splitIssued ++ [blockFound])).1.ledger.bonuses =
        [] := by
  have settled : (oneDebt.run wallets noFee (splitIssued ++ blockFound :: splitIssued ++ [blockFound])).2 =
      [("friend", 50), ("friend", 50)] := by decide +kernel
  have armed : Armed oneDebt.ledger.bonuses := ⟨by decide, by decide⟩
  refine ⟨settled, ?_⟩
  rw [make_goods_settled oneDebt armed, settled]
  decide

end Debts

section Counting

variable {l : Ledger}

private theorem values_sum (m : Table String Nat) : m.values.sum = Tally.total id m := rfl

private theorem work_addToRow {bucket : Nat} {identity : String} {work : Nat} {credits rows : List Credit}
    (fits : (credits.map Credit.work).sum + work ≤ u64Max)
    (added : addToRow bucket identity work credits = some rows) :
    (rows.map Credit.work).sum = (credits.map Credit.work).sum + work := by
  induction credits generalizing rows with
  | nil => cases added
  | cons c older ih =>
    rw [List.map_cons, List.sum_cons] at fits
    rw [addToRow] at added
    by_cases past : c.ts < bucket
    · rw [if_pos past] at added
      cases added
    rw [if_neg past] at added
    by_cases own : c.identity = identity
    · rw [if_pos own] at added
      cases added
      have exact : satAdd c.work work = c.work + work := satAdd_eq (by omega)
      simp only [List.map_cons, List.sum_cons, exact]
      omega
    · rw [if_neg own] at added
      obtain ⟨later, addedLater, rfl⟩ := Option.map_eq_some_iff.mp added
      have rest := ih (by omega) addedLater
      simp only [List.map_cons, List.sum_cons, rest]
      omega

private theorem work_file {credits : List Credit} {work : Nat}
    (fits : (credits.map Credit.work).sum + work ≤ u64Max) (bucket : Nat) (identity : String) :
    ((file bucket identity work credits).map Credit.work).sum = (credits.map Credit.work).sum + work := by
  unfold file
  have turned : ((credits.reverse).map Credit.work).sum = (credits.map Credit.work).sum := by
    rw [List.map_reverse, List.sum_reverse]
  cases added : addToRow bucket identity work credits.reverse with
  | none => simp
  | some rows =>
    have more := work_addToRow (turned.symm ▸ fits) added
    simp only [List.map_reverse, List.sum_reverse, more]

/-- What is left after rows have gone is what they left. -/
theorem work_spill (target : Nat) (credits : List Credit) :
    (spill target credits (credits.map Credit.work).sum).2 =
        ((spill target credits (credits.map Credit.work).sum).1.map Credit.work).sum ∧
      (spill target credits (credits.map Credit.work).sum).2 ≤ (credits.map Credit.work).sum := by
  induction credits with
  | nil => exact ⟨rfl, Nat.le_refl _⟩
  | cons c rest ih =>
    rw [List.map_cons, List.sum_cons, spill]
    by_cases more : target < c.work + (rest.map Credit.work).sum
    · rw [if_pos more, Nat.add_sub_cancel_left]
      exact ⟨ih.1, Nat.le_trans ih.2 (Nat.le_add_left _ _)⟩
    · rw [if_neg more]
      exact ⟨by simp, Nat.le_refl _⟩

theorem Ledger.Counted.rows (counted : l.Counted) :
    (l.credits.map Credit.work).sum + l.carry.values.sum ≤ u64Max := by
  rw [← Ledger.effort_entries]
  exact counted.fits

theorem Ledger.Counted.credit (counted : l.Counted) {work : Nat}
    (fits : effort l.entries + work ≤ u64Max) (now : Nat)
    (identity : String) (key : Fixed 16) : (l.credit now identity work key).1.Counted := by
  rw [Ledger.effort_entries] at fits
  unfold Ledger.credit
  split
  · exact counted
  · have more := @work_file l.credits work (by omega) (bucketOf now) identity
    have total := counted.total
    have exact : satAdd l.total work = l.total + work := satAdd_eq (by omega)
    constructor
    · show satAdd l.total work = ((file (bucketOf now) identity work l.credits).map Credit.work).sum
      omega
    · rw [Ledger.effort_entries]
      show ((file (bucketOf now) identity work l.credits).map Credit.work).sum + l.carry.values.sum ≤ u64Max
      omega

theorem Ledger.Counted.trim (counted : l.Counted) (target : Nat) : (l.trim target).Counted := by
  unfold Ledger.trim
  split
  · exact counted
  · obtain ⟨left, less⟩ := work_spill target l.credits
    have rows := counted.rows
    rw [← counted.total] at left less
    constructor
    · exact left
    · rw [Ledger.effort_entries]
      show ((spill target l.credits l.total).1.map Credit.work).sum + l.carry.values.sum ≤ u64Max
      have total := counted.total
      omega

theorem Ledger.Counted.mergeCarry (counted : l.Counted) {work : Nat} (fits : effort l.entries + work ≤ u64Max)
    (identity : String) : (l.mergeCarry identity work).Counted := by
  rw [Ledger.effort_entries, values_sum] at fits
  unfold Ledger.mergeCarry
  split
  · exact counted
  · have inserted := Tally.total_insert id l.carry identity (satAdd ((l.carry.get? identity).getD 0) work)
    have erased := Tally.total_erase id l.carry identity
    have found : ((AList.lookup identity l.carry).map id).getD 0 = (l.carry.get? identity).getD 0 := by
      rw [Option.map_id]
      rfl
    have more := satAdd_le (a := (l.carry.get? identity).getD 0) (b := work)
    simp only [id_eq] at inserted
    constructor
    · exact counted.total
    · rw [Ledger.effort_entries, values_sum]
      show (l.credits.map Credit.work).sum +
        Tally.total id (AList.insert identity (satAdd ((l.carry.get? identity).getD 0) work) l.carry) ≤ u64Max
      omega

theorem Ledger.Counted.clearCarry (counted : l.Counted) : l.clearCarry.Counted := by
  have rows := counted.rows
  constructor
  · exact counted.total
  · rw [Ledger.effort_entries]
    show (l.credits.map Credit.work).sum + 0 ≤ u64Max
    omega

theorem Ledger.Counted.settleBonuses (counted : l.Counted) (moves : Moves) :
    (l.settleBonuses moves).1.Counted := by
  unfold Ledger.settleBonuses
  split
  · exact counted
  · exact ⟨counted.total, counted.fits⟩

end Counting

section Issued

variable (identityScript : String → Option Bytes) (t : Terms)

/-- What the surroundings keep to: a map is gone through whole, and all work counted fits the sums. -/
def Event.Allowed (s : Shared) : Event → Prop
  | .split _ rows => s.ledger.Lists rows
  | .share _ _ work _ _ => effort s.ledger.entries + work ≤ u64Max
  | .carry _ work => effort s.ledger.entries + work ≤ u64Max
  | _ => True

def Shared.next (s : Shared) (e : Event) : Shared := (s.step identityScript t e).1

/-- The session whose request an event is. -/
def Event.asker : Event → Option Nat
  | .number i _ => some i
  | _ => none

/-- The session whose split an event makes. -/
def Event.maker : Event → Option Nat
  | .split i _ => some i
  | _ => none

/-- A session has asked for a split of a value and was given a number for it; the split is not made yet. -/
def Asked (s : Shared) (history : List Event) (i : Nat) (id : UInt8) (value : UInt64) : Prop :=
  ∃ first between, history = first ++ .number i value :: between ∧
    id = (first.foldl (Shared.next identityScript t) s).nextId ∧ ∀ e ∈ between, e.asker ≠ some i ∧
    e.maker ≠ some i

/-- A session's split was made for what it last asked for, from the ledger as it was then. -/
def MadeFor (s : Shared) (history : List Event) (i : Nat) (cb : CoinbaserV2) (moves : Moves) : Prop :=
  ∃ earlier rows after, ∃ value : UInt64, history = earlier ++ .split i rows :: after ∧
    Asked identityScript t s earlier i cb.id value ∧ (∀ e ∈ after, e.asker ≠ some i) ∧
    (earlier.foldl (Shared.next identityScript t) s).ledger.Counted ∧
    (earlier.foldl (Shared.next identityScript t) s).ledger.Lists rows ∧
    (earlier.foldl (Shared.next identityScript t) s).ledger.coinbaserWithMoves
      identityScript t rows value.toNat cb.id = (cb, moves)

/-- What a run has come to: every number given out, every split in hand and every one issued, under its own id,
is that of a session that asked for it. -/
structure Shared.Sound (now s : Shared) (history : List Event) : Prop where
  counted : now.ledger.Counted
  asked : ∀ i id value, now.asking i = .numbered id value → Asked identityScript t s history i id value
  inHand : ∀ i cb moves, now.asking i = .made cb moves → MadeFor identityScript t s history i cb moves
  issued : ∀ id cb moves, now.issued.get? id = some (cb, moves) → cb.id = id ∧
    ∃ i earlier later, history = earlier ++ .issue i :: later ∧ MadeFor identityScript t s earlier i cb moves

variable {identityScript t} {s now now' : Shared} {history : List Event} {e : Event}

theorem Asked.more {i : Nat} {id : UInt8} {value : UInt64} (asked : Asked identityScript t s history i id value)
    (other : e.asker ≠ some i ∧ e.maker ≠ some i) : Asked identityScript t s (history ++ [e]) i id value := by
  obtain ⟨first, between, rfl, number, quiet⟩ := asked
  refine ⟨first, between ++ [e], by simp, number, ?_⟩
  intro e' member
  rcases List.mem_append.mp member with before | last
  · exact quiet e' before
  · rw [List.mem_singleton.mp last]
    exact other

theorem MadeFor.more {i : Nat} {cb : CoinbaserV2} {moves : Moves}
    (made : MadeFor identityScript t s history i cb moves)
    (other : e.asker ≠ some i) : MadeFor identityScript t s (history ++ [e]) i cb moves := by
  obtain ⟨earlier, rows, after, value, rfl, asked, quiet, rest⟩ := made
  refine ⟨earlier, rows, after ++ [e], value, by simp, asked, ?_, rest⟩
  intro e' member
  rcases List.mem_append.mp member with before | last
  · exact quiet e' before
  · rw [List.mem_singleton.mp last]
    exact other

/-- A step that leaves the sessions and what is issued alone, but for another session's. -/
theorem Shared.Sound.more (sound : now.Sound identityScript t s history) (counted : now'.ledger.Counted)
    (asked : ∀ i id value, now'.asking i = .numbered id value → now.asking i = .numbered id value ∧
      e.asker ≠ some i ∧ e.maker ≠ some i)
    (inHand : ∀ i cb moves, now'.asking i = .made cb moves → now.asking i = .made cb moves ∧ e.asker ≠ some i)
    (issued : now'.issued = now.issued) : now'.Sound identityScript t s (history ++ [e]) where
  counted := counted
  asked i id value numbered :=
    (sound.asked i id value (asked i id value numbered).1).more (asked i id value numbered).2
  inHand i cb moves made := (sound.inHand i cb moves (inHand i cb moves made).1).more (inHand i cb moves made).2
  issued id cb moves held := by
    obtain ⟨own, i, earlier, later, rfl, made⟩ := sound.issued id cb moves (issued ▸ held)
    exact ⟨own, i, earlier, later ++ [e], by simp, made⟩

/-- Every step keeps what is numbered, made and issued to what was asked for. -/
theorem Shared.Sound.next (sound : now.Sound identityScript t s history)
    (reached : now = history.foldl (Shared.next identityScript t) s) (allowed : e.Allowed now) :
    (now.next identityScript t e).Sound identityScript t s (history ++ [e]) := by
  have elsewhere : ∀ {i j : Nat} (asking : Asking), i ≠ j → (now.withAsking j asking).asking i = now.asking i :=
    fun asking other => Function.update_of_ne other ..
  have here : ∀ (j : Nat) (asking : Asking), (now.withAsking j asking).asking j = asking :=
    fun j asking => Function.update_self ..
  have issuedMore : ∀ id cb moves, now.issued.get? id = some (cb, moves) → cb.id = id ∧ ∃ i earlier later,
      history ++ [e] = earlier ++ .issue i :: later ∧ MadeFor identityScript t s earlier i cb moves := by
    intro id cb moves held
    obtain ⟨own, i, earlier, later, rfl, made⟩ := sound.issued id cb moves held
    exact ⟨own, i, earlier, later ++ [e], by simp, made⟩
  unfold Shared.next
  cases e with
  | number j value =>
    refine ⟨sound.counted, ?_, ?_, issuedMore⟩
    · intro i id value' numbered
      by_cases own : i = j
      · subst own
        obtain ⟨rfl, rfl⟩ := Asking.numbered.inj ((here i _).symm.trans numbered)
        exact ⟨history, [], rfl, by rw [reached], nofun⟩
      · have other : Event.asker (.number j value) ≠ some i := fun same => own (Option.some.inj same).symm
        exact (sound.asked i id value' ((elsewhere _ own).symm.trans numbered)).more ⟨other, nofun⟩
    · intro i cb moves made
      by_cases own : i = j
      · subst own
        cases (here i _).symm.trans made
      · have other : Event.asker (.number j value) ≠ some i := fun same => own (Option.some.inj same).symm
        exact (sound.inHand i cb moves ((elsewhere _ own).symm.trans made)).more other
  | split j rows =>
    rw [Shared.step]
    cases asked : now.asking j with
    | idle =>
      refine sound.more sound.counted (fun i id value numbered => ⟨numbered, nofun, ?_⟩)
        (fun i cb moves made => ⟨made, nofun⟩) rfl
      rintro ⟨⟩
      rw [asked] at numbered
      cases numbered
    | made cb moves =>
      refine sound.more sound.counted (fun i id value numbered => ⟨numbered, nofun, ?_⟩)
        (fun i cb moves made => ⟨made, nofun⟩) rfl
      rintro ⟨⟩
      rw [asked] at numbered
      cases numbered
    | numbered id value =>
      refine ⟨sound.counted, ?_, ?_, issuedMore⟩
      · intro i id' value' numbered
        by_cases own : i = j
        · subst own
          cases (here i _).symm.trans numbered
        · have other : Event.maker (.split j rows) ≠ some i := fun same => own (Option.some.inj same).symm
          exact (sound.asked i id' value' ((elsewhere _ own).symm.trans numbered)).more ⟨nofun, other⟩
      · intro i cb moves made
        by_cases own : i = j
        · subst own
          obtain ⟨rfl, rfl⟩ := Asking.made.inj ((here i _).symm.trans made)
          subst reached
          exact ⟨history, rows, [], value, rfl, sound.asked i id value asked,
            nofun, sound.counted, allowed, rfl⟩
        · exact (sound.inHand i cb moves ((elsewhere _ own).symm.trans made)).more nofun
  | issue j =>
    rw [Shared.step]
    cases asked : now.asking j with
    | idle =>
      exact sound.more sound.counted (fun i id value numbered => ⟨numbered, nofun, nofun⟩)
        (fun i cb moves made => ⟨made, nofun⟩) rfl
    | numbered id value =>
      exact sound.more sound.counted (fun i id value numbered => ⟨numbered, nofun, nofun⟩)
        (fun i cb moves made => ⟨made, nofun⟩) rfl
    | made cb moves =>
      refine ⟨sound.counted, ?_, ?_, ?_⟩
      · intro i id value numbered
        by_cases own : i = j
        · subst own
          cases (here i _).symm.trans numbered
        · exact (sound.asked i id value ((elsewhere _ own).symm.trans numbered)).more ⟨nofun, nofun⟩
      · intro i cb' moves' made
        by_cases own : i = j
        · subst own
          cases (here i _).symm.trans made
        · exact (sound.inHand i cb' moves' ((elsewhere _ own).symm.trans made)).more nofun
      · intro id cb' moves' held
        change Table.get? (AList.insert cb.id (cb, moves) now.issued) id = _ at held
        rw [Table.get?_insert] at held
        by_cases same : id = cb.id
        · rw [if_pos same] at held
          cases held
          exact ⟨same.symm, j, history, [], rfl, sound.inHand j cb moves asked⟩
        · rw [if_neg same] at held
          exact issuedMore id cb' moves' held
  | share time identity work key windowTarget =>
    exact sound.more ((sound.counted.credit allowed time identity key).trim _)
      (fun i id value numbered => ⟨numbered, nofun, nofun⟩) (fun i cb moves made => ⟨made, nofun⟩) rfl
  | carry identity work =>
    exact sound.more (sound.counted.mergeCarry allowed identity)
      (fun i id value numbered => ⟨numbered, nofun, nofun⟩) (fun i cb moves made => ⟨made, nofun⟩) rfl
  | block isOurs outputs order =>
    rw [Shared.step]
    by_cases split : isOurs = true ∧ 2 ≤ outputs.length
    · rw [if_pos split]
      cases now.matched outputs order with
      | none =>
        exact sound.more sound.counted.clearCarry (fun i id value numbered => ⟨numbered, nofun, nofun⟩)
          (fun i cb moves made => ⟨made, nofun⟩) rfl
      | some moves =>
        exact sound.more (sound.counted.settleBonuses moves).clearCarry
          (fun i id value numbered => ⟨numbered, nofun, nofun⟩) (fun i cb moves made => ⟨made, nofun⟩) rfl
    · rw [if_neg split]
      exact sound.more sound.counted (fun i id value numbered => ⟨numbered, nofun, nofun⟩)
        (fun i cb moves made => ⟨made, nofun⟩) rfl

end Issued

end Lazarus.Prime
