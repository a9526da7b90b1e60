import Lazarus.Primed.Record

/-! Orphaning and settling one block from several tasks at once. Either change is made under the ledger's
lock, but whether the block is an orphan already is looked up before that lock is taken. -/

namespace Lazarus.Tides.BlockKind

/-- How many orphan marks a kind carries. -/
def marks : BlockKind → Nat
  | orphan kind => kind.marks + 1
  | _ => 0

theorem marks_of_not_isOrphan {kind : BlockKind} (plain : kind.isOrphan = false) : kind.marks = 0 := by
  cases kind with
  | orphan inner => cases plain
  | _ => rfl

theorem marks_stripOrphan (kind : BlockKind) : kind.stripOrphan.marks = kind.marks - 1 := by
  cases kind <;> rfl

/-- Taking off the only mark leaves none. -/
theorem isOrphan_stripOrphan {kind : BlockKind} (single : kind.marks ≤ 1) :
    kind.stripOrphan.isOrphan = false := by
  have stripped := marks_stripOrphan kind
  cases shape : kind.stripOrphan with
  | orphan inner =>
    rw [shape, marks] at stripped
    omega
  | _ => rfl

end Lazarus.Tides.BlockKind

namespace Lazarus.Primed

open Tides Last

inductive CallKind where
  | markOrphan
  | settleConfirmed
deriving DecidableEq

def CallKind.update : CallKind → Update
  | markOrphan => .orphan
  | settleConfirmed => .settle

/-- How far a call has come. Only `mark_orphan` has a look before its change. -/
inductive Progress where
  | started
  | looked
  | returned
deriving DecidableEq

structure BlockCall where
  kind : CallKind
  progress : Progress := .started
deriving DecidableEq

structure Tasks (start : Ledger) where
  posted : Posted start
  blocks : List BlockRecord
  calls : List BlockCall

/-- A turn of one call: the look under the blocks' lock, or the change under the ledger's. -/
inductive TaskTurn where
  | look (call : Nat)
  | change (call : Nat)
deriving DecidableEq

namespace Tasks

variable {start : Ledger}

def inMemory (s : Tasks start) (hash : String) : Option BlockRecord :=
  s.blocks.reverse.find? (BlockRecord.isFor hash)

/-- A call changes the record when it has looked, or has no look to make. -/
def enabled (s : Tasks start) : TaskTurn → Bool
  | .look i => s.calls[i]? = some ⟨.markOrphan, .started⟩
  | .change i => s.calls[i]? = some ⟨.markOrphan, .looked⟩ || s.calls[i]? = some ⟨.settleConfirmed, .started⟩

/-- A call has come this far. -/
def reach (s : Tasks start) (i : Nat) (progress : Progress) : List BlockCall :=
  s.calls.modify i fun call => { call with progress }

def take (hash : String) (s : Tasks start) : TaskTurn → Tasks start
  | .look i =>
    let already := (s.inMemory hash).elim true fun r => r.kind.isOrphan
    { s with calls := s.reach i (if already then .returned else .looked) }
  | .change i =>
    match s.calls[i]? with
    | none => s
    | some call =>
      let l := s.posted.ledger
      match mutateBlock s.blocks hash fun r =>
        (call.kind.update.postings l r, (call.kind.update.apply l r).2) with
      | none => { s with calls := s.reach i .returned }
      | some (postings, blocks, _) =>
        { s with posted := s.posted.enter postings, blocks, calls := s.reach i .returned }

/-- Nobody orphaned the block between a call's look and its change. -/
def Unmarked (hash : String) (s : Tasks start) : TaskTurn → Prop
  | .look _ => True
  | .change i => s.calls[i]?.map BlockCall.kind = some .markOrphan →
      (s.inMemory hash).any (fun r => r.kind.isOrphan) = false

end Tasks

section Legacy

/-- What an orphaning does for a record without books. -/
def reversal (r : BlockRecord) : List Posting :=
  [.settleCarry (reversed r.carryDelta), .settleRebate (-r.rebateDelta)]

/-- What the block's return does. -/
def reapplication (r : BlockRecord) : List Posting := [.settleCarry r.carryDelta, .settleRebate r.rebateDelta]

/-- Orphanings and returns in turn, beginning with a return if the block is an orphan now. -/
def inTurn (r : BlockRecord) : Bool → Nat → List Posting
  | _, 0 => []
  | true, n + 1 => reapplication r ++ inTurn r false n
  | false, n + 1 => reversal r ++ inTurn r true n

/-- Whether the block is an orphan after this many of them. -/
def orphanAfter (orphan : Bool) (n : Nat) : Bool := if n % 2 = 0 then orphan else !orphan

private theorem orphanAfter_succ (orphan : Bool) (n : Nat) : orphanAfter orphan
    (n + 1) = !orphanAfter orphan n := by
  unfold orphanAfter
  rcases Nat.mod_two_eq_zero_or_one n with even | odd
  · simp [even, Nat.add_mod]
  · simp [odd, Nat.add_mod]

private theorem inTurn_succ (r : BlockRecord) (orphan : Bool) (n : Nat) :
    inTurn r orphan (n + 1) =
      inTurn r orphan n ++ if orphanAfter orphan n then reapplication r else reversal r := by
  induction n generalizing orphan with
  | zero => cases orphan <;> simp [inTurn, orphanAfter]
  | succ n ih =>
    have flipped : orphanAfter orphan (n + 1) = orphanAfter (!orphan) n := by
      rw [orphanAfter_succ]
      unfold orphanAfter
      split <;> simp
    cases orphan with
    | false => rw [inTurn, ih true, inTurn, List.append_assoc, flipped]; rfl
    | true => rw [inTurn, ih false, inTurn, List.append_assoc, flipped]; rfl

end Legacy

section Marks

private theorem kind_orphan (l : Ledger) (r : BlockRecord) :
    (Update.orphan.apply l r).2.kind = .orphan r.kind := by
  simp only [Update.apply, orphanRecord]
  split
  · rfl
  · split <;> rfl

private theorem kind_settle (l : Ledger) (r : BlockRecord) :
    (Update.settle.apply l r).2.kind = r.kind.stripOrphan := by
  simp only [Update.apply, settleRecord]
  split
  · rfl
  · split <;> rfl

private theorem rebateDelta_apply (l : Ledger) (r : BlockRecord) (u : Update) :
    (u.apply l r).2.rebateDelta = r.rebateDelta := by
  cases u with
  | submitted outcome => rfl
  | settle =>
    simp only [Update.apply, settleRecord]
    split
    · rfl
    · split <;> rfl
  | orphan =>
    simp only [Update.apply, orphanRecord]
    split
    · rfl
    · split <;> rfl

end Marks

namespace Tasks

variable {start : Ledger} {hash : String}

/-- The record carries one mark at most. One without books has had its adjustments reversed and
re-applied in turn, and is an orphan if the last of these was a reversal. -/
structure OnceOnly (hash : String) (first : BlockRecord) (s : Tasks start) : Prop where
  marked : ∃ r, s.inMemory hash = some r ∧ r.kind.marks ≤ 1 ∧ r.books.isNone = first.books.isNone ∧
    r.carryDelta = first.carryDelta ∧ r.rebateDelta = first.rebateDelta ∧
    (first.books = none → ∃ n, s.posted.journal = inTurn first first.kind.isOrphan n ∧
      r.kind.isOrphan = orphanAfter first.kind.isOrphan n)

theorem OnceOnly.look {s : Tasks start} {first : BlockRecord} (once : s.OnceOnly hash first) (i : Nat) :
    (s.take hash (.look i)).OnceOnly hash first := ⟨once.marked⟩

/-- What a change by one call leaves. -/
theorem take_change {s : Tasks start} {call : BlockCall} {r : BlockRecord} (found : s.inMemory hash = some r)
    (at_ : s.calls[i]? = some call) :
    s.take hash (.change i) =
      { s with
        posted := s.posted.enter (call.kind.update.postings s.posted.ledger r)
        blocks := replaceLast (BlockRecord.isFor hash) (call.kind.update.apply s.posted.ledger r).2 s.blocks
        calls := s.reach i .returned } := by
  unfold inMemory at found
  simp [take, at_, mutateBlock, found]

theorem OnceOnly.change {s : Tasks start} {first : BlockRecord} (once : s.OnceOnly hash first) {i : Nat}
    (unmarked : s.Unmarked hash (.change i)) : (s.take hash (.change i)).OnceOnly hash first := by
  cases at_ : s.calls[i]? with
  | none =>
    have same : s.take hash (.change i) = s := by simp [take, at_]
    rw [same]
    exact once
  | some call =>
    obtain ⟨r, found, marks, legacy, delta, rebate, journal⟩ := once.marked
    have own : r.hash = hash := BlockRecord.isFor_iff.mp (List.find?_some found)
    have kept := call.kind.update.apply_record s.posted.ledger r
    rw [take_change found at_]
    refine ⟨⟨(call.kind.update.apply s.posted.ledger r).2, ?_, ?_, ?_, ?_, ?_, ?_⟩⟩
    · exact find?_replaceLast found (by simp [kept.1, own])
    · cases kind : call.kind with
      | markOrphan =>
        have plain : r.kind.isOrphan = false := by simpa [Unmarked, at_, kind, found] using unmarked
        simp only [CallKind.update, kind_orphan, BlockKind.marks, BlockKind.marks_of_not_isOrphan plain]
        exact Nat.le_refl _
      | settleConfirmed =>
        simp only [CallKind.update, kind_settle, BlockKind.marks_stripOrphan]
        omega
    · rw [kept.2.2, Option.isNone_map, legacy]
    · rw [kept.2.1, delta]
    · rw [rebateDelta_apply, rebate]
    · intro unbooked
      obtain ⟨n, posted, orphan⟩ := journal unbooked
      have bare : r.books = none := by simpa [unbooked] using legacy
      cases kind : call.kind with
      | markOrphan =>
        have plain : r.kind.isOrphan = false := by simpa [Unmarked, at_, kind, found] using unmarked
        refine ⟨n + 1, ?_, ?_⟩
        · rw [inTurn_succ, ← orphan, plain]
          simp [Posted.enter, posted, CallKind.update, Update.postings, bare, reversal, delta, rebate]
        · simp only [CallKind.update, kind_orphan, orphanAfter_succ, ← orphan, plain]
          rfl
      | settleConfirmed =>
        have stripped := BlockKind.isOrphan_stripOrphan marks
        cases was : r.kind.isOrphan with
        | false =>
          refine ⟨n, ?_, ?_⟩
          · simp [Posted.enter, posted, CallKind.update, Update.postings, bare, was]
          · simp only [CallKind.update, kind_settle, stripped, ← orphan, was]
        | true =>
          refine ⟨n + 1, ?_, ?_⟩
          · rw [inTurn_succ, ← orphan, was]
            simp [Posted.enter, posted, CallKind.update, Update.postings,
              bare, was, reapplication, delta, rebate]
          · simp only [CallKind.update, kind_settle, stripped, orphanAfter_succ, ← orphan, was]
            rfl

/-- However the calls interleave, if nobody orphans the block between a call's look and its change, its
record never carries two orphan marks, and the adjustments of a record without books are reversed once
by each orphaning. -/
theorem orphaned_once (s : Tasks start) (hash : String) (first : BlockRecord)
    (memory : s.inMemory hash = some first) (single : first.kind.marks ≤ 1)
    (fresh : s.posted.journal = []) (run : List TaskTurn)
    (interleaved : Run.Along (fun s turn => s.enabled turn = true ∧ s.Unmarked hash turn) (take hash) s run) :
    let after := run.foldl (take hash) s
    ∃ r, after.inMemory hash = some r ∧ r.kind.marks ≤ 1 ∧
      (first.books = none → ∃ n, after.posted.journal = inTurn first first.kind.isOrphan n ∧
        r.kind.isOrphan = orphanAfter first.kind.isOrphan n) := by
  intro after
  have start : s.OnceOnly hash first :=
    ⟨⟨first, memory, single, rfl, rfl, rfl, fun _ => ⟨0, fresh, by simp [orphanAfter]⟩⟩⟩
  have once : after.OnceOnly hash first := by
    refine Run.foldl_invariant (OnceOnly hash first) ?_ interleaved start
    intro s turn once allowed
    cases turn with
    | look i => exact once.look i
    | change i => exact once.change allowed.2
  obtain ⟨r, found, marks, _, _, _, journal⟩ := once.marked
  exact ⟨r, found, marks, journal⟩

/-- A record without books whose block paid five sats of carry, as the submission's task and the poller
find it. -/
def refusedAndPolled : Tasks { window := noBalances } where
  posted := .fresh _
  blocks := [{ hash := "h", carryDelta := [("miner", -5)] }]
  calls := [⟨.markOrphan, .started⟩, ⟨.markOrphan, .started⟩, ⟨.settleConfirmed, .started⟩]

theorem orphaned_once_in_turn :
    let run := [TaskTurn.look 0, .change 0, .look 1, .change 2]
    let after := run.foldl (take "h") refusedAndPolled
    (∀ call ∈ after.calls, call.progress = .returned) ∧ ∃ r, after.inMemory "h" = some r ∧
      r.kind.marks ≤ 1 := by
  refine ⟨by decide, ?_⟩
  obtain ⟨r, found, marks, _⟩ := orphaned_once refusedAndPolled "h" _ rfl (by decide) rfl
    [.look 0, .change 0, .look 1, .change 2] (by
      simp only [Run.along_cons, Run.along_nil, Unmarked]
      decide)
  exact ⟨r, found, marks⟩

/-- Both calls look before either changes the record: it is marked twice, and the carry it paid is given
back twice. -/
theorem orphaned_twice :
    let run := [TaskTurn.look 0, .look 1, .change 0, .change 1]
    let after := run.foldl (take "h") refusedAndPolled
    Run.Along (fun s turn => s.enabled turn = true) (take "h") refusedAndPolled run ∧
      (after.inMemory "h").map (fun r => r.kind.text) = some "orphan:orphan:split" ∧
      after.posted.ledger.window.carryOf "miner" = 10 := by
  decide

end Tasks

end Lazarus.Primed
