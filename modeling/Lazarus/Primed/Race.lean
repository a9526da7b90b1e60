import Lazarus.Primed.Record

/-! Concurrent updates of one block's record. A call changes the record in memory under one lock and
appends its copy to the log after letting go of it, so the log may take the copies in another order
than memory took the changes. -/

namespace Lazarus.Primed

open Tides Last

/-- How far a call of `update_block` has come. It returns the record as it left it, if there was
one. -/
inductive Phase where
  | waiting
  | writing (updated : BlockRecord)
  | returned (updated : Option BlockRecord)
deriving DecidableEq

structure UpdateCall where
  update : Update
  phase : Phase := .waiting
deriving DecidableEq

def UpdateCall.holdsLedger (call : UpdateCall) : Bool :=
  match call.phase with
  | .writing _ => call.update.needsLedger
  | _ => false

/-- The record a call has left, once it has changed it. -/
def UpdateCall.updated (call : UpdateCall) : Option BlockRecord :=
  match call.phase with
  | .waiting => none
  | .writing updated => some updated
  | .returned updated => updated

structure Race (start : Ledger) where
  posted : Posted start
  blocks : List BlockRecord
  log : BlockLog
  calls : List UpdateCall

inductive Turn where
  | mutate (call : Nat)
  | append (call : Nat)
deriving DecidableEq

namespace Race

variable {start : Ledger}

/-- A call may change the record if it has not, and may append its copy if it has not; one that
needs the ledger waits for whoever holds it. -/
def enabled (s : Race start) : Turn → Bool
  | .mutate i =>
    match s.calls[i]? with
    | some ⟨update, .waiting⟩ => !(update.needsLedger && s.calls.any UpdateCall.holdsLedger)
    | _ => false
  | .append i =>
    match s.calls[i]? with
    | some ⟨_, .writing _⟩ => true
    | _ => false

/-- One half of one call on the block with this hash. -/
def take (hash : String) (s : Race start) : Turn → Race start
  | .mutate i =>
    match s.calls[i]? with
    | some ⟨update, .waiting⟩ =>
      let l := s.posted.ledger
      match mutateBlock s.blocks hash fun r => (update.postings l r, (update.apply l r).2) with
      | none => { s with calls := s.calls.set i ⟨update, .returned none⟩ }
      | some (postings, blocks, updated) =>
        { s with
          posted := s.posted.enter postings
          blocks
          calls := s.calls.set i ⟨update, .writing updated⟩ }
    | _ => s
  | .append i =>
    match s.calls[i]? with
    | some ⟨update, .writing updated⟩ =>
      { s with log := s.log.append updated, calls := s.calls.set i ⟨update, .returned (some updated)⟩ }
    | _ => s

/-- The record in memory. -/
def inMemory (s : Race start) (hash : String) : Option BlockRecord :=
  s.blocks.reverse.find? (BlockRecord.isFor hash)

/-- The record a restart finds. -/
def reloaded (s : Race start) (hash : String) : Option BlockRecord :=
  s.log.readAll.find? (BlockRecord.isFor hash)

/-- What a call has left of the record. -/
def copyOf (s : Race start) (i : Nat) : Option BlockRecord := s.calls[i]?.bind UpdateCall.updated

end Race

/-- The call that changed the record last. -/
def lastToMutate (run : List Turn) : Option Nat :=
  run.reverse.findSome? fun
    | .mutate i => some i
    | .append _ => none

/-- The call that appended its copy last. -/
def lastToAppend (run : List Turn) : Option Nat :=
  run.reverse.findSome? fun
    | .mutate _ => none
    | .append i => some i

namespace Race

variable {start : Ledger} {hash : String}

/-- Memory holds the copy of whoever changed it last and the log ends in the copy of whoever
appended last, and the block's credits are on the ledger as memory says. Before any call, both hold
the record there was. -/
structure Traced (hash : String) (first : BlockRecord) (mutated appended : Option Nat)
    (s : Race start) : Prop where
  memory : ∃ r, s.inMemory hash = some r ∧ mutated.elim (some first) s.copyOf = some r ∧
    s.posted.credits hash = r.creditsLive.toInt
  last : ∃ r, s.log.lastLine hash = some r ∧ appended.elim (some first) s.copyOf = some r
  named : ∀ i r, s.copyOf i = some r → r.hash = hash

private theorem copyOf_set {s : Race start} {call call' : UpdateCall} (found : s.calls[i]? = some call)
    (s' : Race start) (set : s'.calls = s.calls.set i call') (j : Nat) :
    s'.copyOf j = if j = i then call'.updated else s.copyOf j := by
  have bound : i < s.calls.length := (List.getElem?_eq_some_iff.mp found).1
  by_cases same : j = i
  · subst same
    simp [copyOf, set, bound]
  · simp [copyOf, set, same, Ne.symm same]

theorem Traced.mutate {s : Race start} {first : BlockRecord} {mutated appended : Option Nat}
    (traced : s.Traced hash first mutated appended) (may : s.enabled (.mutate i) = true) :
    (s.take hash (.mutate i)).Traced hash first (some i) appended := by
  obtain ⟨r, found, _, booked⟩ := traced.memory
  obtain ⟨update, waiting⟩ : ∃ update, s.calls[i]? = some ⟨update, .waiting⟩ := by
    simp only [enabled] at may
    split at may
    · exact ⟨_, ‹_›⟩
    · cases may
  have own : r.hash = hash := BlockRecord.isFor_iff.mp (List.find?_some found)
  obtain ⟨kept, _, _⟩ := update.apply_record s.posted.ledger r
  have result : s.take hash (.mutate i) =
      { s with
        posted := s.posted.enter (update.postings s.posted.ledger r)
        blocks := replaceLast (BlockRecord.isFor hash) (update.apply s.posted.ledger r).2 s.blocks
        calls := s.calls.set i ⟨update, .writing (update.apply s.posted.ledger r).2⟩ } := by
    unfold inMemory at found
    simp [take, waiting, mutateBlock, found]
  have copies := copyOf_set waiting (s.take hash (.mutate i)) (by rw [result])
  have before : s.copyOf i = none := by simp [copyOf, waiting, UpdateCall.updated]
  refine ⟨⟨(update.apply s.posted.ledger r).2, ?_, ?_, ?_⟩, ?_, ?_⟩
  · rw [result]
    exact find?_replaceLast found (by simp [kept, own])
  · simp [copies, UpdateCall.updated]
  · rw [result, Posted.credits_enter, update.credits_postings, if_pos own, booked]
    omega
  · obtain ⟨line, last, copy⟩ := traced.last
    refine ⟨line, by rw [result]; exact last, ?_⟩
    cases appended with
    | none => exact copy
    | some j =>
      have other : j ≠ i := by
        rintro rfl
        simp [before] at copy
      simpa [copies, other] using copy
  · intro j line copy
    rw [copies] at copy
    split at copy
    · cases copy
      exact kept.trans own
    · exact traced.named j line copy

theorem Traced.append {s : Race start} {first : BlockRecord} {mutated appended : Option Nat}
    (traced : s.Traced hash first mutated appended) (may : s.enabled (.append i) = true) :
    (s.take hash (.append i)).Traced hash first mutated (some i) := by
  obtain ⟨update, updated, writing⟩ : ∃ update updated, s.calls[i]? = some ⟨update, .writing updated⟩ := by
    simp only [enabled] at may
    split at may
    · exact ⟨_, _, ‹_›⟩
    · cases may
  have result : s.take hash (.append i) =
      { s with log := s.log.append updated, calls := s.calls.set i ⟨update, .returned (some updated)⟩ } := by
    simp [take, writing]
  have before : s.copyOf i = some updated := by simp [copyOf, writing, UpdateCall.updated]
  have copies : (s.take hash (.append i)).copyOf = s.copyOf := by
    funext j
    rw [copyOf_set writing (s.take hash (.append i)) (by rw [result])]
    split
    · rename_i same
      rw [same, before]
      rfl
    · rfl
  have own := traced.named i updated before
  refine ⟨?_, ⟨updated, ?_, ?_⟩, ?_⟩
  · rw [copies, result]
    exact traced.memory
  · rw [result]
    simp [own]
  · simp [copies, before]
  · rw [copies]
    exact traced.named

theorem traced_run {s : Race start} {first : BlockRecord} (traced : s.Traced hash first none none)
    (run : List Turn) (interleaved : Run.Along (fun s turn => s.enabled turn = true) (take hash) s run) :
    (run.foldl (take hash) s).Traced hash first (lastToMutate run) (lastToAppend run) := by
  induction run using List.reverseRecOn with
  | nil => exact traced
  | append_singleton run turn ih =>
    obtain ⟨earlier, may, _⟩ := Run.along_append.mp interleaved
    have before := ih earlier
    rw [List.foldl_append, List.foldl_cons, List.foldl_nil]
    cases turn with
    | mutate i => simpa [lastToMutate, lastToAppend] using before.mutate may
    | append i => simpa [lastToMutate, lastToAppend] using before.append may

/-- Whatever order the calls run in, if the one that changed the record last is also the last to
append its copy, a restart finds the record that memory has, and it says of the block's credits what
the ledger has of them. -/
theorem last_line_is_memory (s : Race start) (hash : String) (first : BlockRecord)
    (memory : s.inMemory hash = some first) (written : s.log.lastLine hash = some first)
    (booked : s.posted.credits hash = first.creditsLive.toInt)
    (waiting : ∀ call ∈ s.calls, call.phase = .waiting) (run : List Turn)
    (interleaved : Run.Along (fun s turn => s.enabled turn = true) (take hash) s run)
    (order : lastToAppend run = lastToMutate run) :
    let after := run.foldl (take hash) s
    ∃ r, after.inMemory hash = some r ∧ after.reloaded hash = some r ∧
      after.posted.credits hash = r.creditsLive.toInt := by
  intro after
  have silent : ∀ i, s.copyOf i = none := by
    intro i
    cases found : s.calls[i]? with
    | none => simp [copyOf, found]
    | some call =>
      have phase := waiting call (List.mem_of_getElem? found)
      simp [copyOf, found, UpdateCall.updated, phase]
  have traced : s.Traced hash first none none :=
    ⟨⟨first, memory, rfl, booked⟩, ⟨first, written, rfl⟩, by simp [silent]⟩
  obtain ⟨⟨r, found, changed, credits⟩, ⟨line, last, copied⟩, _⟩ := traced_run traced run interleaved
  rw [order] at copied
  have same : line = r := Option.some.inj (copied.symm.trans changed)
  refine ⟨r, found, ?_, credits⟩
  rw [reloaded, BlockLog.find?_readAll, ← same]
  exact last

/-- A candidate with five sats to credit, its debits booked, as the submission's task and the poller
find it. -/
def submittedAndConfirmed : Race {} where
  posted := .fresh {}
  blocks := [{ hash := "h", carryDelta := [("miner", 5)], books := some { debitsLive := true } }]
  log := [some { hash := "h", carryDelta := [("miner", 5)], books := some { debitsLive := true } }]
  calls := [⟨.submitted "accepted", .waiting⟩, ⟨.settle, .waiting⟩]

theorem last_line_is_memory_in_turn :
    let run := [Turn.mutate 0, .mutate 1, .append 0, .append 1]
    let after := run.foldl (take "h") submittedAndConfirmed
    (∀ call ∈ after.calls, call.phase ≠ .waiting) ∧
      ∃ r, after.inMemory "h" = some r ∧ after.reloaded "h" = some r ∧
        after.posted.credits "h" = r.creditsLive.toInt := by
  refine ⟨by decide, ?_⟩
  exact last_line_is_memory submittedAndConfirmed "h" _ rfl rfl rfl (by decide) _ (by decide) (by decide)

/-- The poller settles the block between the two halves of the submission's update: the credit is on
the ledger, and a restart finds a record that says it is not. -/
theorem stale_last_line :
    let run := [Turn.mutate 0, .mutate 1, .append 1, .append 0]
    let after := run.foldl (take "h") submittedAndConfirmed
    Run.Along (fun s turn => s.enabled turn = true) (take "h") submittedAndConfirmed run ∧
      after.calls.all (fun call => match call.phase with
        | .returned _ => true
        | _ => false) = true ∧
      after.inMemory "h" ≠ after.reloaded "h" ∧ after.posted.credits "h" = 1 ∧
      after.posted.ledger.window.carryOf "miner" = 5 ∧
      (after.reloaded "h").map BlockRecord.creditsLive = some false := by
  decide

end Race

end Lazarus.Primed
