import Lazarus.Primed.Settle

/-! Crashes and restarts. The window and the block log are two files, written one after the other:
a candidate syncs the window and then appends its record, a settling or an orphaning appends the
record and then syncs the window. A restart reads both back and sets one against the other. -/

namespace Lazarus.Primed

open Tides Last

section Reconcile

/-- The calls `reconcile_debits` makes, record by record. -/
def reconcilePostings (l : Ledger) : List BlockRecord → List Posting
  | [] => []
  | b :: rest =>
    match b.books with
    | none => reconcilePostings l rest
    | some books =>
      if !books.debitsLive || b.hash ∈ l.appliedDebits then reconcilePostings l rest
      else .reapplyDebits b.hash books :: reconcilePostings (l.reapplyDebits b.hash books) rest

/-- The calls a restart makes. -/
def restartPostings (l : Ledger) (blocks : List BlockRecord) : List Posting :=
  if l.debitsTracked then reconcilePostings l blocks else [.adoptLegacyDebits blocks]

/-- The ledger a restart makes of the window it finds. -/
def restarted (l : Ledger) (blocks : List BlockRecord) : Ledger :=
  if l.debitsTracked then l.reconcileDebits blocks else l.adoptLegacyDebits blocks

theorem restart_replays (l : Ledger) (blocks : List BlockRecord) :
    (restartPostings l blocks).foldl Posting.apply l = restarted l blocks := by
  cases tracked : l.debitsTracked with
  | false => simp [restartPostings, restarted, tracked, Posting.apply]
  | true =>
    simp only [restartPostings, restarted, tracked, ↓reduceIte, Ledger.reconcileDebits]
    clear tracked
    induction blocks generalizing l with
    | nil => rfl
    | cons b rest ih =>
      rw [List.foldl_cons, reconcilePostings, Ledger.reconcileDebit]
      cases b.books with
      | none => exact ih l
      | some books =>
        by_cases skipped : (!books.debitsLive || decide (b.hash ∈ l.appliedDebits)) = true
        · simpa only [skipped, ↓reduceIte] using ih l
        · simpa only [skipped, ↓reduceIte, Bool.false_eq_true, List.foldl_cons, Posting.apply] using ih _

/-- A record with live debits that took something off, which the window does not mark as in it. A
restart takes these debits off. -/
def unmarked (l : Ledger) (b : BlockRecord) : Bool :=
  b.books.any fun books => books.debitsLive && takesOff books && decide (b.hash ∉ l.appliedDebits)

private theorem credits_restart (l : Ledger) (blocks : List BlockRecord) (hash : String) :
    ((restartPostings l blocks).map (Posting.credits hash)).sum = 0 := by
  cases tracked : l.debitsTracked with
  | false => simp [restartPostings, tracked, Posting.credits]
  | true =>
    simp only [restartPostings, tracked, ↓reduceIte]
    clear tracked
    induction blocks generalizing l with
    | nil => rfl
    | cons b rest ih =>
      rw [reconcilePostings]
      split
      · exact ih l
      · split
        · exact ih l
        · simpa [Posting.credits] using ih _

private theorem debits_reconcile_absent (l : Ledger) {blocks : List BlockRecord} {hash : String}
    (absent : ∀ b ∈ blocks, b.hash ≠ hash) :
    ((reconcilePostings l blocks).map (Posting.debits hash)).sum = 0 := by
  induction blocks generalizing l with
  | nil => rfl
  | cons b rest ih =>
    have later := fun l => ih l fun other member => absent other (by simp [member])
    rw [reconcilePostings]
    split
    · exact later l
    · split
      · exact later l
      · simpa [Posting.debits, absent b (by simp)] using later _

private theorem debits_reconcile (l : Ledger) {blocks : List BlockRecord}
    (distinct : (blocks.map BlockRecord.hash).Nodup)
    (hash : String) : ((reconcilePostings l blocks).map (Posting.debits hash)).sum =
      ((blocks.find? (BlockRecord.isFor hash)).any (unmarked l)).toInt := by
  induction blocks generalizing l with
  | nil => rfl
  | cons b rest ih =>
    obtain ⟨fresh, distinct⟩ := List.nodup_cons.mp distinct
    by_cases same : b.hash = hash
    · subst same
      have absent : ∀ other ∈ rest, other.hash ≠ b.hash := by
        intro other member equal
        exact fresh (List.mem_map.mpr ⟨other, member, equal⟩)
      have found : (b :: rest).find? (BlockRecord.isFor b.hash) = some b := by simp [BlockRecord.isFor]
      rw [found, reconcilePostings]
      cases booked : b.books with
      | none => simpa [unmarked, booked] using debits_reconcile_absent l absent
      | some books =>
        by_cases skipped : (!books.debitsLive || decide (b.hash ∈ l.appliedDebits)) = true
        · simp only [skipped, ↓reduceIte, debits_reconcile_absent l absent]
          cases live : books.debitsLive with
          | false => simp [unmarked, booked, live]
          | true =>
            have marked : b.hash ∈ l.appliedDebits := by simpa [live] using skipped
            simp [unmarked, booked, marked]
        · obtain ⟨live, missing⟩ : books.debitsLive = true ∧ b.hash ∉ l.appliedDebits := by simpa using skipped
          cases takes : takesOff books with
          | false =>
            simp [live, missing, takes, unmarked, booked, Posting.debits, debits_reconcile_absent _ absent]
          | true =>
            simp [live, missing, takes, unmarked, booked, Posting.debits, debits_reconcile_absent _ absent]
    · have elsewhere : (b :: rest).find? (BlockRecord.isFor hash) = rest.find? (BlockRecord.isFor hash) := by
        simp [BlockRecord.isFor, same]
      rw [elsewhere, reconcilePostings]
      split
      · exact ih l distinct
      · split
        · exact ih l distinct
        · rename_i books _ _
          have later := ih (l.reapplyDebits b.hash books) distinct
          have marks : ∀ other ∈ rest.find? (BlockRecord.isFor hash),
              unmarked (l.reapplyDebits b.hash books) other = unmarked l other := by
            intro other found
            have named : other.hash = hash := BlockRecord.isFor_iff.mp (List.find?_some found)
            have apart : other.hash ≠ b.hash := by
              rw [named]
              exact Ne.symm same
            simp [unmarked, Ledger.reapplyDebits, apart]
          cases found : rest.find? (BlockRecord.isFor hash) with
          | none => simpa [Posting.debits, same, found] using later
          | some other =>
            have equal := marks other found
            simpa [Posting.debits, same, found, equal] using later

end Reconcile

section Node

/-- A running node and its two files. `recording` are candidates booked and not yet appended;
`locked` is a settling or orphaning that has appended its record and holds the ledger until it has
synced it, and `moved` says that it moved debits or credits. -/
structure Node (start : Ledger) where
  posted : Posted start
  window : Posted start
  blocks : List BlockRecord
  log : BlockLog
  recording : List BlockRecord := []
  locked : Bool := false
  moved : Bool := false

/-- The steps of a node between two of its durable writes, and a crash. -/
inductive Event where
  | candidate (c : Candidate)
  | record (i : Nat)
  | update (hash : String) (u : Update)
  | sync
  | crash

variable {start : Ledger}

namespace Node

/-- Start from what the files hold. -/
def restart (window : Posted start) (log : BlockLog) : Node start :=
  let posted := window.enter (restartPostings window.ledger log.readAll)
  { posted, window := posted, blocks := log.readAll, log }

/-- Whether an update moved a block's debits or credits. -/
def moves (r updated : BlockRecord) : Bool :=
  r.debitsLive != updated.debitsLive || r.creditsLive != updated.creditsLive

/-- One step. A step that needs the ledger waits while it is locked. The check that a block is not
yet an orphan is made before the ledger is locked and may be out of date by then, so it is no guard
here. -/
def step (s : Node start) : Event → Node start
  | .candidate c =>
    if c.settles && s.locked then s
    else
      let posted := s.posted.enter c.postings
      { s with
        posted
        window := if c.settles then posted else s.window
        recording := s.recording ++ [(c.book s.posted.ledger).2] }
  | .record i =>
    match s.recording[i]? with
    | none => s
    | some r =>
      { s with
        log := s.log.append r
        blocks := pushBlock s.blocks r
        recording := s.recording.eraseIdx i }
  | .update hash u =>
    if u.needsLedger && s.locked then s
    else
      let l := s.posted.ledger
      match mutateBlock s.blocks hash fun r =>
        ((u.postings l r, moves r (u.apply l r).2), (u.apply l r).2) with
      | none => s
      | some ((postings, moved), blocks, updated) =>
        { s with
          posted := s.posted.enter postings
          blocks
          log := s.log.append updated
          locked := s.locked || u.needsLedger
          moved := s.moved || moved }
  | .sync => { s with window := s.posted, locked := false, moved := false }
  | .crash => restart s.window s.log

/-- A candidate is a block not found before. A crash comes when no candidate's debits are booked
without a record, no settling or orphaning that moved something is between its append and its sync,
and the window marks every block on the log that has debits on it. -/
def Permitted (s : Node start) : Event → Prop
  | .candidate c => s.log.lastLine c.hash = none ∧ ∀ r ∈ s.recording, r.hash ≠ c.hash
  | .crash => (∀ r ∈ s.recording, r.debitsLive = false) ∧ s.moved = false ∧
      ∀ r ∈ s.log.readAll, unmarked s.window.ledger r = false
  | _ => True

instance (s : Node start) : (e : Event) → Decidable (s.Permitted e)
  | .candidate _ => inferInstanceAs (Decidable (_ ∧ _))
  | .crash => inferInstanceAs (Decidable (_ ∧ _ ∧ _))
  | .record _ | .update _ _ | .sync => .isTrue trivial

end Node

/-- Whether a block has its debits on, by the record there is of it. -/
def liveDebits (r : Option BlockRecord) : Int := (r.any BlockRecord.debitsLive).toInt

def liveCredits (r : Option BlockRecord) : Int := (r.any BlockRecord.creditsLive).toInt

/-- The debits of a block that a window on disk holds: those its record says are live, less those the
window is keeping marks and has none for. -/
def heldDebits (disk : Ledger) (log : BlockLog) (hash : String) : Int :=
  ((log.lastLine hash).any fun r => r.debitsLive && !(disk.debitsTracked && unmarked disk r)).toInt

def heldCredits (log : BlockLog) (hash : String) : Int := liveCredits (log.lastLine hash)

/-- The debits of candidates not yet on the log. -/
def recordingDebits (recording : List BlockRecord) (hash : String) : Int :=
  (recording.map fun r => if r.hash = hash then r.debitsLive.toInt else 0).sum

/-- Every block has its debits and credits on the ledger as its last line says, or as the record
says that is about to be its first. -/
structure Node.Agrees (debits credits : String → Int) (s : Node start) : Prop where
  debitsOn : ∀ hash, debits hash + s.posted.debits hash =
    liveDebits (s.log.lastLine hash) + recordingDebits s.recording hash
  creditsOn : ∀ hash, credits hash + s.posted.credits hash = liveCredits (s.log.lastLine hash)
  inMemory : ∀ hash r, s.blocks.reverse.find? (BlockRecord.isFor hash) = some r → s.log.lastLine hash = some r
  unrecorded : ∀ r ∈ s.recording, s.log.lastLine r.hash = none ∧ r.creditsLive = false
  distinct : (s.recording.map BlockRecord.hash).Nodup
  flushed : s.moved = false → ∀ hash, s.window.debits hash = s.posted.debits hash ∧
    s.window.credits hash = s.posted.credits hash
  held : s.moved = true → s.locked = true

namespace Node

variable {debits credits : String → Int}

private theorem unmarked_live {l : Ledger} {r : BlockRecord} (missing : unmarked l r = true) :
    r.debitsLive = true := by
  cases booked : r.books with
  | none => simp [unmarked, booked] at missing
  | some books =>
    simp only [unmarked, booked, Option.any_some, Bool.and_eq_true] at missing
    simp [BlockRecord.debitsLive, booked, missing.1.1]

private theorem debits_restart (l : Ledger) (log : BlockLog) (hash : String) :
    heldDebits l log hash + ((restartPostings l log.readAll).map (Posting.debits hash)).sum =
      liveDebits (log.lastLine hash) := by
  cases tracked : l.debitsTracked with
  | false => simp [restartPostings, heldDebits, liveDebits, tracked, Posting.debits]
  | true =>
    simp only [restartPostings, tracked, ↓reduceIte]
    rw [debits_reconcile l log.nodup_readAll, log.find?_readAll, heldDebits, liveDebits]
    cases log.lastLine hash with
    | none => rfl
    | some r =>
      cases missing : unmarked l r with
      | true => simp [tracked, missing, unmarked_live missing]
      | false => simp [tracked, missing]

/-- A restart makes the ledger agree with the log, if the window holds what its marks say. -/
theorem agrees_restart {window : Posted start} {log : BlockLog}
    (debitsHeld : ∀ hash, debits hash + window.debits hash = heldDebits window.ledger log hash)
    (creditsHeld : ∀ hash, credits hash + window.credits hash = heldCredits log hash) :
    (restart window log).Agrees debits credits where
  debitsOn hash := by
    have before := debitsHeld hash
    have after := debits_restart window.ledger log hash
    simp only [restart, Posted.debits_enter, recordingDebits, List.map_nil, List.sum_nil]
    omega
  creditsOn hash := by
    have before := creditsHeld hash
    have none := credits_restart window.ledger log.readAll hash
    simp only [restart, Posted.credits_enter, none]
    exact (add_assoc _ _ _).symm.trans (by rw [before, add_zero]; rfl)
  inMemory hash r found := by
    have member : r ∈ log.readAll := List.mem_reverse.mp (List.mem_of_find?_eq_some found)
    have named : r.hash = hash := BlockRecord.isFor_iff.mp (List.find?_some found)
    rw [← named]
    exact log.lastLine_of_mem_readAll member
  unrecorded r member := by simp [restart] at member
  distinct := by simp [restart]
  flushed _ _ := ⟨rfl, rfl⟩
  held moved := by simp [restart] at moved

theorem Agrees.candidate {s : Node start} (agrees : s.Agrees debits credits) {c : Candidate}
    (fresh : s.Permitted (.candidate c)) : (s.step (.candidate c)).Agrees debits credits := by
  obtain ⟨unlogged, unseen⟩ := fresh
  obtain ⟨named, live, uncredited⟩ := c.book_record s.posted.ledger
  simp only [step]
  split
  · exact agrees
  · rename_i free
    refine ⟨?_, ?_, agrees.inMemory, ?_, ?_, ?_, agrees.held⟩
    · intro hash
      have before := agrees.debitsOn hash
      simp only [Posted.debits_enter, c.debits_postings, recordingDebits, List.map_append, List.sum_append,
        List.map_cons, List.map_nil, List.sum_cons, List.sum_nil, named, live] at before ⊢
      omega
    · intro hash
      simpa [c.credits_postings] using agrees.creditsOn hash
    · intro r member
      rcases List.mem_append.mp member with earlier | new
      · exact agrees.unrecorded r earlier
      · rw [List.mem_singleton.mp new, named]
        exact ⟨unlogged, uncredited⟩
    · rw [List.map_append, List.map_cons, List.map_nil, named]
      refine List.Nodup.append agrees.distinct (by simp) ?_
      intro hash member single
      obtain ⟨r, present, rfl⟩ := List.mem_map.mp member
      exact unseen r present (by simpa using single)
    · intro unmoved hash
      cases moves : c.settles with
      | true => simp
      | false =>
        have empty : c.postings = [] := by simp [Candidate.postings, moves]
        simpa [empty] using agrees.flushed unmoved hash

section Mirrored

variable {blocks : List BlockRecord} {log : BlockLog} {r updated : BlockRecord} {hash : String}

/-- Memory that is mirrored by the log stays so when a record joins both. -/
private theorem mirrored_push
    (mirrored : ∀ hash line, blocks.reverse.find? (BlockRecord.isFor hash) = some line →
      log.lastLine hash = some line)
    (r : BlockRecord) (hash : String) (line : BlockRecord)
    (found : (pushBlock blocks r).reverse.find? (BlockRecord.isFor hash) = some line) :
    (log.append r).lastLine hash = some line := by
  have whole := find?_pushBlock found
  rw [List.reverse_append, List.reverse_cons, List.reverse_nil, List.nil_append, List.singleton_append,
    List.find?_cons] at whole
  rw [BlockLog.lastLine_append]
  cases own : BlockRecord.isFor hash r with
  | true =>
    rw [own] at whole
    rw [if_pos (BlockRecord.isFor_iff.mp own)]
    exact whole
  | false =>
    rw [own] at whole
    rw [if_neg (BlockRecord.isFor_eq_false.mp own)]
    exact mirrored hash line whole

/-- And when a record is replaced in the one and appended to the other. -/
private theorem mirrored_update
    (mirrored : ∀ hash line, blocks.reverse.find? (BlockRecord.isFor hash) = some line →
      log.lastLine hash = some line)
    (found : blocks.reverse.find? (BlockRecord.isFor hash) = some r) (named : updated.hash = hash)
    (other : String)
    (line : BlockRecord)
    (located : (replaceLast (BlockRecord.isFor hash) updated blocks).reverse.find? (BlockRecord.isFor other) =
      some line) : (log.append updated).lastLine other = some line := by
  have own : r.hash = hash := BlockRecord.isFor_iff.mp (List.find?_some found)
  rw [BlockLog.lastLine_append, named]
  by_cases same : hash = other
  · subst same
    rw [if_pos rfl, ← located]
    exact (find?_replaceLast found (by simp [named])).symm
  · rw [if_neg same]
    refine mirrored other line ?_
    rw [← located]
    exact (find?_replaceLast_other found (by simp [own, same]) (by simp [named, same])).symm

end Mirrored

private theorem recordingDebits_eraseIdx {recording : List BlockRecord} (found : recording[i]? = some r)
    (hash : String) : recordingDebits recording hash =
      (if r.hash = hash then r.debitsLive.toInt else 0) + recordingDebits (recording.eraseIdx i) hash := by
  obtain ⟨bound, rfl⟩ := List.getElem?_eq_some_iff.mp found
  have split := (List.getElem_cons_eraseIdx_perm bound).map
    fun r : BlockRecord => if r.hash = hash then r.debitsLive.toInt else 0
  rw [recordingDebits, ← split.sum_eq, List.map_cons, List.sum_cons]
  rfl

theorem Agrees.record {s : Node start} (agrees : s.Agrees debits credits) (i : Nat) :
    (s.step (.record i)).Agrees debits credits := by
  simp only [step]
  split
  · exact agrees
  · rename_i r found
    have member : r ∈ s.recording := List.mem_of_getElem? found
    obtain ⟨unlogged, uncredited⟩ := agrees.unrecorded r member
    obtain ⟨bound, same⟩ := List.getElem?_eq_some_iff.mp found
    have shape : (r :: s.recording.eraseIdx i).Perm s.recording := same ▸ List.getElem_cons_eraseIdx_perm bound
    have distinct := (shape.map BlockRecord.hash).nodup_iff.mpr agrees.distinct
    obtain ⟨apart, rest⟩ := List.nodup_cons.mp distinct
    refine ⟨?_, ?_, ?_, ?_, rest, agrees.flushed, agrees.held⟩
    · intro hash
      have before := agrees.debitsOn hash
      rw [recordingDebits_eraseIdx found] at before
      simp only [BlockLog.lastLine_append]
      by_cases own : r.hash = hash
      · subst own
        rw [unlogged] at before
        simpa [liveDebits] using before
      · simpa [own] using before
    · intro hash
      have before := agrees.creditsOn hash
      simp only [BlockLog.lastLine_append]
      by_cases own : r.hash = hash
      · subst own
        rw [unlogged] at before
        simpa [liveCredits, uncredited] using before
      · simpa [own] using before
    · intro hash line found
      simp only at found ⊢
      exact mirrored_push agrees.inMemory r hash line found
    · intro other member
      have kept := agrees.unrecorded other (shape.subset (List.mem_cons_of_mem r member))
      have different : r.hash ≠ other.hash := fun same => apart (List.mem_map.mpr ⟨other, member, same.symm⟩)
      simpa [different] using kept

private theorem moves_eq_false {r updated : BlockRecord} (still : moves r updated = false) :
    updated.debitsLive = r.debitsLive ∧ updated.creditsLive = r.creditsLive := by
  simp only [moves, Bool.or_eq_false_iff, bne_eq_false_iff_eq] at still
  exact ⟨still.1.symm, still.2.symm⟩

private theorem moves_submitted (l : Ledger) (r : BlockRecord) (outcome : String) :
    moves r ((Update.submitted outcome).apply l r).2 = false := by
  simp [moves, Update.apply, BlockRecord.debitsLive, BlockRecord.creditsLive]

theorem Agrees.update {s : Node start} (agrees : s.Agrees debits credits) (hash : String) (u : Update) :
    (s.step (.update hash u)).Agrees debits credits := by
  cases found : s.blocks.reverse.find? (BlockRecord.isFor hash) with
  | none =>
    have same : s.step (.update hash u) = s := by
      simp only [step, mutateBlock, found, Option.map_none]
      split <;> rfl
    rw [same]
    exact agrees
  | some r =>
    simp only [step, mutateBlock, found, Option.map_some]
    split
    · exact agrees
    · rename_i free
      have own : r.hash = hash := BlockRecord.isFor_iff.mp (List.find?_some found)
      have last := agrees.inMemory hash r found
      obtain ⟨kept, _, _⟩ := u.apply_record s.posted.ledger r
      have named : (u.apply s.posted.ledger r).2.hash = hash := kept.trans own
      have debitsMoved := u.debits_postings s.posted.ledger r
      have creditsMoved := u.credits_postings s.posted.ledger r
      refine ⟨?_, ?_, ?_, ?_, agrees.distinct, ?_, ?_⟩
      · intro other
        have before := agrees.debitsOn other
        simp only [Posted.debits_enter, debitsMoved, BlockLog.lastLine_append, named, own]
        by_cases same : hash = other
        · subst same
          simp only [last, liveDebits, Option.any_some, ↓reduceIte] at before ⊢
          omega
        · simpa [same] using before
      · intro other
        have before := agrees.creditsOn other
        simp only [Posted.credits_enter, creditsMoved, BlockLog.lastLine_append, named, own]
        by_cases same : hash = other
        · subst same
          simp only [last, liveCredits, Option.any_some, ↓reduceIte] at before ⊢
          omega
        · simpa [same] using before
      · exact mirrored_update agrees.inMemory found named
      · intro waiting member
        have before := agrees.unrecorded waiting member
        have different : hash ≠ waiting.hash := by
          rintro rfl
          rw [last] at before
          simp at before
        simpa [named, different] using before
      · intro still other
        obtain ⟨earlier, now⟩ := Bool.or_eq_false_iff.mp still
        obtain ⟨sameDebits, sameCredits⟩ := moves_eq_false now
        simpa [debitsMoved, creditsMoved, sameDebits, sameCredits] using agrees.flushed earlier other
      · intro moved
        -- only a settling or an orphaning can have moved anything, and both lock the ledger
        cases u with
        | submitted outcome =>
          rw [moves_submitted, Bool.or_false] at moved
          simp [agrees.held moved]
        | settle => simp [Update.needsLedger]
        | orphan => simp [Update.needsLedger]

theorem Agrees.sync {s : Node start} (agrees : s.Agrees debits credits) :
    (s.step .sync).Agrees debits credits :=
  ⟨agrees.debitsOn, agrees.creditsOn, agrees.inMemory, agrees.unrecorded, agrees.distinct,
    fun _ _ => ⟨rfl, rfl⟩, fun moved => by cases moved⟩

theorem Agrees.crash {s : Node start} (agrees : s.Agrees debits credits) (permitted : s.Permitted .crash) :
    (s.step .crash).Agrees debits credits := by
  obtain ⟨unbooked, unmoved, marked⟩ := permitted
  have recorded : ∀ hash, recordingDebits s.recording hash = 0 := by
    intro hash
    apply List.sum_eq_zero
    intro term member
    obtain ⟨r, present, rfl⟩ := List.mem_map.mp member
    simp [unbooked r present]
  apply agrees_restart
  · intro hash
    have before := agrees.debitsOn hash
    rw [recorded, add_zero, ← (agrees.flushed unmoved hash).1] at before
    rw [before, heldDebits, liveDebits]
    cases last : s.log.lastLine hash with
    | none => rfl
    | some r => simp [marked r (BlockLog.mem_readAll_of_lastLine last).1]
  · intro hash
    have before := agrees.creditsOn hash
    rw [← (agrees.flushed unmoved hash).2] at before
    exact before

theorem Agrees.step (s : Node start) (e : Event) (agrees : s.Agrees debits credits)
    (permitted : s.Permitted e) : (s.step e).Agrees debits credits := by
  cases e with
  | candidate c => exact agrees.candidate permitted
  | record i => exact agrees.record i
  | update hash u => exact agrees.update hash u
  | sync => exact agrees.sync
  | crash => exact agrees.crash permitted

/-- A node started on the files it finds. -/
def boot (disk : Ledger) (log : BlockLog) : Node disk := restart (.fresh disk) log

/-- The record a node has of a block. -/
def record? (s : Node start) (hash : String) : Option BlockRecord :=
  s.blocks.reverse.find? (BlockRecord.isFor hash)

/-- However a node is started, run, crashed and restarted, as long as every crash is permitted: after
a crash and restart the reloaded window has each block's debits on it once if the reloaded record
says so and not at all if it does not, and the same for its credits. -/
theorem reload_agrees (disk : Ledger) (log : BlockLog) (run : List Event)
    (permitted : Run.Along Permitted Node.step (boot disk log) (run ++ [Event.crash])) (hash : String) :
    let reloaded := (run ++ [Event.crash]).foldl Node.step (boot disk log)
    heldDebits disk log hash + reloaded.posted.debits hash = liveDebits (reloaded.record? hash) ∧
      heldCredits log hash + reloaded.posted.credits hash = liveCredits (reloaded.record? hash) := by
  intro reloaded
  have start : (boot disk log).Agrees (heldDebits disk log) (heldCredits log) :=
    agrees_restart (fun hash => by rw [Posted.debits_fresh, add_zero]; rfl)
      (fun hash => by rw [Posted.credits_fresh, add_zero])
  have agrees : reloaded.Agrees (heldDebits disk log) (heldCredits log) :=
    Run.foldl_invariant _ Agrees.step permitted start
  have restarted : reloaded = restart (run.foldl Node.step (boot disk log)).window
      (run.foldl Node.step (boot disk log)).log := by
    simp [reloaded, Node.step]
  have empty : reloaded.recording = [] := by rw [restarted]; rfl
  have same : reloaded.record? hash = reloaded.log.lastLine hash := by
    cases found : reloaded.record? hash with
    | some r => exact (agrees.inMemory hash r found).symm
    | none =>
      cases last : reloaded.log.lastLine hash with
      | none => rfl
      | some r =>
        rw [restarted] at last found
        obtain ⟨member, named⟩ := BlockLog.mem_readAll_of_lastLine last
        have absent := List.find?_eq_none.mp found r (List.mem_reverse.mpr member)
        simp [named] at absent
  have debitsOn := agrees.debitsOn hash
  rw [empty] at debitsOn
  rw [same]
  exact ⟨by simpa [recordingDebits] using debitsOn, agrees.creditsOn hash⟩

/-- A block that leaves a miner five sats short of an output. -/
def shortByFive : Candidate where
  hash := "h"
  coinbaseKind := .split
  coinbaseValue := 100
  coinbase := { outputs := [⟨100, [0x51]⟩] }
  issued := some
    { value := 100, unpaid := [{ identity := "miner", sats := 5, earned := 5, reason := .belowMinimum }] }

/-- Found, settled, orphaned and settled again, with a crash after each sync. -/
theorem reload_agrees_reorg :
    let run :=
      [Event.candidate shortByFive, .record 0, .update "h" .settle, .sync,
        .crash, .update "h" .orphan, .sync, .crash, .update "h" .settle, .sync]
    let reloaded := (run ++ [Event.crash]).foldl Node.step (boot {} [])
    (heldDebits {} [] "h" + reloaded.posted.debits "h" = liveDebits (reloaded.record? "h") ∧
      heldCredits [] "h" + reloaded.posted.credits "h" = liveCredits (reloaded.record? "h")) ∧
      liveDebits (reloaded.record? "h") = 1 ∧ liveCredits (reloaded.record? "h") = 1 ∧
      reloaded.posted.ledger.window.carryOf "miner" = 5 := by
  intro run reloaded
  exact ⟨reload_agrees {} [] run (by decide) "h", by decide⟩

/-- A crash between the append and the sync of a settling: the reloaded record has its credits live,
and the reloaded window does not have the miner's five sats. -/
theorem credit_lost_in_crash :
    let run := [Event.candidate shortByFive, .record 0, .update "h" .settle, .crash]
    let reloaded := run.foldl Node.step (boot {} [])
    (reloaded.record? "h").map BlockRecord.creditsLive = some true ∧
      heldCredits [] "h" + reloaded.posted.credits "h" = 0 ∧
      reloaded.posted.ledger.window.carryOf "miner" = 0 := by
  decide

end Node

end Node

end Lazarus.Primed
