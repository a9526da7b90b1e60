import Lazarus.Primed.Outcome

/-! The payouts directory and the poll that works it off: list the requests, and for each read it, apply it with
the ledger on disk, write the answer, append to the log, remove the file. Requests are renamed into place
and Prime crashes between any two of these. -/

namespace Lazarus.Primed

open Tides

/-- How far the poll is. A request is named by the how manieth it is of all that were written; `rest` is what
remains of the listing. -/
inductive Stage where
  | idle
  | listed (rest : List String)
  | read (id : String) (number : Nat) (seen : Option Hold) (rest : List String)
  | applied (id : String) (number : Nat) (reply : Reply) (rest : List String)
  | answered (id : String) (number : Nat) (reply : Reply) (rest : List String)
  | logged (id : String) (number : Nat) (rest : List String)

namespace Stage

/-- The request that has been read and not dealt with. -/
def unsettled : Stage → Option (String × Nat)
  | .read id number _ _ => some (id, number)
  | .applied id number reply _ => if reply.retry then some (id, number) else none
  | _ => none

/-- The request that has been dealt with and not removed. -/
def settled : Stage → Option (String × Nat)
  | .applied id number reply _ => if reply.retry then none else some (id, number)
  | .answered id number _ _ => some (id, number)
  | .logged id number _ => some (id, number)
  | _ => none

end Stage

/-- A change of the ledger: a found block, anything else that leaves the holds alone, or a
request that moved it. -/
inductive Change where
  | book (carryDelta : List (String × Int)) (books : Books)
  | other (l : Ledger)
  | asked (o : Outcome)

/-- The request a change is for. -/
def Change.mover : Change → Option Nat
  | .asked o => some o.number
  | _ => none

/-- The ledger that changes make of the one at the start, the last one first. A request is entered where the
ledger is the one it found. -/
inductive Replay (start : Ledger) : List Change → Ledger → Prop where
  | start : Replay start [] start
  | book {changes : List Change} {l : Ledger} (carryDelta : List (String × Int)) (books : Books)
      (before : Replay start changes l) :
      Replay start (.book carryDelta books :: changes) (l.bookDebits carryDelta books).1
  | other {changes : List Change} {l : Ledger} (l' : Ledger) (before : Replay start changes l) :
      Replay start (.other l' :: changes) { l' with window := { l'.window with holds := l.window.holds } }
  | asked {changes : List Change} (o : Outcome) (before : Replay start changes o.before) :
      Replay start (.asked o :: changes) o.after

/-- The directory, Prime and its ledger on disk. `requests` is every request ever renamed into place, and
`files` the one that is there now for an id. `journal` and `diskJournal` are the changes that made the two
ledgers, the last one first, `outcomes` is what became of the requests that were dealt with, and `replaced` the
requests that were replaced before they were read. -/
structure Directory where
  ledger : Ledger := {}
  disk : Ledger := {}
  requests : List (String × RequestFile) := []
  files : AList (fun _ : String => Nat) := ∅
  answers : AList (fun _ : String => Reply) := ∅
  log : List (String × Reply) := []
  waiting : AList (fun _ : String => Nat) := ∅
  stage : Stage := .idle
  journal : List Change := []
  diskJournal : List Change := []
  outcomes : List Outcome := []
  replaced : List Nat := []

/-- One step of a writer, of the ledger at large, or of the poll; or Prime dies and is started again. -/
inductive DirectoryOp where
  | write (id : String) (file : RequestFile)
  | book (carryDelta : List (String × Int)) (books : Books)
  | other (l : Ledger)
  | persist
  | list
  | read (elapsed : Bool)
  | apply (payer : Payer) (ts : Nat) (tip : Option Nat)
  | reply
  | log
  | remove
  | crash

namespace Directory

/-- The requests that were dealt with. -/
def handled (s : Directory) : List Nat := s.outcomes.map Outcome.number

/-- The requests that moved the ledger, each as often as it did. -/
def moves (s : Directory) : List Nat := s.journal.filterMap Change.mover

/-- The request of a number, if Prime can read it as one. -/
def requestOf (s : Directory) (number : Nat) : Option Request :=
  s.requests[number]?.bind fun sent => (readRequest sent.1 sent.2).toOption

/-- The last answer is moved aside, and the request renamed over any that is there. -/
def write (s : Directory) (id : String) (file : RequestFile) : Directory :=
  { s with
    requests := s.requests ++ [(id, file)]
    files := s.files.insert id s.requests.length
    answers := s.answers.erase id
    replaced :=
      match s.files.lookup id with
      | none => s.replaced
      | some old =>
        if s.stage.unsettled = some (id, old) ∨ s.stage.settled = some (id, old) then
          s.replaced else old :: s.replaced }

/-- Handle the request and have the ledger on disk if it moved. The flush that a hold makes when it moved
nothing is a `persist` of its own. -/
def apply (s : Directory) (id : String) (number : Nat) (seen : Option Hold) (rest : List String) (payer : Payer)
    (ts : Nat) (tip : Option Nat) : Directory :=
  match s.requests[number]? with
  | none => s
  | some sent =>
    match readRequest id sent.2 with
    | .error e =>
      let o : Outcome :=
        { id, number, payer, ts, tip, seen, before := s.ledger, after := s.ledger, reply := .refused e }
      { s with stage := .applied id number (.refused e) rest, outcomes := o :: s.outcomes }
    | .ok req =>
      let answer := handle payer ts tip seen s.ledger id req
      let o : Outcome :=
        { id, number, payer, ts, tip, seen, before := s.ledger, after := answer.1, reply := answer.2 }
      { s with
        ledger := answer.1
        disk := if answer.2.moved then answer.1 else s.disk
        stage := .applied id number answer.2 rest
        journal := if answer.2.moved then .asked o :: s.journal else s.journal
        diskJournal := if answer.2.moved then .asked o :: s.journal else s.diskJournal
        outcomes := if answer.2.retry then s.outcomes else o :: s.outcomes }

/-- Answer. A payment the node does not show yet is left where it is, to be looked at again. -/
def answer (s : Directory) (id : String) (number : Nat) (reply : Reply) (rest : List String) : Directory :=
  if reply.retry then
    { s with
      waiting := s.waiting.insert id number
      answers := s.answers.insert id reply
      stage := .listed rest
      replaced := if s.files.lookup id = some number then s.replaced else number :: s.replaced }
  else
    { s with
      waiting := s.waiting.erase id
      answers := s.answers.insert id reply
      stage := .answered id number reply rest }

def step (s : Directory) : DirectoryOp → Directory
  | .write id file => s.write id file
  | .book carryDelta books =>
    { s with
      ledger := (s.ledger.bookDebits carryDelta books).1, journal := .book carryDelta books :: s.journal }
  -- whatever else the ledger is put through leaves its holds alone
  | .other l =>
    { s with
      ledger := { l with window := { l.window with holds := s.ledger.window.holds } }
      journal := .other l :: s.journal }
  | .persist => { s with disk := s.ledger, diskJournal := s.journal }
  | .list =>
    match s.stage with
    | .idle => { s with stage := .listed (s.files.keys.insertionSort (· ≤ ·)) }
    | _ => s
  | .read elapsed =>
    match s.stage with
    | .listed [] => { s with stage := .idle }
    | .listed (id :: rest) =>
      match s.files.lookup id with
      -- only the poll takes files away
      | none => { s with stage := .listed rest }
      | some number =>
        if !elapsed ∧ s.waiting.lookup id = some number then { s with stage := .listed rest }
        else { s with stage := .read id number (s.ledger.hold id) rest }
    | _ => s
  | .apply payer ts tip =>
    match s.stage with
    | .read id number seen rest => s.apply id number seen rest payer ts tip
    | _ => s
  | .reply =>
    match s.stage with
    | .applied id number reply rest => s.answer id number reply rest
    | _ => s
  | .log =>
    match s.stage with
    | .answered id number reply rest =>
      { s with log := s.log ++ [(id, reply)], stage := .logged id number rest }
    | _ => s
  -- by name: whatever file is there now
  | .remove =>
    match s.stage with
    | .logged id _ rest => { s with files := s.files.erase id, stage := .listed rest }
    | _ => s
  | .crash => { s with ledger := s.disk, journal := s.diskJournal, waiting := ∅, stage := .idle }

/-- The request is still there to be read, or is in Prime's hands and not dealt with. -/
def Open (s : Directory) (id : String) (number : Nat) : Prop :=
  s.files.lookup id = some number ∨ s.stage.unsettled = some (id, number)

/-- What became of a request is what it asks for: one that cannot be read is refused and moves nothing, and any
other has its effect. -/
def Right (requests : List (String × RequestFile)) (o : Outcome) : Prop :=
  ∃ file, requests[o.number]? = some (o.id, file) ∧
    match readRequest o.id file with
    | .error e => o.reply = .refused e ∧ o.after = o.before
    | .ok req => o.Effect req

/-- Every request moves the ledger once: none twice, none is gone that was neither dealt with nor replaced
before it was read, and a credit that was dealt with did move it. -/
structure Once (s : Directory) : Prop where
  once : s.moves.Nodup
  accounted : ∀ number < s.requests.length, (∃ id, s.Open id number) ∨ number ∈ s.replaced ∨ number ∈ s.handled
  credited : ∀ number ∈ s.handled, ∀ entries note, s.requestOf number = some (.credit entries note) →
    number ∈ s.moves

/-- The ledger, in memory and on disk, is the one at the start after the changes entered for it, and each
request that was dealt with and moved it is among them, with the effect it asks for. -/
structure Tied (start : Ledger) (s : Directory) : Prop where
  replayed : Replay start s.journal s.ledger
  saved : Replay start s.diskJournal s.disk
  savedMoves : s.diskJournal.filterMap Change.mover = s.moves
  right : ∀ o ∈ s.outcomes, Right s.requests o
  moved : ∀ o ∈ s.outcomes, o.reply.moved = true → o.number ∈ s.moves
  entered : ∀ o, .asked o ∈ s.journal ∨ .asked o ∈ s.diskJournal → o ∈ s.outcomes ∧ o.reply.moved = true

/-- A request that has moved the ledger would not move it again: it is no credit, and a hold still stands. -/
def Idempotent (l : Ledger) (id : String) : Request → Prop
  | .hold _ => (l.hold id).isSome
  | .credit _ _ => False
  | _ => True

/-- A file that is removed is the one that was read. Prime does not crash with a request read, not dealt with
and replaced, nor with one in the directory that has moved the ledger and would again; and a block does not
empty a hold whose request is left in the directory by a crash. -/
def Guarded (s : Directory) : DirectoryOp → Prop
  | .remove => ∀ id number rest, s.stage = .logged id number rest → s.files.lookup id = some number
  | .crash => ∀ id number,
    (s.stage.unsettled = some (id, number) → s.files.lookup id = some number) ∧
      (s.stage.settled = some (id, number) → s.files.lookup id = some number → number ∈ s.moves →
        ∀ req, s.requestOf number = some req → Idempotent s.disk id req)
  | .book carryDelta books =>
    ∀ id number, s.Open id number → s.stage.settled ≠ some (id, number) → number ∈ s.moves →
    ∀ entries, s.requestOf number = some (.hold entries) →
      ((s.ledger.bookDebits carryDelta books).1.hold id).isSome
  | _ => True

/-- What keeps a request that has moved the ledger from moving it again, should it be read again. Until it is
out of Prime's hands nothing has to. -/
def Spent (s : Directory) (id : String) (number : Nat) : Request → Prop
  | .hold _ => s.stage.settled = some (id, number) ∨ (s.ledger.hold id).isSome ∧ (s.disk.hold id).isSome
  | .credit _ _ => s.stage.settled = some (id, number)
  | _ => s.ledger.hold id = none ∧ s.disk.hold id = none

def InHand (s : Directory) (id : String) (number : Nat) : Prop :=
  s.stage.unsettled = some (id, number) ∨ s.stage.settled = some (id, number)

structure Sound (s : Directory) : Prop extends Once s where
  same : s.diskJournal.filterMap Change.mover = s.moves
  filed : ∀ id number, s.files.lookup id = some number → ∃ file, s.requests[number]? = some (id, file)
  staged : ∀ id number, s.InHand id number → ∃ file, s.requests[number]? = some (id, file)
  known : ∀ number ∈ s.handled, number < s.requests.length
  dealt : ∀ number ∈ s.moves, number ∈ s.handled
  final : ∀ id number, s.stage.settled = some (id, number) → number ∈ s.handled
  fresh : ∀ id number other, s.InHand id number → s.files.lookup id = some other →
    other ≠ number → other ∉ s.moves
  spent : ∀ id number, s.Open id number → number ∈ s.moves → ∀ req, s.requestOf number = some req →
    s.Spent id number req

theorem sound_start (l : Ledger) : Sound { ledger := l, disk := l } where
  once := List.nodup_nil
  accounted := by simp
  credited := by simp [handled]
  same := rfl
  filed := by simp
  staged := by simp [InHand, Stage.unsettled, Stage.settled]
  known := by simp [handled]
  dealt := by simp [moves]
  final := by simp [Stage.settled]
  fresh := by simp
  spent := by simp [moves]

variable {s : Directory}

theorem requestOf_eq {id : String} {file : RequestFile} {number : Nat}
    (sent : s.requests[number]? = some (id, file)) : s.requestOf number = (readRequest id file).toOption := by
  simp [requestOf, sent]

section Write

theorem Sound.unwritten (sound : s.Sound) : s.requests.length ∉ s.moves := fun moved =>
  Nat.lt_irrefl _ (sound.known _ (sound.dealt _ moved))

theorem requests_write {sent : String × RequestFile} {id : String} {file : RequestFile} {number : Nat}
    (known : s.requests[number]? = some sent) : (s.write id file).requests[number]? = some sent :=
  List.getElem?_append_left (List.getElem?_eq_some_iff.mp known).1 ▸ known

theorem requestOf_write {id : String} {file : RequestFile} {number : Nat} (known : number < s.requests.length) :
    (s.write id file).requestOf number = s.requestOf number := by
  show (s.requests ++ [(id, file)])[number]?.bind _ = _
  rw [List.getElem?_append_left known]
  rfl

theorem lookup_write (s : Directory) (id : String) (file : RequestFile) (other : String) :
    (s.write id file).files.lookup other = if other = id then some s.requests.length else
      s.files.lookup other := by
  split
  · rename_i same
    rw [same]
    exact AList.lookup_insert _
  · rename_i differs
    exact AList.lookup_insert_ne differs

/-- A request that is overwritten was read, or it is replaced. -/
theorem Sound.accounted_write (sound : s.Sound) (id : String) (file : RequestFile) (number : Nat)
    (known : number < s.requests.length) :
    (∃ other, (s.write id file).Open other number) ∨ number ∈ (s.write id file).replaced ∨
      number ∈ s.handled := by
  rcases sound.accounted number known with ⟨other, there | reading⟩ | replaced | handled
  · by_cases same : other = id
    · subst same
      by_cases hand : s.stage.unsettled = some (other, number) ∨ s.stage.settled = some (other, number)
      · rcases hand with reading | done
        · exact .inl ⟨other, .inr reading⟩
        · exact .inr (.inr (sound.final other number done))
      · refine .inr (.inl ?_)
        simp [write, there, hand]
    · refine .inl ⟨other, .inl ?_⟩
      rw [lookup_write, if_neg same]
      exact there
  · exact .inl ⟨other, .inr reading⟩
  · refine .inr (.inl ?_)
    simp only [write]
    split
    · exact replaced
    · split
      · exact replaced
      · exact List.mem_cons_of_mem _ replaced
  · exact .inr (.inr handled)

theorem Sound.write (sound : s.Sound) (id : String) (file : RequestFile) : (s.write id file).Sound where
  once := sound.once
  accounted number known := by
    have last : number < s.requests.length ∨ number = s.requests.length := by
      have := List.length_append ▸ known
      simp only [List.length_singleton] at this
      omega
    rcases last with old | rfl
    · exact sound.accounted_write id file number old
    · refine .inl ⟨id, .inl ?_⟩
      rw [lookup_write, if_pos rfl]
  credited number handled entries note read := by
    rw [requestOf_write (sound.known number handled)] at read
    exact sound.credited number handled entries note read
  same := sound.same
  filed other number there := by
    rw [lookup_write] at there
    split at there
    · rename_i same
      cases there
      exact ⟨file, by rw [same]; exact List.getElem?_concat_length⟩
    · obtain ⟨file, sent⟩ := sound.filed other number there
      exact ⟨file, requests_write sent⟩
  staged other number hand := by
    obtain ⟨file, sent⟩ := sound.staged other number hand
    exact ⟨file, requests_write sent⟩
  known number handled := by
    have before := sound.known number handled
    simp only [Directory.write, List.length_append]
    omega
  dealt := sound.dealt
  final := sound.final
  fresh other number next hand there differs := by
    rw [lookup_write] at there
    split at there
    · cases there
      exact sound.unwritten
    · exact sound.fresh other number next hand there differs
  spent other number opened moved req read := by
    rw [requestOf_write (sound.known number (sound.dealt number moved))] at read
    rcases opened with there | reading
    · rw [lookup_write] at there
      split at there
      · cases there
        exact absurd moved sound.unwritten
      · exact sound.spent other number (.inl there) moved req read
    · exact sound.spent other number (.inr reading) moved req read

end Write

/-- Out of Prime's hands, what holds a request off is the hold of its batch. -/
theorem Spent.carry {after : Directory} {id : String} {number : Nat} {req : Request}
    (before : s.Spent id number req) (undone : s.stage.settled ≠ some (id, number))
    (ledger : after.ledger.hold id = s.ledger.hold id)
    (disk : after.disk.hold id = s.disk.hold id ∨ after.disk.hold id = s.ledger.hold id) :
    after.Spent id number req := by
  cases req with
  | hold entries =>
    obtain ⟨stands, written⟩ := before.resolve_left undone
    refine .inr ⟨by rw [ledger]; exact stands, ?_⟩
    rcases disk with same | same <;> rw [same] <;> assumption
  | paid txid block =>
    refine ⟨ledger.trans before.1, ?_⟩
    exact disk.elim (fun same => same.trans before.2) fun same => same.trans before.1
  | release =>
    refine ⟨ledger.trans before.1, ?_⟩
    exact disk.elim (fun same => same.trans before.2) fun same => same.trans before.1
  | credit entries note => exact absurd before undone

section Ledgers

/-- The ledger moves on, or is written out or read back, and what holds a request off still does. -/
theorem Sound.ledgers (sound : s.Sound) {ledger disk : Ledger} {journal diskJournal : List Change}
    (moves : journal.filterMap Change.mover = s.moves) (saved : diskJournal.filterMap Change.mover = s.moves)
    (still : ∀ id number, s.Open id number → number ∈ s.moves → ∀ req, s.requestOf number = some req →
      Spent { s with ledger, disk, journal, diskJournal } id number req) :
    Sound { s with ledger, disk, journal, diskJournal } := by
  have after : Directory.moves { s with ledger, disk, journal, diskJournal } = s.moves := moves
  constructor
  · constructor
    · rw [after]
      exact sound.once
    · exact sound.accounted
    · rw [after]
      exact sound.credited
  · rw [after]
    exact saved
  · exact sound.filed
  · exact sound.staged
  · exact sound.known
  · rw [after]
    exact sound.dealt
  · exact sound.final
  · rw [after]
    exact sound.fresh
  · rw [after]
    exact still

theorem Sound.book (sound : s.Sound) {carryDelta : List (String × Int)} {books : Books}
    (guarded : s.Guarded (.book carryDelta books)) : (s.step (.book carryDelta books)).Sound := by
  refine sound.ledgers rfl sound.same ?_
  intro id number opened moved req read
  have before := sound.spent id number opened moved req read
  have drained := bookDebits_drained s.ledger carryDelta books id
  have none : s.ledger.hold id = none → (s.ledger.bookDebits carryDelta books).1.hold id = none := by
    intro none
    rw [Option.eq_none_iff_forall_ne_some]
    intro hold stands
    obtain ⟨old, stood, _⟩ := drained.ready hold stands
    exact absurd (none.symm.trans stood) (by simp)
  cases req with
  | hold entries =>
    by_cases done : s.stage.settled = some (id, number)
    · exact .inl done
    · have stands := before.resolve_left done
      exact .inr ⟨guarded id number opened done moved entries read, stands.2⟩
  | paid txid block => exact ⟨none before.1, before.2⟩
  | release => exact ⟨none before.1, before.2⟩
  | credit entries note => exact before

theorem Sound.other (sound : s.Sound) (l : Ledger) : (s.step (.other l)).Sound := by
  refine sound.ledgers rfl sound.same ?_
  intro id number opened moved req read
  have before := sound.spent id number opened moved req read
  cases req with
  | hold entries => exact before
  | paid txid block => exact before
  | release => exact before
  | credit entries note => exact before

theorem Sound.persist (sound : s.Sound) : (s.step .persist).Sound := by
  refine sound.ledgers rfl rfl ?_
  intro id number opened moved req read
  have before := sound.spent id number opened moved req read
  cases req with
  | hold entries => exact before.imp_right fun stands => ⟨stands.1, stands.1⟩
  | paid txid block => exact ⟨before.1, before.1⟩
  | release => exact ⟨before.1, before.1⟩
  | credit entries note => exact before

end Ledgers

section Poll

/-- The poll goes on to a request that is there, or is as far with the one it has. -/
theorem Sound.restage (sound : s.Sound) {answers : AList fun _ : String => Reply} {log : List (String × Reply)}
    {waiting : AList fun _ : String => Nat} {stage : Stage} (done : stage.settled = s.stage.settled)
    (kept : ∀ id number, s.stage.unsettled = some (id, number) → stage.unsettled = some (id, number))
    (new : ∀ id number, stage.unsettled = some (id, number) →
      s.stage.unsettled = some (id, number) ∨ s.files.lookup id = some number) :
    Sound { s with answers, log, waiting, stage } := by
  have opened : ∀ id number, Open { s with answers, log, waiting, stage } id number → s.Open id number := by
    rintro id number (there | reading)
    · exact .inl there
    · exact (new id number reading).symm
  have hand : ∀ id number, InHand { s with answers, log, waiting, stage } id number →
      s.InHand id number ∨ s.files.lookup id = some number := by
    rintro id number (reading | settled)
    · exact (new id number reading).imp_left .inl
    · exact .inl (.inr (done ▸ settled))
  constructor
  · constructor
    · exact sound.once
    · intro number known
      rcases sound.accounted number known with ⟨id, there | reading⟩ | gone
      · exact .inl ⟨id, .inl there⟩
      · exact .inl ⟨id, .inr (kept id number reading)⟩
      · exact .inr gone
    · exact sound.credited
  · exact sound.same
  · exact sound.filed
  · intro id number held
    exact (hand id number held).elim (sound.staged id number) (sound.filed id number)
  · exact sound.known
  · exact sound.dealt
  · intro id number settled
    exact sound.final id number (done ▸ settled)
  · intro id number other held there differs
    rcases hand id number held with before | same
    · exact sound.fresh id number other before there differs
    · exact absurd (Option.some.inj (there.symm.trans same)) differs
  · intro id number here moved req read
    have before := sound.spent id number (opened id number here) moved req read
    cases req with
    | hold entries => exact before.imp_left done.trans
    | paid txid block => exact before
    | release => exact before
    | credit entries note => exact done.trans before

/-- The poll goes on with no request read that is not dealt with. -/
theorem Sound.pass (sound : s.Sound) {answers : AList fun _ : String => Reply} {log : List (String × Reply)}
    {waiting : AList fun _ : String => Nat} {stage : Stage} (before : s.stage.unsettled = none)
    (after : stage.unsettled = none) (done : stage.settled = s.stage.settled) :
    Sound { s with answers, log, waiting, stage } := by
  apply sound.restage done
  · intro id number reading
    exact absurd (before.symm.trans reading) (by simp)
  · intro id number reading
    exact absurd (after.symm.trans reading) (by simp)

theorem Sound.list (sound : s.Sound) : (s.step .list).Sound := by
  simp only [step]
  split
  · rename_i idle
    exact sound.pass (by rw [idle]; rfl) rfl (by rw [idle]; rfl)
  · exact sound

theorem Sound.read (sound : s.Sound) (elapsed : Bool) : (s.step (.read elapsed)).Sound := by
  simp only [step]
  split
  · rename_i listed
    exact sound.pass (by rw [listed]; rfl) rfl (by rw [listed]; rfl)
  · rename_i id rest listed
    split
    · exact sound.pass (by rw [listed]; rfl) rfl (by rw [listed]; rfl)
    · rename_i number there
      split
      · exact sound.pass (by rw [listed]; rfl) rfl (by rw [listed]; rfl)
      · apply sound.restage
        · rw [listed]
          rfl
        · rw [listed]
          simp [Stage.unsettled]
        · intro other next reading
          cases reading
          exact .inr there
  · exact sound

theorem Sound.log (sound : s.Sound) : (s.step .log).Sound := by
  simp only [step]
  split
  · rename_i answered
    exact sound.pass (by rw [answered]; rfl) rfl (by rw [answered]; rfl)
  · exact sound

/-- A request that waits goes back to the directory, where it may have been replaced. -/
theorem Sound.leave (sound : s.Sound) {id : String} {number : Nat} {reply : Reply} {rest : List String}
    (applied : s.stage = .applied id number reply rest) (retry : reply.retry = true)
    {answers : AList fun _ : String => Reply} {waiting : AList fun _ : String => Nat} :
    Sound { s with
      waiting, answers, stage := .listed rest
      replaced := if s.files.lookup id = some number then s.replaced else number :: s.replaced } := by
  have reading : s.stage.unsettled = some (id, number) := by simp [applied, Stage.unsettled, retry]
  have undone : s.stage.settled = none := by simp [applied, Stage.settled, retry]
  have later : ∀ other ∈ s.replaced,
      other ∈ if s.files.lookup id = some number then s.replaced else number :: s.replaced := by
    intro other replaced
    split
    · exact replaced
    · exact List.mem_cons_of_mem _ replaced
  constructor
  · constructor
    · exact sound.once
    · intro other known
      rcases sound.accounted other known with ⟨owner, there | held⟩ | replaced | handled
      · exact .inl ⟨owner, .inl there⟩
      · cases reading.symm.trans held
        by_cases there : s.files.lookup id = some number
        · exact .inl ⟨id, .inl there⟩
        · exact .inr (.inl (by simp [there]))
      · exact .inr (.inl (later other replaced))
      · exact .inr (.inr handled)
    · exact sound.credited
  · exact sound.same
  · exact sound.filed
  · rintro owner other (held | held) <;> cases held
  · exact sound.known
  · exact sound.dealt
  · intro owner other held
    cases held
  · rintro owner other next (held | held) <;> cases held
  · rintro owner other (there | held) moved req read
    · exact (sound.spent owner other (.inl there) moved req read).carry (by simp [undone]) rfl (.inl rfl)
    · cases held

theorem Sound.reply (sound : s.Sound) : (s.step .reply).Sound := by
  simp only [step]
  split
  · rename_i id number reply rest applied
    unfold answer
    split
    · rename_i retry
      exact sound.leave applied retry
    · rename_i settled
      exact sound.pass (by simp [applied, Stage.unsettled, settled]) rfl
        (by simp [applied, Stage.settled, settled])
  · exact sound

end Poll

section Apply

theorem Reply.not_retry {reply : Reply} (moved : reply.moved = true) : reply.retry = false := by
  cases reply with
  | waiting error => cases moved
  | _ => rfl

variable {id : String} {number : Nat} {seen : Option Hold} {rest : List String}
  {ledger : Ledger} {reply : Reply}

/-- A request that has moved the ledger does not move it when it is read again. -/
theorem Sound.unmoved (sound : s.Sound) (reading : s.stage = .read id number seen rest)
    (before : number ∈ s.moves) {req : Request} (read : s.requestOf number = some req)
    (handled : Handled reply (s.ledger.hold id) (ledger.hold id) req) : reply.moved = false := by
  have undone : s.stage.settled = none := by rw [reading]; rfl
  have spent := sound.spent id number (.inr (by rw [reading]; rfl)) before req read
  rw [Bool.eq_false_iff]
  intro moved
  cases handled with
  | kept _ same took gave quiet =>
    obtain ⟨entries, note, rfl⟩ := quiet moved
    exact absurd (undone.symm.trans spent) (by simp)
  | placed entries hold unused stands took gave moves =>
    have stood := (spent.resolve_left (by simp [undone])).1
    simp [unused] at stood
  | released hold stood gone took gave moves => exact absurd (stood.symm.trans spent.1) (by simp)
  | finished txid block hold stood gone took gave moves => exact absurd (stood.symm.trans spent.1) (by simp)

/-- What holds the request off that was just handled, should it be read again. -/
theorem Sound.spent_applied (sound : s.Sound) (reading : s.stage = .read id number seen rest) {req : Request}
    (read : s.requestOf number = some req) (handled : Handled reply (s.ledger.hold id) (ledger.hold id) req)
    {after : Directory} (stage : after.stage = .applied id number reply rest) (now : after.ledger = ledger)
    (disk : after.disk = if reply.moved then ledger else s.disk)
    (moved : reply.moved = true ∨ number ∈ s.moves) : after.Spent id number req := by
  by_cases moves : reply.moved = true
  · have done : after.stage.settled = some (id, number) := by simp [stage, Stage.settled, Reply.not_retry moves]
    rw [if_pos moves] at disk
    cases handled with
    | kept _ same took gave quiet =>
      obtain ⟨entries, note, rfl⟩ := quiet moves
      exact done
    | placed entries hold unused stands took gave moves => exact .inl done
    | released hold stood gone took gave moves => exact ⟨by rw [now]; exact gone, by rw [disk]; exact gone⟩
    | finished txid block hold stood gone took gave moves =>
      exact ⟨by rw [now]; exact gone, by rw [disk]; exact gone⟩
  · have again := moved.resolve_left moves
    have spent := sound.spent id number (.inr (by rw [reading]; rfl)) again req read
    rw [if_neg moves] at disk
    have same : ledger.hold id = s.ledger.hold id := by
      cases handled with
      | kept _ same took gave quiet => exact same
      | placed entries hold unused stands took gave counted => exact absurd counted moves
      | released hold stood gone took gave counted => exact absurd counted moves
      | finished txid block hold stood gone took gave counted => exact absurd counted moves
    exact spent.carry (by rw [reading]; simp [Stage.settled]) (by rw [now]; exact same) (.inl (by rw [disk]))

theorem Stage.applied_hand {owner : String} {other : Nat}
    (hand : (Stage.applied id number reply rest).unsettled = some (owner, other) ∨
      (Stage.applied id number reply rest).settled = some (owner, other)) : owner = id ∧ other = number := by
  cases retry : reply.retry with
  | false => simpa [Stage.unsettled, Stage.settled, retry, eq_comm] using hand
  | true => simpa [Stage.unsettled, Stage.settled, retry, eq_comm] using hand

/-- A request is applied. -/
theorem Sound.applied (sound : s.Sound) (reading : s.stage = .read id number seen rest) {o : Outcome}
    (mine : o.number = number)
    (elsewhere : ∀ other, other ≠ id → ledger.hold other = s.ledger.hold other)
    (handled : ∀ req, s.requestOf number = some req → Handled reply (s.ledger.hold id) (ledger.hold id) req)
    (unread : s.requestOf number = none → reply.moved = false)
    (credit : ∀ entries note, s.requestOf number = some (.credit entries note) → reply.moved = true)
    {after : Directory} (same : after = { s with
      ledger
      disk := if reply.moved then ledger else s.disk
      stage := .applied id number reply rest
      journal := if reply.moved then .asked o :: s.journal else s.journal
      diskJournal := if reply.moved then .asked o :: s.journal else s.diskJournal
      outcomes := if reply.retry then s.outcomes else o :: s.outcomes }) : after.Sound := by
  have settled : after.handled = if reply.retry then s.handled else number :: s.handled := by
    rw [same, ← mine, Directory.handled]
    simp only
    split <;> rfl
  have moved : after.moves = if reply.moved then number :: s.moves else s.moves := by
    rw [same, ← mine, Directory.moves]
    simp only
    split <;> rfl
  have written : after.diskJournal.filterMap Change.mover = after.moves := by
    rw [moved, same, ← mine]
    simp only
    split
    · rfl
    · exact sound.same
  have held : s.stage.unsettled = some (id, number) := by rw [reading]; rfl
  obtain ⟨file, sent⟩ := sound.staged id number (.inl held)
  have dealt : reply.retry = false → number ∈ after.handled := by
    intro final
    simp [settled, final]
  have handled_kept : ∀ other ∈ s.handled, other ∈ after.handled := by
    intro other before
    rw [settled]
    split
    · exact before
    · exact List.mem_cons_of_mem _ before
  have handled_now : ∀ other ∈ after.handled, other ∈ s.handled ∨ other = number := by
    intro other now
    rw [settled] at now
    split at now
    · exact .inl now
    · exact (List.mem_cons.mp now).symm
  have moves_kept : ∀ other ∈ s.moves, other ∈ after.moves := by
    intro other before
    rw [moved]
    split
    · exact List.mem_cons_of_mem _ before
    · exact before
  have moved_now : ∀ other ∈ after.moves, other ∈ s.moves ∨ other = number ∧ reply.moved = true := by
    intro other now
    rw [moved] at now
    split at now
    · rename_i moves
      exact (List.mem_cons.mp now).symm.imp_right fun same => ⟨same, moves⟩
    · exact .inl now
  have once : after.moves.Nodup := by
    rw [moved]
    split
    · rename_i moves
      refine List.nodup_cons.mpr ⟨fun before => ?_, sound.once⟩
      cases read : s.requestOf number with
      | none => exact absurd moves (by simp [unread read])
      | some req => exact absurd moves (by simp [sound.unmoved reading before read (handled req read)])
    · exact sound.once
  have credited : ∀ other ∈ after.handled, ∀ entries note, s.requestOf other = some (.credit entries note) →
      other ∈ after.moves := by
    intro other before entries note read
    rcases handled_now other before with old | rfl
    · exact moves_kept other (sound.credited other old entries note read)
    · rw [moved]
      simp [credit entries note read]
  subst same
  constructor
  · constructor
    · exact once
    · intro other known
      rcases sound.accounted other known with ⟨owner, there | mine⟩ | replaced | before
      · exact .inl ⟨owner, .inl there⟩
      · cases held.symm.trans mine
        by_cases retry : reply.retry = true
        · exact .inl ⟨id, .inr (by simp [Stage.unsettled, retry])⟩
        · exact .inr (.inr (dealt (Bool.eq_false_iff.mpr retry)))
      · exact .inr (.inl replaced)
      · exact .inr (.inr (handled_kept other before))
    · exact credited
  · exact written
  · exact sound.filed
  · intro owner other hand
    obtain ⟨rfl, rfl⟩ := Stage.applied_hand hand
    exact ⟨file, sent⟩
  · intro other before
    rcases handled_now other before with old | rfl
    · exact sound.known other old
    · exact (List.getElem?_eq_some_iff.mp sent).1
  · intro other now
    rcases moved_now other now with before | ⟨rfl, moves⟩
    · exact handled_kept other (sound.dealt other before)
    · exact dealt (Reply.not_retry moves)
  · intro owner other done
    obtain ⟨rfl, rfl⟩ := Stage.applied_hand (.inr done)
    apply dealt
    cases retry : reply.retry with
    | false => rfl
    | true => simp [Stage.settled, retry] at done
  · intro owner other next hand there differs now
    obtain ⟨rfl, rfl⟩ := Stage.applied_hand hand
    rcases moved_now next now with before | ⟨same, _⟩
    · exact sound.fresh owner other next (.inl held) there differs before
    · exact differs same
  · intro owner other opened now req read
    have before : s.Open owner other := by
      rcases opened with there | mine
      · exact .inl there
      · obtain ⟨rfl, rfl⟩ := Stage.applied_hand (.inl mine)
        exact .inr held
    by_cases same : other = number
    · subst same
      obtain ⟨_, its⟩ : ∃ file, s.requests[other]? = some (owner, file) :=
        before.elim (sound.filed owner other) fun mine => sound.staged owner other (.inl mine)
      cases its.symm.trans sent
      exact sound.spent_applied reading read (handled req read) rfl rfl rfl
        ((moved_now other now).symm.imp_left And.right)
    · have moves : other ∈ s.moves := (moved_now other now).resolve_right fun mine => same mine.1
      have differs : owner ≠ id := by
        rintro rfl
        rcases before with there | mine
        · exact sound.fresh owner number other (.inl held) there same moves
        · exact same (Prod.mk.inj (Option.some.inj (mine.symm.trans held))).2
      refine (sound.spent owner other before moves req read).carry (by rw [reading]; simp [Stage.settled])
        (elsewhere owner differs) ?_
      show (if reply.moved then ledger else s.disk).hold owner = _ ∨
        (if reply.moved then ledger else s.disk).hold owner = _
      split
      · exact .inr (elsewhere owner differs)
      · exact .inl rfl

theorem Sound.apply (sound : s.Sound) (payer : Payer) (ts : Nat) (tip : Option Nat) :
    (s.step (.apply payer ts tip)).Sound := by
  simp only [step]
  split
  · rename_i id number seen rest reading
    obtain ⟨file, sent⟩ := sound.staged id number (.inl (by rw [reading]; rfl))
    have asked := requestOf_eq sent
    simp only [Directory.apply, sent]
    split
    · rename_i e read
      have none : s.requestOf number = none := by rw [asked, read]; rfl
      exact @Sound.applied s id number seen rest s.ledger (.refused e) sound reading _ rfl (fun _ _ => rfl)
        (by simp [none]) (fun _ => rfl) (by simp [none]) _ rfl
    · rename_i req read
      have some : s.requestOf number = some req := by rw [asked, read]; rfl
      refine sound.applied reading rfl ?_ ?_ ?_ ?_ rfl
      · intro other differs
        exact handle_other payer ts tip seen s.ledger id differs req
      · intro again same
        cases some.symm.trans same
        exact handle_handled payer ts tip seen s.ledger id req
      · simp [some]
      · intro entries note same
        cases some.symm.trans same
        rfl
  · exact sound

end Apply

section Last

theorem Sound.remove (sound : s.Sound) (guarded : s.Guarded .remove) : (s.step .remove).Sound := by
  simp only [step]
  split
  · rename_i id number rest logged
    have there := guarded id number rest logged
    have done : s.stage.settled = some (id, number) := by rw [logged]; rfl
    have unread : s.stage.unsettled = none := by rw [logged]; rfl
    have left : ∀ owner other, (s.files.erase id).lookup owner = some other →
        owner ≠ id ∧ s.files.lookup owner = some other := by
      intro owner other found
      have differs : owner ≠ id := by
        rintro rfl
        rw [AList.lookup_erase] at found
        cases found
      exact ⟨differs, AList.lookup_erase_ne differs ▸ found⟩
    constructor
    · constructor
      · exact sound.once
      · intro other known
        rcases sound.accounted other known with ⟨owner, found | mine⟩ | gone
        · by_cases same : owner = id
          · subst same
            cases there.symm.trans found
            exact .inr (.inr (sound.final owner number done))
          · exact .inl ⟨owner, .inl (by rw [AList.lookup_erase_ne same]; exact found)⟩
        · exact absurd (unread.symm.trans mine) (by simp)
        · exact .inr gone
      · exact sound.credited
    · exact sound.same
    · intro owner other found
      exact sound.filed owner other (left owner other found).2
    · rintro owner other (held | held) <;> cases held
    · exact sound.known
    · exact sound.dealt
    · intro owner other held
      cases held
    · rintro owner other next (held | held) <;> cases held
    · rintro owner other (found | held) moved req read
      · obtain ⟨differs, before⟩ := left owner other found
        refine (sound.spent owner other (.inl before) moved req read).carry ?_ rfl (.inl rfl)
        rw [done]
        intro same
        exact differs (Prod.mk.inj (Option.some.inj same)).1.symm
      · cases held
  · exact sound

theorem Sound.crash (sound : s.Sound) (guarded : s.Guarded .crash) : (s.step .crash).Sound := by
  have same : (s.step .crash).moves = s.moves := sound.same
  constructor
  · constructor
    · rw [same]
      exact sound.once
    · intro other known
      rcases sound.accounted other known with ⟨owner, found | mine⟩ | gone
      · exact .inl ⟨owner, .inl found⟩
      · exact .inl ⟨owner, .inl ((guarded owner other).1 mine)⟩
      · exact .inr gone
    · rw [same]
      exact sound.credited
  · rfl
  · exact sound.filed
  · rintro owner other (held | held) <;> cases held
  · exact sound.known
  · rw [same]
    exact sound.dealt
  · intro owner other held
    cases held
  · rintro owner other next (held | held) <;> cases held
  · rw [same]
    rintro owner other (found | held) moved req read
    · have before := sound.spent owner other (.inl found) moved req read
      have harmless := fun done => (guarded owner other).2 done found moved req read
      cases req with
      | hold entries =>
        have stands : (s.disk.hold owner).isSome := before.elim harmless And.right
        exact .inr ⟨stands, stands⟩
      | paid txid block => exact ⟨before.2, before.2⟩
      | release => exact ⟨before.2, before.2⟩
      | credit entries note => exact absurd (harmless before) id
    · cases held

end Last

theorem Sound.step (sound : s.Sound) {op : DirectoryOp} (guarded : s.Guarded op) : (s.step op).Sound := by
  cases op with
  | write id file => exact sound.write id file
  | book carryDelta books => exact sound.book guarded
  | other l => exact sound.other l
  | persist => exact sound.persist
  | list => exact sound.list
  | read elapsed => exact sound.read elapsed
  | apply payer ts tip => exact sound.apply payer ts tip
  | reply => exact sound.reply
  | log => exact sound.log
  | remove => exact sound.remove guarded
  | crash => exact sound.crash guarded

section Tied

variable {start : Ledger}

/-- What became of a request stays right as more are written. -/
theorem Right.append {requests : List (String × RequestFile)} {o : Outcome} (right : Right requests o)
    (more : List (String × RequestFile)) : Right (requests ++ more) o := by
  obtain ⟨file, sent, effect⟩ := right
  refine ⟨file, ?_, effect⟩
  rw [List.getElem?_append_left (List.getElem?_eq_some_iff.mp sent).1]
  exact sent

theorem mem_moves {o : Outcome} (entered : .asked o ∈ s.journal) : o.number ∈ s.moves :=
  List.mem_filterMap.mpr ⟨_, entered, rfl⟩

/-- What became of a request is entered, with the ledger it left if it moved it. -/
theorem Tied.enter (tied : s.Tied start) {o : Outcome} (found : o.before = s.ledger)
    (unmoved : o.reply.moved = false → o.after = s.ledger) (right : o.reply.retry = false → Right s.requests o)
    {stage : Stage} :
    Tied start { s with
      ledger := o.after
      disk := if o.reply.moved then o.after else s.disk
      stage
      journal := if o.reply.moved then .asked o :: s.journal else s.journal
      diskJournal := if o.reply.moved then .asked o :: s.journal else s.diskJournal
      outcomes := if o.reply.retry then s.outcomes else o :: s.outcomes } := by
  have kept : ∀ other ∈ s.outcomes, other ∈ if o.reply.retry then s.outcomes else o :: s.outcomes := by
    intro other before
    split
    · exact before
    · exact List.mem_cons_of_mem _ before
  cases moves : o.reply.moved with
  | true =>
    have final := Reply.not_retry moves
    refine ⟨.asked o (found ▸ tied.replayed), .asked o (found ▸ tied.replayed), rfl, ?_, ?_, ?_⟩
    · simp only [final, Bool.false_eq_true, ↓reduceIte]
      exact List.forall_mem_cons.mpr ⟨right final, tied.right⟩
    · simp only [final, Bool.false_eq_true, ↓reduceIte]
      intro other member moved
      rcases List.mem_cons.mp member with rfl | before
      · exact mem_moves List.mem_cons_self
      · exact List.mem_cons_of_mem _ (tied.moved other before moved)
    · intro other member
      rcases List.mem_cons.mp (or_self_iff.mp member) with same | before
      · cases same
        exact ⟨by simp [final], moves⟩
      · exact ⟨kept other (tied.entered other (.inl before)).1, (tied.entered other (.inl before)).2⟩
  | false =>
    refine ⟨unmoved moves ▸ tied.replayed, tied.saved, tied.savedMoves, ?_, ?_, ?_⟩
    · intro other member
      change other ∈ (if o.reply.retry then s.outcomes else o :: s.outcomes) at member
      split at member
      · exact tied.right other member
      · rename_i final
        rcases List.mem_cons.mp member with rfl | before
        · exact right (Bool.eq_false_iff.mpr final)
        · exact tied.right other before
    · intro other member moved
      change other ∈ (if o.reply.retry then s.outcomes else o :: s.outcomes) at member
      split at member
      · exact tied.moved other member moved
      · rcases List.mem_cons.mp member with rfl | before
        · exact absurd (moves.symm.trans moved) (by simp)
        · exact tied.moved other before moved
    · intro other member
      exact ⟨kept other (tied.entered other member).1, (tied.entered other member).2⟩

/-- A request that was read is applied: the ledger goes on from the one it found. -/
theorem Tied.apply (tied : s.Tied start) (sound : s.Sound) {id : String} {number : Nat} {seen : Option Hold}
    {rest : List String} (reading : s.stage = .read id number seen rest)
    (payer : Payer) (ts : Nat) (tip : Option Nat) :
    (s.apply id number seen rest payer ts tip).Tied start := by
  obtain ⟨file, sent⟩ := sound.staged id number (.inl (by rw [reading]; rfl))
  simp only [Directory.apply, sent]
  cases read : readRequest id file with
  | error e =>
    refine { tied with right := ?_, moved := ?_, entered := ?_ }
    · intro o member
      rcases List.mem_cons.mp member with rfl | before
      · exact ⟨file, sent, by simp [read]⟩
      · exact tied.right o before
    · intro o member moves
      rcases List.mem_cons.mp member with rfl | before
      · cases moves
      · exact tied.moved o before moves
    · intro o member
      exact ⟨List.mem_cons_of_mem _ (tied.entered o member).1, (tied.entered o member).2⟩
  | ok req =>
    have effect := handle_effect payer ts tip seen s.ledger id number req
    have unmoved : (handle payer ts tip seen s.ledger id req).2.moved = false →
        (handle payer ts tip seen s.ledger id req).1 = s.ledger := by
      intro still
      rcases effect with ⟨_, same⟩ | effect
      · exact same
      · exact effect.unmoved still
    have right : (handle payer ts tip seen s.ledger id req).2.retry = false →
        Right s.requests (outcome payer ts tip seen s.ledger id number req) := by
      intro final
      refine ⟨file, sent, ?_⟩
      rcases effect with ⟨retry, _⟩ | effect
      · exact absurd (final.symm.trans retry) (by simp)
      · change match readRequest id file with
          | .error e => _
          | .ok req => _
        rw [read]
        exact effect
    change Tied start { s with
      ledger := (outcome payer ts tip seen s.ledger id number req).after
      disk := if (outcome payer ts tip seen s.ledger id number req).reply.moved then
        (outcome payer ts tip seen s.ledger id number req).after else s.disk
      stage := .applied id number (outcome payer ts tip seen s.ledger id number req).reply rest
      journal := if (outcome payer ts tip seen s.ledger id number req).reply.moved then
        .asked (outcome payer ts tip seen s.ledger id number req) :: s.journal else s.journal
      diskJournal := if (outcome payer ts tip seen s.ledger id number req).reply.moved then
        .asked (outcome payer ts tip seen s.ledger id number req) :: s.journal else s.diskJournal
      outcomes := if (outcome payer ts tip seen s.ledger id number req).reply.retry then s.outcomes
        else outcome payer ts tip seen s.ledger id number req :: s.outcomes }
    have found : (outcome payer ts tip seen s.ledger id number req).before = s.ledger := rfl
    change (outcome payer ts tip seen s.ledger id number req).reply.moved = false →
      (outcome payer ts tip seen s.ledger id number req).after = s.ledger at unmoved
    change (outcome payer ts tip seen s.ledger id number req).reply.retry = false → _ at right
    generalize outcome payer ts tip seen s.ledger id number req = o at unmoved right found
    exact tied.enter found unmoved right

/-- One step ties what it does to the ledger. -/
theorem Tied.step (tied : s.Tied start) (sound : s.Sound) (op : DirectoryOp) : (s.step op).Tied start := by
  cases op with
  | write id file => exact { tied with right := fun o member => (tied.right o member).append _ }
  | book carryDelta books =>
    refine { tied with replayed := .book carryDelta books tied.replayed, entered := fun o member => ?_ }
    exact tied.entered o (member.imp_left fun entered => by simpa [Directory.step] using entered)
  | other l =>
    refine { tied with replayed := .other l tied.replayed, entered := fun o member => ?_ }
    exact tied.entered o (member.imp_left fun entered => by simpa [Directory.step] using entered)
  | persist =>
    exact { tied with
      saved := tied.replayed
      savedMoves := rfl
      entered := fun o member => tied.entered o (.inl (or_self_iff.mp member)) }
  | list | log | remove =>
    simp only [Directory.step]
    split <;> exact { tied with }
  | read elapsed =>
    simp only [Directory.step]
    split
    · exact { tied with }
    · split
      · exact { tied with }
      · split <;> exact { tied with }
    · exact tied
  | apply payer ts tip =>
    simp only [Directory.step]
    split
    · rename_i reading
      exact tied.apply sound reading payer ts tip
    · exact tied
  | reply =>
    simp only [Directory.step]
    split
    · unfold answer
      split <;> exact { tied with }
    · exact tied
  | crash =>
    have same : (s.step .crash).moves = s.moves := tied.savedMoves
    refine ⟨tied.saved, tied.saved, rfl, tied.right, ?_,
      fun o member => tied.entered o (.inr (or_self_iff.mp member))⟩
    rw [same]
    exact tied.moved

end Tied

section Serve

variable {t : Directory} {id : String} {number : Nat} {rest : List String}
  (payer : Payer) (ts : Nat) (tip : Option Nat)

/-- The poll has gone on, and as for other ids the directory is what it was. -/
structure Past (s t : Directory) (id : String) : Prop where
  requests : t.requests = s.requests
  handled : ∀ number ∈ s.handled, number ∈ t.handled
  files : ∀ other, other ≠ id → t.files.lookup other = s.files.lookup other
  fewer : ∀ other number, t.files.lookup other = some number → s.files.lookup other = some number
  answers : ∀ other, other ≠ id → t.answers.lookup other = s.answers.lookup other

theorem Past.refl (s : Directory) (id : String) : Past s s id :=
  ⟨rfl, fun _ before => before, fun _ _ => rfl, fun _ _ found => found, fun _ _ => rfl⟩

theorem Past.trans {u : Directory} (first : Past s t id) (second : Past t u id) : Past s u id where
  requests := second.requests.trans first.requests
  handled number before := second.handled number (first.handled number before)
  files other differs := (second.files other differs).trans (first.files other differs)
  fewer other number found := first.fewer other number (second.fewer other number found)
  answers other differs := (second.answers other differs).trans (first.answers other differs)

end Serve

section Twice

end Twice

end Directory

end Lazarus.Primed
