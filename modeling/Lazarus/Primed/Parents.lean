import Lazarus.Lib.Along
import Lazarus.Lib.Table
import Lazarus.Wire.Pow

/-! Parents that gateways build on and our tip is not. A parent is judged by what our node says of it; the node
is asked outside the book, and its answers are put down when they come. -/

namespace Lazarus.Primed

open Wire

section Book

/-- Nanoseconds in a second, the clock's unit. -/
def oneSecond : Nat := 1000000000

/-- How long a parent our node has not seen is given to arrive. -/
def parentGrace : Nat := 30 * oneSecond

/-- How often the node is asked again. -/
def parentRecheck : Nat := 10 * oneSecond

def parentMax : Nat := 4096

def parentKeep : Nat := 6 * 3600 * oneSecond

inductive ParentState where
  /-- Not asked yet, or the node could not answer. -/
  | unknown
  | known
  | unseen
  | invalid
deriving DecidableEq

structure ParentEntry where
  state : ParentState
  firstSeen : Nat
  asked : Option Nat
deriving DecidableEq

inductive ParentVerdict where
  | take
  | invalid
  | unseen
deriving DecidableEq

abbrev ParentBook := Table Hash ParentEntry

def verdict (e : ParentEntry) (now : Nat) : ParentVerdict :=
  match e.state with
  | .invalid => .invalid
  | .unseen => if parentGrace ≤ now - e.firstSeen then .unseen else .take
  | _ => .take

namespace ParentBook

/-- The entries that are not too old. -/
def young (book : ParentBook) (now : Nat) : ParentBook :=
  book.retain fun key => (book.get? key).any fun e => now - e.firstSeen < parentKeep

/-- The book with room for a parent. A full one forgets what is old, and everything if that is not enough. -/
def room (book : ParentBook) (prev : Hash) (now : Nat) : ParentBook :=
  if parentMax ≤ book.size ∧ book.get? prev = none then
    if parentMax ≤ (book.young now).size then ∅ else book.young now
  else book

/-- The verdict from what is already known, and whether the node should be asked now. -/
def lookup (book : ParentBook) (prev : Hash) (now : Nat) : (ParentVerdict × Bool) × ParentBook :=
  let entries := book.room prev now
  let e := (entries.get? prev).getD { state := .unknown, firstSeen := now, asked := none }
  let ask := e.state ≠ .invalid && e.asked.all fun t => parentRecheck ≤ now - t
  let e := if ask then { e with asked := some now } else e
  ((verdict e now, ask), AList.insert prev e entries)

/-- Put down an answer. Invalid stays invalid; an answer the node could not give changes nothing. -/
def record (book : ParentBook) (prev : Hash) (state : ParentState) (now : Nat) : ParentVerdict × ParentBook :=
  let e := (book.get? prev).getD { state, firstSeen := now, asked := some now }
  let e := if e.state ≠ .invalid ∧ state ≠ .unknown then { e with state } else e
  (verdict e now, AList.insert prev e book)

end ParentBook

end Book

section Node

/-- What the node said of a header: that it has it, that it does not, or nothing. -/
inductive HeaderReply where
  | found
  | notFound
  | failed
deriving DecidableEq

/-- What the node was asked about a parent: its header, and the tips it knows by hash and status, none where it
could not say. -/
structure NodeReply where
  header : HeaderReply
  tips : Option (List (Option String × Option String)) := none
deriving DecidableEq

def hexEncode (bytes : Bytes) : String :=
  String.ofList (bytes.flatMap fun b => [Nat.digitChar (b.toNat / 16), Nat.digitChar (b.toNat % 16)])

/-- A block's hash as the node writes it. -/
def nodeHash (prevLe : Hash) : String := hexEncode prevLe.val.reverse

def parentState (prevLe : Hash) (reply : NodeReply) : ParentState :=
  match reply.header with
  | .found =>
    match reply.tips with
    | some tips =>
      if tips.any fun t => t.1 = some (nodeHash prevLe) ∧ t.2 = some "invalid" then .invalid else .known
    | none => .known
  | .notFound => .unseen
  | .failed => .unknown

end Node

section Judging

/-- The sessions' calls so far: the book, the calls that asked the node, the answers that are in by the number
of the call that asked, and every parent named with its moment. -/
structure Judging where
  book : ParentBook := ∅
  asks : List (Hash × Nat) := []
  answers : List (Nat × Hash × ParentState) := []
  named : List (Hash × Nat) := []

/-- A call that comes in, or the node's answer to one that asked. -/
inductive ParentEvent where
  | call (prev : Hash) (now : Nat)
  | answer (ask : Nat) (reply : NodeReply)

namespace Judging

/-- A step of `parent_verdict`: up to its verdict where the node is not asked, up to the question where it is,
and from the answer to its verdict. -/
def take (s : Judging) : ParentEvent → Judging × Option (Hash × Nat × ParentVerdict)
  | .call prev now =>
    let ((v, ask), book) := s.book.lookup prev now
    let s := { s with book, named := s.named ++ [(prev, now)] }
    if ask then ({ s with asks := s.asks ++ [(prev, now)] }, none) else (s, some (prev, now, v))
  | .answer k reply =>
    match s.asks[k]? with
    | none => (s, none)
    | some (prev, now) =>
      if k ∈ s.answers.map Prod.fst then (s, none)
      else
        let state := parentState prev reply
        let (v, book) := s.book.record prev state now
        ({ s with book, answers := s.answers ++ [(k, prev, state)] }, some (prev, now, v))

def step (s : Judging) (e : ParentEvent) : Judging := (s.take e).1

/-- The verdict that a step gives. -/
def judged (s : Judging) (e : ParentEvent) : Option (Hash × Nat × ParentVerdict) := (s.take e).2

/-- The answers that are in about a parent. -/
def answersOf (s : Judging) (prev : Hash) : List ParentState :=
  (s.answers.filter fun a => a.2.1 = prev).map (·.2.2)

def firstNamed (s : Judging) (prev : Hash) : Option Nat :=
  (s.named.find? fun call => call.1 = prev).map Prod.snd

/-- The node's answers have all been that it never saw the parent, and there is one. -/
def NeverSeen (s : Judging) (prev : Hash) : Prop :=
  .unseen ∈ s.answersOf prev ∧ ∀ state ∈ s.answersOf prev, state = .unseen ∨ state = .unknown

/-- Of the answers the node gave about a parent, this one was asked for last. -/
def Latest (s : Judging) (prev : Hash) (state : ParentState) : Prop :=
  state ≠ .unknown ∧ ∃ k, (k, prev, state) ∈ s.answers ∧
    ∀ answer ∈ s.answers, answer.2.1 = prev → answer.2.2 ≠ .unknown → answer.1 ≤ k

end Judging

end Judging

namespace ParentBook

variable {book : ParentBook} {prev other : Hash} {now : Nat} {state : ParentState} {e : ParentEntry}

/-- Whether room for another parent is made at this one's cost. -/
def Forgets (book : ParentBook) (other : Hash) (now : Nat) (prev : Hash) : Prop :=
  (book.get? prev).isSome ∧ (book.room other now).get? prev = none

theorem get?_room (book : ParentBook) (other prev : Hash) (now : Nat) :
    (book.room other now).get? prev = book.get? prev ∨ (book.room other now).get? prev = none := by
  rw [room]
  split_ifs
  · exact .inr (Table.get?_empty prev)
  · rw [young, Table.get?_retain]
    split_ifs
    · exact .inl rfl
    · exact .inr rfl
  · exact .inl rfl

/-- A parent that is in the book has room. -/
theorem room_of_mem (present : book.get? prev = some e) : book.room prev now = book := by
  rw [room, if_neg fun full => Option.some_ne_none e (present.symm.trans full.2)]

theorem get?_room_of_spared (spared : ¬ book.Forgets other now prev) :
    (book.room other now).get? prev = book.get? prev := by
  obtain kept | gone := get?_room book other prev now
  · exact kept
  · cases present : book.get? prev with
    | none => exact gone
    | some e => exact absurd ⟨by rw [present]; rfl, gone⟩ spared

/-- The entry a call finds or makes. -/
def found (book : ParentBook) (prev : Hash) (now : Nat) : ParentEntry :=
  ((book.room prev now).get? prev).getD { state := .unknown, firstSeen := now, asked := none }

/-- What a call leaves in the book: its own entry, with nothing but the moment it was asked about changed, and
what there was room for. -/
theorem lookup_book (book : ParentBook) (prev : Hash) (now : Nat) : ∃ asked,
    (book.lookup prev now).2 = AList.insert prev { book.found prev now with asked } (book.room prev now) := by
  simp only [lookup]
  split_ifs with asks
  · exact ⟨some now, rfl⟩
  · exact ⟨(book.found prev now).asked, rfl⟩

theorem get?_lookup (book : ParentBook) (prev : Hash) (now : Nat) :
    ∃ asked, ∀ other, (book.lookup prev now).2.get? other =
    if other = prev then some { book.found prev now with asked } else (book.room prev now).get? other := by
  obtain ⟨asked, left⟩ := lookup_book book prev now
  exact ⟨asked, fun other => by rw [left, Table.get?_insert]⟩

theorem lookup_verdict (book : ParentBook) (prev : Hash) (now : Nat) : ∃ e,
    (book.lookup prev now).2.get? prev = some e ∧ (book.lookup prev now).1.1 = verdict e now := by
  refine ⟨_, ?_, rfl⟩
  rw [lookup, Table.get?_insert, if_pos rfl]

/-- The entry with an answer put down. -/
def settled (book : ParentBook) (prev : Hash) (state : ParentState) (now : Nat) : ParentEntry :=
  let e := (book.get? prev).getD { state, firstSeen := now, asked := some now }
  if e.state ≠ .invalid ∧ state ≠ .unknown then { e with state } else e

theorem get?_record (book : ParentBook) (prev other : Hash) (state : ParentState) (now : Nat) :
    (book.record prev state now).2.get? other =
      if other = prev then some (book.settled prev state now) else book.get? other := by
  rw [record, Table.get?_insert]
  rfl

/-- What an answer makes of what is known. -/
def settle (before answer : ParentState) : ParentState :=
  if before ≠ .invalid ∧ answer ≠ .unknown then answer else before

theorem settled_of_mem (state : ParentState) (now : Nat) (present : book.get? prev = some e) :
    (book.settled prev state now).state = settle e.state state ∧
      (book.settled prev state now).firstSeen = e.firstSeen := by
  simp only [settled, present, Option.getD_some, settle]
  split_ifs
  · exact ⟨rfl, rfl⟩
  · exact ⟨rfl, rfl⟩

theorem settled_of_notMem (state : ParentState) (now : Nat) (absent : book.get? prev = none) :
    (book.settled prev state now).state = state := by
  simp only [settled, absent, Option.getD_none]
  split_ifs <;> rfl

end ParentBook

namespace Judging

variable {s : Judging} {e : ParentEvent} {prev p : Hash} {now : Nat} {v : ParentVerdict}

section Steps

/-- What a step does: a call names a parent and looks it up, an answer that is awaited is put down, and one
that is not does nothing. -/
theorem step_cases (s : Judging) (e : ParentEvent) :
    (∃ prev now, e = .call prev now ∧ (s.step e).book = (s.book.lookup prev now).2 ∧
      (s.step e).answers = s.answers ∧ (s.step e).named = s.named ++ [(prev, now)] ∧
      ((s.step e).asks = s.asks ++ [(prev, now)] ∧ s.judged e = none ∨
        (s.step e).asks = s.asks ∧ s.judged e = some (prev, now, (s.book.lookup prev now).1.1))) ∨
    (∃ k reply prev now, e = .answer k reply ∧ s.asks[k]? = some (prev, now) ∧ k ∉ s.answers.map Prod.fst ∧
      (s.step e).book = (s.book.record prev (parentState prev reply) now).2 ∧
      (s.step e).answers = s.answers ++ [(k, prev, parentState prev reply)] ∧ (s.step e).named = s.named ∧
      (s.step e).asks = s.asks ∧
      s.judged e = some (prev, now, (s.book.record prev (parentState prev reply) now).1)) ∨
    s.step e = s ∧ s.judged e = none := by
  cases e with
  | call prev now =>
    refine .inl ⟨prev, now, rfl, ?_⟩
    simp only [step, judged, take]
    cases (s.book.lookup prev now).1.2 with
    | true => exact ⟨rfl, rfl, rfl, .inl ⟨rfl, rfl⟩⟩
    | false => exact ⟨rfl, rfl, rfl, .inr ⟨rfl, rfl⟩⟩
  | answer k reply =>
    refine .inr ?_
    simp only [step, judged, take]
    cases asked : s.asks[k]? with
    | none => exact .inr ⟨rfl, rfl⟩
    | some ask =>
      by_cases again : k ∈ s.answers.map Prod.fst
      · exact .inr (by simp only [if_pos again, and_self])
      · refine .inl ⟨k, reply, ask.1, ask.2, rfl, asked, again, ?_⟩
        simp only [if_neg again, and_self]

/-- A verdict is that of the entry the step leaves. -/
theorem judged_entry (given : s.judged e = some (p, now, v)) :
    ∃ entry, (s.step e).book.get? p = some entry ∧ v = verdict entry now := by
  obtain ⟨prev, moment, -, book, -, -, ⟨-, asked⟩ | ⟨-, decided⟩⟩ |
    ⟨k, reply, prev, moment, -, -, -, book, -, -, -, decided⟩ | ⟨-, idle⟩ := step_cases s e
  · cases given.symm.trans asked
  · cases given.symm.trans decided
    rw [book]
    exact ParentBook.lookup_verdict s.book p now
  · cases given.symm.trans decided
    rw [book, ParentBook.get?_record, if_pos rfl]
    exact ⟨_, rfl, rfl⟩
  · cases given.symm.trans idle

end Steps

section Spared

/-- No call makes room at the parent's cost. -/
def Spares (p : Hash) (s : Judging) : ParentEvent → Prop
  | .call prev now => ¬ s.book.Forgets prev now p
  | .answer _ _ => True

/-- What the book says of a parent it has never forgotten: when it was first named, and the
answers put together. -/
structure Remembered (p : Hash) (s : Judging) : Prop where
  asked : ∀ ask ∈ s.asks, ask.1 = p → (s.firstNamed p).isSome
  unnamed : s.firstNamed p = none → s.book.get? p = none
  entry : ∀ first, s.firstNamed p = some first → ∃ e, s.book.get? p = some e ∧ e.firstSeen = first ∧
    e.state = (s.answersOf p).foldl ParentBook.settle .unknown
  answered : s.firstNamed p = none → s.answersOf p = []

theorem firstNamed_append (named : (s.step e).named = s.named ++ [(prev, now)]) (p : Hash) :
    (s.step e).firstNamed p = (s.firstNamed p).or (if prev = p then some now else none) := by
  rw [firstNamed, firstNamed, named, List.find?_append]
  cases s.named.find? fun call => call.1 = p with
  | some call => rfl
  | none =>
    by_cases same : prev = p
    · simp [same]
    · simp [same]

theorem answersOf_append {k : Nat} {state : ParentState}
    (answers : (s.step e).answers = s.answers ++ [(k, prev, state)])
    (p : Hash) : (s.step e).answersOf p = s.answersOf p ++ if prev = p then [state] else [] := by
  rw [answersOf, answersOf, answers, List.filter_append, List.map_append]
  by_cases same : prev = p
  · simp [same]
  · simp [same]

theorem remembered_start (p : Hash) : Remembered p {} where
  asked := nofun
  unnamed := fun _ => rfl
  entry := nofun
  answered := fun _ => rfl

/-- A call keeps what is remembered of a parent, if it does not make room at its cost. -/
theorem Remembered.call (kept : Remembered p s) (spared : ¬ s.book.Forgets prev now p)
    (book : (s.step e).book = (s.book.lookup prev now).2) (answers : (s.step e).answers = s.answers)
    (named : (s.step e).named = s.named ++ [(prev, now)])
    (asks : ∀ ask ∈ (s.step e).asks, ask ∈ s.asks ∨ ask = (prev, now)) : Remembered p (s.step e) := by
  obtain ⟨asked, left⟩ := ParentBook.get?_lookup s.book prev now
  have first := firstNamed_append named p
  have same : (s.step e).answersOf p = s.answersOf p := by rw [answersOf, answersOf, answers]
  have entryOf : (s.step e).book.get? p = _ := (congrArg (Table.get? · p) book).trans (left p)
  by_cases ours : p = prev
  · subst ours
    rw [if_pos rfl] at first entryOf
    have someNamed : ((s.firstNamed p).or (some now)).isSome := by simp
    refine ⟨fun _ _ _ => first ▸ someNamed, fun none => ?_, fun moment at_ => ?_, fun none => ?_⟩
    · rw [← first, none] at someNamed
      cases someNamed
    · rw [entryOf, same]
      refine ⟨_, rfl, ?_⟩
      cases before : s.firstNamed p with
      | none =>
        rw [first, before] at at_
        have absent : s.book.get? p = none := kept.unnamed before
        have roomed : (s.book.room p now).get? p = none := (ParentBook.get?_room_of_spared spared).trans absent
        rw [kept.answered before, ParentBook.found, roomed]
        exact ⟨Option.some.inj at_, rfl⟩
      | some earlier =>
        rw [first, before] at at_
        obtain ⟨entry, present, moment', state⟩ := kept.entry earlier before
        rw [ParentBook.found, ParentBook.room_of_mem present, present]
        exact ⟨moment'.trans (Option.some.inj at_), state⟩
    · rw [← first, none] at someNamed
      cases someNamed
  · rw [if_neg (Ne.symm ours), Option.or_none] at first
    rw [if_neg ours, ParentBook.get?_room_of_spared spared] at entryOf
    refine ⟨fun ask member about => ?_, fun none => ?_, fun moment at_ => ?_, fun none => ?_⟩
    · rw [first]
      cases asks ask member with
      | inl old => exact kept.asked ask old about
      | inr new => exact absurd (about.symm.trans (congrArg Prod.fst new)) ours
    · rw [entryOf]
      exact kept.unnamed (first ▸ none)
    · rw [entryOf, same]
      exact kept.entry moment (first ▸ at_)
    · rw [same]
      exact kept.answered (first ▸ none)

/-- So does an answer, which is put together with those before it. -/
theorem Remembered.answer {k : Nat} {state : ParentState} (kept : Remembered p s)
    (awaited : s.asks[k]? = some (prev, now)) (book : (s.step e).book = (s.book.record prev state now).2)
    (answers : (s.step e).answers = s.answers ++ [(k, prev, state)]) (named : (s.step e).named = s.named)
    (asks : (s.step e).asks = s.asks) : Remembered p (s.step e) := by
  have first : (s.step e).firstNamed p = s.firstNamed p := by rw [firstNamed, firstNamed, named]
  have together := answersOf_append answers p
  have entryOf : (s.step e).book.get? p = _ :=
    (congrArg (Table.get? · p) book).trans (ParentBook.get?_record s.book prev p state now)
  have asked : ∀ ask ∈ (s.step e).asks, ask.1 = p → ((s.step e).firstNamed p).isSome := by
    rw [first, asks]
    exact kept.asked
  by_cases ours : p = prev
  · subst ours
    rw [if_pos rfl] at together entryOf
    obtain ⟨moment, found⟩ := Option.isSome_iff_exists.mp (kept.asked _ (List.mem_of_getElem? awaited) rfl)
    refine ⟨asked, fun none => ?_, fun earlier at_ => ?_, fun none => ?_⟩
    · cases found.symm.trans (first.symm.trans none)
    · obtain ⟨entry, present, moment', known⟩ := kept.entry earlier (first ▸ at_)
      obtain ⟨after, unmoved⟩ := ParentBook.settled_of_mem state now present
      refine ⟨_, entryOf, unmoved.trans moment', ?_⟩
      rw [after, together, List.foldl_append, known]
      rfl
    · cases found.symm.trans (first.symm.trans none)
  · rw [if_neg (Ne.symm ours), List.append_nil] at together
    rw [if_neg ours] at entryOf
    refine ⟨asked, fun none => ?_, fun moment at_ => ?_, fun none => ?_⟩
    · rw [entryOf]
      exact kept.unnamed (first ▸ none)
    · rw [entryOf, together]
      exact kept.entry moment (first ▸ at_)
    · rw [together]
      exact kept.answered (first ▸ none)

theorem Remembered.step (kept : Remembered p s) (spared : Spares p s e) : Remembered p (s.step e) := by
  obtain ⟨prev, now, rfl, book, answers, named, asks⟩ | ⟨k, reply, prev,
    now, -, awaited, -, book, answers, named, asks, -⟩ | ⟨idle, -⟩ := step_cases s e
  · refine kept.call spared book answers named fun ask member => ?_
    obtain ⟨grown, -⟩ | ⟨same, -⟩ := asks
    · rw [grown] at member
      exact (List.mem_append.mp member).imp_right List.mem_singleton.mp
    · exact .inl (same ▸ member)
  · exact kept.answer awaited book answers named asks
  · rwa [idle]

end Spared

section InOrder

/-- What the node says of the parent comes in the order it was asked in, and it does not take back that
the parent is invalid. -/
def InOrder (p : Hash) (s : Judging) : ParentEvent → Prop
  | .call _ _ => True
  | .answer k reply => ∀ now, s.asks[k]? = some (p, now) → parentState p reply ≠ .unknown →
      (∀ answer ∈ s.answers, answer.2.1 = p → answer.2.2 ≠ .unknown → answer.1 < k) ∧
        (parentState p reply = .known → ∀ e, s.book.get? p = some e → e.state ≠ .invalid)

/-- A parent the node was last said to have is held to be known, unless it is forgotten. -/
def Heeded (p : Hash) (s : Judging) : Prop :=
  s.Latest p .known → ∀ e, s.book.get? p = some e → e.state = .known ∨ e.state = .unknown

/-- Answers about other parents, and those the node could not give, are no later answer. -/
theorem latest_of_append {k : Nat} {state : ParentState}
    (answers : (s.step e).answers = s.answers ++ [(k, prev, state)])
    (beside : prev ≠ p ∨ state = .unknown) (latest : (s.step e).Latest p .known) : s.Latest p .known := by
  obtain ⟨said, j, member, last⟩ := latest
  rw [answers] at member last
  refine ⟨said, j, ?_, fun answer old => last answer (List.mem_append_left _ old)⟩
  cases List.mem_append.mp member with
  | inl old => exact old
  | inr new =>
    obtain ⟨-, about, state'⟩ := Prod.mk.inj (List.mem_singleton.mp new) |>.imp_right Prod.mk.inj
    cases beside with
    | inl elsewhere => exact absurd about.symm elsewhere
    | inr unsaid => exact absurd (state'.trans unsaid) said

theorem Heeded.call (heeded : Heeded p s) (book : (s.step e).book = (s.book.lookup prev now).2)
    (answers : (s.step e).answers = s.answers) : Heeded p (s.step e) := by
  intro latest entry present
  have before : s.Latest p .known := by rwa [Latest, answers] at latest
  obtain ⟨asked, left⟩ := ParentBook.get?_lookup s.book prev now
  rw [book, left] at present
  by_cases ours : p = prev
  · subst ours
    rw [if_pos rfl] at present
    rw [← Option.some.inj present, ParentBook.found]
    obtain same | gone := ParentBook.get?_room s.book p p now
    · rw [same]
      cases held : s.book.get? p with
      | none => exact .inr rfl
      | some e => exact heeded before e held
    · rw [gone]
      exact .inr rfl
  · rw [if_neg ours] at present
    obtain same | gone := ParentBook.get?_room s.book prev p now
    · exact heeded before entry (same ▸ present)
    · cases gone.symm.trans present

theorem Heeded.answer {k : Nat} {reply : NodeReply} (heeded : Heeded p s)
    (inOrder : InOrder p s (.answer k reply)) (awaited : s.asks[k]? = some (prev, now))
    (book : (s.step e).book = (s.book.record prev (parentState prev reply) now).2)
    (answers : (s.step e).answers = s.answers ++ [(k, prev, parentState prev reply)]) :
    Heeded p (s.step e) := by
  intro latest entry present
  rw [book, ParentBook.get?_record] at present
  by_cases ours : p = prev
  · subst ours
    rw [if_pos rfl] at present
    rw [← Option.some.inj present]
    by_cases unsaid : parentState p reply = .unknown
    · have before := latest_of_append answers (.inr unsaid) latest
      cases held : s.book.get? p with
      | none => exact .inr ((ParentBook.settled_of_notMem _ now held).trans unsaid)
      | some e =>
        have same : ParentBook.settle e.state (parentState p reply) = e.state := by
          simp [ParentBook.settle, unsaid]
        rw [(ParentBook.settled_of_mem _ now held).1, same]
        exact heeded before e held
    · obtain ⟨later, kept⟩ := inOrder now awaited unsaid
      obtain ⟨-, j, member, last⟩ := latest
      rw [answers] at member last
      -- the answer asked for last is this one, as every other of the parent's was asked for before it
      have known : parentState p reply = .known := by
        cases List.mem_append.mp member with
        | inl old =>
          have before := later _ old rfl nofun
          have after := last _ (List.mem_append_right _ List.mem_cons_self) rfl unsaid
          exact absurd before (not_lt.mpr after)
        | inr new => exact (Prod.mk.inj (Prod.mk.inj (List.mem_singleton.mp new)).2).2.symm
      cases held : s.book.get? p with
      | none => exact .inl ((ParentBook.settled_of_notMem _ now held).trans known)
      | some e =>
        have taken : ParentBook.settle e.state (parentState p reply) = .known := by
          simp [ParentBook.settle, known, kept known e held]
        exact .inl ((ParentBook.settled_of_mem _ now held).1.trans taken)
  · rw [if_neg ours] at present
    exact heeded (latest_of_append answers (.inl (Ne.symm ours)) latest) entry present

theorem Heeded.step (heeded : Heeded p s) (inOrder : InOrder p s e) : Heeded p (s.step e) := by
  obtain ⟨prev, now, rfl, book, answers, -, -⟩ | ⟨k, reply, prev, now,
    rfl, awaited, -, book, answers, -, -, -⟩ | ⟨idle, -⟩ := step_cases s e
  · exact heeded.call book answers
  · exact heeded.answer inOrder awaited book answers
  · rwa [idle]

end InOrder

section Verdicts

/-- Answers that are all that the node never saw a parent make it unseen. -/
theorem foldl_settle_unseen {states : List ParentState}
    (only : ∀ state ∈ states, state = .unseen ∨ state = .unknown)
    {start : ParentState} (sofar : start = .unseen ∨ start = .unknown)
    (some_ : start = .unseen ∨ .unseen ∈ states) :
    states.foldl ParentBook.settle start = .unseen := by
  induction states generalizing start with
  | nil => exact some_.resolve_right List.not_mem_nil
  | cons first rest ih =>
    obtain ⟨here, only⟩ := List.forall_mem_cons.mp only
    rw [List.foldl_cons]
    cases here with
    | inl unseen =>
      have next : ParentBook.settle start first = .unseen := by
        cases sofar with
        | inl same => simp [ParentBook.settle, same, unseen]
        | inr fresh => simp [ParentBook.settle, fresh, unseen]
      exact ih only (.inl next) (.inl next)
    | inr unknown =>
      have next : ParentBook.settle start first = start := by simp [ParentBook.settle, unknown]
      rw [next]
      refine ih only sofar (some_.imp_right fun member => ?_)
      exact (List.mem_cons.mp member).resolve_left (by simp [unknown])

/-- An answer that a parent is invalid is never outdone. -/
theorem foldl_settle_invalid {states : List ParentState} {start : ParentState}
    (some_ : start = .invalid ∨ .invalid ∈ states) : states.foldl ParentBook.settle start = .invalid := by
  induction states generalizing start with
  | nil => exact some_.resolve_right List.not_mem_nil
  | cons first rest ih =>
    rw [List.foldl_cons]
    apply ih
    by_cases before : start = .invalid
    · exact .inl (by simp [ParentBook.settle, before])
    · cases List.mem_cons.mp (some_.resolve_left before) with
      | inl here => exact .inl (by simp [ParentBook.settle, before, ← here])
      | inr later => exact .inr later

/-- **Work on a dead parent earns nothing after the grace, as long as the book does not forget it**: a parent
the node has only ever not found is taken within the grace of its first naming only, and one it called invalid
never; and where the answers come in order, a parent the node has is not refused. -/
theorem dead_parent_refused (p : Hash) (run : List ParentEvent) (e : ParentEvent)
    (now : Nat) (v : ParentVerdict) (given : (run.foldl step {}).judged e = some (p, now, v)) :
    (Run.Along (Spares p) step {} (run ++ [e]) →
      (∀ first, ((run ++ [e]).foldl step {}).firstNamed p = some first →
        ((run ++ [e]).foldl step {}).NeverSeen p → v = .take → now < first + parentGrace) ∧
      (.invalid ∈ ((run ++ [e]).foldl step {}).answersOf p → v ≠ .take)) ∧
    (Run.Along (InOrder p) step {} (run ++ [e]) → ((run ++ [e]).foldl step {}).Latest p .known →
      v = .take) := by
  obtain ⟨entry, present, decided⟩ := judged_entry given
  have last : (run ++ [e]).foldl step {} = (run.foldl step {}).step e := List.foldl_concat ..
  rw [← last] at present
  constructor
  · intro spared
    have kept :=
      Run.foldl_invariant (Remembered p) (fun s e kept spared => kept.step spared) spared (remembered_start p)
    refine ⟨fun first named unseen taken => ?_, fun rejected taken => ?_⟩
    · obtain ⟨entry', present', moment, state⟩ := kept.entry first named
      cases present.symm.trans present'
      rw [foldl_settle_unseen unseen.2 (.inr rfl) (.inr unseen.1)] at state
      rw [decided, verdict, state] at taken
      dsimp only at taken
      split_ifs at taken with late
      omega
    · have isNamed : (((run ++ [e]).foldl step {}).firstNamed p).isSome := by
        by_contra unnamed
        rw [kept.answered (Option.not_isSome_iff_eq_none.mp unnamed)] at rejected
        cases rejected
      obtain ⟨first, named⟩ := Option.isSome_iff_exists.mp isNamed
      obtain ⟨entry', present', -, state⟩ := kept.entry first named
      cases present.symm.trans present'
      rw [foldl_settle_invalid (.inr rejected)] at state
      rw [decided, verdict, state] at taken
      cases taken
  · intro inOrder latest
    have heeded := Run.foldl_invariant (Heeded p) (fun s e heeded inOrder => heeded.step inOrder) inOrder
      (fun _ e held => nomatch held)
    rw [decided, verdict]
    cases heeded latest entry present with
    | inl known => rw [known]
    | inr unknown => rw [unknown]

/-- A parent that the sessions name. -/
def deadParent : Hash := ⟨List.replicate 32 7, rfl⟩

/-- The dead parent named, and the node's answer that it never saw it. -/
def opening : List ParentEvent := [.call deadParent 0, .answer 0 ⟨.notFound, none⟩]

/-- Calls about the dead parent after the grace, the first of which asks again. -/
def afterGrace : List ParentEvent := opening ++ [.call deadParent (35 * oneSecond)]

@[inherit_doc afterGrace]
def lastCall : ParentEvent := .call deadParent (37 * oneSecond)

theorem dead_parent_refused_afterGrace :
    ((∀ first, ((afterGrace ++ [lastCall]).foldl step {}).firstNamed deadParent = some first →
        ((afterGrace ++ [lastCall]).foldl step {}).NeverSeen deadParent →
        ParentVerdict.unseen = .take → 37 * oneSecond < first + parentGrace) ∧
      (ParentState.invalid ∈ ((afterGrace ++ [lastCall]).foldl step {}).answersOf deadParent →
        ParentVerdict.unseen ≠ .take)) ∧
    (((afterGrace ++ [lastCall]).foldl step {}).Latest deadParent .known → ParentVerdict.unseen = .take) := by
  have spared : Run.Along (Spares deadParent) step {} (afterGrace ++ [lastCall]) := by
    refine ⟨?_, trivial, ?_, ?_, trivial⟩
    all_goals
      change ¬ (_ ∧ _)
      decide
  have inOrder : Run.Along (InOrder deadParent) step {} (afterGrace ++ [lastCall]) := by
    refine ⟨trivial, fun _ _ _ => ⟨nofun, fun known => ?_⟩, trivial, trivial, trivial⟩
    revert known
    decide
  obtain ⟨refused, taken⟩ :=
    dead_parent_refused deadParent afterGrace lastCall (37 * oneSecond) .unseen (by decide)
  exact ⟨refused spared, taken inOrder⟩

/-- Found by the node in time, and one late answer from before. -/
def lateAnswer : List ParentEvent :=
  [.call deadParent 0, .answer 0 ⟨.notFound, none⟩, .call deadParent (25 * oneSecond),
    .call deadParent (35 * oneSecond), .answer 2 ⟨.found, some []⟩, .answer 1 ⟨.notFound, none⟩]

example : (lateAnswer.foldl step {}).judged (.call deadParent (37 * oneSecond)) =
    some (deadParent, 37 * oneSecond, .unseen) := by decide

/-- Parents that nobody has, all different. -/
def invented (i : Nat) : Hash := Fixed.ofNat 32 i

theorem invented_ne {i j : Nat} (small : i < parentMax) (small' : j < parentMax)
    (other : i ≠ j) : invented i ≠ invented j := by
  intro same
  have value := congrArg (fun hash : Hash => LittleEndian.value hash.val) same
  simp only [invented, Fixed.ofNat, LittleEndian.value_bytes] at value
  rw [Nat.mod_eq_of_lt (lt_trans small (by decide)), Nat.mod_eq_of_lt (lt_trans small' (by decide))] at value
  exact other value

/-- Calls that name so many of them, a second after the first call. -/
def flood (count : Nat) : List ParentEvent := (List.range count).map fun i => .call (invented i) oneSecond

theorem size_insert_of_none {book : ParentBook} {e : ParentEntry} (absent : book.get? prev = none) :
    Table.size (AList.insert prev e book) = book.size + 1 := by
  have notMem : prev ∉ book := AList.lookup_eq_none.mp absent
  rw [Table.size, AList.entries_insert, List.length_cons, List.kerase_of_notMem_keys notMem, Table.size]

/-- Nothing is too old a second after the clock started. -/
theorem size_young (book : ParentBook) : (book.young oneSecond).size = book.size := by
  refine congrArg List.length (List.filter_eq_self.mpr fun entry member => ?_)
  have present : book.get? entry.1 = some entry.2 := AList.mem_lookup_iff.mpr member
  simp only [present, Option.any_some]
  exact decide_eq_true (lt_of_le_of_lt (Nat.sub_le _ _) (by decide))

/-- The book and the questions after so many invented parents, before it is full. -/
structure Filled (count : Nat) (s : Judging) : Prop where
  size : s.book.size = count + 1
  absent : ∀ i, count ≤ i → i < parentMax → s.book.get? (invented i) = none
  asks : s.asks.length = count + 1
  answers : s.answers = [(0, deadParent, .unseen)]
  named : ∃ rest, s.named = (deadParent, 0) :: rest

/-- A call about a parent that is not in the book asks the node. -/
theorem step_call_of_none (s : Judging) (absent : (s.book.room prev now).get? prev = none) :
    s.step (.call prev now) =
      { book :=
          AList.insert prev { state := .unknown, firstSeen := now, asked := some now } (s.book.room prev now)
        asks := s.asks ++ [(prev, now)], answers := s.answers, named := s.named ++ [(prev, now)] } := by
  simp [step, take, ParentBook.lookup, absent]

theorem Filled.step {count : Nat} (filled : Filled count s) (more : count + 1 < parentMax) :
    Filled (count + 1) (s.step (.call (invented count) oneSecond)) := by
  have absent := filled.absent count le_rfl (by omega)
  have room : s.book.room (invented count) oneSecond = s.book := by
    rw [ParentBook.room, if_neg fun full => by have size := filled.size; omega]
  rw [step_call_of_none s (by rwa [room]), room]
  obtain ⟨rest, named⟩ := filled.named
  refine ⟨?_, fun i from_ below => ?_, ?_, filled.answers, rest ++ [(invented count, oneSecond)], ?_⟩
  · rw [size_insert_of_none absent, filled.size]
  · rw [Table.get?_insert, if_neg (invented_ne below (by omega) (by omega)), filled.absent i (by omega) below]
  · rw [List.length_append, filled.asks, List.length_singleton]
  · rw [named, List.cons_append]

theorem filled_flood {count : Nat} (below : count < parentMax) :
    Filled count ((flood count).foldl step (opening.foldl step {})) := by
  induction count with
  | zero =>
    refine ⟨by decide, fun i _ small => ?_, by decide, by decide, [], by decide⟩
    have other : invented i ≠ deadParent := fun same => by
      have value := congrArg (fun hash : Hash => LittleEndian.value hash.val) same
      simp only [invented, Fixed.ofNat, LittleEndian.value_bytes] at value
      rw [Nat.mod_eq_of_lt (lt_trans small (by decide))] at value
      rw [value] at small
      exact absurd small (by decide)
    have book : (opening.foldl step {}).book =
        AList.insert deadParent { state := .unseen, firstSeen := 0, asked := some 0 } ∅ := AList.ext (by decide)
    rw [flood, List.range_zero, List.map_nil, List.foldl_nil, book, Table.get?_insert, if_neg other]
    exact Table.get?_empty _
  | succ count ih =>
    rw [flood, List.range_succ, List.map_append, List.foldl_append]
    exact (ih (by omega)).step below

/-- The book once it has forgotten everything for an invented parent. -/
structure Emptied (s : Judging) : Prop where
  room : s.book.room deadParent (40 * oneSecond) = s.book
  absent : s.book.get? deadParent = none
  asks : s.asks.length = 4097
  answers : s.answers = [(0, deadParent, .unseen)]
  named : ∃ rest, s.named = (deadParent, 0) :: rest

theorem Filled.overflow (filled : Filled (parentMax - 1) s) :
    Emptied (s.step (.call (invented (parentMax - 1)) oneSecond)) := by
  have absent := filled.absent (parentMax - 1) le_rfl (by decide)
  have room : s.book.room (invented (parentMax - 1)) oneSecond = ∅ := by
    rw [ParentBook.room, if_pos ⟨filled.size.ge, absent⟩, if_pos (by rw [size_young]; exact filled.size.ge)]
  have other : deadParent ≠ invented (parentMax - 1) := by decide
  obtain ⟨rest, named⟩ := filled.named
  rw [step_call_of_none s (by rw [room]; exact Table.get?_empty _), room]
  refine ⟨?_, ?_, ?_, filled.answers, rest ++ [(invented (parentMax - 1), oneSecond)], ?_⟩
  · exact if_neg fun full => absurd full.1 (by rw [size_insert_of_none (Table.get?_empty _)]; decide)
  · rw [Table.get?_insert, if_neg other]
    exact Table.get?_empty _
  · rw [List.length_append, filled.asks, List.length_singleton, parentMax]
  · rw [named, List.cons_append]

/-- A dead parent named, then as many invented ones as the book has room for. -/
def flooding : List ParentEvent := opening ++ flood parentMax

/-- The dead one again, and the node's answer once more. -/
def namedAgain : ParentEvent := .call deadParent (40 * oneSecond)

@[inherit_doc namedAgain]
def lastAnswer : ParentEvent := .answer 4097 ⟨.notFound, none⟩

theorem emptied_flooding : Emptied (flooding.foldl step {}) := by
  have next : parentMax = parentMax - 1 + 1 := by rw [parentMax]
  have range : List.range parentMax = List.range (parentMax - 1) ++ [parentMax - 1] :=
    (congrArg List.range next).trans List.range_succ
  have split : flooding = opening ++ flood (parentMax - 1) ++ [.call (invented (parentMax - 1)) oneSecond] := by
    rw [flooding, flood, flood, range, List.map_append, List.map_singleton, List.append_assoc]
  rw [split, List.foldl_concat, List.foldl_append]
  exact (filled_flood (by decide)).overflow

/-- The dead parent starts over. -/
theorem Emptied.takes (emptied : Emptied s) :
    (s.step namedAgain).judged lastAnswer = some (deadParent, 40 * oneSecond, .take) ∧
      ((s.step namedAgain).step lastAnswer).firstNamed deadParent = some 0 ∧
      ((s.step namedAgain).step lastAnswer).answersOf deadParent = [.unseen, .unseen] := by
  obtain ⟨rest, named⟩ := emptied.named
  have awaited : (s.asks ++ [(deadParent, 40 * oneSecond)])[4097]? = some (deadParent, 40 * oneSecond) := by
    rw [← emptied.asks, List.getElem?_concat_length]
  have again : 4097 ∉ ([(0, deadParent, .unseen)] : List (Nat × Hash × ParentState)).map Prod.fst := by decide
  rw [namedAgain, step_call_of_none s (by rw [emptied.room]; exact emptied.absent),
    emptied.room, emptied.answers, named]
  simp only [step, judged, take, lastAnswer, awaited, if_neg again, ParentBook.record,
    Table.get?_insert, if_pos]
  exact ⟨by decide, rfl, rfl⟩

theorem dead_parent_taken :
    (((flooding ++ [namedAgain]).foldl step {}).judged lastAnswer = some (deadParent, 40 * oneSecond, .take) ∧
      ((flooding ++ [namedAgain] ++ [lastAnswer]).foldl step {}).firstNamed deadParent = some 0 ∧
      ((flooding ++ [namedAgain] ++ [lastAnswer]).foldl step {}).answersOf deadParent = [.unseen, .unseen] ∧
      0 + parentGrace ≤ 40 * oneSecond) ∧
    (lateAnswer.foldl step {}).judged (.call deadParent (37 * oneSecond)) =
      some (deadParent, 37 * oneSecond, .unseen) ∧ (lateAnswer.foldl step {}).answers =
        [(0, deadParent, .unseen), (2, deadParent, .known), (1, deadParent, .unseen)] := by
  obtain ⟨given, named, answers⟩ := emptied_flooding.takes
  simp only [List.foldl_concat]
  exact ⟨⟨given, named, answers, by decide⟩, by decide, by decide⟩

end Verdicts

end Judging

end Lazarus.Primed
