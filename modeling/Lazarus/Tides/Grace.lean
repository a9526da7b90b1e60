import Lazarus.Lib.Machine
import Lazarus.Lib.Table

/-! Grace for house-stratum work: a clock an address, started by its first share there, lengthened only
by DATUM work it had before, and forgotten in the background once it can change no answer. -/

namespace Lazarus.Tides

open Machine

section Book

/-- Addition that stops at the largest 32-bit value. -/
def satAdd32 (a b : Nat) : Nat := min (a + b) u32Max

/-- How long before a stratum start DATUM work still marks the address as a DATUM user. -/
def datumLookback : Nat := 30 * 86400

/-- Stored times are only moved forward in steps of this many seconds. -/
def coarse : Nat := 60

/-- `rearmSecs` is the time off the house stratum after which the next share starts a new clock; zero
for never. -/
structure GraceParams where
  secs : Nat := 0
  datumSecs : Nat := 0
  rearmSecs : Nat := 0
  epoch : Nat := 0

/-- One run of house-stratum mining by an address. -/
structure Episode where
  start : Nat
  last : Nat
  datum : Bool
deriving DecidableEq

/-- Who started on the house stratum when, and who has been seen on DATUM. -/
structure GraceBook where
  stratum : Table String Episode := ∅
  datumSeen : Table String Nat := ∅
  dirty : Bool := false

/-- When the grace of a clock ends. -/
def Episode.untilTs (e : Episode) (p : GraceParams) : Nat :=
  satAdd32 e.start (if e.datum then max p.datumSecs p.secs else p.secs)

namespace GraceBook

/-- DATUM work was credited to `identity`. -/
def noteDatum (b : GraceBook) (identity : String) (ts : Nat) : GraceBook :=
  match b.datumSeen.get? identity with
  | some seen =>
    if satAdd32 seen coarse ≤ ts then
      { b with datumSeen := AList.insert identity ts b.datumSeen, dirty := true } else b
  | none => { b with datumSeen := AList.insert identity ts b.datumSeen, dirty := true }

/-- Whether `identity` counts as a DATUM user for a clock starting at `start`. -/
def onDatum (b : GraceBook) (identity : String) (start : Nat) : Bool :=
  (b.datumSeen.get? identity).any fun seen => seen ≤ start && start ≤ satAdd32 seen datumLookback

/-- When the grace of `identity`'s current clock ends. -/
def untilTs (b : GraceBook) (identity : String) (p : GraceParams) : Option Nat :=
  (b.stratum.get? identity).map fun e => e.untilTs p

/-- House-stratum work is being credited to `identity`: the book after it, and whether the work is
inside the grace. -/
def noteStratum (b : GraceBook) (identity : String) (ts : Nat) (p : GraceParams) : GraceBook × Bool :=
  let datum := b.onDatum identity ts
  let b :=
    match b.stratum.get? identity with
    | some e =>
      if 0 < p.rearmSecs ∧ satAdd32 e.last p.rearmSecs ≤ ts then
        { b with stratum := AList.insert identity ⟨ts, ts, datum⟩ b.stratum, dirty := true }
      else if satAdd32 e.last coarse ≤ ts then
        { b with stratum := AList.insert identity { e with last := ts } b.stratum, dirty := true }
      else b
    | none => { b with stratum := AList.insert identity ⟨ts, ts, datum⟩ b.stratum, dirty := true }
  (b, (b.untilTs identity p).any fun ends => ts < ends)

/-- How long a sighting is kept without an episode. -/
def keepFor (p : GraceParams) : Nat :=
  satAdd32 (satAdd32 datumLookback (max p.datumSecs p.secs)) p.rearmSecs

/-- Forget what can no longer change an answer. -/
def prune (b : GraceBook) (now : Nat) (p : GraceParams) : GraceBook :=
  let stratum :=
    if 0 < p.rearmSecs then b.stratum.sift fun _ e => now < satAdd32 e.last p.rearmSecs else b.stratum
  let datumSeen :=
    b.datumSeen.sift fun identity seen => (stratum.get? identity).isSome || now < satAdd32 seen (keepFor p)
  { stratum
    datumSeen
    dirty := b.dirty || stratum.size + datumSeen.size ≠ b.stratum.size + b.datumSeen.size }

end GraceBook

end Book

section Events

/-- Work credited to an address, or a round of forgetting. -/
inductive GraceEvent where
  | datum (identity : String) (ts : Nat)
  | stratum (identity : String) (ts : Nat)
  | prune (now : Nat)
deriving DecidableEq

def GraceEvent.ts : GraceEvent → Nat
  | datum _ ts => ts
  | stratum _ ts => ts
  | prune now => now

def GraceEvent.isPrune : GraceEvent → Bool
  | prune _ => true
  | _ => false

namespace GraceBook

variable (p : GraceParams)

def step (b : GraceBook) : GraceEvent → GraceBook
  | .datum identity ts => b.noteDatum identity ts
  | .stratum identity ts => (b.noteStratum identity ts p).1
  | .prune now => b.prune now p

/-- What an event is answered: only stratum work is. -/
def answer (b : GraceBook) : GraceEvent → List (String × Nat × Bool)
  | .stratum identity ts => [(identity, ts, (b.noteStratum identity ts p).2)]
  | _ => []

/-- Everything the book answers, in order. -/
def answers (b : GraceBook) : List GraceEvent → List (String × Nat × Bool)
  | [] => []
  | event :: rest => b.answer p event ++ answers (b.step p event) rest

end GraceBook

/-- No event is earlier than one before it. -/
def Timely (events : List GraceEvent) : Prop := events.Pairwise fun a b => a.ts ≤ b.ts

/-- The times of an address's stratum shares. -/
def shareTimes (identity : String) (events : List GraceEvent) : List Nat :=
  events.filterMap fun
    | .stratum other ts => if other = identity then some ts else none
    | _ => none

/-- Clocks do not re-arm, or successive shares are closer than the re-arm time by more than the coarseness
of the stored times. -/
def NeverAway (p : GraceParams) (times : List Nat) : Prop :=
  p.rearmSecs = 0 ∨ times.IsChain fun earlier later => later + coarse < earlier + p.rearmSecs

end Events

section Views

/-- The episode that a share leaves its address with. -/
def Episode.next (p : GraceParams) (ts : Nat) (datum : Bool) : Option Episode → Episode
  | some e =>
    if 0 < p.rearmSecs ∧ satAdd32 e.last p.rearmSecs ≤ ts then ⟨ts, ts, datum⟩
    else if satAdd32 e.last coarse ≤ ts then { e with last := ts }
    else e
  | none => ⟨ts, ts, datum⟩

/-- The sighting that DATUM work leaves its address with. -/
def sighting (ts : Nat) : Option Nat → Nat
  | some seen => if satAdd32 seen coarse ≤ ts then ts else seen
  | none => ts

namespace GraceBook

variable (b : GraceBook) (identity other : String) (ts : Nat) (p : GraceParams)

theorem datumSeen_noteDatum : (b.noteDatum identity ts).datumSeen.get? other =
    if other = identity then some (sighting ts (b.datumSeen.get? identity)) else b.datumSeen.get? other := by
  unfold noteDatum
  cases found : b.datumSeen.get? identity with
  | none => exact Table.get?_insert _ _ _ _
  | some seen =>
    simp only [sighting]
    split
    · exact Table.get?_insert _ _ _ _
    · by_cases same : other = identity
      · rw [if_pos same, same, found]
      · rw [if_neg same]

@[simp] theorem stratum_noteDatum : (b.noteDatum identity ts).stratum = b.stratum := by
  unfold noteDatum
  cases b.datumSeen.get? identity with
  | none => rfl
  | some seen =>
    simp only
    split
    · rfl
    · rfl

theorem stratum_noteStratum : (b.noteStratum identity ts p).1.stratum.get? other =
    if other = identity then some (Episode.next p ts (b.onDatum identity ts) (b.stratum.get? identity))
    else b.stratum.get? other := by
  unfold noteStratum
  cases found : b.stratum.get? identity with
  | none => exact Table.get?_insert _ _ _ _
  | some e =>
    simp only [Episode.next]
    split
    · exact Table.get?_insert _ _ _ _
    · split
      · exact Table.get?_insert _ _ _ _
      · by_cases same : other = identity
        · rw [if_pos same, same, found]
        · rw [if_neg same]

@[simp] theorem datumSeen_noteStratum : (b.noteStratum identity ts p).1.datumSeen = b.datumSeen := by
  unfold noteStratum
  cases b.stratum.get? identity with
  | none => rfl
  | some e =>
    simp only
    split
    · rfl
    · split
      · rfl
      · rfl

/-- The answer is read off the episode that the share leaves. -/
theorem noteStratum_answer : (b.noteStratum identity ts p).2 =
    decide (ts < (Episode.next p ts (b.onDatum identity ts) (b.stratum.get? identity)).untilTs p) := by
  have read : (b.noteStratum identity ts p).2 =
      ((b.noteStratum identity ts p).1.untilTs identity p).any fun ends => ts < ends := rfl
  rw [read, untilTs, stratum_noteStratum, if_pos rfl]
  rfl

theorem stratum_prune : (b.prune ts p).stratum.get? identity =
    (b.stratum.get? identity).filter fun e => p.rearmSecs = 0 ∨ ts < satAdd32 e.last p.rearmSecs := by
  unfold prune
  simp only
  split
  · rename_i rearms
    rw [Table.get?_sift]
    have nonzero : p.rearmSecs ≠ 0 := Nat.ne_of_gt rearms
    simp [nonzero]
  · rename_i never
    have zero : p.rearmSecs = 0 := Nat.eq_zero_of_not_pos never
    cases b.stratum.get? identity with
    | none => rfl
    | some e =>
      simp only [zero, true_or, decide_true]
      rfl

/-- A sighting goes only once it is too old to confirm any start. -/
theorem datumSeen_prune : (b.prune ts p).datumSeen.get? identity = b.datumSeen.get? identity ∨
    (b.prune ts p).datumSeen.get? identity = none ∧
      ∃ seen, b.datumSeen.get? identity = some seen ∧ satAdd32 seen (keepFor p) ≤ ts := by
  have sifted : (b.prune ts p).datumSeen.get? identity = (b.datumSeen.get? identity).filter fun seen =>
      ((b.prune ts p).stratum.get? identity).isSome || ts < satAdd32 seen (keepFor p) := Table.get?_sift _ _ _
  rw [sifted]
  cases b.datumSeen.get? identity with
  | none => exact .inl rfl
  | some seen =>
    by_cases kept : ((b.prune ts p).stratum.get? identity).isSome = true ∨ ts < satAdd32 seen (keepFor p)
    · left
      simpa using kept
    · right
      refine ⟨by simpa using kept, seen, rfl, ?_⟩
      exact Nat.le_of_not_lt fun early => kept (.inr early)

end GraceBook

end Views

section Forgetting

variable {p : GraceParams} {now later : Nat}

/-- Two episodes that end alike: they differ at most in a mark that no longer matters. -/
structure Episode.Alike (p : GraceParams) (e whole : Episode) : Prop where
  start : e.start = whole.start
  last : e.last = whole.last
  datum : e.datum = whole.datum ∨ max p.datumSecs p.secs = 0 ∨ u32Max ≤ whole.start

theorem Episode.Alike.untilTs {e whole : Episode} (alike : e.Alike p whole) :
    e.untilTs p = whole.untilTs p := by
  unfold Episode.untilTs
  rw [alike.start]
  rcases alike.datum with same | nothing | top
  · rw [same]
  · have none : p.secs = 0 := by omega
    have neither : ∀ datum : Bool, (if datum then max p.datumSecs p.secs else p.secs) = 0 := by
      intro datum
      cases datum with
      | false => exact none
      | true => exact nothing
    rw [neither, neither]
  · unfold satAdd32
    omega

/-- What is left of an address's episode once some have been forgotten. -/
inductive EpisodeLeft (p : GraceParams) (now : Nat) : Option Episode → Option Episode → Prop where
  | never : EpisodeLeft p now none none
  | kept {e whole : Episode} (alike : e.Alike p whole) : EpisodeLeft p now (some e) (some whole)
  | gone {whole : Episode} (rearms : 0 < p.rearmSecs) (away : satAdd32 whole.last p.rearmSecs ≤ now) :
    EpisodeLeft p now none (some whole)

/-- A book from which only what can change no answer is missing. -/
structure Forgot (p : GraceParams) (now : Nat) (b whole : GraceBook) : Prop where
  stratum : ∀ identity, EpisodeLeft p now (b.stratum.get? identity) (whole.stratum.get? identity)
  datumSeen : ∀ identity, b.datumSeen.get? identity = whole.datumSeen.get? identity ∨
    b.datumSeen.get? identity = none ∧
      ∃ seen, whole.datumSeen.get? identity = some seen ∧ satAdd32 seen (GraceBook.keepFor p) ≤ now

theorem Forgot.refl (p : GraceParams) (now : Nat) (b : GraceBook) : Forgot p now b b := by
  constructor
  · intro identity
    cases b.stratum.get? identity with
    | none => exact .never
    | some e => exact .kept ⟨rfl, rfl, .inl rfl⟩
  · exact fun identity => .inl rfl

theorem EpisodeLeft.mono {e whole : Option Episode} (left : EpisodeLeft p now e whole) (after : now ≤ later) :
    EpisodeLeft p later e whole := by
  cases left with
  | never => exact .never
  | kept alike => exact .kept alike
  | gone rearms away => exact .gone rearms (away.trans after)

private theorem coarse_le_keepFor (p : GraceParams) : coarse ≤ GraceBook.keepFor p := by
  simp only [GraceBook.keepFor, satAdd32, coarse, datumLookback, u32Max]
  omega

/-- A sighting that was forgotten confirms a start only where the answer does not depend on it. -/
theorem Forgot.onDatum {b whole : GraceBook} (forgot : Forgot p now b whole) (identity : String) {ts : Nat}
    (after : now ≤ ts) : b.onDatum identity ts = whole.onDatum identity ts ∨
      max p.datumSecs p.secs = 0 ∨ u32Max ≤ ts := by
  rcases forgot.datumSeen identity with same | ⟨missing, seen, found, old⟩
  · left
    unfold GraceBook.onDatum
    rw [same]
  · by_cases confirms : whole.onDatum identity ts = true
    · right
      rw [GraceBook.onDatum, found, Option.any_some, Bool.and_eq_true,
        decide_eq_true_eq, decide_eq_true_eq] at confirms
      obtain ⟨_, within⟩ := confirms
      simp only [GraceBook.keepFor, satAdd32, datumLookback, u32Max] at old within ⊢
      omega
    · left
      rw [eq_false_of_ne_true confirms, GraceBook.onDatum, missing]
      rfl

/-- A share leaves alike episodes alike, and starts the same new one where an episode was forgotten. -/
theorem EpisodeLeft.next {e whole : Option Episode} (left : EpisodeLeft p now e whole)
    {ts : Nat} (after : now ≤ ts) {datum datum' : Bool}
    (marks : datum = datum' ∨ max p.datumSecs p.secs = 0 ∨ u32Max ≤ ts) :
    (Episode.next p ts datum e).Alike p (Episode.next p ts datum' whole) := by
  cases left with
  | never => exact ⟨rfl, rfl, marks⟩
  | kept alike =>
    unfold Episode.next
    simp only [alike.last]
    split
    · exact ⟨rfl, rfl, marks⟩
    · split
      · exact ⟨alike.start, rfl, alike.datum⟩
      · exact alike
  | gone rearms away =>
    simp only [Episode.next, rearms, away.trans after, and_self, if_true]
    exact ⟨rfl, rfl, marks⟩

private theorem sighting_old {seen ts : Nat} (old : satAdd32 seen (GraceBook.keepFor p) ≤ now)
    (after : now ≤ ts) : sighting ts (some seen) = ts := by
  have longer := coarse_le_keepFor p
  have due : satAdd32 seen coarse ≤ ts := by
    unfold satAdd32 at old ⊢
    omega
  simp only [sighting, due, if_true]

theorem Forgot.noteDatum {b whole : GraceBook} (forgot : Forgot p now b whole) (identity : String) {ts : Nat}
    (after : now ≤ ts) : Forgot p ts (b.noteDatum identity ts) (whole.noteDatum identity ts) := by
  constructor
  · intro other
    rw [GraceBook.stratum_noteDatum, GraceBook.stratum_noteDatum]
    exact (forgot.stratum other).mono after
  · intro other
    rw [GraceBook.datumSeen_noteDatum, GraceBook.datumSeen_noteDatum]
    by_cases same : other = identity
    · rw [if_pos same, if_pos same]
      left
      rcases forgot.datumSeen identity with equal | ⟨missing, seen, found, old⟩
      · rw [equal]
      · rw [missing, found, sighting_old old after]
        rfl
    · rw [if_neg same, if_neg same]
      rcases forgot.datumSeen other with equal | ⟨missing, seen, found, old⟩
      · exact .inl equal
      · exact .inr ⟨missing, seen, found, old.trans after⟩

theorem Forgot.noteStratum {b whole : GraceBook} (forgot : Forgot p now b whole) (identity : String) {ts : Nat}
    (after : now ≤ ts) :
    Forgot p ts (b.noteStratum identity ts p).1 (whole.noteStratum identity ts p).1 ∧
      (b.noteStratum identity ts p).2 = (whole.noteStratum identity ts p).2 := by
  have alike := (forgot.stratum identity).next after (forgot.onDatum identity after)
  refine ⟨⟨?_, ?_⟩, ?_⟩
  · intro other
    rw [GraceBook.stratum_noteStratum, GraceBook.stratum_noteStratum]
    by_cases same : other = identity
    · rw [if_pos same, if_pos same]
      exact .kept alike
    · rw [if_neg same, if_neg same]
      exact (forgot.stratum other).mono after
  · intro other
    rw [GraceBook.datumSeen_noteStratum, GraceBook.datumSeen_noteStratum]
    rcases forgot.datumSeen other with equal | ⟨missing, seen, found, old⟩
    · exact .inl equal
    · exact .inr ⟨missing, seen, found, old.trans after⟩
  · rw [GraceBook.noteStratum_answer, GraceBook.noteStratum_answer, alike.untilTs]

theorem Forgot.prune {b whole : GraceBook} (forgot : Forgot p now b whole) {ts : Nat} (after : now ≤ ts) :
    Forgot p ts (b.prune ts p) whole := by
  constructor
  · intro identity
    rw [GraceBook.stratum_prune]
    have left := (forgot.stratum identity).mono after
    generalize b.stratum.get? identity = e at left
    generalize whole.stratum.get? identity = e' at left
    cases left with
    | never => exact .never
    | gone rearms away => exact .gone rearms away
    | @kept e e' alike =>
      by_cases stays : p.rearmSecs = 0 ∨ ts < satAdd32 e.last p.rearmSecs
      · simp only [Option.filter, stays, decide_true, if_true]
        exact .kept alike
      · obtain ⟨rearms, away⟩ := not_or.mp stays
        simp only [Option.filter, stays, decide_false, Bool.false_eq_true, if_false]
        exact .gone (Nat.pos_of_ne_zero rearms) (alike.last ▸ Nat.le_of_not_lt away)
  · intro identity
    rcases forgot.datumSeen identity with equal | ⟨missing, seen, found, old⟩
    · rcases b.datumSeen_prune identity ts p with kept | ⟨gone, seen, found, old⟩
      · exact .inl (kept.trans equal)
      · exact .inr ⟨gone, seen, equal ▸ found, old⟩
    · rcases b.datumSeen_prune identity ts p with kept | ⟨gone, _, _, _⟩
      · exact .inr ⟨kept.trans missing, seen, found, old.trans after⟩
      · exact .inr ⟨gone, seen, found, old.trans after⟩

/-- A book that has been pruned along the way answers as one that never was. -/
theorem Forgot.answers {b whole : GraceBook} (forgot : Forgot p now b whole) {events : List GraceEvent}
    (timely : Timely events) (after : ∀ event ∈ events, now ≤ event.ts) :
    b.answers p events = whole.answers p (events.filter fun event => !event.isPrune) := by
  induction events generalizing now b whole with
  | nil => rfl
  | cons event rest ih =>
    obtain ⟨first, ordered⟩ := List.pairwise_cons.mp timely
    cases event with
    | datum identity ts =>
      have here : now ≤ ts := after _ List.mem_cons_self
      exact ih (forgot.noteDatum identity here) ordered first
    | stratum identity ts =>
      have here : now ≤ ts := after _ List.mem_cons_self
      obtain ⟨forgot', same⟩ := forgot.noteStratum identity here
      have rest_same := ih forgot' ordered first
      rw [List.filter_cons_of_pos rfl, GraceBook.answers, GraceBook.answers,
        GraceBook.answer, GraceBook.answer, same]
      exact congrArg _ rest_same
    | prune ts =>
      have here : now ≤ ts := after _ List.mem_cons_self
      rw [List.filter_cons_of_neg (by simp [GraceEvent.isPrune])]
      exact ih (forgot.prune here) ordered first

end Forgetting

section Clock

variable {p : GraceParams} {identity : String}

/-- The latest DATUM work of an address, to within the coarseness of stored times. -/
def Sighted (identity : String) (seen : Option Nat) (events : List GraceEvent) : Prop :=
  match seen with
  | none => ∀ ts, .datum identity ts ∉ events
  | some seen => .datum identity seen ∈ events ∧ ∀ ts, .datum identity ts ∈ events → ts < seen + coarse

theorem Sighted.other {seen : Option Nat} {events : List GraceEvent} (sighted : Sighted identity seen events)
    {event : GraceEvent} (different : ∀ ts, event ≠ .datum identity ts) :
    Sighted identity seen (events ++ [event]) := by
  have same (ts : Nat) : GraceEvent.datum identity ts ∈ events ++ [event] ↔ .datum identity ts ∈ events := by
    rw [List.mem_append, List.mem_singleton]
    exact ⟨fun member => member.resolve_right fun here => different ts here.symm, .inl⟩
  cases seen with
  | none => exact fun ts => (same ts).not.mpr (sighted ts)
  | some seen => exact ⟨(same seen).mpr sighted.1, fun ts member => sighted.2 ts ((same ts).mp member)⟩

theorem Sighted.datum {seen : Option Nat} {events : List GraceEvent}
    (sighted : Sighted identity seen events) {ts : Nat} (latest : ∀ event ∈ events, event.ts ≤ ts) :
    Sighted identity (some (sighting ts seen)) (events ++ [.datum identity ts]) := by
  have listed (t : Nat) : GraceEvent.datum identity t ∈ events ++ [.datum identity ts] ↔
      .datum identity t ∈ events ∨ t = ts := by
    rw [List.mem_append, List.mem_singleton, GraceEvent.datum.injEq]
    simp
  have moved : Sighted identity (some ts) (events ++ [.datum identity ts]) := by
    refine ⟨(listed ts).mpr (.inr rfl), ?_⟩
    intro t member
    rcases (listed t).mp member with earlier | now
    · exact Nat.lt_of_le_of_lt (latest _ earlier) (Nat.lt_add_of_pos_right (by decide))
    · exact now ▸ Nat.lt_add_of_pos_right (by decide)
  cases seen with
  | none => exact moved
  | some seen =>
    simp only [sighting]
    by_cases due : satAdd32 seen coarse ≤ ts
    · rw [if_pos due]
      exact moved
    · rw [if_neg due]
      refine ⟨(listed seen).mpr (.inl sighted.1), ?_⟩
      intro t member
      rcases (listed t).mp member with earlier | now
      · exact sighted.2 t earlier
      · have below : satAdd32 seen coarse ≤ seen + coarse := Nat.min_le_left _ _
        omega

/-- Before an address's first share it has no clock, and its DATUM work is on record. -/
structure Unstarted (identity : String) (b : GraceBook) (events : List GraceEvent) : Prop where
  clockless : b.stratum.get? identity = none
  sighted : Sighted identity (b.datumSeen.get? identity) events

theorem Unstarted.run {events : List GraceEvent} (timely : Timely events)
    (kept : ∀ event ∈ events, event.isPrune = false) (unshared : ∀ ts, .stratum identity ts ∉ events) :
    Unstarted identity (events.foldl (GraceBook.step p) {}) events := by
  induction events using List.reverseRecOn with
  | nil => exact ⟨rfl, fun ts => by simp⟩
  | append_singleton events event ih =>
    obtain ⟨ordered, _, before⟩ := List.pairwise_append.mp timely
    have started := ih ordered (fun event member => kept event (by simp [member]))
      (fun ts member => unshared ts (by simp [member]))
    have latest : ∀ earlier ∈ events, earlier.ts ≤ event.ts :=
      fun earlier member => before earlier member event (by simp)
    rw [List.foldl_append, List.foldl_cons, List.foldl_nil]
    cases event with
    | datum other ts =>
      refine ⟨by rw [GraceBook.step, GraceBook.stratum_noteDatum]; exact started.clockless, ?_⟩
      rw [GraceBook.step, GraceBook.datumSeen_noteDatum]
      by_cases same : identity = other
      · subst same
        rw [if_pos rfl]
        exact started.sighted.datum latest
      · rw [if_neg same]
        exact started.sighted.other fun t equal => same (GraceEvent.datum.inj equal).1.symm
    | stratum other ts =>
      have different : identity ≠ other := by
        rintro rfl
        exact unshared ts (by simp)
      constructor
      · rw [GraceBook.step, GraceBook.stratum_noteStratum, if_neg different]
        exact started.clockless
      · rw [GraceBook.step, GraceBook.datumSeen_noteStratum]
        exact started.sighted.other fun t equal => by cases equal
    | prune ts => exact absurd (kept (.prune ts) (by simp)) (by simp [GraceEvent.isPrune])

/-- A clock that has not been started again, or that can no longer be told from one at the end of time. -/
def Running (identity : String) (start : Nat) (datum : Bool) (previous : Nat) (b : GraceBook) : Prop :=
  ∃ e, b.stratum.get? identity = some e ∧
    (e.start = start ∧ e.datum = datum ∧ e.last ≤ previous ∧ previous < e.last + coarse ∨
      u32Max ≤ previous ∧ u32Max ≤ e.start)

private theorem untilTs_le (e : Episode) (p : GraceParams) : e.untilTs p ≤ u32Max := Nat.min_le_right _ _

/-- A share soon enough after the one before it finds the same clock. -/
theorem Running.share {b : GraceBook} {start previous ts : Nat} {datum : Bool}
    (running : Running identity start datum previous b) (after : previous ≤ ts)
    (soon : p.rearmSecs = 0 ∨ ts + coarse < previous + p.rearmSecs) :
    Running identity start datum ts (b.noteStratum identity ts p).1 ∧
      (b.noteStratum identity ts p).2 = decide (ts < Episode.untilTs ⟨start, start, datum⟩ p) := by
  obtain ⟨e, found, state⟩ := running
  unfold Running
  rw [GraceBook.noteStratum_answer, GraceBook.stratum_noteStratum, if_pos rfl, found]
  generalize marked : b.onDatum identity ts = mark
  have late (e : Episode) (top : u32Max ≤ ts) : decide (ts < e.untilTs p) = false := by
    have bound := untilTs_le e p
    exact decide_eq_false (by omega)
  by_cases top : u32Max ≤ ts
  · rw [late _ top, late _ top]
    refine ⟨⟨_, rfl, ?_⟩, rfl⟩
    simp only [Episode.next]
    split
    · exact .inr ⟨top, top⟩
    · rename_i still
      rcases state with ⟨started, same, below, near⟩ | ⟨_, ended⟩
      · left
        split
        · exact ⟨started, same, Nat.le_refl _, Nat.lt_add_of_pos_right (by decide)⟩
        · rename_i soon
          have bound : satAdd32 e.last coarse ≤ e.last + coarse := Nat.min_le_left _ _
          exact ⟨started, same, by omega, by omega⟩
      · right
        split
        · exact ⟨top, ended⟩
        · exact ⟨top, ended⟩
  · have early : ¬ (u32Max ≤ previous ∧ u32Max ≤ e.start) := by omega
    obtain ⟨started, same, below, near⟩ := state.resolve_right early
    have still : ¬ (0 < p.rearmSecs ∧ satAdd32 e.last p.rearmSecs ≤ ts) := by
      unfold satAdd32
      omega
    have ends (last : Nat) :
        Episode.untilTs ⟨e.start, last, e.datum⟩ p = Episode.untilTs ⟨start, start, datum⟩ p := by
      rw [started, same]
      rfl
    simp only [Episode.next, still, if_false]
    split
    · exact ⟨⟨_, rfl, .inl ⟨started, same, Nat.le_refl _, Nat.lt_add_of_pos_right (by decide)⟩⟩, by
        rw [ends ts]⟩
    · rename_i soon
      have bound : satAdd32 e.last coarse ≤ e.last + coarse := Nat.min_le_left _ _
      exact ⟨⟨_, rfl, .inl ⟨started, same, by omega, by omega⟩⟩, by rw [← ends e.last]⟩

theorem Running.of_stratum {b b' : GraceBook} {start previous : Nat} {datum : Bool}
    (running : Running identity start datum previous b)
    (same : b'.stratum.get? identity = b.stratum.get? identity) : Running identity start datum previous b' := by
  unfold Running
  rw [same]
  exact running

/-- Over a run in which the address is never away for long, every share is measured by the same clock. -/
theorem Running.answers {b : GraceBook} {start previous : Nat} {datum : Bool}
    (running : Running identity start datum previous b) {events : List GraceEvent} (timely : Timely events)
    (after : ∀ event ∈ events, previous ≤ event.ts) (kept : ∀ event ∈ events, event.isPrune = false)
    (near : NeverAway p (previous :: shareTimes identity events)) {ts : Nat} {inside : Bool}
    (told : (identity, ts, inside) ∈ b.answers p events) :
    previous ≤ ts ∧ inside = decide (ts < Episode.untilTs ⟨start, start, datum⟩ p) := by
  induction events generalizing previous b with
  | nil => cases told
  | cons event rest ih =>
    obtain ⟨first, ordered⟩ := List.pairwise_cons.mp timely
    have later : ∀ event ∈ rest, event.isPrune = false :=
      fun event member => kept event (List.mem_cons_of_mem _ member)
    have afterwards : ∀ event ∈ rest, previous ≤ event.ts :=
      fun event member => after event (List.mem_cons_of_mem _ member)
    cases event with
    | datum other t =>
      have same : (b.step p (.datum other t)).stratum.get? identity = b.stratum.get? identity :=
        congrArg (fun table => Table.get? table identity) (b.stratum_noteDatum other t)
      exact ih (running.of_stratum same) ordered afterwards later near told
    | prune t => exact absurd (kept _ List.mem_cons_self) (by simp [GraceEvent.isPrune])
    | stratum other t =>
      have here : previous ≤ t := after _ List.mem_cons_self
      by_cases own : other = identity
      · subst own
        have times : shareTimes other (.stratum other t :: rest) = t :: shareTimes other rest := by
          simp [shareTimes]
        rw [times] at near
        obtain ⟨soon, near'⟩ : (p.rearmSecs = 0 ∨ t + coarse < previous + p.rearmSecs) ∧
            NeverAway p (t :: shareTimes other rest) := by
          rcases near with never | chain
          · exact ⟨.inl never, .inl never⟩
          · obtain ⟨soon, chain⟩ := List.isChain_cons_cons.mp chain
            exact ⟨.inr soon, .inr chain⟩
        obtain ⟨running', answered⟩ := running.share here soon
        rcases List.mem_cons.mp told with same | further
        · obtain ⟨rfl, rfl⟩ := Prod.mk.inj (Prod.mk.inj same).2
          exact ⟨here, answered⟩
        · obtain ⟨beyond, measured⟩ := ih running' ordered first later near' further
          exact ⟨here.trans beyond, measured⟩
      · have times : shareTimes identity (.stratum other t :: rest) = shareTimes identity rest := by
          simp [shareTimes, own]
        rw [times] at near
        have same : (b.step p (.stratum other t)).stratum.get? identity = b.stratum.get? identity := by
          rw [GraceBook.step, GraceBook.stratum_noteStratum, if_neg (Ne.symm own)]
        have further := (List.mem_cons.mp told).resolve_left fun same => own (Prod.mk.inj same).1.symm
        exact ih (running.of_stratum same) ordered afterwards later near further

end Clock

section Once

variable {p : GraceParams} {identity : String}

private theorem answers_append (b : GraceBook) (first second : List GraceEvent) :
    b.answers p (first ++ second) = b.answers p first ++
      (first.foldl (GraceBook.step p) b).answers p second := by
  induction first generalizing b with
  | nil => rfl
  | cons event rest ih =>
    rw [List.cons_append, GraceBook.answers, GraceBook.answers, ih, List.append_assoc]
    rfl

private theorem share_of_answer {b : GraceBook} {events : List GraceEvent} {ts : Nat} {inside : Bool}
    (told : (identity, ts, inside) ∈ b.answers p events) : .stratum identity ts ∈ events := by
  induction events generalizing b with
  | nil => cases told
  | cons event rest ih =>
    rcases List.mem_append.mp told with here | later
    · cases event with
      | datum other t => cases here
      | prune t => cases here
      | stratum other t =>
        obtain ⟨rfl, same⟩ := Prod.mk.inj (List.mem_singleton.mp here)
        obtain ⟨rfl, _⟩ := Prod.mk.inj same
        exact List.mem_cons_self
    · exact List.mem_cons_of_mem _ (ih later)

private theorem shareTimes_unpruned (identity : String) (events : List GraceEvent) :
    shareTimes identity (events.filter fun event => !event.isPrune) = shareTimes identity events := by
  induction events with
  | nil => rfl
  | cons event rest ih =>
    cases event with
    | datum other ts => exact ih
    | prune now => exact ih
    | stratum other ts =>
      rw [List.filter_cons_of_pos rfl]
      unfold shareTimes at ih ⊢
      rw [List.filterMap_cons, List.filterMap_cons, ih]

/-- A sighting on record tells of DATUM work within the lookback, to the coarseness of stored times. -/
theorem Unstarted.onDatum {b : GraceBook} {events : List GraceEvent} (unstarted : Unstarted identity b events)
    {start : Nat} (after : ∀ event ∈ events, event.ts ≤ start) (fits : start ≤ u32Max) :
    (b.onDatum identity start = true → ∃ ts, .datum identity ts ∈ events ∧ start ≤ ts + datumLookback) ∧
      ((∃ ts, .datum identity ts ∈ events ∧ start + coarse ≤ ts + datumLookback) →
        b.onDatum identity start = true) := by
  have sighted := unstarted.sighted
  unfold GraceBook.onDatum
  generalize b.datumSeen.get? identity = seen at sighted
  cases seen with
  | none =>
    refine ⟨fun confirmed => (by cases confirmed), ?_⟩
    rintro ⟨ts, member, _⟩
    exact absurd member (sighted ts)
  | some seen =>
    obtain ⟨member, latest⟩ := sighted
    have before : seen ≤ start := after _ member
    rw [Option.any_some, Bool.and_eq_true, decide_eq_true_eq, decide_eq_true_eq]
    constructor
    · rintro ⟨_, within⟩
      exact ⟨seen, member, within.trans (Nat.min_le_left _ _)⟩
    · rintro ⟨ts, worked, within⟩
      have close := latest ts worked
      refine ⟨before, ?_⟩
      unfold satAdd32
      omega

private theorem answers_of_first {before after : List GraceEvent} {start : Nat}
    (timely : Timely (before ++ .stratum identity start :: after))
    (kept : ∀ event ∈ before ++ .stratum identity start :: after, event.isPrune = false) (fits : start ≤ u32Max)
    (unshared : ∀ ts, .stratum identity ts ∉ before) (near : NeverAway p (start :: shareTimes identity after)) :
    ∃ onDatum : Bool,
      (∀ ts inside,
        (identity, ts, inside) ∈ ({} : GraceBook).answers p (before ++ .stratum identity start :: after) →
        start ≤ ts ∧ inside = decide (ts < Episode.untilTs ⟨start, start, onDatum⟩ p)) ∧
      (onDatum = true → ∃ ts, .datum identity ts ∈ before ∧ start ≤ ts + datumLookback) ∧
      ((∃ ts, .datum identity ts ∈ before ∧ start + coarse ≤ ts + datumLookback) → onDatum = true) := by
  obtain ⟨orderedBefore, orderedAfter, across⟩ := List.pairwise_append.mp timely
  obtain ⟨next, orderedAfter⟩ := List.pairwise_cons.mp orderedAfter
  have unstarted : Unstarted identity (before.foldl (GraceBook.step p) {}) before :=
    Unstarted.run orderedBefore (fun event member => kept event (List.mem_append_left _ member)) unshared
  have latest : ∀ event ∈ before, event.ts ≤ start :=
    fun event member => across event member (.stratum identity start) List.mem_cons_self
  refine ⟨(before.foldl (GraceBook.step p) {}).onDatum identity start, ?_, unstarted.onDatum latest fits⟩
  intro ts inside told
  rw [answers_append] at told
  have here := (List.mem_append.mp told).resolve_left fun early => unshared ts (share_of_answer early)
  generalize before.foldl (GraceBook.step p) {} = b at unstarted here ⊢
  have first : Episode.next p start (b.onDatum identity start) (b.stratum.get? identity) =
      ⟨start, start, b.onDatum identity start⟩ := by
    rw [unstarted.clockless]
    rfl
  rcases List.mem_cons.mp here with same | further
  · obtain ⟨rfl, rfl⟩ := Prod.mk.inj (Prod.mk.inj same).2
    rw [GraceBook.noteStratum_answer, first]
    exact ⟨Nat.le_refl _, rfl⟩
  · have running :
        Running identity start (b.onDatum identity start) start (b.noteStratum identity start p).1 := by
      refine ⟨⟨start, start, b.onDatum identity start⟩, ?_, .inl ⟨rfl, rfl, Nat.le_refl _, ?_⟩⟩
      · rw [GraceBook.stratum_noteStratum, if_pos rfl, first]
      · exact Nat.lt_add_of_pos_right (by decide)
    exact running.answers orderedAfter next
      (fun event member => kept event (List.mem_append_right _ (List.mem_cons_of_mem _ member))) near further

end Once

/-- Pruning changes no answer. An address that is never away for long is inside the grace from its first
share for as long as the clock then started runs, within what 32 bits can tell; DATUM work counts towards
it when it was there before that share. -/
theorem grace_given_once (p : GraceParams) (events : List GraceEvent) (timely : Timely events)
    (fits : ∀ event ∈ events, event.ts ≤ u32Max) :
    (∀ b : GraceBook, b.answers p events = b.answers p (events.filter fun event => !event.isPrune)) ∧
      ∀ identity before start after, events = before ++ .stratum identity start :: after →
        (∀ ts, .stratum identity ts ∉ before) → NeverAway p (start :: shareTimes identity after) →
        ∃ onDatum : Bool,
          (∀ ts inside, (identity, ts, inside) ∈ ({} : GraceBook).answers p events →
            (inside = true ↔ start ≤ ts ∧
              ts < min (start + if onDatum then max p.datumSecs p.secs else p.secs) u32Max)) ∧
          (onDatum = true → ∃ ts, .datum identity ts ∈ before ∧ start ≤ ts + datumLookback) ∧
          ((∃ ts, .datum identity ts ∈ before ∧ start + coarse ≤ ts + datumLookback) → onDatum = true) := by
  have unpruned (b : GraceBook) :
    b.answers p events = b.answers p (events.filter fun event => !event.isPrune) :=
    (Forgot.refl p 0 b).answers timely fun _ _ => Nat.zero_le _
  refine ⟨unpruned, ?_⟩
  rintro identity before start after rfl unshared near
  have kept : ∀ event ∈ (before ++ .stratum identity start :: after).filter fun event => !event.isPrune,
      event.isPrune = false := by
    intro event member
    simpa using (List.mem_filter.mp member).2
  have ordered := timely.filter fun event => !event.isPrune
  have parted : (before ++ .stratum identity start :: after).filter (fun event => !event.isPrune) =
      before.filter (fun event => !event.isPrune) ++
        .stratum identity start :: after.filter fun event => !event.isPrune := by
    rw [List.filter_append, List.filter_cons_of_pos rfl]
  have worked (ts : Nat) : .datum identity ts ∈ before.filter (fun event => !event.isPrune) ↔
      .datum identity ts ∈ before := by
    simp [GraceEvent.isPrune]
  rw [unpruned]
  rw [parted] at ordered kept ⊢
  obtain ⟨onDatum, measured, sound, complete⟩ :=
    answers_of_first ordered kept (fits (.stratum identity start) (by simp))
    (fun ts member => unshared ts (List.mem_of_mem_filter member)) (by rw [shareTimes_unpruned]; exact near)
  simp only [worked] at sound complete
  refine ⟨onDatum, ?_, sound, complete⟩
  intro ts inside told
  obtain ⟨after, rfl⟩ := measured ts inside told
  rw [decide_eq_true_eq]
  exact ⟨fun early => ⟨after, early⟩, And.right⟩

/-- DATUM work, then shares inside an hour's grace and past it, with prunes between. -/
def hourEvents : List GraceEvent :=
  [.datum "a" 1000, .prune 1000] ++ .stratum "a" 1100 :: [.prune 1200, .stratum "a" 4699, .stratum "a" 4700]

theorem grace_given_once_hour :
    Timely hourEvents ∧ (∀ event ∈ hourEvents, event.ts ≤ u32Max) ∧
      ∀ ts inside, ("a", ts, inside) ∈ ({} : GraceBook).answers { secs := 600, datumSecs := 3600 } hourEvents →
        (inside = true ↔ 1100 ≤ ts ∧ ts < 4700) := by
  have timely : Timely hourEvents := by
    unfold Timely
    decide
  have fits : ∀ event ∈ hourEvents, event.ts ≤ u32Max := by decide
  refine ⟨timely, fits, ?_⟩
  obtain ⟨_, once⟩ := grace_given_once { secs := 600, datumSecs := 3600 } hourEvents timely fits
  obtain ⟨onDatum, measured, _, complete⟩ := once "a" _ _ _ rfl (by simp) (.inl rfl)
  have longer : onDatum = true := complete ⟨1000, by simp, by decide⟩
  subst longer
  exact measured

/-- A grace after DATUM work is never the shorter one, and none outlasts the 32-bit clock. -/
theorem grace_not_as_measured :
    (({} : GraceBook).answers { secs := 100, datumSecs := 50 }
      [.datum "a" 1000, .stratum "a" 1000, .stratum "a" 1050] =
        [("a", 1000, true), ("a", 1050, true)] ∧ ¬ 1050 < 1000 + 50) ∧
      ({} : GraceBook).answers { secs := 100, datumSecs := 100 }
          [.stratum "a" (u32Max - 10), .stratum "a" u32Max] =
        [("a", u32Max - 10, true), ("a", u32Max, false)] ∧ u32Max < u32Max - 10 + 100 := by
  decide

end Lazarus.Tides
