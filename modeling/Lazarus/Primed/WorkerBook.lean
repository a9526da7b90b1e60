import Lazarus.Lib.Along
import Lazarus.Lib.Machine
import Lazarus.Lib.Table
import Lazarus.Lib.Tally
import Lazarus.Primed.Workers

/-! What a session's shares have said about who did them: a tally for each worker name of each identity, within
bounds on the names that are held. A name that makes room leaves its tally behind. -/

namespace Lazarus.Primed

open Machine

def maxPerIdentity : Nat := 256

def maxPerSession : Nat := 1024

def bucketSecs : Nat := 60

def buckets : Nat := 10

def recentSecs : Nat := bucketSecs * buckets

/-- Work by the minute, the last bucket being minute `minute`. -/
structure Recent where
  minute : Nat := 0
  work : Vector Nat buckets := Vector.replicate buckets 0
deriving DecidableEq

namespace Recent

/-- Move the newest bucket up. A clock that steps back moves nothing. -/
def advance (r : Recent) (minute : Nat) : Recent :=
  let gap := minute - r.minute
  if gap = 0 then r
  else if gap < buckets then
    { minute, work := Vector.ofFn fun i => if within : i.val + gap < buckets then r.work[i.val + gap] else 0 }
  else { minute }

def add (r : Recent) (work ts : Nat) : Recent :=
  let r := r.advance (ts / bucketSecs)
  { r with work := r.work.set (buckets - 1) (satAdd r.work[buckets - 1] work) }

def merge (r other : Recent) : Recent :=
  let r := r.advance other.minute
  let behind := r.minute - other.minute
  { r with
    work := Vector.ofFn fun i =>
      if within : i.val + behind < buckets then satAdd r.work[i.val] other.work[i.val + behind] else
        r.work[i.val] }

/-- Work in the buckets that are still recent. -/
def workAt (r : Recent) (ts : Nat) : Nat :=
  (r.work.toList.drop (min (ts / bucketSecs - r.minute) buckets)).foldl satAdd 0

end Recent

structure WorkTally where
  work : Nat := 0
  shares : Nat := 0
  firstTs : Nat := 0
  lastTs : Nat := 0
  recent : Recent := {}
deriving DecidableEq

namespace WorkTally

def add (t : WorkTally) (work ts : Nat) : WorkTally where
  work := satAdd t.work work
  shares := satAdd t.shares 1
  firstTs := min (if t.shares = 0 then ts else t.firstTs) ts
  lastTs := max t.lastTs ts
  recent := t.recent.add work ts

def absorb (t other : WorkTally) : WorkTally :=
  if other.shares = 0 then t
  else
    { work := satAdd t.work other.work
      shares := satAdd t.shares other.shares
      firstTs := if t.shares = 0 then other.firstTs else min t.firstTs other.firstTs
      lastTs := max t.lastTs other.lastTs
      recent := t.recent.merge other.recent }

end WorkTally

/-- A worker name and when it was last seen, by the book's own count. -/
structure Worker where
  tally : WorkTally := {}
  seen : Nat
deriving DecidableEq

/-- Names that made room, and what they had done. -/
structure Overflow where
  names : Nat := 0
  tally : WorkTally := {}
deriving DecidableEq

def Overflow.take (o : Overflow) (w : Worker) : Overflow where
  names := satAdd o.names 1
  tally := o.tally.absorb w.tally

def Overflow.absorb (o other : Overflow) : Overflow where
  names := satAdd o.names other.names
  tally := o.tally.absorb other.tally

structure Named where
  workers : Table (List Char) Worker := ∅
  overflow : Overflow := {}

/-- A line of the book for the stats document. -/
structure Row where
  identity : List Char
  name : List Char
  work : Nat
  shares : Nat
  lastTs : Nat
  recentWork : Nat
  recentSecs : Nat
  names : Nat
deriving DecidableEq

/-- A credited share: whose it is, the username it came with, its work and when. -/
structure Noted where
  identity : List Char
  username : List Char
  work : Nat
  ts : Nat

structure WorkerBook where
  identities : Table (List Char) Named := ∅
  names : Nat := 0
  seen : Nat := 0
  rest : Overflow := {}

namespace WorkerBook

/-- The names that may have to go, of one identity or of all, and when each was last seen. -/
def candidates (b : WorkerBook) (within : Option (List Char)) : List (Nat × List Char × List Char) :=
  (b.identities.entries.filter fun entry => within.all fun w => w = entry.fst).flatMap fun entry =>
    entry.snd.workers.entries.map fun worker => (worker.snd.seen, entry.fst, worker.fst)

/-- Drop the name least recently seen into its identity's overflow. An identity without a name goes with it. -/
def evict (b : WorkerBook) (within : Option (List Char)) : WorkerBook :=
  match (b.candidates within).argmin Prod.fst with
  | none => b
  | some (_, id, name) =>
    match b.identities.get? id with
    | none => b
    | some named =>
      let (named, names) :=
        match named.workers.get? name with
        | some w =>
          ({ workers := named.workers.erase name, overflow := named.overflow.take w : Named }, b.names - 1)
        | none => (named, b.names)
      if named.workers.size = 0 then
        { b with identities := b.identities.erase id, names, rest := b.rest.absorb named.overflow }
      else { b with identities := b.identities.insert id named, names }

/-- Make room for a name of an identity that holds as many as it may, or else in a session that does. -/
def makeRoom (b : WorkerBook) (identity : List Char) : WorkerBook :=
  if (b.identities.get? identity).any fun named => maxPerIdentity ≤ named.workers.size then
    b.evict (some identity)
  else if maxPerSession ≤ b.names then b.evict none
  else b

/-- A name that was not held. -/
def enter (b : WorkerBook) (n : Noted) (name : List Char) : WorkerBook :=
  let w := { tally := ({} : WorkTally).add n.work n.ts, seen := b.seen : Worker }
  let named := (b.identities.get? n.identity).getD {}
  { b with
    identities := b.identities.insert n.identity { named with workers := named.workers.insert name w }
    names := b.names + 1 }

def hold (b : WorkerBook) (identity name : List Char) : Option Worker :=
  (b.identities.get? identity).bind fun named => named.workers.get? name

/-- Count one credited share under the worker its username names. -/
def note (decodes : List Char → Bool) (b : WorkerBook) (n : Noted) : WorkerBook :=
  let name := workerOf decodes n.username
  let b := { b with seen := b.seen + 1 }
  match b.hold n.identity name with
  | some w =>
    let w := { tally := w.tally.add n.work n.ts, seen := b.seen : Worker }
    let named := (b.identities.get? n.identity).getD {}
    { b with
      identities := b.identities.insert n.identity { named with workers := named.workers.insert name w } }
  | none => (b.makeRoom n.identity).enter n name

def row (identity name : List Char) (t : WorkTally) (names ts : Nat) : Row :=
  let windowStart := (ts / bucketSecs - (buckets - 1)) * bucketSecs
  { identity, name, work := t.work, shares := t.shares, lastTs := t.lastTs, recentWork := t.recent.workAt ts
    recentSecs := max 30 (min (ts - max windowStart t.firstTs) recentSecs), names }

/-- Every name held, by identity and then by name. -/
def rows (b : WorkerBook) (ts : Nat) : List Row :=
  (b.identities.entries.flatMap fun entry =>
    entry.snd.workers.entries.map fun worker =>
      row entry.fst worker.fst worker.snd.tally 0 ts).mergeSort fun a b =>
      decide (a.identity < b.identity ∨ a.identity = b.identity ∧ a.name ≤ b.name)

/-- What names that made room had done, and last that of identities which hold no name. -/
def overflow (b : WorkerBook) (ts : Nat) : List Row :=
  ((b.identities.entries.filter fun entry => 0 < entry.snd.overflow.names).map fun entry =>
    row entry.fst [] entry.snd.overflow.tally entry.snd.overflow.names ts).mergeSort (fun a b =>
      decide (a.identity ≤ b.identity)) ++
    if 0 < b.rest.names then [row [] [] b.rest.tally b.rest.names ts] else []

end WorkerBook

/-- Work and shares together. -/
def WorkTally.effort (t : WorkTally) : Nat × Nat := (t.work, t.shares)

def Named.effort (named : Named) : Nat × Nat :=
  Tally.total (fun w => w.tally.effort) named.workers + named.overflow.tally.effort

def WorkerBook.effort (b : WorkerBook) : Nat × Nat :=
  Tally.total Named.effort b.identities + b.rest.tally.effort

/-- No sum leaves its width. -/
def Counts (effort : Nat × Nat) : Prop := effort.1 ≤ u64Max ∧ effort.2 ≤ u64Max

section Effort

theorem WorkTally.effort_add {t : WorkTally} {work : Nat} (counts : Counts (t.effort + (work, 1))) (ts : Nat) :
    (t.add work ts).effort = t.effort + (work, 1) :=
  Prod.ext (satAdd_eq counts.1) (satAdd_eq counts.2)

/-- A tally that counts no share counts no work. -/
theorem WorkTally.effort_absorb {t other : WorkTally} (real : other.shares = 0 → other.work = 0)
    (counts : Counts (t.effort + other.effort)) : (t.absorb other).effort = t.effort + other.effort := by
  unfold WorkTally.absorb
  split
  · rename_i none
    exact Prod.ext (by simp [WorkTally.effort, real none]) (by simp [WorkTally.effort, none])
  · exact Prod.ext (satAdd_eq counts.1) (satAdd_eq counts.2)

theorem Counts.mono {effort more : Nat × Nat} (counts : Counts more) (less : effort ≤ more) : Counts effort :=
  ⟨less.1.trans counts.1, less.2.trans counts.2⟩

private theorem le_total {β : Type} (measure : β → Nat × Nat) {book : Table (List Char) β}
    {key : List Char} {value : β} (found : book.get? key = some value) :
    measure value ≤ Tally.total measure book := by
  have parts := Tally.total_erase measure book key
  rw [show AList.lookup key book = some value from found] at parts
  rw [← parts]
  exact le_add_of_nonneg_left zero_le

end Effort

namespace Overflow

/-- An overflow that has taken no name is empty, and one that counts no share counts no work. -/
structure Sound (o : Overflow) : Prop where
  empty : o.names = 0 → o.tally.effort = 0
  real : o.tally.shares = 0 → o.tally.work = 0

theorem sound_empty : Sound {} := ⟨fun _ => rfl, fun _ => rfl⟩

variable {o other : Overflow} {w : Worker}

theorem effort_take (real : w.tally.shares = 0 → w.tally.work = 0)
    (counts : Counts (o.tally.effort + w.tally.effort)) :
    (o.take w).tally.effort = o.tally.effort + w.tally.effort :=
  WorkTally.effort_absorb real counts

theorem Sound.take (sound : Sound o) (real : w.tally.shares = 0 → w.tally.work = 0)
    (counts : Counts (o.tally.effort + w.tally.effort)) : Sound (o.take w) := by
  have sum := effort_take real counts
  constructor
  · intro none
    simp [Overflow.take] at none
  · intro none
    have shares := congrArg Prod.snd sum
    have work := congrArg Prod.fst sum
    simp only [WorkTally.effort, Prod.snd_add, Prod.fst_add] at shares work
    have mine := sound.real
    omega

theorem effort_absorb (sound : Sound other) (counts : Counts (o.tally.effort + other.tally.effort)) :
    (o.absorb other).tally.effort = o.tally.effort + other.tally.effort :=
  WorkTally.effort_absorb sound.real counts

theorem Sound.absorb (sound : Sound o) (sound' : Sound other)
    (counts : Counts (o.tally.effort + other.tally.effort)) : Sound (o.absorb other) := by
  have sum := effort_absorb sound' counts
  constructor
  · intro none
    have both : o.names = 0 ∧ other.names = 0 := satAdd_eq_zero.mp none
    rw [sum, sound.empty both.1, sound'.empty both.2]
    rfl
  · intro none
    have shares := congrArg Prod.snd sum
    have work := congrArg Prod.fst sum
    simp only [WorkTally.effort, Prod.snd_add, Prod.fst_add] at shares work
    have mine := sound.real
    have theirs := sound'.real
    omega

end Overflow

namespace WorkerBook

/-- Names held under all identities. -/
def held (b : WorkerBook) : Nat := Tally.total (fun named => named.workers.size) b.identities

/-- The names are counted and within bounds, no identity is kept without one, and every tally is of
shares that were noted. -/
structure Kept (b : WorkerBook) : Prop where
  names : b.names = b.held
  session : b.names ≤ maxPerSession
  each : ∀ id named, b.identities.get? id = some named →
    0 < named.workers.size ∧ named.workers.size ≤ maxPerIdentity
  workers : ∀ id name w, b.hold id name = some w → w.tally.shares ≠ 0
  overflow : ∀ id named, b.identities.get? id = some named → named.overflow.Sound
  rest : b.rest.Sound

theorem kept_empty : Kept {} where
  names := rfl
  session := Nat.zero_le _
  each := nofun
  workers := nofun
  overflow := nofun
  rest := Overflow.sound_empty

variable {b : WorkerBook} {id name : List Char} {named : Named} {w : Worker}

theorem hold_eq_some : b.hold id name = some w ↔
    ∃ named, b.identities.get? id = some named ∧ named.workers.get? name = some w := Option.bind_eq_some_iff

/-- A book without one of its names. -/
def drop (b : WorkerBook) (id name : List Char) (named : Named) (w : Worker) : WorkerBook :=
  let left : Named := { workers := named.workers.erase name, overflow := named.overflow.take w }
  if left.workers.size = 0 then
    { b with identities := b.identities.erase id, names := b.names - 1, rest := b.rest.absorb left.overflow }
  else { b with identities := b.identities.insert id left, names := b.names - 1 }

/-- What making room for a name does: the name least recently seen of those that may go is
dropped, if there is one. -/
inductive Evicts (b : WorkerBook) (within : Option (List Char)) : WorkerBook → Prop
  | idle (none : ∀ id name, (∀ only ∈ within, only = id) → b.hold id name = none) : Evicts b within b
  | dropped {id name : List Char} {named : Named} {w : Worker} (found : b.identities.get? id = some named)
      (here : named.workers.get? name = some w) (inside : ∀ only ∈ within, only = id)
      (least : ∀ id' name' w', (∀ only ∈ within, only = id') → b.hold id' name' = some w' → w.seen ≤ w'.seen) :
      Evicts b within (b.drop id name named w)

theorem mem_candidates {within : Option (List Char)} {seen : Nat} : (seen, id, name) ∈ b.candidates within ↔
    (∀ only ∈ within, only = id) ∧ ∃ w, b.hold id name = some w ∧ w.seen = seen := by
  simp only [candidates, List.mem_flatMap, List.mem_filter, List.mem_map, hold_eq_some, ← Table.mem_entries]
  constructor
  · rintro ⟨⟨id', named⟩, ⟨listed, inside⟩, ⟨name', w⟩, here, same⟩
    cases same
    exact ⟨by simpa [Option.all_eq_true] using inside, w, ⟨named, listed, here⟩, rfl⟩
  · rintro ⟨inside, w, ⟨named, listed, here⟩, rfl⟩
    exact ⟨⟨id, named⟩, ⟨listed, by simpa [Option.all_eq_true] using inside⟩, ⟨name, w⟩, here, rfl⟩

theorem evict_spec (b : WorkerBook) (within : Option (List Char)) : Evicts b within (b.evict within) := by
  unfold evict
  cases oldest : (b.candidates within).argmin Prod.fst with
  | none =>
    have empty := List.argmin_eq_none.mp oldest
    refine .idle fun id name inside => ?_
    by_contra some
    obtain ⟨w, here⟩ := Option.ne_none_iff_exists'.mp some
    have member := mem_candidates.mpr ⟨inside, w, here, rfl⟩
    rw [empty] at member
    cases member
  | some first =>
    obtain ⟨seen, id, name⟩ := first
    obtain ⟨inside, w, here, rfl⟩ := mem_candidates.mp (List.argmin_mem oldest)
    obtain ⟨named, found, here⟩ := hold_eq_some.mp here
    have least : ∀ id' name' w', (∀ only ∈ within, only = id') → b.hold id' name' = some w' →
        w.seen ≤ w'.seen := by
      intro id' name' w' inside' there
      have member : (w'.seen, id', name') ∈ b.candidates within := mem_candidates.mpr ⟨inside', w', there, rfl⟩
      have less : Prod.fst (w.seen, id, name) ≤ Prod.fst (w'.seen, id', name') :=
        List.le_of_mem_argmin member oldest
      exact less
    simp only [found, here]
    exact .dropped found here inside least

section Drop

/-- What an identity holds when one of its names is gone. -/
def left (named : Named) (name : List Char) (w : Worker) : Named where
  workers := named.workers.erase name
  overflow := named.overflow.take w

theorem drop_eq (b : WorkerBook) (id name : List Char) (named : Named) (w : Worker) : b.drop id name named w =
    if (left named name w).workers.size = 0 then
      { b with identities := b.identities.erase id, names := b.names - 1,
               rest := b.rest.absorb (left named name w).overflow }
    else { b with identities := b.identities.insert id (left named name w), names := b.names - 1 } := rfl

theorem get?_drop (id' : List Char) : (b.drop id name named w).identities.get? id' =
    if id' = id then if (left named name w).workers.size = 0 then none else some (left named name w)
    else b.identities.get? id' := by
  rw [drop_eq]
  split
  · rw [Table.get?_erase]
  · rw [Table.get?_insert]

variable (found : b.identities.get? id = some named) (here : named.workers.get? name = some w)

include found

/-- A name that is dropped is held no more, and the others are as before. -/
theorem hold_drop (id' name' : List Char) :
    (b.drop id name named w).hold id' name' = if id' = id ∧ name' = name then none else b.hold id' name' := by
  have kept : (left named name w).workers.get? name' = if name' = name then
    none else named.workers.get? name' :=
    Table.get?_erase named.workers name name'
  unfold hold
  rw [get?_drop]
  by_cases same : id' = id
  · subst same
    rw [if_pos rfl, found, Option.bind_some]
    split
    · rename_i none
      have gone : (left named name w).workers.get? name' = Option.none := by
        by_contra some
        obtain ⟨w', there⟩ := Option.ne_none_iff_exists'.mp some
        have listed := Table.mem_entries.mpr there
        rw [Table.entries_of_size_eq_zero none] at listed
        cases listed
      rw [gone] at kept
      simpa using kept
    · rw [Option.bind_some, kept]
      simp
  · rw [if_neg same, if_neg fun both => same both.1]

include here

omit found in
theorem size_left : (left named name w).workers.size + 1 = named.workers.size := Table.size_erase here

theorem held_drop : (b.drop id name named w).held + 1 = b.held := by
  have size := size_left here
  unfold held
  rw [drop_eq]
  split
  · have parts := Tally.total_erase (fun named : Named => named.workers.size) b.identities id
    rw [show AList.lookup id b.identities = some named from found] at parts
    simp only [Option.map_some, Option.getD_some] at parts
    show Tally.total _ (AList.erase id b.identities) + 1 = _
    omega
  · have parts :=
      Tally.total_insert (fun named : Named => named.workers.size) b.identities id (left named name w)
    rw [show AList.lookup id b.identities = some named from found] at parts
    simp only [Option.map_some, Option.getD_some] at parts
    show Tally.total _ (AList.insert id (left named name w) b.identities) + 1 = _
    omega

/-- What a name has done is part of what its identity has. -/
theorem effort_left (real : w.tally.shares = 0 → w.tally.work = 0) (counts : Counts b.effort) :
    (left named name w).effort = named.effort ∧ Counts (named.overflow.tally.effort + w.tally.effort) := by
  have parts := Tally.total_erase (fun w : Worker => w.tally.effort) named.workers name
  rw [show AList.lookup name named.workers = some w from here] at parts
  simp only [Option.map_some, Option.getD_some] at parts
  have part : named.overflow.tally.effort + w.tally.effort ≤ named.effort := by
    rw [Named.effort, add_comm]
    exact add_le_add_left (le_total (fun w : Worker => w.tally.effort) here) _
  have whole : named.effort ≤ b.effort := (le_total Named.effort found).trans (le_add_of_nonneg_right zero_le)
  have fits := counts.mono (part.trans whole)
  refine ⟨?_, fits⟩
  show Tally.total _ (AList.erase name named.workers) + (named.overflow.take w).tally.effort = _
  rw [Overflow.effort_take real fits, Named.effort, ← parts]
  ac_rfl

omit found here in
/-- An identity without a name has done what is in its overflow. -/
theorem effort_emptied (none : (left named name w).workers.size = 0) :
    (left named name w).effort = (left named name w).overflow.tally.effort := by
  rw [Named.effort, Tally.total, Table.entries_of_size_eq_zero none]
  exact zero_add _

omit here in
theorem counts_rest (none : (left named name w).workers.size = 0)
    (same : (left named name w).effort = named.effort)
    (counts : Counts b.effort) : Counts (b.rest.tally.effort + (left named name w).overflow.tally.effort) := by
  refine counts.mono ?_
  rw [WorkerBook.effort, add_comm, ← effort_emptied none, same]
  exact add_le_add_left (le_total Named.effort found) _

/-- Nothing that was done is lost with a name. -/
theorem effort_drop (kept : Kept b) (counts : Counts b.effort) :
    (b.drop id name named w).effort = b.effort := by
  have shares := kept.workers id name w (hold_eq_some.mpr ⟨named, found, here⟩)
  have real : w.tally.shares = 0 → w.tally.work = 0 := fun none => absurd none shares
  obtain ⟨same, fits⟩ := effort_left found here real counts
  have sound : (left named name w).overflow.Sound := (kept.overflow id named found).take real fits
  unfold WorkerBook.effort
  rw [drop_eq]
  split
  · rename_i none
    have parts := Tally.total_erase Named.effort b.identities id
    rw [show AList.lookup id b.identities = some named from found] at parts
    simp only [Option.map_some, Option.getD_some, ← same, effort_emptied none] at parts
    show Tally.total Named.effort (AList.erase id b.identities) + (b.rest.absorb _).tally.effort = _
    rw [Overflow.effort_absorb sound (counts_rest found none same counts), ← parts]
    ac_rfl
  · have parts := Tally.total_insert Named.effort b.identities id (left named name w)
    rw [show AList.lookup id b.identities = some named from found] at parts
    simp only [Option.map_some, Option.getD_some, same] at parts
    exact congrArg (· + b.rest.tally.effort) (add_right_cancel parts)

theorem Kept.drop (kept : Kept b) (counts : Counts b.effort) : Kept (b.drop id name named w) := by
  have shares := kept.workers id name w (hold_eq_some.mpr ⟨named, found, here⟩)
  have real : w.tally.shares = 0 → w.tally.work = 0 := fun none => absurd none shares
  obtain ⟨same, fits⟩ := effort_left found here real counts
  have sound : (left named name w).overflow.Sound := (kept.overflow id named found).take real fits
  have names : (b.drop id name named w).names = b.names - 1 := by
    rw [drop_eq]
    split <;> rfl
  have fewer := held_drop found here
  refine ⟨?_, ?_, fun id' named' there => ?_, fun id' name' w' there => ?_, fun id' named' there => ?_, ?_⟩
  · rw [names, kept.names]
    omega
  · rw [names]
    exact (Nat.sub_le _ _).trans kept.session
  · rw [get?_drop] at there
    split at there
    · split at there
      · cases there
      · cases there
        have size := size_left here
        have bounds := kept.each id named found
        omega
    · exact kept.each id' named' there
  · rw [hold_drop found] at there
    split at there
    · cases there
    · exact kept.workers id' name' w' there
  · rw [get?_drop] at there
    split at there
    · split at there
      · cases there
      · cases there
        exact sound
    · exact kept.overflow id' named' there
  · rw [drop_eq]
    split
    · rename_i none
      exact kept.rest.absorb sound (counts_rest found none same counts)
    · exact kept.rest

end Drop

section Room

theorem exists_hold (kept : Kept b) (found : b.identities.get? id = some named) :
    ∃ name w, b.hold id name = some w := by
  obtain ⟨some, -⟩ := kept.each id named found
  obtain ⟨⟨name, w⟩, listed⟩ := List.exists_mem_of_length_pos some
  exact ⟨name, w, hold_eq_some.mpr ⟨named, found, Table.mem_entries.mp listed⟩⟩

/-- A name went: the one least recently seen of its identity, which held as many as it may, or of
the session, which did. -/
def Due (b : WorkerBook) (identity id name : List Char) : Prop :=
  ∃ w, b.hold id name = some w ∧
    ((id = identity ∧ (∃ named, b.identities.get? id = some named ∧ maxPerIdentity ≤ named.workers.size) ∧
        ∀ name' w', b.hold id name' = some w' → w.seen ≤ w'.seen) ∨
      maxPerSession ≤ b.names ∧ ∀ id' name' w', b.hold id' name' = some w' → w.seen ≤ w'.seen)

/-- A book with room for one more name of an identity. It holds what it held, but for a name that was due. -/
structure Roomy (b : WorkerBook) (identity : List Char) (b' : WorkerBook) : Prop where
  kept : Kept b'
  effort : b'.effort = b.effort
  seen : b'.seen = b.seen
  session : b'.names < maxPerSession
  each : ∀ named, b'.identities.get? identity = some named → named.workers.size < maxPerIdentity
  hold : ∀ id name, b'.hold id name = b.hold id name ∨ b'.hold id name = none ∧ Due b identity id name

theorem seen_drop : (b.drop id name named w).seen = b.seen := by
  rw [drop_eq]
  split <;> rfl

/-- What a name that is due leaves when it is dropped. -/
theorem roomy_drop {identity : List Char} (kept : Kept b) (counts : Counts b.effort)
    (found : b.identities.get? id = some named) (here : named.workers.get? name = some w)
    (due : Due b identity id name)
    (other : id ≠ identity → ∀ named, b.identities.get? identity = some named →
      named.workers.size < maxPerIdentity) :
    Roomy b identity (b.drop id name named w) := by
  have after := kept.drop found here counts
  have fewer := held_drop found here
  refine ⟨after, effort_drop found here kept counts, seen_drop, ?_, fun named' there => ?_, fun id' name' => ?_⟩
  · have before := kept.names
    have bound := kept.session
    have names := after.names
    omega
  · rw [get?_drop] at there
    by_cases mine : identity = id
    · rw [if_pos mine] at there
      split at there
      · cases there
      · cases there
        have size := size_left here
        have bounds := kept.each id named found
        omega
    · rw [if_neg mine] at there
      exact other (Ne.symm mine) named' there
  · rw [hold_drop found]
    split
    · rename_i both
      exact .inr ⟨rfl, both.1 ▸ both.2 ▸ due⟩
    · exact .inl rfl

theorem roomy_makeRoom (kept : Kept b) (counts : Counts b.effort) (identity : List Char) :
    Roomy b identity (b.makeRoom identity) := by
  unfold makeRoom
  split
  · rename_i full
    obtain ⟨mine, there, many⟩ : ∃ mine, b.identities.get? identity = some mine ∧
        maxPerIdentity ≤ mine.workers.size := by
      simpa [Option.any_eq_true] using full
    have spec := evict_spec b (some identity)
    generalize b.evict (some identity) = b' at spec ⊢
    cases spec with
    | idle none =>
      obtain ⟨name, w, held⟩ := exists_hold kept there
      rw [none identity name (by simp)] at held
      cases held
    | @dropped id name named w found here inside least =>
      obtain rfl := inside identity rfl
      refine roomy_drop kept counts found here ⟨w, hold_eq_some.mpr ⟨named, found, here⟩, .inl ?_⟩ fun apart =>
        absurd rfl apart
      exact ⟨rfl, ⟨mine, there, many⟩, fun name' w' held => least _ name' w' (by simp) held⟩
  · rename_i free
    have few : ∀ named, b.identities.get? identity = some named → named.workers.size < maxPerIdentity := by
      intro named there
      simpa [there] using free
    split
    · rename_i crowded
      have spec := evict_spec b none
      generalize b.evict none = b' at spec ⊢
      cases spec with
      | idle none =>
        have empty : b.identities.entries = [] := by
          refine List.eq_nil_iff_forall_not_mem.mpr fun entry listed => ?_
          obtain ⟨name, w, held⟩ := exists_hold kept (Table.mem_entries.mp listed)
          rw [none _ name (by simp)] at held
          cases held
        have nobody : b.held = 0 := by
          rw [held, Tally.total, empty]
          rfl
        have names := kept.names
        unfold maxPerSession at crowded
        omega
      | @dropped id name named w found here inside least =>
        refine roomy_drop kept counts found here
          ⟨w, hold_eq_some.mpr ⟨named, found, here⟩, .inr ⟨crowded, ?_⟩⟩ fun _ => few
        exact fun id' name' w' held => least id' name' w' (by simp) held
    · exact ⟨kept, rfl, rfl, by omega, few, fun _ _ => .inl rfl⟩

end Room

section Put

/-- A book with a worker written into it. -/
def put (b : WorkerBook) (id name : List Char) (w : Worker) (names : Nat) : WorkerBook :=
  let named := (b.identities.get? id).getD {}
  { b with identities := b.identities.insert id { named with workers := named.workers.insert name w }, names }

theorem get?_put (names : Nat) (id' : List Char) : (b.put id name w names).identities.get? id' =
    if id' = id then some { (b.identities.get? id).getD {} with
      workers := ((b.identities.get? id).getD {}).workers.insert name w } else b.identities.get? id' :=
  Table.get?_insert _ _ _ _

/-- What an identity held, nothing where it is new. -/
theorem get?_workers (b : WorkerBook) (id name : List Char) :
    ((b.identities.get? id).getD {}).workers.get? name = b.hold id name := by
  unfold hold
  cases b.identities.get? id with
  | none => rfl
  | some named => rfl

theorem hold_put (names : Nat) (id' name' : List Char) :
    (b.put id name w names).hold id' name' = if id' = id ∧ name' = name then some w else b.hold id' name' := by
  unfold hold
  rw [get?_put]
  by_cases same : id' = id
  · subst same
    rw [if_pos rfl, Option.bind_some]
    dsimp only
    rw [Table.get?_insert, get?_workers]
    simp [hold]
  · rw [if_neg same, if_neg fun both => same both.1]

theorem effort_put (names : Nat) :
    (b.put id name w names).effort + ((b.hold id name).map fun w => w.tally.effort).getD 0 =
    b.effort + w.tally.effort := by
  have outer := Tally.total_insert Named.effort b.identities id { (b.identities.get? id).getD {} with
    workers := ((b.identities.get? id).getD {}).workers.insert name w }
  have inner :=
    Tally.total_insert (fun w : Worker => w.tally.effort) ((b.identities.get? id).getD {}).workers name w
  have before : ((b.identities.get? id).map Named.effort).getD 0 = ((b.identities.get? id).getD {}).effort := by
    cases b.identities.get? id with
    | none => rfl
    | some named => rfl
  rw [show AList.lookup id b.identities = b.identities.get? id from rfl,
    before, Named.effort, Named.effort] at outer
  rw [show AList.lookup name ((b.identities.get? id).getD {}).workers =
    b.hold id name from get?_workers b id name] at inner
  refine Prod.ext ?_ ?_
  · have outer := congrArg Prod.fst outer
    have inner := congrArg Prod.fst inner
    simp only [put, effort, Prod.fst_add] at outer inner ⊢
    omega
  · have outer := congrArg Prod.snd outer
    have inner := congrArg Prod.snd inner
    simp only [put, effort, Prod.snd_add] at outer inner ⊢
    omega

theorem held_put (names : Nat) : (b.put id name w names).held = b.held + if (b.hold id name).isSome then
    0 else 1 := by
  have outer := Tally.total_insert (fun named : Named => named.workers.size) b.identities id
    { (b.identities.get? id).getD {} with workers := ((b.identities.get? id).getD {}).workers.insert name w }
  have before : ((b.identities.get? id).map fun named => named.workers.size).getD 0 =
      ((b.identities.get? id).getD {}).workers.size := by
    cases b.identities.get? id with
    | none => rfl
    | some named => rfl
  rw [show AList.lookup id b.identities = b.identities.get? id from rfl, before] at outer
  have inner : Table.size (((b.identities.get? id).getD {}).workers.insert name w) =
      ((b.identities.get? id).getD {}).workers.size + if (b.hold id name).isSome then 0 else 1 := by
    rw [← get?_workers]
    cases there : ((b.identities.get? id).getD {}).workers.get? name with
    | none => exact Table.size_insert_new there w
    | some w' => exact Table.size_insert_old there w
  rw [inner] at outer
  dsimp only at outer
  simp only [held, put]
  omega

/-- What writing a worker keeps: its tally counts a share, and a new name finds room. -/
theorem Kept.put (kept : Kept b) (shares : w.tally.shares ≠ 0) {names : Nat}
    (counted : names = b.names + if (b.hold id name).isSome then 0 else 1) (session : names ≤ maxPerSession)
    (each : b.hold id name = none → ∀ named, b.identities.get? id = some named →
      named.workers.size < maxPerIdentity) :
    Kept (b.put id name w names) := by
  have inner : ∀ name', ((b.identities.get? id).getD {}).workers.get? name' = b.hold id name' :=
    get?_workers b id
  have size : 0 < Table.size (((b.identities.get? id).getD {}).workers.insert name w) ∧
      Table.size (((b.identities.get? id).getD {}).workers.insert name w) ≤ maxPerIdentity := by
    cases here : b.hold id name with
    | none =>
      rw [Table.size_insert_new ((inner name).trans here)]
      cases there : b.identities.get? id with
      | none => exact ⟨Nat.succ_pos _, by decide⟩
      | some named => exact ⟨Nat.succ_pos _, each here named there⟩
    | some w' =>
      rw [Table.size_insert_old ((inner name).trans here)]
      obtain ⟨named, there, -⟩ := hold_eq_some.mp here
      rw [there]
      exact kept.each id named there
  refine ⟨?_, session, fun id' named' there => ?_, fun id' name' w' there => ?_,
    fun id' named' there => ?_, kept.rest⟩
  · rw [held_put, ← kept.names]
    exact counted
  · rw [get?_put] at there
    split at there
    · cases there
      exact size
    · exact kept.each id' named' there
  · rw [hold_put] at there
    split at there
    · cases there
      exact shares
    · exact kept.workers id' name' w' there
  · rw [get?_put] at there
    split at there
    · cases there
      dsimp only
      cases mine : b.identities.get? id with
      | none => exact Overflow.sound_empty
      | some named => exact kept.overflow id named mine
    · exact kept.overflow id' named' there

end Put

section Note

/-- What counting a share does to a book: its worker is held and seen last, and any other name is
as it was, or was due. -/
structure Notes (decodes : List Char → Bool) (b : WorkerBook) (n : Noted) (b' : WorkerBook) : Prop where
  kept : Kept b'
  effort : b'.effort = b.effort + (n.work, 1)
  seen : b'.seen = b.seen + 1
  here : ∃ w, b'.hold n.identity (workerOf decodes n.username) = some w ∧ w.seen = b.seen + 1
  others : ∀ id name, ¬ (id = n.identity ∧ name = workerOf decodes n.username) →
    b'.hold id name = b.hold id name ∨ b'.hold id name = none ∧ Due b n.identity id name

theorem le_effort (held : b.hold id name = some w) : w.tally.effort ≤ b.effort := by
  obtain ⟨named, found, here⟩ := hold_eq_some.mp held
  calc w.tally.effort ≤ named.effort :=
        (le_total (fun w : Worker => w.tally.effort) here).trans (le_add_of_nonneg_right zero_le)
    _ ≤ Tally.total Named.effort b.identities := le_total Named.effort found
    _ ≤ b.effort := le_add_of_nonneg_right zero_le

variable {decodes : List Char → Bool} {n : Noted}

theorem notes_note (kept : Kept b) (counts : Counts (b.effort + (n.work, 1))) :
    Notes decodes b n (b.note decodes n) := by
  have before : Counts b.effort := counts.mono (le_add_of_nonneg_right zero_le)
  have seen : Kept { b with seen := b.seen + 1 } :=
    ⟨kept.names, kept.session, kept.each, kept.workers, kept.overflow, kept.rest⟩
  unfold note
  dsimp only
  have same : hold { b with seen := b.seen + 1 } n.identity (workerOf decodes n.username) =
    b.hold n.identity (workerOf decodes n.username) := rfl
  rw [same]
  cases held : b.hold n.identity (workerOf decodes n.username) with
  | some w =>
    have more : (w.tally.add n.work n.ts).effort = w.tally.effort + (n.work, 1) :=
      WorkTally.effort_add (counts.mono (add_le_add_left (le_effort held) _)) n.ts
    have sum := @effort_put { b with seen := b.seen + 1 } n.identity (workerOf decodes n.username)
      ⟨w.tally.add n.work n.ts, b.seen + 1⟩ b.names
    rw [same, held, Option.map_some, Option.getD_some, more, ← add_assoc, add_right_comm] at sum
    refine ⟨seen.put ?_ ?_ kept.session ?_, add_right_cancel sum, rfl, ?_, fun id name other => ?_⟩
    · simp [WorkTally.add]
    · rw [same, held]
      rfl
    · intro none
      rw [same, held] at none
      cases none
    · exact ⟨_, (hold_put b.names _ _).trans (if_pos ⟨rfl, rfl⟩), rfl⟩
    · exact .inl ((hold_put b.names id name).trans (if_neg other))
  | none =>
    have room := roomy_makeRoom seen before n.identity
    have gone : (makeRoom { b with seen := b.seen + 1 } n.identity).hold
        n.identity (workerOf decodes n.username) = none := by
      rcases room.hold n.identity (workerOf decodes n.username) with kept | ⟨gone, -⟩
      · exact kept.trans held
      · exact gone
    have more : (({} : WorkTally).add n.work n.ts).effort = (n.work, 1) := by
      rw [WorkTally.effort_add (counts.mono (add_le_add_left zero_le _))]
      exact zero_add _
    have sum :=
      @effort_put (makeRoom { b with seen := b.seen + 1 } n.identity) n.identity (workerOf decodes n.username)
      ⟨({} : WorkTally).add n.work n.ts, (makeRoom { b with seen := b.seen + 1 } n.identity).seen⟩
      ((makeRoom { b with seen := b.seen + 1 } n.identity).names + 1)
    rw [gone, Option.map_none, Option.getD_none, add_zero, more, room.effort] at sum
    refine ⟨room.kept.put ?_ ?_ (Nat.succ_le_of_lt room.session) ?_, sum,
      room.seen, ?_, fun id name other => ?_⟩
    · simp [WorkTally.add]
    · rw [gone]
      rfl
    · exact fun _ => room.each
    · exact ⟨_, (hold_put _ _ _).trans (if_pos ⟨rfl, rfl⟩), room.seen⟩
    · have there :=
        (@hold_put (makeRoom { b with seen := b.seen + 1 } n.identity) n.identity (workerOf decodes n.username)
        ⟨({} : WorkTally).add n.work n.ts, (makeRoom { b with seen := b.seen + 1 } n.identity).seen⟩
        ((makeRoom { b with seen := b.seen + 1 } n.identity).names + 1) id name).trans (if_neg other)
      rcases room.hold id name with kept | ⟨gone, due⟩
      · exact .inl (there.trans kept)
      · exact .inr ⟨there.trans gone, due⟩

end Note

section Rows

/-- What the names that are held have done. -/
theorem sum_rows (b : WorkerBook) (ts : Nat) : ((b.rows ts).map fun r => (r.work, r.shares)).sum =
    (b.identities.entries.map fun entry => Tally.total (fun w : Worker => w.tally.effort)
      entry.snd.workers).sum := by
  unfold rows
  rw [((List.mergeSort_perm _ _).map _).sum_eq]
  induction b.identities.entries with
  | nil => rfl
  | cons entry rest ih =>
    rw [List.flatMap_cons, List.map_append, List.sum_append, ih, List.map_cons, List.sum_cons, List.map_map]
    rfl

/-- What the names that made room had done. -/
theorem sum_overflow (kept : Kept b) (ts : Nat) : ((b.overflow ts).map fun r => (r.work, r.shares)).sum =
    (b.identities.entries.map fun entry => entry.snd.overflow.tally.effort).sum + b.rest.tally.effort := by
  have listed : ∀ entry ∈ b.identities.entries, entry.snd.overflow.Sound := fun entry member =>
    kept.overflow _ _ (Table.mem_entries.mp member)
  unfold overflow
  rw [List.map_append, List.sum_append, ((List.mergeSort_perm _ _).map _).sum_eq, List.map_map]
  congr 1
  · revert listed
    induction b.identities.entries with
    | nil => exact fun _ => rfl
    | cons entry rest ih =>
      intro listed
      have later := ih fun other member => listed other (List.mem_cons_of_mem _ member)
      by_cases some : 0 < entry.snd.overflow.names
      · rw [List.filter_cons_of_pos (by simpa using some), List.map_cons,
          List.sum_cons, later, List.map_cons, List.sum_cons]
        rfl
      · rw [List.filter_cons_of_neg (by simpa using some), later, List.map_cons, List.sum_cons,
          (listed entry (by simp)).empty (Nat.eq_zero_of_not_pos some), zero_add]
  · split
    · exact add_zero _
    · rename_i none
      exact (kept.rest.empty (Nat.eq_zero_of_not_pos none)).symm

/-- The rows and the overflow are all that was done. -/
theorem sum_all (kept : Kept b) (ts : Nat) :
    ((b.rows ts ++ b.overflow ts).map fun r => (r.work, r.shares)).sum = b.effort := by
  rw [List.map_append, List.sum_append, sum_rows, sum_overflow kept, ← add_assoc, ← List.sum_map_add]
  rfl

end Rows

section Run

/-- The number of the last share that was noted under a name, none being 0. -/
def lastSeen (decodes : List Char → Bool) (notes : List Noted) (id name : List Char) : Nat :=
  notes.length - notes.reverse.findIdx fun n => n.identity = id ∧ workerOf decodes n.username = name

variable {decodes : List Char → Bool} {notes : List Noted} {n : Noted}

theorem lastSeen_append (id name : List Char) : lastSeen decodes (notes ++ [n]) id name =
    if id = n.identity ∧ name = workerOf decodes n.username then notes.length + 1 else
      lastSeen decodes notes id name := by
  unfold lastSeen
  rw [List.reverse_append, List.reverse_singleton, List.singleton_append, List.findIdx_cons, List.length_append,
    List.length_singleton]
  by_cases same : id = n.identity ∧ name = workerOf decodes n.username
  · rw [if_pos same, same.1, same.2]
    simp
  · have other : ¬ (n.identity = id ∧ workerOf decodes n.username = name) :=
      fun both => same ⟨both.1.symm, both.2.symm⟩
    rw [if_neg same]
    simp only [other, decide_false, cond_false]
    omega

/-- What a run leaves: a book that keeps its bounds, all the work that was noted, and each
name with its last share. -/
structure Told (decodes : List Char → Bool) (notes : List Noted) (b : WorkerBook) : Prop where
  kept : Kept b
  effort : b.effort = ((notes.map Noted.work).sum, notes.length)
  seen : b.seen = notes.length
  last : ∀ id name w, b.hold id name = some w → w.seen = lastSeen decodes notes id name

theorem told_empty : Told decodes [] {} where
  kept := kept_empty
  effort := rfl
  seen := rfl
  last := nofun

theorem Told.note (told : Told decodes notes b)
    (counts : Counts (((notes ++ [n]).map Noted.work).sum, (notes ++ [n]).length)) :
    Told decodes (notes ++ [n]) (b.note decodes n) := by
  have sum : b.effort + (n.work, 1) = (((notes ++ [n]).map Noted.work).sum, (notes ++ [n]).length) := by
    rw [told.effort]
    simp
  have noted : Notes decodes b n (b.note decodes n) := notes_note told.kept (sum ▸ counts)
  refine ⟨noted.kept, noted.effort.trans sum, ?_, fun id name w held => ?_⟩
  · rw [noted.seen, told.seen, List.length_append, List.length_singleton]
  · rw [lastSeen_append]
    by_cases same : id = n.identity ∧ name = workerOf decodes n.username
    · obtain ⟨w', here, last⟩ := noted.here
      rw [same.1, same.2, here] at held
      cases held
      rw [if_pos same, last, told.seen]
    · rw [if_neg same]
      rcases noted.others id name same with kept | ⟨gone, -⟩
      · exact told.last id name w (kept ▸ held)
      · rw [gone] at held
        cases held

theorem told_run (notes : List Noted) (counts : Counts ((notes.map Noted.work).sum, notes.length)) :
    Told decodes notes (notes.foldl (WorkerBook.note decodes) {}) := by
  induction notes using List.reverseRecOn with
  | nil => exact told_empty
  | append_singleton notes n ih =>
    rw [List.foldl_append]
    refine Told.note (ih (counts.mono ⟨?_, ?_⟩)) counts
    · simp
    · simp

end Run

end WorkerBook

open WorkerBook in
/-- **Worker tallies lose nothing.** After any notes the rows and the overflow add up to the work and the
shares that were noted; an identity and the session hold no more names than they may, and an identity at
least one; and every name that went at a note had its last share longest ago, of an identity that was full or
of a session that was. -/
theorem worker_tallies_lose_nothing (decodes : List Char → Bool) (notes : List Noted) (ts : Nat)
    (work : (notes.map Noted.work).sum ≤ u64Max) (shares : notes.length ≤ u64Max) :
    let b := notes.foldl (WorkerBook.note decodes) {}
    ((b.rows ts ++ b.overflow ts).map Row.work).sum = (notes.map Noted.work).sum ∧
      ((b.rows ts ++ b.overflow ts).map Row.shares).sum = notes.length ∧
      (∀ id named, b.identities.get? id = some named →
        0 < named.workers.size ∧ named.workers.size ≤ maxPerIdentity) ∧
      b.names = (b.identities.values.map fun named => named.workers.size).sum ∧ b.names ≤ maxPerSession ∧
      ∀ before n after, notes = before ++ n :: after →
        let b := before.foldl (WorkerBook.note decodes) {}
        ∀ id name, (b.hold id name).isSome → (b.note decodes n).hold id name = none →
          (id = n.identity ∧
            (∃ named, b.identities.get? id = some named ∧ maxPerIdentity ≤ named.workers.size) ∧
              ∀ name', (b.hold id name').isSome →
              lastSeen decodes before id name ≤ lastSeen decodes before id name') ∨
            maxPerSession ≤ b.names ∧ ∀ id' name', (b.hold id' name').isSome →
              lastSeen decodes before id name ≤ lastSeen decodes before id' name' := by
  have told := @told_run decodes notes ⟨work, shares⟩
  have all := sum_all told.kept ts
  rw [told.effort] at all
  refine ⟨?_, ?_, told.kept.each, ?_, told.kept.session, fun before n after split => ?_⟩
  · have sum := congrArg (AddMonoidHom.fst Nat Nat) all
    rw [map_list_sum, List.map_map] at sum
    exact sum
  · have sum := congrArg (AddMonoidHom.snd Nat Nat) all
    rw [map_list_sum, List.map_map] at sum
    exact sum
  · rw [told.kept.names, held, Tally.total, Table.values, List.map_map]
    rfl
  · intro b id name some gone
    subst split
    obtain ⟨w, here⟩ := Option.isSome_iff_exists.mp some
    have earlier : Counts ((before.map Noted.work).sum + n.work, before.length + 1) := by
      constructor
      · refine le_trans ?_ work
        simp
      · refine le_trans ?_ shares
        simp
    have told := @told_run decodes before (earlier.mono ⟨Nat.le_add_right _ _, Nat.le_add_right _ _⟩)
    have noted := @notes_note b decodes n told.kept (by rw [told.effort]; exact earlier)
    have other : ¬ (id = n.identity ∧ name = workerOf decodes n.username) := by
      rintro ⟨rfl, rfl⟩
      obtain ⟨w', there, -⟩ := noted.here
      rw [there] at gone
      cases gone
    rcases noted.others id name other with kept | ⟨-, due⟩
    · rw [← kept, gone] at here
      cases here
    · obtain ⟨w', here', due⟩ := due
      have first := told.last id name w' here'
      rcases due with ⟨mine, full, least⟩ | ⟨full, least⟩
      · refine .inl ⟨mine, full, fun name' there => ?_⟩
        obtain ⟨w'', there⟩ := Option.isSome_iff_exists.mp there
        rw [← first, ← told.last id name' w'' there]
        exact least name' w'' there
      · refine .inr ⟨full, fun id' name' there => ?_⟩
        obtain ⟨w'', there⟩ := Option.isSome_iff_exists.mp there
        rw [← first, ← told.last id' name' w'' there]
        exact least id' name' w'' there

/-- Two rigs of one identity, the first of them twice. -/
def twoRigs : List Noted :=
  [⟨"a".toList, "a.rig".toList, 4, 0⟩, ⟨"a".toList, "a.other".toList, 2, 60⟩,
    ⟨"a".toList, "a.rig".toList, 4, 120⟩]

theorem worker_tallies_lose_nothing_twoRigs :
    let b := twoRigs.foldl (WorkerBook.note fun _ => false) {}
    ((b.rows 180 ++ b.overflow 180).map Row.work).sum = (twoRigs.map Noted.work).sum ∧
      ((b.rows 180 ++ b.overflow 180).map Row.shares).sum = twoRigs.length :=
  have told := worker_tallies_lose_nothing (fun _ => false) twoRigs 180 (by decide) (by decide)
  ⟨told.1, told.2.1⟩

end Lazarus.Primed
