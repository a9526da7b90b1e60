import Mathlib

/-! A view of a store, cached for many readers. The cache and the store have a lock each. A reader takes the
cache's lock and, to build the view again, the store's inside it. A writer either takes both the same way
round and clears the cache before it lets go, or changes the store first and clears the cache after. -/

namespace CachedView

/-- What is cached, and the two kinds of writer. The second may find that there is nothing to do. -/
structure Protocol (σ : Type u) (ν : Type v) (κ : Type w) (μ : Type x) where
  view : σ → ν
  book : κ → σ → σ
  move : μ → σ → Option σ

/-- How far a thread has come with what it does. -/
inductive Phase (ν : Type v) (κ : Type w) (μ : Type x) where
  | idle
  | asking
  | looking
  | waiting
  | reading
  | built (v : ν)
  | holding (v : ν)
  | booking (k : κ)
  | bookingCache (k : κ)
  | bookingBoth (k : κ)
  | booked
  | bookedCache
  | moving (m : μ)
  | movingStore (m : μ)
  | moved (changed : Bool)
  | dropping
  | droppingCache
deriving DecidableEq

namespace Phase

variable {ν : Type v} {κ : Type w} {μ : Type x}

/-- The thread has the lock on the cache. -/
def holdsCache : Phase ν κ μ → Bool
  | looking | waiting | reading | built _ | holding _ => true
  | bookingCache _ | bookingBoth _ | booked | bookedCache | droppingCache => true
  | _ => false

/-- The view a reader has in hand. -/
def inHand : Phase ν κ μ → Option ν
  | built v | holding v => some v
  | _ => none

def isIdle : Phase ν κ μ → Bool
  | idle => true
  | _ => false

/-- The thread has changed the store and has still to clear the cache. -/
def pending : Phase ν κ μ → Bool
  | booked | bookedCache | moved true | dropping | droppingCache => true
  | _ => false

/-- The thread is pending, with the cache's lock in hand if `hold` asks for it. -/
def Owes (hold : Prop) (p : Phase ν κ μ) : Prop := p.pending = true ∧ (hold → p.holdsCache = true)

theorem holdsCache_of_inHand {p : Phase ν κ μ} {v : ν} (hand : p.inHand = some v) : p.holdsCache = true := by
  cases p with
  | built v => rfl
  | holding v => rfl
  | _ => cases hand

theorem pending_of_isIdle {p : Phase ν κ μ} (done : p.isIdle = true) : p.pending = false := by
  cases p with
  | idle => rfl
  | _ => cases done

theorem pending_of_inHand {p : Phase ν κ μ} {v : ν} (hand : p.inHand = some v) : p.pending = false := by
  cases p with
  | built v => rfl
  | holding v => rfl
  | _ => cases hand

end Phase

structure State (σ : Type u) (ν : Type v) (κ : Type w) (μ : Type x) (τ : Type y) where
  store : σ
  cached : Option ν := none
  cacheLock : Option τ := none
  storeLock : Option τ := none
  phase : τ → Phase ν κ μ := fun _ => .idle

/-- What an idle thread may start. -/
inductive Command (κ : Type w) (μ : Type x) where
  | ask
  | book (k : κ)
  | move (m : μ)
deriving DecidableEq

/-- A turn: a thread starts something, a thread goes one step on, or anything else changes the store. Only
a reader with a cached view in front of it asks the clock, whether the view is still `good`. -/
inductive Turn (σ : Type u) (κ : Type w) (μ : Type x) (τ : Type y) where
  | start (t : τ) (command : Command κ μ)
  | go (t : τ) (good : Bool)
  | other (change : σ → σ)

variable {σ : Type u} {ν : Type v} {κ : Type w} {μ : Type x} {τ : Type y} [DecidableEq τ]

namespace State

def enter (s : State σ ν κ μ τ) (t : τ) (p : Phase ν κ μ) : State σ ν κ μ τ :=
  { s with phase := Function.update s.phase t p }

/-- Take the cache's lock, or wait for it. -/
def lockCache (s : State σ ν κ μ τ) (t : τ) (p : Phase ν κ μ) : State σ ν κ μ τ :=
  if s.cacheLock = none then { s with cacheLock := some t }.enter t p else s

def lockStore (s : State σ ν κ μ τ) (t : τ) (p : Phase ν κ μ) : State σ ν κ μ τ :=
  if s.storeLock = none then { s with storeLock := some t }.enter t p else s

def start (s : State σ ν κ μ τ) (t : τ) (command : Command κ μ) : State σ ν κ μ τ :=
  match s.phase t with
  | .idle =>
    match command with
    | .ask => s.enter t .asking
    | .book k => s.enter t (.booking k)
    | .move m => s.enter t (.moving m)
  | _ => s

/-- The next step of a thread. A reader lets go of the cache as it returns. -/
def go (P : Protocol σ ν κ μ) (s : State σ ν κ μ τ) (t : τ) (good : Bool) : State σ ν κ μ τ :=
  match s.phase t with
  | .idle => s
  | .asking => s.lockCache t .looking
  | .looking =>
    match s.cached with
    | some v => s.enter t (if good then .holding v else .waiting)
    | none => s.enter t .waiting
  | .waiting => s.lockStore t .reading
  | .reading => { s with storeLock := none }.enter t (.built (P.view s.store))
  | .built v => { s with cached := some v }.enter t (.holding v)
  | .holding _ => { s with cacheLock := none }.enter t .idle
  | .booking k => s.lockCache t (.bookingCache k)
  | .bookingCache k => s.lockStore t (.bookingBoth k)
  | .bookingBoth k => { s with store := P.book k s.store }.enter t .booked
  | .booked => { s with storeLock := none }.enter t .bookedCache
  | .bookedCache => { s with cached := none, cacheLock := none }.enter t .idle
  | .moving m => s.lockStore t (.movingStore m)
  | .movingStore m =>
    match P.move m s.store with
    | some store => { s with store }.enter t (.moved true)
    | none => s.enter t (.moved false)
  | .moved changed => { s with storeLock := none }.enter t (if changed then .dropping else .idle)
  | .dropping => s.lockCache t .droppingCache
  | .droppingCache => { s with cached := none, cacheLock := none }.enter t .idle

def step (P : Protocol σ ν κ μ) (s : State σ ν κ μ τ) : Turn σ κ μ τ → State σ ν κ μ τ
  | .start t command => s.start t command
  | .go t good => s.go P t good
  | .other change => { s with store := change s.store }

def exec (P : Protocol σ ν κ μ) (s : State σ ν κ μ τ) (run : List (Turn σ κ μ τ)) : State σ ν κ μ τ :=
  run.foldl (step P) s

/-- The views of the store at every moment of a run, the first and the last among them. -/
def views (P : Protocol σ ν κ μ) (s : State σ ν κ μ τ) : List (Turn σ κ μ τ) → List ν
  | [] => [P.view s.store]
  | turn :: rest => P.view s.store :: views P (s.step P turn) rest

/-- The next step of the thread changes the store. -/
def changes (P : Protocol σ ν κ μ) (s : State σ ν κ μ τ) (t : τ) : Bool :=
  match s.phase t with
  | .bookingBoth _ => true
  | .movingStore m => (P.move m s.store).isSome
  | _ => false

/-- Whoever holds the cache's lock has it. -/
def Exclusive (s : State σ ν κ μ τ) : Prop := ∀ t, (s.phase t).holdsCache = true → s.cacheLock = some t

/-- Every view that is cached or in a reader's hand is one of these. -/
structure Clean (seen : ν → Prop) (s : State σ ν κ μ τ) : Prop where
  cached : ∀ v, s.cached = some v → seen v
  inHand : ∀ t v, (s.phase t).inHand = some v → seen v

/-- What a step of a thread can do to the cache, to its lock and to what the thread has in hand. -/
inductive Shift (P : Protocol σ ν κ μ) (s : State σ ν κ μ τ) (t : τ) (s' : State σ ν κ μ τ) : Prop where
  | kept (p : Phase ν κ μ) (phase : s'.phase = Function.update s.phase t p) (lock : s'.cacheLock = s.cacheLock)
      (cached : s'.cached = s.cached) (holds : p.holdsCache = (s.phase t).holdsCache)
      (hand : ∀ v, p.inHand = some v → s.cached = some v ∨ v = P.view s.store)
      (pending : (s.phase t).pending = true → p.pending = true)
  | filled (v : ν) (here : s.phase t = .built v) (phase : s'.phase = Function.update s.phase t (.holding v))
      (lock : s'.cacheLock = s.cacheLock) (cached : s'.cached = some v)
  | locked (p : Phase ν κ μ) (phase : s'.phase = Function.update s.phase t p) (free : s.cacheLock = none)
      (lock : s'.cacheLock = some t) (cached : s'.cached = s.cached) (hand : p.inHand = none)
      (pending : (s.phase t).pending = true → p.pending = true)
  | returned (phase : s'.phase = Function.update s.phase t .idle) (held : (s.phase t).holdsCache = true)
      (lock : s'.cacheLock = none) (cached : s'.cached = s.cached) (done : (s.phase t).pending = false)
  | cleared (phase : s'.phase = Function.update s.phase t .idle) (held : (s.phase t).holdsCache = true)
      (lock : s'.cacheLock = none) (cached : s'.cached = none)

variable {P : Protocol σ ν κ μ} {s : State σ ν κ μ τ}

/-- A step to a phase with nothing in hand. -/
theorem Shift.empty {s' : State σ ν κ μ τ} {t : τ} (p : Phase ν κ μ)
    (phase : s'.phase = Function.update s.phase t p)
    (lock : s'.cacheLock = s.cacheLock) (cached : s'.cached = s.cached)
    (holds : p.holdsCache = (s.phase t).holdsCache)
    (hand : p.inHand = none) (pending : (s.phase t).pending = true → p.pending = true) : Shift P s t s' :=
  .kept p phase lock cached holds (by simp [hand]) pending

theorem start_cases (P : Protocol σ ν κ μ) (s : State σ ν κ μ τ) (t : τ) (command : Command κ μ) :
    s.start t command = s ∨ Shift P s t (s.start t command) := by
  unfold start
  split
  · rename_i idle
    right
    cases command with
    | ask => exact .empty .asking rfl rfl rfl (by rw [idle]; rfl) rfl (by simp [idle, Phase.pending])
    | book k => exact .empty (.booking k) rfl rfl rfl (by rw [idle]; rfl) rfl (by simp [idle, Phase.pending])
    | move m => exact .empty (.moving m) rfl rfl rfl (by rw [idle]; rfl) rfl (by simp [idle, Phase.pending])
  · exact .inl rfl

theorem lockCache_cases (t : τ) {p : Phase ν κ μ} (hand : p.inHand = none)
    (pending : (s.phase t).pending = true → p.pending = true) :
    s.lockCache t p = s ∨ Shift P s t (s.lockCache t p) := by
  unfold lockCache
  split
  · rename_i free
    exact .inr (.locked p rfl free rfl rfl hand pending)
  · exact .inl rfl

theorem lockStore_cases (t : τ) {p : Phase ν κ μ} (holds : p.holdsCache = (s.phase t).holdsCache)
    (hand : p.inHand = none) (pending : (s.phase t).pending = true → p.pending = true) :
    s.lockStore t p = s ∨ Shift P s t (s.lockStore t p) := by
  unfold lockStore
  split
  · exact .inr (.empty p rfl rfl rfl holds hand pending)
  · exact .inl rfl

theorem go_cases (P : Protocol σ ν κ μ) (s : State σ ν κ μ τ) (t : τ) (good : Bool) :
    s.go P t good = s ∨ Shift P s t (s.go P t good) := by
  unfold go
  cases here : s.phase t with
  | idle => exact .inl rfl
  | asking => exact lockCache_cases t rfl (by simp [here, Phase.pending])
  | looking =>
    right
    cases found : s.cached with
    | none =>
      exact .empty .waiting rfl rfl rfl (by rw [here]; rfl) rfl (by simp [here, Phase.pending])
    | some v =>
      cases good with
      | true =>
        refine .kept (.holding v) rfl rfl rfl (by rw [here]; rfl) ?_ (by simp [here, Phase.pending])
        intro w hand
        cases hand
        exact .inl found
      | false =>
        exact .empty .waiting rfl rfl rfl (by rw [here]; rfl) rfl (by simp [here, Phase.pending])
  | waiting => exact lockStore_cases t (by rw [here]; rfl) rfl (by simp [here, Phase.pending])
  | reading =>
    right
    refine .kept (.built (P.view s.store)) rfl rfl rfl (by rw [here]; rfl) ?_ (by simp [here, Phase.pending])
    intro w hand
    cases hand
    exact .inr rfl
  | built v => exact .inr (.filled v here rfl rfl rfl)
  | holding v => exact .inr (.returned rfl (by rw [here]; rfl) rfl rfl (by rw [here]; rfl))
  | booking k => exact lockCache_cases t rfl (by simp [here, Phase.pending])
  | bookingCache k => exact lockStore_cases t (by rw [here]; rfl) rfl (by simp [here, Phase.pending])
  | bookingBoth k =>
    exact .inr (.empty .booked rfl rfl rfl (by rw [here]; rfl) rfl (by simp [Phase.pending]))
  | booked =>
    exact .inr (.empty .bookedCache rfl rfl rfl (by rw [here]; rfl) rfl (by simp [Phase.pending]))
  | bookedCache => exact .inr (.cleared rfl (by rw [here]; rfl) rfl rfl)
  | moving m => exact lockStore_cases t (by rw [here]; rfl) rfl (by simp [here, Phase.pending])
  | movingStore m =>
    right
    dsimp only
    cases P.move m s.store with
    | some store =>
      exact .empty (.moved true) rfl rfl rfl (by rw [here]; rfl) rfl (by simp [Phase.pending])
    | none =>
      exact .empty (.moved false) rfl rfl rfl (by rw [here]; rfl) rfl (by simp [here, Phase.pending])
  | moved changed =>
    right
    cases changed with
    | true => exact .empty .dropping rfl rfl rfl (by rw [here]; rfl) rfl (by simp [Phase.pending])
    | false => exact .empty .idle rfl rfl rfl (by rw [here]; rfl) rfl (by simp [here, Phase.pending])
  | dropping => exact lockCache_cases t rfl (by simp [Phase.pending])
  | droppingCache => exact .inr (.cleared rfl (by rw [here]; rfl) rfl rfl)

/-- A turn leaves the cache and the threads alone, or is a step of one thread. -/
theorem step_cases (P : Protocol σ ν κ μ) (s : State σ ν κ μ τ) (turn : Turn σ κ μ τ) :
    (∃ store, s.step P turn = { s with store }) ∨ ∃ t, Shift P s t (s.step P turn) := by
  cases turn with
  | start t command =>
    rcases start_cases P s t command with same | shift
    · exact .inl ⟨s.store, same⟩
    · exact .inr ⟨t, shift⟩
  | go t good =>
    rcases go_cases P s t good with same | shift
    · exact .inl ⟨s.store, same⟩
    · exact .inr ⟨t, shift⟩
  | other change => exact .inl ⟨change s.store, rfl⟩

section Steps

/-- A step of one thread leaves the others where they are. -/
theorem Shift.phase_other {s' : State σ ν κ μ τ} {t u : τ} (shift : Shift P s t s') (other : u ≠ t) :
    s'.phase u = s.phase u := by
  cases shift with
  | kept p phase => rw [phase, Function.update_of_ne other]
  | filled v here phase => rw [phase, Function.update_of_ne other]
  | locked p phase => rw [phase, Function.update_of_ne other]
  | returned phase => rw [phase, Function.update_of_ne other]
  | cleared phase => rw [phase, Function.update_of_ne other]

omit [DecidableEq τ] in
theorem Exclusive.unique (exclusive : s.Exclusive) {t u : τ} (first : (s.phase u).holdsCache = true)
    (second : (s.phase t).holdsCache = true) : u = t :=
  Option.some.inj ((exclusive u first).symm.trans (exclusive t second))

theorem Exclusive.shift {s' : State σ ν κ μ τ} {t : τ} (exclusive : s.Exclusive)
    (shift : Shift P s t s') : s'.Exclusive := by
  intro u held
  by_cases same : u = t
  · subst same
    cases shift with
    | kept p phase lock cached holds hand pending =>
      rw [phase, Function.update_self, holds] at held
      rw [lock]
      exact exclusive u held
    | filled v here phase lock cached =>
      rw [lock]
      exact exclusive u (by rw [here]; rfl)
    | locked p phase free lock cached hand pending => exact lock
    | returned phase before lock cached done =>
      rw [phase, Function.update_self] at held
      cases held
    | cleared phase before lock cached =>
      rw [phase, Function.update_self] at held
      cases held
  · rw [shift.phase_other same] at held
    cases shift with
    | kept p phase lock cached holds hand pending =>
      rw [lock]
      exact exclusive u held
    | filled v here phase lock cached =>
      rw [lock]
      exact exclusive u held
    | locked p phase free lock cached hand pending =>
      rw [exclusive u held] at free
      cases free
    | returned phase before lock cached done => exact absurd (exclusive.unique held before) same
    | cleared phase before lock cached => exact absurd (exclusive.unique held before) same

theorem Exclusive.step (exclusive : s.Exclusive) (turn : Turn σ κ μ τ) : (s.step P turn).Exclusive := by
  rcases step_cases P s turn with ⟨store, same⟩ | ⟨t, shift⟩
  · rw [same]
    exact exclusive
  · exact exclusive.shift shift

theorem Exclusive.exec (exclusive : s.Exclusive) (run : List (Turn σ κ μ τ)) : (s.exec P run).Exclusive := by
  induction run generalizing s with
  | nil => exact exclusive
  | cons turn rest ih => exact ih (exclusive.step turn)

theorem Clean.shift {seen : ν → Prop} {s' : State σ ν κ μ τ} {t : τ} (clean : s.Clean seen)
    (now : seen (P.view s.store)) (shift : Shift P s t s') : s'.Clean seen := by
  have others : ∀ p, s'.phase = Function.update s.phase t p → (∀ v, p.inHand = some v → seen v) →
      ∀ u v, (s'.phase u).inHand = some v → seen v := by
    intro p phase own u v hand
    rw [phase, Function.update_apply] at hand
    split at hand
    · exact own v hand
    · exact clean.inHand u v hand
  cases shift with
  | kept p phase lock cached holds hand pending =>
    refine ⟨by rw [cached]; exact clean.cached, others p phase ?_⟩
    intro v own
    rcases hand v own with stored | rfl
    · exact clean.cached v stored
    · exact now
  | filled v here phase lock cached =>
    have built : seen v := clean.inHand t v (by rw [here]; rfl)
    refine ⟨?_, others _ phase ?_⟩
    · intro w stored
      rw [cached] at stored
      cases stored
      exact built
    · intro w own
      cases own
      exact built
  | locked p phase free lock cached hand pending =>
    exact ⟨by rw [cached]; exact clean.cached, others p phase (by simp [hand])⟩
  | returned phase held lock cached done =>
    exact ⟨by rw [cached]; exact clean.cached, others _ phase (by simp [Phase.inHand])⟩
  | cleared phase held lock cached =>
    exact ⟨by simp [cached], others _ phase (by simp [Phase.inHand])⟩

theorem Clean.step {seen : ν → Prop} (clean : s.Clean seen) (now : seen (P.view s.store))
    (turn : Turn σ κ μ τ) : (s.step P turn).Clean seen := by
  rcases step_cases P s turn with ⟨store, same⟩ | ⟨t, shift⟩
  · rw [same]
    exact ⟨clean.cached, clean.inHand⟩
  · exact clean.shift now shift

omit [DecidableEq τ] in
theorem Clean.mono {seen later : ν → Prop} (clean : s.Clean seen) (more : ∀ v, seen v → later v) :
    s.Clean later :=
  ⟨fun v stored => more v (clean.cached v stored), fun t v hand => more v (clean.inHand t v hand)⟩

/-- What was cached or in hand before a run is, after it, that or what the store showed meanwhile. -/
theorem Clean.exec {seen : ν → Prop} (clean : s.Clean seen) (run : List (Turn σ κ μ τ)) :
    (s.exec P run).Clean fun v => seen v ∨ v ∈ s.views P run := by
  induction run generalizing s seen with
  | nil => exact clean.mono fun v before => .inl before
  | cons turn rest ih =>
    have here : (s.step P turn).Clean fun v => seen v ∨ v = P.view s.store :=
      (clean.mono fun v before => .inl before).step (.inr rfl) turn
    refine (ih here).mono ?_
    rintro v ((before | rfl) | later)
    · exact .inl before
    · exact .inr (by simp [views])
    · exact .inr (by simp [views, later])

/-- A writer that has still to clear the cache goes on to do so, holding its lock if it does already, or has
just done it: then nothing is cached or in anyone's hand. -/
theorem Owes.step {hold : Prop} {w : τ} (exclusive : s.Exclusive) (owes : (s.phase w).Owes hold)
    (turn : Turn σ κ μ τ) : ((s.step P turn).phase w).Owes hold ∨ (s.step P turn).Clean fun _ => False := by
  rcases step_cases P s turn with ⟨store, same⟩ | ⟨t, shift⟩
  · rw [same]
    exact .inl owes
  · by_cases own : w = t
    · subst own
      cases shift with
      | kept p phase lock cached holds hand pending =>
        rw [phase, Function.update_self]
        exact .inl ⟨pending owes.1, fun held => holds.trans (owes.2 held)⟩
      | filled v here phase lock cached =>
        rw [here] at owes
        cases owes.1
      | locked p phase free lock cached hand pending =>
        rw [phase, Function.update_self]
        refine .inl ⟨pending owes.1, fun held => ?_⟩
        rw [exclusive w (owes.2 held)] at free
        cases free
      | returned phase held lock cached done =>
        rw [Phase.Owes, done] at owes
        cases owes.1
      | cleared phase held lock cached =>
        refine .inr ⟨by simp [cached], ?_⟩
        intro u v hand
        rw [phase, Function.update_apply] at hand
        split at hand
        · cases hand
        · rename_i other
          exact other (exclusive.unique (Phase.holdsCache_of_inHand hand) held)
    · rw [shift.phase_other own]
      exact .inl owes

theorem Owes.exec {hold : Prop} {w : τ} (exclusive : s.Exclusive) (owes : (s.phase w).Owes hold)
    (run : List (Turn σ κ μ τ)) : ((s.exec P run).phase w).Owes hold ∨
    (s.exec P run).Clean (· ∈ s.views P run) := by
  induction run generalizing s with
  | nil => exact .inl owes
  | cons turn rest ih =>
    rcases Owes.step (P := P) exclusive owes turn with still | clear
    · rcases ih (exclusive.step turn) still with still | clean
      · exact .inl still
      · exact .inr (clean.mono fun v seen => by simp [views, seen])
    · refine .inr ((clear.exec rest).mono ?_)
      rintro v (absurdly | seen)
      · exact absurdly.elim
      · simp [views, seen]

theorem owes_of_changes {w : τ} (changes : s.changes P w = true) (good : Bool) :
    ((s.go P w good).phase w).Owes False := by
  refine ⟨?_, False.elim⟩
  unfold State.changes at changes
  unfold go
  split at changes
  · rename_i here
    simp [here, enter, Phase.pending]
  · rename_i m here
    obtain ⟨store, found⟩ := Option.isSome_iff_exists.mp changes
    simp [here, found, enter, Phase.pending]
  · cases changes

theorem exec_append (s : State σ ν κ μ τ) (first second : List (Turn σ κ μ τ)) :
    s.exec P (first ++ second) = (s.exec P first).exec P second := List.foldl_append

theorem mem_views_append {v : ν} {first second : List (Turn σ κ μ τ)}
    (seen : v ∈ s.views P first ∨ v ∈ (s.exec P first).views P second) : v ∈ s.views P (first ++ second) := by
  induction first generalizing s with
  | nil =>
    rcases seen with here | later
    · rw [List.mem_singleton.mp here]
      cases second <;> simp [views]
    · exact later
  | cons turn rest ih =>
    rcases seen with here | later
    · rcases List.mem_cons.mp here with rfl | seen
      · exact List.mem_cons_self
      · exact List.mem_cons_of_mem _ (ih (.inl seen))
    · exact List.mem_cons_of_mem _ (ih (.inr later))

/-- Once a writer that changed the store is done, every reader about to return has a view of the store from
after the change. -/
theorem view_since_change {w : τ} (exclusive : s.Exclusive) (changes : s.changes P w = true) (good : Bool)
    {first : List (Turn σ κ μ τ)} (done : (((s.go P w good).exec P first).phase w).isIdle = true)
    (second : List (Turn σ κ μ τ))
    {t : τ} {v : ν} (hand : (((s.go P w good).exec P (first ++ second)).phase t).inHand = some v) :
    v ∈ (s.go P w good).views P (first ++ second) := by
  have after : (s.go P w good).Exclusive := exclusive.step (.go w good)
  rcases Owes.exec after (owes_of_changes changes good) first with still | clean
  · have idle := Phase.pending_of_isIdle done
    rw [still.1] at idle
    cases idle
  · rw [exec_append] at hand
    exact mem_views_append ((clean.exec second).inHand t v hand)

/-- A writer that holds the cache's lock around the change need not be done. -/
theorem view_since_booking {w : τ} {k : κ} (exclusive : s.Exclusive)
    (booking : s.phase w = .bookingBoth k) (good : Bool)
    (run : List (Turn σ κ μ τ)) {t : τ} {v : ν}
    (hand : (((s.go P w good).exec P run).phase t).inHand = some v) :
    v ∈ (s.go P w good).views P run := by
  have owes : ((s.go P w good).phase w).Owes True := by
    simp [go, booking, enter, Phase.Owes, Phase.pending, Phase.holdsCache]
  have after : (s.go P w good).Exclusive := exclusive.step (.go w good)
  rcases Owes.exec after owes run with still | clean
  · have same := (after.exec run).unique (Phase.holdsCache_of_inHand hand) (still.2 trivial)
    have idle := Phase.pending_of_inHand hand
    rw [same, still.1] at idle
    cases idle
  · exact clean.inHand t v hand

end Steps

end State

end CachedView
