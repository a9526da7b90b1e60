import Lazarus.Tides.RebateCap
import Lazarus.Tides.RebateShare
import Lazarus.Tides.Store

/-! The solo-block observer. A scan books the rebate of a solo block on the ledger in memory, notes it in
the rebate log and then moves its cursor past the block; the ledger reaches its file on a timer of its
own. -/

namespace Lazarus.Primed.Solo

open Machine Tally Tides

/-- The block at a height of the chain, with what its coinbase says. -/
structure Block where
  hash : String
  tagged : Bool := false
  valueSats : Nat := 0
  poolSats : Nat := 0

/-- A tagged block that pays the pool. -/
def Block.solo (b : Block) : Bool := b.tagged && 0 < b.poolSats

/-- What a scan reads: the chain, the rebate in basis points, and the addresses that can be paid. -/
structure Config where
  chain : Nat → Block
  rebateBps : Nat
  scriptFor : String → Option Script

def soloDepth : Nat := 6

def rebateFor (valueSats bps : Nat) : Nat := asU64 (valueSats * bps / 10000)

/-- The rebate a solo block books: never more than the block paid the pool. -/
def Config.rebate (cfg : Config) (b : Block) : Nat := min (rebateFor b.valueSats cfg.rebateBps) b.poolSats

/-- The credits a rebate is shared out in, with whatever was waiting for somebody to credit. -/
def Config.credits (cfg : Config) (s : Store) (rebate : Nat) : List (String × Nat) :=
  (rebateCredits s.miners (satAdd rebate s.window.rebateOwed) cfg.scriptFor).1

/-- Book a rebate; also the rebate owed after it. -/
def Config.book (cfg : Config) (s : Store) (rebate : Nat) : Store × Nat :=
  let credits := cfg.credits s rebate
  if credits = [] then
    let (ledger, after) := s.ledger.settleRebate (clampI64 rebate)
    ({ s with ledger }, after)
  else (s.onLedger fun l => (l.settleCarry (credits.map entryOf)).1.setRebateOwed 0, 0)

section Sats

variable {cfg : Config} {s s' : Store} {rebate : Nat}

/-- These sats reached the books, all of them and once: what miners with DATUM work were credited and what is
waiting in the owed rebate come to what was waiting before and the sats. -/
def Contributed (sats : Nat) (s s' : Store) : Prop :=
  ∃ shares : List (String × Nat),
    (∀ share ∈ shares, ∃ m ∈ s.miners, m.identity = share.1 ∧ 0 < m.datumWork) ∧
    (∀ identity, (s'.window.carryOf identity : Int) - s'.window.debtOf identity =
      s.window.carryOf identity - s.window.debtOf identity + (tally identity shares : Nat)) ∧
    s'.window.rebateOwed + (shares.map Prod.snd).sum = s.window.rebateOwed + sats

/-- Booking a rebate runs into the top of no type, and sharing out what is then due leaves nothing over. -/
def Config.Whole (cfg : Config) (s : Store) (rebate : Nat) : Prop :=
  rebate + s.window.rebateOwed ≤ i64Max ∧
    (∀ m ∈ s.miners, s.window.carryOf m.identity + (rebate + s.window.rebateOwed) ≤ u64Max) ∧
    SharesEven s.miners (rebate + s.window.rebateOwed) cfg.scriptFor

instance (cfg : Config) (s : Store) (rebate : Nat) : Decidable (cfg.Whole s rebate) :=
  inferInstanceAs (Decidable (_ ∧ _ ∧ _))

/-- With nobody to credit, the rebate waits. -/
theorem contributed_settleRebate (fits : rebate + s.window.rebateOwed ≤ i64Max) :
    Contributed rebate s { s with ledger := (s.ledger.settleRebate (clampI64 rebate)).1 } := by
  have wide : i64Max ≤ u64Max := by decide
  have same : clampI64 rebate = (rebate : Int) := by
    rw [clampI64, Nat.min_eq_left (by omega)]
  have room : satAdd s.ledger.window.rebateOwed rebate = s.ledger.window.rebateOwed + rebate := by
    have waiting : rebate + s.ledger.window.rebateOwed ≤ i64Max := fits
    exact satAdd_eq (by omega)
  rw [same]
  refine ⟨[], List.forall_mem_nil _, fun identity => ?_, ?_⟩
  · unfold Ledger.settleRebate
    split <;> simp [Store.window, Window.carryOf, Window.debtOf, Window.adjustRebateOwed]
  · unfold Ledger.settleRebate
    split
    · rename_i nothing
      simp [Store.window, Int.natCast_eq_zero.mp nothing]
    · simp [Store.window, Window.adjustRebateOwed, room]

/-- Shared out whole, what was waiting and the rebate are on the balances of those who were credited. -/
theorem contributed_settleCarry (whole : cfg.Whole s rebate) (some : cfg.credits s rebate ≠ []) :
    Contributed rebate s
      (s.onLedger fun l => (l.settleCarry ((cfg.credits s rebate).map entryOf)).1.setRebateOwed 0) := by
  obtain ⟨fits, carried, even⟩ := whole
  have wide : i64Max ≤ u64Max := by decide
  have pot : satAdd rebate s.window.rebateOwed = rebate + s.window.rebateOwed := satAdd_eq (by omega)
  have credited : ∀ credit ∈ cfg.credits s rebate, ∃ m ∈ s.miners, m.identity = credit.1 ∧ 0 < m.datumWork := by
    intro credit member
    obtain ⟨m, listed, named, worked, -⟩ := credited_eligible member
    exact ⟨m, listed, named, worked⟩
  have sum : ((cfg.credits s rebate).map Prod.snd).sum = rebate + s.window.rebateOwed := by
    unfold Config.credits at some ⊢
    rw [pot] at some ⊢
    exact (sum_rebateCredits_of_even (by omega) even).resolve_left some
  refine ⟨cfg.credits s rebate, credited, fun identity => ?_, ?_⟩
  · refine settleCarry_credits s.ledger ?_ ?_ identity
    · intro credit member
      have most : credit.2 ≤ _ := List.le_sum_of_mem (List.mem_map_of_mem member)
      omega
    · intro credit member
      obtain ⟨m, listed, named, -⟩ := credited credit member
      rw [sum, ← named]
      exact carried m listed
  · rw [sum]
    exact (Nat.zero_add _).trans (Nat.add_comm _ _)

/-- Booked where it is whole, a rebate is on the books. -/
theorem contributed_book (whole : cfg.Whole s rebate) : Contributed rebate s (cfg.book s rebate).1 := by
  unfold Config.book
  simp only
  split
  · exact contributed_settleRebate whole.1
  · rename_i some
    exact contributed_settleCarry whole some

end Sats

/-- A change of the ledger: the rebate of the block at a height, or anything else. -/
inductive Entry where
  | rebate (height : Nat)
  | other (change : Store → Store)

namespace Entry

def apply (cfg : Config) (s : Store) : Entry → Store
  | rebate height => (cfg.book s (cfg.rebate (cfg.chain height))).1
  | other change => change s

def height? : Entry → Option Nat
  | rebate height => some height
  | other _ => none

/-- An entry for a rebate puts the rebate on the books. -/
def Contributes (cfg : Config) (s : Store) : Entry → Prop
  | rebate height => Contributed (cfg.rebate (cfg.chain height)) s ((rebate height).apply cfg s)
  | other _ => True

end Entry

/-- A ledger with the changes that made it out of the one it started as. -/
structure Booked (cfg : Config) (start : Store) where
  store : Store
  journal : List Entry
  replays : journal.foldl (Entry.apply cfg) start = store

namespace Booked

variable {cfg : Config} {start : Store}

def fresh (cfg : Config) (start : Store) : Booked cfg start := ⟨start, [], rfl⟩

def enter (b : Booked cfg start) (entry : Entry) : Booked cfg start :=
  ⟨entry.apply cfg b.store, b.journal ++ [entry], by rw [List.foldl_append, b.replays]; rfl⟩

/-- The heights whose rebates are on the ledger, each as often as it is. -/
def heights (b : Booked cfg start) : List Nat := b.journal.filterMap Entry.height?

/-- Every rebate that was entered went onto the books. -/
def Whole (b : Booked cfg start) : Prop := Run.Along (Entry.Contributes cfg) (Entry.apply cfg) start b.journal

theorem whole_fresh : (fresh cfg start).Whole := trivial

theorem Whole.enter {b : Booked cfg start} (whole : b.Whole) {entry : Entry}
    (contributes : entry.Contributes cfg b.store) : (b.enter entry).Whole := by
  refine Run.along_append.mpr ⟨whole, ?_, trivial⟩
  rw [b.replays]
  exact contributes

@[simp] theorem heights_fresh : (fresh cfg start).heights = [] := rfl

@[simp] theorem heights_enter_rebate (b : Booked cfg start) (height : Nat) :
    (b.enter (.rebate height)).heights = b.heights ++ [height] := by
  simp [enter, heights, Entry.height?]

@[simp] theorem heights_enter_other (b : Booked cfg start) (change : Store → Store) :
    (b.enter (.other change)).heights = b.heights := by
  simp [enter, heights, Entry.height?]

end Booked

/-- One solo block whose rebate share was booked. -/
structure SoloRebate where
  ts : Nat
  height : Nat
  hash : String
  coinbaseValue : Nat
  poolSats : Nat
  rebateSats : Nat
  credits : List (String × Nat)
  rebateOwedAfter : Nat

/-- Where a scan is: about to look at a height, with its rebate booked and not yet noted, or about to
move the cursor past it. `last` is where the pass ends. -/
inductive Pass where
  | idle
  | looking (height last : Nat)
  | booked (noted : SoloRebate) (last : Nat)
  | passed (height last : Nat)

/-- The running ledger, the files, and the scan. `began` is the height the first scan began behind. -/
structure Observer (cfg : Config) (start : Store) where
  window : Booked cfg start
  disk : Booked cfg start
  cursor : Option Nat
  rebates : List SoloRebate := []
  blocks : List String := []
  pass : Pass := .idle
  began : Option Nat

inductive Event where
  /-- The poller calls `scan` at a tip. -/
  | scan (tip : Nat)
  /-- The node answers for the next height: `named` if it gave the hash, `read` if it gave the block. -/
  | look (ts : Nat) (named read : Bool)
  | note
  | advance
  | flush
  | other (change : Store → Store)
  /-- A found block goes on record. -/
  | found (hash : String)
  | crash

namespace Observer

variable {cfg : Config} {start : Store}

/-- A data directory with this cursor, or with none. -/
def boot (cfg : Config) (start : Store) (cursor : Option Nat) : Observer cfg start :=
  { window := .fresh cfg start, disk := .fresh cfg start, cursor, began := cursor }

/-- A first run begins at the tip. A pass takes twenty heights at most. -/
def scan (s : Observer cfg start) (tip : Nat) : Observer cfg start :=
  if cfg.rebateBps = 0 ∨ tip ≤ soloDepth then s
  else
    let upto := tip - soloDepth
    match s.cursor with
    | none => { s with cursor := some upto, began := some upto }
    | some height =>
      if upto < height + 1 then s else { s with pass := .looking (height + 1) (min upto (height + 1 + 19)) }

/-- A block on record is not a solo block. -/
def look (s : Observer cfg start) (height last ts : Nat) (named read : Bool) : Observer cfg start :=
  let block := cfg.chain height
  if !named then { s with pass := .idle }
  else if block.hash ∈ s.blocks then { s with pass := .passed height last }
  else if !read then { s with pass := .idle }
  else if block.solo then
    let rebate := cfg.rebate block
    let noted : SoloRebate :=
      { ts, height, hash := block.hash, coinbaseValue := block.valueSats,
        poolSats := block.poolSats, rebateSats := rebate
        credits := cfg.credits s.window.store rebate
        rebateOwedAfter := (cfg.book s.window.store rebate).2 }
    { s with window := s.window.enter (.rebate height), pass := .booked noted last }
  else { s with pass := .passed height last }

def step (s : Observer cfg start) : Event → Observer cfg start
  | .scan tip =>
    match s.pass with
    | .idle => s.scan tip
    | _ => s
  | .look ts named read =>
    match s.pass with
    | .looking height last => s.look height last ts named read
    | _ => s
  | .note =>
    match s.pass with
    | .booked noted last => { s with rebates := s.rebates ++ [noted], pass := .passed noted.height last }
    | _ => s
  | .advance =>
    match s.pass with
    | .passed height last =>
      { s with cursor := some height, pass := if height < last then .looking (height + 1) last else .idle }
    | _ => s
  | .flush => { s with disk := s.window }
  | .other change => { s with window := s.window.enter (.other change) }
  | .found hash => { s with blocks := hash :: s.blocks }
  | .crash => { s with window := s.disk, pass := .idle }

/-- A crash finds every rebate up to the cursor on disk, and none past it, and a rebate that is booked is shared
out with nothing left over. -/
def Clear (s : Observer cfg start) : Event → Prop
  | .crash => s.disk.heights = s.window.heights.filter fun height => s.cursor.any fun cursor => height ≤ cursor
  | .look _ named read =>
    match s.pass with
    | .looking height _ =>
      named = true → read = true → (cfg.chain height).solo = true → (cfg.chain height).hash ∉ s.blocks →
        cfg.Whole s.window.store (cfg.rebate (cfg.chain height))
    | _ => True
  | _ => True

/-- A solo block the cursor has passed, which is no block on record. -/
def Due (s : Observer cfg start) (height : Nat) : Prop :=
  (∃ began, s.began = some began ∧ began < height) ∧ (∃ cursor, s.cursor = some cursor ∧ height ≤ cursor) ∧
    (cfg.chain height).solo = true ∧ (cfg.chain height).hash ∉ s.blocks

/-- The height the scan has dealt with: the cursor, or the height it is about to move it to. -/
def done (s : Observer cfg start) : Option Nat :=
  match s.pass with
  | .booked noted _ => some noted.height
  | .passed height _ => some height
  | _ => s.cursor

/-- The height a pass is at, if it is at one. -/
def Pass.at? : Pass → Option Nat
  | .idle => none
  | .looking height _ => some height
  | .booked noted _ => some noted.height
  | .passed height _ => some height

/-- Every solo block the scan has dealt with is on the ledger once, and nothing else is. -/
structure Counted (s : Observer cfg start) : Prop where
  distinct : s.window.heights.Nodup
  saved : s.disk.heights.Sublist s.window.heights
  within : ∀ height ∈ s.window.heights, ∃ reached, s.done = some reached ∧ height ≤ reached
  dealt : ∀ began reached height, s.began = some began → s.done = some reached →
    began < height → height ≤ reached → (cfg.chain height).solo = true →
    (cfg.chain height).hash ∉ s.blocks → height ∈ s.window.heights
  next : ∀ height, Pass.at? s.pass = some height → ∃ cursor, s.cursor = some cursor ∧ height = cursor + 1

section Steps

variable {s : Observer cfg start}

theorem counted_boot (cursor : Option Nat) : (boot cfg start cursor).Counted where
  distinct := List.nodup_nil
  saved := List.Sublist.refl _
  within := by simp [boot]
  dealt := by
    intro began reached height first last above below _ _
    have same : some began = some reached := first.symm.trans last
    cases same
    omega
  next := by simp [boot, Pass.at?]

/-- What the scan has dealt with reaches as far as the cursor. -/
theorem Counted.cursor_le_done (counted : s.Counted) {cursor : Nat} (read : s.cursor = some cursor) :
    ∃ reached, s.done = some reached ∧ cursor ≤ reached := by
  have next := counted.next
  unfold done
  cases here : s.pass with
  | idle => exact ⟨cursor, read, Nat.le_refl _⟩
  | looking height last => exact ⟨cursor, read, Nat.le_refl _⟩
  | booked noted last =>
    obtain ⟨before, same, after⟩ := next noted.height (by rw [here]; rfl)
    cases read.symm.trans same
    exact ⟨noted.height, rfl, by omega⟩
  | passed height last =>
    obtain ⟨before, same, after⟩ := next height (by rw [here]; rfl)
    cases read.symm.trans same
    exact ⟨height, rfl, by omega⟩

/-- A step that leaves the ledger, the record and what was dealt with alone. -/
theorem Counted.of_same (counted : s.Counted) {s' : Observer cfg start}
    (window : s'.window.heights = s.window.heights)
    (disk : s'.disk = s.disk) (began : s'.began = s.began) (blocks : s'.blocks = s.blocks)
    (done : s'.done = s.done)
    (next : ∀ height, Pass.at? s'.pass = some height → ∃ cursor,
      s'.cursor = some cursor ∧ height = cursor + 1) :
    s'.Counted where
  distinct := by rw [window]; exact counted.distinct
  saved := by rw [window, disk]; exact counted.saved
  within := by rw [window, done]; exact counted.within
  dealt := by rw [window, began, done, blocks]; exact counted.dealt
  next := next

theorem Counted.scan (counted : s.Counted) (idle : s.pass = .idle) (tip : Nat) : (s.scan tip).Counted := by
  have reached : s.done = s.cursor := by simp [done, idle]
  unfold Observer.scan
  split
  · exact counted
  · cases read : s.cursor with
    | none =>
      have none : ∀ height, height ∉ s.window.heights := by
        intro height member
        obtain ⟨reached', found, _⟩ := counted.within height member
        rw [reached, read] at found
        cases found
      exact
        { distinct := counted.distinct
          saved := counted.saved
          within := fun height member => absurd member (none height)
          dealt := by
            intro began reached height first last above below _ _
            have same : some began = some reached := first.symm.trans (by simpa [done, idle] using last)
            cases same
            omega
          next := by simp [Pass.at?, idle] }
    | some cursor =>
      simp only
      split
      · exact counted
      · refine counted.of_same rfl rfl rfl rfl ?_ ?_
        · simp [done, idle, read]
        · intro height here
          exact ⟨cursor, rfl, by simpa [Pass.at?] using here.symm⟩

/-- Moving on from a height whose block is no solo block, or is on record. -/
theorem Counted.skip (counted : s.Counted) {height last : Nat} (here : s.pass = .looking height last)
    (nothing : (cfg.chain height).solo = true → (cfg.chain height).hash ∈ s.blocks) :
    { s with pass := .passed height last }.Counted := by
  obtain ⟨cursor, read, after⟩ := counted.next height (by rw [here]; rfl)
  have reached : s.done = some cursor := by simp [done, here, read]
  exact
    { distinct := counted.distinct
      saved := counted.saved
      within := by
        intro other member
        obtain ⟨bound, found, below⟩ := counted.within other member
        rw [reached] at found
        cases found
        exact ⟨height, rfl, by omega⟩
      dealt := by
        intro began bound other first last above below solo unknown
        cases last
        rcases Nat.lt_or_ge cursor other with past | before
        · have same : other = height := by omega
          subst same
          exact absurd (nothing solo) unknown
        · exact counted.dealt began cursor other first reached above before solo unknown
      next := by
        intro other found
        cases found
        exact ⟨cursor, read, after⟩ }

/-- Booking the rebate of the height the scan is at. -/
theorem Counted.book (counted : s.Counted) {height last : Nat} (here : s.pass = .looking height last)
    {noted : SoloRebate} (own : noted.height = height) :
    { s with window := s.window.enter (.rebate height), pass := .booked noted last }.Counted := by
  obtain ⟨cursor, read, after⟩ := counted.next height (by rw [here]; rfl)
  have reached : s.done = some cursor := by simp [done, here, read]
  have below : ∀ other ∈ s.window.heights, other ≤ cursor := by
    intro other member
    obtain ⟨bound, found, below⟩ := counted.within other member
    rw [reached] at found
    cases found
    exact below
  exact
    { distinct := by
        rw [Booked.heights_enter_rebate]
        refine List.Nodup.append counted.distinct (List.nodup_singleton height) ?_
        intro other member single
        have bound := below other member
        rw [List.mem_singleton] at single
        omega
      saved := by
        rw [Booked.heights_enter_rebate]
        exact counted.saved.trans (List.sublist_append_left _ _)
      within := by
        intro other member
        refine ⟨height, by rw [← own]; rfl, ?_⟩
        rw [Booked.heights_enter_rebate, List.mem_append, List.mem_singleton] at member
        rcases member with old | rfl
        · have bound := below other old
          omega
        · exact Nat.le_refl _
      dealt := by
        intro began bound other first last above within solo unknown
        have same : height = bound := by
          rw [← own]
          exact Option.some.inj last
        subst same
        rw [Booked.heights_enter_rebate, List.mem_append, List.mem_singleton]
        rcases Nat.lt_or_ge cursor other with past | before
        · right
          omega
        · left
          exact counted.dealt began cursor other first reached above before solo unknown
      next := by
        intro other found
        have same : noted.height = other := Option.some.inj found
        exact ⟨cursor, read, by omega⟩ }

theorem Counted.look (counted : s.Counted) {height last : Nat} (here : s.pass = .looking height last) (ts : Nat)
    (named read : Bool) : (s.look height last ts named read).Counted := by
  have stop : { s with pass := .idle }.Counted := by
    refine counted.of_same rfl rfl rfl rfl ?_ ?_
    · simp [done, here]
    · simp [Pass.at?]
  unfold Observer.look
  simp only
  split
  · exact stop
  · split
    · rename_i known
      exact counted.skip here fun _ => known
    · split
      · exact stop
      · split
        · exact counted.book here rfl
        · rename_i plain
          exact counted.skip here fun solo => absurd solo plain

theorem Counted.note (counted : s.Counted) {noted : SoloRebate} {last : Nat}
    (here : s.pass = .booked noted last) :
    { s with rebates := s.rebates ++ [noted], pass := .passed noted.height last }.Counted := by
  refine counted.of_same rfl rfl rfl rfl ?_ ?_
  · simp [done, here]
  · intro height found
    exact counted.next height (by rw [here]; exact found)

theorem Counted.advance (counted : s.Counted) {height last : Nat} (here : s.pass = .passed height last) :
    { s with
      cursor := some height, pass := if height < last then .looking (height + 1) last else .idle }.Counted := by
  refine counted.of_same rfl rfl rfl rfl ?_ ?_
  · by_cases more : height < last
    · simp [done, here, more]
    · simp [done, here, more]
  · intro other found
    by_cases more : height < last
    · simp only [more, ↓reduceIte, Pass.at?, Option.some.injEq] at found
      exact ⟨height, rfl, found.symm⟩
    · simp [more, Pass.at?] at found

theorem Counted.crash (counted : s.Counted) (clear : s.Clear .crash) : (s.step .crash).Counted := by
  have kept : ∀ height, height ∈ s.disk.heights ↔ height ∈ s.window.heights ∧ ∃ cursor, s.cursor = some cursor ∧
      height ≤ cursor := by
    intro height
    rw [clear, List.mem_filter, Option.any_eq_true]
    simp
  exact
    { distinct := counted.distinct.sublist counted.saved
      saved := List.Sublist.refl _
      within := by
        intro height member
        exact ((kept height).mp member).2
      dealt := by
        intro began cursor height first last above below solo unknown
        have read : s.cursor = some cursor := last
        obtain ⟨reached, found, further⟩ := counted.cursor_le_done read
        have member :=
          counted.dealt began reached height first found above (Nat.le_trans below further) solo unknown
        exact (kept height).mpr ⟨member, cursor, read, below⟩
      next := by simp [step, Pass.at?] }

/-- One step keeps the count. -/
theorem Counted.step (counted : s.Counted) {e : Event} (clear : s.Clear e) : (s.step e).Counted := by
  cases e with
  | scan tip =>
    simp only [Observer.step]
    split
    · rename_i idle
      exact counted.scan idle tip
    · exact counted
  | look ts named read =>
    simp only [Observer.step]
    split
    · rename_i here
      exact counted.look here ts named read
    · exact counted
  | note =>
    simp only [Observer.step]
    split
    · rename_i here
      exact counted.note here
    · exact counted
  | advance =>
    simp only [Observer.step]
    split
    · rename_i here
      exact counted.advance here
    · exact counted
  | flush => exact { counted with saved := List.Sublist.refl _ }
  | other change =>
    exact counted.of_same (s.window.heights_enter_other change) rfl rfl rfl rfl counted.next
  | found hash =>
    exact
      { counted with
        dealt := fun began reached height first last above below solo unknown =>
          counted.dealt began reached height first last above below solo fun member =>
            unknown (List.mem_cons_of_mem hash member) }
  | crash => exact counted.crash clear

/-- What was entered is on the books, in memory and on disk. -/
def Whole (s : Observer cfg start) : Prop := s.window.Whole ∧ s.disk.Whole

theorem Whole.look (whole : s.Whole) {height last : Nat} (ts : Nat) (named read : Bool)
    (clear : named = true → read = true → (cfg.chain height).solo = true → (cfg.chain height).hash ∉ s.blocks →
      cfg.Whole s.window.store (cfg.rebate (cfg.chain height))) : (s.look height last ts named read).Whole := by
  unfold Observer.look
  simp only
  split
  · exact whole
  · rename_i named
    split
    · exact whole
    · rename_i unknown
      split
      · exact whole
      · rename_i read
        split
        · rename_i solo
          have shared := clear (by simpa using named) (by simpa using read) solo unknown
          exact ⟨whole.1.enter (contributed_book shared), whole.2⟩
        · exact whole

/-- One step puts what it enters on the books. -/
theorem Whole.step (whole : s.Whole) {e : Event} (clear : s.Clear e) : (s.step e).Whole := by
  cases e with
  | scan tip =>
    simp only [Observer.step]
    split
    · unfold Observer.scan
      split
      · exact whole
      · split
        · exact whole
        · simp only
          split <;> exact whole
    · exact whole
  | look ts named read =>
    simp only [Clear] at clear
    simp only [Observer.step]
    split
    · rename_i here
      rw [here] at clear
      exact whole.look ts named read clear
    · exact whole
  | note | advance =>
    simp only [Observer.step]
    split <;> exact whole
  | flush => exact ⟨whole.1, whole.1⟩
  | other change => exact ⟨whole.1.enter trivial, whole.2⟩
  | found hash => exact whole
  | crash => exact ⟨whole.2, whole.2⟩

end Steps

section Progress

/-- The steps of one height when the node answers. -/
def taken (ts : Nat) : List Event := [.look ts true true, .note, .advance]

/-- A scan at a tip with the steps of a whole pass. -/
def wholePass (tip ts : Nat) : List Event := .scan tip :: (List.replicate 20 (taken ts)).flatten

theorem taken_looking {s : Observer cfg start} {height last : Nat}
    (here : s.pass = .looking height last) (ts : Nat) : ((taken ts).foldl step s).cursor = some height ∧
      ((taken ts).foldl step s).pass = if height < last then .looking (height + 1) last else .idle := by
  simp only [taken, List.foldl_cons, List.foldl_nil]
  have looked : ∃ looked : Observer cfg start, s.step (.look ts true true) = looked ∧
      (looked.pass = .passed height last ∨ ∃ noted : SoloRebate,
        noted.height = height ∧ looked.pass = .booked noted last) := by
    refine ⟨_, rfl, ?_⟩
    simp only [step, here, look, Bool.not_true, Bool.false_eq_true, ↓reduceIte]
    split
    · exact .inl rfl
    · split
      · exact .inr ⟨_, rfl, rfl⟩
      · exact .inl rfl
  obtain ⟨looked, same, at_⟩ := looked
  rw [same]
  rcases at_ with passed | ⟨noted, own, booked⟩
  · simp [step, passed]
  · simp [step, booked, own]

theorem taken_idle {s : Observer cfg start} (idle : s.pass = .idle) (ts : Nat) :
    (taken ts).foldl step s = s := by
  simp [taken, step, idle]

/-- Answered as often as it has heights left, a pass comes to its end. -/
theorem pass_reaches {s : Observer cfg start} {height last : Nat} (here : s.pass = .looking height last)
    (least : height ≤ last) (ts : Nat) {turns : Nat} (enough : last < height + turns) :
    ((List.replicate turns (taken ts)).flatten.foldl step s).cursor = some last := by
  induction turns generalizing s height with
  | zero => omega
  | succ turns ih =>
    rw [List.replicate_succ, List.flatten_cons, List.foldl_append]
    obtain ⟨cursor, pass⟩ := taken_looking here ts
    by_cases more : height < last
    · rw [if_pos more] at pass
      exact ih pass more (by omega)
    · rw [if_neg more] at pass
      have same : height = last := by omega
      have still : ∀ n : Nat, (List.replicate n (taken ts)).flatten.foldl step ((taken ts).foldl step s) =
          (taken ts).foldl step s := by
        intro n
        induction n with
        | zero => rfl
        | succ n more => rw [List.replicate_succ, List.flatten_cons, List.foldl_append, taken_idle pass, more]
      rw [still turns, cursor, same]

theorem wholePass_reaches {s : Observer cfg start} (idle : s.pass = .idle)
    (on : cfg.rebateBps ≠ 0) {cursor tip : Nat} (read : s.cursor = some cursor)
    (behind : cursor + soloDepth < tip) (ts : Nat) :
    ((wholePass tip ts).foldl step s).cursor = some (min (tip - soloDepth) (cursor + 20)) := by
  have first : s.step (.scan tip) =
      { s with pass := .looking (cursor + 1) (min (tip - soloDepth) (cursor + 1 + 19)) } := by
    have deep : ¬ (cfg.rebateBps = 0 ∨ tip ≤ soloDepth) := by
      rintro (off | shallow)
      · exact on off
      · omega
    have ahead : ¬ tip - soloDepth < cursor + 1 := by omega
    simp only [step, idle, scan, if_neg deep, read, if_neg ahead]
  rw [wholePass, List.foldl_cons, first, pass_reaches rfl (by omega) ts (by omega)]

end Progress

/-- In a run that crashes only with every rebate up to the cursor on disk and none past it, and that shares out
whole what it books, no rebate is on the ledger or on disk twice, the rebate of every solo block the cursor has
passed is on the ledger once and on disk once from the next flush on, each that is there came to its sats in
carry, debt and the owed rebate, and a pass that the node answers takes the cursor twenty blocks on or to the
last block deep enough. -/
theorem solo_rebate_booked_once (cfg : Config) (start : Store) (cursor : Option Nat) {run : List Event}
    (clear : Run.Along Clear step (boot cfg start cursor) run) :
    let s := run.foldl step (boot cfg start cursor)
    (∀ height, s.window.heights.count height ≤ 1 ∧ s.disk.heights.count height ≤ 1) ∧
      (∀ height, s.Due height →
        s.window.heights.count height = 1 ∧ (s.step .flush).disk.heights.count height = 1) ∧
      (∀ kept ∈ [s.window, s.disk],
        kept.journal.foldl (Entry.apply cfg) start = kept.store ∧
          ∀ before height after, kept.journal = before ++ .rebate height :: after →
            Contributed (cfg.rebate (cfg.chain height)) (before.foldl (Entry.apply cfg) start)
              ((before ++ [.rebate height]).foldl (Entry.apply cfg) start)) ∧
      ∀ cursor tip ts, s.pass = .idle → cfg.rebateBps ≠ 0 → s.cursor = some cursor → cursor + soloDepth < tip →
        ((wholePass tip ts).foldl step s).cursor = some (min (tip - soloDepth) (cursor + 20)) := by
  intro s
  have counted : s.Counted :=
    Run.foldl_invariant Counted (fun _ _ counted clear => counted.step clear) clear (counted_boot cursor)
  have whole : s.Whole :=
    Run.foldl_invariant Whole (fun _ _ whole clear => whole.step clear)
      clear ⟨Booked.whole_fresh, Booked.whole_fresh⟩
  refine ⟨?_, ?_, ?_, ?_⟩
  · intro height
    exact ⟨List.nodup_iff_count_le_one.mp counted.distinct height,
      List.nodup_iff_count_le_one.mp (counted.distinct.sublist counted.saved) height⟩
  · rintro height ⟨⟨began, first, above⟩, ⟨cursor, read, below⟩, solo, unknown⟩
    obtain ⟨reached, found, further⟩ := counted.cursor_le_done read
    have member :=
      counted.dealt began reached height first found above (Nat.le_trans below further) solo unknown
    have once := List.count_eq_one_of_mem counted.distinct member
    exact ⟨once, once⟩
  · intro kept member
    refine ⟨kept.replays, fun before height after here => ?_⟩
    have entered : kept.Whole := by
      simp only [List.mem_cons, List.not_mem_nil, or_false] at member
      rcases member with rfl | rfl
      · exact whole.1
      · exact whole.2
    rw [Booked.Whole, here] at entered
    rw [List.foldl_append]
    exact (Run.along_append.mp entered).2.1
  · intro cursor tip ts idle on read behind
    exact wholePass_reaches idle on read behind ts

section Runs

/-- A chain with one solo block, at height five. -/
def oneSolo : Config where
  chain height := if height = 5 then
    { hash := "solo", tagged := true, valueSats := 10000, poolSats := 200 } else { hash := "" }
  rebateBps := 100
  scriptFor _ := none

/-- The scan books the rebate of height five and moves the cursor past it. -/
def bookedFive : List Event := [.scan 11] ++ taken 0

/-- A crash after the flush, then the next blocks. -/
def flushedFirst : List Event := bookedFive ++ [.flush, .crash, .scan 12] ++ taken 0

/-- A crash with the cursor written and the ledger not. -/
def cursorFirst : List Event := bookedFive ++ [.crash, .flush]

/-- A crash with the ledger written and the cursor not. -/
def ledgerFirst : List Event := [.scan 11, .look 0 true true, .flush, .crash] ++ bookedFive ++ [.flush]

def emptyStore : Store := { ledger := { window := noBalances } }

theorem solo_rebate_booked_once_flushedFirst :
    ((flushedFirst.foldl step (boot oneSolo emptyStore (some 4))).step .flush).disk.heights.count 5 = 1 := by
  have clear : Run.Along Clear step (boot oneSolo emptyStore (some 4)) flushedFirst := by
    simp only [flushedFirst, bookedFive, taken, List.cons_append, List.nil_append,
      Run.along_cons, Run.along_nil]
    refine ⟨trivial, fun _ _ _ _ => ?_, trivial, trivial, trivial, ?_,
      trivial, fun _ _ plain => ?_, trivial, trivial, trivial⟩
    · decide
    · simp only [Clear]
      decide
    · exact absurd plain (by decide)
  refine ((solo_rebate_booked_once oneSolo emptyStore (some 4) clear).2.1 5 ?_).2
  exact ⟨⟨4, by decide, by decide⟩, ⟨6, by decide, by decide⟩, by decide, by decide⟩

/-- The rebate is booked, and the ledger and the cursor are on disk. -/
def roundedOff : List Event := bookedFive ++ [.flush]

/-- Three miners with as much DATUM work as each other. -/
def threeMiners : Store where
  ledger := { window :=
    { ((noBalances.intern "a").intern "b").intern "c" with
      totals := [0, 1, 2].foldl (fun totals ident => totals.insert ident (1, 1, 0)) ∅ } }

/-- The rebate of a solo block the cursor has passed, a hundred sats, is on disk nowhere in one run and twice in
another. Shared out over three it is on disk once, one sat short. -/
theorem rebate_lost_or_doubled :
    let lost := cursorFirst.foldl step (boot oneSolo emptyStore (some 4))
    let doubled := ledgerFirst.foldl step (boot oneSolo emptyStore (some 4))
    let rounded :=
      roundedOff.foldl step (boot { oneSolo with scriptFor := fun _ => some [] } threeMiners (some 4))
    oneSolo.rebate (oneSolo.chain 5) = 100 ∧
      (rounded.Due 5 ∧ rounded.disk.heights.count 5 = 1 ∧ rounded.disk.store.window.rebateOwed = 0 ∧
        ["a", "b", "c"].map rounded.disk.store.window.carryOf = [33, 33, 33]) ∧
      (lost.Due 5 ∧ lost.disk.heights.count 5 = 0 ∧ lost.disk.store.window.rebateOwed = 0 ∧
        lost.disk.store.window.carry.entries = []) ∧
      doubled.Due 5 ∧ doubled.disk.heights.count 5 = 2 ∧ doubled.disk.store.window.rebateOwed = 200 := by
  refine ⟨by decide, ⟨?_, by decide, by decide, by decide⟩, ⟨?_, by decide, by decide, by decide⟩,
    ?_, by decide, by decide⟩
  · exact ⟨⟨4, by decide, by decide⟩, ⟨5, by decide, by decide⟩, by decide, by decide⟩
  · exact ⟨⟨4, by decide, by decide⟩, ⟨5, by decide, by decide⟩, by decide, by decide⟩
  · exact ⟨⟨4, by decide, by decide⟩, ⟨5, by decide, by decide⟩, by decide, by decide⟩

end Runs

end Observer

end Lazarus.Primed.Solo
