import Lazarus.Tides.CarryRoom

/-! Stale balances in a split beside those who are mining. A split with them and the same split without pay the
same to whoever has work in the window, where the stale balances that could be placed come last in the queue, or
those who are mining take every output before them, or there is room for everybody. -/

namespace Lazarus.Tides

open Machine

section Sorting

variable {α : Type u} {before : α → α → Prop} [DecidableRel before] [IsTrans α before]

end Sorting

section Lists

variable {α : Type u}

end Lists

section Queue

variable (p : SplitParams) (now : Nat)

/-- A queued miner that is mining, or was not long ago. -/
def Queued.active (q : Queued) : Bool := !p.isStale q.miner now

/-- A queued miner that could have an output, were it alone in the queue. -/
def Queued.Candidate (q : Queued) : Prop := q.Fits p now p.maxOutputs p.outputBudgetBytes p.staleMaxOutputs

instance (q : Queued) : Decidable (q.Candidate p now) := inferInstanceAs (Decidable (q.Fits _ _ _ _ _))

/-- There is an output for everybody who is mining after all those in line before, its bytes,
and its whole balance. -/
def Roomy (room : Nat) (line : List Queued) : Prop :=
  ∀ ahead q behind, line = ahead ++ q :: behind → q.active p now = true →
    ahead.length < p.maxOutputs ∧ (ahead.map Queued.need).sum + q.need ≤ p.outputBudgetBytes ∧
      (0 < q.miner.carry → (ahead.map fun q => q.miner.carry).sum + q.miner.carry ≤ room)

/-- What a queued miner leaves in the room if it is passed over. -/
def Queued.leaves (q : Queued) : Nat := if q.total ≠ 0 ∧ q.script.isSome = true then q.earned else 0

variable {p now} {s s' : Placing} {q : Queued}

theorem Queued.Candidate.leaves (candidate : q.Candidate p now) : q.leaves = q.earned :=
  if_pos ⟨candidate.1, candidate.2.1⟩

private theorem satAdd_zero_right (small : s.carryRoom ≤ u64Max) : satAdd s.carryRoom 0 = s.carryRoom :=
  Nat.min_eq_left small

private theorem place_passed (small : s.carryRoom ≤ u64Max) (passed : ¬ q.Candidate p now) :
    (place p now s q).placed = s.placed ∧ (place p now s q).bytes = s.bytes ∧
      (place p now s q).stalePlaced = s.stalePlaced ∧
      (place p now s q).carryRoom = satAdd s.carryRoom q.leaves := by
  by_cases nothing : q.total = 0
  · have left : q.leaves = 0 := if_neg fun both => both.1 nothing
    rw [place_nothing nothing, left, satAdd_zero_right small]
    exact ⟨rfl, rfl, rfl, rfl⟩
  · cases found : q.script with
    | none =>
      have left : q.leaves = 0 := if_neg fun both => by simp [found] at both
      rw [place_refused nothing found, left, satAdd_zero_right small]
      exact ⟨rfl, rfl, rfl, rfl⟩
    | some script =>
      have payable : q.script.isSome = true := by rw [found, Option.isSome_some]
      have left : q.leaves = q.earned := if_pos ⟨nothing, payable⟩
      have need : q.need = 9 + script.length := by rw [Queued.need, found, Option.getD_some]
      have out : ∃ reason, leftOut p now s q script = some reason := by
        cases limit : leftOut p now s q script with
        | some reason => exact ⟨reason, rfl⟩
        | none =>
          obtain ⟨floor, count, bytes, stale⟩ := leftOut_none limit
          exact absurd
            ⟨nothing, payable, floor, by omega, by omega, fun gone => Nat.zero_lt_of_lt (stale gone)⟩ passed
      obtain ⟨reason, out⟩ := out
      rw [place_payable nothing found, out, left]
      exact ⟨rfl, rfl, rfl, rfl⟩

private theorem place_candidate (candidate : q.Candidate p now) : ∃ script, q.script = some script ∧
    (place p now s q = s.take p now q script ∧ s.placed.length < p.maxOutputs ∧
        s.bytes + q.need ≤ p.outputBudgetBytes ∧ (q.active p now = false → s.stalePlaced < p.staleMaxOutputs) ∨
      place p now s q = s.pass q .overBudget ∧ (p.maxOutputs ≤ s.placed.length ∨
        p.outputBudgetBytes < s.bytes + q.need ∨ q.active p now = false ∧
        p.staleMaxOutputs ≤ s.stalePlaced)) := by
  obtain ⟨owed, payable, floor, _⟩ := candidate
  obtain ⟨script, found⟩ := Option.isSome_iff_exists.mp payable
  have need : q.need = 9 + script.length := by rw [Queued.need, found, Option.getD_some]
  refine ⟨script, found, ?_⟩
  rw [place_payable owed found, need]
  cases limit : leftOut p now s q script with
  | none =>
    obtain ⟨_, count, bytes, stale⟩ := leftOut_none limit
    exact .inl ⟨rfl, count, bytes, fun gone => stale (by simpa [Queued.active] using gone)⟩
  | some reason =>
    have full : reason = .overBudget := by
      unfold leftOut at limit
      rw [if_neg (Nat.not_lt.mpr floor)] at limit
      split at limit
      · exact (Option.some.inj limit).symm
      · cases limit
    rw [full] at limit ⊢
    refine .inr ⟨rfl, ?_⟩
    simpa [Queued.active] using leftOut_overBudget limit

end Queue

section FirstPass

variable {p : SplitParams} {now : Nat} {q : Queued} {rest queue : List Queued} {left : Nat} {s s' : Placing}

def Placed.active (p : SplitParams) (now : Nat) (x : Placed) : Bool := !p.isStale x.miner now

private theorem place_small (small : s.carryRoom ≤ u64Max) (q : Queued) :
    (place p now s q).carryRoom ≤ u64Max := by
  by_cases candidate : q.Candidate p now
  · obtain ⟨script, _, ⟨taken, _⟩ | ⟨passed, _⟩⟩ := place_candidate (s := s) candidate
    · rw [taken]
      exact small
    · rw [passed]
      exact satAdd_le_max
  · rw [(place_passed small candidate).2.2.2]
    exact satAdd_le_max

/-- Two first passes that have placed the same. -/
structure Alike (s s' : Placing) : Prop where
  placed : s.placed = s'.placed
  bytes : s.bytes = s'.bytes
  stale : s.stalePlaced = s'.stalePlaced

/-- Stale balances that could have no output change nothing for the others. -/
theorem Alike.foldl (none : ∀ q ∈ queue, q.active p now = false → ¬ q.Candidate p now)
    (small : s.carryRoom ≤ u64Max) (small' : s'.carryRoom ≤ u64Max) (alike : Alike s s') :
    Alike (queue.foldl (place p now) s) ((queue.filter (Queued.active p now)).foldl (place p now) s') := by
  induction queue generalizing s s' with
  | nil => exact alike
  | cons q rest ih =>
    obtain ⟨here, none⟩ := List.forall_mem_cons.mp none
    rw [List.foldl_cons]
    cases kind : q.active p now with
    | false =>
      obtain ⟨placed, bytes, stale, _⟩ := place_passed small (here kind)
      rw [List.filter_cons_of_neg (by simp [kind])]
      exact ih none (place_small small q) small'
        ⟨placed.trans alike.placed, bytes.trans alike.bytes, stale.trans alike.stale⟩
    | true =>
      rw [List.filter_cons_of_pos kind, List.foldl_cons]
      refine ih none (place_small small q) (place_small small' q) ?_
      by_cases candidate : q.Candidate p now
      · have count := congrArg List.length alike.placed
        have size := alike.bytes
        obtain ⟨script, found, cases⟩ := place_candidate (s := s) candidate
        obtain ⟨script', found', cases'⟩ := place_candidate (s := s') candidate
        obtain rfl : script = script' := Option.some.inj (found.symm.trans found')
        rcases cases with ⟨taken, fits⟩ | ⟨passed, full⟩
        · rcases cases' with ⟨taken', _⟩ | ⟨_, full'⟩
          · rw [taken, taken']
            exact ⟨by simp only [Placing.take, alike.placed], by simp only [Placing.take, size],
              by simp only [Placing.take, alike.stale]⟩
          · rw [kind] at full'
            simp only [Bool.true_eq_false, false_and, or_false] at full'
            omega
        · rcases cases' with ⟨_, fits'⟩ | ⟨passed', _⟩
          · rw [kind] at full
            simp only [Bool.true_eq_false, false_and, or_false] at full
            omega
          · rw [passed, passed']
            exact ⟨alike.placed, alike.bytes, alike.stale⟩
      · obtain ⟨placed, bytes, stale, _⟩ := place_passed small candidate
        obtain ⟨placed', bytes', stale', _⟩ := place_passed small' candidate
        exact ⟨by rw [placed, placed', alike.placed], by rw [bytes, bytes', alike.bytes],
          by rw [stale, stale', alike.stale]⟩

end FirstPass

section SecondPass

variable {p : SplitParams} {now : Nat}

/-- A placed miner paid its balance whole. -/
def Placed.whole (x : Placed) : Payee :=
  { identity := x.miner.identity, work := x.miner.work, sats := x.earned + x.miner.carry,
    carry := x.miner.carry, script := x.script }

end SecondPass

section Compute

variable {miners : List MinerStat} {totalWork value : Nat} {p : SplitParams} {now : Nat}
  {scriptFor : String → Option Script}

end Compute

end Lazarus.Tides
