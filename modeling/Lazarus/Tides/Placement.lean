import Lazarus.Tides.SplitInvariant

/-! The two passes of a split, one queued miner at a time: what a miner is left out for, and what placing one or
passing one over does to the room and the limits. -/

namespace Lazarus.Tides

open Machine

section Passes

variable (p : SplitParams) (now : Nat)

/-- Why a queued miner that can be paid is left without an output, if it is. -/
def leftOut (s : Placing) (q : Queued) (script : Script) : Option UnpaidReason :=
  if q.total < p.floorFor q.miner now then some .belowMinimum
  else if p.maxOutputs ≤ s.placed.length ∨ p.outputBudgetBytes < s.bytes + (9 + script.length) ∨
      p.isStale q.miner now ∧ p.staleMaxOutputs ≤ s.stalePlaced then some .overBudget
  else none

/-- A miner passed over leaves its share with the pool. -/
def Placing.pass (s : Placing) (q : Queued) (reason : UnpaidReason) : Placing :=
  { s with
    carryRoom := satAdd s.carryRoom q.earned
    unpaid := s.unpaid ++ [{ identity := q.miner.identity, sats := q.total, earned := q.earned, reason }] }

/-- A miner with no script leaves nothing: its share was never budgeted. -/
def Placing.refuse (s : Placing) (q : Queued) : Placing :=
  { s with unpaid := s.unpaid ++
      [{ identity := q.miner.identity, sats := q.total, earned := q.earned, reason := .noScript }] }

/-- A miner placed takes an output, its bytes, and a stale place if it is stale. -/
def Placing.take (s : Placing) (q : Queued) (script : Script) : Placing :=
  { s with
    bytes := s.bytes + (9 + script.length)
    stalePlaced := s.stalePlaced + if p.isStale q.miner now then 1 else 0
    placed := s.placed ++ [⟨q.miner, script, q.earned⟩] }

variable {p now} {s : Placing} {q : Queued}

theorem place_nothing (nothing : q.total = 0) : place p now s q = s := if_pos nothing

theorem place_refused (owed : q.total ≠ 0) (missing : q.script = none) : place p now s q = s.refuse q := by
  unfold place
  rw [if_neg owed, missing]
  rfl

theorem place_payable {script : Script} (owed : q.total ≠ 0) (found : q.script = some script) :
    place p now s q =
      match leftOut p now s q script with
      | some reason => s.pass q reason
      | none => s.take p now q script := by
  unfold place
  rw [if_neg owed, found]
  rfl

end Passes

section Compute

variable (p : SplitParams) (miners : List MinerStat) (totalWork value now : Nat)
  (scriptFor : String → Option Script)

/-- The room for carry before anybody is placed: what no payable miner has earned. -/
def SplitParams.opening : Placing :=
  { carryRoom := value -
      ((miners.filter fun m => (scriptOf scriptFor m).isSome).map (p.earned totalWork value)).foldl satAdd 0 }

/-- The first pass over the whole queue. -/
def SplitParams.firstPass : Placing :=
  (p.queue miners totalWork value scriptFor).foldl (place p now) (p.opening miners totalWork value scriptFor)

/-- The second pass over everybody placed, from a first pass. -/
def SplitParams.paying (first : Placing) : Paying :=
  first.placed.foldl (pay p now) { carryRoom := first.carryRoom, unpaid := first.unpaid }

variable {p miners totalWork value now scriptFor} {rebateOwed : Nat}

end Compute

section Limits

variable (p : SplitParams) (now : Nat)

/-- The bytes a placed miner's output takes. -/
def Placed.need (x : Placed) : Nat := 9 + x.script.length

/-- A placed miner as it was queued. -/
def Placed.queued (x : Placed) : Queued := ⟨x.miner, some x.script, x.earned⟩

def Placed.total (x : Placed) : Nat := satAdd x.earned x.miner.carry

/-- The counters kept beside the placed miners are theirs, and no limit is passed. -/
structure Placing.Within (s : Placing) : Prop where
  count : s.placed.length ≤ p.maxOutputs
  bytes : s.bytes = (s.placed.map Placed.need).sum
  budget : s.bytes ≤ p.outputBudgetBytes
  stale : s.stalePlaced = s.placed.countP fun x => p.isStale x.miner now
  staleCap : s.stalePlaced ≤ p.staleMaxOutputs

/-- A payable miner that no limit keeps out, and why one is kept out. -/
theorem leftOut_none {p : SplitParams} {now : Nat} {s : Placing} {q : Queued} {script : Script}
    (fits : leftOut p now s q script = none) :
    p.floorFor q.miner now ≤ q.total ∧ s.placed.length < p.maxOutputs ∧
      s.bytes + (9 + script.length) ≤ p.outputBudgetBytes ∧
      (p.isStale q.miner now = true → s.stalePlaced < p.staleMaxOutputs) := by
  unfold leftOut at fits
  split at fits
  · cases fits
  · rename_i floor
    split at fits
    · cases fits
    · rename_i room
      simp only [not_or, not_and, Nat.not_le, Nat.not_lt] at room
      exact ⟨Nat.le_of_not_lt floor, room.1, room.2.1, room.2.2⟩

theorem leftOut_overBudget {p : SplitParams} {now : Nat} {s : Placing} {q : Queued} {script : Script}
    (full : leftOut p now s q script = some .overBudget) :
    p.maxOutputs ≤ s.placed.length ∨ p.outputBudgetBytes < s.bytes + (9 + script.length) ∨
      p.isStale q.miner now = true ∧ p.staleMaxOutputs ≤ s.stalePlaced := by
  unfold leftOut at full
  split at full
  · cases full
  · split at full
    · rename_i limit
      exact limit
    · cases full

variable {p now} {s : Placing}

theorem Placing.Within.place (within : s.Within p now) (q : Queued) : (place p now s q).Within p now := by
  by_cases nothing : q.total = 0
  · rw [place_nothing nothing]
    exact within
  · cases found : q.script with
    | none =>
      rw [place_refused nothing found]
      exact ⟨within.count, within.bytes, within.budget, within.stale, within.staleCap⟩
    | some script =>
      rw [place_payable nothing found]
      cases limit : leftOut p now s q script with
      | some reason => exact ⟨within.count, within.bytes, within.budget, within.stale, within.staleCap⟩
      | none =>
        obtain ⟨_, room, budget, stale⟩ := leftOut_none limit
        refine ⟨?_, ?_, budget, ?_, ?_⟩
        · simp only [Placing.take, List.length_append, List.length_singleton]
          exact room
        · simp [Placing.take, within.bytes, Placed.need]
        · simp only [Placing.take, List.countP_append, List.countP_singleton, within.stale]
        · have cap := within.staleCap
          simp only [Placing.take]
          split
          · rename_i here
            exact stale here
          · exact cap

private theorem placed_sublist (queue : List Queued) (s : Placing) :
    ∃ added : List Placed, (queue.foldl (place p now) s).placed = s.placed ++ added ∧
      (added.map Placed.queued).Sublist queue := by
  induction queue generalizing s with
  | nil => exact ⟨[], by simp, List.Sublist.refl _⟩
  | cons q rest ih =>
    obtain ⟨added, grown, within⟩ := ih (place p now s q)
    have step : (place p now s q).placed = s.placed ∨
        ∃ script, q.script = some script ∧
        (place p now s q).placed = s.placed ++ [⟨q.miner, script, q.earned⟩] := by
      by_cases nothing : q.total = 0
      · rw [place_nothing nothing]
        exact .inl rfl
      · cases found : q.script with
        | none =>
          rw [place_refused nothing found]
          exact .inl rfl
        | some script =>
          rw [place_payable nothing found]
          cases leftOut p now s q script with
          | some reason => exact .inl rfl
          | none => exact .inr ⟨script, rfl, rfl⟩
    rw [List.foldl_cons, grown]
    rcases step with same | ⟨script, found, same⟩
    · exact ⟨added, by rw [same], within.cons q⟩
    · refine ⟨⟨q.miner, script, q.earned⟩ :: added, by rw [same]; simp, ?_⟩
      have line : Placed.queued ⟨q.miner, script, q.earned⟩ = q := by rw [Placed.queued, ← found]
      rw [List.map_cons, line]
      exact within.cons_cons q

/-- What a placed miner's output is, if it has one. -/
structure PaidAs (p : SplitParams) (now : Nat) (x : Placed) (payee : Payee) : Prop where
  identity : payee.identity = x.miner.identity
  work : payee.work = x.miner.work
  script : payee.script = x.script
  carry : payee.carry ≤ x.miner.carry
  sats : payee.sats = x.earned + payee.carry
  floor : p.floorFor x.miner now ≤ payee.sats
  whole : p.isStale x.miner now = true → payee.carry = x.miner.carry

theorem PaidAs.of_mem {paid : List Placed} {payees : List Payee}
    (each : List.Forall₂ (PaidAs p now) paid payees)
    {payee : Payee} (member : payee ∈ payees) : ∃ x ∈ paid, PaidAs p now x payee := by
  induction each with
  | nil => cases member
  | cons here _ ih =>
    rcases List.mem_cons.mp member with rfl | later
    · exact ⟨_, List.mem_cons_self, here⟩
    · obtain ⟨x, listed, as⟩ := ih later
      exact ⟨x, List.mem_cons_of_mem _ listed, as⟩

private theorem paid_sublist (placed : List Placed) (s : Paying) :
    ∃ paid payees, paid.Sublist placed ∧ (placed.foldl (pay p now) s).payees = s.payees ++ payees ∧
      List.Forall₂ (PaidAs p now) paid payees := by
  induction placed generalizing s with
  | nil => exact ⟨[], [], List.Sublist.refl _, by simp, List.Forall₂.nil⟩
  | cons x rest ih =>
    obtain ⟨paid, payees, within, grown, each⟩ := ih (pay p now s x)
    rw [List.foldl_cons, grown]
    by_cases out : x.earned + min x.miner.carry s.carryRoom < p.floorFor x.miner now ∨
        p.isStale x.miner now ∧ min x.miner.carry s.carryRoom < x.miner.carry
    · have same : (pay p now s x).payees = s.payees := by
        unfold pay
        simp only
        rw [if_pos out]
      exact ⟨paid, payees, within.cons x, by rw [same], each⟩
    · let payee : Payee := {
        identity := x.miner.identity, work := x.miner.work, sats := x.earned + min x.miner.carry s.carryRoom,
        carry := min x.miner.carry s.carryRoom, script := x.script }
      have same : (pay p now s x).payees = s.payees ++ [payee] := by
        unfold pay
        simp only
        rw [if_neg out]
      rw [not_or, not_and, Nat.not_lt, Nat.not_lt] at out
      refine ⟨x :: paid, payee :: payees, within.cons_cons x, by rw [same]; simp, List.Forall₂.cons ?_ each⟩
      exact ⟨rfl, rfl, rfl, Nat.min_le_left _ _, rfl, out.1,
        fun stale => Nat.le_antisymm (Nat.min_le_left _ _) (out.2 stale)⟩

/-- What keeps a miner out: a limit that those placed before it, each owed as much or more, have used up. -/
structure NoRoom (p : SplitParams) (now : Nat) (ahead : List Placed) (q : Queued) (script : Script) : Prop where
  owed : ∀ x ∈ ahead, q.total ≤ x.total
  full : p.maxOutputs ≤ ahead.length ∨
    p.outputBudgetBytes < (ahead.map Placed.need).sum + (9 + script.length) ∨
      p.isStale q.miner now = true ∧ p.staleMaxOutputs ≤ ahead.countP fun x => p.isStale x.miner now

/-- Whoever the first pass leaves out for want of room did not fit. -/
theorem overBudget_noRoom {queue : List Queued} (sorted : queue.Pairwise Queued.before)
    (within : s.Within p now) (larger : ∀ x ∈ s.placed, ∀ q ∈ queue, q.total ≤ x.total)
    {u : Unpaid} (short : u.reason = .overBudget) (member : u ∈ (queue.foldl (place p now) s).unpaid) :
    u ∈ s.unpaid ∨ ∃ q ∈ queue, q.miner.identity = u.identity ∧ q.total = u.sats ∧ q.earned = u.earned ∧
      ∃ script, q.script = some script ∧ ∃ ahead, ahead <+: (queue.foldl (place p now) s).placed ∧
        NoRoom p now ahead q script := by
  induction queue generalizing s with
  | nil => exact .inl member
  | cons q rest ih =>
    obtain ⟨first, sorted⟩ := List.pairwise_cons.mp sorted
    have onward : ∀ x ∈ (place p now s q).placed, ∀ q' ∈ rest, q'.total ≤ x.total := by
      intro x placed q' later
      obtain ⟨added, grown, among⟩ := placed_sublist (p := p) [q] s
      rw [List.foldl_cons, List.foldl_nil] at grown
      rw [grown] at placed
      rcases List.mem_append.mp placed with before | new
      · exact larger x before q' (by simp [later])
      · have here : x.queued ∈ [q] := among.subset (List.mem_map_of_mem new)
        have same : x.total = q.total := congrArg Queued.total (List.mem_singleton.mp here)
        rw [same]
        exact first q' later
    rcases ih sorted (within.place q) onward member with before | ⟨other, listed, facts⟩
    · by_cases nothing : q.total = 0
      · rw [place_nothing nothing] at before
        exact .inl before
      · cases found : q.script with
        | none =>
          rw [place_refused nothing found] at before
          rcases List.mem_append.mp before with earlier | here
          · exact .inl earlier
          · obtain rfl := List.mem_singleton.mp here
            cases short
        | some script =>
          rw [place_payable nothing found] at before
          cases limit : leftOut p now s q script with
          | none =>
            rw [limit] at before
            exact .inl before
          | some reason =>
            rw [limit] at before
            rcases List.mem_append.mp before with earlier | here
            · exact .inl earlier
            · obtain rfl := List.mem_singleton.mp here
              obtain rfl : reason = .overBudget := short
              refine .inr ⟨q, List.mem_cons_self, rfl, rfl, rfl, script, found, s.placed, ?_, ?_, ?_⟩
              · obtain ⟨added, grown, _⟩ := placed_sublist (p := p) (q :: rest) s
                rw [grown]
                exact List.prefix_append _ _
              · exact fun x placed => larger x placed q (by simp)
              · rw [← within.bytes, ← within.stale]
                exact leftOut_overBudget limit
    · exact .inr ⟨other, List.mem_cons_of_mem q listed, facts⟩

end Limits

section Whole

variable {miners : List MinerStat} {totalWork value now : Nat} {p : SplitParams}
  {scriptFor : String → Option Script}

instance before_total : Std.Total Queued.before := ⟨fun a b => Nat.le_total b.total a.total⟩

instance before_trans : IsTrans Queued Queued.before := ⟨fun _ _ _ first second => Nat.le_trans second first⟩

theorem queue_sorted : (p.queue miners totalWork value scriptFor).Pairwise Queued.before :=
  List.pairwise_insertionSort Queued.before _

theorem opening_within : (p.opening miners totalWork value scriptFor).Within p now :=
  ⟨Nat.zero_le _, rfl, Nat.zero_le _, rfl, Nat.zero_le _⟩

theorem firstPass_within : (p.firstPass miners totalWork value now scriptFor).Within p now :=
  Run.foldl_kept (place p now) (Placing.Within p now) (fun _ q within => within.place q) _ opening_within

theorem firstPass_room (bounded : p.Bounded) (worked : (miners.map MinerStat.work).sum ≤ totalWork)
    (fits : value ≤ u64Max) :
    (p.firstPass miners totalWork value now scriptFor).carryRoom +
      ((p.firstPass miners totalWork value now scriptFor).placed.map Placed.earned).sum = value :=
  first_room now scriptFor bounded worked fits

/-- Whoever is placed is owed its floor at least. -/
theorem firstPass_floor :
    ∀ x ∈ (p.firstPass miners totalWork value now scriptFor).placed, p.floorFor x.miner now ≤ x.total := by
  refine Run.foldl_kept (place p now)
    (fun s : Placing => ∀ x ∈ s.placed, p.floorFor x.miner now ≤ x.total) ?_ _ nofun
  intro s q before x placed
  by_cases nothing : q.total = 0
  · rw [place_nothing nothing] at placed
    exact before x placed
  · cases found : q.script with
    | none =>
      rw [place_refused nothing found] at placed
      exact before x placed
    | some script =>
      rw [place_payable nothing found] at placed
      cases limit : leftOut p now s q script with
      | some reason =>
        rw [limit] at placed
        exact before x placed
      | none =>
        rw [limit] at placed
        rcases List.mem_append.mp placed with earlier | here
        · exact before x earlier
        · obtain rfl := List.mem_singleton.mp here
          exact (leftOut_none limit).1

/-- A miner placed by the first pass is a listed one, with its script and share. -/
theorem mem_firstPass {x : Placed} (placed : x ∈ (p.firstPass miners totalWork value now scriptFor).placed) :
    x.miner ∈ miners ∧ scriptOf scriptFor x.miner = some x.script ∧
      x.earned = p.earned totalWork value x.miner := by
  rcases mem_placed placed with impossible | ⟨q, queued, miner, script, earned⟩
  · cases impossible
  · obtain ⟨m, listed, rfl⟩ :=
      List.mem_map.mp ((queue_perm p miners totalWork value scriptFor).mem_iff.mp queued)
    have same : m = x.miner := miner
    subst same
    exact ⟨listed, script, earned.symm⟩

theorem firstPass_sorted :
    ((p.firstPass miners totalWork value now scriptFor).placed).Pairwise fun a b => b.total ≤ a.total := by
  obtain ⟨added, grown, among⟩ := placed_sublist (p := p) (p.queue miners totalWork value scriptFor)
    (p.opening miners totalWork value scriptFor)
  have placed : (p.firstPass miners totalWork value now scriptFor).placed = added := grown
  rw [placed]
  exact List.pairwise_map.mp (queue_sorted.sublist among)

theorem firstPass_subperm :
    ((p.firstPass miners totalWork value now scriptFor).placed.map Placed.miner).Subperm miners := by
  obtain ⟨added, grown, among⟩ := placed_sublist (p := p) (p.queue miners totalWork value scriptFor)
    (p.opening miners totalWork value scriptFor)
  have placed : (p.firstPass miners totalWork value now scriptFor).placed = added := grown
  have queued := (among.map Queued.miner).subperm.trans
    ((queue_perm p miners totalWork value scriptFor).map Queued.miner).subperm
  rw [List.map_map, List.map_map] at queued
  rw [placed]
  simpa [Function.comp_def, Placed.queued, SplitParams.queued] using queued

/-- The outputs of a split, each with the miner it is for, in the order they were queued in. -/
theorem compute_paid (miners : List MinerStat) (totalWork value : Nat) (p : SplitParams) (rebateOwed now : Nat)
    (scriptFor : String → Option Script) :
    ∃ paid : List Placed,
      paid.Sublist (p.firstPass miners totalWork value now scriptFor).placed ∧
      List.Forall₂ (PaidAs p now) paid (compute miners totalWork value p rebateOwed now scriptFor).payees := by
  obtain ⟨paid, payees, within, grown, each⟩ := paid_sublist (p := p)
    (p.firstPass miners totalWork value now scriptFor).placed
    { carryRoom := (p.firstPass miners totalWork value now scriptFor).carryRoom
      unpaid := (p.firstPass miners totalWork value now scriptFor).unpaid }
  have same : (compute miners totalWork value p rebateOwed now scriptFor).payees = payees := grown
  refine ⟨paid, within, ?_⟩
  rw [same]
  exact each

theorem payees_limits (miners : List MinerStat) (totalWork value : Nat) (p : SplitParams) (rebateOwed now : Nat)
    (scriptFor : String → Option Script) :
    let s := compute miners totalWork value p rebateOwed now scriptFor
    s.payees.length ≤ p.maxOutputs ∧
      (s.payees.map fun payee => 9 + payee.script.length).sum ≤ p.outputBudgetBytes := by
  intro s
  obtain ⟨paid, among, each⟩ := compute_paid miners totalWork value p rebateOwed now scriptFor
  have within : (p.firstPass miners totalWork value now scriptFor).Within p now := firstPass_within
  have needs : s.payees.map (fun payee => 9 + payee.script.length) = paid.map Placed.need := by
    symm
    rw [← List.forall₂_eq_eq_eq, List.forall₂_map_left_iff, List.forall₂_map_right_iff]
    refine each.imp ?_
    intro x payee as
    rw [Placed.need, as.script]
  refine ⟨?_, ?_⟩
  · rw [← each.length_eq]
    exact among.length_le.trans within.count
  · rw [needs]
    have less : (paid.map Placed.need).sum ≤ _ := (among.map Placed.need).sum_le_sum fun _ _ => Nat.zero_le _
    have most := within.budget
    rw [within.bytes] at most
    exact less.trans most

end Whole

end Lazarus.Tides
