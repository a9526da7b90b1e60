import Lazarus.Tides.Split
import Lazarus.Lib.Shares
import Lazarus.Lib.Tally
import Lazarus.Lib.Along

/-! What a split does with a block's value: every earned share and the rebate fit in it, the two
passes hand it out without rest, and everybody owed something is accounted for once. -/

namespace Lazarus.Tides

open Machine Shares Tally

namespace SplitParams

variable {p : SplitParams} {m : MinerStat}

/-- No fee takes more than everything. -/
structure Bounded (p : SplitParams) : Prop where
  fee : p.feeBps ≤ 10000
  stratumFee : p.stratumFeeBps ≤ 10000

instance (p : SplitParams) : Decidable p.Bounded :=
  decidable_of_iff (p.feeBps ≤ 10000 ∧ p.stratumFeeBps ≤ 10000)
    ⟨fun bounds => ⟨bounds.1, bounds.2⟩, fun bounded => ⟨bounded.fee, bounded.stratumFee⟩⟩

theorem Bounded.stratumBps (bounded : p.Bounded) : p.stratumBps ≤ 10000 := by
  unfold SplitParams.stratumBps
  split
  · exact bounded.fee
  · exact bounded.stratumFee

theorem classes_sum (m : MinerStat) : m.classes.1 + m.classes.2.1 + m.classes.2.2 = m.work := by
  simp only [MinerStat.classes]
  omega

/-- What a miner keeps and what of its fee is rebated come to no more than its work. -/
theorem keep_add_rebate_le (bounded : p.Bounded) (m : MinerStat) :
    p.keep m + m.classes.1 * p.rebateBps + m.classes.2.1 * p.graceRebate ≤ m.work * 10000 := by
  have stratum := bounded.stratumBps
  have rebate : p.rebateBps ≤ p.stratumBps := Nat.min_le_right _ _
  have grace : p.graceBps ≤ 10000 := Nat.min_le_right _ _
  have graceRebate : p.graceRebate ≤ p.graceBps := Nat.min_le_right _ _
  have full : m.classes.1 * (10000 - p.stratumBps) + m.classes.1 * p.rebateBps ≤ m.classes.1 * 10000 := by
    rw [← Nat.mul_add]
    exact Nat.mul_le_mul_left _ (by omega)
  have inGrace :
      m.classes.2.1 * (10000 - p.graceBps) + m.classes.2.1 * p.graceRebate ≤ m.classes.2.1 * 10000 := by
    rw [← Nat.mul_add]
    exact Nat.mul_le_mul_left _ (by omega)
  have datum : m.classes.2.2 * (10000 - p.feeBps) ≤ m.classes.2.2 * 10000 :=
    Nat.mul_le_mul_left _ (Nat.sub_le _ _)
  have whole := congrArg (· * 10000) (classes_sum m)
  simp only [Nat.add_mul] at whole
  have kept : p.keep m = m.classes.1 * (10000 - p.stratumBps) + m.classes.2.1 * (10000 - p.graceBps) +
      m.classes.2.2 * (10000 - p.feeBps) := rfl
  omega

theorem earned_le_share (p : SplitParams) (totalWork value : Nat) (m : MinerStat) :
    p.earned totalWork value m ≤ share value (p.keep m) (totalWork * 10000) := by
  unfold earned
  split
  · rw [share, ← Nat.div_div_eq_div_mul]
    exact asU64_le
  · exact Nat.zero_le _

theorem stratumRebate_le_share (value totalWork totalSw bps : Nat) :
    stratumRebate value totalWork totalSw bps ≤ share value (totalSw * bps) (totalWork * 10000) := by
  unfold stratumRebate
  split
  · exact Nat.zero_le _
  · rw [share, ← Nat.div_div_eq_div_mul, ← Nat.mul_assoc]
    exact asU64_le

private theorem sum_parts_le (bounded : p.Bounded) (miners : List MinerStat) :
    (miners.map p.keep).sum + (miners.map fun m => m.classes.1).sum * p.rebateBps +
      (miners.map fun m => m.classes.2.1).sum * p.graceRebate ≤ (miners.map MinerStat.work).sum * 10000 := by
  induction miners with
  | nil => simp
  | cons m rest ih =>
    have one := keep_add_rebate_le bounded m
    simp only [List.map_cons, List.sum_cons, Nat.add_mul]
    omega

/-- Everybody's earned share and the rebate out of the fees fit in the block's value. -/
theorem sum_earned_add_fromFee_le (bounded : p.Bounded) {miners : List MinerStat} {totalWork : Nat}
    (worked : (miners.map MinerStat.work).sum ≤ totalWork) (value : Nat) :
    (miners.map (p.earned totalWork value)).sum + p.fromFee miners totalWork value ≤ value := by
  have earnings : (miners.map (p.earned totalWork value)).sum ≤
      share value (miners.map p.keep).sum (totalWork * 10000) := by
    have each : ∀ m ∈ miners, p.earned totalWork value m ≤ share value (p.keep m) (totalWork * 10000) :=
      fun m _ => earned_le_share p totalWork value m
    refine Nat.le_trans (List.sum_le_sum each) ?_
    have rounded := sum_share_le value (miners.map p.keep) (totalWork * 10000)
    rwa [List.map_map] at rounded
  have full : stratumRebate value totalWork ((miners.map fun m => m.classes.1).foldl satAdd 0) p.rebateBps ≤
      share value ((miners.map fun m => m.classes.1).sum * p.rebateBps) (totalWork * 10000) := by
    refine Nat.le_trans (stratumRebate_le_share _ _ _ _) (share_mono (Nat.mul_le_mul_right _ ?_) _ _)
    simpa using foldl_satAdd_le 0 (miners.map fun m => m.classes.1)
  have grace :
    stratumRebate value totalWork ((miners.map fun m => m.classes.2.1).foldl satAdd 0) p.graceRebate ≤
      share value ((miners.map fun m => m.classes.2.1).sum * p.graceRebate) (totalWork * 10000) := by
    refine Nat.le_trans (stratumRebate_le_share _ _ _ _) (share_mono (Nat.mul_le_mul_right _ ?_) _ _)
    simpa using foldl_satAdd_le 0 (miners.map fun m => m.classes.2.1)
  have together :=
    share_le value (Nat.le_trans (sum_parts_le bounded miners) (Nat.mul_le_mul_right 10000 worked))
  have first :=
    share_add_le value ((miners.map p.keep).sum + (miners.map fun m => m.classes.1).sum * p.rebateBps)
    ((miners.map fun m => m.classes.2.1).sum * p.graceRebate) (totalWork * 10000)
  have second :=
    share_add_le value (miners.map p.keep).sum ((miners.map fun m => m.classes.1).sum * p.rebateBps)
    (totalWork * 10000)
  have rebate : p.fromFee miners totalWork value ≤ _ := satAdd_le
  omega

end SplitParams

section Passes

variable {p : SplitParams} {now : Nat}

/-- What a queued miner has budgeted for it: its share, if it can be paid at all. -/
def Queued.budget (q : Queued) : Nat := if q.script.isSome then q.earned else 0

/-- The earned shares of the miners placed so far. -/
def Placing.due (s : Placing) : Nat := (s.placed.map Placed.earned).sum

private theorem place_cases (p : SplitParams) (now : Nat) (s : Placing) (q : Queued) :
    (q.earned = 0 ∧ q.miner.carry = 0 ∧ place p now s q = s) ∨
      (q.total ≠ 0 ∧ q.script = none ∧ place p now s q = { s with unpaid := s.unpaid ++
        [{ identity := q.miner.identity, sats := q.total, earned := q.earned, reason := .noScript }] }) ∨
      (q.total ≠ 0 ∧ q.script.isSome ∧ ∃ reason, reason ≠ UnpaidReason.noScript ∧ place p now s q =
        { s with
          carryRoom := satAdd s.carryRoom q.earned
          unpaid := s.unpaid ++
            [{ identity := q.miner.identity, sats := q.total, earned := q.earned, reason }] }) ∨
      (q.total ≠ 0 ∧ ∃ script bytes stalePlaced, q.script = some script ∧ place p now s q =
        { s with bytes, stalePlaced, placed := s.placed ++ [⟨q.miner, script, q.earned⟩] }) := by
  by_cases nothing : q.total = 0
  · obtain ⟨earned, carry⟩ := satAdd_eq_zero.mp nothing
    exact .inl ⟨earned, carry, by simp [place, nothing]⟩
  · refine .inr ?_
    cases found : q.script with
    | none => exact .inl ⟨nothing, rfl, by simp [place, nothing, found]⟩
    | some script =>
      refine .inr ?_
      simp only [place, nothing, ↓reduceIte, found]
      split
      · rename_i reason left
        refine .inl ⟨nothing, rfl, reason, ?_, rfl⟩
        rintro rfl
        split at left
        · cases left
        · split at left <;> cases left
      · exact .inr ⟨nothing, script, _, _, rfl, rfl⟩

/-- The first pass keeps the room and the placed shares together equal to what is not budgeted for
the miners still queued. -/
theorem place_room {value : Nat} (fits : value ≤ u64Max) (queue : List Queued) (s : Placing)
    (split : s.carryRoom + s.due + (queue.map Queued.budget).sum = value) :
    (queue.foldl (place p now) s).carryRoom + (queue.foldl (place p now) s).due = value := by
  induction queue generalizing s with
  | nil => simpa using split
  | cons q rest ih =>
    apply ih
    rw [List.map_cons, List.sum_cons] at split
    rcases place_cases p now s q with ⟨earned, -, same⟩ | ⟨-, missing, same⟩ | ⟨-, found, reason, -, same⟩ |
      ⟨-, script, bytes, stalePlaced, found, same⟩
    · have nothing : q.budget = 0 := by simp [Queued.budget, earned]
      rw [same]
      omega
    · have nothing : q.budget = 0 := by simp [Queued.budget, missing]
      rw [same]
      simp only [Placing.due] at split ⊢
      omega
    · have budgeted : q.budget = q.earned := by simp [Queued.budget, found]
      rw [same]
      simp only [Placing.due] at split ⊢
      rw [satAdd_eq (by omega)]
      omega
    · have budgeted : q.budget = q.earned := by simp [Queued.budget, found]
      rw [same]
      simp only [Placing.due, List.map_append, List.map_cons, List.map_nil, List.sum_append, List.sum_cons,
        List.sum_nil] at split ⊢
      omega

private theorem pay_cases (p : SplitParams) (now : Nat) (s : Paying) (q : Placed) :
    (pay p now s q = { s with
      carryRoom := satAdd s.carryRoom q.earned
      unpaid := s.unpaid ++ [{
        identity := q.miner.identity, sats := satAdd q.earned q.miner.carry, earned := q.earned,
        reason := .overBudget }] }) ∨
      ∃ carry, carry ≤ q.miner.carry ∧ carry ≤ s.carryRoom ∧ pay p now s q = { s with
        carryRoom := s.carryRoom - carry
        paid := s.paid + (q.earned + carry)
        carryPaid := s.carryPaid + carry
        payees := s.payees ++ [{
          identity := q.miner.identity, work := q.miner.work, sats := q.earned + carry, carry,
          script := q.script }] } := by
  simp only [pay]
  split
  · exact .inl rfl
  · exact .inr ⟨_, Nat.min_le_left _ _, Nat.min_le_right _ _, rfl⟩

/-- The second pass keeps the room, what is paid and the shares still to pay together. -/
theorem pay_room {value : Nat} (fits : value ≤ u64Max) (placed : List Placed) (s : Paying)
    (split : s.carryRoom + s.paid + (placed.map Placed.earned).sum = value) :
    (placed.foldl (pay p now) s).carryRoom + (placed.foldl (pay p now) s).paid = value := by
  induction placed generalizing s with
  | nil => simpa using split
  | cons q rest ih =>
    apply ih
    rw [List.map_cons, List.sum_cons] at split
    rcases pay_cases p now s q with same | ⟨carry, -, room, same⟩
    · rw [same]
      simp only
      rw [satAdd_eq (by omega)]
      omega
    · rw [same]
      simp only
      omega

/-- The sums kept beside the outputs are the sums of the outputs. -/
structure Paying.Summed (s : Paying) : Prop where
  paid : s.paid = (s.payees.map Payee.sats).sum
  carryPaid : s.carryPaid = (s.payees.map Payee.carry).sum

theorem Paying.Summed.pay {s : Paying} (summed : s.Summed) (q : Placed) : (Tides.pay p now s q).Summed := by
  rcases pay_cases p now s q with same | ⟨carry, -, -, same⟩
  · rw [same]
    exact ⟨summed.paid, summed.carryPaid⟩
  · rw [same]
    exact ⟨by simp [summed.paid], by simp [summed.carryPaid]⟩

/-- Who a line of the split is about, what it earned, and whether it can be paid at all. -/
def Payee.claim (payee : Payee) : String × Nat × Bool := (payee.identity, payee.sats - payee.carry, true)

def Unpaid.claim (u : Unpaid) : String × Nat × Bool := (u.identity, u.earned, decide (u.reason ≠ .noScript))

def Queued.claim (q : Queued) : String × Nat × Bool := (q.miner.identity, q.earned, q.script.isSome)

def Placed.claim (q : Placed) : String × Nat × Bool := (q.miner.identity, q.earned, true)

private theorem place_claims (queue : List Queued) (s : Placing) :
    ((queue.foldl (place p now) s).placed.map Placed.claim ++
        (queue.foldl (place p now) s).unpaid.map Unpaid.claim).Perm
      (s.placed.map Placed.claim ++ s.unpaid.map Unpaid.claim ++
        (queue.filter fun q => q.total ≠ 0).map Queued.claim) := by
  induction queue generalizing s with
  | nil => simp
  | cons q rest ih =>
    refine (ih (place p now s q)).trans ?_
    rcases place_cases p now s q with ⟨earned, carry, same⟩ | ⟨owed, missing, same⟩ |
      ⟨owed, found, reason, payable, same⟩ | ⟨owed, script, bytes, stalePlaced, found, same⟩
    · have nothing : q.total = 0 := satAdd_eq_zero.mpr ⟨earned, carry⟩
      rw [same, List.filter_cons_of_neg (by simp [nothing])]
    · have line : q.claim = (q.miner.identity, q.earned, false) := by simp [Queued.claim, missing]
      rw [same, List.filter_cons_of_pos (by simp [owed]), List.map_cons, line]
      simp [Unpaid.claim]
    · have line : q.claim = (q.miner.identity, q.earned, true) := by simp [Queued.claim, found]
      rw [same, List.filter_cons_of_pos (by simp [owed]), List.map_cons, line]
      simp [Unpaid.claim, payable]
    · have line : q.claim = (q.miner.identity, q.earned, true) := by simp [Queued.claim, found]
      rw [same, List.filter_cons_of_pos (by simp [owed]), List.map_cons, line]
      simp only [List.map_append, List.map_cons, List.map_nil, Placed.claim,
        List.append_assoc, List.singleton_append]
      exact List.perm_middle.symm.append_left _

private theorem pay_claims (placed : List Placed) (s : Paying) :
    ((placed.foldl (pay p now) s).payees.map Payee.claim ++
        (placed.foldl (pay p now) s).unpaid.map Unpaid.claim).Perm
      (s.payees.map Payee.claim ++ s.unpaid.map Unpaid.claim ++ placed.map Placed.claim) := by
  induction placed generalizing s with
  | nil => simp
  | cons q rest ih =>
    refine (ih (pay p now s q)).trans ?_
    rcases pay_cases p now s q with same | ⟨carry, -, -, same⟩
    · rw [same]
      simp [Unpaid.claim, Placed.claim]
    · rw [same]
      simp only [List.map_append, List.map_cons, List.map_nil, Placed.claim, Payee.claim, Nat.add_sub_cancel,
        List.append_assoc, List.singleton_append]
      exact List.perm_middle.symm.append_left _

/-- Everybody placed was queued, with a script. -/
theorem mem_placed {queue : List Queued} {s : Placing} {x : Placed}
    (member : x ∈ (queue.foldl (place p now) s).placed) :
    x ∈ s.placed ∨ ∃ q ∈ queue, q.miner = x.miner ∧ q.script = some x.script ∧ q.earned = x.earned := by
  induction queue generalizing s with
  | nil => exact .inl member
  | cons q rest ih =>
    rcases ih member with before | ⟨other, present, facts⟩
    · rcases place_cases p now s q with ⟨-, -, same⟩ | ⟨-, -, same⟩ | ⟨-, -, reason, -, same⟩ |
        ⟨-, script, bytes, stalePlaced, found, same⟩
      · exact .inl (same ▸ before)
      · rw [same] at before
        exact .inl before
      · rw [same] at before
        exact .inl before
      · rw [same] at before
        rcases List.mem_append.mp before with earlier | added
        · exact .inl earlier
        · obtain rfl := List.mem_singleton.mp added
          exact .inr ⟨q, List.mem_cons_self, rfl, found, rfl⟩
    · exact .inr ⟨other, List.mem_cons_of_mem q present, facts⟩

private theorem mem_payees {placed : List Placed} {s : Paying} {payee : Payee}
    (member : payee ∈ (placed.foldl (pay p now) s).payees) :
    payee ∈ s.payees ∨ ∃ q ∈ placed, payee.identity = q.miner.identity ∧ payee.carry ≤ q.miner.carry ∧
      payee.sats = q.earned + payee.carry := by
  induction placed generalizing s with
  | nil => exact .inl member
  | cons q rest ih =>
    rcases ih member with before | ⟨other, present, facts⟩
    · rcases pay_cases p now s q with same | ⟨carry, within, -, same⟩
      · rw [same] at before
        exact .inl before
      · rw [same] at before
        rcases List.mem_append.mp before with earlier | added
        · exact .inl earlier
        · obtain rfl := List.mem_singleton.mp added
          exact .inr ⟨q, List.mem_cons_self, rfl, within, rfl⟩
    · exact .inr ⟨other, List.mem_cons_of_mem q present, facts⟩

end Passes

section Compute

variable {miners : List MinerStat} {totalWork value : Nat} {p : SplitParams} {rebateOwed now : Nat}
  {scriptFor : String → Option Script}

/-- A miner as it is queued. -/
def SplitParams.queued (p : SplitParams) (totalWork value : Nat) (scriptFor : String → Option Script)
    (m : MinerStat) : Queued := ⟨m, scriptOf scriptFor m, p.earned totalWork value m⟩

theorem queue_perm (p : SplitParams) (miners : List MinerStat) (totalWork value : Nat)
    (scriptFor : String → Option Script) :
    (p.queue miners totalWork value scriptFor).Perm (miners.map (p.queued totalWork value scriptFor)) :=
  List.perm_insertionSort _ _

private theorem sum_budget (p : SplitParams) (miners : List MinerStat) (totalWork value : Nat)
    (scriptFor : String → Option Script) :
    ((p.queue miners totalWork value scriptFor).map Queued.budget).sum =
      ((miners.filter fun m => (scriptOf scriptFor m).isSome).map (p.earned totalWork value)).sum := by
  rw [((queue_perm p miners totalWork value scriptFor).map Queued.budget).sum_eq, List.map_map]
  induction miners with
  | nil => rfl
  | cons m rest ih =>
    cases payable : (scriptOf scriptFor m).isSome with
    | true => simp [Queued.budget, SplitParams.queued, payable, ih]
    | false => simp [Queued.budget, SplitParams.queued, payable, ih]

private theorem sum_payable_le (keep : MinerStat → Bool) (amount : MinerStat → Nat) (miners : List MinerStat) :
    ((miners.filter keep).map amount).sum ≤ (miners.map amount).sum :=
  (List.filter_sublist.map amount).sum_le_sum fun _ _ => Nat.zero_le _

/-- After the first pass the room and the placed shares make up the block's value. -/
theorem first_room (now : Nat) (scriptFor : String → Option Script) (bounded : p.Bounded)
    (worked : (miners.map MinerStat.work).sum ≤ totalWork) (fits : value ≤ u64Max) :
    let first := (p.queue miners totalWork value scriptFor).foldl (place p now) { carryRoom := value -
      ((miners.filter fun m => (scriptOf scriptFor m).isSome).map (p.earned totalWork value)).foldl satAdd 0 }
    first.carryRoom + first.due = value := by
  intro first
  let payable := miners.filter fun m => (scriptOf scriptFor m).isSome
  have earnings := SplitParams.sum_earned_add_fromFee_le bounded worked value
  have some : (payable.map (p.earned totalWork value)).sum ≤ (miners.map (p.earned totalWork value)).sum :=
    sum_payable_le _ _ miners
  have budgeted : (payable.map (p.earned totalWork value)).foldl satAdd 0 =
      (payable.map (p.earned totalWork value)).sum := by
    rw [foldl_satAdd_eq (by omega), Nat.zero_add]
  apply place_room fits
  rw [sum_budget, budgeted]
  change value - (payable.map (p.earned totalWork value)).sum + 0 +
    (payable.map (p.earned totalWork value)).sum = value
  omega

/-- The outputs and the pool's remainder add up to the block's value, and the carry paid is the sum
of what the outputs include. -/
theorem compute_sums (rebateOwed now : Nat) (scriptFor : String → Option Script) (bounded : p.Bounded)
    (worked : (miners.map MinerStat.work).sum ≤ totalWork) (fits : value ≤ u64Max) :
    let s := compute miners totalWork value p rebateOwed now scriptFor
    s.paidSats + s.poolSats = value ∧ s.carryPaid = (s.payees.map Payee.carry).sum := by
  intro s
  let first := (p.queue miners totalWork value scriptFor).foldl (place p now) { carryRoom := value -
    ((miners.filter fun m => (scriptOf scriptFor m).isSome).map (p.earned totalWork value)).foldl satAdd 0 }
  let second := first.placed.foldl (pay p now) { carryRoom := first.carryRoom, unpaid := first.unpaid }
  have room : first.carryRoom + first.due = value := first_room now scriptFor bounded worked fits
  have total : second.carryRoom + second.paid = value := by
    apply pay_room fits
    simpa [Placing.due] using room
  have summed : second.Summed :=
    Run.foldl_kept (pay p now) Paying.Summed (fun _ q summed => summed.pay q) first.placed ⟨rfl, rfl⟩
  have paid : s.paidSats = second.paid := summed.paid.symm
  have pool : s.poolSats = value - second.paid := rfl
  exact ⟨by omega, summed.carryPaid⟩

/-- Every output is a listed miner's whole share and no more carry than its balance. -/
theorem compute_payee {payee : Payee}
    (member : payee ∈ (compute miners totalWork value p rebateOwed now scriptFor).payees) :
    ∃ m ∈ miners, m.identity = payee.identity ∧ payee.sats = p.earned totalWork value m + payee.carry ∧
      payee.carry ≤ m.carry := by
  rcases mem_payees member with impossible | ⟨x, placed, identity, carry, sats⟩
  · cases impossible
  · rcases mem_placed placed with impossible | ⟨q, queued, miner, -, earned⟩
    · cases impossible
    · obtain ⟨m, listed, rfl⟩ :=
        List.mem_map.mp ((queue_perm p miners totalWork value scriptFor).mem_iff.mp queued)
      exact ⟨m, listed, by rw [identity, ← miner]; rfl, by rw [sats, ← earned]; rfl, by
        rw [← miner] at carry; exact carry⟩

/-- Everybody owed something is on one line of the split, with what it earned. -/
theorem compute_claims (miners : List MinerStat) (totalWork value : Nat)
    (p : SplitParams) (rebateOwed now : Nat) (scriptFor : String → Option Script) :
    ((compute miners totalWork value p rebateOwed now scriptFor).payees.map Payee.claim ++
        (compute miners totalWork value p rebateOwed now scriptFor).unpaid.map Unpaid.claim).Perm
      ((miners.filter fun m => 0 < p.earned totalWork value m + m.carry).map fun m =>
        (m.identity, p.earned totalWork value m, (scriptOf scriptFor m).isSome)) := by
  refine (pay_claims _ _).trans ?_
  simp only [List.map_nil, List.nil_append]
  refine List.perm_append_comm.trans ((place_claims _ _).trans ?_)
  simp only [List.map_nil, List.nil_append]
  refine (((queue_perm p miners totalWork value scriptFor).filter _).map _).trans ?_
  rw [List.filter_map, List.map_map]
  have owed :
    ∀ m : MinerStat, ((fun q : Queued => decide (q.total ≠ 0)) ∘ p.queued totalWork value scriptFor) m =
      decide (0 < p.earned totalWork value m + m.carry) := by
    intro m
    have positive : satAdd (p.earned totalWork value m) m.carry ≠ 0 ↔
        0 < p.earned totalWork value m + m.carry := by
      rw [ne_eq, satAdd_eq_zero]
      omega
    exact decide_eq_decide.mpr positive
  rw [List.filter_congr fun m _ => owed m]
  exact List.Perm.refl _

/-- No identity is paid more carry than the miners listed under it have. -/
theorem compute_carry_le (miners : List MinerStat) (totalWork value : Nat)
    (p : SplitParams) (rebateOwed now : Nat) (scriptFor : String → Option Script) (identity : String) :
    tally identity ((compute miners totalWork value p rebateOwed now scriptFor).payees.map fun payee =>
        (payee.identity, payee.carry)) ≤
      tally identity (miners.map fun m => (m.identity, m.carry)) := by
  let queue := p.queue miners totalWork value scriptFor
  let balance : MinerStat → Nat := fun m => if m.identity = identity then m.carry else 0
  have paying := fun (s : Paying) (placed : List Placed) => Run.foldl_measure_le (pay p now)
    (fun s => tally identity (s.payees.map fun payee => (payee.identity, payee.carry)))
    (fun q : Placed => balance q.miner) (fun s q => by
      rcases pay_cases p now s q with same | ⟨carry, within, -, same⟩
      · simp [same]
      · simp only [same, List.map_append, List.map_cons, List.map_nil,
          tally_append, tally_cons, tally_nil, balance]
        split <;> omega) s placed
  have placing := fun (s : Placing) => Run.foldl_measure_le (place p now)
    (fun s => (s.placed.map fun q => balance q.miner).sum)
    (fun q : Queued => balance q.miner) (fun s q => by
      rcases place_cases p now s q with ⟨-, -, same⟩ | ⟨-, -, same⟩ | ⟨-, -, reason, -, same⟩ |
        ⟨-, script, bytes, stalePlaced, -, same⟩
      · simp [same]
      · simp [same]
      · simp [same]
      · simp [same]) s queue
  have queued : (queue.map fun q => balance q.miner).sum =
      tally identity (miners.map fun m => (m.identity, m.carry)) := by
    rw [((queue_perm p miners totalWork value scriptFor).map _).sum_eq, List.map_map, tally, List.map_map]
    rfl
  rw [← queued]
  refine Nat.le_trans (paying _ _) ?_
  have placed := placing { carryRoom := value -
    ((miners.filter fun m => (scriptOf scriptFor m).isSome).map (p.earned totalWork value)).foldl satAdd 0 }
  simpa using placed

/-- The shares on the lines of a split are among the shares earned. -/
theorem compute_earned_le (miners : List MinerStat) (totalWork value : Nat)
    (p : SplitParams) (rebateOwed now : Nat) (scriptFor : String → Option Script) :
    let s := compute miners totalWork value p rebateOwed now scriptFor
    s.paidSats + (s.unpaid.map Unpaid.earned).sum ≤
      (miners.map (p.earned totalWork value)).sum + (s.payees.map Payee.carry).sum := by
  intro s
  have lines :=
    ((compute_claims miners totalWork value p rebateOwed now scriptFor).map fun claim => claim.2.1).sum_eq
  simp only [List.map_append, List.map_map, List.sum_append] at lines
  have most :=
    sum_payable_le (fun m => 0 < p.earned totalWork value m + m.carry) (p.earned totalWork value) miners
  have paid : s.paidSats = (s.payees.map fun payee => payee.sats - payee.carry).sum +
      (s.payees.map Payee.carry).sum := by
    rw [← List.sum_map_add]
    apply congrArg List.sum
    apply List.map_congr_left
    intro payee member
    obtain ⟨_, -, -, sats, -⟩ := compute_payee member
    omega
  rw [paid]
  change (s.payees.map fun payee => payee.sats - payee.carry).sum +
    (s.unpaid.map Unpaid.earned).sum = _ at lines
  change _ = ((miners.filter _).map (p.earned totalWork value)).sum at lines
  omega

end Compute

end Lazarus.Tides
