import Lazarus.Tides.Placement
import Lazarus.Tides.Solvency

/-! The rebate of a split: who is credited, how much of the pot is given out, and that work tagged as grace
at the stratum rates is worth what it was. -/

namespace Lazarus.Tides

open Machine Shares Tally

section Credits

variable {miners : List MinerStat} {pot : Nat} {scriptFor : String → Option Script}

/-- The miners a rebate is shared over. -/
def eligible (miners : List MinerStat) (scriptFor : String → Option Script) : List MinerStat :=
  miners.filter fun m => 0 < m.datumWork && (scriptFor m.identity).isSome

theorem credited_eligible {credit : String × Nat} (member : credit ∈ (rebateCredits miners pot scriptFor).1) :
    ∃ m ∈ miners, m.identity = credit.1 ∧ 0 < m.datumWork ∧ (scriptFor credit.1).isSome := by
  unfold rebateCredits at member
  split at member
  · cases member
  · simp only at member
    split at member
    · cases member
    · obtain ⟨m, listed, rfl⟩ := List.mem_map.mp (List.mem_filter.mp member).1
      obtain ⟨present, payable⟩ := List.mem_filter.mp listed
      obtain ⟨worked, script⟩ := Bool.and_eq_true_iff.mp payable
      exact ⟨m, present, rfl, of_decide_eq_true worked, script⟩

private theorem datumWork_eligible {m : MinerStat} (member : m ∈ eligible miners scriptFor) :
    0 < m.datumWork := by
  obtain ⟨worked, _⟩ := Bool.and_eq_true_iff.mp (List.mem_filter.mp member).2
  exact of_decide_eq_true worked

/-- A rebate credit is of some sats, and fits its type. -/
theorem mem_rebateCredits {credit : String × Nat} (member : credit ∈ (rebateCredits miners pot scriptFor).1) :
    0 < credit.2 ∧ credit.2 ≤ u64Max := by
  unfold rebateCredits at member
  split at member
  · cases member
  · simp only at member
    split at member
    · cases member
    · obtain ⟨listed, positive⟩ := List.mem_filter.mp member
      obtain ⟨m, _, rfl⟩ := List.mem_map.mp listed
      refine ⟨by simpa using positive, Nat.le_sub_one_of_lt ?_⟩
      exact Nat.mod_lt _ (by decide)

private theorem sum_rebateCredits (fits : pot ≤ u64Max) (miners : List MinerStat)
    (scriptFor : String → Option Script) : ((rebateCredits miners pot scriptFor).1.map Prod.snd).sum =
      (((eligible miners scriptFor).map MinerStat.datumWork).map fun work =>
        share pot work ((eligible miners scriptFor).map MinerStat.datumWork).sum).sum := by
  unfold rebateCredits
  split
  · rename_i nothing
    simp [share, nothing, Function.comp_def]
  · simp only
    split
    · rename_i none
      have all : ((eligible miners scriptFor).map MinerStat.datumWork).sum = 0 := none
      simp [share, all, Function.comp_def]
    · have whole : ∀ m ∈ eligible miners scriptFor,
          asU64 (pot * m.datumWork / ((eligible miners scriptFor).map MinerStat.datumWork).sum) =
            share pot m.datumWork ((eligible miners scriptFor).map MinerStat.datumWork).sum := by
        intro m member
        have part : m.datumWork ≤ ((eligible miners scriptFor).map MinerStat.datumWork).sum :=
          List.le_sum_of_mem (List.mem_map_of_mem member)
        exact asU64_eq ((share_le pot part).trans fits)
      rw [sum_filter]
      · rw [List.map_map, List.map_map]
        change ((eligible miners scriptFor).map fun m =>
          asU64 (pot * m.datumWork / ((eligible miners scriptFor).map MinerStat.datumWork).sum)).sum = _
        rw [List.map_congr_left whole]
        rfl
      · intro entry _ dropped
        simpa using dropped

private theorem sum_datumWork_pos (some : eligible miners scriptFor ≠ []) :
    0 < ((eligible miners scriptFor).map MinerStat.datumWork).sum := by
  obtain ⟨m, rest, shape⟩ := List.exists_cons_of_ne_nil some
  have worked := datumWork_eligible (m := m) (by rw [shape]; simp)
  rw [shape, List.map_cons, List.sum_cons]
  omega

private theorem lt_sum_rebateCredits (fits : pot ≤ u64Max) (some : eligible miners scriptFor ≠ []) :
    pot < ((rebateCredits miners pot scriptFor).1.map Prod.snd).sum + (eligible miners scriptFor).length := by
  have shared := lt_sum_share pot (sum_datumWork_pos some)
  rwa [List.length_map, ← sum_rebateCredits fits] at shared

private theorem rebateCredits_none (none : eligible miners scriptFor = []) :
    (rebateCredits miners pot scriptFor).1 = [] := by
  unfold rebateCredits
  split
  · rfl
  · simp only
    rw [if_pos]
    change ((eligible miners scriptFor).map MinerStat.datumWork).sum = 0
    rw [none]
    rfl

/-- A pot that goes out whole: every miner's share is in full sats, or nobody's comes to one. -/
def SharesEven (miners : List MinerStat) (pot : Nat) (scriptFor : String → Option Script) : Prop :=
  let total := ((eligible miners scriptFor).map MinerStat.datumWork).sum
  (∀ m ∈ eligible miners scriptFor, pot * m.datumWork < total) ∨
    ∀ m ∈ eligible miners scriptFor, total ∣ pot * m.datumWork

instance (miners : List MinerStat) (pot : Nat) (scriptFor : String → Option Script) :
    Decidable (SharesEven miners pot scriptFor) := inferInstanceAs (Decidable (_ ∨ _))

theorem sum_rebateCredits_of_even (fits : pot ≤ u64Max) (even : SharesEven miners pot scriptFor) :
    (rebateCredits miners pot scriptFor).1 = [] ∨
      ((rebateCredits miners pot scriptFor).1.map Prod.snd).sum = pot := by
  have sum := sum_rebateCredits fits miners scriptFor
  rcases even with small | whole
  · left
    have none : ((rebateCredits miners pot scriptFor).1.map Prod.snd).sum = 0 := by
      rw [sum, List.map_map, List.sum_eq_zero]
      intro sats member
      obtain ⟨m, listed, rfl⟩ := List.mem_map.mp member
      exact Nat.div_eq_of_lt (small m listed)
    rw [List.eq_nil_iff_forall_not_mem]
    intro credit member
    have most : credit.2 ≤ _ := List.le_sum_of_mem (List.mem_map_of_mem member)
    have some := (mem_rebateCredits member).1
    omega
  · by_cases nobody : eligible miners scriptFor = []
    · exact .inl (rebateCredits_none nobody)
    · right
      rw [sum]
      refine sum_share_of_dvd (sum_datumWork_pos nobody) ?_
      intro work member
      obtain ⟨m, listed, rfl⟩ := List.mem_map.mp member
      exact whole m listed

end Credits

section Fees

variable {p : SplitParams} {miners : List MinerStat} {totalWork value : Nat}

/-- The house-stratum work charged the full fee, all miners. -/
def fullWork (miners : List MinerStat) : Nat := (miners.map fun m => m.classes.1).sum

/-- The house-stratum work in its grace, all miners. -/
def inGraceWork (miners : List MinerStat) : Nat := (miners.map fun m => m.classes.2.1).sum

private theorem classes_sum_le (miners : List MinerStat) :
    fullWork miners + inGraceWork miners ≤ (miners.map MinerStat.work).sum := by
  induction miners with
  | nil => exact Nat.le_refl _
  | cons m rest ih =>
    have one := SplitParams.classes_sum m
    simp only [fullWork, inGraceWork, List.map_cons, List.sum_cons] at ih ⊢
    omega

private theorem stratumRebate_eq (fits : value ≤ u64Max) {work bps : Nat}
    (within : work ≤ totalWork) (bound : bps ≤ 10000) :
    stratumRebate value totalWork work bps = share value (work * bps) (totalWork * 10000) := by
  unfold stratumRebate
  split
  · rename_i nothing
    rcases nothing with none | none
    · simp [none, share]
    · simp [none, share]
  · have small : share value (work * bps) (totalWork * 10000) ≤ u64Max :=
      (share_le value (Nat.mul_le_mul within bound)).trans fits
    rw [Nat.div_div_eq_div_mul, Nat.mul_assoc value]
    exact asU64_eq small

private theorem fromFee_eq (bounded : p.Bounded) (worked : (miners.map MinerStat.work).sum = totalWork)
    (works : totalWork ≤ u64Max) (fits : value ≤ u64Max) : p.fromFee miners totalWork value =
      share value (fullWork miners * p.rebateBps) (totalWork * 10000) +
        share value (inGraceWork miners * p.graceRebate) (totalWork * 10000) := by
  have parts := classes_sum_le miners
  have rebate : p.rebateBps ≤ 10000 := (Nat.min_le_right _ _).trans bounded.stratumBps
  have grace : p.graceRebate ≤ 10000 := (Nat.min_le_right _ _).trans (Nat.min_le_right _ _)
  have exactly : ∀ {amounts : List Nat}, amounts.sum ≤ totalWork → amounts.foldl satAdd 0 = amounts.sum := by
    intro amounts within
    have whole := foldl_satAdd_eq (by omega : 0 + amounts.sum ≤ u64Max)
    rwa [Nat.zero_add] at whole
  have fullFits : fullWork miners ≤ totalWork := by omega
  have graceFits : inGraceWork miners ≤ totalWork := by omega
  have full : (miners.map fun m => m.classes.1).foldl satAdd 0 = fullWork miners := exactly fullFits
  have inGrace : (miners.map fun m => m.classes.2.1).foldl satAdd 0 = inGraceWork miners := exactly graceFits
  unfold SplitParams.fromFee
  simp only [full, inGrace]
  rw [stratumRebate_eq fits fullFits rebate, stratumRebate_eq fits graceFits grace]
  apply satAdd_eq
  refine Nat.le_trans ?_ fits
  refine (share_add_le _ _ _ _).trans (share_le value ?_)
  have one := Nat.mul_le_mul_left (fullWork miners) rebate
  have two := Nat.mul_le_mul_left (inGraceWork miners) grace
  omega

private theorem fromFee_le_charged (bounded : p.Bounded) (worked : (miners.map MinerStat.work).sum = totalWork)
    (works : totalWork ≤ u64Max) (fits : value ≤ u64Max) : p.fromFee miners totalWork value ≤
      share value (fullWork miners * p.stratumBps + inGraceWork miners * p.graceBps) (totalWork * 10000) := by
  rw [fromFee_eq bounded worked works fits]
  refine (share_add_le _ _ _ _).trans (share_mono ?_ _ _)
  exact Nat.add_le_add (Nat.mul_le_mul_left _ (Nat.min_le_right _ _))
    (Nat.mul_le_mul_left _ (Nat.min_le_right _ _))

end Fees

section Retagging

/-- A miner as it stands with none of its stratum work in grace. -/
def MinerStat.ungraced (m : MinerStat) : MinerStat := { m with graceWork := 0 }

def Queued.ungraced (q : Queued) : Queued := { q with miner := q.miner.ungraced }

def Placed.ungraced (q : Placed) : Placed := { q with miner := q.miner.ungraced }

def Placing.ungraced (s : Placing) : Placing := { s with placed := s.placed.map Placed.ungraced }

variable {p : SplitParams} {miners : List MinerStat} {totalWork value now : Nat}
  {scriptFor : String → Option Script}

private theorem keep_ungraced (sameFee : p.graceBps = p.stratumBps) (m : MinerStat) :
    p.keep m.ungraced = p.keep m := by
  have together : m.classes.1 + m.classes.2.1 = m.ungraced.classes.1 + m.ungraced.classes.2.1 := by
    simp only [MinerStat.classes, MinerStat.ungraced]
    omega
  have kept : ∀ m : MinerStat, p.keep m =
      (m.classes.1 + m.classes.2.1) * (10000 - p.stratumBps) + m.classes.2.2 * (10000 - p.feeBps) := by
    intro m
    rw [Nat.add_mul]
    simp only [SplitParams.keep, sameFee]
  rw [kept, kept, together]
  rfl

private theorem earned_ungraced (sameFee : p.graceBps = p.stratumBps) (m : MinerStat) :
    p.earned totalWork value m.ungraced = p.earned totalWork value m := by
  unfold SplitParams.earned
  rw [keep_ungraced sameFee]
  rfl

private theorem queue_ungraced (sameFee : p.graceBps = p.stratumBps) :
    p.queue (miners.map MinerStat.ungraced) totalWork value scriptFor =
      (p.queue miners totalWork value scriptFor).map Queued.ungraced := by
  unfold SplitParams.queue
  rw [List.map_insertionSort Queued.before Queued.before]
  · rw [List.map_map, List.map_map]
    congr 1
    apply List.map_congr_left
    intro m _
    simp only [Function.comp_apply, earned_ungraced sameFee]
    rfl
  · exact fun _ _ _ _ => Iff.rfl

private theorem place_ungraced (s : Placing) (q : Queued) :
    place p now s.ungraced q.ungraced = (place p now s q).ungraced := by
  by_cases nothing : q.total = 0
  · have same : q.ungraced.total = 0 := nothing
    rw [place_nothing nothing, place_nothing same]
  · have owed : q.ungraced.total ≠ 0 := nothing
    cases found : q.script with
    | none =>
      have missing : q.ungraced.script = none := found
      rw [place_refused nothing found, place_refused owed missing]
      rfl
    | some script =>
      have known : q.ungraced.script = some script := found
      have same : leftOut p now s.ungraced q.ungraced script = leftOut p now s q script := by
        have count : s.ungraced.placed.length = s.placed.length := List.length_map _
        unfold leftOut
        rw [count]
        rfl
      rw [place_payable nothing found, place_payable owed known, same]
      cases leftOut p now s q script with
      | some reason => rfl
      | none =>
        have stale : p.isStale q.ungraced.miner now = p.isStale q.miner now := rfl
        simp only [Placing.take, Placing.ungraced, stale, List.map_append]
        rfl

private theorem firstPass_ungraced (sameFee : p.graceBps = p.stratumBps) :
    p.firstPass (miners.map MinerStat.ungraced) totalWork value now scriptFor =
      (p.firstPass miners totalWork value now scriptFor).ungraced := by
  have opening : p.opening (miners.map MinerStat.ungraced) totalWork value scriptFor =
      (p.opening miners totalWork value scriptFor).ungraced := by
    have shares : ((miners.map MinerStat.ungraced).filter fun m => (scriptOf scriptFor m).isSome).map
        (p.earned totalWork value) =
          (miners.filter fun m => (scriptOf scriptFor m).isSome).map (p.earned totalWork value) := by
      rw [List.filter_map, List.map_map]
      apply List.map_congr_left
      intro m _
      exact earned_ungraced sameFee m
    unfold SplitParams.opening
    rw [shares]
    rfl
  unfold SplitParams.firstPass
  rw [queue_ungraced sameFee, opening]
  generalize p.queue miners totalWork value scriptFor = queue
  generalize p.opening miners totalWork value scriptFor = s
  induction queue generalizing s with
  | nil => rfl
  | cons q rest ih => rw [List.map_cons, List.foldl_cons, List.foldl_cons, place_ungraced, ih]

private theorem paying_ungraced (first : Placing) : p.paying now first.ungraced = p.paying now first := by
  have each : ∀ (placed : List Placed) (s : Paying),
      (placed.map Placed.ungraced).foldl (pay p now) s = placed.foldl (pay p now) s := by
    intro placed
    induction placed with
    | nil => exact fun _ => rfl
    | cons q rest ih => exact fun s => ih (pay p now s q)
  exact each first.placed _

private theorem paying_retagged {miners' : List MinerStat} (sameFee : p.graceBps = p.stratumBps)
    (retagged : miners'.map MinerStat.ungraced = miners.map MinerStat.ungraced) :
    p.paying now (p.firstPass miners' totalWork value now scriptFor) =
      p.paying now (p.firstPass miners totalWork value now scriptFor) := by
  rw [← paying_ungraced, ← firstPass_ungraced sameFee, retagged, firstPass_ungraced sameFee, paying_ungraced]

private theorem stratumWork_ungraced (miners : List MinerStat) :
    fullWork (miners.map MinerStat.ungraced) = fullWork miners + inGraceWork miners := by
  induction miners with
  | nil => rfl
  | cons m rest ih =>
    simp only [fullWork, inGraceWork, List.map_cons, List.sum_cons, MinerStat.classes,
      MinerStat.ungraced] at ih ⊢
    omega

private theorem fromFee_retagged {miners' : List MinerStat} (bounded : p.Bounded)
    (worked : (miners.map MinerStat.work).sum = totalWork) (works : totalWork ≤ u64Max) (fits : value ≤ u64Max)
    (sameRebate : p.graceRebate = p.rebateBps)
    (retagged : miners'.map MinerStat.ungraced = miners.map MinerStat.ungraced) :
    p.fromFee miners' totalWork value ≤ p.fromFee miners totalWork value + 1 := by
  have sameWork : (miners'.map MinerStat.work).sum = totalWork := by
    rw [← worked]
    have works := congrArg (List.map MinerStat.work) retagged
    rw [List.map_map, List.map_map] at works
    exact congrArg List.sum works
  have together := congrArg fullWork retagged
  rw [stratumWork_ungraced, stratumWork_ungraced] at together
  rw [fromFee_eq bounded worked works fits, fromFee_eq bounded sameWork works fits, sameRebate]
  have most :=
    share_add_le value (fullWork miners' * p.rebateBps) (inGraceWork miners' * p.rebateBps) (totalWork * 10000)
  have least := share_add_lt value (fullWork miners * p.rebateBps) (inGraceWork miners * p.rebateBps)
    (totalWork * 10000)
  rw [← Nat.add_mul] at most least
  rw [together] at most
  omega

end Retagging

/-- The rebate of a split: credits go to work that is not house stratum's, under an identity that can be paid;
they come to the pot less less than a sat for each miner shared over, or there are none; the pot's own part is
no more than the fee charged; and a tag that changes no rate changes no output. -/
theorem rebate_arithmetic (miners : List MinerStat) (totalWork value : Nat)
    (p : SplitParams) (rebateOwed now : Nat) (scriptFor : String → Option Script) (bounded : p.Bounded)
    (worked : (miners.map MinerStat.work).sum = totalWork) (works : totalWork ≤ u64Max) (fits : value ≤ u64Max)
    (owed : p.fromFee miners totalWork value + rebateOwed ≤ u64Max) :
    let s := compute miners totalWork value p rebateOwed now scriptFor
    let fromFee := p.fromFee miners totalWork value
    let sharers := eligible miners (rebateScript miners scriptFor)
    (∀ credit ∈ s.rebateCredits,
      ∃ m ∈ miners, m.identity = credit.1 ∧ 0 < m.datumWork ∧ (scriptFor credit.1).isSome) ∧
    (s.rebateCredits.map Prod.snd).sum ≤ fromFee + rebateOwed ∧
    (if p.rebates miners ∧ sharers ≠ [] then
      fromFee + rebateOwed < (s.rebateCredits.map Prod.snd).sum + sharers.length else s.rebateCredits = []) ∧
    fromFee ≤ value * (fullWork miners * p.stratumBps + inGraceWork miners * p.graceBps) / (totalWork * 10000) ∧
    (s.rebateCredits ≠ [] ∧ s.rebateOwedCredited = rebateOwed ∧ s.rebateDeferred = 0 ∨
      s.rebateCredits = [] ∧ s.rebateOwedCredited = 0 ∧ s.rebateDeferred = fromFee) ∧
    ∀ miners', miners'.map MinerStat.ungraced = miners.map MinerStat.ungraced → p.graceBps = p.stratumBps →
      p.graceRebate = p.rebateBps →
      let s' := compute miners' totalWork value p rebateOwed now scriptFor
      s'.payees = s.payees ∧ s'.unpaid = s.unpaid ∧ s'.poolSats = s.poolSats ∧
        p.fromFee miners' totalWork value ≤ fromFee + 1 ∧ fromFee ≤ p.fromFee miners' totalWork value + 1 := by
  intro s fromFee sharers
  have pot : satAdd fromFee rebateOwed = fromFee + rebateOwed := satAdd_eq owed
  have credits : s.rebateCredits = if p.rebates miners then
      (rebateCredits miners (fromFee + rebateOwed) (rebateScript miners scriptFor)).1 else [] := by
    rw [← pot]
    rfl
  have found : ∀ identity, (rebateScript miners scriptFor identity).isSome → (scriptFor identity).isSome := by
    intro identity known
    unfold rebateScript at known
    cases listed : miners.reverse.find? fun m => m.identity == identity with
    | none => simp [listed] at known
    | some m =>
      have named : m.identity = identity := by simpa using List.find?_some listed
      rw [listed, Option.bind_some, scriptOf, named] at known
      split at known
      · exact known
      · cases known
  refine ⟨?_, ?_, ?_, fromFee_le_charged bounded worked works fits, ?_, ?_⟩
  · intro credit member
    rw [credits] at member
    split at member
    · obtain ⟨m, listed, named, datum, script⟩ := credited_eligible member
      exact ⟨m, listed, named, datum, found credit.1 script⟩
    · cases member
  · rw [credits]
    split
    · exact sum_rebateCredits_le miners _ _
    · exact Nat.zero_le _
  · rw [credits]
    split
    · rename_i both
      rw [if_pos both.1]
      exact lt_sum_rebateCredits owed both.2
    · rename_i neither
      split
      · rename_i rebated
        exact rebateCredits_none (by_contra fun some => neither ⟨rebated, some⟩)
      · rfl
  · by_cases none : s.rebateCredits = []
    · exact .inr ⟨none, if_pos none, if_pos none⟩
    · exact .inl ⟨none, if_neg none, if_neg none⟩
  · intro miners' retagged sameFee sameRebate s'
    have paying : _ = p.paying now (p.firstPass miners totalWork value now scriptFor) :=
      paying_retagged sameFee retagged
    have sameWork : (miners'.map MinerStat.work).sum = totalWork := by
      have works := congrArg (List.map MinerStat.work) retagged
      rw [List.map_map, List.map_map] at works
      exact (congrArg List.sum works).trans worked
    refine ⟨congrArg Paying.payees paying, congrArg Paying.unpaid paying,
      congrArg (fun s : Paying => value - s.paid) paying,
      fromFee_retagged bounded worked works fits sameRebate retagged,
      fromFee_retagged bounded sameWork works fits sameRebate retagged.symm⟩

/-- A window of DATUM and house-stratum work, the owed rebate handed out with the block's own. -/
theorem rebate_arithmetic_mixed :
    let miners : List MinerStat := [{ identity := "mixed", work := 700, stratumWork := 600, graceWork := 300 },
      { identity := "datum", work := 300 }]
    let p : SplitParams :=
      { stratumFeeBps := 2500, datumRebateBps := 1250, graceFeeBps := 2500, graceRebateBps := 1250 }
    let s := compute miners 1000 1000000 p 7777 0 fun _ => some []
    s.rebateCredits = [("mixed", 20694), ("datum", 62082)] ∧
      p.fromFee miners 1000 1000000 + 7777 <
        (s.rebateCredits.map Prod.snd).sum +
          (eligible miners (rebateScript miners fun _ => some [])).length := by
  intro miners p s
  have shared :=
    (rebate_arithmetic miners 1000 1000000 p 7777 0 (fun _ => some []) (by decide) (by decide) (by decide)
    (by decide) (by decide)).2.2.1
  refine ⟨by decide, ?_⟩
  rw [if_pos (by decide)] at shared
  exact shared

/-- With nobody to credit, the whole pot stays behind. -/
theorem rebate_without_datum :
    let miners : List MinerStat := [{ identity := "house", work := 1000, stratumWork := 1000 }]
    let p : SplitParams := { stratumFeeBps := 2500, datumRebateBps := 1250 }
    let s := compute miners 1000 1000000 p 0 0 fun _ => some []
    (miners.map MinerStat.work).sum = 1000 ∧ p.fromFee miners 1000 1000000 = 125000 ∧
      ¬ p.fromFee miners 1000 1000000 + 0 <
        (s.rebateCredits.map Prod.snd).sum +
          (eligible miners (rebateScript miners fun _ => some [])).length := by
  decide

end Lazarus.Tides
