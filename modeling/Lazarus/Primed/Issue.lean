import Lazarus.Tides.Placement
import Lazarus.Wire.Coinbaser

/-! The list a coinbaser reply carries: the outputs of a split, within its limits, and the pool's own last. -/

namespace Lazarus.Primed

open Machine Tides Wire

/-- The list a coinbaser reply carries for a split. It is complete: the pool's fee and whatever the split could
not place go last, to the pool's own script. -/
def coinbaserOutputs (split : Split) (poolScript : Script) : List Output :=
  let outputs := split.payees.map fun payee => ({ sats := payee.sats, script := payee.script } : Output)
  if 0 < split.poolSats ∨ outputs = [] then outputs ++ [{ sats := max split.poolSats 1, script := poolScript }]
  else outputs

section Listing

variable {miners : List MinerStat} {totalWork value : Nat} {p : SplitParams} {rebateOwed now : Nat}
  {scriptFor : String → Option Script} {poolScript : Script}

private theorem sum_coinbaserOutputs (bounded : p.Bounded)
    (worked : (miners.map MinerStat.work).sum ≤ totalWork) (fits : value ≤ u64Max) (some : 0 < value) :
    ((coinbaserOutputs (compute miners totalWork value p rebateOwed now scriptFor) poolScript).map
      Output.sats).sum =
      value := by
  have whole := (compute_sums rebateOwed now scriptFor bounded worked fits).1
  generalize compute miners totalWork value p rebateOwed now scriptFor = s at whole
  have sats : ((s.payees.map fun payee => ({ sats := payee.sats, script := payee.script } : Output)).map
      Output.sats).sum = s.paidSats := by
    rw [List.map_map]
    rfl
  unfold coinbaserOutputs
  simp only
  split
  · rename_i pool
    rw [List.map_append, List.sum_append, sats]
    have positive : 0 < s.poolSats := by
      rcases pool with some | none
      · exact some
      · have nothing : s.paidSats = 0 := by
          rw [← sats, none]
          rfl
        omega
    simp only [List.map_cons, List.map_nil, List.sum_singleton]
    omega
  · rename_i neither
    rw [not_or] at neither
    rw [sats]
    omega

private theorem coinbaserOutputs_fit {s : Split} (values : ∀ payee ∈ s.payees, payee.sats ≤ u64Max)
    (pool : s.poolSats ≤ u64Max)
    (scripts : ∀ payee ∈ s.payees, minScript ≤ payee.script.length ∧ payee.script.length ≤ maxScript)
    (least : minScript ≤ poolScript.length) (most : poolScript.length ≤ maxScript) :
    ∀ o ∈ coinbaserOutputs s poolScript, o.Fits := by
  have payees :
      ∀ o ∈ s.payees.map fun payee => ({ sats := payee.sats, script := payee.script } : Output), o.Fits := by
    intro o member
    obtain ⟨payee, listed, rfl⟩ := List.mem_map.mp member
    exact ⟨values payee listed, (scripts payee listed).1, (scripts payee listed).2⟩
  intro o member
  unfold coinbaserOutputs at member
  simp only at member
  split at member
  · rcases List.mem_append.mp member with listed | last
    · exact payees o listed
    · obtain rfl := List.mem_singleton.mp last
      exact ⟨max_le pool (by decide), least, most⟩
  · exact payees o member

private theorem length_coinbaserOutputs (s : Split) :
    (coinbaserOutputs s poolScript).length ≤ s.payees.length + 1 := by
  unfold coinbaserOutputs
  simp only
  split
  · simp
  · simp

private theorem size_coinbaserOutputs (s : Split) :
    ((coinbaserOutputs s poolScript).map Output.serializedLen).sum ≤
    (s.payees.map fun payee => 9 + payee.script.length).sum + (9 + poolScript.length) := by
  have each : (s.payees.map fun payee => ({ sats := payee.sats, script := payee.script } : Output)).map
      Output.serializedLen = s.payees.map fun payee => 9 + payee.script.length := by
    rw [List.map_map]
    rfl
  unfold coinbaserOutputs
  simp only
  split
  · rw [List.map_append, List.sum_append, each]
    exact Nat.le_refl _
  · rw [each]
    exact Nat.le_add_right _ _

end Listing

/-- The limits of an issued list. A split's outputs keep to the count and the bytes, each is at least its
floor, and they stand in the order of what their miners were owed; a miner the first pass left out for want of
room did not fit. With the pool's own limits the list sums to the value, ends with the pool's output, and comes
through its encoding. -/
theorem issued_list_limits (miners : List MinerStat) (totalWork value : Nat)
    (p : SplitParams) (rebateOwed now : Nat) (scriptFor : String → Option Script) :
    let s := compute miners totalWork value p rebateOwed now scriptFor
    let first := p.firstPass miners totalWork value now scriptFor
    s.payees.length ≤ p.maxOutputs ∧
    (s.payees.map fun payee => 9 + payee.script.length).sum ≤ p.outputBudgetBytes ∧
    (∃ paid : List Tides.Placed, List.Forall₂ (PaidAs p now) paid s.payees ∧
      (paid.map Tides.Placed.miner).Subperm miners ∧
      (∀ x ∈ paid, scriptOf scriptFor x.miner = some x.script ∧ x.earned = p.earned totalWork value x.miner) ∧
      paid.Pairwise fun a b => satAdd b.earned b.miner.carry ≤ satAdd a.earned a.miner.carry) ∧
    (∀ u ∈ first.unpaid, u.reason = .overBudget →
      ∃ q ∈ p.queue miners totalWork value scriptFor, q.miner.identity = u.identity ∧ q.total = u.sats ∧
        q.earned = u.earned ∧ ∃ script, q.script = some script ∧
          ∃ ahead, ahead <+: first.placed ∧ NoRoom p now ahead q script) ∧
    ∀ poolScript id, p.maxOutputs ≤ 511 → p.Bounded → (miners.map MinerStat.work).sum ≤ totalWork → 0 < value →
      value ≤ u64Max →
      (∀ identity script, scriptFor identity = some script → 2 ≤ script.length ∧ script.length ≤ 64) →
      2 ≤ poolScript.length → poolScript.length ≤ 64 →
      let list := coinbaserOutputs s poolScript
      (list.map Output.sats).sum = value ∧
        (list.map Output.serializedLen).sum ≤ p.outputBudgetBytes + 9 + 64 ∧
        (0 < s.poolSats → list.getLast? = some { script := poolScript, sats := s.poolSats }) ∧
        decodeV2 (encodeV2 id list) = .ok (id, list) := by
  intro s first
  have count : s.payees.length ≤ p.maxOutputs :=
    (payees_limits miners totalWork value p rebateOwed now scriptFor).1
  have bytes : (s.payees.map fun payee => 9 + payee.script.length).sum ≤ p.outputBudgetBytes :=
    (payees_limits miners totalWork value p rebateOwed now scriptFor).2
  obtain ⟨paid, among, each⟩ := compute_paid miners totalWork value p rebateOwed now scriptFor
  refine ⟨count, bytes, ?_, ?_, ?_⟩
  · refine ⟨paid, each, ?_, ?_, firstPass_sorted.sublist among⟩
    · exact (among.map Tides.Placed.miner).subperm.trans firstPass_subperm
    · intro x member
      exact (mem_firstPass (among.subset member)).2
  · intro u member short
    rcases overBudget_noRoom queue_sorted opening_within nofun short member with impossible | facts
    · cases impossible
    · exact facts
  · intro poolScript id most bounded worked some fits scripts poolLeast poolMost list
    have whole : s.paidSats + s.poolSats = value :=
      (compute_sums rebateOwed now scriptFor bounded worked fits).1
    have scripted : ∀ payee ∈ s.payees, minScript ≤ payee.script.length ∧ payee.script.length ≤ maxScript := by
      intro payee member
      obtain ⟨x, listed, as⟩ := PaidAs.of_mem each member
      have found := (mem_firstPass (among.subset listed)).2.1
      rw [as.script]
      unfold scriptOf at found
      split at found
      · exact scripts _ _ found
      · cases found
    have values : ∀ payee ∈ s.payees, payee.sats ≤ u64Max := by
      intro payee member
      have part : payee.sats ≤ s.paidSats := List.le_sum_of_mem (List.mem_map_of_mem member)
      omega
    have limits := coinbaserOutputs_fit values (by omega) scripted poolLeast poolMost
    have few : list.length ≤ s.payees.length + 1 := length_coinbaserOutputs s
    have size : (list.map Output.serializedLen).sum ≤
        (s.payees.map fun payee => 9 + payee.script.length).sum + (9 + poolScript.length) :=
          size_coinbaserOutputs s
    refine ⟨sum_coinbaserOutputs bounded worked fits some, by omega, ?_, ?_⟩
    · intro pool
      have last :
        list = s.payees.map (fun payee => ({ sats := payee.sats, script := payee.script } : Output)) ++
          [{ sats := max s.poolSats 1, script := poolScript }] := if_pos (.inl pool)
      rw [last, List.getLast?_append, Nat.max_eq_left pool]
      rfl
    · apply decodeV2_encodeV2 id limits
      have short : s.payees.length ≤ 511 := count.trans most
      exact few.trans (Nat.succ_le_succ short)

/-- Two miners and the pool, with the pool's own limits. -/
theorem issued_list_limits_two :
    let miners : List MinerStat := [{ identity := "large", work := 900 }, { identity := "small", work := 100 }]
    let p : SplitParams := { feeBps := 50, maxOutputs := 511, outputBudgetBytes := 13927 }
    let s := compute miners 1000 1000000 p 0 0 fun _ => some (List.replicate 22 0)
    (coinbaserOutputs s (List.replicate 34 1)).map Output.sats = [895500, 99500, 5000] ∧
      decodeV2 (encodeV2 7 (coinbaserOutputs s (List.replicate 34 1))) =
        .ok (7, coinbaserOutputs s (List.replicate 34 1)) := by
  intro miners p s
  have scripts : ∀ (identity : String) (script : Script), some (List.replicate 22 (0 : UInt8)) = some script →
      2 ≤ script.length ∧ script.length ≤ 64 := by
    intro identity script same
    obtain rfl := Option.some.inj same
    decide
  refine ⟨by decide, ?_⟩
  exact ((issued_list_limits miners 1000 1000000 p 0 0 fun _ => some (List.replicate 22 0)).2.2.2.2
    (List.replicate 34 1) 7 (by decide) (by decide) (by decide) (by decide) (by decide) scripts (by decide)
    (by decide)).2.2.2

/-- Where a share and a balance together run past the largest amount, two miners tie in the queue and are paid
in the order they were listed in, the larger claim last. -/
theorem issued_order_saturates :
    let miners : List MinerStat := [{ identity := "less", work := 1, carry := 2 ^ 64 - 2 },
      { identity := "more", work := 1, carry := 2 ^ 64 - 1 }]
    let s := compute miners 2 10 { minPayout := 1 } 0 0 fun _ => some []
    s.payees.map Payee.identity = ["less", "more"] ∧
      ({ minPayout := 1 } : SplitParams).earned 2 10 { identity := "less", work := 1, carry := 2 ^ 64 - 2 } +
          (2 ^ 64 - 2) <
        ({ minPayout := 1 } : SplitParams).earned 2 10 { identity := "more", work := 1, carry := 2 ^ 64 - 1 } +
          (2 ^ 64 - 1) := by
  decide

end Lazarus.Primed
