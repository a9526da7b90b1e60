import Lazarus.Tides.SplitInvariant

/-! What a split promises the miners it lists: the coinbase adds up, nobody placed is underpaid,
and nobody owed something is lost or counted twice. -/

namespace Lazarus.Tides

open Machine Tally

/-- A miner without its carry: all its share of a block depends on. -/
def MinerStat.uncarried (m : MinerStat) : MinerStat := { m with carry := 0 }

private theorem earned_uncarried (p : SplitParams) (totalWork value : Nat) (m : MinerStat) :
    p.earned totalWork value m.uncarried = p.earned totalWork value m := rfl

section Shares

variable {miners : List MinerStat} {totalWork value : Nat} {p : SplitParams} {rebateOwed now : Nat}
  {scriptFor : String → Option Script}

private theorem share_independent_of_carry {others : List MinerStat}
    (distinct : (miners.map MinerStat.identity).Nodup)
    (sameWork : others.map MinerStat.uncarried = miners.map MinerStat.uncarried) {payee payee' : Payee}
    (member : payee ∈ (compute miners totalWork value p rebateOwed now scriptFor).payees)
    (member' : payee' ∈ (compute others totalWork value p rebateOwed now scriptFor).payees)
    (same : payee'.identity = payee.identity) : payee'.sats - payee'.carry = payee.sats - payee.carry := by
  obtain ⟨m, listed, identity, sats, -⟩ := compute_payee member
  obtain ⟨m', listed', identity', sats', -⟩ := compute_payee member'
  have found : m'.uncarried ∈ miners.map MinerStat.uncarried := sameWork ▸ List.mem_map_of_mem listed'
  obtain ⟨twin, present, alike⟩ := List.mem_map.mp found
  have name : twin.identity = m.identity := by
    rw [identity, ← same, ← identity']
    exact (congrArg MinerStat.identity alike : twin.uncarried.identity = m'.uncarried.identity)
  have one : twin = m := List.inj_on_of_nodup_map distinct present listed name
  have share : p.earned totalWork value m' = p.earned totalWork value m := by
    rw [← earned_uncarried, ← alike, earned_uncarried, one]
  omega

end Shares

/-- Every issued coinbase adds up: the outputs and the pool's remainder are the block's value, each
output is its payee's whole share plus carry within its balance, and no balance, paid or not,
changes anybody's share. -/
theorem coinbase_adds_up (miners : List MinerStat) (totalWork value : Nat) (p : SplitParams)
    (rebateOwed now : Nat) (scriptFor : String → Option Script)
    (distinct : (miners.map MinerStat.identity).Nodup)
    (worked : (miners.map MinerStat.work).sum ≤ totalWork) (bounded : p.Bounded) (fits : value ≤ u64Max) :
    let s := compute miners totalWork value p rebateOwed now scriptFor
    (s.payees.map Payee.sats).sum + s.poolSats = value ∧
      (∀ payee ∈ s.payees, ∃ m ∈ miners, m.identity = payee.identity ∧
        payee.sats = p.earned totalWork value m + payee.carry ∧ payee.carry ≤ m.carry) ∧
      ∀ others : List MinerStat, others.map MinerStat.uncarried = miners.map MinerStat.uncarried →
        ∀ payee ∈ s.payees, ∀ payee' ∈ (compute others totalWork value p rebateOwed now scriptFor).payees,
          payee'.identity = payee.identity → payee'.sats - payee'.carry = payee.sats - payee.carry := by
  intro s
  refine ⟨(compute_sums rebateOwed now scriptFor bounded worked fits).1,
    fun payee member => compute_payee member, ?_⟩
  intro others sameWork payee member payee' member' same
  exact share_independent_of_carry distinct sameWork member member' same

/-- Two miners, the second short of the floor but for a balance the remainder can pay. -/
theorem coinbase_adds_up_small_miner :
    let miners : List MinerStat :=
      [{ identity := "large", work := 900 }, { identity := "small", work := 100, carry := 500 }]
    let s := compute miners 1000 10000 { feeBps := 1000, minPayout := 1200 } 0 0 fun _ => some []
    s.payees.map Payee.sats = [8100, 1400] ∧ (s.payees.map Payee.sats).sum + s.poolSats = 10000 := by
  refine ⟨by decide, ?_⟩
  exact (coinbase_adds_up _ 1000 10000 _ 0 0 _ (by decide) (by decide) (by decide) (by decide)).1

section Accounted

/-- The carry adjustments of a split's own lines, without the rebate. -/
def Split.ownDelta (s : Split) : List (String × Int) :=
  Tides.carryDelta s.payees s.unpaid [] fun _ => true

/-- Within the signed range a split's lines move carry by exactly what they say. -/
private theorem tally_ownDelta (s : Split) (identity : String)
    (carries : ∀ payee ∈ s.payees, payee.carry ≤ i64Max) (earnings : ∀ u ∈ s.unpaid, u.earned ≤ i64Max) :
    tally identity s.ownDelta =
      tally identity (s.payees.map fun payee => (payee.identity, -(payee.carry : Int))) +
        tally identity
          (s.unpaid.map fun u => (u.identity, if u.reason = .noScript then 0 else (u.earned : Int))) := by
  simp only [Split.ownDelta, Tides.carryDelta, List.filterMap_nil, List.append_nil,
    tally_append, tally_filterMap]
  congr 2
  · apply List.map_congr_left
    intro payee member
    have range := clampI64_eq (carries payee member)
    rcases Nat.eq_zero_or_pos payee.carry with none | some
    · simp [none]
    · simp [some, range]
  · apply List.map_congr_left
    intro u member
    have range := clampI64_eq (earnings u member)
    rcases Nat.eq_zero_or_pos u.earned with none | some
    · simp [Unpaid.defers, none]
    · cases reason : u.reason <;> simp [Unpaid.defers, reason, some, range]

section Lines

variable {s : Split} (once : (s.payees.map Payee.identity ++ s.unpaid.map Unpaid.identity).Nodup)

/-- What the outputs pay one identity. -/
def Split.paidTo (s : Split) (identity : String) : Nat :=
  tally identity (s.payees.map fun payee => (payee.identity, payee.sats))

include once

private theorem tally_payee {amount : Payee → ν} [AddCommMonoid ν] {payee : Payee} (member : payee ∈ s.payees) :
    tally payee.identity (s.payees.map fun payee => (payee.identity, amount payee)) = amount payee := by
  apply tally_of_mem
  · simpa [Function.comp_def] using (List.nodup_append.mp once).1
  · exact List.mem_map.mpr ⟨payee, member, rfl⟩

private theorem tally_unpaid {amount : Unpaid → ν} [AddCommMonoid ν] {u : Unpaid} (member : u ∈ s.unpaid) :
    tally u.identity (s.unpaid.map fun u => (u.identity, amount u)) = amount u := by
  apply tally_of_mem
  · simpa [Function.comp_def] using (List.nodup_append.mp once).2.1
  · exact List.mem_map.mpr ⟨u, member, rfl⟩

private theorem payee_not_unpaid {payee : Payee} {u : Unpaid} (first : payee ∈ s.payees)
    (second : u ∈ s.unpaid) : payee.identity ≠ u.identity :=
  (List.nodup_append.mp once).2.2 _ (List.mem_map_of_mem first) _ (List.mem_map_of_mem second)

private theorem tally_payee_absent {amount : Unpaid → ν} [AddCommMonoid ν]
    {payee : Payee} (member : payee ∈ s.payees) :
    tally payee.identity (s.unpaid.map fun u => (u.identity, amount u)) = 0 := by
  apply tally_eq_zero
  intro entry listed
  obtain ⟨u, other, rfl⟩ := List.mem_map.mp listed
  exact (payee_not_unpaid once member other).symm

private theorem tally_unpaid_absent {amount : Payee → ν} [AddCommMonoid ν]
    {u : Unpaid} (member : u ∈ s.unpaid) :
    tally u.identity (s.payees.map fun payee => (payee.identity, amount payee)) = 0 := by
  apply tally_eq_zero
  intro entry listed
  obtain ⟨payee, other, rfl⟩ := List.mem_map.mp listed
  exact payee_not_unpaid once other member

variable (carries : ∀ payee ∈ s.payees, payee.carry ≤ i64Max) (earnings : ∀ u ∈ s.unpaid, u.earned ≤ i64Max)

include carries earnings

private theorem payee_line {payee : Payee} (member : payee ∈ s.payees) :
    s.paidTo payee.identity = payee.sats ∧ tally payee.identity s.ownDelta = -(payee.carry : Int) := by
  refine ⟨tally_payee once member, ?_⟩
  rw [tally_ownDelta s payee.identity carries earnings, tally_payee once member, tally_payee_absent once member,
    add_zero]

private theorem unpaid_line {u : Unpaid} (member : u ∈ s.unpaid) :
    s.paidTo u.identity = 0 ∧
      tally u.identity s.ownDelta = if u.reason = .noScript then 0 else (u.earned : Int) := by
  refine ⟨tally_unpaid_absent once member, ?_⟩
  rw [tally_ownDelta s u.identity carries earnings, tally_unpaid once member, tally_unpaid_absent once member,
    zero_add]

omit once in
private theorem absent_line {identity : String}
    (absent : identity ∉ s.payees.map Payee.identity ++ s.unpaid.map Unpaid.identity) :
    s.paidTo identity = 0 ∧ tally identity s.ownDelta = 0 := by
  rw [List.mem_append, not_or] at absent
  have unlisted : ∀ {ν : Type} [AddCommMonoid ν] (amount : Payee → ν),
      tally identity (s.payees.map fun payee => (payee.identity, amount payee)) = 0 := by
    intro ν _ amount
    apply tally_eq_zero
    intro entry listed same
    obtain ⟨payee, member, rfl⟩ := List.mem_map.mp listed
    exact absent.1 (same ▸ List.mem_map_of_mem member)
  refine ⟨unlisted Payee.sats, ?_⟩
  rw [tally_ownDelta s identity carries earnings, unlisted, zero_add]
  apply tally_eq_zero
  intro entry listed same
  obtain ⟨u, member, rfl⟩ := List.mem_map.mp listed
  exact absent.2 (same ▸ List.mem_map_of_mem member)

end Lines

/-- An identity that cannot be paid is on no adjustment. -/
private theorem noScript_absent {s : Split}
    (once : (s.payees.map Payee.identity ++ s.unpaid.map Unpaid.identity).Nodup)
    {u : Unpaid} (member : u ∈ s.unpaid)
    (missing : u.reason = .noScript) : ∀ entry ∈ s.ownDelta, entry.1 ≠ u.identity := by
  intro entry listed same
  simp only [Split.ownDelta, Tides.carryDelta, List.filterMap_nil, List.append_nil, List.mem_append,
    List.mem_filterMap] at listed
  rcases listed with ⟨payee, paid, found⟩ | ⟨other, left, found⟩
  · split at found
    · cases found
      exact payee_not_unpaid once paid member same
    · cases found
  · split at found
    · rename_i deferred
      cases found
      have one : other = u := List.inj_on_of_nodup_map (List.nodup_append.mp once).2.1 left member same
      simp [Unpaid.defers, one, missing] at deferred
    · cases found

variable {miners : List MinerStat} {totalWork value : Nat} {p : SplitParams} {rebateOwed now : Nat}
  {scriptFor : String → Option Script}

/-- Who the lines of a split name: everybody owed something, each once. -/
private theorem compute_identities (totalWork value : Nat) (p : SplitParams) (rebateOwed now : Nat)
    (scriptFor : String → Option Script) (distinct : (miners.map MinerStat.identity).Nodup) :
    let s := compute miners totalWork value p rebateOwed now scriptFor
    (s.payees.map Payee.identity ++ s.unpaid.map Unpaid.identity).Nodup ∧
      ∀ identity, identity ∈ s.payees.map Payee.identity ++ s.unpaid.map Unpaid.identity ↔
        ∃ m ∈ miners, m.identity = identity ∧ 0 < p.earned totalWork value m + m.carry := by
  intro s
  have lines := (compute_claims miners totalWork value p rebateOwed now scriptFor).map Prod.fst
  have names : (s.payees.map Payee.identity ++ s.unpaid.map Unpaid.identity).Perm
      ((miners.filter fun m => 0 < p.earned totalWork value m + m.carry).map MinerStat.identity) := by
    simpa [Payee.claim, Unpaid.claim, Function.comp_def] using lines
  refine ⟨names.nodup_iff.mpr (distinct.sublist (List.filter_sublist.map _)), ?_⟩
  intro identity
  rw [names.mem_iff]
  simp only [List.mem_map, List.mem_filter, decide_eq_true_eq]
  constructor
  · rintro ⟨m, ⟨listed, owed⟩, same⟩
    exact ⟨m, listed, same, owed⟩
  · rintro ⟨m, listed, same, owed⟩
    exact ⟨m, ⟨listed, owed⟩, same⟩

/-- What an unpaid line says its identity earned is what it earned. -/
private theorem compute_unpaid {u : Unpaid}
    (member : u ∈ (compute miners totalWork value p rebateOwed now scriptFor).unpaid) :
    ∃ m ∈ miners, m.identity = u.identity ∧ p.earned totalWork value m = u.earned := by
  have line : u.claim ∈ (compute miners totalWork value p rebateOwed now scriptFor).payees.map Payee.claim ++
      (compute miners totalWork value p rebateOwed now scriptFor).unpaid.map Unpaid.claim :=
    List.mem_append_right _ (List.mem_map_of_mem member)
  obtain ⟨m, kept, same⟩ := List.mem_map.mp
    ((compute_claims miners totalWork value p rebateOwed now scriptFor).mem_iff.mp line)
  simp only [Unpaid.claim, Prod.mk.injEq] at same
  exact ⟨m, (List.mem_filter.mp kept).1, same.1, same.2.1⟩

/-- A miner that is owed something and can be paid is on a line that says so. -/
private theorem compute_line (rebateOwed now : Nat) {m : MinerStat} (listed : m ∈ miners)
    (script : (scriptFor m.identity).isSome) (owed : 0 < p.earned totalWork value m + m.carry) :
    (m.identity, p.earned totalWork value m, true) ∈
      (compute miners totalWork value p rebateOwed now scriptFor).payees.map Payee.claim ++
        (compute miners totalWork value p rebateOwed now scriptFor).unpaid.map Unpaid.claim := by
  have payable : scriptOf scriptFor m = scriptFor m.identity := by
    apply if_pos
    by_contra idle
    have unearned : p.earned totalWork value m = 0 := by
      apply if_neg
      omega
    omega
  apply (compute_claims miners totalWork value p rebateOwed now scriptFor).mem_iff.mpr
  refine List.mem_map.mpr ⟨m, List.mem_filter.mpr ⟨listed, by simpa using owed⟩, ?_⟩
  rw [payable, script]

/-- Nobody is lost or counted twice. While balances and shares are in the signed range: everybody
owed something, and nobody else, is on one line of the split; a payee's carry moves by what its
output included, a deferred identity's by what it earned, and one that cannot be paid is not touched;
so whoever can be paid gets, in sats or in carry, what it earned in this block. -/
theorem everybody_accounted_once (miners : List MinerStat) (totalWork value : Nat) (p : SplitParams)
    (rebateOwed now : Nat) (scriptFor : String → Option Script)
    (distinct : (miners.map MinerStat.identity).Nodup)
    (signed : ∀ m ∈ miners, m.carry ≤ i64Max ∧ p.earned totalWork value m ≤ i64Max) :
    let s := compute miners totalWork value p rebateOwed now scriptFor
    (s.payees.map Payee.identity ++ s.unpaid.map Unpaid.identity).Nodup ∧
      (∀ identity, identity ∈ s.payees.map Payee.identity ++ s.unpaid.map Unpaid.identity ↔
        ∃ m ∈ miners, m.identity = identity ∧ 0 < p.earned totalWork value m + m.carry) ∧
      (∀ payee ∈ s.payees, tally payee.identity s.ownDelta = -(payee.carry : Int)) ∧
      (∀ u ∈ s.unpaid, u.reason ≠ .noScript → tally u.identity s.ownDelta = u.earned ∧
        ∃ m ∈ miners, m.identity = u.identity ∧ p.earned totalWork value m = u.earned) ∧
      (∀ u ∈ s.unpaid, u.reason = .noScript → ∀ entry ∈ s.ownDelta, entry.1 ≠ u.identity) ∧
      ∀ m ∈ miners, (scriptFor m.identity).isSome →
        (s.paidTo m.identity : Int) + tally m.identity s.ownDelta = p.earned totalWork value m := by
  intro s
  obtain ⟨once, exactly⟩ := compute_identities totalWork value p rebateOwed now scriptFor distinct
  have carries : ∀ payee ∈ s.payees, payee.carry ≤ i64Max := by
    intro payee member
    obtain ⟨m, listed, -, -, within⟩ := compute_payee member
    exact Nat.le_trans within (signed m listed).1
  have earnings : ∀ u ∈ s.unpaid, u.earned ≤ i64Max := by
    intro u member
    obtain ⟨m, listed, -, same⟩ := compute_unpaid member
    exact same ▸ (signed m listed).2
  refine ⟨once, exactly, fun payee member => (payee_line once carries earnings member).2, ?_,
    fun u member => noScript_absent once member, ?_⟩
  · intro u member payable
    have line := (unpaid_line once carries earnings member).2
    rw [if_neg payable] at line
    exact ⟨line, compute_unpaid member⟩
  · intro m listed script
    rcases Nat.eq_zero_or_pos (p.earned totalWork value m + m.carry) with nothing | owed
    · have absent : m.identity ∉ s.payees.map Payee.identity ++ s.unpaid.map Unpaid.identity := by
        intro present
        obtain ⟨other, among, same, owed⟩ := (exactly m.identity).mp present
        have one : other = m := List.inj_on_of_nodup_map distinct among listed same
        rw [one] at owed
        omega
      obtain ⟨paid, moved⟩ := absent_line carries earnings absent
      omega
    · have line := compute_line rebateOwed now listed script owed
      rcases List.mem_append.mp line with paid | left
      · obtain ⟨payee, member, same⟩ := List.mem_map.mp paid
        obtain ⟨identity, earned⟩ : _ ∧ _ := by simpa [Payee.claim] using same
        obtain ⟨_, -, -, sats, -⟩ := compute_payee member
        obtain ⟨paid, moved⟩ := payee_line once carries earnings member
        rw [← identity, paid, moved]
        omega
      · obtain ⟨u, member, same⟩ := List.mem_map.mp left
        obtain ⟨identity, earned, reason⟩ : _ ∧ _ ∧ _ := by simpa [Unpaid.claim] using same
        obtain ⟨paid, moved⟩ := unpaid_line once carries earnings member
        rw [← identity, paid, moved, if_neg reason, earned]
        simp

/-- A miner paid, one under the floor and one without a script. -/
theorem everybody_accounted_once_mixed :
    let miners : List MinerStat :=
      [{ identity := "large", work := 900, carry := 40 }, { identity := "small", work := 60 },
        { identity := "nobody", work := 40, carry := 7 }]
    let scriptFor := fun identity => if identity = "nobody" then none else some []
    let s := compute miners 1000 10000 { minPayout := 1000 } 0 0 scriptFor
    s.ownDelta = [("large", -40), ("small", 600)] ∧
      (s.payees.map Payee.identity ++ s.unpaid.map Unpaid.identity).Nodup := by
  refine ⟨by decide, ?_⟩
  exact (everybody_accounted_once _ 1000 10000 { minPayout := 1000 } 0 0 _ (by decide) (by decide)).1

/-- Past the signed range it is not exact: a payee handed a balance of 2^63 + 10 sats keeps eleven
of them on the books. -/
theorem carry_past_signed_range :
    ¬ ∀ (miners : List MinerStat) (totalWork value : Nat) (p : SplitParams) (rebateOwed now : Nat)
      (scriptFor : String → Option Script), (miners.map MinerStat.identity).Nodup →
      ∀ payee ∈ (compute miners totalWork value p rebateOwed now scriptFor).payees,
        tally payee.identity (compute miners totalWork value p rebateOwed now scriptFor).ownDelta =
          -(payee.carry : Int) := by
  intro always
  have exact := always [{ identity := "miner", work := 0, carry := 2 ^ 63 + 10 }] 1 (2 ^ 63 + 10) {} 0 0
    (fun _ => some []) (by decide)
  revert exact
  decide

end Accounted

end Lazarus.Tides
