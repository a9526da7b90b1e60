import Lazarus.Primed.Issue
import Lazarus.Primed.Settle
import Lazarus.Wire.Floor

/-! What a found block pays the window: the payments of its coinbase with what its settlement books as owed,
against what every payee of the split it was mined on is entitled to. -/

namespace Lazarus.Primed

open Machine Tides Wire

/-- Every coin there will ever be, in sats; no coinbaser is issued for more. -/
def maxMoney : Nat := 2100000000000000

/-- What a split is kept as once its list is issued. -/
def Coinbaser.ofSplit (s : Split) (classCapped : Bool) : Coinbaser where
  value := s.value
  payees := s.payees
  unpaid := s.unpaid
  rebateCredits := s.rebateCredits
  rebateOwedCredited := s.rebateOwedCredited
  rebateDeferred := s.rebateDeferred
  classCapped := classCapped

namespace Coinbaser

/-- What a payee is entitled to: its output where the block is worth what was asked about, else what it earned
of the block and its carry. -/
def entitlement (cb : Coinbaser) (kind : CoinbaseKind) (coinbaseValue : Nat) (payee : Payee) : Nat :=
  if kind ≠ .poolOnly ∧ rewardMatches coinbaseValue cb.value then payee.sats
  else scale (payee.sats - payee.carry) coinbaseValue cb.value + payee.carry

/-- What is owed and what the coinbase pays the payees' scripts, each script once, come to what the payees are
entitled to, less the tolerance for each. -/
def MadeWhole (cb : Coinbaser) (kind : CoinbaseKind) (coinbase : Coinbase) (tolerance : Nat) : Prop :=
  (cb.payees.map (cb.entitlement kind coinbase.totalOutputValue)).sum ≤
    (settle kind (some cb) coinbase.totalOutputValue coinbase.paidTo).owed +
      ((cb.payees.map Payee.script).dedup.map coinbase.paidTo).sum + cb.payees.length * tolerance

instance madeWhole_decidable (cb : Coinbaser) (kind : CoinbaseKind) (coinbase : Coinbase) (tolerance : Nat) :
    Decidable (cb.MadeWhole kind coinbase tolerance) := inferInstanceAs (Decidable (_ ≤ _))

end Coinbaser

/-- Every coinbase that is credited on the list of a split makes the window whole. -/
def AlwaysWhole (s : Split) (poolScript : Script) : Prop :=
  ∀ (q : Policy) (coinbase : Coinbase) (subsidyOnly merkleEmpty : Bool) (jobTxnCount : Nat)
    (classCapped : Bool),
    q.poolScript = poolScript → q.issued = some (coinbaserOutputs s poolScript) →
    (classifyCoinbase coinbase q subsidyOnly jobTxnCount merkleEmpty).credited = true →
    (Coinbaser.ofSplit s classCapped).MadeWhole
      (classifyCoinbase coinbase q subsidyOnly jobTxnCount merkleEmpty) coinbase q.tolerance

/-- No two payees share a script, and one paid on the pool's own leaves the pool a sat for
each output of the list. -/
def Apart (s : Split) (poolScript : Script) : Prop :=
  (s.payees.map Payee.script).Nodup ∧
    (poolScript ∈ s.payees.map Payee.script → (coinbaserOutputs s poolScript).length ≤ s.poolSats)

instance apart_decidable (s : Split) (poolScript : Script) : Decidable (Apart s poolScript) :=
  inferInstanceAs (Decidable (_ ∧ _))

section Owed

variable {cb : Coinbaser} {kind : CoinbaseKind} {value : Nat} {paidTo : Script → Nat}

private theorem owed_settle (credited : kind.credited = true) : (settle kind (some cb) value paidTo).owed =
    if kind ≠ .poolOnly ∧ rewardMatches value cb.value then
      if kind = .split then 0 else
        ((cb.payees.filter fun p => !decide (0 < paidTo p.script)).map Payee.sats).sum
    else
      (cb.payees.map fun p =>
        satAdd (scale (p.sats - p.carry) value cb.value) p.carry -
          min (if kind = .poolOnly then 0 else paidTo p.script)
            (satAdd (scale (p.sats - p.carry) value cb.value) p.carry)).sum := by
  cases kind with
  | split =>
    by_cases near : rewardMatches value cb.value
    · simp [settle, near, Coinbaser.settleAsIssued]
    · simp [settle, near, Coinbaser.settleRescaled]
  | partialSplit present =>
    by_cases near : rewardMatches value cb.value
    · simp [settle, near, Coinbaser.settleAsIssued]
    · simp [settle, near, Coinbaser.settleRescaled]
  | poolOnly => simp [settle, Coinbaser.settleRescaled]
  | emptySolo => cases credited
  | gatewaySolo => cases credited
  | foreign => cases credited

private theorem entitled_fits {earned carry value issued : Nat} (part : earned + carry ≤ issued)
    (small : issued ≤ maxMoney) (fits : value ≤ u64Max) : scale earned value issued + carry ≤ u64Max := by
  unfold scale
  split
  · unfold u64Max
    unfold maxMoney at small
    omega
  · rename_i some
    have positive : 0 < issued := Nat.pos_of_ne_zero some
    have moved : asU64 (earned * value / issued) ≤ earned * value / issued := asU64_le
    rcases Nat.le_total value issued with less | more
    · have kept : earned * value / issued ≤ earned := Shares.share_le earned less
      unfold u64Max
      unfold maxMoney at small
      omega
    · have raised : earned * value / issued + carry ≤ value := by
        calc earned * value / issued + carry
            = (earned * value + carry * issued) / issued := by rw [Nat.add_mul_div_right _ _ positive]
          _ ≤ (earned + carry) * value / issued := by
              apply Nat.div_le_div_right
              rw [Nat.add_mul]
              exact Nat.add_le_add_left (Nat.mul_le_mul_left carry more) _
          _ ≤ value := scaled_le part
      omega

end Owed

section Split

/-- What the figures of a split come to: its payees and the pool share the value, and no payee's carry is
more than its output. -/
structure Figures (s : Split) : Prop where
  total : s.paidSats + s.poolSats = s.value
  parts : ∀ payee ∈ s.payees, payee.carry ≤ payee.sats
  small : s.value ≤ maxMoney

variable {s : Split} {poolScript : Script} {q : Policy} {coinbase : Coinbase} {kind : CoinbaseKind}

theorem Figures.sats_le (figures : Figures s) {payee : Payee} (member : payee ∈ s.payees) :
    payee.sats ≤ s.value := by
  have part : payee.sats ≤ s.paidSats := List.le_sum_of_mem (List.mem_map_of_mem member)
  have total := figures.total
  omega

private theorem mem_coinbaserOutputs {payee : Payee} (member : payee ∈ s.payees) :
    ({ sats := payee.sats, script := payee.script } : Output) ∈ coinbaserOutputs s poolScript := by
  have listed :=
    List.mem_map_of_mem (f := fun payee : Payee => ({ sats := payee.sats, script := payee.script } : Output))
    member
  unfold coinbaserOutputs
  simp only
  split
  · exact List.mem_append_left _ listed
  · exact listed

private theorem script_of_listed {script : Bytes}
    (listed : script ∈ (coinbaserOutputs s poolScript).map Output.script) :
    script ∈ s.payees.map Payee.script ∨ script = poolScript := by
  obtain ⟨o, member, rfl⟩ := List.mem_map.mp listed
  unfold coinbaserOutputs at member
  simp only at member
  split at member
  · rcases List.mem_append.mp member with payee | pool
    · obtain ⟨payee, present, rfl⟩ := List.mem_map.mp payee
      exact .inl (List.mem_map_of_mem present)
    · exact .inr (congrArg Output.script (List.mem_singleton.mp pool))
  · obtain ⟨payee, present, rfl⟩ := List.mem_map.mp member
    exact .inl (List.mem_map_of_mem present)

private theorem issuedValue_coinbaserOutputs (figures : Figures s) (some : 0 < s.value) :
    issuedValue (coinbaserOutputs s poolScript) = s.value := by
  have total := figures.total
  have sats : ((s.payees.map fun payee => ({ sats := payee.sats, script := payee.script } : Output)).map
      Output.sats).sum = s.paidSats := by
    rw [List.map_map]
    rfl
  unfold issuedValue coinbaserOutputs
  simp only
  split
  · rename_i pool
    have positive : 0 < s.poolSats := by
      rcases pool with left | none
      · exact left
      · rw [none] at sats
        have nothing : s.paidSats = 0 := sats.symm
        omega
    rw [List.map_append, List.sum_append, sats, List.map_singleton, List.sum_singleton,
      Nat.max_eq_left positive]
    exact total
  · rename_i neither
    rw [not_or] at neither
    rw [sats]
    omega

private theorem sum_eq_zero_of_value (figures : Figures s) (none : s.value = 0) : s.paidSats = 0 := by
  have total := figures.total
  omega

end Split

section Sufficient

variable {s : Split} {poolScript : Script} {q : Policy} {coinbase : Coinbase}
  {kind : CoinbaseKind} {classCapped : Bool}

private theorem sum_filter_map {α : Type} (items : List α) (keep : α → Bool) (amount : α → Nat) :
    ((items.filter keep).map amount).sum =
      (items.map fun item => if keep item then amount item else 0).sum := by
  induction items with
  | nil => rfl
  | cons item rest ih =>
    cases kept : keep item with
    | true => simp [kept, ih]
    | false => simp [kept, ih]

/-- Over the payees, what each is entitled to is covered by what is owed it, what its script is paid and the
tolerance. -/
theorem whole_of_each {payees : List Payee} {entitled owed paid : Payee → Nat} {tolerance : Nat}
    (each : ∀ payee ∈ payees, entitled payee ≤ owed payee + paid payee + tolerance) :
    (payees.map entitled).sum ≤ (payees.map owed).sum + (payees.map paid).sum + payees.length * tolerance := by
  induction payees with
  | nil => simp
  | cons payee rest ih =>
    have here := each payee List.mem_cons_self
    have later := ih fun other member => each other (List.mem_cons_of_mem _ member)
    simp only [List.map_cons, List.sum_cons, List.length_cons, Nat.add_mul, Nat.one_mul]
    omega

private theorem whole_rescaled (figures : Figures s) (credited : kind.credited = true)
    (far : ¬ (kind ≠ .poolOnly ∧ rewardMatches coinbase.totalOutputValue s.value))
    (distinct : kind = .poolOnly ∨ (s.payees.map Payee.script).Nodup) (tolerance : Nat) :
    (Coinbaser.ofSplit s classCapped).MadeWhole kind coinbase tolerance := by
  have top : coinbase.totalOutputValue ≤ u64Max := foldl_satAdd_le_max (by decide) _
  have exactly : ∀ payee ∈ s.payees,
      satAdd (scale (payee.sats - payee.carry) coinbase.totalOutputValue s.value) payee.carry =
        scale (payee.sats - payee.carry) coinbase.totalOutputValue s.value + payee.carry := by
    intro payee member
    have part := figures.parts payee member
    have most := figures.sats_le member
    exact satAdd_eq (entitled_fits (by omega) figures.small top)
  have entitled :
    ∀ payee : Payee, (Coinbaser.ofSplit s classCapped).entitlement kind coinbase.totalOutputValue payee =
      scale (payee.sats - payee.carry) coinbase.totalOutputValue s.value + payee.carry :=
        fun payee => if_neg far
  have far' :
    ¬ (kind ≠ .poolOnly ∧ rewardMatches coinbase.totalOutputValue (Coinbaser.ofSplit s classCapped).value) :=
    far
  unfold Coinbaser.MadeWhole
  rw [owed_settle credited, if_neg far']
  show (s.payees.map _).sum ≤ (s.payees.map _).sum + ((s.payees.map Payee.script).dedup.map _).sum +
    s.payees.length * tolerance
  rcases distinct with pool | distinct
  · have covered :
      (s.payees.map ((Coinbaser.ofSplit s classCapped).entitlement kind coinbase.totalOutputValue)).sum ≤
        (s.payees.map fun p => satAdd (scale (p.sats - p.carry) coinbase.totalOutputValue s.value) p.carry -
          min (if kind = .poolOnly then 0 else coinbase.paidTo p.script)
            (satAdd (scale (p.sats - p.carry) coinbase.totalOutputValue s.value) p.carry)).sum := by
      apply List.sum_le_sum
      intro payee member
      rw [entitled, exactly payee member, if_pos pool]
      omega
    exact (covered.trans (Nat.le_add_right _ _)).trans (Nat.le_add_right _ _)
  · rw [distinct.dedup, List.map_map]
    apply whole_of_each
    intro payee member
    have asked : (Coinbaser.ofSplit s classCapped).value = s.value := rfl
    rw [entitled, asked, exactly payee member]
    by_cases pool : kind = .poolOnly
    · simp only [pool, if_true]
      omega
    · simp only [pool, if_false, Function.comp_apply]
      omega

/-- What a credited coinbase other than the pool's pays the payees on scripts of their own: each output that is
there is paid but for the tolerance, and all are there where the coinbase is called the split. -/
theorem paid_as_issued (figures : Figures s) (worth : 0 < s.value) (own : q.poolScript = poolScript)
    (issued : q.issued = some (coinbaserOutputs s poolScript)) {subsidyOnly merkleEmpty : Bool}
    {jobTxnCount : Nat}
    (verdict : classifyCoinbase coinbase q subsidyOnly jobTxnCount merkleEmpty = kind)
    (credited : kind.credited = true)
    (other : kind ≠ .poolOnly) (enough : s.value ≤ coinbase.totalOutputValue) {payee : Payee}
    (member : payee ∈ s.payees) (apart : payee.script ≠ poolScript) :
    (kind = .split → 0 < coinbase.paidTo payee.script) ∧
      (0 < coinbase.paidTo payee.script → payee.sats ≤ coinbase.paidTo payee.script + q.tolerance) := by
  subst verdict
  obtain ⟨survey, _, _, ⟨only, _⟩ | ⟨iss, placed, placing⟩⟩ := classifyCoinbase_credited credited
  · exact absurd only other
  · obtain rfl : coinbaserOutputs s poolScript = iss := Option.some.inj (issued.symm.trans placing.held)
    have counts := counted placing.counted
    have miner : ({ sats := payee.sats, script := payee.script } : Output) ∈
        minersOf q.poolScript (coinbaserOutputs s poolScript) := by
      refine List.mem_filter.mpr ⟨mem_coinbaserOutputs member, ?_⟩
      rw [own]
      exact decide_eq_true apart
    constructor
    · exact fun split => counts.all (placing.all split) _ miner
    · intro paid
      have full := counts.full placing.full _ miner paid
      rw [issuedValue_coinbaserOutputs figures worth, owed, if_pos (.inr enough)] at full
      exact full

/-- What the coinbase pays the payees and the pool, where the pool is a payee, leaves out a sat for each output
of the list and the tolerance at most. -/
theorem paid_with_pool (figures : Figures s) (worth : 0 < s.value) (own : q.poolScript = poolScript)
    (issued : q.issued = some (coinbaserOutputs s poolScript)) {subsidyOnly merkleEmpty : Bool}
    {jobTxnCount : Nat}
    (credited : (classifyCoinbase coinbase q subsidyOnly jobTxnCount merkleEmpty).credited = true)
    (enough : s.value ≤ coinbase.totalOutputValue) (near : coinbase.totalOutputValue - s.value ≤ s.value / 16)
    (pool : poolScript ∈ s.payees.map Payee.script) :
    s.value ≤ ((s.payees.map Payee.script).dedup.map coinbase.paidTo).sum + q.tolerance +
      (coinbaserOutputs s poolScript).length := by
  have small := figures.small
  have fits : coinbase.Fits := by
    have below : coinbase.totalOutputValue < u64Max := by
      unfold u64Max
      unfold maxMoney at small
      omega
    have summed := sum_le_of_foldl_satAdd below
    rwa [Nat.zero_add] at summed
  have list : q.list = coinbaserOutputs s poolScript := by simp [Policy.list, issued]
  have within : coinbase.totalOutputValue ≤ ((s.payees.map Payee.script).dedup.map coinbase.paidTo).sum +
      q.gatewayCeiling coinbase :=
    total_le_listed fits (undiverted fits credited) (own ▸ pool) (by
      intro script listed
      rw [list] at listed
      rcases script_of_listed listed with payee | same
      · exact payee
      · exact same ▸ pool)
  have ceiling : q.gatewayCeiling coinbase ≤ coinbase.totalOutputValue - s.value + q.tolerance +
      (coinbaserOutputs s poolScript).length := by
    unfold Policy.gatewayCeiling
    rw [list, issuedValue_coinbaserOutputs figures worth]
    have extra : excess s.value coinbase.totalOutputValue ≤ coinbase.totalOutputValue - s.value :=
      Nat.min_le_left _ _
    have slack : slack q.tolerance (coinbaserOutputs s poolScript) ≤
      q.tolerance + (coinbaserOutputs s poolScript).length :=
      satAdd_le
    omega
  omega

/-- Close to the value asked about, the list's own figures stand, and payees with a script to
themselves were paid them. -/
theorem whole_matched (figures : Figures s) (own : q.poolScript = poolScript)
    (issued : q.issued = some (coinbaserOutputs s poolScript)) {subsidyOnly merkleEmpty : Bool}
    {jobTxnCount : Nat}
    (verdict : classifyCoinbase coinbase q subsidyOnly jobTxnCount merkleEmpty = kind)
    (credited : kind.credited = true)
    (near : kind ≠ .poolOnly ∧ rewardMatches coinbase.totalOutputValue s.value) (apart : Apart s poolScript) :
    (Coinbaser.ofSplit s classCapped).MadeWhole kind coinbase q.tolerance := by
  have near' : kind ≠ .poolOnly ∧
    rewardMatches coinbase.totalOutputValue (Coinbaser.ofSplit s classCapped).value := near
  have entitled : s.payees.map ((Coinbaser.ofSplit s classCapped).entitlement kind coinbase.totalOutputValue) =
      s.payees.map Payee.sats := List.map_congr_left fun payee _ => if_pos near
  obtain ⟨distinct, room⟩ := apart
  unfold Coinbaser.MadeWhole
  rw [owed_settle credited, if_pos near']
  show (s.payees.map _).sum ≤ (if kind = .split then 0 else ((s.payees.filter _).map _).sum) +
    ((s.payees.map Payee.script).dedup.map _).sum + s.payees.length * q.tolerance
  rw [entitled]
  rcases Nat.eq_zero_or_pos s.value with nothing | worth
  · have none : (s.payees.map Payee.sats).sum = 0 := sum_eq_zero_of_value figures nothing
    rw [none]
    exact Nat.zero_le _
  · obtain ⟨enough, close⟩ := near.2.resolve_left (Nat.ne_of_gt worth)
    by_cases pool : poolScript ∈ s.payees.map Payee.script
    · have paid := paid_with_pool figures worth own issued (verdict ▸ credited) enough close pool
      have left := room pool
      have total : (s.payees.map Payee.sats).sum + s.poolSats = s.value := figures.total
      have one : 1 ≤ s.payees.length := by
        obtain ⟨payee, member, _⟩ := List.mem_map.mp pool
        exact List.length_pos_of_mem member
      have allowed : q.tolerance ≤ s.payees.length * q.tolerance := Nat.le_mul_of_pos_left _ one
      omega
    · have owing :
        (if kind = .split then 0 else ((s.payees.filter fun p => !decide (0 < coinbase.paidTo p.script)).map
          Payee.sats).sum) = (s.payees.map fun p =>
            if kind = .split ∨ 0 < coinbase.paidTo p.script then 0 else p.sats).sum := by
        by_cases split : kind = .split
        · simp [split]
        · rw [if_neg split, sum_filter_map]
          congr 1
          apply List.map_congr_left
          intro payee _
          by_cases paid : 0 < coinbase.paidTo payee.script
          · simp [paid]
          · simp [paid, split]
      rw [owing, distinct.dedup, List.map_map]
      apply whole_of_each
      intro payee member
      have different : payee.script ≠ poolScript := fun same => pool (same ▸ List.mem_map_of_mem member)
      obtain ⟨all, full⟩ :=
        paid_as_issued figures worth own issued verdict credited near.1 enough member different
      by_cases placed : kind = .split ∨ 0 < coinbase.paidTo payee.script
      · have paid : 0 < coinbase.paidTo payee.script := placed.elim all id
        rw [if_pos placed, Nat.zero_add]
        exact full paid
      · rw [if_neg placed, Nat.add_assoc]
        exact Nat.le_add_right _ _

private theorem apart_whole (figures : Figures s) (apart : Apart s poolScript) : AlwaysWhole s poolScript := by
  intro q coinbase subsidyOnly merkleEmpty jobTxnCount classCapped own issued credited
  by_cases near : classifyCoinbase coinbase q subsidyOnly jobTxnCount merkleEmpty ≠ .poolOnly ∧
      rewardMatches coinbase.totalOutputValue s.value
  · exact whole_matched figures own issued rfl credited near apart
  · exact whole_rescaled figures credited near (.inr apart.1) q.tolerance

end Sufficient

section Debits

variable {cb : Coinbaser} {kind : CoinbaseKind} {value : Nat} {paidTo : Script → Nat}

/-- An entry that takes carry off an identity's books. -/
def debits (identity : String) (entry : String × Int) : Bool := entry.1 = identity && entry.2 < 0

private theorem debits_gain {identity : String} {entry : String × Int} (gain : 0 ≤ entry.2) :
    debits identity entry = false := by
  simp [debits, gain]

/-- The entry that takes a payee's carry off its books, if it has any. -/
def debitOf (payee : Payee) : List (String × Int) :=
  if 0 < payee.carry then [(payee.identity, -(payee.carry : Int))] else []

private theorem filter_carried {payees : List Payee} (distinct : (payees.map Payee.identity).Nodup)
    (fits : ∀ payee ∈ payees, payee.carry ≤ i64Max) {payee : Payee} (member : payee ∈ payees) :
    (payees.filterMap fun p => if 0 < p.carry && true then
      some (p.identity, -clampI64 p.carry) else none).filter (debits payee.identity) = debitOf payee := by
  have others : ∀ {rest : List Payee}, payee.identity ∉ rest.map Payee.identity →
      (rest.filterMap fun p => if 0 < p.carry && true then
        some (p.identity, -clampI64 p.carry) else none).filter (debits payee.identity) = [] := by
    intro rest absent
    apply List.filter_eq_nil_iff.mpr
    intro entry listed
    obtain ⟨p, present, made⟩ := List.mem_filterMap.mp listed
    obtain rfl := Option.some.inj (Option.ite_none_right_eq_some.mp made).2
    have different : p.identity ≠ payee.identity := fun same => absent (same ▸ List.mem_map_of_mem present)
    simp [debits, different]
  induction payees with
  | nil => cases member
  | cons first rest ih =>
    obtain ⟨fresh, distinct⟩ := List.nodup_cons.mp distinct
    rcases List.mem_cons.mp member with rfl | later
    · have clamped := clampI64_eq (fits payee List.mem_cons_self)
      by_cases carried : 0 < payee.carry
      · have own : debits payee.identity (payee.identity, -(payee.carry : Int)) = true := by
          simp [debits, carried]
        rw [List.filterMap_cons_some (by simp [carried]; rfl), clamped,
          List.filter_cons_of_pos own, others fresh, debitOf, if_pos carried]
      · rw [List.filterMap_cons_none (by simp [carried]), others fresh, debitOf, if_neg carried]
    · have different : first.identity ≠ payee.identity := fun same => fresh (same ▸ List.mem_map_of_mem later)
      have onward := ih distinct (fun p listed => fits p (List.mem_cons_of_mem _ listed)) later
      by_cases carried : 0 < first.carry
      · rw [List.filterMap_cons_some (by simp [carried]; rfl),
          List.filter_cons_of_neg (by simp [debits, different])]
        exact onward
      · rw [List.filterMap_cons_none (by simp [carried])]
        exact onward

private theorem filter_carryDelta (distinct : (cb.payees.map Payee.identity).Nodup)
    (fits : ∀ payee ∈ cb.payees, payee.carry ≤ i64Max) {payee : Payee} (member : payee ∈ cb.payees) :
    cb.carryDelta.filter (debits payee.identity) = debitOf payee := by
  have gains : ∀ {entries : List (String × Int)}, (∀ entry ∈ entries, 0 ≤ entry.2) →
      entries.filter (debits payee.identity) = [] := by
    intro entries gain
    apply List.filter_eq_nil_iff.mpr
    intro entry listed
    simp [debits_gain (gain entry listed)]
  unfold Coinbaser.carryDelta Tides.carryDelta
  rw [List.filter_append, List.filter_append, filter_carried distinct fits member,
    gains, gains, List.append_nil, List.append_nil]
  · intro entry listed
    obtain ⟨credit, _, made⟩ := List.mem_filterMap.mp listed
    obtain rfl := Option.some.inj (Option.ite_none_right_eq_some.mp made).2
    exact clampI64_nonneg
  · intro entry listed
    obtain ⟨u, _, made⟩ := List.mem_filterMap.mp listed
    obtain rfl := Option.some.inj (Option.ite_none_right_eq_some.mp made).2
    exact clampI64_nonneg

private theorem filter_moved (entries : List (String × Int)) (identity : String) (move : Nat → Nat) :
    (entries.map fun entry => if 0 < entry.2 then (entry.1, clampI64 (move entry.2.toNat)) else entry).filter
      (debits identity) = entries.filter (debits identity) := by
  induction entries with
  | nil => rfl
  | cons entry rest ih =>
    rw [List.map_cons]
    by_cases gain : 0 < entry.2
    · have still : debits identity (entry.1, clampI64 (move entry.2.toNat)) = false :=
        debits_gain clampI64_nonneg
      have up : debits identity entry = false := debits_gain (Int.le_of_lt gain)
      rw [if_pos gain, List.filter_cons_of_neg (by simp [still]), List.filter_cons_of_neg (by simp [up])]
      exact ih
    · rw [if_neg gain, List.filter_cons, List.filter_cons, ih]

private theorem debited_once (credited : kind.credited = true) (distinct : (cb.payees.map Payee.identity).Nodup)
    (fits : ∀ payee ∈ cb.payees, payee.carry ≤ i64Max) {payee : Payee} (member : payee ∈ cb.payees) :
    (settle kind (some cb) value paidTo).carryDelta.filter (debits payee.identity) = debitOf payee := by
  have same : (settle kind (some cb) value paidTo).carryDelta.filter (debits payee.identity) =
      cb.carryDelta.filter (debits payee.identity) := by
    cases kind with
    | split =>
      by_cases near : rewardMatches value cb.value
      · simp [settle, near, Coinbaser.settleAsIssued]
      · simp only [settle, near, Coinbaser.settleRescaled, Bool.not_false, decide_false, Bool.and_false,
          Bool.false_eq_true, if_false]
        exact filter_moved cb.carryDelta payee.identity fun sats => scale sats value cb.value
    | partialSplit present =>
      by_cases near : rewardMatches value cb.value
      · simp [settle, near, Coinbaser.settleAsIssued]
      · simp only [settle, near, Coinbaser.settleRescaled, Bool.not_false, decide_false, Bool.and_false,
          Bool.false_eq_true, if_false]
        exact filter_moved cb.carryDelta payee.identity fun sats => scale sats value cb.value
    | poolOnly =>
      simp only [settle, Coinbaser.settleRescaled, Bool.not_true, Bool.false_and, Bool.false_eq_true, if_false]
      exact filter_moved cb.carryDelta payee.identity fun sats => scale sats value cb.value
    | emptySolo => cases credited
    | gatewaySolo => cases credited
    | foreign => cases credited
  rw [same]
  exact filter_carryDelta distinct fits member

end Debits

section Necessary

variable {s : Split} {poolScript : Script}

private theorem totalTo_coinbaserOutputs {script : Script} (other : script ≠ poolScript) :
    totalTo (coinbaserOutputs s poolScript) script =
      Tally.tally script (s.payees.map fun payee => (payee.script, payee.sats)) := by
  have payees : ((s.payees.map fun payee => ({ sats := payee.sats, script := payee.script } : Output)).map
      fun i => (i.script, i.sats)) = s.payees.map fun payee => (payee.script, payee.sats) := by
    rw [List.map_map]
    rfl
  unfold totalTo coinbaserOutputs
  simp only
  split
  · rw [List.map_append, Tally.tally_append, payees]
    simp [Ne.symm other]
  · rw [payees]

/-- Without tolerance, a script that two payees share can be paid for the larger of them alone: the coinbase is
the split, and nothing is owed. -/
theorem distinct_of_alwaysWhole (figures : Figures s) (worth : 0 < s.value)
    (own : poolScript ∉ s.payees.map Payee.script)
    (payable : ({ poolScript, issued := some (coinbaserOutputs s poolScript) } : Policy).Payable)
    (whole : AlwaysWhole s poolScript) : (s.payees.map Payee.script).Nodup := by
  by_contra shared
  obtain ⟨short, repeated⟩ := List.exists_duplicate_iff_not_nodup.mpr shared
  have twice : 2 ≤ (s.payees.map Payee.script).count short := by
    have counted := List.duplicate_iff_two_le_count.mp repeated
    convert counted
  generalize policy : ({ poolScript, issued := some (coinbaserOutputs s poolScript) } : Policy) = q at payable
  have list : q.list = coinbaserOutputs s poolScript := by rw [← policy]; rfl
  have pool : q.poolScript = poolScript := by rw [← policy]
  have exact : q.tolerance = 0 := by rw [← policy]
  have apart : ∀ script ∈ s.payees.map Payee.script, script ≠ poolScript :=
    fun script member same => own (same ▸ member)
  have miners : ∀ script ∈ s.payees.map Payee.script, script ∈ q.minerScripts := by
    intro script member
    obtain ⟨payee, present, rfl⟩ := List.mem_map.mp member
    refine mem_minerScripts.mpr ⟨pool ▸ apart _ member, ?_⟩
    rw [list]
    exact List.mem_map.mpr ⟨_, mem_coinbaserOutputs present, rfl⟩
  have member : short ∈ s.payees.map Payee.script := repeated.mem
  have fits := fits_thinCoinbase payable short
  have split := classify_thinCoinbase payable (miners short member) false false 0
  have value : (thinCoinbase q short).totalOutputValue = s.value := by
    rw [totalOutputValue_thinCoinbase payable short, list, issuedValue_coinbaserOutputs figures worth]
  have covered :=
    whole q (thinCoinbase q short) false false 0 false pool (by rw [← policy]) (by rw [split]; rfl)
  have near : CoinbaseKind.split ≠ .poolOnly ∧ rewardMatches s.value (Coinbaser.ofSplit s false).value :=
    ⟨by decide, .inr ⟨Nat.le_refl s.value, (Nat.sub_self s.value).symm ▸ Nat.zero_le _⟩⟩
  have entitled :
    s.payees.map ((Coinbaser.ofSplit s false).entitlement .split s.value) = s.payees.map Payee.sats :=
    List.map_congr_left fun payee _ => if_pos near
  have paid : ((s.payees.map Payee.script).dedup.map (thinCoinbase q short).paidTo) =
      (s.payees.map Payee.script).dedup.map (thinAmount q short) := by
    apply List.map_congr_left
    intro script listed
    exact paidTo_thinCoinbase fits (miners script (List.mem_dedup.mp listed))
  unfold Coinbaser.MadeWhole at covered
  rw [split, value, owed_settle rfl, if_pos near, if_pos rfl, exact, Nat.mul_zero,
    Nat.zero_add, Nat.add_zero] at covered
  change (s.payees.map _).sum ≤ ((s.payees.map Payee.script).dedup.map _).sum at covered
  rw [entitled, paid] at covered
  have issued :
      ((s.payees.map Payee.script).dedup.map (totalTo q.list)).sum = (s.payees.map Payee.sats).sum := by
    have summed := Tally.sum_tally (s.payees.map Payee.script).dedup (List.nodup_dedup _)
      (s.payees.map fun payee => (payee.script, payee.sats)) (by
        intro entry listed
        obtain ⟨payee, present, rfl⟩ := List.mem_map.mp listed
        exact List.mem_dedup.mpr (List.mem_map_of_mem present))
    rw [List.map_map] at summed
    rw [list]
    refine Eq.trans (congrArg List.sum (List.map_congr_left ?_)) summed
    intro script listed
    exact totalTo_coinbaserOutputs (apart script (List.mem_dedup.mp listed))
  have listedTwice : 2 ≤ (q.list.map Output.script).count short := by
    refine twice.trans (List.Sublist.count_le short ?_)
    rw [list]
    have payees : ((s.payees.map fun payee => ({ sats := payee.sats, script := payee.script } : Output)).map
        Output.script) = s.payees.map Payee.script := by
      rw [List.map_map]
      rfl
    rw [← payees]
    apply List.Sublist.map
    unfold coinbaserOutputs
    simp only
    split
    · exact List.sublist_append_left _ _
    · exact List.Sublist.refl _
  have thin : ((s.payees.map Payee.script).dedup.map (thinAmount q short)).sum <
      ((s.payees.map Payee.script).dedup.map (totalTo q.list)).sum := by
    apply List.sum_lt_sum
    · intro script listed
      exact thinAmount_le payable short (miners script (List.mem_dedup.mp listed))
    · refine ⟨short, List.mem_dedup.mpr member, ?_⟩
      have less := heaviest_lt payable.positive listedTwice
      rw [thinAmount, if_pos rfl, exact, Nat.sub_zero]
      exact less
  omega

end Necessary

/-- With payees on scripts of their own, and where one is paid on the pool's with enough left to the pool, every
block mined on an issued list makes the window whole. Lists that can be paid at all and keep the pool's script
to the pool need it too. Every payee's carry comes off its books, whole and in one entry. -/
theorem found_block_whole (miners : List MinerStat) (totalWork value : Nat)
    (p : SplitParams) (rebateOwed now : Nat) (scriptFor : String → Option Script)
    (poolScript : Script) (bounded : p.Bounded) (worked : (miners.map MinerStat.work).sum ≤ totalWork)
    (worth : 0 < value) (small : value ≤ maxMoney) :
    let s := compute miners totalWork value p rebateOwed now scriptFor
    (Apart s poolScript → AlwaysWhole s poolScript) ∧
    (poolScript ∉ s.payees.map Payee.script →
      ({ poolScript, issued := some (coinbaserOutputs s poolScript) } : Policy).Payable →
      (AlwaysWhole s poolScript ↔ (s.payees.map Payee.script).Nodup)) ∧
    ((miners.map MinerStat.identity).Nodup → ∀ kind : CoinbaseKind, kind.credited = true →
      ∀ (classCapped : Bool) (coinbaseValue : Nat) (paidTo : Script → Nat), ∀ payee ∈ s.payees,
        (settle kind (some (Coinbaser.ofSplit s classCapped)) coinbaseValue paidTo).carryDelta.filter
          (debits payee.identity) = debitOf payee) := by
  intro s
  have fits : value ≤ u64Max := by
    unfold u64Max
    unfold maxMoney at small
    omega
  obtain ⟨paid, among, each⟩ := compute_paid miners totalWork value p rebateOwed now scriptFor
  have figures : Figures s := by
    refine ⟨(compute_sums rebateOwed now scriptFor bounded worked fits).1, ?_, small⟩
    intro payee member
    obtain ⟨x, _, as⟩ := PaidAs.of_mem each member
    rw [as.sats]
    exact Nat.le_add_left _ _
  refine ⟨apart_whole figures, ?_, ?_⟩
  · intro own payable
    constructor
    · exact distinct_of_alwaysWhole figures worth own payable
    · exact fun distinct => apart_whole figures ⟨distinct, fun pool => absurd pool own⟩
  · intro distinct kind credited classCapped coinbaseValue paidTo payee member
    have identities : (s.payees.map Payee.identity).Nodup := by
      have named : s.payees.map Payee.identity = (paid.map Tides.Placed.miner).map MinerStat.identity := by
        rw [List.map_map]
        clear among
        generalize s.payees = payees at each
        induction each with
        | nil => rfl
        | cons here _ ih => rw [List.map_cons, List.map_cons, ih, here.identity]; rfl
      rw [named]
      obtain ⟨part, same, within⟩ := (among.map Tides.Placed.miner).subperm.trans firstPass_subperm
      rw [← (same.map MinerStat.identity).nodup_iff]
      exact (within.map MinerStat.identity).nodup distinct
    apply debited_once credited identities ?_ member
    intro payee member
    have part := figures.parts payee member
    have most := figures.sats_le member
    have asked : s.value = value := rfl
    unfold i64Max
    unfold maxMoney at small
    omega

/-- Two miners on scripts of their own. -/
theorem found_block_whole_two :
    let miners : List MinerStat :=
      [{ identity := "a", work := 60 }, { identity := "b", work := 40, carry := 10 }]
    let scriptFor : String → Option Script := fun identity => some (if identity = "a" then [0x51] else [0x53])
    let p : SplitParams := { feeBps := 100, maxOutputs := 511, outputBudgetBytes := 13927 }
    let s := compute miners 100 1000000 p 0 0 scriptFor
    Apart s [0x52] ∧ AlwaysWhole s [0x52] ∧
      ∀ payee ∈ s.payees,
        (settle .split (some (Coinbaser.ofSplit s false)) 1000000 fun _ => 1).carryDelta.filter
        (debits payee.identity) = debitOf payee := by
  intro miners scriptFor p s
  have apart : Apart s [0x52] := by decide
  obtain ⟨whole, _, debited⟩ :=
    found_block_whole miners 100 1000000 p 0 0 scriptFor [0x52] (by decide) (by decide) (by decide) (by decide)
  exact ⟨apart, whole apart, debited (by decide) .split rfl false 1000000 fun _ => 1⟩

/-- Two identities that are paid on one script. A coinbase that pays it for one of them is the split, with
nothing owed; in a block worth twice what was asked about the one payment is taken off what each is owed. -/
theorem shared_script_short :
    let miners : List MinerStat := [{ identity := "a", work := 50 }, { identity := "b", work := 50 }]
    let p : SplitParams := { feeBps := 100, maxOutputs := 511, outputBudgetBytes := 13927 }
    let s := compute miners 100 1000000 p 0 0 fun _ => some [0x51]
    let cb := Coinbaser.ofSplit s false
    let q : Policy := { poolScript := [0x52], issued := some (coinbaserOutputs s [0x52]), tolerance := 2 }
    let asked : Coinbase := { outputs := [⟨495000, [0x51]⟩, ⟨505000, [0x52]⟩] }
    let doubled : Coinbase := { outputs := [⟨990000, [0x51]⟩, ⟨1010000, [0x52]⟩] }
    (classifyCoinbase asked q false 2 false = .split ∧ (settle .split (some cb) 1000000 asked.paidTo).owed = 0 ∧
      ¬ cb.MadeWhole .split asked q.tolerance) ∧
    (classifyCoinbase doubled q false 2 false = .split ∧
      (settle .split (some cb) 2000000 doubled.paidTo).owed = 0 ∧ ¬ cb.MadeWhole .split doubled q.tolerance) ∧
    ¬ AlwaysWhole s [0x52] := by
  intro miners p s cb q asked doubled
  have split : classifyCoinbase asked q false 2 false = .split := by decide
  have short : ¬ cb.MadeWhole .split asked q.tolerance := by decide
  refine ⟨⟨split, by decide, short⟩, by decide, ?_⟩
  intro whole
  have made := whole q asked false false 2 false rfl rfl (by rw [split]; rfl)
  rw [split] at made
  exact short made

end Lazarus.Primed
