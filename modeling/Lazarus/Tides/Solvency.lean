import Lazarus.Tides.Outright
import Lazarus.Tides.SplitInvariant

/-! The pool stays solvent over every run of found blocks: what the books owe grows, with each
block, by no more than the pool's own output in it. -/

namespace Lazarus.Tides

open Machine Interner Tally Window

section Totals

/-- Everybody's carry. -/
def Window.carrySum (w : Window) : Nat := total id w.carry

/-- What the books owe in all. -/
def Window.owes (w : Window) : Nat := w.carrySum + w.rebateOwed

variable (w : Window) (identity : String)

private theorem carrySum_fileCarry (sats : Nat) :
    ((w.intern identity).fileCarry identity sats).carrySum + w.carryOf identity = w.carrySum + sats := by
  obtain ⟨index, found⟩ := exists_position_intern w.idents identity
  have located : (w.intern identity).idents.position identity = some index := found
  unfold fileCarry
  split
  · rename_i missing
    rw [missing] at located
    cases located
  · rename_i place found
    have filed := total_put (w.intern identity).carry place sats
    rw [lookup_getD_position found] at filed
    have same : (w.intern identity).idents.amount (w.intern identity).carry identity = w.carryOf identity :=
      carryOf_intern w identity identity
    rw [same] at filed
    exact filed

private theorem carrySum_adjustCarry (delta : Int) :
    (w.adjustCarry identity delta).1.carrySum + w.carryOf identity =
      w.carrySum + (w.adjustCarry identity delta).1.carryOf identity := by
  rw [← adjustCarry_result]
  simp only [adjustCarry, carryOf_intern]
  exact carrySum_fileCarry w identity _

@[simp] theorem carrySum_fileDebt (sats : Nat) : (w.fileDebt identity sats).carrySum = w.carrySum := by
  unfold fileDebt
  split <;> rfl

@[simp] theorem carrySum_reduceDebt (sats : Nat) : (w.reduceDebt identity sats).1.carrySum = w.carrySum := by
  unfold reduceDebt
  split <;> simp

private theorem carrySum_restoreCarry_le (sats : Nat) :
    (w.restoreCarry identity sats).1.carrySum ≤ w.carrySum + sats := by
  simp only [restoreCarry]
  split
  · simp
  · have moved := carrySum_adjustCarry (w.reduceDebt identity sats).1 identity
      (clampI64 (sats - (w.reduceDebt identity sats).2))
    rw [carryOf_adjustCarry, if_pos rfl, if_pos clampI64_nonneg, clampI64_natAbs, carrySum_reduceDebt,
      carryOf_reduceDebt] at moved
    have most := satAdd_le (a := w.carryOf identity) (b := min (sats - (w.reduceDebt identity sats).2) i64Max)
    omega

end Totals

section Settling

private theorem settleEntry_le (state : Ledger × List (String × Nat)) (entry : String × Int) :
    (settleEntry state entry).1.window.carrySum ≤ state.1.window.carrySum + entry.2.toNat := by
  obtain ⟨l, out⟩ := state
  simp only [settleEntry]
  split
  · exact Nat.le_add_right _ _
  · by_cases above : 0 < entry.2
    · simp only [above, ↓reduceIte]
      have raised := carrySum_restoreCarry_le l.window entry.1 entry.2.natAbs
      omega
    · simp only [above, ↓reduceIte]
      have moved := carrySum_adjustCarry l.window entry.1 entry.2
      rw [carryOf_adjustCarry_neg _ _ _ _ (by omega), if_pos rfl] at moved
      omega

private theorem settleEntry_debit {state : Ledger × List (String × Nat)} {entry : String × Nat}
    (covered : entry.2 ≤ state.1.window.carryOf entry.1) (some : 0 < entry.2) :
    (settleEntry state (entry.1, -(entry.2 : Int))).1.window.carrySum + entry.2 = state.1.window.carrySum ∧
      ∀ other, (settleEntry state (entry.1, -(entry.2 : Int))).1.window.carryOf other =
        state.1.window.carryOf other - if entry.1 = other then entry.2 else 0 := by
  obtain ⟨l, out⟩ := state
  have below : -(entry.2 : Int) < 0 := by omega
  have window : (settleEntry (l, out) (entry.1, -(entry.2 : Int))).1.window =
      (l.window.adjustCarry entry.1 (-(entry.2 : Int))).1 := by
    have nonzero : ¬ -(entry.2 : Int) = 0 := by omega
    have notAbove : ¬ 0 < -(entry.2 : Int) := by omega
    simp only [settleEntry, nonzero, notAbove, ↓reduceIte]
  have carries := fun other => carryOf_adjustCarry_neg l.window entry.1 other _ below
  simp only [Int.natAbs_neg, Int.natAbs_natCast] at carries
  rw [window]
  refine ⟨?_, ?_⟩
  · have moved := carrySum_adjustCarry l.window entry.1 (-(entry.2 : Int))
    rw [carries, if_pos rfl] at moved
    simp only at covered ⊢
    omega
  · intro other
    rw [carries]
    by_cases same : other = entry.1
    · simp [same]
    · simp [same, Ne.symm same]

private theorem settle_debits (entries : List (String × Nat)) (state : Ledger × List (String × Nat))
    (some : ∀ entry ∈ entries, 0 < entry.2)
    (covered : ∀ identity, tally identity entries ≤ state.1.window.carryOf identity) :
    ((entries.map fun entry => (entry.1, -(entry.2 : Int))).foldl settleEntry state).1.window.carrySum +
      (entries.map Prod.snd).sum = state.1.window.carrySum := by
  induction entries generalizing state with
  | nil => rfl
  | cons entry rest ih =>
    have here : entry.2 ≤ state.1.window.carryOf entry.1 := by
      have all := covered entry.1
      rw [tally_cons, if_pos rfl] at all
      omega
    obtain ⟨moved, left⟩ := settleEntry_debit here (some entry List.mem_cons_self)
    have later := ih (settleEntry state (entry.1, -(entry.2 : Int)))
      (fun other member => some other (List.mem_cons_of_mem entry member)) (by
        intro identity
        have all := covered identity
        rw [tally_cons] at all
        rw [left]
        omega)
    rw [List.map_cons, List.foldl_cons, List.map_cons, List.sum_cons]
    omega

end Settling

section Rebates

/-- The rebate credited out is no more than the pot it is shared from. -/
theorem sum_rebateCredits_le (miners : List MinerStat) (pot : Nat) (scriptFor : String → Option Script) :
    ((rebateCredits miners pot scriptFor).1.map Prod.snd).sum ≤ pot := by
  unfold rebateCredits
  split
  · exact Nat.zero_le _
  · simp only
    split
    · exact Nat.zero_le _
    · generalize miners.filter _ = eligible
      have some := (List.filter_sublist (p := fun credit : String × Nat => decide (0 < credit.2))
        (l := eligible.map fun m =>
          (m.identity, asU64 (pot * m.datumWork / (eligible.map MinerStat.datumWork).sum)))).map Prod.snd
      refine Nat.le_trans (some.sum_le_sum fun _ _ => Nat.zero_le _) ?_
      rw [List.map_map]
      have each : ∀ m ∈ eligible, asU64 (pot * m.datumWork / (eligible.map MinerStat.datumWork).sum) ≤
          Shares.share pot m.datumWork (eligible.map MinerStat.datumWork).sum := fun _ _ => asU64_le
      refine Nat.le_trans (List.sum_le_sum each) ?_
      have shared := Shares.sum_share_le_amount pot (Nat.le_refl (eligible.map MinerStat.datumWork).sum)
      rwa [List.map_map] at shared

private theorem settleRebate_owed (l : Ledger) (delta : Int) :
    ((l.settleRebate delta).1.window.rebateOwed : Int) ≤ max 0 (l.window.rebateOwed + delta) ∧
      (l.settleRebate delta).1.window.carrySum = l.window.carrySum := by
  unfold Ledger.settleRebate
  split
  · rename_i none
    refine ⟨?_, rfl⟩
    simp only [none]
    omega
  · refine ⟨?_, rfl⟩
    simp only [adjustRebateOwed]
    split
    · omega
    · have most := satAdd_le (a := l.window.rebateOwed) (b := delta.natAbs)
      omega

end Rebates

section Blocks

/-- A found block: what its split is computed from, but for the owed rebate. -/
structure FoundBlock where
  miners : List MinerStat
  totalWork : Nat
  value : Nat
  params : SplitParams := {}
  now : Nat := 0
  scriptFor : String → Option Script

def FoundBlock.split (b : FoundBlock) (rebateOwed : Nat) : Split :=
  compute b.miners b.totalWork b.value b.params rebateOwed b.now b.scriptFor

/-- A block is found: its split is computed on the books as they stand, and applied to them. -/
def Ledger.find (l : Ledger) (b : FoundBlock) : Ledger :=
  let s := b.split l.window.rebateOwed
  ((l.settleCarry (s.carryDelta fun _ => true)).1.settleRebate s.rebateDelta).1

/-- What a block is found on: a window's work and fees, an amount and an owed rebate in the signed
range, and balances of which no identity is listed with more than it has. -/
structure Ledger.Ready (l : Ledger) (b : FoundBlock) : Prop where
  worked : (b.miners.map MinerStat.work).sum ≤ b.totalWork
  bounded : b.params.Bounded
  value : b.value ≤ i64Max
  rebateOwed : l.window.rebateOwed ≤ i64Max
  balances :
    ∀ identity, tally identity (b.miners.map fun m => (m.identity, m.carry)) ≤ l.window.carryOf identity

/-- The debits of a split, within the signed range: what each output included of its payee's carry. -/
private theorem debits_eq {payees : List Payee} (signed : ∀ payee ∈ payees, payee.carry ≤ i64Max) :
    (payees.filterMap fun payee =>
      if 0 < payee.carry && true then some (payee.identity, -clampI64 payee.carry) else none) =
      ((payees.filter fun payee => 0 < payee.carry).map fun payee => (payee.identity, payee.carry)).map
        fun entry => (entry.1, -(entry.2 : Int)) := by
  induction payees with
  | nil => rfl
  | cons payee rest ih =>
    have later := ih fun other member => signed other (List.mem_cons_of_mem payee member)
    have range := clampI64_eq (signed payee List.mem_cons_self)
    by_cases some : 0 < payee.carry
    · simpa [some, range] using later
    · simpa [some] using later

private theorem sum_credits_le {ι : Type} (items : List ι) (keep : ι → Bool)
    (name : ι → String) (amount : ι → Nat) :
    ((items.filterMap fun item => if keep item then some (name item, clampI64 (amount item)) else none).map
      fun entry => entry.2.toNat).sum ≤ (items.map amount).sum := by
  induction items with
  | nil => exact Nat.le_refl _
  | cons item rest ih =>
    have clamped := clampI64_le (n := amount item)
    cases kept : keep item with
    | true =>
      rw [List.filterMap_cons_some (by rw [kept]; rfl), List.map_cons,
        List.sum_cons, List.map_cons, List.sum_cons]
      omega
    | false =>
      rw [List.filterMap_cons_none (by rw [kept]; rfl), List.map_cons, List.sum_cons]
      omega

/-- Applying a split's adjustments takes the carry it paid off the sum and puts on no more than it
deferred and credited. -/
theorem settleCarry_split (l : Ledger) (s : Split) (signed : ∀ payee ∈ s.payees, payee.carry ≤ i64Max)
    (covered : ∀ identity, tally identity (s.payees.map fun payee => (payee.identity, payee.carry)) ≤
      l.window.carryOf identity) :
    (l.settleCarry (s.carryDelta fun _ => true)).1.window.carrySum + (s.payees.map Payee.carry).sum ≤
      l.window.carrySum + (s.unpaid.map Unpaid.earned).sum + (s.rebateCredits.map Prod.snd).sum := by
  let debits := (s.payees.filter fun payee => 0 < payee.carry).map fun payee => (payee.identity, payee.carry)
  have some : ∀ entry ∈ debits, 0 < entry.2 := by
    intro entry member
    obtain ⟨payee, kept, rfl⟩ := List.mem_map.mp member
    simpa using (List.mem_filter.mp kept).2
  have sameTally : ∀ identity, tally identity debits =
      tally identity (s.payees.map fun payee => (payee.identity, payee.carry)) := by
    intro identity
    have dropped := tally_filter identity (s.payees.map fun payee => (payee.identity, payee.carry))
      (fun entry => 0 < entry.2) (by intro entry _ none; simpa using none)
    rwa [List.filter_map] at dropped
  have sameSum : (debits.map Prod.snd).sum = (s.payees.map Payee.carry).sum := by
    simp only [debits, List.map_map]
    clear signed covered sameTally some debits
    induction s.payees with
    | nil => rfl
    | cons payee rest ih =>
      by_cases kept : 0 < payee.carry
      · simpa [kept] using ih
      · simpa [kept, Nat.eq_zero_of_not_pos kept] using ih
  have paid := settle_debits debits (l, []) some fun identity => sameTally identity ▸ covered identity
  have raised := Run.foldl_measure_le settleEntry (fun state => state.1.window.carrySum)
    (fun entry => entry.2.toNat) settleEntry_le
  have deferred := sum_credits_le s.unpaid Unpaid.defers Unpaid.identity Unpaid.earned
  have rebated := sum_credits_le s.rebateCredits (fun credit => 0 < credit.2) Prod.fst Prod.snd
  simp only [Ledger.settleCarry, Split.carryDelta, Tides.carryDelta, debits_eq signed]
  rw [List.append_assoc, List.foldl_append]
  refine Nat.le_trans (Nat.add_le_add_right (raised _ _) _) ?_
  rw [List.map_append, List.sum_append]
  simp only [debits, decide_eq_true_eq] at paid sameSum rebated
  omega

/-- The rebate of a split: what it credits out comes from the fees and the owed rebate, which it then
clears; with nobody to credit, the fees' part joins the owed rebate. -/
theorem split_rebate (b : FoundBlock) (rebateOwed : Nat) :
    let s := b.split rebateOwed
    let fromFee := b.params.fromFee b.miners b.totalWork b.value
    (s.rebateCredits = [] ∧ s.rebateDelta = clampI64 fromFee) ∨
      ((s.rebateCredits.map Prod.snd).sum ≤ fromFee + rebateOwed ∧ s.rebateDelta = -clampI64 rebateOwed) := by
  intro s fromFee
  have credited : s.rebateOwedCredited = if s.rebateCredits = [] then 0 else rebateOwed := rfl
  have deferred : s.rebateDeferred = if s.rebateCredits = [] then fromFee else 0 := rfl
  by_cases nobody : s.rebateCredits = []
  · rw [if_pos nobody] at credited deferred
    exact .inl ⟨nobody, by simp [Split.rebateDelta, Tides.rebateDelta, credited, deferred]⟩
  · rw [if_neg nobody] at credited deferred
    refine .inr ⟨?_, by simp [Split.rebateDelta, Tides.rebateDelta, credited, deferred]⟩
    have shared : s.rebateCredits = if b.params.rebates b.miners then (rebateCredits b.miners
        (satAdd fromFee rebateOwed) (rebateScript b.miners b.scriptFor)).1 else [] := rfl
    by_cases rebates : b.params.rebates b.miners
    · rw [shared, if_pos rebates]
      exact Nat.le_trans (sum_rebateCredits_le _ _ _) satAdd_le
    · rw [if_neg rebates] at shared
      exact absurd shared nobody

private theorem find_owes_le {l : Ledger} {b : FoundBlock} (ready : l.Ready b) :
    (l.find b).window.owes ≤ l.window.owes + (b.split l.window.rebateOwed).poolSats := by
  let s := b.split l.window.rebateOwed
  let fromFee := b.params.fromFee b.miners b.totalWork b.value
  have value : b.value ≤ u64Max := Nat.le_trans ready.value (by decide)
  obtain ⟨sums, -⟩ := compute_sums l.window.rebateOwed b.now b.scriptFor ready.bounded ready.worked value
  have lines := compute_earned_le b.miners b.totalWork b.value b.params l.window.rebateOwed b.now b.scriptFor
  have earnings := SplitParams.sum_earned_add_fromFee_le ready.bounded ready.worked b.value
  have signed : ∀ payee ∈ s.payees, payee.carry ≤ i64Max := by
    intro payee member
    have one : payee.sats ≤ s.paidSats :=
      List.single_le_sum (fun _ _ => Nat.zero_le _) _ (List.mem_map_of_mem member)
    obtain ⟨_, -, -, sats, -⟩ := compute_payee member
    have inRange := ready.value
    change s.paidSats + s.poolSats = b.value at sums
    omega
  have settled := settleCarry_split l s signed fun identity =>
    Nat.le_trans (compute_carry_le _ _ _ _ _ _ _ identity) (ready.balances identity)
  obtain ⟨rebate, same⟩ := settleRebate_owed (l.settleCarry (s.carryDelta fun _ => true)).1 s.rebateDelta
  have kept : (l.settleCarry (s.carryDelta fun _ => true)).1.window.rebateOwed = l.window.rebateOwed :=
    rebateOwed_settleCarry l _
  rw [kept] at rebate
  have after : (l.find b).window.owes = ((l.settleCarry (s.carryDelta fun _ => true)).1.settleRebate
      s.rebateDelta).1.window.carrySum + ((l.settleCarry (s.carryDelta fun _ => true)).1.settleRebate
      s.rebateDelta).1.window.rebateOwed := rfl
  have before : l.window.owes = l.window.carrySum + l.window.rebateOwed := rfl
  rw [after, before, same]
  change s.paidSats + s.poolSats = b.value at sums
  change s.paidSats + (s.unpaid.map Unpaid.earned).sum ≤ _ + (s.payees.map Payee.carry).sum at lines
  change _ ≤ _ + s.poolSats
  rcases split_rebate b l.window.rebateOwed with ⟨nobody, delta⟩ | ⟨credited, delta⟩
  · have none : (s.rebateCredits.map Prod.snd).sum = 0 := by rw [show s.rebateCredits = [] from nobody]; rfl
    have most := clampI64_le (n := fromFee)
    have least := clampI64_nonneg (n := fromFee)
    change s.rebateDelta = clampI64 fromFee at delta
    omega
  · change (s.rebateCredits.map Prod.snd).sum ≤ fromFee + l.window.rebateOwed at credited
    change s.rebateDelta = -clampI64 l.window.rebateOwed at delta
    rw [clampI64_eq ready.rebateOwed] at delta
    omega

/-- The pool's own outputs over a run of blocks. -/
def poolTotal : Ledger → List FoundBlock → Nat
  | _, [] => 0
  | l, b :: rest => (b.split l.window.rebateOwed).poolSats + poolTotal (l.find b) rest

private theorem run_owes_le {l : Ledger} {blocks : List FoundBlock}
    (ready : Run.Along Ledger.Ready Ledger.find l blocks) :
    (blocks.foldl Ledger.find l).window.owes ≤ l.window.owes + poolTotal l blocks := by
  induction blocks generalizing l with
  | nil => exact Nat.le_refl _
  | cons b rest ih =>
    have here := find_owes_le ready.1
    have later := ih ready.2
    rw [List.foldl_cons, poolTotal]
    omega

/-- The pool stays solvent. Over a run of blocks each found on books it is ready for, what the books
owe after any prefix has grown by no more than the pool's outputs in it; and in each block the
pool's output covers the growth of carry and of the owed rebate. -/
theorem pool_stays_solvent (start : Ledger) (blocks : List FoundBlock)
    (ready : Run.Along Ledger.Ready Ledger.find start blocks) :
    (∀ done, done <+: blocks → (done.foldl Ledger.find start).window.carrySum +
      (done.foldl Ledger.find start).window.rebateOwed ≤
        start.window.carrySum + start.window.rebateOwed + poolTotal start done) ∧
      ∀ done b later, blocks = done ++ b :: later →
        let l := done.foldl Ledger.find start
        0 ≤ ((b.split l.window.rebateOwed).poolSats : Int) - ((l.find b).window.carrySum - l.window.carrySum) -
          ((l.find b).window.rebateOwed - l.window.rebateOwed) := by
  refine ⟨?_, ?_⟩
  · rintro done ⟨later, rfl⟩
    exact run_owes_le (Run.along_append.mp ready).1
  · rintro done b later rfl l
    have covered : (l.find b).window.owes ≤ l.window.owes + (b.split l.window.rebateOwed).poolSats :=
      find_owes_le (Run.along_append.mp ready).2.1
    simp only [Window.owes] at covered
    omega

/-- A block that pays a waiting balance out of the pool's remainder. -/
theorem pool_stays_solvent_small_balance :
    let start : Ledger := { window := Window.setCarry {} "small" 500 }
    let b : FoundBlock :=
      { miners := [{ identity := "large", work := 900, stratumWork := 900 },
          { identity := "small", work := 100, carry := 500 }]
        totalWork := 1000
        value := 100000
        params := { stratumFeeBps := 200, datumRebateBps := 100 }
        scriptFor := fun _ => some [] }
    start.Ready b ∧ (start.find b).window.carrySum + (start.find b).window.rebateOwed ≤
      start.window.carrySum + start.window.rebateOwed + poolTotal start [b] := by
  intro start b
  have ready : start.Ready b := by
    refine ⟨by decide, by decide, by decide, by decide, fun identity => ?_⟩
    have carry : start.window.carryOf identity = if identity = "small" then 500 else 0 := by
      rw [show start.window.carryOf identity = _ from carryOf_fileCarry {} "small" identity 500]
      rfl
    rw [carry]
    by_cases same : identity = "small"
    · simp [b, same]
    · simp [b, same, Ne.symm same]
  exact ⟨ready, (pool_stays_solvent start [b] ⟨ready, trivial⟩).1 [b] List.prefix_rfl⟩

/-- Past the signed range it fails: an owed rebate of 2^63 + 10 sats is credited out whole but
comes off the books only in part, and the block of value zero leaves the books owing more. -/
theorem insolvent_past_signed_range :
    ¬ ∀ (l : Ledger) (b : FoundBlock), (b.miners.map MinerStat.work).sum = b.totalWork → 0 < b.totalWork →
      b.params.Bounded → b.value ≤ u64Max → (b.miners.map MinerStat.identity).Nodup →
      (∀ m ∈ b.miners, m.carry = l.window.carryOf m.identity) →
      0 ≤ ((b.split l.window.rebateOwed).poolSats : Int) - ((l.find b).window.carrySum - l.window.carrySum) -
        ((l.find b).window.rebateOwed - l.window.rebateOwed) := by
  intro always
  have covered := always { window := { rebateOwed := 2 ^ 63 + 10 } }
    { miners := [{ identity := "one", work := 1 }, { identity := "two", work := 1 }]
      totalWork := 2
      value := 0
      params := { stratumFeeBps := 1, datumRebateBps := 1 }
      scriptFor := fun _ => some [] } (by decide) (by decide) (by decide) (by decide) (by decide) (by decide)
  revert covered
  decide

end Blocks

end Lazarus.Tides
