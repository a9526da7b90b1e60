import Lazarus.Primed.Settle
import Lazarus.Tides.RebateShare

/-! The rebate that found blocks credit, over orphanings and returns. A block's rebate credits rest on
the rebate out of its own fees and on the owed rebate it drew; the credits are fixed when the
candidate is booked, the drawing is done again when an orphan returns. -/

namespace Lazarus.Primed

open Machine Tides Wire

section Issuing

/-- A coinbaser as it was issued: the split of a window at some earlier moment, when `rebateOwed` was
owed. A window lists an identity once. -/
structure Issued where
  found : FoundBlock
  rebateOwed : Nat
  classCapped : Bool := false
  distinct : (found.miners.map MinerStat.identity).Nodup

namespace Issued

def split (i : Issued) : Split := i.found.split i.rebateOwed

def coinbaser (i : Issued) : Coinbaser where
  value := i.found.value
  payees := i.split.payees
  unpaid := i.split.unpaid
  rebateCredits := i.split.rebateCredits
  rebateOwedCredited := i.split.rebateOwedCredited
  rebateDeferred := i.split.rebateDeferred
  classCapped := i.classCapped

/-- The rebate out of the block's own stratum fees. -/
def own (i : Issued) : Nat := i.found.params.fromFee i.found.miners i.found.totalWork i.found.value

/-- The adjustments that are no rebate: carry paid out, and earnings that could not be placed. -/
def base (i : Issued) : List (String × Int) := Tides.carryDelta i.split.payees i.split.unpaid [] fun _ => true

/-- The earnings among them. -/
def deferred (i : Issued) : Nat := gain i.base

end Issued

private theorem rebateCredits_sublist (miners : List MinerStat) (pot : Nat)
    (scriptFor : String → Option Script) :
    ((rebateCredits miners pot scriptFor).1.map Prod.fst).Sublist (miners.map MinerStat.identity) := by
  unfold rebateCredits
  split
  · exact List.nil_sublist _
  · simp only
    split
    · exact List.nil_sublist _
    · refine (List.filter_sublist.map Prod.fst).trans ?_
      rw [List.map_map]
      exact List.filter_sublist.map MinerStat.identity

namespace Issued

variable (i : Issued)

private theorem credits_eq :
    i.split.rebateCredits = if i.found.params.rebates i.found.miners then
      (rebateCredits i.found.miners (satAdd i.own i.rebateOwed)
        (rebateScript i.found.miners i.found.scriptFor)).1
    else [] := rfl

theorem credits_positive : ∀ credit ∈ i.split.rebateCredits, 0 < credit.2 ∧ credit.2 ≤ u64Max := by
  rw [credits_eq]
  split
  · exact fun credit member => mem_rebateCredits member
  · simp

theorem credits_distinct : (i.split.rebateCredits.map Prod.fst).Nodup := by
  rw [credits_eq]
  split
  · exact (rebateCredits_sublist _ _ _).nodup i.distinct
  · simp

/-- The credits come out of the block's own fees and the rebate owed when it was issued. -/
theorem sum_credits_le :
    (i.split.rebateCredits.map Prod.snd).sum ≤ i.own + i.split.rebateOwedCredited := by
  have credited : i.split.rebateOwedCredited = if i.split.rebateCredits = [] then 0 else i.rebateOwed := rfl
  by_cases nobody : i.split.rebateCredits = []
  · simp [nobody]
  · rw [credited, if_neg nobody, credits_eq]
    split
    · exact Nat.le_trans (sum_rebateCredits_le _ _ _) satAdd_le
    · exact Nat.zero_le _

/-- A block's adjustments end in its rebate credits. -/
theorem carryDelta_eq : i.coinbaser.carryDelta = i.base ++ i.split.rebateCredits.map entryOf := by
  have all : i.split.rebateCredits.filterMap
      (fun credit => if 0 < credit.2 then some (credit.1, clampI64 credit.2) else none) =
      i.split.rebateCredits.map entryOf := by
    rw [← List.filterMap_eq_map]
    apply List.filterMap_congr
    intro credit member
    simp [i.credits_positive credit member, entryOf]
  simp only [Coinbaser.carryDelta, Tides.carryDelta, coinbaser, base, all, List.filterMap_nil, List.append_nil]

end Issued

end Issuing

section Booking

/-- A block mined on an issued coinbaser and worth what it was priced for. -/
structure Mined where
  issued : Issued
  ts : Nat := 0
  height : Nat := 0
  hash : String
  finder : String := ""
  gateway : String := ""
  coinbaseKind : CoinbaseKind
  coinbaseValue : Nat
  coinbase : Coinbase
  paidToPool : Nat := 0
  matched : rewardMatches coinbaseValue issued.found.value

def Mined.candidate (m : Mined) : Candidate :=
  { m with issued := some m.issued.coinbaser }

/-- A pool-only coinbase is always priced for the reward it carried. This one carried exactly what its
coinbaser was priced for. -/
def Mined.Priced (m : Mined) : Prop :=
  m.coinbaseKind = .poolOnly → m.issued.found.value = 0 ∨ m.coinbaseValue = m.issued.found.value

instance (m : Mined) : Decidable m.Priced := inferInstanceAs (Decidable (_ → _ ∨ _))

private theorem scale_same {sats value issuedValue : Nat} (same : issuedValue = 0 ∨ value = issuedValue)
    (fits : sats ≤ u64Max) : scale sats value issuedValue = sats := by
  unfold scale
  split
  · rfl
  · rename_i some
    rw [same.resolve_left some, Nat.mul_div_cancel _ (Nat.pos_of_ne_zero some), asU64_eq fits]

private theorem carryDelta_signed {payees : List Payee} {unpaid : List Unpaid} {credits : List (String × Nat)}
    {entry : String × Int} (member : entry ∈ Tides.carryDelta payees unpaid credits fun _ => true) :
    entry.2 ≤ i64Max := by
  have clamped : ∀ sats, clampI64 sats ≤ i64Max := fun sats => Int.ofNat_le.mpr (Nat.min_le_right _ _)
  simp only [Tides.carryDelta, List.mem_append, List.mem_filterMap, Option.ite_none_right_eq_some,
    Option.some.injEq] at member
  rcases member with (⟨payee, _, _, rfl⟩ | ⟨unplaced, _, _, rfl⟩) | ⟨credit, _, _, rfl⟩
  · have some := clampI64_nonneg (n := payee.carry)
    show -clampI64 payee.carry ≤ i64Max
    omega
  · exact clamped _
  · exact clamped _

/-- A block priced for what it was worth either moves nothing, or moves what its coinbaser says. -/
theorem Mined.figures (m : Mined) (priced : m.Priced) :
    (m.candidate.settlement.carryDelta = [] ∧ m.candidate.settlement.rebateCredits = []) ∨
      m.candidate.settlement.carryDelta = m.issued.coinbaser.carryDelta ∧
        m.candidate.settlement.rebateCredits = m.issued.coinbaser.rebateCredits := by
  have matched := m.matched
  have value : m.issued.coinbaser.value = m.issued.found.value := rfl
  cases kind : m.coinbaseKind with
  | split =>
    right
    simp [Candidate.settlement, candidate, settle, Candidate.coinbaser, kind, value, matched,
      Coinbaser.settleAsIssued]
  | partialSplit present =>
    right
    simp [Candidate.settlement, candidate, settle, Candidate.coinbaser, kind, value, matched,
      Coinbaser.settleAsIssued]
  | poolOnly =>
    right
    simp only [Candidate.settlement, candidate, settle, Candidate.coinbaser, kind, value,
      Coinbaser.settleRescaled, Bool.not_true, Bool.false_and, Bool.false_eq_true, ↓reduceIte]
    constructor
    · nth_rewrite 2 [← List.map_id m.issued.coinbaser.carryDelta]
      apply List.map_congr_left
      intro entry member
      have signed := carryDelta_signed member
      split
      · rename_i positive
        have size : entry.2.toNat ≤ i64Max := by omega
        have fits : entry.2.toNat ≤ u64Max := Nat.le_trans size (by decide)
        rw [scale_same (priced kind) fits, clampI64_eq size, Int.toNat_of_nonneg (Int.le_of_lt positive)]
        rfl
      · rfl
    · nth_rewrite 2 [← List.map_id m.issued.coinbaser.rebateCredits]
      apply List.map_congr_left
      intro credit member
      rw [scale_same (priced kind) (m.issued.credits_positive credit member).2]
      rfl
  | emptySolo => exact .inl (by simp [Candidate.settlement, candidate, settle, kind])
  | gatewaySolo => exact .inl (by simp [Candidate.settlement, candidate, settle, kind])
  | foreign => exact .inl (by simp [Candidate.settlement, candidate, settle, kind])

/-- A mined block with the record there is of it. -/
structure Booked where
  mined : Mined
  record : BlockRecord

namespace Booked

/-- The rebate credits in the adjustments on record. -/
def rebateCredit (b : Booked) : Nat := gain b.record.carryDelta - b.mined.issued.deferred

/-- The owed rebate the block has drawn. -/
def rebateDrawn (b : Booked) : Nat := (b.record.books.map Books.rebateDebited).getD 0

/-- The block's credits rest on its own fees' rebate and the owed rebate it credits out, and while its
debits are on, on what it has drawn of that. -/
def Backed (b : Booked) : Prop :=
  ∃ books, b.record.books = some books ∧
    b.rebateCredit ≤ b.mined.issued.own + min books.rebateOwedCredited i64Max ∧
    (books.debitsLive = true → b.rebateCredit ≤ b.mined.issued.own + books.rebateDebited) ∧
    (books.creditsLive = true → books.debitsLive = true)

end Booked

/-- The adjustments of a capped record put on no more than the earnings, the rebate out of the block's
own fees, and the owed rebate it drew. -/
theorem gain_capped_le (m : Mined) (priced : m.Priced) (books : Books) :
    gain (m.candidate.capped books).1 ≤ m.issued.deferred + m.issued.own +
      min books.rebateDebited m.issued.split.rebateOwedCredited := by
  have capped : (m.candidate.capped books).1 =
      if books.rebateDebited < m.issued.split.rebateOwedCredited then
        (capRebateToOwedDrawn m.candidate.settlement.carryDelta m.candidate.settlement.rebateCredits
          m.issued.split.rebateOwedCredited books.rebateDebited).1
      else m.candidate.settlement.carryDelta := apply_ite Prod.fst _ _ _
  rw [capped]
  rcases m.figures priced with ⟨nothing, noCredits⟩ | ⟨delta, credits⟩
  · rw [nothing, noCredits]
    split <;> simp [capRebateToOwedDrawn, capRebateCredits]
  · have planned := m.issued.sum_credits_le
    have entries := gain_entries_le m.issued.split.rebateCredits
    rw [delta, credits, m.issued.carryDelta_eq]
    split
    · rename_i stale
      have held := gain_capRebateCredits m.issued.base
        (fun credit member => (m.issued.credits_positive credit member).1) m.issued.credits_distinct
        ((m.issued.split.rebateCredits.map Prod.snd).sum -
          (m.issued.split.rebateOwedCredited - books.rebateDebited))
      refine Nat.le_trans held.2 ?_
      rw [Nat.min_eq_left (Nat.le_of_lt stale)]
      simp only [Issued.deferred]
      omega
    · rename_i current
      rw [gain_append, Nat.min_eq_right (Nat.le_of_not_lt current)]
      simp only [Issued.deferred]
      omega

/-- A candidate is booked with credits that its drawing backs. -/
theorem Mined.book_backed (m : Mined) (priced : m.Priced) (l : Ledger) :
    Booked.Backed ⟨m, (m.candidate.book l).2⟩ := by
  cases moves : m.candidate.settles with
  | false =>
    have empty : m.candidate.settlement.carryDelta = [] := by
      simp only [Candidate.settles, Bool.or_eq_false_iff] at moves
      simpa using moves.1.1
    refine ⟨m.candidate.opened, by simp [Candidate.book, moves, Candidate.record], ?_, ?_, ?_⟩
    · simp [Booked.rebateCredit, Candidate.book, moves, Candidate.record, empty]
    · simp [Booked.rebateCredit, Candidate.book, moves, Candidate.record, empty]
    · simp [m.candidate.opened_unbooked]
  | true =>
    obtain ⟨unbooked, uncredited⟩ := m.candidate.opened_unbooked
    have owed : m.candidate.opened.rebateOwedCredited = m.issued.split.rebateOwedCredited := by
      simp only [Candidate.opened, moves, ↓reduceIte]
      rfl
    obtain ⟨debited, shortfall, rebateDebited, frame⟩ :=
      bookDebits_frame l m.candidate.settlement.carryDelta m.candidate.opened
    have drawn := bookDebits_rebateDebited l m.candidate.settlement.carryDelta m.candidate.opened unbooked
    have most := gain_capped_le m priced (l.bookDebits m.candidate.settlement.carryDelta m.candidate.opened).2
    have record : (m.candidate.book l).2.carryDelta =
        (m.candidate.capped (l.bookDebits m.candidate.settlement.carryDelta m.candidate.opened).2).1 := by
      simp [Candidate.book, moves, Candidate.record]
    refine ⟨(l.bookDebits m.candidate.settlement.carryDelta m.candidate.opened).2,
      by simp [Candidate.book, moves, Candidate.record], ?_, ?_, ?_⟩
    · rw [Booked.rebateCredit, record]
      simp only [frame, owed] at drawn most ⊢
      omega
    · intro _
      rw [Booked.rebateCredit, record]
      simp only [frame, owed] at drawn most ⊢
      omega
    · simp

end Booking

section Runs

/-- What is left of a block's owed rebate for it to draw when its debits are booked again. -/
def Booked.Funded (b : Booked) (l : Ledger) : Update → Prop
  | .settle => b.record.debitsLive = false → b.rebateCredit ≤ b.mined.issued.own + l.window.rebateOwed
  | _ => True

instance (b : Booked) (l : Ledger) : (u : Update) → Decidable (b.Funded l u)
  | .settle => inferInstanceAs (Decidable (_ → _))
  | .submitted _ | .orphan => .isTrue trivial

theorem Booked.Backed.update {b : Booked} (backed : b.Backed) (l : Ledger)
    (u : Update) (funded : b.Funded l u) : Booked.Backed { b with record := (u.apply l b.record).2 } := by
  obtain ⟨books, booked, standing, drawing, ordered⟩ := backed
  obtain ⟨_, delta, rebooked⟩ := u.apply_record l b.record
  have same : Booked.rebateCredit { b with record := (u.apply l b.record).2 } = b.rebateCredit := by
    simp [rebateCredit, delta]
  refine ⟨u.rebook l b.record.carryDelta books, by simp [rebooked, booked], ?_⟩
  rw [same]
  cases u with
  | submitted outcome => exact ⟨standing, drawing, ordered⟩
  | orphan =>
    refine ⟨?_, ?_, ?_⟩
    · simpa [Update.rebook] using standing
    · simp [Update.rebook]
    · simp [Update.rebook]
  | settle =>
    obtain ⟨debited, shortfall, rebateDebited, debitFrame⟩ := bookDebits_frame l b.record.carryDelta books
    obtain ⟨credited, debtPaid, rebateAdded, creditFrame⟩ := bookCredits_frame
      (l.bookDebits b.record.carryDelta books).1 b.record.carryDelta (l.bookDebits b.record.carryDelta books).2
    have live : b.record.debitsLive = books.debitsLive := by simp [BlockRecord.debitsLive, booked]
    simp only [Update.rebook, creditFrame]
    refine ⟨?_, ?_, ?_⟩
    · simpa only [debitFrame] using standing
    · intro _
      cases before : books.debitsLive with
      | true => simpa [Ledger.bookDebits, before] using drawing before
      | false =>
        have enough := funded (live.trans before)
        have drawn := (bookDebits_rebateDebited l b.record.carryDelta books before).1
        omega
    · simp

/-- The ledger and the blocks found on it, each with the coinbaser it was mined on. -/
structure Pool where
  ledger : Ledger
  blocks : List Booked := []

inductive PoolEvent where
  | candidate (m : Mined)
  | update (block : Nat) (u : Update)

namespace Pool

def step (s : Pool) : PoolEvent → Pool
  | .candidate m =>
    let (ledger, record) := m.candidate.book s.ledger
    { ledger, blocks := s.blocks ++ [⟨m, record⟩] }
  | .update i u =>
    match s.blocks[i]? with
    | none => s
    | some b =>
      let (ledger, record) := u.apply s.ledger b.record
      { ledger, blocks := s.blocks.set i { b with record } }

/-- A pool-only block carries what it was priced for, and a block that books its debits again finds
the owed rebate its credits rest on. -/
def Backing (s : Pool) : PoolEvent → Prop
  | .candidate m => m.Priced
  | .update i u => ∀ b ∈ s.blocks[i]?, b.Funded s.ledger u

instance (s : Pool) : (e : PoolEvent) → Decidable (s.Backing e)
  | .candidate m => inferInstanceAs (Decidable m.Priced)
  | .update _ _ => inferInstanceAs (Decidable (∀ b ∈ _, _))

/-- Blocks with their credits on the ledger. -/
def live (s : Pool) : List Booked := s.blocks.filter fun b => b.record.creditsLive

theorem step_backed (s : Pool) (e : PoolEvent) (backed : ∀ b ∈ s.blocks, b.Backed) (backing : s.Backing e) :
    ∀ b ∈ (s.step e).blocks, b.Backed := by
  cases e with
  | candidate m =>
    intro b member
    rcases List.mem_append.mp member with earlier | new
    · exact backed b earlier
    · rw [List.mem_singleton.mp new]
      exact m.book_backed backing s.ledger
  | update i u =>
    intro b member
    simp only [step] at member
    split at member
    · exact backed b member
    · rename_i before found
      rcases List.mem_or_eq_of_mem_set member with earlier | same
      · exact backed b earlier
      · rw [same]
        exact (backed before (List.mem_of_getElem? found)).update s.ledger u (backing before found)

theorem Backed.live {b : Booked} (backed : b.Backed) (live : b.record.creditsLive = true) :
    b.rebateCredit ≤ b.mined.issued.own + b.rebateDrawn := by
  obtain ⟨books, booked, _, drawing, ordered⟩ := backed
  have credited : books.creditsLive = true := by simpa [BlockRecord.creditsLive, booked] using live
  simpa [Booked.rebateDrawn, booked] using drawing (ordered credited)

/-- Over every run of candidates, settlings, orphanings and returns in which no block books its debits
again without the owed rebate its credits rest on: the rebate credits of the blocks on the ledger are
covered by the rebates out of their own fees and the owed rebate they have drawn. -/
theorem rebate_conserved (ledger : Ledger) (run : List PoolEvent)
    (backing : Run.Along Backing step { ledger } run) :
    let s := run.foldl step { ledger }
    (s.live.map Booked.rebateCredit).sum ≤
      (s.live.map fun b => b.mined.issued.own).sum + (s.live.map Booked.rebateDrawn).sum := by
  intro s
  have backed : ∀ b ∈ s.blocks, b.Backed :=
    Run.foldl_invariant (fun s : Pool => ∀ b ∈ s.blocks, b.Backed) step_backed backing (by simp)
  rw [← List.sum_map_add]
  apply List.sum_le_sum
  intro b member
  obtain ⟨found, live⟩ := List.mem_filter.mp member
  exact Backed.live (backed b found) live

/-- A coinbaser that hands a thousand sats of owed rebate to the window's one miner. -/
def thousandOwed : Issued where
  found :=
    { miners := [{ identity := "datum", work := 10 }]
      totalWork := 10
      value := 1000
      params := { feeBps := 100, datumRebateBps := 50 }
      scriptFor := fun _ => some [0x51] }
  rebateOwed := 1000
  distinct := by decide

def minedOnThousand (hash : String) : Mined where
  issued := thousandOwed
  hash
  coinbaseKind := .split
  coinbaseValue := 1000
  coinbase := { outputs := [⟨1000, [0x51]⟩] }
  matched := by decide

/-- Two blocks on one coinbaser: the second finds the owed rebate drawn, and is capped. -/
theorem rebate_conserved_stale_coinbaser :
    let run := [PoolEvent.candidate (minedOnThousand "a"), .candidate (minedOnThousand "b"),
      .update 0 .settle, .update 1 .settle]
    let s := run.foldl step { ledger := { window := { rebateOwed := 1000 } } }
    (s.live.map Booked.rebateCredit).sum ≤
      (s.live.map fun b => b.mined.issued.own).sum + (s.live.map Booked.rebateDrawn).sum ∧
      s.live.length = 2 ∧ (s.live.map Booked.rebateCredit).sum = 1000 := by
  intro run s
  exact ⟨rebate_conserved _ run (by decide), by decide⟩

/-- The first block is orphaned, the second draws what it gave back, and the first returns with its
credit of a thousand sats and draws nothing: two thousand sats credited for a thousand drawn. -/
theorem rebate_credited_twice :
    let run := [PoolEvent.candidate (minedOnThousand "a"), .update 0 .orphan, .candidate (minedOnThousand "b"),
      .update 1 .settle, .update 0 .settle]
    let s := run.foldl step { ledger := { window := { rebateOwed := 1000 } } }
    (s.live.map Booked.rebateCredit).sum = 2000 ∧ (s.live.map fun b => b.mined.issued.own).sum = 0 ∧
      (s.live.map Booked.rebateDrawn).sum = 1000 ∧ s.ledger.window.carryOf "datum" = 2000 := by
  decide

end Pool

end Runs

end Lazarus.Primed
