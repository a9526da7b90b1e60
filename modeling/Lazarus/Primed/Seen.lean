import Lazarus.Lib.Along
import Lazarus.Lib.Tally
import Lazarus.Primed.Tip

/-! The share set: every hash that was credited, by block height, across all sessions, and the way of a
share through the chain check and the set while the tip moves and housekeeping forgets old heights. -/

namespace Lazarus.Primed

open Wire

/-- Every share hash credited, by block height. -/
structure SeenShares where
  byHeight : AList fun _ : Nat => Finset Hash := ∅
  total : Nat := 0

inductive Seen where
  | fresh
  | duplicate
  | full
deriving DecidableEq

namespace SeenShares

/-- Distinct credited shares kept per height. -/
def maxPerHeight : Nat := 1000000

/-- Across all heights still retained. -/
def maxTotal : Nat := 2500000

def insert (s : SeenShares) (height : Nat) (hash : Hash) : SeenShares × Seen :=
  let set := (s.byHeight.lookup height).getD ∅
  let s := { s with byHeight := s.byHeight.insert height set }
  if hash ∈ set then (s, .duplicate)
  else if maxPerHeight ≤ set.card ∨ maxTotal ≤ s.total then (s, .full)
  else ({ byHeight := s.byHeight.insert height (Insert.insert hash set), total := s.total + 1 }, .fresh)

/-- Forget one height. -/
def forget (s : SeenShares) (height : Nat) : SeenShares :=
  match s.byHeight.lookup height with
  | none => s
  | some set => { byHeight := s.byHeight.erase height, total := s.total - set.card }

/-- Forget every height below `minHeight`, from the lowest up. -/
def pruneBelow (s : SeenShares) (minHeight : Nat) : SeenShares :=
  ((s.byHeight.keys.filter fun height => height < minHeight).insertionSort (· ≤ ·)).foldl forget s

/-- The hash is in the set of this height. -/
def Has (s : SeenShares) (height : Nat) (hash : Hash) : Prop := hash ∈ (s.byHeight.lookup height).getD ∅

/-- The count is that of the sets, and within the limit. -/
structure Counted (s : SeenShares) : Prop where
  total : s.total = Tally.total Finset.card s.byHeight
  within : s.total ≤ maxTotal

theorem counted_empty : ({} : SeenShares).Counted := ⟨rfl, Nat.zero_le _⟩

theorem has_of_lookup {s s' : SeenShares} {height : Nat} {hash : Hash}
    (same : s'.byHeight.lookup height = s.byHeight.lookup height) : s'.Has height hash ↔ s.Has height hash := by
  unfold Has
  rw [same]

/-- Touching a height changes nothing that is in the sets. -/
theorem has_touch {s : SeenShares} (height other : Nat) (hash : Hash) (total : Nat) :
    Has ⟨s.byHeight.insert height ((s.byHeight.lookup height).getD ∅), total⟩ other hash ↔
      s.Has other hash := by
  unfold Has
  by_cases same : other = height
  · subst same
    simp
  · rw [AList.lookup_insert_ne same]

theorem total_touch {s : SeenShares} (height : Nat) :
    Tally.total Finset.card (s.byHeight.insert height ((s.byHeight.lookup height).getD ∅)) =
      Tally.total Finset.card s.byHeight := by
  have moved := Tally.total_insert Finset.card s.byHeight height ((s.byHeight.lookup height).getD ∅)
  cases found : s.byHeight.lookup height with
  | none => simpa [found] using moved
  | some set => simpa [found] using moved

/-- What an insertion does: a hash is fresh once, and then it is there. -/
theorem insert_spec (s : SeenShares) (height : Nat) (hash : Hash) :
    ((s.insert height hash).2 = .fresh ∧ ¬ s.Has height hash ∧ (s.insert height hash).1.Has height hash ∨
        (s.insert height hash).2 ≠ .fresh) ∧
      ∀ other known, s.Has other known → (s.insert height hash).1.Has other known := by
  unfold insert
  simp only
  split
  · exact ⟨.inr (by simp), fun other known => (has_touch height other known s.total).mpr⟩
  · rename_i absent
    split
    · exact ⟨.inr (by simp), fun other known => (has_touch height other known s.total).mpr⟩
    · refine ⟨.inl ⟨rfl, absent, by simp [Has]⟩, ?_⟩
      intro other known present
      unfold Has at present ⊢
      by_cases same : other = height
      · subst same
        simp only [AList.lookup_insert, Option.getD_some]
        exact Finset.mem_insert_of_mem present
      · rw [AList.lookup_insert_ne same, AList.lookup_insert_ne same]
        exact present

theorem Counted.insert {s : SeenShares} (counted : s.Counted) (height : Nat) (hash : Hash) :
    (s.insert height hash).1.Counted := by
  unfold SeenShares.insert
  simp only
  split
  · exact ⟨counted.total.trans (total_touch height).symm, counted.within⟩
  · rename_i absent
    split
    · exact ⟨counted.total.trans (total_touch height).symm, counted.within⟩
    · rename_i room
      constructor
      · have moved := Tally.total_insert Finset.card
          (s.byHeight.insert height ((s.byHeight.lookup height).getD ∅)) height
          (Insert.insert hash ((s.byHeight.lookup height).getD ∅))
        rw [AList.lookup_insert, Option.map_some, Option.getD_some, total_touch,
          Finset.card_insert_of_notMem absent, ← counted.total] at moved
        have grown : s.total + (((s.byHeight.lookup height).getD ∅).card + 1) =
            s.total + 1 + ((s.byHeight.lookup height).getD ∅).card := by omega
        exact (Nat.add_right_cancel (moved.trans grown)).symm
      · show s.total + 1 ≤ maxTotal
        omega

theorem Counted.forget {s : SeenShares} (counted : s.Counted) (height : Nat) : (s.forget height).Counted := by
  unfold SeenShares.forget
  split
  · exact counted
  · rename_i set found
    have moved := Tally.total_erase Finset.card s.byHeight height
    rw [found, Option.map_some, Option.getD_some, ← counted.total] at moved
    constructor
    · exact Nat.sub_eq_of_eq_add moved.symm
    · exact Nat.le_trans (Nat.sub_le _ _) counted.within

theorem Counted.pruneBelow {s : SeenShares} (counted : s.Counted) (minHeight : Nat) :
    (s.pruneBelow minHeight).Counted :=
  Run.foldl_kept SeenShares.forget Counted (fun _ height before => before.forget height) _ counted

theorem lookup_forget (s : SeenShares) {height other : Nat} (different : other ≠ height) :
    (s.forget height).byHeight.lookup other = s.byHeight.lookup other := by
  unfold forget
  split
  · rfl
  · exact AList.lookup_erase_ne different

/-- A height at or past the bound keeps its set. -/
theorem has_pruneBelow {s : SeenShares} {minHeight height : Nat} (kept : minHeight ≤ height) (hash : Hash) :
    (s.pruneBelow minHeight).Has height hash ↔ s.Has height hash := by
  apply has_of_lookup
  apply Run.foldl_mem forget (fun later => later.byHeight.lookup height = s.byHeight.lookup height) ?_ rfl
  intro later low member before
  have listed := (List.mem_filter.mp ((List.mem_insertionSort _).mp member)).2
  have below : low < minHeight := of_decide_eq_true listed
  rw [lookup_forget later (by omega), before]

end SeenShares

/-- What of a submitted share the chain check and the set read. Its height is the one inside the coinbase
that its hash commits to. -/
structure Share where
  hash : Hash
  prevHash : Hash
  nbits : UInt32
deriving DecidableEq

/-- A share that the chain check took and that has not come to the set yet. It is overtaken when
housekeeping forgets its height in between. -/
structure Waiting where
  share : Share
  overtaken : Bool := false
deriving DecidableEq

/-- Prime's side of every session: the tip as last published, the share set, the shares on their way to
it, the bound housekeeping has read off the tip, the highest tip so far, and the hashes that passed. -/
structure Intake where
  tip : Option Tip := none
  seen : SeenShares := {}
  waiting : List Waiting := []
  bound : Option Nat := none
  highest : Nat := 0
  fresh : List Hash := []

/-- One step of any session, of the node poller or of housekeeping. -/
inductive IntakeOp where
  | refresh (tip : Tip)
  | check (share : Share) (grace now : Nat)
  | insert (i : Nat)
  | refuse (i : Nat)
  | look
  | prune

namespace Intake

variable (heightOf : Hash → Nat)

/-- The chain check. Until the node has answered once there is no chain to hold a job to. -/
def takes (s : Intake) (share : Share) (grace now : Nat) : Bool :=
  match s.tip with
  | none => true
  | some tip => tip.takes share.prevHash (heightOf share.hash) share.nbits grace now

def step (s : Intake) : IntakeOp → Intake
  | .refresh tip => { s with tip := some tip, highest := max s.highest tip.height }
  | .check share grace now =>
    if s.takes heightOf share grace now then { s with waiting := s.waiting ++ [{ share }] } else s
  | .insert i =>
    match s.waiting[i]? with
    | none => s
    | some w =>
      let (seen, verdict) := s.seen.insert (heightOf w.share.hash) w.share.hash
      { s with
        seen
        waiting := s.waiting.eraseIdx i
        fresh := if verdict = .fresh then s.fresh ++ [w.share.hash] else s.fresh }
  | .refuse i => { s with waiting := s.waiting.eraseIdx i }
  | .look => { s with bound := s.tip.map fun tip => tip.height - 2 }
  | .prune =>
    match s.bound with
    | none => s
    | some minHeight =>
      { s with
        seen := s.seen.pruneBelow minHeight
        bound := none
        waiting := s.waiting.map fun w =>
          { w with overtaken := w.overtaken || decide (heightOf w.share.hash < minHeight) } }

/-- The tip stays within two of its highest. -/
def Steady (s : Intake) : IntakeOp → Prop
  | .refresh tip => s.highest ≤ tip.height + 2
  | _ => True

/-- The tip stays within two of its highest, and no share comes to the set after its height was
forgotten. -/
def Orderly (s : Intake) : IntakeOp → Prop
  | .refresh tip => s.highest ≤ tip.height + 2
  | .insert i => ∀ w, s.waiting[i]? = some w → w.overtaken = false
  | _ => True

/-- No hash has passed twice: below some height everything may be forgotten, but nothing down there is
taken any more, and from it on every hash that passed is in the set. -/
structure Once (s : Intake) : Prop where
  passed : s.fresh.Nodup
  settled : ∀ tip, s.tip = some tip → tip.height ≤ s.highest ∧ s.highest ≤ tip.height + 2
  unset : s.tip = none → s.highest = 0
  bounded : ∀ minHeight, s.bound = some minHeight → minHeight ≤ s.highest - 2
  kept : ∃ floor, floor ≤ s.highest - 2 ∧
    (∀ hash ∈ s.fresh, floor ≤ heightOf hash → s.seen.Has (heightOf hash) hash) ∧
    ∀ w ∈ s.waiting, w.overtaken = false → floor ≤ heightOf w.share.hash

theorem once_empty : Once heightOf {} :=
  ⟨List.nodup_nil, by simp, by simp, by simp, 0, by simp, by simp, by simp⟩

variable {heightOf} {s : Intake}

theorem Once.refresh (once : Once heightOf s) {tip : Tip} (steady : s.highest ≤ tip.height + 2) :
    Once heightOf (s.step heightOf (.refresh tip)) := by
  obtain ⟨floor, low, held, above⟩ := once.kept
  have higher : s.highest - 2 ≤ max s.highest tip.height - 2 := Nat.sub_le_sub_right (Nat.le_max_left _ _) 2
  refine ⟨once.passed, ?_, by simp [step], ?_, floor, low.trans higher, held, above⟩
  · intro newer published
    cases published
    show tip.height ≤ max s.highest tip.height ∧ max s.highest tip.height ≤ tip.height + 2
    omega
  · intro minHeight read
    exact (once.bounded minHeight read).trans higher

/-- A share that the chain check takes is for a height that nothing has been forgotten at. -/
theorem Once.floor_le (once : Once heightOf s) {share : Share} {grace now floor : Nat}
    (taken : s.takes heightOf share grace now = true) (low : floor ≤ s.highest - 2) :
    floor ≤ heightOf share.hash := by
  unfold takes at taken
  split at taken
  · rename_i none
    have zero := once.unset none
    omega
  · rename_i tip known
    obtain ⟨live, _⟩ := Tip.takes_iff.mp taken
    have near := (once.settled tip known).2
    have range := live.range.1
    omega

theorem Once.check (once : Once heightOf s) (share : Share) (grace now : Nat) :
    Once heightOf (s.step heightOf (.check share grace now)) := by
  simp only [step]
  split
  · rename_i taken
    obtain ⟨floor, low, held, above⟩ := once.kept
    refine ⟨once.passed, once.settled, once.unset, once.bounded, floor, low, held, ?_⟩
    intro w member clear
    rcases List.mem_append.mp member with earlier | last
    · exact above w earlier clear
    · rw [List.mem_singleton.mp last]
      exact once.floor_le taken low
  · exact once

theorem Once.refuse (once : Once heightOf s) (i : Nat) : Once heightOf (s.step heightOf (.refuse i)) := by
  obtain ⟨floor, low, held, above⟩ := once.kept
  exact ⟨once.passed, once.settled, once.unset, once.bounded, floor, low, held,
    fun w member => above w (List.mem_of_mem_eraseIdx member)⟩

theorem Once.insert (once : Once heightOf s) {i : Nat} (orderly : s.Orderly (.insert i)) :
    Once heightOf (s.step heightOf (.insert i)) := by
  simp only [step]
  split
  · exact once
  · rename_i w found
    obtain ⟨floor, low, held, above⟩ := once.kept
    have reach := above w (List.mem_of_getElem? found) (orderly w found)
    obtain ⟨verdict, more⟩ := s.seen.insert_spec (heightOf w.share.hash) w.share.hash
    have rest : ∀ other ∈ s.waiting.eraseIdx i, other.overtaken = false → floor ≤ heightOf other.share.hash :=
      fun other member => above other (List.mem_of_mem_eraseIdx member)
    rcases verdict with ⟨fresh, absent, there⟩ | known
    · simp only [fresh, if_true]
      refine ⟨?_, once.settled, once.unset, once.bounded, floor, low, ?_, rest⟩
      · have new : w.share.hash ∉ s.fresh := fun old => absent (held _ old reach)
        exact List.nodup_append.mpr ⟨once.passed, List.nodup_singleton _, by
          intro a old b single same
          rw [List.mem_singleton.mp single] at same
          exact new (same ▸ old)⟩
      · intro hash member least
        rcases List.mem_append.mp member with old | last
        · exact more _ _ (held hash old least)
        · rw [List.mem_singleton.mp last]
          exact there
    · simp only [known, if_false]
      exact ⟨once.passed, once.settled, once.unset, once.bounded, floor, low,
        fun hash member least => more _ _ (held hash member least), rest⟩

theorem Once.look (once : Once heightOf s) : Once heightOf (s.step heightOf .look) := by
  refine ⟨once.passed, once.settled, once.unset, ?_, once.kept⟩
  intro minHeight read
  obtain ⟨tip, known, rfl⟩ := Option.map_eq_some_iff.mp read
  exact Nat.sub_le_sub_right (once.settled tip known).1 2

theorem Once.prune (once : Once heightOf s) : Once heightOf (s.step heightOf .prune) := by
  simp only [step]
  split
  · exact once
  · rename_i minHeight read
    obtain ⟨floor, low, held, above⟩ := once.kept
    have most := once.bounded minHeight read
    refine ⟨once.passed, once.settled, once.unset, by simp, max floor minHeight,
      Nat.max_le.mpr ⟨low, most⟩, ?_, ?_⟩
    · intro hash member least
      exact (SeenShares.has_pruneBelow (by omega) hash).mpr (held hash member (by omega))
    · intro w member clear
      obtain ⟨old, listed, rfl⟩ := List.mem_map.mp member
      simp only [Bool.or_eq_false_iff, decide_eq_false_iff_not] at clear
      have before := above old listed clear.1
      show max floor minHeight ≤ heightOf old.share.hash
      omega

theorem Once.step (once : Once heightOf s) {op : IntakeOp} (orderly : s.Orderly op) :
    Once heightOf (s.step heightOf op) := by
  cases op with
  | refresh tip => exact once.refresh orderly
  | check share grace now => exact once.check share grace now
  | insert i => exact once.insert orderly
  | refuse i => exact once.refuse i
  | look => exact once.look
  | prune => exact once.prune

/-- Whatever the order of the steps, the set counts itself and stays within its limit. -/
theorem counted_run (heightOf : Hash → Nat) (run : List IntakeOp) :
    (run.foldl (step heightOf) {}).seen.Counted := by
  apply Run.foldl_kept (step heightOf) (fun s => s.seen.Counted) ?_ run SeenShares.counted_empty
  intro s op counted
  cases op with
  | refresh tip => exact counted
  | check share grace now =>
    simp only [step]
    split
    · exact counted
    · exact counted
  | insert i =>
    simp only [step]
    split
    · exact counted
    · exact counted.insert _ _
  | refuse i => exact counted
  | look => exact counted
  | prune =>
    simp only [step]
    split
    · exact counted
    · exact counted.pruneBelow _

/-- While the tip stays within two of its highest, and no share comes to the set after housekeeping has
forgotten its height, no hash passes twice; and the set counts itself and stays within its limit. -/
theorem hash_passes_once (heightOf : Hash → Nat) {run : List IntakeOp}
    (orderly : Run.Along Orderly (step heightOf) {} run) :
    (run.foldl (step heightOf) {}).fresh.Nodup ∧
      (run.foldl (step heightOf) {}).seen.total =
      Tally.total Finset.card (run.foldl (step heightOf) {}).seen.byHeight ∧
      (run.foldl (step heightOf) {}).seen.total ≤ SeenShares.maxTotal := by
  have once := Run.foldl_invariant (Once heightOf) (fun _ _ once allowed => once.step allowed)
    orderly (once_empty heightOf)
  have counted := counted_run heightOf run
  exact ⟨once.passed, counted.total, counted.within⟩

section Resent

/-- The tip at a height, the target of the block after it known. -/
def tipAt (height : Nat) : Tip := { height, nextBits := some 0x1d00ffff }

/-- One share of height 101, whoever sends it. -/
def share101 : Share := ⟨Fixed.zero 32, Fixed.zero 32, 0x1d00ffff⟩

/-- Two sessions have the share checked, and one brings it to the set. -/
def sentTwice : List IntakeOp := [.refresh (tipAt 100), .check share101 5 0, .check share101 5 0, .insert 0]

/-- The other session brings it right after. -/
def promptly : List IntakeOp := sentTwice ++ [.insert 0]

theorem hash_passes_once_promptly :
    (promptly.foldl (step fun _ => 101) {}).fresh.length = 1 ∧
      (promptly.foldl (step fun _ => 101) {}).fresh.Nodup := by
  have orderly : Run.Along Orderly (step fun _ => 101) {} promptly := by
    refine ⟨Nat.zero_le _, trivial, trivial, ?_, ?_, trivial⟩
    · intro w found
      cases found
      rfl
    · intro w found
      cases found
      rfl
  exact ⟨by decide, (hash_passes_once _ orderly).1⟩

/-- Four blocks arrive and housekeeping runs while the other session still waits for the node's word on
the share's parent. -/
def delayed : List IntakeOp :=
  sentTwice ++
    [.refresh (tipAt 101), .refresh (tipAt 102), .refresh (tipAt 103),
      .refresh (tipAt 104), .look, .prune, .insert 0]

/-- The tip only rises, and the share passes twice. -/
theorem overtaken_passes_twice :
    Run.Along Steady (step fun _ => 101) {} delayed ∧
      (delayed.foldl (step fun _ => 101) {}).fresh = [share101.hash, share101.hash] := by
  refine ⟨?_, by decide⟩
  simp only [delayed, sentTwice, List.cons_append, List.nil_append, Run.along_cons, Run.along_nil, Steady]
  decide

end Resent

end Intake

end Lazarus.Primed
