import Lazarus.Tides.Window
import Lazarus.Lib.Along

/-! What each window primitive does to an identity's carry, debt and held sats. Later modules use
these equations and do not unfold the primitives. -/

namespace Lazarus.Tides.Window

open Machine Interner Tally

/-- Sats of one identity in a table of holds. -/
def heldIn (holds : AList fun _ : String => Hold) (identity : String) : Nat :=
  total (fun hold => tally identity hold.entries) holds

/-- Sats of one identity set aside in holds, all batches. -/
def heldOf (w : Window) (identity : String) : Nat := heldIn w.holds identity

/-- What the pool owes an identity: its carry and its holds, less its double-pay debt. -/
def net (w : Window) (identity : String) : Int :=
  w.carryOf identity + w.heldOf identity - w.debtOf identity

section Filing

variable (w : Window) (identity other : String)

@[simp] theorem carryOf_intern : (w.intern identity).carryOf other = w.carryOf other :=
  amount_intern w.carryKnown identity other

@[simp] theorem debtOf_intern : (w.intern identity).debtOf other = w.debtOf other :=
  amount_intern w.debtKnown identity other

theorem carryOf_fileCarry (sats : Nat) :
    ((w.intern identity).fileCarry identity sats).carryOf other =
      if other = identity then sats else w.carryOf other := by
  obtain ⟨index, found⟩ := exists_position_intern w.idents identity
  have located : (w.intern identity).idents.position identity = some index := found
  unfold fileCarry
  split
  · rename_i missing
    rw [missing] at located
    cases located
  · rename_i place found
    simp only [carryOf]
    rw [amount_put found sats other]
    split
    · rfl
    · exact carryOf_intern w identity other

theorem debtOf_fileDebt (sats : Nat) (located : ∃ index, w.idents.position identity = some index) :
    (w.fileDebt identity sats).debtOf other = if other = identity then sats else w.debtOf other := by
  obtain ⟨index, found⟩ := located
  unfold fileDebt
  split
  · rename_i missing
    rw [missing] at found
    cases found
  · rename_i place found
    exact amount_put found sats other

@[simp] theorem debtOf_fileCarry (sats : Nat) : (w.fileCarry identity sats).debtOf other = w.debtOf other := by
  unfold fileCarry
  split <;> rfl

@[simp] theorem carryOf_fileDebt (sats : Nat) : (w.fileDebt identity sats).carryOf other = w.carryOf other := by
  unfold fileDebt
  split <;> rfl

@[simp] theorem holds_fileCarry (sats : Nat) : (w.fileCarry identity sats).holds = w.holds := by
  unfold fileCarry
  split <;> rfl

@[simp] theorem holds_fileDebt (sats : Nat) : (w.fileDebt identity sats).holds = w.holds := by
  unfold fileDebt
  split <;> rfl

end Filing

section Carry

variable (w : Window) (identity other : String) (delta : Int)

theorem carryOf_adjustCarry : (w.adjustCarry identity delta).1.carryOf other =
    if other = identity then
      if 0 ≤ delta then satAdd (w.carryOf identity) delta.natAbs else w.carryOf identity - delta.natAbs
    else w.carryOf other := by
  simp only [adjustCarry, carryOf_intern]
  exact carryOf_fileCarry w identity other _

theorem adjustCarry_result :
    (w.adjustCarry identity delta).2 = (w.adjustCarry identity delta).1.carryOf identity := by
  rw [carryOf_adjustCarry, if_pos rfl]
  simp [adjustCarry]

@[simp] theorem debtOf_adjustCarry : (w.adjustCarry identity delta).1.debtOf other = w.debtOf other := by
  simp [adjustCarry]

@[simp] theorem holds_adjustCarry : (w.adjustCarry identity delta).1.holds = w.holds := by
  simp [adjustCarry, intern]

/-- Taking carry off stops at zero. -/
theorem carryOf_adjustCarry_neg (negative : delta < 0) : (w.adjustCarry identity delta).1.carryOf other =
    if other = identity then w.carryOf identity - delta.natAbs else w.carryOf other := by
  rw [carryOf_adjustCarry, if_neg (by omega : ¬ 0 ≤ delta)]

end Carry

section Debt

variable (w : Window) (identity other : String) (sats : Nat)

theorem debtOf_accrueDebt : (w.accrueDebt identity sats).debtOf other =
    if other = identity ∧ sats ≠ 0 then satAdd (w.debtOf identity) sats else w.debtOf other := by
  unfold accrueDebt
  by_cases nothing : sats = 0
  · simp [nothing]
  · simp only [nothing, ↓reduceIte, ne_eq, not_false_eq_true, and_true]
    rw [debtOf_fileDebt _ _ _ _ (exists_position_intern w.idents identity)]
    simp

@[simp] theorem accrueDebt_zero : w.accrueDebt identity 0 = w := rfl

@[simp] theorem carryOf_accrueDebt : (w.accrueDebt identity sats).carryOf other = w.carryOf other := by
  unfold accrueDebt
  split <;> simp

@[simp] theorem holds_accrueDebt : (w.accrueDebt identity sats).holds = w.holds := by
  unfold accrueDebt
  split
  · rfl
  · simp [intern]

theorem debtOf_eq_zero (missing : w.idents.position identity = none) : w.debtOf identity = 0 := by
  simp [debtOf, amount, missing]

theorem reduceDebt_taken : (w.reduceDebt identity sats).2 = min (w.debtOf identity) sats := by
  unfold reduceDebt
  cases found : w.idents.position identity with
  | none => simp [debtOf_eq_zero w identity found]
  | some index => rfl

theorem debtOf_reduceDebt : (w.reduceDebt identity sats).1.debtOf other =
    if other = identity then w.debtOf identity - sats else w.debtOf other := by
  unfold reduceDebt
  cases found : w.idents.position identity with
  | none =>
    have nothing := debtOf_eq_zero w identity found
    by_cases same : other = identity
    · simp [same, nothing]
    · simp [same]
  | some index =>
    simp only
    rw [debtOf_fileDebt _ _ _ _ ⟨index, found⟩]
    split
    · omega
    · rfl

@[simp] theorem carryOf_reduceDebt : (w.reduceDebt identity sats).1.carryOf other = w.carryOf other := by
  unfold reduceDebt
  split <;> simp

@[simp] theorem holds_reduceDebt : (w.reduceDebt identity sats).1.holds = w.holds := by
  unfold reduceDebt
  split <;> simp

end Debt

section Restore

variable (w : Window) (identity other : String) (sats : Nat)

/-- Forgiving a debt and restoring carry do the same to the window. -/
theorem forgiveDebt_eq : w.forgiveDebt identity sats = (w.restoreCarry identity sats).1 := by
  simp only [forgiveDebt, restoreCarry]
  split <;> split
  · omega
  · rfl
  · rfl
  · omega

theorem debtOf_restoreCarry : (w.restoreCarry identity sats).1.debtOf other =
    if other = identity then w.debtOf identity - sats else w.debtOf other := by
  simp only [restoreCarry]
  split
  · exact debtOf_reduceDebt w identity other sats
  · rw [debtOf_adjustCarry]
    exact debtOf_reduceDebt w identity other sats

theorem carryOf_restoreCarry : (w.restoreCarry identity sats).1.carryOf other =
    if other = identity ∧ w.debtOf identity < sats then
      satAdd (w.carryOf identity) (min (sats - w.debtOf identity) i64Max)
    else w.carryOf other := by
  have rest : sats - (w.reduceDebt identity sats).2 = sats - w.debtOf identity := by
    rw [reduceDebt_taken]
    omega
  simp only [restoreCarry, rest]
  by_cases covered : w.debtOf identity < sats
  · have positive : ¬ sats - w.debtOf identity = 0 := by omega
    simp only [positive, ↓reduceIte, carryOf_adjustCarry, clampI64_nonneg, clampI64_natAbs,
      carryOf_reduceDebt, covered, and_true]
  · have nothing : sats - w.debtOf identity = 0 := by omega
    simp [nothing, covered]

@[simp] theorem holds_restoreCarry : (w.restoreCarry identity sats).1.holds = w.holds := by
  simp only [restoreCarry]
  split <;> simp

theorem carryOf_restoreDebt : (w.restoreDebt identity sats).carryOf other =
    if other = identity then w.carryOf identity - min (min (w.carryOf identity) sats) i64Max
    else w.carryOf other := by
  unfold restoreDebt
  by_cases nothing : sats = 0
  · subst nothing
    simp only [↓reduceIte, Nat.min_zero, Nat.zero_min, Nat.sub_zero]
    split
    · rename_i same
      rw [same]
    · rfl
  · simp only [nothing, ↓reduceIte, carryOf_accrueDebt]
    by_cases some : 0 < min (w.carryOf identity) sats
    · have negative : -clampI64 (min (w.carryOf identity) sats) < 0 := by
        unfold clampI64 i64Max
        omega
      simp only [some, ↓reduceIte]
      rw [carryOf_adjustCarry_neg _ _ _ _ negative]
      simp
    · have none : min (w.carryOf identity) sats = 0 := by omega
      simp only [none, Nat.lt_irrefl, ↓reduceIte, Nat.zero_min, Nat.sub_zero]
      split
      · rename_i same
        rw [same]
      · rfl

theorem debtOf_restoreDebt : (w.restoreDebt identity sats).debtOf other =
    if other = identity ∧ w.carryOf identity < sats then
      satAdd (w.debtOf identity) (sats - w.carryOf identity)
    else w.debtOf other := by
  unfold restoreDebt
  by_cases nothing : sats = 0
  · simp [nothing]
  · simp only [nothing, ↓reduceIte, debtOf_accrueDebt]
    have rest : sats - min (w.carryOf identity) sats = sats - w.carryOf identity := by omega
    have kept : ∀ name, (if 0 < min (w.carryOf identity) sats then
        (w.adjustCarry identity (-clampI64 (min (w.carryOf identity) sats))).1 else w).debtOf name =
        w.debtOf name := by
      intro name
      split <;> simp
    have positive : sats - w.carryOf identity ≠ 0 ↔ w.carryOf identity < sats := by omega
    simp only [rest, kept, positive]

@[simp] theorem holds_restoreDebt : (w.restoreDebt identity sats).holds = w.holds := by
  unfold restoreDebt
  split
  · rfl
  · simp only [holds_accrueDebt]
    split <;> simp

end Restore

section Holds

theorem drawEntries_left (identity : String) (left : Nat) (entries : List (String × Nat)) :
    (drawEntries identity left entries).2 ≤ left := by
  induction entries generalizing left with
  | nil => exact Nat.le_refl _
  | cons entry rest ih =>
    simp only [drawEntries]
    exact Nat.le_trans (ih _) (Nat.sub_le _ _)

/-- Drawing moves sats of one identity out of the entries and nobody else's. -/
theorem drawEntries_conserves (identity other : String) (left : Nat) (entries : List (String × Nat)) :
    ((tally other (drawEntries identity left entries).1 : Nat) : Int) -
        (if other = identity then (drawEntries identity left entries).2 else 0 : Nat) =
      (tally other entries : Nat) - (if other = identity then left else 0 : Nat) := by
  induction entries generalizing left with
  | nil => rfl
  | cons entry rest ih =>
    simp only [drawEntries, tally_cons]
    have later := ih (left - if entry.1 = identity then min entry.2 left else 0)
    by_cases mine : entry.1 = identity
    · by_cases same : other = identity
      · subst same
        simp only [mine, ↓reduceIte] at later ⊢
        omega
      · have different : ¬ identity = other := fun equal => same equal.symm
        simp only [mine, different, same, ↓reduceIte] at later ⊢
        omega
    · simp only [mine, ↓reduceIte, Nat.sub_zero] at later ⊢
      push_cast at later ⊢
      omega

private theorem drawBatch_conserves (identity other : String)
    (state : AList (fun _ : String => Hold) × Nat) (batch : String) :
    (heldIn (drawBatch identity state batch).1 other : Int) -
        (if other = identity then (drawBatch identity state batch).2 else 0 : Nat) =
      heldIn state.1 other - (if other = identity then state.2 else 0 : Nat) := by
  obtain ⟨holds, left⟩ := state
  simp only [drawBatch]
  split
  · rfl
  · cases found : holds.lookup batch with
    | none => rfl
    | some hold =>
      have drawn := drawEntries_conserves identity other left hold.entries
      have kept : tally other ((drawEntries identity left hold.entries).1.filter fun entry => 0 < entry.2) =
          tally other (drawEntries identity left hold.entries).1 := by
        apply tally_filter
        intro entry _ dropped
        simpa using dropped
      simp only
      split
      · rename_i empty
        have removed := total_erase (fun hold => tally other hold.entries) holds batch
        rw [empty] at kept
        simp only [found, Option.map_some, Option.getD_some, tally_nil] at removed kept
        simp only [heldIn]
        omega
      · have replaced := total_insert (fun hold => tally other hold.entries) holds batch
          { hold with entries := (drawEntries identity left hold.entries).1.filter fun entry => 0 < entry.2 }
        simp only [found, Option.map_some, Option.getD_some] at replaced
        simp only [heldIn]
        omega

theorem drawBatch_left (identity : String) (state : AList (fun _ : String => Hold) × Nat)
    (batch : String) : (drawBatch identity state batch).2 ≤ state.2 := by
  obtain ⟨holds, left⟩ := state
  simp only [drawBatch]
  split
  · exact Nat.le_refl _
  · split
    · exact Nat.le_refl _
    · exact drawEntries_left identity left _

variable (w : Window) (identity other : String) (sats : Nat)

theorem drawFromHolds_le : (w.drawFromHolds identity sats).2 ≤ sats := Nat.sub_le _ _

theorem drawFromHolds_zero : w.drawFromHolds identity 0 = (w, 0) := by
  have unmoved : ∀ order : List String, order.foldl (drawBatch identity) (w.holds, 0) = (w.holds, 0) := by
    intro order
    exact Run.foldl_kept (drawBatch identity) (fun state => state = (w.holds, 0))
      (fun state batch same => by subst same; rfl) order rfl
  simp [drawFromHolds, unmoved]

/-- What is drawn leaves the holds of the identity it is drawn for, and of nobody else. -/
theorem heldOf_drawFromHolds : ((w.drawFromHolds identity sats).1.heldOf other : Int) =
    w.heldOf other - (if other = identity then (w.drawFromHolds identity sats).2 else 0 : Nat) := by
  let order :=
    ((w.holds.entries.map fun entry => (entry.2.createdTs, entry.1)).insertionSort batchBefore).map Prod.snd
  have conserved := Run.foldl_unmoved
    (fun state : AList (fun _ : String => Hold) × Nat =>
      (heldIn state.1 other : Int) - (if other = identity then state.2 else 0 : Nat))
    (drawBatch_conserves identity other) (w.holds, sats) order
  have bounded := Run.foldl_kept (drawBatch identity) (fun state => state.2 ≤ sats)
    (fun state batch lower => Nat.le_trans (drawBatch_left identity state batch) lower)
    (s := (w.holds, sats)) order (Nat.le_refl sats)
  change (heldIn (order.foldl (drawBatch identity) (w.holds, sats)).1 other : Int) = heldIn w.holds other -
    (if other = identity then sats - (order.foldl (drawBatch identity) (w.holds, sats)).2 else 0 : Nat)
  simp only at conserved bounded
  by_cases same : other = identity
  · simp only [same, ↓reduceIte] at conserved ⊢
    omega
  · simp only [same, ↓reduceIte] at conserved ⊢
    omega

@[simp] theorem carryOf_drawFromHolds : (w.drawFromHolds identity sats).1.carryOf other = w.carryOf other := rfl

@[simp] theorem debtOf_drawFromHolds : (w.drawFromHolds identity sats).1.debtOf other = w.debtOf other := rfl

end Holds

section Rebate

variable (w : Window) (identity : String) (sats : Nat)

@[simp] theorem rebateOwed_intern : (w.intern identity).rebateOwed = w.rebateOwed := rfl

@[simp] theorem rebateOwed_fileCarry : (w.fileCarry identity sats).rebateOwed = w.rebateOwed := by
  unfold fileCarry
  split <;> rfl

@[simp] theorem rebateOwed_fileDebt : (w.fileDebt identity sats).rebateOwed = w.rebateOwed := by
  unfold fileDebt
  split <;> rfl

@[simp] theorem rebateOwed_adjustCarry (delta : Int) :
    (w.adjustCarry identity delta).1.rebateOwed = w.rebateOwed := by
  simp [adjustCarry]

@[simp] theorem rebateOwed_accrueDebt : (w.accrueDebt identity sats).rebateOwed = w.rebateOwed := by
  unfold accrueDebt
  split <;> simp

@[simp] theorem rebateOwed_reduceDebt : (w.reduceDebt identity sats).1.rebateOwed = w.rebateOwed := by
  unfold reduceDebt
  split <;> simp

@[simp] theorem rebateOwed_restoreCarry : (w.restoreCarry identity sats).1.rebateOwed = w.rebateOwed := by
  simp only [restoreCarry]
  split <;> simp

@[simp] theorem rebateOwed_restoreDebt : (w.restoreDebt identity sats).rebateOwed = w.rebateOwed := by
  unfold restoreDebt
  split
  · rfl
  · simp only [rebateOwed_accrueDebt]
    split <;> simp

@[simp] theorem rebateOwed_forgiveDebt : (w.forgiveDebt identity sats).rebateOwed = w.rebateOwed := by
  rw [forgiveDebt_eq, rebateOwed_restoreCarry]

@[simp] theorem rebateOwed_drawFromHolds : (w.drawFromHolds identity sats).1.rebateOwed = w.rebateOwed := rfl

end Rebate

end Lazarus.Tides.Window
