import Lazarus.Tides.Exclusive
import Lazarus.Tides.Store

/-! What the operations on the balances do to the identity table and to the file it is kept in. Some
write a line for an identity they bring in; the others bring one in and write nothing. -/

namespace Lazarus.Tides

open Machine Interner

namespace Window

/-- The identity has an index. -/
def Knows (w : Window) (identity : String) : Prop := identity ∈ w.idents.names

instance (w : Window) (identity : String) : Decidable (w.Knows identity) := inferInstanceAs (Decidable (_ ∈ _))

theorem knows_iff {w : Window} {identity : String} :
    w.Knows identity ↔ (w.idents.position identity).isSome = true := by
  rw [← Option.ne_none_iff_isSome, Ne, position_eq_none, not_not]
  rfl

/-- Every identity a hold names has an index, and every debt is one the machine can hold. -/
structure Sound (w : Window) : Prop where
  held : ∀ batch hold, w.holds.lookup batch = some hold → ∀ entry ∈ hold.entries, w.Knows entry.1
  bounded : ∀ identity, w.debtOf identity ≤ u64Max

/-- Balances moved, and the identities and the rows' sums stand as they were. -/
structure Steady (w w' : Window) : Prop where
  idents : w'.idents = w.idents
  totals : w'.totals = w.totals
  sound : w.Sound → w'.Sound

theorem Steady.refl (w : Window) : w.Steady w := ⟨rfl, rfl, id⟩

theorem Steady.trans {first second third : Window} (one : first.Steady second) (two : second.Steady third) :
    first.Steady third :=
  ⟨two.idents.trans one.idents, two.totals.trans one.totals, two.sound ∘ one.sound⟩

/-- A step that leaves the table, the sums and the holds alone, and files no debt above the top. -/
theorem Steady.of_holds {w w' : Window} (idents : w'.idents = w.idents) (totals : w'.totals = w.totals)
    (holds : w'.holds = w.holds)
    (bounded : (∀ identity, w.debtOf identity ≤ u64Max) → ∀ identity, w'.debtOf identity ≤ u64Max) :
    w.Steady w' := by
  refine ⟨idents, totals, fun sound => ⟨?_, bounded sound.bounded⟩⟩
  intro batch hold found entry member
  rw [holds] at found
  unfold Knows
  rw [idents]
  exact sound.held batch hold found entry member

theorem Steady.knows {w w' : Window} (steady : w.Steady w') {identity : String} (known : w.Knows identity) :
    w'.Knows identity := by
  unfold Knows
  rw [steady.idents]
  exact known

section Primitives

variable (w : Window) (identity : String)

theorem idents_intern : (w.intern identity).idents = w.idents.intern identity := rfl

theorem intern_known {w : Window} {identity : String} (known : w.Knows identity) : w.intern identity = w := by
  have same : w.idents.intern identity = w.idents := intern_of_mem known
  unfold Window.intern
  cases w
  simp_all

@[simp] theorem idents_fileCarry (sats : Nat) : (w.fileCarry identity sats).idents = w.idents := by
  unfold fileCarry
  split
  · rfl
  · rfl

@[simp] theorem idents_fileDebt (sats : Nat) : (w.fileDebt identity sats).idents = w.idents := by
  unfold fileDebt
  split
  · rfl
  · rfl

@[simp] theorem totals_fileCarry (sats : Nat) : (w.fileCarry identity sats).totals = w.totals := by
  unfold fileCarry
  split
  · rfl
  · rfl

@[simp] theorem totals_fileDebt (sats : Nat) : (w.fileDebt identity sats).totals = w.totals := by
  unfold fileDebt
  split
  · rfl
  · rfl

theorem idents_adjustCarry (delta : Int) :
    (w.adjustCarry identity delta).1.idents = w.idents.intern identity := by
  simp [adjustCarry, idents_intern]

theorem totals_adjustCarry (delta : Int) : (w.adjustCarry identity delta).1.totals = w.totals := by
  simp [adjustCarry, Window.intern]

theorem idents_setCarry (sats : Nat) : (w.setCarry identity sats).idents = w.idents.intern identity := by
  simp [setCarry, idents_intern]

theorem totals_setCarry (sats : Nat) : (w.setCarry identity sats).totals = w.totals := by
  simp [setCarry, Window.intern]

@[simp] theorem debtOf_setCarry (sats : Nat) (other : String) :
    (w.setCarry identity sats).debtOf other = w.debtOf other := by
  simp [setCarry]

end Primitives

section Known

variable {w : Window} {identity : String}

theorem intern_idents_known (known : w.Knows identity) : w.idents.intern identity = w.idents :=
  intern_of_mem known

theorem Steady.adjustCarry (known : w.Knows identity) (delta : Int) :
    w.Steady (w.adjustCarry identity delta).1 := by
  apply Steady.of_holds
  · rw [idents_adjustCarry, intern_idents_known known]
  · exact totals_adjustCarry w identity delta
  · exact holds_adjustCarry w identity delta
  · intro bound other
    rw [debtOf_adjustCarry]
    exact bound other

theorem Steady.setCarry (known : w.Knows identity) (sats : Nat) : w.Steady (w.setCarry identity sats) := by
  apply Steady.of_holds
  · rw [idents_setCarry, intern_idents_known known]
  · exact totals_setCarry w identity sats
  · exact holds_fileCarry (w.intern identity) identity sats
  · intro bound other
    rw [debtOf_setCarry]
    exact bound other

theorem Steady.accrueDebt (known : w.Knows identity) (sats : Nat) : w.Steady (w.accrueDebt identity sats) := by
  apply Steady.of_holds
  · unfold Window.accrueDebt
    split
    · rfl
    · rw [intern_known known]
      simp
  · unfold Window.accrueDebt
    split
    · rfl
    · rw [intern_known known]
      simp
  · exact holds_accrueDebt w identity sats
  · intro bound other
    rw [debtOf_accrueDebt]
    split
    · exact Nat.min_le_right _ _
    · exact bound other

theorem Steady.reduceDebt (w : Window) (identity : String) (sats : Nat) :
    w.Steady (w.reduceDebt identity sats).1 := by
  apply Steady.of_holds
  · unfold Window.reduceDebt
    split
    · rfl
    · simp
  · unfold Window.reduceDebt
    split
    · rfl
    · simp
  · exact holds_reduceDebt w identity sats
  · intro bound other
    rw [debtOf_reduceDebt]
    split
    · have here := bound identity
      omega
    · exact bound other

theorem Steady.restoreCarry (known : w.Knows identity) (sats : Nat) :
    w.Steady (w.restoreCarry identity sats).1 := by
  have reduced := Steady.reduceDebt w identity sats
  unfold Window.restoreCarry
  simp only
  split
  · exact reduced
  · exact reduced.trans (Steady.adjustCarry (reduced.knows known) _)

theorem Steady.forgiveDebt (known : w.Knows identity) (sats : Nat) : w.Steady
    (w.forgiveDebt identity sats) := by
  rw [forgiveDebt_eq]
  exact Steady.restoreCarry known sats

theorem Steady.restoreDebt (known : w.Knows identity) (sats : Nat) : w.Steady
    (w.restoreDebt identity sats) := by
  unfold Window.restoreDebt
  split
  · exact Steady.refl w
  · simp only
    split
    · have taken := Steady.adjustCarry known (-clampI64 (min (w.carryOf identity) sats))
      exact taken.trans (Steady.accrueDebt (taken.knows known) _)
    · exact Steady.accrueDebt known _

theorem Steady.adjustRebateOwed (w : Window) (delta : Int) : w.Steady (w.adjustRebateOwed delta) :=
  Steady.of_holds rfl rfl rfl fun bound other => bound other

end Known

section Drawn

theorem names_drawEntries (identity : String) (left : Nat) (entries : List (String × Nat)) :
    (drawEntries identity left entries).1.map Prod.fst = entries.map Prod.fst := by
  induction entries generalizing left with
  | nil => rfl
  | cons entry rest ih => simp [drawEntries, ih]

/-- Drawing from a batch names no one new in any hold. -/
theorem drawBatch_named {identity batch other : String} {state : AList (fun _ : String => Hold) × Nat}
    {known : String → Prop}
    (named : ∀ batch hold, state.1.lookup batch = some hold → ∀ entry ∈ hold.entries,
      known entry.1) {hold : Hold}
    (found : (drawBatch identity state batch).1.lookup other = some hold) :
    ∀ entry ∈ hold.entries, known entry.1 := by
  obtain ⟨holds, left⟩ := state
  unfold drawBatch at found
  simp only at found
  split at found
  · exact named other hold found
  · split at found
    · exact named other hold found
    · rename_i old here
      by_cases same : other = batch
      · subst same
        split at found
        · simp at found
        · rw [AList.lookup_insert, Option.some.injEq] at found
          subst found
          intro entry member
          have listed : entry.1 ∈ old.entries.map Prod.fst := by
            rw [← names_drawEntries identity left]
            exact List.mem_map_of_mem (List.mem_of_mem_filter member)
          obtain ⟨before, present, equal⟩ := List.mem_map.mp listed
          rw [← equal]
          exact named other old here before present
      · split at found
        · rw [AList.lookup_erase_ne same] at found
          exact named other hold found
        · rw [AList.lookup_insert_ne same] at found
          exact named other hold found

theorem Steady.drawFromHolds (w : Window) (identity : String) (sats : Nat) :
    w.Steady (w.drawFromHolds identity sats).1 := by
  refine ⟨rfl, rfl, fun sound => ⟨?_, sound.bounded⟩⟩
  let named (state : AList (fun _ : String => Hold) × Nat) : Prop :=
    ∀ batch hold, state.1.lookup batch = some hold → ∀ entry ∈ hold.entries, w.Knows entry.1
  have kept (state : AList (fun _ : String => Hold) × Nat) (batch : String) (before : named state) :
      named (drawBatch identity state batch) := fun _ _ found => drawBatch_named before found
  exact Run.foldl_kept (drawBatch identity) named kept _ sound.held

end Drawn

/-- A loop each of whose steps stays steady. -/
theorem Steady.foldl {σ : Type u} {α : Type v} (view : σ → Window) (f : σ → α → σ) {w : Window} {items : List α}
    (each : ∀ s, ∀ a ∈ items, w.Steady (view s) → (view s).Steady (view (f s a))) {s : σ}
    (start : w.Steady (view s)) : w.Steady (view (items.foldl f s)) :=
  Run.foldl_mem f (fun s => w.Steady (view s))
    (fun s a member steady => steady.trans (each s a member steady)) start

/-- The identity as a list, if it is new. -/
def newcomer (w : Window) (identity : String) : List String := if w.Knows identity then [] else [identity]

/-- Balances moved, and one identity has an index now if it had none. -/
structure Interns (w : Window) (identity : String) (w' : Window) : Prop where
  names : w'.idents.names = w.idents.names ++ w.newcomer identity
  totals : w'.totals = w.totals
  sound : w.Sound → w'.Sound

theorem names_intern (w : Window) (identity : String) :
    (w.idents.intern identity).names = w.idents.names ++ w.newcomer identity := by
  unfold newcomer
  split
  · rename_i known
    rw [intern_of_mem known, List.append_nil]
  · rename_i fresh
    rw [names_intern_of_not_mem fresh]

theorem Sound.of_interned {w w' : Window} (sound : w.Sound) {identity : String}
    (idents : w'.idents = w.idents.intern identity) (holds : w'.holds = w.holds)
    (debts : ∀ other, w'.debtOf other = w.debtOf other) : w'.Sound := by
  constructor
  · intro batch hold found entry member
    rw [holds] at found
    have known : w.Knows entry.1 := sound.held batch hold found entry member
    unfold Knows
    rw [idents, names_intern]
    exact List.mem_append_left _ known
  · intro other
    rw [debts]
    exact sound.bounded other

theorem Interns.adjustCarry (w : Window) (identity : String) (delta : Int) :
    w.Interns identity (w.adjustCarry identity delta).1 where
  names := by rw [idents_adjustCarry, names_intern]
  totals := totals_adjustCarry w identity delta
  sound sound := sound.of_interned (idents_adjustCarry w identity delta) (holds_adjustCarry w identity delta)
    fun other => debtOf_adjustCarry w identity other delta

theorem Interns.setCarry (w : Window) (identity : String) (sats : Nat) :
    w.Interns identity (w.setCarry identity sats) where
  names := by rw [idents_setCarry, names_intern]
  totals := totals_setCarry w identity sats
  sound sound :=
    sound.of_interned (idents_setCarry w identity sats) (holds_fileCarry (w.intern identity) identity sats)
    fun other => debtOf_setCarry w identity sats other

theorem Interns.of_steady {w w' : Window} {identity : String} (known : w.Knows identity)
    (steady : w.Steady w') : w.Interns identity w' := by
  refine ⟨?_, steady.totals, steady.sound⟩
  rw [steady.idents, newcomer, if_pos known, List.append_nil]

/-- Sats put back for an identity nobody has heard of all become carry, which gives it an index. -/
theorem Interns.restoreCarry (w : Window) (identity : String) {sats : Nat} (some : sats ≠ 0) :
    w.Interns identity (w.restoreCarry identity sats).1 := by
  by_cases known : w.Knows identity
  · exact .of_steady known (Steady.restoreCarry known sats)
  · have missing : w.idents.position identity = none := position_eq_none.mpr known
    have straight : w.restoreCarry identity sats = w.adjustCarry identity (clampI64 sats) := by
      simp [Window.restoreCarry, Window.reduceDebt, missing, some]
    rw [straight]
    exact .adjustCarry w identity _

end Window

namespace Ledger

/-- Whatever identities an operation brought in, it wrote a line for each. -/
structure Lined (l l' : Ledger) : Prop where
  lines : ∃ fresh, l'.window.idents.names = l.window.idents.names ++ fresh ∧
    l'.identsOut = l.identsOut ++ fresh ∧ ∀ name ∈ fresh, Lines.Clean name
  totals : l'.window.totals = l.window.totals
  sound : l.window.Sound → l'.window.Sound

theorem Lined.refl (l : Ledger) : l.Lined l := ⟨⟨[], by simp⟩, rfl, id⟩

theorem Lined.trans {first second third : Ledger} (one : first.Lined second) (two : second.Lined third) :
    first.Lined third := by
  obtain ⟨fresh, names, out, clean⟩ := one.lines
  obtain ⟨later, names', out', clean'⟩ := two.lines
  refine ⟨⟨fresh ++ later, ?_, ?_, ?_⟩, two.totals.trans one.totals, two.sound ∘ one.sound⟩
  · rw [names', names, List.append_assoc]
  · rw [out', out, List.append_assoc]
  · intro name member
    rcases List.mem_append.mp member with early | late
    · exact clean name early
    · exact clean' name late

theorem Lined.of_steady {l l' : Ledger} (steady : l.window.Steady l'.window)
    (out : l'.identsOut = l.identsOut) : l.Lined l' :=
  ⟨⟨[], by rw [steady.idents, List.append_nil], by rw [out, List.append_nil], by simp⟩,
    steady.totals, steady.sound⟩

/-- An operation on one identity that writes the line if the identity was not known. -/
theorem Lined.of_interns {l l' : Ledger} {identity : String} (interns : l.window.Interns identity l'.window)
    (out : l'.identsOut =
      if (l.window.idents.position identity).isSome then l.identsOut else l.identsOut ++ [identity])
    (clean : Lines.Clean identity) : l.Lined l' := by
  refine ⟨⟨l.window.newcomer identity, interns.names, ?_, ?_⟩, interns.totals, interns.sound⟩
  · rw [out]
    unfold Window.newcomer
    by_cases known : l.window.Knows identity
    · rw [if_pos known, if_pos (Window.knows_iff.mp known), List.append_nil]
    · rw [if_neg known, if_neg fun found => known (Window.knows_iff.mpr found)]
  · intro name member
    unfold Window.newcomer at member
    split at member
    · simp at member
    · rw [List.mem_singleton.mp member]
      exact clean

theorem Lined.foldl {σ : Type u} {α : Type v} (view : σ → Ledger) (f : σ → α → σ) {items : List α}
    (each : ∀ s, ∀ a ∈ items, (view s).Lined (view (f s a))) (s : σ) :
    (view s).Lined (view (items.foldl f s)) :=
  Run.foldl_mem f (fun later => (view s).Lined (view later))
    (fun later a member lined => lined.trans (each later a member)) (.refl (view s))

end Ledger

end Lazarus.Tides
