import Mathlib

/-! Trimming a list from the front by weight: items go while what is left behind them still weighs at
least the target. A target of zero is no target, and trims nothing. -/

namespace Trim

variable {α : Type u} (weight : α → Nat)

/-- What a list weighs. -/
def load (items : List α) : Nat := (items.map weight).sum

/-- The items left once those that the target can spare have gone. -/
def spare (target : Nat) : List α → List α
  | [] => []
  | front :: rest => if target ≤ load weight rest then spare target rest else front :: rest

/-- The items a target keeps. -/
def kept (target : Nat) (items : List α) : List α := if target = 0 then items else spare weight target items

/-- Moving from one target to another keeps no item that the first let go. -/
def Lowers (before after : Nat) : Prop := before = 0 ∨ after ≠ 0 ∧ after ≤ before

instance (before after : Nat) : Decidable (Lowers before after) := inferInstanceAs (Decidable (_ ∨ _ ∧ _))

@[simp] theorem load_nil : load weight [] = 0 := rfl

@[simp] theorem load_cons (item : α) (rest : List α) : load weight
    (item :: rest) = weight item + load weight rest := by
  simp [load]

@[simp] theorem load_append (first second : List α) :
    load weight (first ++ second) = load weight first + load weight second := by
  simp [load]

theorem load_le_of_sublist {items whole : List α} (within : items.Sublist whole) :
    load weight items ≤ load weight whole := by
  induction within with
  | slnil => exact Nat.le_refl _
  | cons item _ ih =>
    rw [load_cons]
    omega
  | cons_cons item _ ih =>
    rw [load_cons, load_cons]
    omega

theorem spare_suffix (target : Nat) (items : List α) : spare weight target items <:+ items := by
  induction items with
  | nil => exact List.suffix_refl []
  | cons front rest ih =>
    unfold spare
    split
    · exact ih.trans (List.suffix_cons front rest)
    · exact List.suffix_refl _

theorem kept_suffix (target : Nat) (items : List α) : kept weight target items <:+ items := by
  unfold kept
  split
  · exact List.suffix_refl items
  · exact spare_suffix weight target items

@[simp] theorem kept_nil (target : Nat) : kept weight target [] = [] :=
  List.suffix_nil.mp (kept_suffix weight target [])

/-- Items put at the end do not bring back any that had gone. -/
theorem spare_append (target : Nat) (items later : List α) :
    spare weight target (spare weight target items ++ later) = spare weight target (items ++ later) := by
  induction items with
  | nil => rfl
  | cons front rest ih =>
    by_cases gone : target ≤ load weight rest
    · have still : target ≤ load weight (rest ++ later) := by
        rw [load_append]
        omega
      simp only [spare, gone, if_true, List.cons_append, still, ih]
    · simp only [spare, gone, if_false]

theorem kept_append (target : Nat) (items later : List α) :
    kept weight target (kept weight target items ++ later) = kept weight target (items ++ later) := by
  unfold kept
  split
  · rfl
  · exact spare_append weight target items later

theorem spare_spare {before after : Nat} (lower : after ≤ before) (items : List α) :
    spare weight after (spare weight before items) = spare weight after items := by
  induction items with
  | nil => rfl
  | cons front rest ih =>
    by_cases gone : before ≤ load weight rest
    · have too : after ≤ load weight rest := Nat.le_trans lower gone
      simp only [spare, gone, too, if_true, ih]
    · simp only [spare, gone, if_false]

/-- What a lower target keeps of the items is what it keeps of those a higher one had kept. -/
theorem kept_kept {before after : Nat} (lower : Lowers before after) (items : List α) :
    kept weight after (kept weight before items) = kept weight after items := by
  rcases lower with none | ⟨some, below⟩
  · simp [kept, none]
  · have also : before ≠ 0 := by omega
    simp only [kept, some, also, if_false]
    exact spare_spare weight below items

theorem kept_idem (target : Nat) (items : List α) :
    kept weight target (kept weight target items) = kept weight target items := by
  apply kept_kept
  by_cases none : target = 0
  · exact .inl none
  · exact .inr ⟨none, Nat.le_refl _⟩

/-- Items in front of a list that covers the target by itself all go. -/
theorem kept_of_covered {target : Nat} (some : target ≠ 0) (earlier items : List α)
    (covered : target ≤ load weight items) :
    kept weight target (earlier ++ items) = kept weight target items := by
  simp only [kept, some, if_false]
  induction earlier with
  | nil => rfl
  | cons front rest ih =>
    have gone : target ≤ load weight (rest ++ items) := by
      rw [load_append]
      omega
    simp only [List.cons_append, spare, gone, if_true, ih]

/-- The shortest suffix of some items that covers a target by itself; all of them where they do not cover
it together. -/
structure Shortest (target : Nat) (present left : List α) : Prop where
  suffix : left <:+ present
  covers : target ≤ load weight present → target ≤ load weight left
  least : ∀ other, other <:+ present → target ≤ load weight other → left.length ≤ other.length
  whole : load weight present < target → left = present

/-- What a target keeps is the shortest suffix that covers it. -/
theorem shortest_kept {target : Nat} (some : target ≠ 0) (items : List α) :
    Shortest weight target items (kept weight target items) := by
  rw [kept, if_neg some]
  induction items with
  | nil => exact ⟨List.suffix_refl [], id, fun other _ _ => Nat.zero_le other.length, fun _ => rfl⟩
  | cons front rest ih =>
    by_cases gone : target ≤ load weight rest
    · simp only [spare, gone, if_true]
      constructor
      · exact ih.suffix.trans (List.suffix_cons front rest)
      · exact fun _ => ih.covers gone
      · intro other within covered
        rcases List.suffix_cons_iff.mp within with all | later
        · rw [all]
          exact (ih.suffix.length_le).trans (Nat.le_succ rest.length)
        · exact ih.least other later covered
      · intro short
        rw [load_cons] at short
        omega
    · simp only [spare, gone, if_false]
      refine ⟨List.suffix_refl _, id, ?_, fun _ => rfl⟩
      intro other within covered
      rcases List.suffix_cons_iff.mp within with all | later
      · rw [all]
      · exact absurd (covered.trans (load_le_of_sublist weight later.sublist)) gone

end Trim
