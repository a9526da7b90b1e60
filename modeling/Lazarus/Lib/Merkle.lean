import Mathlib

/-! Merkle trees whose odd levels repeat their last node, and the siblings on the way from the
first leaf to the root. -/

namespace Merkle

variable {α : Type*} (node : α → α → α)

/-- The level above: nodes joined two by two, the last one to itself where it is left over. -/
def above : List α → List α
  | [] => []
  | [last] => [node last last]
  | left :: right :: rest => node left right :: above rest

/-- What the leaves of a tree come to. -/
inductive Root : List α → α → Prop
  | single (leaf : α) : Root [leaf] leaf
  | join {level : List α} {root : α} (several : 1 < level.length) (higher : Root (above node level) root) :
      Root level root

/-- Level after level, until a single node is left. -/
def climb : Nat → List α → List α
  | 0, level => level
  | more + 1, level => if 1 < level.length then climb more (above node level) else level

/-- The second node of each level on the way. -/
def siblings : Nat → List α → List α
  | more + 1, first :: second :: rest => second :: siblings more (above node (first :: second :: rest))
  | _, _ => []

theorem length_above (level : List α) : (above node level).length = (level.length + 1) / 2 := by
  induction level using above.induct with
  | case1 => simp [above]
  | case2 last => simp [above]
  | case3 left right rest ih =>
    rw [above, List.length_cons, ih]
    simp only [List.length_cons]
    omega

/-- There is one sibling for each level. -/
theorem length_siblings_le (steps : Nat) {level : List α} {levels : Nat} (few : level.length ≤ 2 ^ levels) :
    (siblings node steps level).length ≤ levels := by
  induction steps generalizing level levels with
  | zero => exact Nat.zero_le _
  | succ steps ih =>
    match level with
    | [] => exact Nat.zero_le _
    | [_] => exact Nat.zero_le _
    | first :: second :: rest =>
      cases levels with
      | zero => simp at few
      | succ levels =>
        rw [siblings, List.length_cons]
        apply Nat.succ_le_succ
        apply ih
        rw [length_above]
        rw [Nat.pow_succ] at few
        omega

/-- The siblings do not depend on the first leaf. -/
theorem siblings_other (leaf other : α) (rest : List α) (steps : Nat) :
    siblings node steps (leaf :: rest) = siblings node steps (other :: rest) := by
  induction steps generalizing leaf other rest with
  | zero => rfl
  | succ steps ih =>
    cases rest with
    | nil => rfl
    | cons second rest =>
      rw [siblings, siblings, above, above]
      congr 1
      exact ih (node leaf second) (node other second) (above node rest)

/-- With one step for each leaf there is one sibling for each level. -/
theorem length_siblings {steps : Nat} {level : List α} (enough : level.length ≤ steps + 1) :
    (siblings node steps level).length = Nat.clog 2 level.length := by
  induction steps generalizing level with
  | zero =>
    rw [Nat.clog_of_right_le_one enough]
    rfl
  | succ steps ih =>
    match level with
    | [] => rfl
    | [_] => rfl
    | first :: second :: rest =>
      have shorter := length_above node (first :: second :: rest)
      have half : ((first :: second :: rest).length + 1) / 2 ≤ steps + 1 := by
        rw [List.length_cons, List.length_cons] at enough ⊢
        omega
      have levels := Nat.clog_of_two_le (b := 2) (by decide) (show 2 ≤ (first :: second :: rest).length by simp)
      rw [siblings, List.length_cons, ih (by rw [shorter]; exact half), shorter, levels]
      rfl

variable {node} in
/-- A tree has one root. -/
theorem Root.unique {level : List α} {root other : α} (first : Root node level root)
    (second : Root node level other) : root = other := by
  induction first with
  | single leaf =>
    cases second with
    | single => rfl
    | join several => simp at several
  | join several higher ih =>
    cases second with
    | single => simp at several
    | join _ higher' => exact ih higher'

/-- With one step for each leaf the climb ends at the root. -/
theorem climb_root {level : List α} (leaves : level ≠ []) {steps : Nat} (enough : level.length ≤ steps + 1) :
    ∃ root, climb node steps level = [root] ∧ Root node level root := by
  induction steps generalizing level with
  | zero =>
    obtain ⟨leaf, rfl⟩ := List.length_eq_one_iff.mp (Nat.le_antisymm enough (List.length_pos_iff.mpr leaves))
    exact ⟨leaf, rfl, .single leaf⟩
  | succ steps ih =>
    rw [climb]
    have some := List.length_pos_iff.mpr leaves
    by_cases several : 1 < level.length
    · rw [if_pos several]
      have shorter := length_above node level
      have higher : above node level ≠ [] := List.length_pos_iff.mp (by omega)
      obtain ⟨root, climbed, found⟩ := ih higher (by omega)
      exact ⟨root, climbed, .join several found⟩
    · obtain ⟨leaf, rfl⟩ := List.length_eq_one_iff.mp (Nat.le_antisymm (Nat.not_lt.mp several) some)
      exact ⟨leaf, by simp, .single leaf⟩

/-- Joining the first leaf with its siblings in turn climbs to the root. The siblings do
not depend on that leaf. -/
theorem foldl_siblings (leaf other : α) {rest : List α} {steps : Nat} (enough : rest.length ≤ steps) :
    climb node steps (leaf :: rest) = [(siblings node steps (other :: rest)).foldl node leaf] := by
  induction steps generalizing leaf other rest with
  | zero =>
    obtain rfl := List.length_eq_zero_iff.mp (Nat.le_zero.mp enough)
    rfl
  | succ steps ih =>
    cases rest with
    | nil => rfl
    | cons second rest =>
      have shorter := length_above node rest
      rw [List.length_cons] at enough
      rw [climb, if_pos (by simp), siblings, List.foldl_cons, above, above]
      exact ih (node leaf second) (node other second) (by omega)

end Merkle
