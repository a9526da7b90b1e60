import Mathlib

/-! The last element of a list that answers a test, replaced. Finding it is `find?` on the list
reversed. -/

namespace Last

variable {α : Type u} {p q : α → Bool}

/-- Put `b` in the place of the first element that answers the test. -/
def replaceFirst (p : α → Bool) (b : α) : List α → List α
  | [] => []
  | a :: rest => if p a then b :: rest else a :: replaceFirst p b rest

/-- Put `b` in the place of the last element that answers the test. -/
def replaceLast (p : α → Bool) (b : α) (items : List α) : List α := (replaceFirst p b items.reverse).reverse

/-- Where one element answers a test it splits the list: none before it does. -/
theorem replaceFirst_split {items : List α} (found : items.find? p = some a) (b : α) :
    ∃ before after, items = before ++ a :: after ∧ (∀ c ∈ before, p c = false) ∧ p a = true ∧
      replaceFirst p b items = before ++ b :: after := by
  induction items with
  | nil => simp at found
  | cons first rest ih =>
    cases passes : p first with
    | true =>
      have same : first = a := by simpa [passes] using found
      subst same
      exact ⟨[], rest, rfl, by simp, passes, by simp [replaceFirst, passes]⟩
    | false =>
      obtain ⟨before, after, shape, fail, here, replaced⟩ := ih (by simpa [passes] using found)
      refine ⟨first :: before, after, by simp [shape], ?_, here, by simp [replaceFirst, passes, replaced]⟩
      intro c member
      rcases List.mem_cons.mp member with rfl | later
      · exact passes
      · exact fail c later

/-- A list around the last element that answers a test, and the list with that element replaced. -/
theorem replaceLast_split {items : List α} (found : items.reverse.find? p = some a) (b : α) :
    ∃ before after, items = before ++ a :: after ∧ (∀ c ∈ after, p c = false) ∧ p a = true ∧
      replaceLast p b items = before ++ b :: after := by
  obtain ⟨before, after, shape, fail, here, replaced⟩ := replaceFirst_split found b
  refine ⟨after.reverse, before.reverse, ?_, ?_, here, ?_⟩
  · rw [← List.reverse_reverse items, shape]
    simp
  · intro c member
    exact fail c (List.mem_reverse.mp member)
  · rw [replaceLast, replaced]
    simp

/-- An element after which none answers the test is the last that does. -/
theorem find?_last {before after : List α} (fail : ∀ c ∈ after, p c = false) (here : p a = true) :
    (before ++ a :: after).reverse.find? p = some a := by
  have none : after.reverse.find? p = none := by simpa using fail
  rw [List.reverse_append, List.reverse_cons, List.append_assoc, List.find?_append, none]
  simp [here]

theorem replaceFirst_here {before after : List α} (fail : ∀ c ∈ before, p c = false)
    (here : p a = true) (b : α) : replaceFirst p b (before ++ a :: after) = before ++ b :: after := by
  induction before with
  | nil => simp [replaceFirst, here]
  | cons first rest ih =>
    have later := ih fun c member => fail c (by simp [member])
    simp [replaceFirst, fail first (by simp), later]

/-- It is the one that is replaced. -/
theorem replaceLast_here {before after : List α} (fail : ∀ c ∈ after, p c = false) (here : p a = true) (b : α) :
    replaceLast p b (before ++ a :: after) = before ++ b :: after := by
  have shape : (before ++ a :: after).reverse = after.reverse ++ a :: before.reverse := by simp
  rw [replaceLast, shape, replaceFirst_here (fun c member => fail c (List.mem_reverse.mp member)) here]
  simp

/-- Replacing an element by one that answers the test makes that the last to answer it. -/
theorem find?_replaceLast {items : List α} {b : α} (found : items.reverse.find? p = some a)
    (passes : p b = true) : (replaceLast p b items).reverse.find? p = some b := by
  obtain ⟨before, after, _, fail, _, replaced⟩ := replaceLast_split found b
  rw [replaced]
  exact find?_last fail passes

/-- A test that neither the old nor the new element answers finds what it found. -/
theorem find?_replaceLast_other {items : List α} {b : α} (found : items.reverse.find? p = some a)
    (old : q a = false) (new : q b = false) :
    (replaceLast p b items).reverse.find? q = items.reverse.find? q := by
  obtain ⟨before, after, shape, _, _, replaced⟩ := replaceLast_split found b
  rw [replaced, shape]
  simp [old, new]

/-- What is found last after dropping elements in front is found last in the whole list. -/
theorem find?_of_drop {items : List α} {excess : Nat} (found : (items.drop excess).reverse.find? p = some a) :
    items.reverse.find? p = some a := by
  rw [← List.take_append_drop excess items, List.reverse_append, List.find?_append, found]
  rfl

end Last
