import Mathlib

/-! A text file of one name a line, read the way a line reader does: line feeds end lines, a carriage
return before one belongs to it, and empty lines are skipped. -/

namespace Lines

/-- The names written one after the other, each with its line feed. -/
def text (names : List String) : List Char := names.flatMap fun name => name.toList ++ ['\n']

/-- The lines of a text without their line feeds. What follows the last line feed is a line too. -/
def split : List Char → List (List Char)
  | [] => []
  | c :: rest =>
    if c = '\n' then [] :: split rest
    else
      match split rest with
      | [] => [[c]]
      | line :: lines => (c :: line) :: lines

def stripReturn (line : List Char) : List Char := if line.getLast? = some '\r' then line.dropLast else line

/-- The lines that are not empty. -/
def read (content : List Char) : List String :=
  (((split content).map stripReturn).filter fun line => line ≠ []).map String.ofList

/-- The text up to its last line feed. -/
def whole : List Char → List Char
  | [] => []
  | c :: rest => if '\n' ∈ c :: rest then c :: whole rest else []

/-- A name that is read back as it was written. -/
def Clean (name : String) : Prop := name ≠ "" ∧ '\n' ∉ name.toList ∧ name.toList.getLast? ≠ some '\r'

instance (name : String) : Decidable (Clean name) := inferInstanceAs (Decidable (_ ∧ _ ∧ _))

@[simp] theorem text_nil : text [] = [] := rfl

@[simp] theorem text_cons (name : String) (names : List String) :
    text (name :: names) = name.toList ++ '\n' :: text names := by
  simp [text]

@[simp] theorem text_append (first second : List String) : text
    (first ++ second) = text first ++ text second := by
  simp [text]

section Split

theorem split_line {line : List Char} (single : '\n' ∉ line) (rest : List Char) :
    split (line ++ '\n' :: rest) = line :: split rest := by
  induction line with
  | nil => simp [split]
  | cons c line ih =>
    have other : c ≠ '\n' := by
      rintro rfl
      simp at single
    have later := ih fun member => single (List.mem_cons_of_mem c member)
    simp [split, other, later]

theorem stripReturn_clean {name : String} (clean : Clean name) : stripReturn name.toList = name.toList :=
  if_neg clean.2.2

theorem read_line {name : String} (clean : Clean name) (rest : List Char) :
    read (name.toList ++ '\n' :: rest) = name :: read rest := by
  have shown : name.toList ≠ [] := by
    intro empty
    apply clean.1
    rw [← String.ofList_toList (s := name), empty]
  unfold read
  rw [split_line clean.2.1, List.map_cons, stripReturn_clean clean]
  simp [shown]

/-- Clean names are read back, each in its place. -/
theorem read_text {names : List String} (clean : ∀ name ∈ names, Clean name) : read (text names) = names := by
  induction names with
  | nil => rfl
  | cons name rest ih =>
    rw [text_cons, read_line (clean name (by simp)), ih fun other member => clean other (by simp [member])]

end Split

section Torn

theorem whole_line (line rest : List Char) : whole (line ++ '\n' :: rest) = line ++ '\n' :: whole rest := by
  induction line with
  | nil => simp [whole]
  | cons c line ih => simp [whole, ih]

theorem whole_unended {line : List Char} (single : '\n' ∉ line) : whole line = [] := by
  cases line with
  | nil => rfl
  | cons c rest => exact if_neg single

theorem whole_text_append (names : List String) (tail : List Char) :
    whole (text names ++ tail) = text names ++ whole tail := by
  induction names with
  | nil => rfl
  | cons name rest ih =>
    rw [text_cons, List.append_assoc, List.cons_append, whole_line, ih, List.append_assoc, List.cons_append]

/-- However much of the last names reached the file, cutting it back to whole lines leaves a number of
them. -/
theorem whole_torn {names : List String} (single : ∀ name ∈ names, '\n' ∉ name.toList) (reached : Nat) :
    ∃ count, whole ((text names).take reached) = text (names.take count) := by
  induction names generalizing reached with
  | nil => exact ⟨0, by simp [whole]⟩
  | cons name rest ih =>
    rw [text_cons]
    rcases Nat.lt_or_ge name.toList.length reached with past | short
    · obtain ⟨count, later⟩ :=
        ih (fun other member => single other (by simp [member])) (reached - name.toList.length - 1)
      have cut : (name.toList ++ '\n' :: text rest).take reached =
          name.toList ++ '\n' :: (text rest).take (reached - name.toList.length - 1) := by
        obtain ⟨more, shape⟩ : ∃ more, reached = name.toList.length + (more + 1) :=
          ⟨reached - name.toList.length - 1, by omega⟩
        subst shape
        rw [List.take_length_add_append, List.take_succ_cons]
        congr 3
        omega
      refine ⟨count + 1, ?_⟩
      rw [cut, whole_line, later, List.take_succ_cons, text_cons]
    · refine ⟨0, ?_⟩
      rw [List.take_append_of_le_length short]
      exact whole_unended fun member => single name (by simp) (List.mem_of_mem_take member)

end Torn

end Lines
