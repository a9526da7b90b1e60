import Mathlib

/-! Packing a list into one bin, in order: what is larger than the room left is passed over
and the next one tried. -/

namespace FirstFit

variable {α : Type u} (size : α → Nat)

def load (items : List α) : Nat := (items.map size).sum

/-- What a bin with this much room keeps of a list. -/
def place : Nat → List α → List α
  | _, [] => []
  | room, item :: rest => if size item ≤ room then item :: place (room - size item) rest else place room rest

variable {size}

theorem load_place_le (room : Nat) (items : List α) : load size (place size room items) ≤ room := by
  induction items generalizing room with
  | nil => exact Nat.zero_le _
  | cons item rest ih =>
    unfold place
    split
    · rename_i fits
      have later : load size (place size (room - size item) rest) ≤ _ := ih (room - size item)
      have whole : load size (item :: place size (room - size item) rest) =
          size item + load size (place size (room - size item) rest) := rfl
      omega
    · exact ih room

theorem place_sublist (room : Nat) (items : List α) : (place size room items).Sublist items := by
  induction items generalizing room with
  | nil => exact List.Sublist.refl _
  | cons item rest ih =>
    unfold place
    split
    · exact (ih _).cons_cons item
    · exact (ih _).cons item

/-- A list with no more than the room of the bin is kept whole. -/
theorem place_of_fits {room : Nat} {items : List α} (fits : load size items ≤ room) :
    place size room items = items := by
  induction items generalizing room with
  | nil => rfl
  | cons item rest ih =>
    have whole : load size (item :: rest) = size item + load size rest := rfl
    rw [place, if_pos (by omega), ih (by omega)]

theorem length_place_lt_iff (room : Nat) (items : List α) :
    (place size room items).length < items.length ↔ place size room items ≠ items :=
  ⟨fun short same => by rw [same] at short; exact Nat.lt_irrefl _ short, fun cut =>
    Nat.lt_of_le_of_ne (place_sublist room items).length_le fun same =>
      cut ((place_sublist room items).eq_of_length same)⟩

section Backwards

variable (size) in
/-- Read from its end, a list tells what was kept of it: the load of what was kept after each item, and
whether any was passed over. An item passed over that was no larger than what was kept after it was not
passed over for room. -/
def readBack (kept : α → Bool) : List α → Nat → Bool → Option (Nat × Bool)
  | [], load, cut => some (load, cut)
  | item :: before, load, cut =>
    if kept item then readBack kept before (load + size item) cut
    else if size item ≤ load then none
    else readBack kept before load true

/-- Of a list without repetitions that was packed, it tells exactly the load, in whatever room. -/
theorem readBack_place {kept : α → Bool} {room : Nat} {items : List α} (distinct : items.Nodup)
    (honest : ∀ item ∈ items, kept item = true ↔ item ∈ place size room items) (before : List α) :
    readBack size kept (items.reverse ++ before) 0 false =
      readBack size kept before (load size (place size room items))
        (decide ((place size room items).length < items.length)) := by
  induction items generalizing room before with
  | nil => rfl
  | cons item rest ih =>
    obtain ⟨fresh, distinct⟩ := List.nodup_cons.mp distinct
    have first := honest item (by simp)
    rw [List.reverse_cons, List.append_assoc, List.singleton_append]
    by_cases fits : size item ≤ room
    · have shape : place size room (item :: rest) = item :: place size (room - size item) rest := by
        rw [place, if_pos fits]
      rw [shape] at first honest
      have later : ∀ other ∈ rest, kept other = true ↔ other ∈ place size (room - size item) rest := by
        intro other member
        have here := honest other (by simp [member])
        rw [here, List.mem_cons, or_iff_right]
        rintro rfl
        exact fresh member
      rw [ih distinct later, shape, readBack, if_pos (first.mpr (by simp))]
      have whole : load size (item :: place size (room - size item) rest) =
          load size (place size (room - size item) rest) + size item := Nat.add_comm _ _
      rw [whole, List.length_cons, List.length_cons]
      simp only [Nat.add_lt_add_iff_right]
    · have shape : place size room (item :: rest) = place size room rest := by rw [place, if_neg fits]
      rw [shape] at first honest
      have later : ∀ other ∈ rest, kept other = true ↔ other ∈ place size room rest := fun other member =>
        honest other (by simp [member])
      have passed : ¬ kept item = true := fun yes => fresh ((place_sublist _ _).subset (first.mp yes))
      -- what did not fit the room left is larger than all that was put into it afterwards
      have larger : ¬ size item ≤ load size (place size room rest) := by
        have most : load size (place size room rest) ≤ room := load_place_le room rest
        omega
      rw [ih distinct later, shape, readBack, if_neg passed, if_neg larger]
      have short : (place size room rest).length < (item :: rest).length :=
        Nat.lt_succ_of_le (place_sublist room rest).length_le
      rw [decide_eq_true short]

end Backwards

end FirstFit
