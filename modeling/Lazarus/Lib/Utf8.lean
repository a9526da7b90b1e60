import Mathlib

/-! Bytes read as text. What is not UTF-8 is replaced, one replacement character for each longest piece that
could have begun a character. -/

namespace Utf8

/-- The bytes of a text. -/
def bytes (s : String) : List UInt8 := s.toByteArray.data.toList

/-- The character that starts a byte string. -/
def first? (data : List UInt8) : Option Char := data.toByteArray.utf8DecodeChar? 0

/-- Whether a byte may follow the first of a character of three or four bytes. -/
def follows (lead second : UInt8) : Bool :=
  if lead = 0xe0 then 0xa0 ≤ second && second ≤ 0xbf
  else if lead = 0xed then 0x80 ≤ second && second ≤ 0x9f
  else if lead = 0xf0 then 0x90 ≤ second && second ≤ 0xbf
  else if lead = 0xf4 then 0x80 ≤ second && second ≤ 0x8f
  else 0x80 ≤ second && second ≤ 0xbf

/-- How much of a byte string that no character starts is replaced together. -/
def broken : List UInt8 → Nat
  | lead :: second :: rest =>
    if 0xe0 ≤ lead && lead ≤ 0xf4 && follows lead second then
      if 0xf0 ≤ lead && rest.head?.any (fun third => 0x80 ≤ third && third ≤ 0xbf) then 3 else 2
    else 1
  | _ => 1

/-- The characters of a byte string of at most this many bytes. -/
def chars : Nat → List UInt8 → List Char
  | 0, _ => []
  | _, [] => []
  | count + 1, data =>
    match first? data with
    | some c => c :: chars count (data.drop c.utf8Size)
    | none => '\ufffd' :: chars count (data.drop (broken data))

/-- A byte string as text, with what is not UTF-8 replaced. -/
def lossy (data : List UInt8) : String := String.ofList (chars data.length data)

theorem bytes_ofList (text : List Char) : bytes (String.ofList text) = text.flatMap String.utf8EncodeChar := by
  simp [bytes, String.ofList, List.utf8Encode]

theorem first?_encodeChar (c : Char) (rest : List UInt8) : first?
    (String.utf8EncodeChar c ++ rest) = some c := by
  rw [first?, List.toByteArray_append]
  exact ByteArray.utf8DecodeChar?_utf8EncodeChar_append

/-- Text read back from its own bytes. -/
theorem chars_flatMap (text : List Char) {count : Nat}
    (enough : (text.flatMap String.utf8EncodeChar).length ≤ count) :
    chars count (text.flatMap String.utf8EncodeChar) = text := by
  induction text generalizing count with
  | nil => cases count <;> rfl
  | cons c text ih =>
    have size := c.utf8Size_pos
    rw [List.flatMap_cons, List.length_append, String.length_utf8EncodeChar] at enough
    cases count with
    | zero => omega
    | succ count =>
      rw [List.flatMap_cons]
      have here : chars (count + 1) (String.utf8EncodeChar c ++ text.flatMap String.utf8EncodeChar) =
          c :: chars count
            ((String.utf8EncodeChar c ++ text.flatMap String.utf8EncodeChar).drop c.utf8Size) := by
        rw [chars, first?_encodeChar]
        intro nothing
        have short := congrArg List.length nothing
        rw [List.length_append, String.length_utf8EncodeChar, List.length_nil] at short
        omega
      rw [here, ← String.length_utf8EncodeChar c, List.drop_left, ih (by omega)]

@[simp] theorem lossy_bytes (s : String) : lossy (bytes s) = s := by
  obtain ⟨text, rfl⟩ : ∃ text, s = String.ofList text := ⟨s.toList, String.ofList_toList.symm⟩
  rw [lossy, bytes_ofList, chars_flatMap text (Nat.le_refl _)]

section Valid

/-- A byte string is UTF-8 where reading it as text loses nothing. -/
def valid (data : List UInt8) : Bool := (chars data.length data).flatMap String.utf8EncodeChar == data

theorem valid_iff {data : List UInt8} : valid data = true ↔
    ∃ text : List Char, data = text.flatMap String.utf8EncodeChar := by
  constructor
  · intro same
    exact ⟨_, (beq_iff_eq.mp same).symm⟩
  · rintro ⟨text, rfl⟩
    rw [valid, chars_flatMap text (Nat.le_refl _)]
    exact beq_self_eq_true _

@[simp] theorem valid_nil : valid [] = true := rfl

/-- What follows text in text is text: no character is cut by the end of another. -/
theorem valid_of_append {first second : List UInt8} (here : valid first = true)
    (whole : valid (first ++ second) = true) : valid second = true := by
  obtain ⟨text, rfl⟩ := valid_iff.mp here
  obtain ⟨all, same⟩ := valid_iff.mp whole
  clear here whole
  induction text generalizing all with
  | nil => exact valid_iff.mpr ⟨all, same⟩
  | cons c text ih =>
    rw [List.flatMap_cons, List.append_assoc] at same
    have lead := first?_encodeChar c (text.flatMap String.utf8EncodeChar ++ second)
    cases all with
    | nil =>
      rw [same] at lead
      cases lead
    | cons d all =>
      rw [same, List.flatMap_cons, first?_encodeChar] at lead
      obtain rfl := Option.some.inj lead
      rw [List.flatMap_cons] at same
      exact ih all (List.append_cancel_left same)

end Valid

end Utf8
