import Mathlib

/-! The worker part of a share's username. What the address decoders take is a parameter. -/

namespace Lazarus.Primed

def maxNameLen : Nat := 32

section Characters

def isWhitespace (c : Char) : Bool :=
  let n := c.toNat
  9 ≤ n && n ≤ 13 || n = 0x20 || n = 0x85 || n = 0xa0 || n = 0x1680 || 0x2000 ≤ n && n ≤ 0x200a || n = 0x2028 ||
    n = 0x2029 || n = 0x202f || n = 0x205f || n = 0x3000

def isGraphic (c : Char) : Bool := 0x21 ≤ c.toNat && c.toNat ≤ 0x7e

def printable (c : Char) : Char := if isGraphic c then c else '_'

def trim (text : List Char) : List Char :=
  ((text.dropWhile isWhitespace).reverse.dropWhile isWhitespace).reverse

/-- Length in bytes. -/
def byteLength (text : List Char) : Nat := (text.map Char.utf8Size).sum

end Characters

variable (decodes : List Char → Bool)

/-- Whether a text is an address on some network. -/
def looksLikeAddress (text : List Char) : Bool :=
  let text := trim text
  if byteLength text < 14 || 90 < byteLength text then false else decodes text

/-- Up to the next dot or modifier. -/
def inPart (c : Char) : Bool := c ≠ '.' && c ≠ '~'

/-- What stands behind an address and its modifier, where one stands in front. -/
def behindAddress (raw : List Char) : List Char :=
  if looksLikeAddress decodes (raw.takeWhile inPart) then
    let rest := raw.dropWhile inPart
    let rest := if rest.head? = some '~' then rest.dropWhile (· ≠ '.') else rest
    if rest.head? = some '.' then rest.drop 1 else rest
  else raw

/-- A name that is short and printable as it is, or is made so. -/
def cutName (raw : List Char) : List Char :=
  if byteLength raw ≤ maxNameLen && raw.all isGraphic then raw else (raw.take maxNameLen).map printable

/-- The worker part of a username: what follows the first dot, up to a modifier, without an address in front. -/
def workerOf (username : List Char) : List Char :=
  match (trim username).dropWhile (· ≠ '.') with
  | [] => []
  | _ :: raw => cutName ((behindAddress decodes raw).takeWhile (· ≠ '~'))

/-- The part of a username that its worker name starts with, as the miner typed it. -/
def firstPart (username : List Char) : List Char :=
  match (trim username).dropWhile (· ≠ '.') with
  | [] => []
  | _ :: raw => (behindAddress decodes raw).takeWhile inPart

section Characters

private theorem isGraphic_printable (c : Char) : isGraphic (printable c) = true := by
  unfold printable
  split
  · assumption
  · decide

private theorem printable_eq_iff {mark : Char} (shown : isGraphic mark = true) (other : mark ≠ '_') (c : Char) :
    printable c = mark ↔ c = mark := by
  unfold printable
  split
  · rfl
  · rename_i hidden
    constructor
    · intro same
      exact absurd same.symm other
    · rintro rfl
      exact absurd shown hidden

private theorem not_isWhitespace {c : Char} (shown : isGraphic c = true) : isWhitespace c = false := by
  simp only [isGraphic, Bool.and_eq_true, decide_eq_true_eq] at shown
  simp only [isWhitespace, Bool.or_eq_false_iff, Bool.and_eq_false_iff, decide_eq_false_iff_not]
  omega

private theorem trim_eq {text : List Char} (shown : text.all isGraphic = true) : trim text = text := by
  have kept : ∀ text : List Char, text.all isGraphic = true → text.dropWhile isWhitespace = text := by
    intro text shown
    cases text with
    | nil => rfl
    | cons c rest =>
      have first := not_isWhitespace (List.all_eq_true.mp shown c (by simp))
      rw [List.dropWhile_cons_of_neg (by simp [first])]
  unfold trim
  rw [kept text shown, kept text.reverse (by simpa using shown), List.reverse_reverse]

private theorem length_le_byteLength (text : List Char) : text.length ≤ byteLength text := by
  induction text with
  | nil => exact Nat.zero_le _
  | cons c rest ih =>
    have size := Char.utf8Size_pos c
    rw [byteLength, List.map_cons, List.sum_cons, List.length_cons]
    rw [byteLength] at ih
    omega

end Characters

private theorem cutName_eq (raw : List Char) : cutName raw = (raw.take maxNameLen).map printable := by
  unfold cutName
  split
  · rename_i plain
    simp only [Bool.and_eq_true, decide_eq_true_eq, List.all_eq_true] at plain
    rw [List.take_of_length_le ((length_le_byteLength raw).trans plain.1)]
    symm
    exact (List.map_congr_left fun c member => if_pos (plain.2 c member)).trans (List.map_id raw)
  · rfl

section Name

variable {decodes}

private theorem looksLikeAddress_nil : looksLikeAddress decodes [] = false := rfl

private theorem length_behindAddress_lt {raw : List Char}
    (found : looksLikeAddress decodes (raw.takeWhile inPart) = true) :
    (behindAddress decodes raw).length < raw.length := by
  have pos : 0 < (raw.takeWhile inPart).length := by
    refine List.length_pos_iff.mpr fun none => ?_
    rw [none, looksLikeAddress_nil] at found
    cases found
  have whole : (raw.takeWhile inPart).length + (raw.dropWhile inPart).length = raw.length := by
    rw [← List.length_append, List.takeWhile_append_dropWhile]
  have fewer : (behindAddress decodes raw).length ≤ (raw.dropWhile inPart).length := by
    obtain ⟨rest, unmodified⟩ : ∃ rest, rest = if (raw.dropWhile inPart).head? = some '~' then
        (raw.dropWhile inPart).dropWhile (· ≠ '.') else raw.dropWhile inPart := ⟨_, rfl⟩
    have behind : rest.length ≤ (raw.dropWhile inPart).length := by
      rw [unmodified]
      split
      · exact ((raw.dropWhile inPart).dropWhile_sublist (· ≠ '.')).length_le
      · exact le_rfl
    unfold behindAddress
    rw [if_pos found]
    dsimp only
    rw [← unmodified]
    split
    · exact (List.drop_sublist 1 _).length_le.trans behind
    · exact behind
  omega

private theorem length_cutName_le (raw : List Char) : (cutName raw).length ≤ min maxNameLen raw.length := by
  rw [cutName_eq, List.length_map, List.length_take]

private theorem all_cutName (raw : List Char) : (cutName raw).all isGraphic = true := by
  rw [cutName_eq, List.all_map, List.all_eq_true]
  exact fun c _ => isGraphic_printable c

private theorem cutName_self {name : List Char} (short : name.length ≤ maxNameLen)
    (shown : name.all isGraphic = true) : cutName name = name := by
  rw [cutName_eq, List.take_of_length_le short]
  exact (List.map_congr_left fun c member => if_pos (List.all_eq_true.mp shown c member)).trans
    (List.map_id name)

private theorem workerOf_shape (username : List Char) :
    (workerOf decodes username).length ≤ maxNameLen ∧ (workerOf decodes username).all isGraphic = true ∧
      '~' ∉ workerOf decodes username := by
  unfold workerOf
  split
  · exact ⟨Nat.zero_le _, rfl, List.not_mem_nil⟩
  · rename_i raw _
    refine ⟨(length_cutName_le _).trans (Nat.min_le_left _ _), all_cutName _, fun member => ?_⟩
    rw [cutName_eq] at member
    obtain ⟨c, taken, same⟩ := List.mem_map.mp member
    have typed := List.mem_takeWhile_imp (List.mem_of_mem_take taken)
    rw [printable_eq_iff (by decide) (by decide)] at same
    subst same
    simp at typed

private theorem takeWhile_workerOf (username : List Char) : (workerOf decodes username).takeWhile inPart =
    ((firstPart decodes username).take maxNameLen).map printable := by
  have shown : inPart ∘ printable = inPart := by
    funext c
    have dot := @printable_eq_iff '.' (by decide) (by decide) c
    have modifier := @printable_eq_iff '~' (by decide) (by decide) c
    simp [inPart, dot, modifier]
  unfold workerOf firstPart
  split
  · rfl
  · rename_i raw _
    have parts : (fun c => decide (inPart c = true ∧ decide (c ≠ '~') = true)) = inPart := by
      funext c
      simp [inPart]
    rw [cutName_eq, List.takeWhile_map, shown, ← List.take_takeWhile, List.takeWhile_takeWhile, parts]

private theorem workerOf_again_iff {name : List Char} (short : name.length ≤ maxNameLen)
    (shown : name.all isGraphic = true) (plain : '~' ∉ name) :
    workerOf decodes ("addr.".toList ++ name) = name ↔
      looksLikeAddress decodes (name.takeWhile inPart) = false := by
  have whole : trim ("addr.".toList ++ name) = "addr.".toList ++ name := by
    apply trim_eq
    rw [List.all_append, shown]
    decide
  have behind : ("addr.".toList ++ name).dropWhile (· ≠ '.') = '.' :: name := rfl
  unfold workerOf
  rw [whole, behind]
  dsimp only
  cases found : looksLikeAddress decodes (name.takeWhile inPart) with
  | false =>
    have kept : behindAddress decodes name = name := by
      unfold behindAddress
      simp [found]
    have all : name.takeWhile (· ≠ '~') = name := by
      rw [List.takeWhile_eq_self_iff]
      exact fun c member => decide_eq_true fun same => plain (same ▸ member)
    simp only [kept, all, cutName_self short shown]
  | true =>
    refine iff_of_false (fun same => ?_) (by decide)
    have less := length_behindAddress_lt found
    have taken := ((behindAddress decodes name).takeWhile_sublist (· ≠ '~')).length_le
    have cut := length_cutName_le ((behindAddress decodes name).takeWhile (· ≠ '~'))
    rw [same] at cut
    omega

end Name

/-- **Worker names are a normal form** exactly where what the miner typed first, cut and made printable, is not
an address. They are short and printable in any case. -/
theorem workerOf_normal_iff (username : List Char) :
    ((workerOf decodes username).length ≤ maxNameLen ∧ (workerOf decodes username).all isGraphic = true ∧
        '~' ∉ workerOf decodes username) ∧
      (workerOf decodes ("addr.".toList ++ workerOf decodes username) = workerOf decodes username ↔
        looksLikeAddress decodes (((firstPart decodes username).take maxNameLen).map printable) = false) := by
  obtain ⟨short, shown, plain⟩ := @workerOf_shape decodes username
  refine ⟨⟨short, shown, plain⟩, ?_⟩
  rw [workerOf_again_iff short shown plain, takeWhile_workerOf]

/-- An address that is itself short enough to be a name. -/
def shortAddress : List Char := "1111111111111111111114oLvT2".toList

/-- Two addresses typed in front of a name. -/
def nestedUsername : List Char := "pool.".toList ++ shortAddress ++ '.' :: shortAddress ++ ".r".toList

/-- One of the two addresses is left in the name, and a second look takes it off. -/
theorem worker_renamed :
    workerOf (· = shortAddress) nestedUsername = shortAddress ++ ".r".toList ∧
      workerOf (· = shortAddress) ("addr.".toList ++ workerOf (· = shortAddress) nestedUsername) = "r".toList ∧
      workerOf (· = shortAddress) ("addr.".toList ++ workerOf (· = shortAddress) nestedUsername) ≠
        workerOf (· = shortAddress) nestedUsername := by
  decide

end Lazarus.Primed
