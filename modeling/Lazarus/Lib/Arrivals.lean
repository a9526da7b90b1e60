import Lazarus.Lib.Utf8

/-! Lines read off a connection on which nothing may come for a while. A read that waited too long ends in an
error, and what it had taken off by then is kept only if that is text. -/

namespace Arrivals

/-- What a reader meets on a connection. Behind the last of it the other side has closed. -/
inductive Arrival where
  | byte (b : UInt8)
  /-- Nothing comes for longer than a short wait. -/
  | pause
  /-- Nothing comes for longer than any wait. -/
  | quiet
deriving DecidableEq

def newline : UInt8 := 10

/-- The bytes that arrive. -/
def bytes (arrivals : List Arrival) : List UInt8 :=
  arrivals.filterMap fun
    | .byte b => some b
    | _ => none

/-- Bytes up to a newline and with it, at most so many, and whether the read ended well; then what is to come. A
wait that is not short sits out a pause. Quiet is met again by the next read if a short wait ran out on it. -/
def readUntil (short : Bool) : Nat → List Arrival → List UInt8 × Bool × List Arrival
  | 0, rest => ([], true, rest)
  | _ + 1, [] => ([], true, [])
  | limit + 1, .byte b :: rest =>
    if b = newline then ([b], true, rest)
    else
      let (more, well, rest) := readUntil short limit rest
      (b :: more, well, rest)
  | limit + 1, .pause :: rest => if short then ([], false, rest) else readUntil short (limit + 1) rest
  | _ + 1, .quiet :: rest => ([], false, if short then .quiet :: rest else rest)

/-- A line with what was read put behind it, and how many bytes that was. They are put there
only if they are text. -/
def readLine (short : Bool) (limit : Nat) (line : List UInt8) (arrivals : List Arrival) :
    List UInt8 × Option Nat × List Arrival :=
  let (data, well, rest) := readUntil short limit arrivals
  if Utf8.valid data then (line ++ data, if well then some data.length else none, rest) else (line, none, rest)

/-- A line of text with its newline, and no other. -/
structure TextLine (most : Nat) (line : List UInt8) : Prop where
  ended : ∃ body, line = body ++ [newline] ∧ newline ∉ body
  text : Utf8.valid line = true
  short : line.length ≤ most

/-- Before the next newline there is quiet. -/
def Broken (arrivals : List Arrival) : Prop := .quiet ∈ arrivals.takeWhile (· ≠ .byte newline)

instance (arrivals : List Arrival) : Decidable (Broken arrivals) := inferInstanceAs (Decidable (_ ∈ _))

@[simp] theorem bytes_nil : bytes [] = [] := rfl

@[simp] theorem bytes_byte (b : UInt8) (rest : List Arrival) : bytes (.byte b :: rest) = b :: bytes rest := rfl

@[simp] theorem bytes_pause (rest : List Arrival) : bytes (.pause :: rest) = bytes rest := rfl

@[simp] theorem bytes_quiet (rest : List Arrival) : bytes (.quiet :: rest) = bytes rest := rfl

@[simp] theorem bytes_append (first second : List Arrival) : bytes
    (first ++ second) = bytes first ++ bytes second :=
  List.filterMap_append

@[simp] theorem bytes_map_byte (data : List UInt8) : bytes (data.map .byte) = data := by
  induction data with
  | nil => rfl
  | cons b data ih => rw [List.map_cons, bytes_byte, ih]

section Reads

variable {body more : List UInt8} {limit : Nat} {arrivals : List Arrival}

/-- Nothing is read where no byte is to come. -/
theorem readUntil_none (short : Bool) (limit : Nat) (none : bytes arrivals = []) :
    (readUntil short limit arrivals).1 = [] ∧ bytes (readUntil short limit arrivals).2.2 = [] := by
  induction arrivals with
  | nil => cases limit <;> exact ⟨rfl, rfl⟩
  | cons event rest ih =>
    cases limit with
    | zero => exact ⟨rfl, none⟩
    | succ limit =>
      cases event with
      | byte b => cases none
      | pause =>
        unfold readUntil
        split
        · exact ⟨rfl, none⟩
        · exact ih none
      | quiet =>
        unfold readUntil
        split
        · exact ⟨rfl, none⟩
        · exact ⟨rfl, none⟩

/-- A short wait is over with the next line, or runs out on it. -/
theorem readUntil_short (coming : bytes arrivals = body ++ newline :: more) (single : newline ∉ body)
    (room : body.length < limit) :
    (∃ rest, readUntil true limit arrivals = (body ++ [newline], true, rest) ∧
      arrivals = (body ++ [newline]).map .byte ++ rest) ∨
    ∃ part left rest, readUntil true limit arrivals = (part, false, rest) ∧ part ++ left = body ∧
      bytes rest = left ++ newline :: more ∧ (∃ event after, arrivals = part.map .byte ++ event :: after ∧
        (event = .pause ∨ event = .quiet)) ∧ (Broken rest ↔ Broken (arrivals.drop part.length)) := by
  induction arrivals generalizing body limit with
  | nil => simp at coming
  | cons event rest ih =>
    obtain ⟨limit, rfl⟩ : ∃ k, limit = k + 1 := ⟨limit - 1, by omega⟩
    cases event with
    | byte b =>
      rw [bytes_byte] at coming
      cases body with
      | nil =>
        obtain ⟨rfl, -⟩ := List.cons.inj coming
        exact .inl ⟨rest, if_pos rfl, rfl⟩
      | cons c body =>
        obtain ⟨rfl, later⟩ := List.cons.inj coming
        obtain ⟨other, single⟩ : newline ≠ b ∧ newline ∉ body := by simpa using single
        rw [List.length_cons] at room
        rw [readUntil, if_neg (Ne.symm other)]
        rcases ih later single (Nat.lt_of_succ_lt_succ room) with ⟨after,
          read, shape⟩ | ⟨part, left, after, read, split, still, shape, quiet⟩
        · left
          exact ⟨after, by rw [read]; rfl, by rw [shape]; rfl⟩
        · right
          obtain ⟨event, last, shape, kind⟩ := shape
          exact ⟨b :: part, left, after, by rw [read], by rw [List.cons_append, split], still,
            ⟨event, last, by rw [shape]; rfl, kind⟩, quiet⟩
    | pause =>
      right
      refine ⟨[], body, rest, rfl, rfl, coming, ⟨.pause, rest, rfl, .inl rfl⟩, ?_⟩
      simp [Broken]
    | quiet => exact .inr ⟨[], body, .quiet :: rest, rfl, rfl, coming, ⟨.quiet, rest, rfl, .inr rfl⟩, Iff.rfl⟩

/-- A long wait is over with the next line, unless there is quiet before that. -/
theorem readUntil_long (coming : bytes arrivals = body ++ newline :: more) (single : newline ∉ body)
    (room : body.length < limit) :
    (∃ rest, readUntil false limit arrivals = (body ++ [newline], true, rest) ∧
      bytes rest = more ∧ ¬ Broken arrivals) ∨
    ∃ part left rest, readUntil false limit arrivals = (part, false, rest) ∧ part ++ left = body ∧
      bytes rest = left ++ newline :: more ∧ Broken arrivals := by
  induction arrivals generalizing body limit with
  | nil => simp at coming
  | cons event rest ih =>
    obtain ⟨limit, rfl⟩ : ∃ k, limit = k + 1 := ⟨limit - 1, by omega⟩
    cases event with
    | byte b =>
      rw [bytes_byte] at coming
      cases body with
      | nil =>
        obtain ⟨rfl, later⟩ := List.cons.inj coming
        exact .inl ⟨rest, if_pos rfl, later, by simp [Broken]⟩
      | cons c body =>
        obtain ⟨rfl, later⟩ := List.cons.inj coming
        obtain ⟨other, single⟩ : newline ≠ b ∧ newline ∉ body := by simpa using single
        rw [List.length_cons] at room
        have same : Broken (.byte b :: rest) ↔ Broken rest := by simp [Broken, Ne.symm other]
        rw [readUntil, if_neg (Ne.symm other), same]
        rcases ih later single (Nat.lt_of_succ_lt_succ room) with ⟨after,
          read, still, whole⟩ | ⟨part, left, after, read, split, still, broken⟩
        · exact .inl ⟨after, by rw [read]; rfl, still, whole⟩
        · exact .inr ⟨b :: part, left, after, by rw [read], by rw [List.cons_append, split], still, broken⟩
    | pause =>
      have same : Broken (.pause :: rest) ↔ Broken rest := by simp [Broken]
      rw [same]
      exact ih coming single room
    | quiet => exact .inr ⟨[], body, rest, rfl, rfl, coming, by simp [Broken]⟩

end Reads

end Arrivals
