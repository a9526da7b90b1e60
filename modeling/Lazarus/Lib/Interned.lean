import Lazarus.Lib.Tally

/-! An interning table, and amounts filed in association lists under the table's indices. A name
that was never interned holds nothing. -/

/-- Names in the order they were first met, each once. A name's index is its position. -/
structure Interner (α : Type u) where
  names : List α := []
  distinct : names.Nodup := by simp

namespace Interner

variable {α : Type u} [DecidableEq α]

def size (table : Interner α) : Nat := table.names.length

def position (table : Interner α) (name : α) : Option Nat := table.names.idxOf? name

def name? (table : Interner α) (index : Nat) : Option α := table.names[index]?

/-- Look a name up, adding it at the end if it is new. -/
def intern (table : Interner α) (name : α) : Interner α :=
  if known : name ∈ table.names then table
  else ⟨table.names ++ [name], by
    rw [List.nodup_append]
    simp only [List.nodup_cons, List.mem_singleton]
    refine ⟨table.distinct, by simp, ?_⟩
    rintro other member _ rfl rfl
    exact known member⟩

theorem intern_of_mem {table : Interner α} (known : name ∈ table.names) : table.intern name = table := by
  unfold intern
  rw [dif_pos known]

theorem names_intern_of_not_mem {table : Interner α} (fresh : name ∉ table.names) :
    (table.intern name).names = table.names ++ [name] := by
  unfold intern
  rw [dif_neg fresh]

/-- New names, met one after the other, are listed in that order. -/
theorem names_foldl_intern {table : Interner α} {fresh : List α} (distinct : (table.names ++ fresh).Nodup) :
    (fresh.foldl intern table).names = table.names ++ fresh := by
  induction fresh generalizing table with
  | nil => simp
  | cons name rest ih =>
    have absent : name ∉ table.names := by
      intro known
      exact (List.nodup_append.mp distinct).2.2 name known name (by simp) rfl
    have grown := names_intern_of_not_mem absent
    rw [List.foldl_cons, ih (by rw [grown]; simpa using distinct), grown,
      List.append_assoc, List.singleton_append]

theorem position_lt {table : Interner α} (found : table.position name = some index) :
    index < table.size := (List.idxOf?_eq_some_iff.mp found).1

theorem name?_position {table : Interner α} (found : table.position name = some index) :
    table.name? index = some name := by
  obtain ⟨bound, same, _⟩ := List.idxOf?_eq_some_iff.mp found
  exact List.getElem?_eq_some_iff.mpr ⟨bound, same⟩

theorem position_name? {table : Interner α} (found : table.name? index = some name) :
    table.position name = some index := by
  obtain ⟨bound, same⟩ := List.getElem?_eq_some_iff.mp found
  refine List.idxOf?_eq_some_iff.mpr ⟨bound, same, ?_⟩
  intro earlier lower
  rw [← same]
  exact fun repeated => absurd ((List.Nodup.getElem_inj_iff table.distinct).mp repeated) (Nat.ne_of_lt lower)

theorem position_injective {table : Interner α} (first : table.position a = some index)
    (second : table.position b = some index) : a = b :=
  Option.some.inj ((name?_position first).symm.trans (name?_position second))

theorem position_eq_none {table : Interner α} : table.position name = none ↔ name ∉ table.names :=
  List.idxOf?_eq_none_iff

theorem position_intern_known {table : Interner α} (found : table.position name = some index)
    (other : α) : (table.intern other).position name = some index := by
  unfold intern
  split
  · exact found
  · rename_i fresh
    obtain ⟨bound, same, first⟩ := List.idxOf?_eq_some_iff.mp found
    refine List.idxOf?_eq_some_iff.mpr ⟨by simp; omega, ?_, ?_⟩
    · rw [List.getElem_append_left bound]
      exact same
    · intro earlier lower
      rw [List.getElem_append_left (by omega)]
      exact first earlier lower

theorem position_intern_fresh {table : Interner α} (fresh : table.position name = none) :
    (table.intern name).position name = some table.size := by
  have absent := position_eq_none.mp fresh
  apply position_name?
  simp [intern, absent, name?, size]

theorem position_intern_other {table : Interner α} (different : other ≠ name) :
    (table.intern name).position other = table.position other := by
  cases found : table.position other with
  | some index => exact position_intern_known found name
  | none =>
    have absent := position_eq_none.mp found
    apply position_eq_none.mpr
    unfold intern
    split
    · exact absent
    · simp [absent, different]

theorem size_le_intern (table : Interner α) (name : α) : table.size ≤ (table.intern name).size := by
  unfold intern size
  split
  · exact Nat.le_refl _
  · simp

/-- An interned name has an index. -/
theorem exists_position_intern (table : Interner α) (name : α) :
    ∃ index, (table.intern name).position name = some index := by
  cases found : table.position name with
  | some index => exact ⟨index, position_intern_known found name⟩
  | none => exact ⟨table.size, position_intern_fresh found⟩

section Amounts

/-- Amounts by index. -/
abbrev Book := AList fun _ : Nat => Nat

/-- Every index a book files under is one the table has given out. -/
def Known (table : Interner α) (book : Book) : Prop := ∀ index ∈ book, index < table.size

instance (table : Interner α) (book : Book) : Decidable (table.Known book) :=
  inferInstanceAs (Decidable (∀ index ∈ book.keys, index < table.size))

/-- File an amount, keeping only indices that hold something. -/
def put (book : Book) (index amount : Nat) : Book :=
  if amount = 0 then book.erase index else book.insert index amount

def amount (table : Interner α) (book : Book) (name : α) : Nat :=
  ((table.position name).bind fun index => book.lookup index).getD 0

theorem Known.intern {table : Interner α} {book : Book} (known : table.Known book) (name : α) :
    (table.intern name).Known book :=
  fun index member => Nat.lt_of_lt_of_le (known index member) (table.size_le_intern name)

omit [DecidableEq α] in
theorem Known.insert {table : Interner α} {book : Book} (known : table.Known book)
    (bound : index < table.size) (amount : Nat) : table.Known (book.insert index amount) := by
  intro other member
  rcases (AList.mem_insert book).mp member with same | earlier
  · exact same ▸ bound
  · exact known other earlier

omit [DecidableEq α] in
theorem Known.erase {table : Interner α} {book : Book} (known : table.Known book) (index : Nat) :
    table.Known (book.erase index) :=
  fun other member => known other (AList.mem_erase.mp member).2

omit [DecidableEq α] in
theorem Known.put {table : Interner α} {book : Book} (known : table.Known book)
    (bound : index < table.size) (amount : Nat) : table.Known (put book index amount) := by
  unfold Interner.put
  split
  · exact known.erase index
  · exact known.insert bound amount

/-- Interning a name moves no amount: an index not yet given out files nothing. -/
theorem amount_intern {table : Interner α} {book : Book} (known : table.Known book)
    (name other : α) : (table.intern name).amount book other = table.amount book other := by
  unfold amount
  by_cases different : other = name
  · subst different
    cases found : table.position other with
    | some index => rw [position_intern_known found]
    | none =>
      have missing : book.lookup table.size = none :=
        AList.lookup_eq_none.mpr fun member => Nat.lt_irrefl _ (known _ member)
      simp [position_intern_fresh found, missing]
  · rw [position_intern_other different]

theorem lookup_getD_position {table : Interner α} {book : Book}
    (found : table.position name = some index) :
    (book.lookup index).getD 0 = table.amount book name := by
  simp [amount, found]

theorem lookup_put (book : Book) (index amount other : Nat) :
    ((put book index amount).lookup other).getD 0 =
      if other = index then amount else (book.lookup other).getD 0 := by
  unfold put
  by_cases same : other = index
  · subst same
    split
    · simp_all
    · simp
  · split
    · simp [AList.lookup_erase_ne same]
    · simp [AList.lookup_insert_ne same]

/-- Filing under a name's index sets that name's amount and no other. -/
theorem amount_put {table : Interner α} {book : Book} (found : table.position name = some index)
    (sats : Nat) (other : α) :
    table.amount (put book index sats) other =
      if other = name then sats else table.amount book other := by
  unfold amount
  cases located : table.position other with
  | none =>
    have different : other ≠ name := by
      rintro rfl
      rw [found] at located
      cases located
    simp [different]
  | some place =>
    simp only [Option.bind_some, lookup_put]
    by_cases same : other = name
    · subst same
      have equal := Option.some.inj (located.symm.trans found)
      simp [equal]
    · have elsewhere : place ≠ index := by
        rintro rfl
        exact same (position_injective located found)
      simp [same, elsewhere]

/-- Filing moves the book's total by what it puts there less what was there. -/
theorem total_put (book : Book) (index amount : Nat) :
    Tally.total id (put book index amount) + (book.lookup index).getD 0 =
      Tally.total id book + amount := by
  have kept : ((book.lookup index).map id).getD 0 = (book.lookup index).getD 0 := by simp
  unfold put
  split
  · rename_i nothing
    rw [nothing, ← kept, Tally.total_erase, Nat.add_zero]
  · rw [← kept, Tally.total_insert]
    rfl

end Amounts

end Interner
