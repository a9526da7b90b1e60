import Mathlib

/-! Finite tables with one entry a key, read by key and thinned by a test on the key. -/

/-- A finite map as the list of its entries. -/
abbrev Table (κ : Type u) (ν : Type v) := AList fun _ : κ => ν

namespace Table

variable {κ : Type u} {ν : Type v} [DecidableEq κ]

def get? (t : Table κ ν) (k : κ) : Option ν := AList.lookup k t

def size (t : Table κ ν) : Nat := t.entries.length

def values (t : Table κ ν) : List ν := t.entries.map Sigma.snd

/-- The entries whose key passes the test. -/
def retain (keep : κ → Bool) (t : Table κ ν) : Table κ ν :=
  ⟨t.entries.filter fun entry => keep entry.fst, t.nodupKeys.sublist List.filter_sublist⟩

@[simp] theorem get?_empty (k : κ) : get? (∅ : Table κ ν) k = none := rfl

theorem mem_entries {t : Table κ ν} {k : κ} {v : ν} : (⟨k, v⟩ : Sigma fun _ : κ => ν) ∈ t.entries ↔
    get? t k = some v :=
  AList.mem_lookup_iff.symm

theorem get?_insert (t : Table κ ν) (k k' : κ) (v : ν) :
    get? (AList.insert k v t) k' = if k' = k then some v else get? t k' := by
  by_cases same : k' = k
  · subst same
    rw [if_pos rfl]
    exact AList.lookup_insert t
  · rw [if_neg same]
    exact AList.lookup_insert_ne same

theorem get?_erase (t : Table κ ν) (k k' : κ) : get? (AList.erase k t) k' = if k' = k then
    none else get? t k' := by
  by_cases same : k' = k
  · subst same
    rw [if_pos rfl]
    exact AList.lookup_erase k' t
  · rw [if_neg same]
    exact AList.lookup_erase_ne same

theorem get?_retain (keep : κ → Bool) (t : Table κ ν) (k : κ) :
    get? (t.retain keep) k = if keep k then get? t k else none := by
  ext v
  have listed : get? (t.retain keep) k = some v ↔ ⟨k, v⟩ ∈ (t.retain keep).entries := AList.mem_lookup_iff
  have present : get? t k = some v ↔ ⟨k, v⟩ ∈ t.entries := AList.mem_lookup_iff
  have kept : (⟨k, v⟩ : Sigma fun _ : κ => ν) ∈ (t.retain keep).entries ↔ ⟨k, v⟩ ∈ t.entries ∧ keep k = true :=
    List.mem_filter
  rw [listed, kept, ← present]
  cases keep k with
  | false => simp
  | true => simp

/-- The entries that pass the test. -/
def sift (keep : κ → ν → Bool) (t : Table κ ν) : Table κ ν :=
  ⟨t.entries.filter fun entry => keep entry.fst entry.snd, t.nodupKeys.sublist List.filter_sublist⟩

theorem get?_sift (keep : κ → ν → Bool) (t : Table κ ν) (k : κ) :
    get? (t.sift keep) k = (get? t k).filter (keep k) := by
  ext v
  have listed : get? (t.sift keep) k = some v ↔ ⟨k, v⟩ ∈ (t.sift keep).entries := AList.mem_lookup_iff
  have present : get? t k = some v ↔ ⟨k, v⟩ ∈ t.entries := AList.mem_lookup_iff
  have kept : (⟨k, v⟩ : Sigma fun _ : κ => ν) ∈ (t.sift keep).entries ↔ ⟨k, v⟩ ∈ t.entries ∧ keep k v = true :=
    List.mem_filter
  rw [listed, kept, ← present, Option.filter_eq_some_iff]

section Size

theorem size_insert_le (t : Table κ ν) (k : κ) (v : ν) : size (AList.insert k v t) ≤ t.size + 1 := by
  unfold size
  rw [AList.entries_insert, List.length_cons]
  exact Nat.succ_le_succ (List.kerase_sublist k t.entries).length_le

/-- A key that is new adds an entry. -/
theorem size_insert_new {t : Table κ ν} {k : κ} (absent : get? t k = none) (v : ν) :
    size (AList.insert k v t) = t.size + 1 := by
  have fresh : k ∉ t.entries.keys := AList.lookup_eq_none.mp absent
  rw [size, AList.entries_insert, List.kerase_of_notMem_keys fresh, List.length_cons, size]

theorem size_erase {t : Table κ ν} {k : κ} {v : ν} (present : get? t k = some v) :
    size (AList.erase k t) + 1 = t.size := by
  have listed : k ∈ t.entries.keys := AList.mem_keys.mp (AList.lookup_isSome.mp (by
    rw [show AList.lookup k t = some v from present]
    rfl))
  obtain ⟨value, before, after, -, shape, erased⟩ := List.exists_of_kerase listed
  show (List.kerase k t.entries).length + 1 = t.entries.length
  rw [erased, shape]
  simp [Nat.add_assoc]

/-- A key that is there already keeps its place. -/
theorem size_insert_old {t : Table κ ν} {k : κ} {v : ν} (present : get? t k = some v) (v' : ν) :
    size (AList.insert k v' t) = t.size := by
  have erased := size_erase present
  rw [size, AList.entries_insert, List.length_cons]
  exact erased

omit [DecidableEq κ] in
theorem entries_of_size_eq_zero {t : Table κ ν} (none : t.size = 0) : t.entries = [] :=
  List.length_eq_zero_iff.mp none

omit [DecidableEq κ] in
theorem size_retain_le (keep : κ → Bool) (t : Table κ ν) : (t.retain keep).size ≤ t.size :=
  List.length_filter_le _ _

theorem values_insert (t : Table κ ν) (k : κ) (v : ν) :
    ∃ rest, values (AList.insert k v t) = v :: rest ∧ rest.Sublist t.values := by
  refine ⟨(List.kerase k t.entries).map Sigma.snd, ?_, (List.kerase_sublist k t.entries).map _⟩
  unfold values
  rw [AList.entries_insert, List.map_cons]

omit [DecidableEq κ] in
theorem values_retain (keep : κ → Bool) (t : Table κ ν) : (t.retain keep).values.Sublist t.values :=
  List.filter_sublist.map _

end Size

end Table
