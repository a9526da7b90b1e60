import Mathlib

/-! Sums of amounts filed under keys: over a plain list of entries, where a key may be named any
number of times, and over an association list, where it is named once. -/

namespace Tally

variable {κ : Type u} [DecidableEq κ] {ν : Type v} [AddCommMonoid ν]

/-- What a list of entries holds in all under one key. -/
def tally (key : κ) (entries : List (κ × ν)) : ν :=
  (entries.map fun entry => if entry.1 = key then entry.2 else 0).sum

@[simp] theorem tally_nil (key : κ) : tally key ([] : List (κ × ν)) = 0 := rfl

@[simp] theorem tally_cons (key : κ) (entry : κ × ν) (rest : List (κ × ν)) :
    tally key (entry :: rest) = (if entry.1 = key then entry.2 else 0) + tally key rest := rfl

@[simp] theorem tally_append (key : κ) (first second : List (κ × ν)) :
    tally key (first ++ second) = tally key first + tally key second := by
  simp [tally]

/-- Dropping entries that hold nothing changes no sum. -/
theorem tally_filter (key : κ) (entries : List (κ × ν)) (keep : κ × ν → Bool)
    (empty : ∀ entry ∈ entries, keep entry = false → entry.2 = 0) :
    tally key (entries.filter keep) = tally key entries := by
  induction entries with
  | nil => rfl
  | cons entry rest ih =>
    have restEmpty := ih fun other member => empty other (by simp [member])
    by_cases kept : keep entry = true
    · simp [kept, restEmpty]
    · have nothing := empty entry (by simp) (by simpa using kept)
      simp [kept, restEmpty, nothing]

omit [DecidableEq κ] in
theorem sum_filter (entries : List (κ × ν)) (keep : κ × ν → Bool)
    (empty : ∀ entry ∈ entries, keep entry = false → entry.2 = 0) :
    ((entries.filter keep).map Prod.snd).sum = (entries.map Prod.snd).sum := by
  induction entries with
  | nil => rfl
  | cons entry rest ih =>
    have restEmpty := ih fun other member => empty other (by simp [member])
    by_cases kept : keep entry = true
    · simp [kept, restEmpty]
    · have nothing := empty entry (by simp) (by simpa using kept)
      simp [kept, restEmpty, nothing]

/-- Leaving whole keys out leaves the sums under the others. -/
theorem tally_filter_key (key : κ) (entries : List (κ × ν)) (keep : κ → Bool) :
    tally key (entries.filter fun entry => keep entry.1) = if keep key then tally key entries else 0 := by
  induction entries with
  | nil => simp
  | cons entry rest ih =>
    by_cases same : entry.1 = key
    · cases kept : keep key with
      | true => simp [same, kept, ih]
      | false => simp [same, kept, ih]
    · cases kept : keep entry.1 with
      | true => simp [same, kept, ih]
      | false => simp [same, kept, ih]

/-- Items that are passed over count as nothing. -/
theorem tally_filterMap {ι : Type w} (key : κ) (items : List ι) (keep : ι → Bool)
    (name : ι → κ) (amount : ι → ν) :
    tally key (items.filterMap fun item => if keep item then some (name item, amount item) else none) =
      tally key (items.map fun item => (name item, if keep item then amount item else 0)) := by
  induction items with
  | nil => rfl
  | cons item rest ih =>
    cases kept : keep item with
    | true => simp [kept, ih]
    | false => simp [kept, ih]

theorem tally_eq_zero (key : κ) (entries : List (κ × ν))
    (absent : ∀ entry ∈ entries, entry.1 ≠ key) : tally key entries = 0 := by
  induction entries with
  | nil => rfl
  | cons entry rest ih =>
    rw [tally_cons, if_neg (absent entry (by simp)), zero_add]
    exact ih fun other member => absent other (by simp [member])

/-- A key named once holds what its one entry says. -/
theorem tally_of_mem {key : κ} {amount : ν} {entries : List (κ × ν)}
    (distinct : (entries.map Prod.fst).Nodup) (member : (key, amount) ∈ entries) :
    tally key entries = amount := by
  induction entries with
  | nil => simp at member
  | cons entry rest ih =>
    simp only [List.map_cons, List.nodup_cons] at distinct
    rcases List.mem_cons.mp member with same | later
    · subst same
      rw [tally_cons, if_pos rfl, tally_eq_zero, add_zero]
      intro other present same
      exact distinct.1 (List.mem_map.mpr ⟨other, present, same⟩)
    · have different : entry.1 ≠ key := by
        intro same
        exact distinct.1 (List.mem_map.mpr ⟨(key, amount), later, same.symm⟩)
      rw [tally_cons, if_neg different, zero_add, ih distinct.2 later]

/-- The sums under the keys of a duplicate-free list that names every key add up to everything. -/
theorem sum_tally (keys : List κ) (distinct : keys.Nodup) (entries : List (κ × ν))
    (covered : ∀ entry ∈ entries, entry.1 ∈ keys) :
    (keys.map fun key => tally key entries).sum = (entries.map Prod.snd).sum := by
  induction entries with
  | nil => simp
  | cons entry rest ih =>
    have only : (keys.map fun key => if entry.1 = key then entry.2 else 0).sum = entry.2 := by
      have present := covered entry (by simp)
      clear ih covered
      induction keys with
      | nil => simp at present
      | cons key keys ih =>
        obtain ⟨fresh, distinct⟩ := List.nodup_cons.mp distinct
        by_cases same : entry.1 = key
        · have others : ∀ other ∈ keys, (if entry.1 = other then entry.2 else 0) = 0 := by
            intro other member
            rw [if_neg]
            rintro rfl
            exact fresh (same ▸ member)
          rw [List.map_cons, List.sum_cons, if_pos same, List.map_congr_left others]
          simp
        · rw [List.map_cons, List.sum_cons, if_neg same, zero_add]
          exact ih distinct ((List.mem_cons.mp present).resolve_left same)
    simp only [tally_cons, List.sum_map_add, only, List.map_cons, List.sum_cons]
    rw [ih fun other member => covered other (by simp [member])]

/-- The sum under a key, read as an integer, is the sum of the entries so read. -/
theorem cast_tally (key : κ) (entries : List (κ × Nat)) :
    ((tally key entries : Nat) : Int) =
      (entries.map fun entry => ((if entry.1 = key then entry.2 else 0 : Nat) : Int)).sum := by
  induction entries with
  | nil => simp
  | cons entry rest ih => simp [ih]

section Book

variable {β : Type w}

/-- Sum of a measure over the values of an association list. -/
def total (measure : β → ν) (book : AList fun _ : κ => β) : ν :=
  (book.entries.map fun entry => measure entry.2).sum

/-- Taking a key out takes out the measure of what was filed under it. -/
theorem total_erase (measure : β → ν) (book : AList fun _ : κ => β) (key : κ) :
    total measure (book.erase key) + ((book.lookup key).map measure).getD 0 =
      total measure book := by
  by_cases present : key ∈ book.entries.keys
  · obtain ⟨value, before, after, absent, shape, erased⟩ := List.exists_of_kerase present
    have found : book.lookup key = some value := by
      apply List.mem_dlookup_iff book.nodupKeys |>.mpr
      rw [shape]
      simp
    simp only [total, AList.erase, erased, found, Option.map_some, Option.getD_some]
    rw [shape]
    simp only [List.map_append, List.map_cons, List.sum_append, List.sum_cons]
    ac_rfl
  · have missing : book.lookup key = none := AList.lookup_eq_none.mpr present
    simp [total, AList.erase, List.kerase_of_notMem_keys present, missing]

/-- The sum over a book is told by what is looked up in it. -/
theorem total_congr (measure : β → ν) {book book' : AList fun _ : κ => β}
    (same : ∀ key, book.lookup key = book'.lookup key) : total measure book = total measure book' := by
  have entries : book.entries.Perm book'.entries := by
    apply List.lookup_ext book.nodupKeys book'.nodupKeys
    intro key value
    change value ∈ book.lookup key ↔ value ∈ book'.lookup key
    rw [same]
  exact (entries.map _).sum_eq

theorem total_insert (measure : β → ν) (book : AList fun _ : κ => β) (key : κ) (value : β) :
    total measure (book.insert key value) + ((book.lookup key).map measure).getD 0 =
      total measure book + measure value := by
  rw [← total_erase measure book key]
  simp only [total, AList.entries_insert, AList.erase, List.map_cons, List.sum_cons]
  ac_rfl

end Book

end Tally
