import Mathlib

/-! A table from which keys are spent and to which others are added. -/

namespace Coins

variable {κ : Type u} {ν : Type v} [DecidableEq κ]

/-- Take keys out of a table. -/
def spend (coins : AList fun _ : κ => ν) (keys : List κ) : AList fun _ : κ => ν :=
  keys.foldl (fun coins key => coins.erase key) coins

/-- Put entries into a table; one under a key that is there takes its place. -/
def create (coins : AList fun _ : κ => ν) (made : List (κ × ν)) : AList fun _ : κ => ν :=
  made.foldl (fun coins entry => coins.insert entry.1 entry.2) coins

variable {coins : AList fun _ : κ => ν} {key : κ}

theorem lookup_spend (keys : List κ) : (spend coins keys).lookup key = if key ∈ keys then
    none else coins.lookup key := by
  induction keys generalizing coins with
  | nil => rfl
  | cons first rest ih =>
    have step : (spend (coins.erase first) rest).lookup key = _ := ih
    rw [spend, List.foldl_cons, ← spend, step]
    by_cases later : key ∈ rest
    · rw [if_pos later, if_pos (List.mem_cons_of_mem _ later)]
    · rw [if_neg later]
      by_cases here : key = first
      · rw [if_pos (List.mem_cons.mpr (.inl here)), here, AList.lookup_erase]
      · rw [if_neg fun member => (List.mem_cons.mp member).elim here later, AList.lookup_erase_ne here]

theorem lookup_create_of_notMem {made : List (κ × ν)} (other : key ∉ made.map Prod.fst) :
    (create coins made).lookup key = coins.lookup key := by
  induction made generalizing coins with
  | nil => rfl
  | cons first rest ih =>
    rw [List.map_cons, List.mem_cons, not_or] at other
    have step : (create (coins.insert first.1 first.2) rest).lookup key = _ := ih other.2
    rw [create, List.foldl_cons, ← create, step, AList.lookup_insert_ne other.1]

theorem mem_create {made : List (κ × ν)} : key ∈ create coins made ↔ key ∈ coins ∨ key ∈ made.map Prod.fst := by
  induction made generalizing coins with
  | nil => simp [create]
  | cons first rest ih =>
    have step : key ∈ create (coins.insert first.1 first.2) rest ↔ _ := ih
    rw [create, List.foldl_cons, ← create, step, AList.mem_insert, List.map_cons, List.mem_cons, or_assoc]
    tauto

theorem mem_spend {keys : List κ} : key ∈ spend coins keys ↔ key ∈ coins ∧ key ∉ keys := by
  rw [← AList.lookup_isSome, ← AList.lookup_isSome, lookup_spend]
  by_cases spent : key ∈ keys
  · simp [spent]
  · simp [spent]

end Coins
