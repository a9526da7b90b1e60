import Mathlib

/-! When computations that can fail go through: one after another, and over the items of a list. -/

namespace Fallible

variable {ε : Type u} {α β : Type v}

/-- A computation that goes through does so in both of its parts. -/
theorem bind_eq_ok {first : Except ε α} {next : α → Except ε β} {b : β} :
    (first >>= next) = .ok b ↔ ∃ a, first = .ok a ∧ next a = .ok b := by
  cases first with
  | error e => simp [bind, Except.bind]
  | ok a => simp [bind, Except.bind]

/-- A list is read where each of its items is, to what they are read as. -/
theorem mapM_eq_ok {read : α → Except ε β} {worth : α → Prop} {as : α → β}
    (each : ∀ item got, read item = .ok got ↔ worth item ∧ got = as item) {items : List α} {outs : List β} :
    items.mapM read = .ok outs ↔ (∀ item ∈ items, worth item) ∧ outs = items.map as := by
  induction items generalizing outs with
  | nil => exact ⟨fun same => by cases same; simp, fun same => by rw [same.2]; rfl⟩
  | cons item rest ih =>
    rw [List.mapM_cons]
    constructor
    · intro got
      obtain ⟨first, here, got⟩ := bind_eq_ok.mp got
      obtain ⟨others, later, got⟩ := bind_eq_ok.mp got
      obtain ⟨some, rfl⟩ := (each item first).mp here
      obtain ⟨worth, rfl⟩ := ih.mp later
      cases got
      exact ⟨List.forall_mem_cons.mpr ⟨some, worth⟩, rfl⟩
    · rintro ⟨worth, rfl⟩
      obtain ⟨some, others⟩ := List.forall_mem_cons.mp worth
      exact bind_eq_ok.mpr ⟨_, (each item _).mpr ⟨some, rfl⟩, bind_eq_ok.mpr ⟨_, ih.mpr ⟨others, rfl⟩, rfl⟩⟩

/-- A list passes a check where each of its items does. -/
theorem forM_eq_ok {check : α → Except ε PUnit} {items : List α} :
    items.forM check = .ok ⟨⟩ ↔ ∀ item ∈ items, check item = .ok ⟨⟩ := by
  induction items with
  | nil => exact ⟨fun _ => by simp, fun _ => rfl⟩
  | cons item rest ih =>
    rw [List.forall_mem_cons, ← ih]
    exact bind_eq_ok.trans ⟨fun ⟨_, here, later⟩ => ⟨here, later⟩, fun ⟨here, later⟩ => ⟨_, here, later⟩⟩

end Fallible
