import Mathlib

/-! Left folds read as runs of a step function. A side condition that must hold before each step is
`Along`; an invariant or a measure is then carried over the whole run by one induction. -/

namespace Run

variable {σ : Type u} {α : Type v}

/-- Every step of a run is taken from a state in which it is allowed. -/
def Along (ok : σ → α → Prop) (step : σ → α → σ) : σ → List α → Prop
  | _, [] => True
  | s, a :: rest => ok s a ∧ Along ok step (step s a) rest

instance Along.decidable (ok : σ → α → Prop) [allowed : ∀ s a, Decidable (ok s a)]
    (step : σ → α → σ) : (s : σ) → (run : List α) → Decidable (Along ok step s run)
  | _, [] => .isTrue trivial
  | s, a :: rest =>
    have := Along.decidable ok step (step s a) rest
    inferInstanceAs (Decidable (ok s a ∧ Along ok step (step s a) rest))

@[simp] theorem along_nil {ok : σ → α → Prop} {step : σ → α → σ} {s : σ} :
    Along ok step s [] := trivial

@[simp] theorem along_cons {ok : σ → α → Prop} {step : σ → α → σ} {s : σ} {a : α} {rest : List α} :
    Along ok step s (a :: rest) ↔ ok s a ∧ Along ok step (step s a) rest := Iff.rfl

theorem along_append {ok : σ → α → Prop} {step : σ → α → σ} {s : σ} {first second : List α} :
    Along ok step s (first ++ second) ↔
      Along ok step s first ∧ Along ok step (first.foldl step s) second := by
  induction first generalizing s with
  | nil => simp
  | cons a rest ih => simp [ih, and_assoc]

/-- Any step is allowed when the condition asks nothing. -/
theorem along_of_forall {ok : σ → α → Prop} (step : σ → α → σ) (every : ∀ s a, ok s a)
    (s : σ) (run : List α) : Along ok step s run := by
  induction run generalizing s with
  | nil => trivial
  | cons a rest ih => exact ⟨every s a, ih _⟩

/-- Every step is allowed where an invariant that every step keeps says so. -/
theorem along_of_kept {ok : σ → α → Prop} {step : σ → α → σ} (inv : σ → Prop) (allows : ∀ s a, inv s → ok s a)
    (kept : ∀ s a, inv s → inv (step s a)) {s : σ} (run : List α) (start : inv s) : Along ok step s run := by
  induction run generalizing s with
  | nil => trivial
  | cons a rest ih => exact ⟨allows s a start, ih (kept s a start)⟩

/-- What is known of every label of a run may be used at each of its steps. -/
theorem Along.and_mem {ok : σ → α → Prop} {step : σ → α → σ} {s : σ} {run : List α}
    (allowed : Along ok step s run) (known : α → Prop) (labels : ∀ a ∈ run, known a) :
    Along (fun s a => ok s a ∧ known a) step s run := by
  induction run generalizing s with
  | nil => trivial
  | cons a rest ih =>
    exact ⟨⟨allowed.1, labels a (by simp)⟩, ih allowed.2 fun b member => labels b (by simp [member])⟩

/-- An invariant kept by every allowed step holds after an allowed run. -/
theorem foldl_invariant {ok : σ → α → Prop} {step : σ → α → σ} (inv : σ → Prop)
    (kept : ∀ s a, inv s → ok s a → inv (step s a)) {s : σ} {run : List α}
    (allowed : Along ok step s run) (start : inv s) : inv (run.foldl step s) := by
  induction run generalizing s with
  | nil => exact start
  | cons a rest ih => exact ih allowed.2 (kept s a start allowed.1)

/-- An invariant kept by every step holds after any run. -/
theorem foldl_kept (step : σ → α → σ) (inv : σ → Prop) (kept : ∀ s a, inv s → inv (step s a))
    {s : σ} (run : List α) (start : inv s) : inv (run.foldl step s) := by
  have allowed : Along (fun _ _ => True) step s run := along_of_forall step (fun _ _ => trivial) s run
  exact foldl_invariant inv (fun s a holds _ => kept s a holds) allowed start

/-- An invariant kept by every step whose label the run has holds after it. -/
theorem foldl_mem (step : σ → α → σ) (inv : σ → Prop) {run : List α}
    (kept : ∀ s, ∀ a ∈ run, inv s → inv (step s a)) {s : σ} (start : inv s) : inv (run.foldl step s) := by
  induction run generalizing s with
  | nil => exact start
  | cons a rest ih =>
    exact ih (fun s b member => kept s b (by simp [member])) (kept s a (by simp) start)

/-- A measure that every allowed step moves by the weight of its label moves, over an allowed run,
by the sum of the weights. -/
theorem foldl_measure [AddCommMonoid ν] {ok : σ → α → Prop} {step : σ → α → σ}
    (measure : σ → ν) (weight : α → ν)
    (moved : ∀ s a, ok s a → measure (step s a) = measure s + weight a) {s : σ} {run : List α}
    (allowed : Along ok step s run) :
    measure (run.foldl step s) = measure s + (run.map weight).sum := by
  induction run generalizing s with
  | nil => simp
  | cons a rest ih =>
    rw [List.foldl_cons, ih allowed.2, moved s a allowed.1, List.map_cons, List.sum_cons, add_assoc]

/-- A measure that every step raises by at most the weight of its label is raised, over a run, by at
most the sum of the weights. -/
theorem foldl_measure_le (step : σ → α → σ) (measure : σ → Nat) (weight : α → Nat)
    (moved : ∀ s a, measure (step s a) ≤ measure s + weight a) (s : σ) (run : List α) :
    measure (run.foldl step s) ≤ measure s + (run.map weight).sum := by
  induction run generalizing s with
  | nil => simp
  | cons a rest ih =>
    have here := moved s a
    have later := ih (step s a)
    rw [List.foldl_cons, List.map_cons, List.sum_cons]
    omega

/-- A measure that no step of a run moves is what it was. -/
theorem foldl_unmoved {step : σ → α → σ} (measure : σ → ν)
    (unmoved : ∀ s a, measure (step s a) = measure s) (s : σ) (run : List α) :
    measure (run.foldl step s) = measure s := by
  induction run generalizing s with
  | nil => rfl
  | cons a rest ih => rw [List.foldl_cons, ih, unmoved]

section Keyed

variable {κ : Type w} {ω : Type x} [DecidableEq κ] (view : σ → κ → ω) (key : α → κ) (merge : ω → α → ω)
  {step : σ → α → σ}

/-- Steps that each write under their own key leave every other key alone. -/
theorem foldl_key_other
    (writes : ∀ s a k, view (step s a) k = if k = key a then merge (view s k) a else view s k)
    {run : List α} {k : κ} (absent : ∀ a ∈ run, k ≠ key a) (s : σ) : view (run.foldl step s) k = view s k := by
  induction run generalizing s with
  | nil => rfl
  | cons a rest ih =>
    rw [List.foldl_cons, ih (fun b member => absent b (by simp [member])), writes, if_neg (absent a (by simp))]

/-- With one step a key, what stands under a key is what its step made of what stood there. -/
theorem foldl_key_own (writes : ∀ s a k, view (step s a) k = if k = key a then merge (view s k) a else view s k)
    {run : List α} (distinct : (run.map key).Nodup) {a : α} (member : a ∈ run) (s : σ) :
    view (run.foldl step s) (key a) = merge (view s (key a)) a := by
  induction run generalizing s with
  | nil => cases member
  | cons b rest ih =>
    rw [List.map_cons, List.nodup_cons] at distinct
    obtain ⟨absent, distinct⟩ := distinct
    rcases List.mem_cons.mp member with rfl | later
    · have elsewhere : ∀ c ∈ rest, key a ≠ key c := by
        intro c present same
        exact absent (same ▸ List.mem_map_of_mem present)
      rw [List.foldl_cons, foldl_key_other view key merge writes elsewhere, writes, if_pos rfl]
    · have different : key a ≠ key b := by
        intro same
        exact absent (same ▸ List.mem_map_of_mem later)
      rw [List.foldl_cons, ih distinct later, writes, if_neg different]

end Keyed

/-- What every step that goes through adds to the items done, a loop that goes through has for all of
its items. -/
theorem foldlM_invariant {step : σ → α → Option σ} (inv : List α → σ → Prop)
    (kept : ∀ done s a s', inv done s → step s a = some s' → inv (done ++ [a]) s') {s s' : σ} {items : List α}
    (through : items.foldlM step s = some s') (start : inv [] s) : inv items s' := by
  suffices along : ∀ done, inv done s → inv (done ++ items) s' by simpa using along [] start
  clear start
  induction items generalizing s with
  | nil =>
    intro done sofar
    cases through
    simpa using sofar
  | cons a rest ih =>
    intro done sofar
    rw [List.foldlM_cons] at through
    obtain ⟨next, taken, later⟩ := Option.bind_eq_some_iff.mp through
    simpa using ih later (done ++ [a]) (kept done s a next sofar taken)

end Run
