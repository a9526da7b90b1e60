import Lazarus.Lib.Trim
import Lazarus.Tides.Window

/-! The rows of the share window: crediting work, replaying a stored row, and dropping the oldest rows
while the window still holds its target. -/

namespace Lazarus.Tides

open Machine

/-- Work that arrived before dual-fee tagging. -/
def sourceUnknown : UInt8 := 0

/-- Public house stratum. -/
def sourceStratum : UInt8 := 1

/-- External DATUM gateway. -/
def sourceDatum : UInt8 := 2

/-- House stratum inside the address's grace. -/
def sourceStratumGrace : UInt8 := 3

/-- One accepted unit of work. `ident` is an index into the identity table. -/
structure Credit where
  ts : Nat
  ident : Nat
  work : Nat
  height : Nat
  source : UInt8
deriving DecidableEq

/-- Work, credit rows and last credit per identity. -/
abbrev Totals := AList fun _ : Nat => Nat × Nat × Nat

/-- The rows of a window with their sums. -/
structure Rows where
  credits : List Credit := []
  totals : Totals := ∅
  totalWork : Nat := 0
  targetWork : Nat := 0

/-- Count a row in. `last` is what becomes of the identity's last credit. -/
def Totals.add (totals : Totals) (last : Nat → Nat → Nat) (c : Credit) : Totals :=
  let t := (totals.lookup c.ident).getD (0, 0, 0)
  totals.insert c.ident (satAdd t.1 c.work, t.2.1 + 1, last t.2.2 c.ts)

/-- Count a row out. An identity left without rows has no entry. -/
def Totals.drop (totals : Totals) (c : Credit) : Totals :=
  match totals.lookup c.ident with
  | none => totals
  | some t =>
    if t.2.1 - 1 = 0 then totals.erase c.ident
    else totals.insert c.ident (t.1 - c.work, t.2.1 - 1, t.2.2)

namespace Rows

/-- Put a row at the end. -/
def append (last : Nat → Nat → Nat) (r : Rows) (c : Credit) : Rows :=
  { r with
    credits := r.credits ++ [c]
    totals := r.totals.add last c
    totalWork := satAdd r.totalWork c.work }

/-- The oldest rows go while the window still holds the target. Sums that have drifted below their own
rows stop the trim. -/
def trimFrom (target : Nat) (credits : List Credit) (totals : Totals) (total : Nat) :
    List Credit × Totals × Nat :=
  match credits with
  | [] => ([], totals, total)
  | front :: rest =>
    if front.work ≤ total ∧ target ≤ total - front.work then
      trimFrom target rest (totals.drop front) (total - front.work)
    else (front :: rest, totals, total)

/-- Drop the oldest rows while the window still holds at least the target. -/
def trim (r : Rows) : Rows :=
  if r.targetWork = 0 then r
  else
    let (credits, totals, totalWork) := trimFrom r.targetWork r.credits r.totals r.totalWork
    { r with credits, totals, totalWork }

/-- Add work as its own row, never merging into the tail. -/
def creditRow (r : Rows) (c : Credit) : Rows := (r.append (fun _ ts => ts) c).trim

/-- Replay a stored row. -/
def pushRaw (r : Rows) (c : Credit) : Rows := r.append max c

/-- Resize the window and trim. -/
def setTarget (r : Rows) (targetWork : Nat) : Rows := trim { r with targetWork }

end Rows

section Tally

/-- Summed work of some rows. -/
def work (credits : List Credit) : Nat := Trim.load Credit.work credits

@[simp] theorem work_nil : work [] = 0 := rfl

@[simp] theorem work_cons (c : Credit) (credits : List Credit) : work (c :: credits) = c.work + work credits :=
  Trim.load_cons Credit.work c credits

@[simp] theorem work_append (first second : List Credit) : work (first ++ second) = work first + work second :=
  Trim.load_append Credit.work first second

/-- The rows of one identity. -/
def rowsOf (ident : Nat) (credits : List Credit) : List Credit := credits.filter fun c => c.ident = ident

/-- What the totals should say of one identity: its work and its rows. -/
def rowTally (credits : List Credit) (ident : Nat) : Option (Nat × Nat) :=
  match rowsOf ident credits with
  | [] => none
  | own => some (work own, own.length)

theorem work_rowsOf_le (ident : Nat) (credits : List Credit) : work (rowsOf ident credits) ≤ work credits :=
  Trim.load_le_of_sublist Credit.work List.filter_sublist

/-- Work and rows of an identity as the totals have them. -/
def Totals.tallied (totals : Totals) (ident : Nat) : Option (Nat × Nat) :=
  (totals.lookup ident).map fun t => (t.1, t.2.1)

/-- The sums are those of the rows. -/
structure Rows.Tallied (r : Rows) : Prop where
  total : r.totalWork = work r.credits
  each : ∀ ident, r.totals.tallied ident = rowTally r.credits ident

theorem rowTally_append (credits : List Credit) (c : Credit) (ident : Nat) :
    rowTally (credits ++ [c]) ident =
      if c.ident = ident then
        some (((rowTally credits ident).getD (0, 0)).1 + c.work, ((rowTally credits ident).getD (0, 0)).2 + 1)
      else rowTally credits ident := by
  unfold rowTally rowsOf
  rw [List.filter_append]
  by_cases own : c.ident = ident
  · cases earlier : credits.filter fun c => c.ident = ident with
    | nil => simp [own]
    | cons first rest => simp [own, Nat.add_assoc]
  · simp [own]

private theorem rowTally_cons (credits : List Credit) (c : Credit) (ident : Nat) :
    rowTally (c :: credits) ident =
      if c.ident = ident then some (c.work + work (rowsOf ident credits), (rowsOf ident credits).length + 1)
      else rowTally credits ident := by
  unfold rowTally rowsOf
  rw [List.filter_cons]
  by_cases own : c.ident = ident
  · simp [own]
  · simp [own]

theorem Totals.tallied_add (totals : Totals) (last : Nat → Nat → Nat) (c : Credit) (ident : Nat) :
    (totals.add last c).tallied ident =
      if c.ident = ident then
        some (satAdd ((totals.tallied ident).getD (0, 0)).1 c.work, ((totals.tallied ident).getD (0, 0)).2 + 1)
      else totals.tallied ident := by
  unfold Totals.add Totals.tallied
  by_cases own : c.ident = ident
  · subst own
    cases totals.lookup c.ident with
    | none => simp
    | some t => simp
  · simp [own, AList.lookup_insert_ne (Ne.symm own)]

theorem Totals.tallied_drop {totals : Totals} {c : Credit} {rest : List Credit}
    (before : ∀ ident, totals.tallied ident = rowTally (c :: rest) ident) (ident : Nat) :
    (totals.drop c).tallied ident = rowTally rest ident := by
  have here := before c.ident
  rw [rowTally_cons, if_pos rfl] at here
  obtain ⟨t, found, shape⟩ := Option.map_eq_some_iff.mp here
  obtain ⟨summed, counted⟩ := Prod.mk.inj shape
  have split : totals.drop c =
      if (rowsOf c.ident rest).length = 0 then totals.erase c.ident
      else totals.insert c.ident (work (rowsOf c.ident rest), (rowsOf c.ident rest).length, t.2.2) := by
    simp [Totals.drop, found, summed, counted]
  rw [split]
  by_cases own : ident = c.ident
  · subst own
    cases left : rowsOf c.ident rest with
    | nil => simp [rowTally, left, Totals.tallied]
    | cons first others => simp [rowTally, left, Totals.tallied]
  · have elsewhere := before ident
    rw [rowTally_cons, if_neg (Ne.symm own)] at elsewhere
    rw [← elsewhere]
    unfold Totals.tallied
    split
    · rw [AList.lookup_erase_ne own]
    · rw [AList.lookup_insert_ne own]

end Tally

namespace Rows

/-- A row whose work still fits the sums is counted in exactly. -/
theorem Tallied.append {r : Rows} (tallied : r.Tallied) (last : Nat → Nat → Nat) (c : Credit)
    (fits : work r.credits + c.work ≤ u64Max) : (r.append last c).Tallied := by
  constructor
  · have summed : r.totalWork + c.work ≤ u64Max := by rw [tallied.total]; exact fits
    show satAdd r.totalWork c.work = work (r.credits ++ [c])
    rw [satAdd_eq summed, tallied.total, work_append, work_cons, work_nil, Nat.add_zero]
  · intro ident
    have shown : (r.append last c).totals = r.totals.add last c := rfl
    have rows : (r.append last c).credits = r.credits ++ [c] := rfl
    rw [shown, rows, Totals.tallied_add, tallied.each, rowTally_append]
    have own : ((rowTally r.credits ident).getD (0, 0)).1 ≤ work r.credits := by
      have bound := work_rowsOf_le ident r.credits
      unfold rowTally
      split
      · exact Nat.zero_le _
      · exact bound
    rw [satAdd_eq (by omega)]

/-- With exact sums, the rows that a trim leaves are those the target keeps. -/
theorem trimFrom_spec (target : Nat) (credits : List Credit) (totals : Totals) (total : Nat)
    (exactly : total = work credits) (each : ∀ ident, totals.tallied ident = rowTally credits ident) :
    let left := trimFrom target credits totals total
    left.1 = Trim.spare Credit.work target credits ∧ left.2.2 = work left.1 ∧
      ∀ ident, left.2.1.tallied ident = rowTally left.1 ident := by
  induction credits generalizing totals total with
  | nil => exact ⟨rfl, exactly, each⟩
  | cons front rest ih =>
    have summed : total = front.work + work rest := by rw [exactly, work_cons]
    have after : total - front.work = work rest := by omega
    by_cases spared : target ≤ Trim.load Credit.work rest
    · have going : front.work ≤ total ∧ target ≤ total - front.work := ⟨by omega, after ▸ spared⟩
      simp only [trimFrom, going, Trim.spare, spared, and_self, if_true]
      exact ih (totals.drop front) (total - front.work) after (Totals.tallied_drop each)
    · have staying : ¬ (front.work ≤ total ∧ target ≤ total - front.work) := by
        rintro ⟨_, enough⟩
        rw [after] at enough
        exact spared enough
      simp only [trimFrom, staying, Trim.spare, spared, if_false]
      exact ⟨trivial, exactly, each⟩

theorem Tallied.trim {r : Rows} (tallied : r.Tallied) :
    r.trim.Tallied ∧ r.trim.credits = Trim.kept Credit.work r.targetWork r.credits := by
  unfold Rows.trim Trim.kept
  by_cases none : r.targetWork = 0
  · simp [none, tallied]
  · obtain ⟨rows, total, each⟩ :=
      trimFrom_spec r.targetWork r.credits r.totals r.totalWork tallied.total tallied.each
    simp only [none, if_false]
    exact ⟨⟨total, each⟩, rows⟩

@[simp] theorem targetWork_trim (r : Rows) : r.trim.targetWork = r.targetWork := by
  unfold trim
  split
  · rfl
  · rfl

theorem Tallied.setTarget {r : Rows} (tallied : r.Tallied) (target : Nat) :
    (r.setTarget target).Tallied ∧ (r.setTarget target).credits = Trim.kept Credit.work target r.credits :=
  Tallied.trim (r := { r with targetWork := target }) ⟨tallied.total, tallied.each⟩

theorem Tallied.creditRow {r : Rows} (tallied : r.Tallied) (c : Credit)
    (fits : work r.credits + c.work ≤ u64Max) :
    (r.creditRow c).Tallied ∧ (r.creditRow c).credits = Trim.kept Credit.work r.targetWork (r.credits ++ [c]) :=
  (tallied.append (fun _ ts => ts) c fits).trim

@[simp] theorem targetWork_setTarget (r : Rows) (target : Nat) : (r.setTarget target).targetWork = target :=
  targetWork_trim _

@[simp] theorem targetWork_creditRow (r : Rows) (c : Credit) : (r.creditRow c).targetWork = r.targetWork :=
  targetWork_trim _

/-- Rows replayed one by one are all there, in order, and counted exactly. -/
theorem Tallied.replay {r : Rows} (tallied : r.Tallied) (credits : List Credit)
    (fits : work r.credits + work credits ≤ u64Max) :
    (credits.foldl pushRaw r).Tallied ∧ (credits.foldl pushRaw r).credits = r.credits ++ credits := by
  induction credits generalizing r with
  | nil => simpa using tallied
  | cons c rest ih =>
    rw [work_cons] at fits
    have counted := tallied.append max c (by omega)
    have grown : work (r.pushRaw c).credits = work r.credits + c.work := by
      simp [pushRaw, Rows.append]
    obtain ⟨rows, listed⟩ := ih (r := r.pushRaw c) counted (by omega)
    refine ⟨rows, ?_⟩
    rw [List.foldl_cons, listed]
    simp [pushRaw, Rows.append]

/-- When an identity's last row was credited; zero without one. -/
def lastOf (ident : Nat) (credits : List Credit) : Nat := ((rowsOf ident credits).getLast?.map Credit.ts).getD 0

/-- The last credit of every identity is that of its last row. -/
def Dated (r : Rows) : Prop := ∀ ident t, r.totals.lookup ident = some t → t.2.2 = lastOf ident r.credits

theorem dated_empty : ({} : Rows).Dated := by
  intro ident t found
  cases found

theorem lastOf_append (ident : Nat) (credits : List Credit) (c : Credit) :
    lastOf ident (credits ++ [c]) = if c.ident = ident then c.ts else lastOf ident credits := by
  unfold lastOf rowsOf
  rw [List.filter_append]
  by_cases own : c.ident = ident
  · simp [own]
  · simp [own]

/-- A row that is not older than its identity's last one, or that says so, dates it. -/
theorem Dated.append {r : Rows} (dated : r.Dated) {last : Nat → Nat → Nat} {c : Credit}
    (latest : ∀ t, r.totals.lookup c.ident = some t → last t.2.2 c.ts = c.ts) (first : last 0 c.ts = c.ts) :
    (r.append last c).Dated := by
  intro ident t found
  have rows : (r.append last c).credits = r.credits ++ [c] := rfl
  have counted : (r.append last c).totals = r.totals.add last c := rfl
  rw [rows, lastOf_append]
  rw [counted, Totals.add] at found
  by_cases own : ident = c.ident
  · subst own
    rw [AList.lookup_insert, Option.some.injEq] at found
    rw [if_pos rfl, ← found]
    cases before : r.totals.lookup c.ident with
    | none => exact first
    | some old => exact latest old before
  · rw [AList.lookup_insert_ne own] at found
    rw [if_neg (Ne.symm own)]
    exact dated ident t found

theorem dated_trimFrom (target : Nat) (credits : List Credit) (totals : Totals) (total : Nat)
    (each : ∀ ident, totals.tallied ident = rowTally credits ident)
    (dated : ∀ ident t, totals.lookup ident = some t → t.2.2 = lastOf ident credits) :
    let left := trimFrom target credits totals total
    ∀ ident t, left.2.1.lookup ident = some t → t.2.2 = lastOf ident left.1 := by
  induction credits generalizing totals total with
  | nil => exact dated
  | cons front rest ih =>
    unfold trimFrom
    split
    · refine ih (totals.drop front) _ (Totals.tallied_drop each) ?_
      intro ident t found
      have left : rowTally rest ident = some (t.1, t.2.1) := by
        rw [← Totals.tallied_drop each ident]
        simp [Totals.tallied, found]
      have more : rowsOf ident rest ≠ [] := by
        intro none
        simp [rowTally, none] at left
      have same : lastOf ident (front :: rest) = lastOf ident rest := by
        unfold lastOf
        by_cases own : front.ident = ident
        · have listed : rowsOf ident (front :: rest) = front :: rowsOf ident rest := by simp [rowsOf, own]
          rw [listed, List.getLast?_cons_of_ne_nil more]
        · have listed : rowsOf ident (front :: rest) = rowsOf ident rest := by simp [rowsOf, own]
          rw [listed]
      have before : ∃ old, totals.lookup ident = some old ∧ old.2.2 = t.2.2 := by
        unfold Totals.drop at found
        split at found
        · exact ⟨t, found, rfl⟩
        · rename_i old present
          by_cases own : ident = front.ident
          · subst own
            split at found
            · simp at found
            · rw [AList.lookup_insert, Option.some.injEq] at found
              exact ⟨old, present, by rw [← found]⟩
          · split at found
            · rw [AList.lookup_erase_ne own] at found
              exact ⟨t, found, rfl⟩
            · rw [AList.lookup_insert_ne own] at found
              exact ⟨t, found, rfl⟩
      obtain ⟨old, present, kept⟩ := before
      rw [← kept, dated ident old present, same]
    · exact dated

theorem Dated.trim {r : Rows} (dated : r.Dated) (tallied : r.Tallied) : r.trim.Dated := by
  unfold Rows.trim
  split
  · exact dated
  · exact dated_trimFrom r.targetWork r.credits r.totals r.totalWork tallied.each dated

theorem tallied_empty : ({} : Rows).Tallied := ⟨rfl, fun _ => rfl⟩

end Rows

end Lazarus.Tides
