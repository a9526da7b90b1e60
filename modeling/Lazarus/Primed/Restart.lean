import Lazarus.Primed.Seen

/-! Credited shares across restarts. The rows of the window outlive a process, the share set does not. -/

namespace Lazarus.Primed

open Wire

/-- Prime and its row file. A row stands for the share it was credited for: `window` has the rows in
memory, `out` those the writer still holds, `file` those of `credits.bin`. `passed` are the shares that
the set let through and that are not credited yet, `inherited` the rows this process found. -/
structure Process where
  intake : Intake := {}
  passed : List Hash := []
  window : List Hash := []
  out : List Hash := []
  file : List Hash := []
  inherited : List Hash := []

/-- One step of Prime or a restart. A restart, after a shutdown or a crash, finds what had reached the
file and the first `rows` rows of what the writer still held, and the target drops the first `dropped`. -/
inductive ProcessOp where
  | intake (op : IntakeOp)
  | credit (i : Nat)
  | refuse (i : Nat)
  | trim (dropped : Nat)
  | flush
  | compact
  | restart (rows dropped : Nat)

namespace Process

variable (heightOf : Hash → Nat)

def step (s : Process) : ProcessOp → Process
  | .intake op =>
    let intake := s.intake.step heightOf op
    { s with intake, passed := s.passed ++ intake.fresh.drop s.intake.fresh.length }
  | .credit i =>
    match s.passed[i]? with
    | none => s
    | some hash =>
      { s with passed := s.passed.eraseIdx i, window := s.window ++ [hash], out := s.out ++ [hash] }
  | .refuse i => { s with passed := s.passed.eraseIdx i }
  | .trim dropped => { s with window := s.window.drop dropped }
  | .flush => { s with file := s.file ++ s.out, out := [] }
  | .compact => { s with file := s.window, out := [] }
  | .restart rows dropped =>
    let file := s.file ++ s.out.take rows
    { window := file.drop dropped, file, inherited := file }

/-- Steps of the kind the share set is made for. -/
def Orderly (s : Process) : ProcessOp → Prop
  | .intake op => s.intake.Orderly op
  | _ => True

/-- Orderly steps that bring no share of an earlier process to a height the chain check still takes. -/
def Sparing (s : Process) : ProcessOp → Prop
  | .intake (.check share grace now) =>
    share.hash ∈ s.inherited → s.intake.takes heightOf share grace now = false
  | .intake op => s.intake.Orderly op
  | _ => True

end Process

namespace Intake

variable (heightOf : Hash → Nat) {s : Intake}

/-- What a step lets through, it lets through after the others, from among the shares that waited. -/
theorem fresh_step (op : IntakeOp) :
    ∃ more, (s.step heightOf op).fresh = s.fresh ++ more ∧
      ∀ hash ∈ more, ∃ w ∈ s.waiting, w.share.hash = hash := by
  have same {s' : Intake} (kept : s'.fresh = s.fresh) :
      ∃ more, s'.fresh = s.fresh ++ more ∧ ∀ hash ∈ more, ∃ w ∈ s.waiting, w.share.hash = hash :=
    ⟨[], by simp [kept], by simp⟩
  cases op with
  | refresh tip => exact same rfl
  | check share grace now =>
    apply same
    simp only [step]
    split
    · rfl
    · rfl
  | insert i =>
    simp only [step]
    split
    · exact same rfl
    · rename_i w found
      by_cases fresh : (s.seen.insert (heightOf w.share.hash) w.share.hash).2 = .fresh
      · simp only [fresh, if_true]
        exact ⟨[w.share.hash], rfl,
          fun hash member => ⟨w, List.mem_of_getElem? found, (List.mem_singleton.mp member).symm⟩⟩
      · simp only [fresh, if_false]
        exact same rfl
  | refuse i => exact same rfl
  | look => exact same rfl
  | prune =>
    apply same
    simp only [step]
    split
    · rfl
    · rfl

/-- Only the chain check lets a share wait. -/
theorem waiting_step (op : IntakeOp) {w : Waiting} (member : w ∈ (s.step heightOf op).waiting) :
    (∃ old ∈ s.waiting, old.share = w.share) ∨
      ∃ grace now, op = .check w.share grace now ∧ s.takes heightOf w.share grace now = true := by
  cases op with
  | refresh tip => exact .inl ⟨w, member, rfl⟩
  | check share grace now =>
    simp only [step] at member
    split at member
    · rename_i taken
      rcases List.mem_append.mp member with old | new
      · exact .inl ⟨w, old, rfl⟩
      · rw [List.mem_singleton.mp new]
        exact .inr ⟨grace, now, rfl, taken⟩
    · exact .inl ⟨w, member, rfl⟩
  | insert i =>
    simp only [step] at member
    split at member
    · exact .inl ⟨w, member, rfl⟩
    · exact .inl ⟨w, List.mem_of_mem_eraseIdx member, rfl⟩
  | refuse i => exact .inl ⟨w, List.mem_of_mem_eraseIdx member, rfl⟩
  | look => exact .inl ⟨w, member, rfl⟩
  | prune =>
    simp only [step] at member
    split at member
    · exact .inl ⟨w, member, rfl⟩
    · obtain ⟨old, listed, rfl⟩ := List.mem_map.mp member
      exact .inl ⟨old, listed, rfl⟩

end Intake

namespace Process

variable {heightOf : Hash → Nat} {s : Process}

/-- No share has two rows: those found at the start have one each, and this process has let through none
of them and no other twice. -/
structure Single (heightOf : Hash → Nat) (s : Process) : Prop where
  once : Intake.Once heightOf s.intake
  found : s.inherited.Nodup
  apart : ∀ hash ∈ s.intake.fresh, hash ∉ s.inherited
  coming : ∀ w ∈ s.intake.waiting, w.share.hash ∉ s.inherited
  rows : ∃ credited, (s.file ++ s.out).Sublist (s.inherited ++ credited) ∧ (credited ++ s.passed).Nodup ∧
    ∀ hash ∈ credited ++ s.passed, hash ∈ s.intake.fresh
  shown : s.window.Sublist (s.file ++ s.out)

theorem single_empty : Single heightOf {} :=
  ⟨Intake.once_empty heightOf, List.nodup_nil, by simp, by simp, ⟨[], by simp, by simp, by simp⟩, .slnil⟩

/-- Rows of distinct shares. -/
theorem Single.nodup (single : Single heightOf s) : (s.file ++ s.out).Nodup := by
  obtain ⟨credited, within, distinct, passed⟩ := single.rows
  apply List.Nodup.sublist within
  refine List.nodup_append.mpr ⟨single.found, (List.nodup_append.mp distinct).1, ?_⟩
  intro old before new after same
  exact single.apart new (passed new (List.mem_append_left _ after)) (same ▸ before)

theorem Single.intake (single : Single heightOf s) {op : IntakeOp} (sparing : s.Sparing heightOf (.intake op)) :
    Single heightOf (s.step heightOf (.intake op)) := by
  have orderly : s.intake.Orderly op := by
    cases op with
    | check share grace now => trivial
    | refresh tip => exact sparing
    | insert i => exact sparing
    | refuse i => trivial
    | look => trivial
    | prune => trivial
  have once := single.once.step orderly
  obtain ⟨more, grown, waited⟩ := Intake.fresh_step heightOf op
  have new : (s.intake.step heightOf op).fresh.drop s.intake.fresh.length = more := by
    rw [grown, List.drop_left]
  obtain ⟨credited, within, distinct, passed⟩ := single.rows
  have distinct' := once.passed
  rw [grown] at distinct'
  obtain ⟨_, unlike, disjoint⟩ := List.nodup_append.mp distinct'
  refine ⟨once, single.found, ?_, ?_, ⟨credited, within, ?_, ?_⟩, single.shown⟩
  · show ∀ hash ∈ (s.intake.step heightOf op).fresh, hash ∉ s.inherited
    rw [grown]
    intro hash member
    rcases List.mem_append.mp member with old | next
    · exact single.apart hash old
    · obtain ⟨w, listed, rfl⟩ := waited hash next
      exact single.coming w listed
  · intro w member
    rcases Intake.waiting_step heightOf op member with ⟨old, listed, same⟩ | ⟨grace, now, rfl, taken⟩
    · rw [← same]
      exact single.coming old listed
    · intro inherited
      have refused := sparing inherited
      rw [taken] at refused
      cases refused
  · show (credited ++ (s.passed ++ _)).Nodup
    rw [new, ← List.append_assoc]
    exact List.nodup_append.mpr ⟨distinct, unlike, fun old before => disjoint old (passed old before)⟩
  · show ∀ hash ∈ credited ++ (s.passed ++ _), hash ∈ (s.intake.step heightOf op).fresh
    rw [new, ← List.append_assoc, grown]
    intro hash member
    rcases List.mem_append.mp member with old | next
    · exact List.mem_append_left _ (passed hash old)
    · exact List.mem_append_right _ next

theorem Single.credit (single : Single heightOf s) (i : Nat) : Single heightOf
    (s.step heightOf (.credit i)) := by
  simp only [step]
  split
  · exact single
  · rename_i hash found
    obtain ⟨credited, within, distinct, passed⟩ := single.rows
    have moved : (credited ++ [hash] ++ s.passed.eraseIdx i).Perm (credited ++ s.passed) := by
      rw [List.append_assoc]
      obtain ⟨bound, here⟩ := List.getElem?_eq_some_iff.mp found
      have back := List.getElem_cons_eraseIdx_perm bound
      rw [here] at back
      exact back.append_left credited
    refine ⟨single.once, single.found, single.apart, single.coming, ⟨credited ++ [hash], ?_, ?_, ?_⟩, ?_⟩
    · rw [← List.append_assoc, ← List.append_assoc]
      exact within.append (List.Sublist.refl _)
    · exact moved.nodup_iff.mpr distinct
    · exact fun other member => passed other (moved.mem_iff.mp member)
    · rw [← List.append_assoc]
      exact single.shown.append (List.Sublist.refl _)

theorem Single.restart (single : Single heightOf s) (rows dropped : Nat) :
    Single heightOf (s.step heightOf (.restart rows dropped)) := by
  have survived : (s.file ++ s.out.take rows).Sublist (s.file ++ s.out) :=
    (List.Sublist.refl s.file).append (List.take_sublist rows s.out)
  refine ⟨Intake.once_empty heightOf, single.nodup.sublist survived, by simp [step], by simp [step],
    ⟨[], ?_, by simp [step], by simp [step]⟩, ?_⟩
  · simp [step]
  · simpa [step] using List.drop_sublist dropped (s.file ++ s.out.take rows)

theorem Single.step (single : Single heightOf s) {op : ProcessOp} (sparing : s.Sparing heightOf op) :
    Single heightOf (s.step heightOf op) := by
  obtain ⟨credited, within, distinct, passed⟩ := single.rows
  cases op with
  | intake op => exact single.intake sparing
  | credit i => exact single.credit i
  | refuse i =>
    have fewer : (credited ++ s.passed.eraseIdx i).Sublist (credited ++ s.passed) :=
      (List.Sublist.refl credited).append (List.eraseIdx_sublist s.passed i)
    exact ⟨single.once, single.found, single.apart, single.coming,
      ⟨credited, within, distinct.sublist fewer, fun hash member => passed hash (fewer.subset member)⟩,
      single.shown⟩
  | trim dropped =>
    exact ⟨single.once, single.found, single.apart, single.coming, single.rows,
      (List.drop_sublist dropped s.window).trans single.shown⟩
  | flush =>
    refine ⟨single.once, single.found, single.apart, single.coming, ⟨credited, ?_, distinct, passed⟩, ?_⟩
    · simpa [Process.step] using within
    · simpa [Process.step] using single.shown
  | compact =>
    refine ⟨single.once, single.found, single.apart, single.coming, ⟨credited, ?_, distinct, passed⟩, ?_⟩
    · simpa [Process.step] using single.shown.trans within
    · simp [Process.step]
  | restart rows dropped => exact single.restart rows dropped

/-- A share is credited once, across restarts too, as long as none that an earlier process credited is
sent again while the chain check still takes its height. -/
theorem share_credited_once (heightOf : Hash → Nat) {run : List ProcessOp}
    (sparing : Run.Along (Sparing heightOf) (step heightOf) {} run) :
    ((run.foldl (step heightOf) {}).file ++ (run.foldl (step heightOf) {}).out).Nodup ∧
      (run.foldl (step heightOf) {}).window.Nodup := by
  have single :=
    Run.foldl_invariant (Single heightOf) (fun _ _ single allowed => single.step allowed) sparing single_empty
  exact ⟨single.nodup, single.nodup.sublist single.shown⟩

section Resent

/-- The share of height 101 is credited and its row flushed, and Prime restarts. -/
def restarted : List ProcessOp :=
  [.intake (.refresh (Intake.tipAt 100)), .intake (.check Intake.share101 5 0),
    .intake (.insert 0), .credit 0, .flush, .restart 0 0]

/-- It is sent again three blocks later. -/
def tooLate : List ProcessOp :=
  restarted ++ [.intake (.refresh (Intake.tipAt 103)), .intake (.check Intake.share101 5 0)]

theorem share_credited_once_tooLate :
    (tooLate.foldl (step fun _ => 101) {}).window = [Intake.share101.hash] ∧
      (tooLate.foldl (step fun _ => 101) {}).window.Nodup := by
  have sparing : Run.Along (Sparing fun _ => 101) (step fun _ => 101) {} tooLate := by
    simp only [tooLate, restarted, List.cons_append, List.nil_append, Run.along_cons, Run.along_nil, Sparing]
    refine ⟨Nat.zero_le _, ?_, ?_, trivial, trivial, trivial, Nat.zero_le _, ?_, trivial⟩
    · intro inherited
      cases inherited
    · intro w found
      cases found
      rfl
    · decide
  exact ⟨by decide, (share_credited_once _ sparing).2⟩

/-- It is sent again at once. -/
def sentAgain : List ProcessOp :=
  restarted ++ [.intake (.refresh (Intake.tipAt 100)), .intake (.check Intake.share101 5 0),
    .intake (.insert 0), .credit 0]

/-- The set is new, the row is not: the share has two. -/
theorem restart_credits_twice :
    Run.Along Orderly (step fun _ => 101) {} sentAgain ∧
      (restarted.foldl (step fun _ => 101) {}).window = [Intake.share101.hash] ∧
      (sentAgain.foldl (step fun _ => 101) {}).window = [Intake.share101.hash, Intake.share101.hash] := by
  refine ⟨?_, by decide, by decide⟩
  simp only [sentAgain, restarted, List.cons_append, List.nil_append, Run.along_cons, Run.along_nil, Orderly]
  refine ⟨Nat.zero_le _, trivial, ?_, trivial, trivial, trivial, Nat.zero_le _, trivial, ?_, trivial, trivial⟩
  · intro w found
    cases found
    rfl
  · intro w found
    cases found
    rfl

end Resent

end Process

end Lazarus.Primed
