import Lazarus.Gateway.Difficulty
import Lazarus.Lib.Machine

/-! The difficulty a miner is given and the power of two its shares are judged under. A difficulty is rounded
down to a power of two and then held inside bounds that the operator chose. -/

namespace Lazarus.Gateway

open Machine

/-- The power of two at or below the difficulty a job went out at. -/
def sharePot (acceptDiff : Nat) : UInt8 := UInt8.ofNat (max acceptDiff 1).log2

/-- What the operator says about difficulty. None of it is checked. -/
structure VardiffConfig where
  vardiffMin : UInt64
  vardiffStart : Option UInt64 := none
  vardiffMax : Option UInt64 := none
  vardiffStep : Option UInt64 := none

section Clamp

def pow2Clamp (n floor cap : Nat) : Nat :=
  let floor := max floor 1
  let cap := max cap floor
  let n := max floor (min n cap)
  let pot := min (max n 1).log2 40
  max floor (min (2 ^ pot) cap)

def vardiffStepDefault : Nat := 4

def resolveVardiffStep (step : Option Nat) : Nat := 2 ^ (min (max (step.getD vardiffStepDefault) 2) 16).log2

/-- Move towards the ideal, by no more than the step, inside the bounds. -/
def stepVardiff (current ideal floor cap step : Nat) : Nat :=
  let step := resolveVardiffStep (some step)
  let cur := pow2Clamp current floor cap
  let want := pow2Clamp ideal floor cap
  if cur < want then pow2Clamp (min (min (cur * step) u64Max) want) floor cap
  else if want < cur then pow2Clamp (max (max (cur / step) want) 1) floor cap
  else cur

end Clamp

namespace VardiffConfig

def vmin (cfg : VardiffConfig) : Nat := max cfg.vardiffMin.toNat 1

def vmax (cfg : VardiffConfig) : Nat := max ((cfg.vardiffMax.map UInt64.toNat).getD (2 ^ 40)) cfg.vmin

def vstart (cfg : VardiffConfig) : Nat :=
  pow2Clamp ((cfg.vardiffStart.map UInt64.toNat).getD cfg.vmin) cfg.vmin cfg.vmax

def vstep (cfg : VardiffConfig) : Nat := resolveVardiffStep (cfg.vardiffStep.map UInt64.toNat)

/-- The difficulty a retarget sets. A burst of shares alone does not raise it. -/
def retarget (cfg : VardiffConfig) (vdiff ideal : Nat) (allowUp : Bool) : Nat :=
  let want := stepVardiff vdiff ideal cfg.vmin cfg.vmax cfg.vstep
  if vdiff < want ∧ ¬ allowUp then vdiff else want

/-- The steps of a session under these settings, whatever its shares say is ideal. -/
def Retargets (cfg : VardiffConfig) (s : MinerSession) : SessionStep → Prop
  | .retarget want _ => ∃ ideal allowUp, want = cfg.retarget s.miner.vdiff ideal allowUp
  | _ => True

end VardiffConfig

/-- The difficulty is the power of two that its shares are judged under. -/
def Paid (d : Nat) : Prop := d = 2 ^ (sharePot d).toNat

namespace MinerSession

/-- Every difficulty the session holds, now and before its last retarget, has announced, has recorded for a job
or has judged a share at. -/
structure Holds (P : Nat → Prop) (s : MinerSession) : Prop where
  vdiff : P s.miner.vdiff
  vdiffPrev : P s.miner.vdiffPrev
  announcing : ∀ d, s.thread = .announcing d → P d
  announced : ∀ d, .setDifficulty d ∈ s.lines → P d
  recorded : ∀ entry ∈ s.miner.jobDiffs, P entry.2
  judged : ∀ share ∈ s.judged, P share.2

variable {P : Nat → Prop} {s : MinerSession} {vmin : Nat}

theorem holds_start {vstart : Nat} (first : P vstart) (now : Nat) : Holds P (start vstart now) where
  vdiff := first
  vdiffPrev := first
  announcing := nofun
  announced := nofun
  recorded := nofun
  judged := nofun

theorem Holds.assignJob (holds : Holds P s) (sent : Sent) :
    ∀ entry ∈ (s.assignJob sent).miner.jobDiffs, P entry.2 := by
  intro entry member
  cases List.mem_append.mp (List.mem_of_mem_drop member) with
  | inl old => exact holds.recorded entry old
  | inr new =>
    rw [List.mem_singleton.mp new]
    exact holds.vdiff

theorem Holds.notify (holds : Holds P s) (job : String) :
    ∀ d, .setDifficulty d ∈ s.lines ++ [Line.notify job] → P d := by
  intro d member
  cases List.mem_append.mp member with
  | inl old => exact holds.announced d old
  | inr new => cases List.mem_singleton.mp new

theorem Holds.fallback (holds : Holds P s) (now : Nat) : P (s.miner.fallback now) := by
  rw [Miner.fallback]
  split
  · rcases min_choice s.miner.vdiff s.miner.vdiffPrev with least | least <;> rw [least]
    · exact holds.vdiff
    · exact holds.vdiffPrev
  · exact holds.vdiff

/-- A share is judged at a difficulty that the session holds. -/
theorem Holds.acceptDiff (holds : Holds P s) (job : String) (now : Nat) :
    P (acceptDiff vmin (some s.miner) job now) := by
  rcases acceptDiff_cases vmin s.miner job now with listed | ⟨-, same⟩
  · obtain ⟨entry, member, same⟩ := List.mem_map.mp listed
    rw [← same]
    exact holds.recorded entry (List.mem_filter.mp member).1
  · rw [same]
    exact holds.fallback now

/-- Only a retarget brings a difficulty in. -/
theorem Holds.step (holds : Holds P s) (e : SessionStep)
    (brought : ∀ want now, e = .retarget want now → P want) : Holds P (s.step vmin e) := by
  cases e with
  | subscribe =>
    cases thread : s.thread with
    | idle =>
      simp only [MinerSession.step, thread]
      exact ⟨holds.vdiff, holds.vdiffPrev, fun d same => SessionThread.announcing.inj same ▸ holds.vdiff,
        holds.announced, holds.recorded, holds.judged⟩
    | announcing _ | assigning _ => simpa only [MinerSession.step, thread] using holds
  | retarget want now =>
    have new := brought want now rfl
    cases thread : s.thread with
    | idle =>
      simp only [MinerSession.step, thread]
      split
      · exact ⟨new, holds.vdiff, fun d same => SessionThread.announcing.inj same ▸ new, holds.announced,
          holds.recorded, holds.judged⟩
      · exact holds
    | announcing _ | assigning _ => simpa only [MinerSession.step, thread] using holds
  | announce =>
    cases thread : s.thread with
    | announcing d =>
      simp only [MinerSession.step, write, thread]
      refine ⟨holds.vdiff, holds.vdiffPrev, fun d' same => (by cases same), fun d' member => ?_, holds.recorded,
        holds.judged⟩
      cases List.mem_append.mp member with
      | inl old => exact holds.announced d' old
      | inr new =>
        cases List.mem_singleton.mp new
        exact holds.announcing d thread
    | idle | assigning _ => simpa only [MinerSession.step, thread] using holds
  | send job =>
    cases thread : s.thread with
    | idle =>
      simp only [MinerSession.step, write, thread]
      exact ⟨holds.vdiff, holds.vdiffPrev, fun d same => (by cases same), holds.notify job, holds.recorded,
        holds.judged⟩
    | announcing _ | assigning _ => simpa only [MinerSession.step, thread] using holds
  | assign =>
    cases thread : s.thread with
    | assigning sent =>
      simp only [MinerSession.step, thread]
      exact ⟨holds.vdiff, holds.vdiffPrev, fun d same => (by cases same), holds.announced, holds.assignJob sent,
        holds.judged⟩
    | idle | announcing _ => simpa only [MinerSession.step, thread] using holds
  | broadcast job =>
    cases waiting : s.broadcaster with
    | none =>
      simp only [MinerSession.step, write, waiting]
      split
      · exact ⟨holds.vdiff, holds.vdiffPrev, holds.announcing, holds.notify job, holds.recorded, holds.judged⟩
      · exact holds
    | some _ => simpa only [MinerSession.step, waiting] using holds
  | assignBroadcast =>
    cases waiting : s.broadcaster with
    | none => simpa only [MinerSession.step, waiting] using holds
    | some sent =>
      simp only [MinerSession.step, waiting]
      exact ⟨holds.vdiff, holds.vdiffPrev, holds.announcing, holds.announced,
        holds.assignJob sent, holds.judged⟩
  | share job now =>
    cases thread : s.thread with
    | idle =>
      simp only [MinerSession.step, thread]
      refine ⟨holds.vdiff, holds.vdiffPrev, fun d same => (by cases same), holds.announced, holds.recorded,
        fun share member => ?_⟩
      cases List.mem_append.mp member with
      | inl old => exact holds.judged share old
      | inr new =>
        rw [List.mem_singleton.mp new]
        have held : P (Gateway.acceptDiff vmin (some s.miner) job now) := holds.acceptDiff job now
        exact held
    | announcing _ | assigning _ => simpa only [MinerSession.step, thread] using holds

end MinerSession

section Rounded

variable {cfg : VardiffConfig} {floor cap : Nat}

private theorem paid_two_pow {k : Nat} (small : k < 256) : Paid (2 ^ k) := by
  have top : (max (2 ^ k) 1).log2 = k := by
    rw [Nat.max_eq_left (Nat.one_le_two_pow), Nat.log2_two_pow]
  rw [Paid, sharePot, top, UInt8.toNat_ofNat', Nat.mod_eq_of_lt small]

private theorem exists_two_pow_of_paid {d : Nat} (paid : Paid d) : ∃ k, d = 2 ^ k := ⟨_, paid⟩

private theorem two_pow_le {n : Nat} (pos : 1 ≤ n) : 2 ^ min (max n 1).log2 40 ≤ n := by
  rw [Nat.max_eq_left pos]
  exact (Nat.pow_le_pow_right (by decide) (Nat.min_le_left _ _)).trans (Nat.log2_self_le (by omega))

private theorem pow2Clamp_cases (n : Nat) (pos : 1 ≤ floor) (ordered : floor ≤ cap) :
    (∃ k ≤ 40, pow2Clamp n floor cap = 2 ^ k) ∨ pow2Clamp n floor cap = floor := by
  unfold pow2Clamp
  simp only [Nat.max_eq_left pos, Nat.max_eq_left ordered]
  by_cases below : 2 ^ min (max (max floor (min n cap)) 1).log2 40 < floor
  · right
    rw [Nat.min_eq_left (by omega), Nat.max_eq_left below.le]
  · left
    have under := two_pow_le (n := max floor (min n cap)) (by omega)
    refine ⟨min (max (max floor (min n cap)) 1).log2 40, Nat.min_le_right _ _, ?_⟩
    rw [Nat.min_eq_left (by omega), Nat.max_eq_right (by omega)]

private theorem floor_le_pow2Clamp (n : Nat) (pos : 1 ≤ floor) : floor ≤ pow2Clamp n floor cap := by
  unfold pow2Clamp
  simp only [Nat.max_eq_left pos]
  exact Nat.le_max_left _ _

private theorem pow2Clamp_le (n : Nat) (pos : 1 ≤ floor) (ordered : floor ≤ cap) :
    pow2Clamp n floor cap ≤ max n floor := by
  unfold pow2Clamp
  simp only [Nat.max_eq_left pos, Nat.max_eq_left ordered]
  have under := two_pow_le (n := max floor (min n cap)) (by omega)
  omega

private theorem one_le_vmin (cfg : VardiffConfig) : 1 ≤ cfg.vmin := Nat.le_max_right _ _

private theorem vmin_le_vmax (cfg : VardiffConfig) : cfg.vmin ≤ cfg.vmax := Nat.le_max_right _ _

private theorem paid_pow2Clamp (power : ∃ k, cfg.vmin = 2 ^ k) (n : Nat) :
    Paid (pow2Clamp n cfg.vmin cfg.vmax) := by
  rcases pow2Clamp_cases n (one_le_vmin cfg) (vmin_le_vmax cfg) with ⟨k, small, rounded⟩ | lowest
  · rw [rounded]
    exact paid_two_pow (by omega)
  · obtain ⟨k, power⟩ := power
    have narrow : cfg.vmin < 2 ^ 64 := Nat.max_lt.mpr ⟨cfg.vardiffMin.toNat_lt, by decide⟩
    rw [power] at narrow
    have small : k < 64 := (Nat.pow_lt_pow_iff_right (by decide)).mp narrow
    rw [lowest, power]
    exact paid_two_pow (by omega)

private theorem paid_stepVardiff (power : ∃ k, cfg.vmin = 2 ^ k) (current ideal step : Nat) :
    Paid (stepVardiff current ideal cfg.vmin cfg.vmax step) := by
  unfold stepVardiff
  dsimp only
  split
  · exact paid_pow2Clamp power _
  · split
    · exact paid_pow2Clamp power _
    · exact paid_pow2Clamp power _

private theorem paid_retarget (power : ∃ k, cfg.vmin = 2 ^ k) {vdiff : Nat}
    (paid : Paid vdiff) (ideal : Nat) (allowUp : Bool) : Paid (cfg.retarget vdiff ideal allowUp) := by
  unfold VardiffConfig.retarget
  dsimp only
  split
  · exact paid
  · exact paid_stepVardiff power _ _ _

end Rounded

section Descent

variable {cfg : VardiffConfig} {s : MinerSession}

private theorem pow2Clamp_one (cfg : VardiffConfig) : pow2Clamp 1 cfg.vmin cfg.vmax = cfg.vmin := by
  have least := @floor_le_pow2Clamp _ cfg.vmax 1 (one_le_vmin cfg)
  have most := pow2Clamp_le 1 (one_le_vmin cfg) (vmin_le_vmax cfg)
  have pos := one_le_vmin cfg
  omega

private theorem two_le_resolveVardiffStep (step : Nat) : 2 ≤ resolveVardiffStep (some step) := by
  have more : 1 ≤ (min (max step 2) 16).log2 := by
    rw [Nat.le_log2 (by omega)]
    omega
  calc 2 = 2 ^ 1 := rfl
    _ ≤ 2 ^ (min (max step 2) 16).log2 := Nat.pow_le_pow_right (by decide) more

private theorem stepVardiff_one {current : Nat} (above : cfg.vmin < current) (step : Nat) :
    cfg.vmin ≤ stepVardiff current 1 cfg.vmin cfg.vmax step ∧
      stepVardiff current 1 cfg.vmin cfg.vmax step < current := by
  have pos := one_le_vmin cfg
  have least := @floor_le_pow2Clamp _ cfg.vmax current pos
  have most := pow2Clamp_le current pos (vmin_le_vmax cfg)
  unfold stepVardiff
  simp only [pow2Clamp_one]
  generalize pow2Clamp current cfg.vmin cfg.vmax = cur at least most ⊢
  rw [if_neg (Nat.not_lt.mpr least)]
  split
  · rename_i higher
    have less : cur / resolveVardiffStep (some step) < cur :=
      Nat.div_lt_self (by omega) (two_le_resolveVardiffStep step)
    have rounded :=
      pow2Clamp_le (max (max (cur / resolveVardiffStep (some step)) cfg.vmin) 1) pos (vmin_le_vmax cfg)
    refine ⟨floor_le_pow2Clamp _ pos, ?_⟩
    omega
  · omega

private theorem exists_descent (idle : s.thread = .idle) (above : cfg.vmin ≤ s.miner.vdiff) :
    ∃ run, Run.Along (VardiffConfig.Retargets cfg) (MinerSession.step cfg.vmin) s run ∧
      (run.foldl (MinerSession.step cfg.vmin) s).miner.vdiff = cfg.vmin := by
  induction size : s.miner.vdiff using Nat.strong_induction_on generalizing s with
  | _ vdiff ih =>
    subst size
    by_cases there : s.miner.vdiff = cfg.vmin
    · exact ⟨[], trivial, there⟩
    · have higher : cfg.vmin < s.miner.vdiff := by omega
      obtain ⟨least, less⟩ := stepVardiff_one higher cfg.vstep
      have wanted : cfg.retarget s.miner.vdiff 1 false =
          stepVardiff s.miner.vdiff 1 cfg.vmin cfg.vmax cfg.vstep := by
        unfold VardiffConfig.retarget
        exact if_neg (by omega)
      have new : cfg.retarget s.miner.vdiff 1 false ≠ s.miner.vdiff := by omega
      have moved :
        (s.step cfg.vmin (.retarget (cfg.retarget s.miner.vdiff 1 false) 0)).step cfg.vmin .announce =
          { s with miner := s.miner.retarget (cfg.retarget s.miner.vdiff 1 false) 0,
                   lines := s.lines ++ [.setDifficulty (cfg.retarget s.miner.vdiff 1 false)] } := by
        simp [MinerSession.step, MinerSession.write, idle, new]
      obtain ⟨run, allowed, reached⟩ := ih (cfg.retarget s.miner.vdiff 1 false) (by omega)
        (s := (s.step cfg.vmin (.retarget (cfg.retarget s.miner.vdiff 1 false) 0)).step cfg.vmin .announce)
        (by rw [moved]; exact idle) (by rw [moved]; exact wanted ▸ least) (by rw [moved]; rfl)
      exact ⟨.retarget (cfg.retarget s.miner.vdiff 1 false) 0 :: .announce :: run,
        ⟨⟨1, false, rfl⟩, trivial, allowed⟩, reached⟩

end Descent

/-- **The difficulty a miner is told is the one it is paid for** in every run of a session, exactly where the
floor that the operator chose is a power of two. -/
theorem vdiff_paid_iff (cfg : VardiffConfig) :
    (∀ now run,
      Run.Along (VardiffConfig.Retargets cfg) (MinerSession.step cfg.vmin) (.start cfg.vstart now) run →
      let s := run.foldl (MinerSession.step cfg.vmin) (.start cfg.vstart now)
      Paid s.miner.vdiff ∧ (∀ d, .setDifficulty d ∈ s.lines → Paid d) ∧
        (∀ entry ∈ s.miner.jobDiffs, Paid entry.2) ∧ (∀ share ∈ s.judged, Paid share.2) ∧
        ∀ record ∈ [none, some s.miner], ∀ job later, Paid (acceptDiff cfg.vmin record job later)) ↔
      ∃ k, max cfg.vardiffMin.toNat 1 = 2 ^ k := by
  constructor
  · intro paid
    have above : cfg.vmin ≤ cfg.vstart := floor_le_pow2Clamp _ (one_le_vmin cfg)
    obtain ⟨run, allowed, reached⟩ := exists_descent (s := .start cfg.vstart 0) rfl above
    have lowest := (paid 0 run allowed).1
    rw [reached] at lowest
    exact exists_two_pow_of_paid lowest
  · intro power now run allowed
    have first : MinerSession.Holds Paid (.start cfg.vstart now) :=
      MinerSession.holds_start (paid_pow2Clamp power _) now
    have holds := Run.foldl_invariant (MinerSession.Holds Paid) (fun s e holds retargets =>
      holds.step e fun want now same => by
        subst same
        obtain ⟨ideal, allowUp, rfl⟩ := retargets
        exact paid_retarget power holds.vdiff ideal allowUp) allowed first
    refine ⟨holds.vdiff, holds.announced, holds.recorded, holds.judged, fun record member job later => ?_⟩
    simp only [List.mem_cons, List.not_mem_nil, or_false] at member
    rcases member with rfl | rfl
    · rw [← pow2Clamp_one cfg]
      exact paid_pow2Clamp power 1
    · exact holds.acceptDiff job later

/-- A session that is told a thousand and judged at half of that. -/
theorem vdiff_not_paid :
    (VardiffConfig.vstart { vardiffMin := 1000 }) = 1000 ∧ 2 ^ (sharePot 1000).toNat = 512 ∧ ¬ Paid 1000 := by
  have pot : (sharePot 1000).toNat = 9 := by decide
  refine ⟨by decide, by rw [pot]; rfl, ?_⟩
  rw [Paid, pot]
  decide

end Lazarus.Gateway
