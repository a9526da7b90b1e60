import Lazarus.Lib.Along

/-! The difficulty a job is recorded at, and a share on it is judged at. A job is written to the miner and
recorded in two steps, and a new difficulty is set and written in two steps of another thread. -/

namespace Lazarus.Gateway

/-- Jobs whose difficulty is remembered. -/
def jobDiffs : Nat := 96

/-- How long the difficulty before a retarget still counts, in milliseconds. -/
def vardiffGrace : Nat := 30000

/-- A line written to the miner. -/
inductive Line where
  | notify (job : String)
  | setDifficulty (d : Nat)
deriving DecidableEq

/-- The difficulty the miner was last given. -/
def lastDifficulty (lines : List Line) : Option Nat :=
  lines.reverse.findSome? fun line =>
    match line with
    | .setDifficulty d => some d
    | .notify _ => none

/-- A job that was written, and the line it is in. -/
structure Sent where
  job : String
  line : Nat
deriving DecidableEq

/-- How far the session's own thread has come. -/
inductive SessionThread where
  | idle
  /-- The difficulty is set, or read for a subscription, and not written yet. -/
  | announcing (d : Nat)
  /-- A job is written and not recorded yet. -/
  | assigning (sent : Sent)
deriving DecidableEq

/-- A session's record among the miners: the difficulty in force, the one before it and until when that counts,
and the difficulties its jobs went out at. -/
structure Miner where
  vdiff : Nat
  vdiffPrev : Nat
  vdiffPrevUntil : Nat
  jobDiffs : List (Sent × Nat) := []
deriving DecidableEq

/-- A session: the lines on its socket, its miner's record, its own thread, what the thread that broadcasts has
written to it and not recorded yet, and the difficulty each of its shares was judged at. -/
structure MinerSession where
  lines : List Line := []
  miner : Miner
  registered : Bool := false
  thread : SessionThread := .idle
  broadcaster : Option Sent := none
  judged : List (String × Nat) := []
deriving DecidableEq

inductive SessionStep where
  | subscribe
  /-- A share met its target, and the difficulty changes. -/
  | retarget (want now : Nat)
  | announce
  /-- The session's own thread sends a job, after a subscription or an authorization. -/
  | send (job : String)
  | assign
  | broadcast (job : String)
  | assignBroadcast
  /-- A share that names this job is judged. -/
  | share (job : String) (now : Nat)

namespace Miner

def newMiner (vstart now : Nat) : Miner where
  vdiff := vstart
  vdiffPrev := vstart
  vdiffPrevUntil := now

/-- Record the difficulty this job went out at. -/
def assignJob (m : Miner) (sent : Sent) : Miner :=
  let diffs := m.jobDiffs ++ [(sent, m.vdiff)]
  { m with jobDiffs := diffs.drop (diffs.length - Gateway.jobDiffs) }

def retarget (m : Miner) (want now : Nat) : Miner :=
  { m with vdiffPrev := m.vdiff, vdiffPrevUntil := now + vardiffGrace, vdiff := want }

/-- The difficulties on record for a job. -/
def recorded (m : Miner) (job : String) : List Nat :=
  (m.jobDiffs.filter fun entry => entry.1.job = job).map Prod.snd

/-- What a job that is not on record is judged at. -/
def fallback (m : Miner) (now : Nat) : Nat := if now < m.vdiffPrevUntil then
  min m.vdiff m.vdiffPrev else m.vdiff

/-- Once the grace is over, or where the retarget went down, it is the difficulty in force. -/
theorem fallback_eq {m : Miner} {now : Nat} (settled : m.vdiffPrevUntil ≤ now ∨ m.vdiff ≤ m.vdiffPrev) :
    m.fallback now = m.vdiff := by
  rw [fallback]
  split_ifs with grace
  · rcases settled with elapsed | lowered
    · omega
    · exact Nat.min_eq_left lowered
  · rfl

end Miner

/-- The difficulty a share on a job is judged at. A session that has no record is judged
at the least there is. -/
def acceptDiff (vmin : Nat) (record : Option Miner) (job : String) (now : Nat) : Nat :=
  match record with
  | some m => (m.recorded job).min?.getD (m.fallback now)
  | none => vmin

/-- What a share is judged at is on record for its job, or no job of that name is and it is what the
miner's difficulty says. -/
theorem acceptDiff_cases (vmin : Nat) (m : Miner) (job : String) (now : Nat) :
    acceptDiff vmin (some m) job now ∈ m.recorded job ∨
      m.recorded job = [] ∧ acceptDiff vmin (some m) job now = m.fallback now := by
  simp only [acceptDiff]
  cases least : (m.recorded job).min? with
  | none => exact .inr ⟨List.min?_eq_none_iff.mp least, rfl⟩
  | some d => exact .inl (List.min?_mem least)

namespace MinerSession

/-- A session that has connected. -/
def start (vstart now : Nat) : MinerSession where
  miner := .newMiner vstart now

def write (s : MinerSession) (line : Line) : MinerSession := { s with lines := s.lines ++ [line] }

def assignJob (s : MinerSession) (sent : Sent) : MinerSession := { s with miner := s.miner.assignJob sent }

/-- A session's own thread is the only one that takes its record away, when it ends: a share is
judged with a record. -/
def step (vmin : Nat) (s : MinerSession) : SessionStep → MinerSession
  | .subscribe =>
    match s.thread with
    | .idle => { s with registered := true, thread := .announcing s.miner.vdiff }
    | _ => s
  | .retarget want now =>
    match s.thread with
    | .idle =>
      if want ≠ s.miner.vdiff then
        { s with miner := s.miner.retarget want now, thread := .announcing want } else s
    | _ => s
  | .announce =>
    match s.thread with
    | .announcing d => { s.write (.setDifficulty d) with thread := .idle }
    | _ => s
  | .send job =>
    match s.thread with
    | .idle => { s.write (.notify job) with thread := .assigning ⟨job, s.lines.length⟩ }
    | _ => s
  | .assign =>
    match s.thread with
    | .assigning sent => { s.assignJob sent with thread := .idle }
    | _ => s
  | .broadcast job =>
    match s.broadcaster with
    | none =>
      if s.registered then { s.write (.notify job) with broadcaster := some ⟨job, s.lines.length⟩ } else s
    | some _ => s
  | .assignBroadcast =>
    match s.broadcaster with
    | some sent => { s.assignJob sent with broadcaster := none }
    | none => s
  | .share job now =>
    match s.thread with
    | .idle => { s with judged := s.judged ++ [(job, acceptDiff vmin (some s.miner) job now)] }
    | _ => s

/-- The job stands in its line, and this is the difficulty the miner was last given before it. -/
def Under (lines : List Line) (sent : Sent) (d : Nat) : Prop :=
  lines[sent.line]? = some (.notify sent.job) ∧ lastDifficulty (lines.take sent.line) = some d

/-- The job was written, and the miner had last been given this difficulty. -/
def WorkedUnder (lines : List Line) (job : String) (d : Nat) : Prop := ∃ line, Under lines ⟨job, line⟩ d

variable {s : MinerSession} {lines : List Line} {sent : Sent} {d vmin : Nat}

section Lines

theorem lastDifficulty_notify (lines : List Line) (job : String) :
    lastDifficulty (lines ++ [.notify job]) = lastDifficulty lines := by
  rw [lastDifficulty, List.reverse_append]
  rfl

theorem lastDifficulty_setDifficulty (lines : List Line) (d : Nat) :
    lastDifficulty (lines ++ [.setDifficulty d]) = some d := by
  rw [lastDifficulty, List.reverse_append]
  rfl

/-- What stands on the socket stays as it is. -/
theorem Under.append (under : Under lines sent d) (line : Line) : Under (lines ++ [line]) sent d := by
  have within : sent.line < lines.length := (List.getElem?_eq_some_iff.mp under.1).1
  constructor
  · rw [List.getElem?_append_left within]
    exact under.1
  · rw [List.take_append_of_le_length within.le]
    exact under.2

theorem WorkedUnder.append {job : String} (worked : WorkedUnder lines job d) (line : Line) :
    WorkedUnder (lines ++ [line]) job d := worked.imp fun _ under => under.append line

/-- A job that is written now is under the difficulty given last. -/
theorem under_write (told : lastDifficulty lines = some d) (job : String) :
    Under (lines ++ [.notify job]) ⟨job, lines.length⟩ d := by
  constructor
  · exact List.getElem?_concat_length
  · rw [List.take_append_of_le_length le_rfl, List.take_length]
    exact told

end Lines

section Timely

/-- The steps that pair a job with its difficulty: a job is written when the miner has been given a difficulty
and the one in force is not still to be written, the difficulty is not changed between a broadcast's line and
its record, and a share is judged on a job that is on record, or that went out at the difficulty in force with
the grace of a raise over. -/
def Timely (s : MinerSession) : SessionStep → Prop
  | .retarget want _ => s.thread = .idle → want ≠ s.miner.vdiff → s.broadcaster = none
  | .send _ => s.thread = .idle → (lastDifficulty s.lines).isSome
  | .broadcast _ =>
    s.registered → s.broadcaster = none →
      (lastDifficulty s.lines).isSome ∧ ∀ d, s.thread = .announcing d → lastDifficulty s.lines = some d
  | .share job now =>
    s.thread = .idle → s.miner.recorded job = [] →
      WorkedUnder s.lines job s.miner.vdiff ∧ (s.miner.vdiffPrevUntil ≤ now ∨ s.miner.vdiff ≤ s.miner.vdiffPrev)
  | _ => True

/-- The difficulty in force is the one the miner was given or is about to be given, and each job is under the
difficulty that it is, or will be, recorded at, and that its shares were judged at. -/
structure Paired (s : MinerSession) : Prop where
  told : ∀ d, lastDifficulty s.lines = some d → (∀ next, s.thread ≠ .announcing next) → d = s.miner.vdiff
  announcing : ∀ d, s.thread = .announcing d → d = s.miner.vdiff
  assigning : ∀ sent, s.thread = .assigning sent → Under s.lines sent s.miner.vdiff
  broadcaster : ∀ sent, s.broadcaster = some sent → Under s.lines sent s.miner.vdiff
  recorded : ∀ entry ∈ s.miner.jobDiffs, Under s.lines entry.1 entry.2
  judged : ∀ share ∈ s.judged, WorkedUnder s.lines share.1 share.2

theorem paired_start (vstart now : Nat) : Paired (start vstart now) where
  told := nofun
  announcing := nofun
  assigning := nofun
  broadcaster := nofun
  recorded := nofun
  judged := nofun

/-- What is recorded now is under the difficulty in force. -/
theorem Paired.recorded_assignJob (paired : Paired s) (under : Under s.lines sent s.miner.vdiff) :
    ∀ entry ∈ (s.assignJob sent).miner.jobDiffs, Under s.lines entry.1 entry.2 := by
  intro entry member
  cases List.mem_append.mp (List.mem_of_mem_drop member) with
  | inl old => exact paired.recorded entry old
  | inr new => exact List.mem_singleton.mp new ▸ under

/-- A difficulty on record for a job is one it was worked under. -/
theorem Paired.workedUnder (paired : Paired s) {job : String} (listed : d ∈ s.miner.recorded job) :
    WorkedUnder s.lines job d := by
  obtain ⟨entry, member, rfl⟩ := List.mem_map.mp listed
  obtain ⟨listed, about⟩ := List.mem_filter.mp member
  refine ⟨entry.1.line, ?_⟩
  rw [← of_decide_eq_true about]
  exact paired.recorded entry listed

/-- A share is judged at the difficulty its job was worked under. -/
theorem Paired.acceptDiff (paired : Paired s) {job : String} {now : Nat} (idle : s.thread = .idle)
    (timely : Timely s (.share job now)) :
    WorkedUnder s.lines job (acceptDiff vmin (some s.miner) job now) := by
  rcases acceptDiff_cases vmin s.miner job now with listed | ⟨unlisted, same⟩
  · exact paired.workedUnder listed
  · obtain ⟨worked, settled⟩ := timely idle unlisted
    rw [same, Miner.fallback_eq settled]
    exact worked

theorem Paired.step {e : SessionStep} (paired : Paired s) (timely : Timely s e) : Paired (s.step vmin e) := by
  cases e with
  | subscribe =>
    cases thread : s.thread with
    | idle =>
      simp only [MinerSession.step, thread]
      exact ⟨fun d _ quiet => absurd rfl (quiet s.miner.vdiff),
        fun d same => (SessionThread.announcing.inj same).symm, nofun,
        paired.broadcaster, paired.recorded, paired.judged⟩
    | announcing d => simpa only [MinerSession.step, thread] using paired
    | assigning sent => simpa only [MinerSession.step, thread] using paired
  | retarget want now =>
    cases thread : s.thread with
    | idle =>
      simp only [MinerSession.step, thread]
      split_ifs with changed
      · have still := timely thread changed
        exact ⟨fun d _ quiet => absurd rfl (quiet want),
          fun d same => (SessionThread.announcing.inj same).symm, nofun, fun sent waiting =>
          (nomatch still.symm.trans waiting), paired.recorded, paired.judged⟩
      · exact paired
    | announcing d => simpa only [MinerSession.step, thread] using paired
    | assigning sent => simpa only [MinerSession.step, thread] using paired
  | announce =>
    cases thread : s.thread with
    | announcing d =>
      simp only [MinerSession.step, thread, write]
      refine ⟨fun d' last _ => ?_, nofun, nofun, fun sent waiting => (paired.broadcaster sent waiting).append _,
        fun entry member => (paired.recorded entry member).append _,
        fun share member => (paired.judged share member).append _⟩
      rw [lastDifficulty_setDifficulty] at last
      exact (Option.some.inj last).symm.trans (paired.announcing d thread)
    | idle => simpa only [MinerSession.step, thread] using paired
    | assigning sent => simpa only [MinerSession.step, thread] using paired
  | send job =>
    cases thread : s.thread with
    | idle =>
      obtain ⟨d, given⟩ := Option.isSome_iff_exists.mp (timely thread)
      have inForce : d = s.miner.vdiff := paired.told d given fun next waiting =>
        nomatch thread.symm.trans waiting
      simp only [MinerSession.step, thread, write]
      refine ⟨fun d' last _ => ?_, nofun, fun sent same => ?_,
        fun sent waiting => (paired.broadcaster sent waiting).append _,
        fun entry member => (paired.recorded entry member).append _,
        fun share member => (paired.judged share member).append _⟩
      · rw [lastDifficulty_notify, given] at last
        exact (Option.some.inj last).symm.trans inForce
      · cases same
        exact under_write (inForce ▸ given) job
    | announcing d => simpa only [MinerSession.step, thread] using paired
    | assigning sent => simpa only [MinerSession.step, thread] using paired
  | assign =>
    cases thread : s.thread with
    | assigning sent =>
      simp only [MinerSession.step, thread]
      exact ⟨fun d last _ => paired.told d last fun next waiting =>
        (nomatch thread.symm.trans waiting), nofun, nofun, paired.broadcaster,
        paired.recorded_assignJob (paired.assigning sent thread), paired.judged⟩
    | idle => simpa only [MinerSession.step, thread] using paired
    | announcing d => simpa only [MinerSession.step, thread] using paired
  | broadcast job =>
    cases waiting : s.broadcaster with
    | some sent => simpa only [MinerSession.step, waiting] using paired
    | none =>
      simp only [MinerSession.step, waiting]
      split_ifs with registered
      · obtain ⟨given, pending⟩ := timely registered waiting
        obtain ⟨d, given⟩ := Option.isSome_iff_exists.mp given
        have inForce : d = s.miner.vdiff := by
          cases thread : s.thread with
          | announcing next =>
            have same := given.symm.trans (pending next thread)
            exact (Option.some.inj same).trans (paired.announcing next thread)
          | idle => exact paired.told d given fun next same => nomatch thread.symm.trans same
          | assigning sent => exact paired.told d given fun next same => nomatch thread.symm.trans same
        refine ⟨fun d' last quiet => ?_, paired.announcing,
          fun sent same => (paired.assigning sent same).append _, fun sent same =>
          ?_, fun entry member => (paired.recorded entry member).append _, fun share member =>
          (paired.judged share member).append _⟩
        · rw [write, lastDifficulty_notify, given] at last
          exact (Option.some.inj last).symm.trans inForce
        · cases same
          exact under_write (inForce ▸ given) job
      · exact paired
  | assignBroadcast =>
    cases waiting : s.broadcaster with
    | none => simpa only [MinerSession.step, waiting] using paired
    | some sent =>
      simp only [MinerSession.step, waiting]
      exact ⟨paired.told, paired.announcing, paired.assigning, nofun,
        paired.recorded_assignJob (paired.broadcaster sent waiting), paired.judged⟩
  | share job now =>
    cases thread : s.thread with
    | idle =>
      simp only [MinerSession.step, thread]
      refine ⟨fun d last _ => paired.told d last fun next waiting =>
        (nomatch thread.symm.trans waiting), nofun, nofun, paired.broadcaster,
        paired.recorded, fun share member => ?_⟩
      cases List.mem_append.mp member with
      | inl old => exact paired.judged share old
      | inr new =>
        rw [List.mem_singleton.mp new]
        have worked : WorkedUnder s.lines job (Gateway.acceptDiff vmin (some s.miner) job now) :=
          paired.acceptDiff thread timely
        exact worked
    | announcing d => simpa only [MinerSession.step, thread] using paired
    | assigning sent => simpa only [MinerSession.step, thread] using paired

/-- **A job is on record at the difficulty its miner was given, and each share is judged at the one its job was
worked under**, in a run that is timely. -/
theorem job_diff_given (vmin vstart now : Nat) (run : List SessionStep)
    (timely : Run.Along Timely (step vmin) (start vstart now) run) :
    let s := run.foldl (step vmin) (start vstart now)
    (∀ entry ∈ s.miner.jobDiffs, Under s.lines entry.1 entry.2) ∧
      ∀ share ∈ s.judged, WorkedUnder s.lines share.1 share.2 := by
  have paired := Run.foldl_invariant Paired (fun s e paired timely => paired.step timely) timely
    (paired_start vstart now)
  exact ⟨paired.recorded, paired.judged⟩

/-- A job broadcast to a miner that was given its difficulty, and a new difficulty after it. The second job is
worked on before it is on record, and the grace is over. -/
def inOrder : List SessionStep :=
  [.subscribe, .announce, .broadcast "a1", .assignBroadcast, .share "a1" 10, .retarget 4096 10, .announce,
    .broadcast "a2", .share "a1" 20, .share "a2" 30010, .assignBroadcast]

theorem job_diff_given_inOrder :
    let s := inOrder.foldl (step 1) (start 1024 0)
    (∀ entry ∈ s.miner.jobDiffs, Under s.lines entry.1 entry.2) ∧
      ∀ share ∈ s.judged, WorkedUnder s.lines share.1 share.2 := by
  refine job_diff_given 1 1024 0 inOrder ?_
  refine ⟨trivial, trivial, fun _ _ => ⟨rfl, nofun⟩, trivial, nofun, fun _ _ => rfl,
    trivial, fun _ _ => ⟨rfl, nofun⟩, nofun, fun _ _ => ⟨⟨3, rfl, rfl⟩, .inl (by decide)⟩, trivial, trivial⟩

/-- The difficulty changes between a broadcast's line and its record. -/
def retargetedBetween : List SessionStep :=
  [.subscribe, .announce, .broadcast "a1", .retarget 4096 10, .assignBroadcast, .announce, .share "a1" 20]

/-- A job is broadcast before the difficulty that is set is written. -/
def announcedLate : List SessionStep :=
  [.subscribe, .announce, .retarget 4096 10, .broadcast "a1", .assignBroadcast, .announce]

/-- A share on a job that is written and not recorded yet, soon after the difficulty went up. -/
def judgedEarly : List SessionStep :=
  [.subscribe, .announce, .retarget 4096 10, .announce, .broadcast "a1", .share "a1" 20]

theorem job_diff_not_given :
    let between := retargetedBetween.foldl (step 1) (start 1024 0)
    let late := announcedLate.foldl (step 1) (start 1024 0)
    let early := judgedEarly.foldl (step 1) (start 1024 0)
    (between.lines = [.setDifficulty 1024, .notify "a1", .setDifficulty 4096] ∧
      between.judged = [("a1", 4096)] ∧ between.miner.jobDiffs = [(⟨"a1", 1⟩, 4096)] ∧
      lastDifficulty (between.lines.take 1) = some 1024) ∧
    (late.lines = [.setDifficulty 1024, .notify "a1", .setDifficulty 4096] ∧
      late.miner.jobDiffs = [(⟨"a1", 1⟩, 4096)] ∧ lastDifficulty (late.lines.take 1) = some 1024) ∧
    early.lines = [.setDifficulty 1024, .setDifficulty 4096, .notify "a1"] ∧ early.judged = [("a1", 1024)] ∧
      lastDifficulty (early.lines.take 2) = some 4096 := by
  decide

end Timely

end MinerSession

end Lazarus.Gateway
