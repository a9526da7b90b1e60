import Lazarus.Gateway.Agree
import Lazarus.Gateway.Parsed
import Lazarus.Wire.TargetByte

/-! A share that its gateway found good is taken by Prime, in whatever state the session's slot is. The one
thing that can come between is the count of transactions: a slot that has not settled how its job counts tries
the other reading first. -/

namespace Lazarus.Gateway

open LittleEndian
open Wire (Fixed Hash Hashes JobSlot SlotOp Policy okOr rejectIf)

section Slot

variable {slot : JobSlot} {s : Wire.PowSubmit} {job : Wire.JobSection} {c : Wire.CoinbaseSection}

private theorem absorb_holds (absorbed : ∃ a, (slot.absorb s).1 = .ok a)
    (brought : s.job = some job) (along : s.coinbase = some c) :
    (slot.absorb s).2.job = some job ∧ (slot.absorb s).2.coinbases.get? c.coinbaseId = some c := by
  have started : (slot.startJob s.job).2.job = some job := by
    rcases slot.startJob_cases s.job with ⟨same, held⟩ | ⟨j, named, _, anew⟩
    · rw [same]
      exact held job brought
    · rw [anew]
      exact named.symm.trans brought
  revert absorbed
  unfold JobSlot.absorb
  split
  · rintro ⟨_, refused⟩
    cases refused
  · dsimp only
    rw [along]
    dsimp only
    split_ifs with held full
    · exact fun _ => ⟨started, held⟩
    · rintro ⟨_, refused⟩
      cases refused
    · intro _
      refine ⟨started, ?_⟩
      rw [JobSlot.putCoinbase, JobSlot.dropDerived, Table.get?_insert, if_pos rfl]

private theorem sound_absorb (H : Hashes) (ops : List SlotOp) (s : Wire.PowSubmit) :
    ((JobSlot.run H ops).absorb s).2.Coherent ∧ ((JobSlot.run H ops).absorb s).2.Committed H := by
  have run : ((JobSlot.run H ops).absorb s).2 = JobSlot.run H (ops ++ [.absorb s]) := by
    rw [JobSlot.run, JobSlot.run, List.foldl_append]
    rfl
  obtain ⟨coherent, committed, _⟩ := JobSlot.sound_run H (ops ++ [.absorb s])
  rw [run]
  exact ⟨coherent, committed⟩

private theorem ok_bind {α β : Type} (a : α) (next : α → Except Wire.Reject β) :
    (Except.ok a >>= next) = next a := rfl

private theorem read_of_parse {p : Policy} {cb : Wire.Coinbase} (coherent : slot.Coherent)
    (held : slot.job = some job) (found : slot.coinbases.get? (Wire.coinbaseIdFor s) = some c)
    (parsed : Wire.parse (c.assembled job s.targetPot) = .ok cb) (height : cb.height = some job.height) :
    ∃ r, slot.read job s p = .ok r ∧ r.legacy = c.assembled job s.targetPot ∧ r.parsed = cb ∧
      r.onTrust = (p.trustedTarget && Wire.isWhole c.coinb2 job.targetByteIndex.toNat) := by
  unfold JobSlot.read
  rw [found, okOr, ok_bind]
  cases cached : slot.cbCache.get? (Wire.coinbaseIdFor s, s.targetPot) with
  | some entry =>
    obtain ⟨legacy, was⟩ := entry
    obtain ⟨job', sect', held', found', rfl, made, _⟩ := coherent _ _ _ _ cached
    cases held.symm.trans held'
    cases found.symm.trans found'
    cases parsed.symm.trans made
    exact ⟨_, rfl, rfl, rfl, rfl⟩
  | none =>
    simp only [parsed, height, bne_self_eq_false, rejectIf, Bool.false_eq_true, ↓reduceIte, ok_bind]
    exact ⟨_, rfl, rfl, rfl, rfl⟩

private theorem tried_conventions {attempt : Bool → Option Wire.Attempt} {a : Wire.Attempt}
    (counts : slot.txcountIncludesCoinbase ≠ some false) (through : attempt true = some a) :
    slot.conventions.findSome? attempt = some a ∨
      slot.txcountIncludesCoinbase = none ∧ ∃ other, attempt false = some other ∧
        slot.conventions.findSome? attempt = some other := by
  unfold JobSlot.conventions
  cases known : slot.txcountIncludesCoinbase with
  | some includes =>
    cases includes with
    | false => exact absurd known counts
    | true => exact .inl (by simp [through])
  | none =>
    cases first : attempt false with
    | none => exact .inl (by simp [first, through])
    | some other => exact .inr ⟨rfl, other, rfl, by simp [first]⟩

variable {H : Hashes} {p : Policy} {b2 : Wire.Blake2bSection} {time : UInt32}
  {cb : Wire.Coinbase} {target : Hash}

/-- The header of a share under one reading of the count. -/
def headerOf (H : Hashes) (job : Wire.JobSection) (s : Wire.PowSubmit)
    (time : UInt32) (legacy : Wire.Bytes) (includes : Bool) : Wire.Commitment :=
  (Wire.h2KeyFor job s time includes).commitment H job legacy

/-- The hash of a share under one reading of the count. -/
def hashOf (H : Hashes) (job : Wire.JobSection) (s : Wire.PowSubmit) (b2 : Wire.Blake2bSection) (time : UInt32)
    (legacy : Wire.Bytes) (includes : Bool) : Hash :=
  Wire.groundHash H job s b2 ((headerOf H job s time legacy includes).h2 H)

private theorem filled_attempt (b2 : Wire.Blake2bSection) (target : Hash) {legacy : Wire.Bytes}
    (honest : slot.Honest H job s time legacy) (includes : Bool) :
    (slot.attempt H job s b2 time legacy target includes).map (Wire.Attempt.filled H job legacy) =
      if Wire.meetsTarget (hashOf H job s b2 time legacy includes) target then
        some (hashOf H job s b2 time legacy includes, headerOf H job s time legacy includes)
      else none :=
  Wire.attempt_filled honest includes

private theorem attempt_of_met {legacy : Wire.Bytes} (honest : slot.Honest H job s time legacy)
    {includes : Bool} (met : Wire.meetsTarget (hashOf H job s b2 time legacy includes) target) :
    ∃ a, slot.attempt H job s b2 time legacy target includes = some a ∧
      a.filled H job legacy =
      (hashOf H job s b2 time legacy includes, headerOf H job s time legacy includes) := by
  have filled := filled_attempt b2 target honest includes
  rw [if_pos met] at filled
  exact Option.map_eq_some_iff.mp filled

private theorem met_of_attempt {legacy : Wire.Bytes} (honest : slot.Honest H job s time legacy)
    {includes : Bool} {a : Wire.Attempt}
    (tried : slot.attempt H job s b2 time legacy target includes = some a) :
    Wire.meetsTarget (hashOf H job s b2 time legacy includes) target ∧
      a.filled H job legacy =
      (hashOf H job s b2 time legacy includes, headerOf H job s time legacy includes) := by
  have filled := filled_attempt b2 target honest includes
  rw [tried, Option.map_some, eq_comm] at filled
  obtain ⟨met, same⟩ := Option.ite_none_right_eq_some.mp filled
  exact ⟨met, (Option.some.inj same).symm⟩

/-- A share that nothing else is held against goes through on its work, under the count that includes the
coinbase, or under the other one where that is tried first and meets the target as well. -/
theorem verify_of_met (coherent : slot.Coherent) (committed : slot.Committed H) (held : slot.job = some job)
    (found : slot.coinbases.get? (Wire.coinbaseIdFor s) = some c)
    (parsed : Wire.parse (c.assembled job s.targetPot) = .ok cb) (height : cb.height = some job.height)
    (algorithm : s.isBlake2b = true) (ground : s.blake2b = some b2) (timed : s.timeOnWire = some time)
    (paid : Wire.classifyCoinbase cb p s.subsidyOnly job.txnCount.toNat job.merkleBranches.isEmpty ≠ .foreign)
    (timely : Wire.badTime p (Wire.shareNtime time b2.ntime (Wire.headerFlags s)) = false)
    (few : job.txnCount < 65535)
    (counts : slot.txcountIncludesCoinbase ≠ some false)
    (met : Wire.meetsTarget (hashOf H job s b2 time (c.assembled job s.targetPot) true) target) :
    ∃ r a kind ntime slot', Wire.verifyWithTarget H slot s p target =
        .ok (Wire.verifiedShare H job s p r kind ntime a, slot') ∧
      r.legacy = c.assembled job s.targetPot ∧
        r.onTrust = (p.trustedTarget && Wire.isWhole c.coinb2 job.targetByteIndex.toNat) ∧
      ∃ includes, a.filled H job r.legacy =
        (hashOf H job s b2 time r.legacy includes, headerOf H job s time r.legacy includes) ∧
        (includes = false → slot.txcountIncludesCoinbase = none ∧
          Wire.meetsTarget (hashOf H job s b2 time r.legacy false) target) := by
  obtain ⟨r, read, legacy, was, trusted⟩ := read_of_parse coherent held found parsed height
  have honest : slot.Honest H job s time r.legacy := legacy ▸ committed.honest held found time
  rw [← legacy] at met
  obtain ⟨a, tried, filled⟩ := attempt_of_met honest met
  have less : ¬ (65535 : UInt32) ≤ job.txnCount := UInt32.not_le.mpr few
  obtain ⟨chosen, includes, first, judged, apart⟩ : ∃ chosen includes,
      slot.conventions.findSome? (slot.attempt H job s b2 time r.legacy target) = some chosen ∧
      chosen.filled H job r.legacy =
        (hashOf H job s b2 time r.legacy includes, headerOf H job s time r.legacy includes) ∧
      (includes = false → slot.txcountIncludesCoinbase = none ∧
        Wire.meetsTarget (hashOf H job s b2 time r.legacy false) target) := by
    rcases tried_conventions counts tried with found | ⟨unknown, other, otherTried, found⟩
    · exact ⟨a, true, found, filled, nofun⟩
    · obtain ⟨otherMet, otherFilled⟩ := met_of_attempt honest otherTried
      exact ⟨other, false, found, otherFilled, fun _ => ⟨unknown, otherMet⟩⟩
  refine ⟨r, chosen, Wire.classifyCoinbase cb p s.subsidyOnly job.txnCount.toNat job.merkleBranches.isEmpty,
    Wire.shareNtime time b2.ntime (Wire.headerFlags s),
    (slot.noteAttempt chosen).noteCoinbase (Wire.coinbaseIdFor s, s.targetPot) r,
      ?_, legacy, trusted, includes, judged, apart⟩
  unfold Wire.verifyWithTarget
  simp only [algorithm, Bool.not_true, rejectIf, Bool.false_eq_true, ↓reduceIte,
    ok_bind, ground, timed, held, okOr, read, was, paid, decide_false, timely, less, first]
  rfl

private theorem noteAttempt_includes {legacy : Wire.Bytes} {includes : Bool}
    {a : Wire.Attempt} (key : UInt8 × UInt8) (r : Wire.Reading)
    (tried : slot.attempt H job s b2 time legacy target includes = some a) :
    ((slot.noteAttempt a).noteCoinbase key r).txcountIncludesCoinbase = some includes := by
  have kept : ((slot.noteAttempt a).noteCoinbase key r).txcountIncludesCoinbase = some a.includes := by
    unfold JobSlot.noteCoinbase
    split <;> rfl
  obtain ⟨_, made⟩ := Option.ite_none_right_eq_some.mp tried
  cases made
  exact kept

private theorem verifyWithTarget_reading {v : Wire.VerifiedShare} {slot' : JobSlot} (coherent : slot.Coherent)
    (committed : slot.Committed H) (held : slot.job = some job)
    (found : slot.coinbases.get? (Wire.coinbaseIdFor s) = some c) (ground : s.blake2b = some b2)
    (timed : s.timeOnWire = some time) (through : Wire.verifyWithTarget H slot s p target = .ok (v, slot')) :
    ∃ includes, slot'.txcountIncludesCoinbase = some includes ∧
      v.hash = hashOf H job s b2 time (c.assembled job s.targetPot) includes ∧
      v.commitment = headerOf H job s time (c.assembled job s.targetPot) includes ∧
      v.isBlockCandidate = (Wire.nbitsToTargetLe v.commitment.nbits).any (Wire.meetsTarget v.hash) := by
  obtain ⟨_, _, through⟩ := Wire.bind_eq_ok.mp through
  obtain ⟨ground', sent, through⟩ := Wire.bind_eq_ok.mp through
  obtain ⟨time', clocked, through⟩ := Wire.bind_eq_ok.mp through
  obtain ⟨job', had, through⟩ := Wire.bind_eq_ok.mp through
  obtain ⟨r, read, through⟩ := Wire.bind_eq_ok.mp through
  obtain ⟨_, _, through⟩ := Wire.bind_eq_ok.mp through
  obtain ⟨_, _, through⟩ := Wire.bind_eq_ok.mp through
  obtain ⟨_, _, through⟩ := Wire.bind_eq_ok.mp through
  obtain ⟨a, chosen, through⟩ := Wire.bind_eq_ok.mp through
  cases through
  cases ground.symm.trans (Wire.okOr_eq_ok.mp sent)
  cases timed.symm.trans (Wire.okOr_eq_ok.mp clocked)
  cases held.symm.trans (Wire.okOr_eq_ok.mp had)
  obtain ⟨includes, _, tried⟩ := List.exists_of_findSome?_eq_some (Wire.okOr_eq_ok.mp chosen)
  have legacy : r.legacy = c.assembled job s.targetPot := by
    obtain ⟨sect, here, _, ⟨_, cached⟩ | ⟨_, made, _⟩⟩ := Wire.read_cases read
    · obtain ⟨_, _, had, stored, made, _⟩ := coherent _ _ _ _ cached
      cases held.symm.trans had
      cases found.symm.trans stored
      exact made
    · cases found.symm.trans here
      exact made
  have honest : slot.Honest H job s time r.legacy := legacy ▸ committed.honest held found time
  obtain ⟨_, filled⟩ := met_of_attempt honest tried
  obtain ⟨hash, header⟩ := Prod.mk.inj filled
  rw [legacy] at hash header
  exact ⟨includes, noteAttempt_includes _ _ tried, hash, by rw [← header, ← legacy]; rfl, rfl⟩

end Slot

/-- A job that Prime's parse and its count have room for. -/
structure Job.Within (extra1 : Fixed 4) (j : Job) : Prop where
  height : j.tpl.height.toNat < 2 ^ 24
  script : (scriptsig j.tpl.height j.tpl.tag (coinbaseExtra extra1)).length ≤ 100
  some : coinbaseOuts j.cb j.tpl.witnessCommit ≠ []
  few : (coinbaseOuts j.cb j.tpl.witnessCommit).length ≤ 10000
  readable : ∀ o ∈ coinbaseOuts j.cb j.tpl.witnessCommit, o.Readable
  transactions : j.tpl.txnCount < 65535

namespace Job

/-- The coinbase of a job as Prime has it once parsed. -/
def parsed (extra1 : Fixed 4) (j : Job) : Wire.Coinbase :=
  parsedLegacy j.tpl.height j.tpl.tag (coinbaseExtra extra1) j.cb j.tpl.witnessCommit

/-- What Prime would refuse of a job's shares whatever their work: who the coinbase pays, or when. -/
structure Welcome (extra1 : Fixed 4) (p : Policy) (j : Job) : Prop where
  paid : Wire.classifyCoinbase (j.parsed extra1) p false j.tpl.txnCount.toNat j.tpl.branches.isEmpty ≠ .foreign
  timely : Wire.badTime p j.header.time = false

end Job

section Taken

variable {H : Hashes} {extra1 : Fixed 4} {j : Job}

private theorem parse_coinb1 (offered : j.Offered H extra1) (within : j.Within extra1) :
    Wire.parse j.coinb1 = .ok (j.parsed extra1) ∧ (j.parsed extra1).height = some j.tpl.height := by
  obtain ⟨tpl, tag, reserve, t, cb, jobId, seq, who, built, made⟩ := offered
  obtain ⟨rfl, rfl, coinb1, _⟩ := coinbaseJob_eq_some made
  rw [coinb1]
  exact ⟨parse_coinbaseLegacy _ _ _ _ _ within.script within.some within.few within.readable,
    bip34Height_scriptsig within.height _ _⟩

private theorem sharePot_lt {acceptDiff : Nat} (wide : acceptDiff < 2 ^ 64) : sharePot acceptDiff < 64 := by
  have small : (max acceptDiff 1).log2 < 64 := (Nat.log2_lt (by omega)).mpr (by omega)
  refine UInt8.lt_iff_toNat_lt.mpr ?_
  rw [sharePot, UInt8.toNat_ofNat', Nat.mod_eq_of_lt (by omega)]
  exact small

private theorem share_flags (sub : Submission) (j : Job) (acceptDiff : Nat) (user : String) :
    let s := (sub.share j acceptDiff user).received.toPowSubmit
    Wire.coinbaseIdFor s = j.cb.id ∧ s.subsidyOnly = false ∧ s.isBlake2b = true ∧ Wire.headerFlags s = 0 := by
  refine ⟨?_, ?_, ?_, ?_⟩
  · simp [Wire.coinbaseIdFor, Wire.PowSubmit.subsidyOnly, Wire.PowSubmit.flagSubsidyOnly,
      Submission.share, Job.submit, PowSubmit.received, PowSubmit.bare, PowSubmit.flags]
  · simp [Wire.PowSubmit.subsidyOnly, Wire.PowSubmit.flagSubsidyOnly, Submission.share,
      Job.submit, PowSubmit.received, PowSubmit.bare, PowSubmit.flags]
  · simp [Wire.PowSubmit.isBlake2b, Submission.share, Job.submit, PowSubmit.received]
  · simp [Wire.headerFlags, Wire.PowSubmit.useTimeOffset, Wire.PowSubmit.reservedUseTimeOffset,
      Submission.share, Job.submit, PowSubmit.received, PowSubmit.bare]

private theorem commitsTarget_zero (coinbase : Wire.Bytes) : Wire.commitsTarget coinbase 0 = false := by
  by_contra commits
  have late := (Wire.targetByteAt_bounds (Wire.commitsTarget_iff.mp (by simpa using commits))).1
  omega

/-- **Prime takes every share its gateway found good.** In any state that a session has brought a slot to, a
share whose sections the slot takes up, and whose coinbase and time Prime has nothing against, goes through. A
gateway that is trusted has all of the difficulty it judged the share at, from the floor on; any other has what
the hash earns by itself. The hash, the header and whether it is a block are what the gateway has, unless the
slot does not know how its job counts, and the other count gave a hash as good. -/
theorem good_share_taken (offered : j.Offered H extra1) (within : j.Within extra1)
    (sub : Submission) (user : String) {acceptDiff : Nat} (wide : acceptDiff < 2 ^ 64)
    (ops : List SlotOp) {p : Policy} (welcome : j.Welcome extra1 p)
    (absorbed : ∃ a, ((JobSlot.run H ops).absorb (sub.share j acceptDiff user).received.toPowSubmit).1 = .ok a)
    (counts :
      ((JobSlot.run H ops).absorb
        (sub.share j acceptDiff user).received.toPowSubmit).2.txcountIncludesCoinbase ≠
      some false)
    (good : meetsTarget ((sub.header j).powHash H) (targetForPot (sharePot acceptDiff))) :
    let s := (sub.share j acceptDiff user).received.toPowSubmit
    let slot := ((JobSlot.run H ops).absorb s).2
    let hash := (sub.header j).powHash H
    let other := hashOf H j.jobSection s ⟨sub.siaT, sub.siaN⟩ j.header.time j.coinb1 false
    ∃ v slot', Wire.verify H slot s p = .ok (v, slot') ∧ v.height = j.tpl.height ∧
      (v.targetCommitted = p.trustedTarget ∧
        v.work = if p.trustedTarget = true ∧ p.minPot ≤ sharePot acceptDiff then 2 ^ (sharePot acceptDiff).toNat
          else Wire.workByHash p v.hash) ∧
      (v.hash = turned hash ∧ v.commitment = (sub.header j).commitment ∧
          (j.header.bits &&& 0x00800000 = 0 →
            v.isBlockCandidate = (bitsToTarget j.header.bits).any (meetsTarget hash)) ∨
        slot.txcountIncludesCoinbase = none ∧ v.hash = other ∧
          Wire.meetsTarget other (turned (targetForPot (sharePot acceptDiff)))) := by
  intro s slot hash other
  obtain ⟨coherent, committed⟩ : slot.Coherent ∧ slot.Committed H := sound_absorb H ops s
  obtain ⟨id, plain, algorithm, clear⟩ := share_flags sub j acceptDiff user
  obtain ⟨held, found⟩ : slot.job = some j.jobSection ∧
    slot.coinbases.get? j.coinbaseSection.coinbaseId = some j.coinbaseSection :=
    absorb_holds absorbed rfl rfl
  have here : slot.coinbases.get? (Wire.coinbaseIdFor s) = some j.coinbaseSection := id.symm ▸ found
  have whole : j.coinbaseSection.assembled j.jobSection s.targetPot = j.coinb1 := rfl
  obtain ⟨parsed, height⟩ := parse_coinb1 offered within
  have narrow := sharePot_lt wide
  have target := shareTargetLe_eq (UInt8.lt_trans narrow (by decide : (64 : UInt8) < 224))
  obtain ⟨tpl, tag, reserve, t, cb, jobId, seq, who, built, made⟩ := offered
  have header : headerOf H j.jobSection s j.header.time j.coinb1 true = (sub.header j).commitment :=
    Submission.header_commitment sub built made
  have ground : hashOf H j.jobSection s ⟨sub.siaT, sub.siaN⟩ j.header.time j.coinb1 true = turned hash :=
    Submission.header_groundHash sub built made
  have timely : Wire.badTime p (Wire.shareNtime j.header.time sub.siaT (Wire.headerFlags s)) = false := by
    rw [clear, Wire.shareNtime, if_pos (by decide)]
    exact welcome.timely
  have paid : Wire.classifyCoinbase (j.parsed extra1) p s.subsidyOnly j.jobSection.txnCount.toNat
      j.jobSection.merkleBranches.isEmpty ≠ .foreign := by
    rw [plain]
    exact welcome.paid
  have met : Wire.meetsTarget (hashOf H j.jobSection s ⟨sub.siaT, sub.siaN⟩ j.header.time
      (j.coinbaseSection.assembled j.jobSection s.targetPot) true)
        (turned (targetForPot (sharePot acceptDiff))) := by
    rw [whole, ground, meetsTarget_turned]
    exact good
  obtain ⟨r, a, kind, ntime, slot', through, legacy, trusted, includes, filled, apart⟩ :=
    verify_of_met coherent committed held here (whole.symm ▸ parsed) height
      algorithm rfl rfl paid timely within.transactions counts met
  rw [whole] at legacy
  rw [legacy] at filled apart
  obtain ⟨theirHash, theirHeader⟩ := Prod.mk.inj filled
  refine ⟨Wire.verifiedShare H j.jobSection s p r kind ntime a, slot', ?_, rfl, ?_, ?_⟩
  · have claimed : Wire.shareTargetLe s.targetPot = some (turned (targetForPot (sharePot acceptDiff))) := target
    rw [Wire.verify, claimed, okOr, ok_bind]
    exact through
  · have committed : r.targetCommitted j.jobSection = p.trustedTarget := by
      have none : Wire.commitsTarget r.legacy j.jobSection.targetByteIndex.toNat = false :=
        commitsTarget_zero r.legacy
      have sent : Wire.isWhole j.coinbaseSection.coinb2 j.jobSection.targetByteIndex.toNat = true := rfl
      rw [Wire.Reading.targetCommitted, trusted, none, sent, Bool.and_true, Bool.or_false]
    have earned : s.claimedWork = 2 ^ (sharePot acceptDiff).toNat := if_neg (UInt8.not_le.mpr narrow)
    have floor : (p.trustedTarget && decide (p.minPot ≤ s.targetPot)) = true ↔
        p.trustedTarget = true ∧ p.minPot ≤ sharePot acceptDiff := by
      rw [Bool.and_eq_true, decide_eq_true_iff]
      rfl
    refine ⟨committed, ?_⟩
    simp only [Wire.verifiedShare, Wire.creditedWork, committed, floor, earned]
  · cases includes with
    | true =>
      left
      rw [ground] at theirHash
      rw [header] at theirHeader
      refine ⟨theirHash, ?_, fun nonneg => ?_⟩
      · simp only [Wire.verifiedShare, legacy]
        exact theirHeader
      · have bits : (sub.header j).commitment.nbits = j.header.bits := rfl
        simp only [Wire.verifiedShare, legacy]
        rw [theirHash, theirHeader, bits, ← bitsToTarget_turned nonneg, Option.any_map]
        congr 1
        funext target
        exact meetsTarget_turned _ _
    | false =>
      obtain ⟨unknown, met⟩ := apart rfl
      exact .inr ⟨unknown, theirHash, met⟩

private theorem ok_of_toBool {ε α : Type} {outcome : Except ε α} (through : outcome.toBool = true) :
    ∃ a, outcome = .ok a := by
  cases outcome with
  | error reject => cases through
  | ok a => exact ⟨a, rfl⟩

/-- A policy that issued one half of an even split, the other half being the pool's. -/
def evenPolicy : Policy where
  poolScript := 0 :: 20 :: List.replicate 20 7
  issued := some [⟨0 :: 20 :: List.replicate 20 9, 156250500⟩]

set_option maxRecDepth 8000 in
/-- The first share of a session. -/
theorem good_share_taken_first :
    let s (j : Job) := (blankSubmission.share j 1 "bc1qminer.rig").received.toPowSubmit
    ∃ j v slot', j.Offered flatHashes (Fixed.zero 4) ∧
      Wire.verify flatHashes ((JobSlot.run flatHashes []).absorb (s j)).2 (s j) evenPolicy = .ok (v, slot') ∧
        v.height = 962049 := by
  intro s
  have published : plainJob.any fun j =>
        (j.tpl.height = 962049 ∧
          (scriptsig j.tpl.height j.tpl.tag (coinbaseExtra (Fixed.zero 4))).length ≤ 100 ∧
          coinbaseOuts j.cb j.tpl.witnessCommit ≠ [] ∧ (coinbaseOuts j.cb j.tpl.witnessCommit).length ≤ 10000 ∧
          (∀ o ∈ coinbaseOuts j.cb j.tpl.witnessCommit, o.sats ≤ Machine.u64Max ∧ o.script.length ≤ 10000) ∧
          j.tpl.txnCount < 65535) ∧
        (Wire.classifyCoinbase (j.parsed (Fixed.zero 4)) evenPolicy false
          j.tpl.txnCount.toNat j.tpl.branches.isEmpty ≠
            .foreign ∧ Wire.badTime evenPolicy j.header.time = false) ∧
        (((JobSlot.run flatHashes []).absorb (s j)).1.toBool = true ∧
          ((JobSlot.run flatHashes []).absorb (s j)).2.txcountIncludesCoinbase ≠ some false) ∧
        meetsTarget ((blankSubmission.header j).powHash flatHashes) (targetForPot (sharePot 1)) = true := by
    decide
  obtain ⟨j, made, checked⟩ := (Option.any_eq_true _ _).mp published
  obtain ⟨⟨height, script, some, few, readable, transactions⟩, ⟨paid, timely⟩, ⟨absorbed, counts⟩, good⟩ :=
    of_decide_eq_true checked
  have offered := offered_plain made
  have within : j.Within (Fixed.zero 4) :=
    ⟨by rw [height]; decide, script, some, few,
      fun o member => ⟨(readable o member).1, (readable o member).2⟩, transactions⟩
  obtain ⟨v, slot', through, tall, _⟩ :=
    good_share_taken offered within blankSubmission "bc1qminer.rig" (by decide)
      [] ⟨paid, timely⟩ (ok_of_toBool absorbed) counts good
  exact ⟨j, v, slot', offered, through, tall.trans height⟩

/-- **The gateway and Prime hash one header.** Prime decodes what was submitted on a job. Whatever its slot has
been through, the hash it works out with the coinbase in the count is the gateway's, turned around, and is held
to a target as the gateway holds it; a share that goes through with that count has the header that was ground,
byte for byte, and is a block where the gateway makes one of it. -/
theorem submit_hashed_alike (offered : j.Offered H extra1) (fits : j.coinb1.length ≤ 65535) {user : String}
    (clean : cleanUser user) (sub : Submission) (acceptDiff : Nat) :
    let sent := sub.share j acceptDiff user
    let s := sent.received
    let hash := (sub.header j).powHash H
    (∀ pad, Wire.parseClient (sent.encode ++ pad) = .ok (.pow s)) ∧
      s.job = some j.jobSection ∧ s.coinbase = some j.coinbaseSection ∧
      s.extranonce.val = sub.sessEn1.val ++ sub.en2.val ∧ s.blake2b = some ⟨sub.siaT, sub.siaN⟩ ∧
      s.timeOnWire = some j.header.time ∧ s.username = user ∧ s.targetPot = sharePot acceptDiff ∧
      ∀ ops : List SlotOp, (∃ a, ((JobSlot.run H ops).absorb s.toPowSubmit).1 = .ok a) →
        let slot := ((JobSlot.run H ops).absorb s.toPowSubmit).2
        let recomputed := fun target =>
          (slot.attempt H j.jobSection s.toPowSubmit ⟨sub.siaT, sub.siaN⟩
            j.header.time j.coinb1 target true).map (Wire.Attempt.filled H j.jobSection j.coinb1)
        (∀ pot < 224, (Wire.shareTargetLe pot).map recomputed =
          some (if meetsTarget hash (targetForPot pot) then
            some (turned hash, (sub.header j).commitment) else none)) ∧
        Wire.serializeHeaderV2 (sub.header j).commitment sub.siaN sub.siaT s.extranonce =
          (sub.header j).serialize.val ∧
        ∀ p target v slot', Wire.verifyWithTarget H slot s.toPowSubmit p target = .ok (v, slot') →
          slot'.txcountIncludesCoinbase = some true →
          v.hash = turned hash ∧ v.commitment = (sub.header j).commitment ∧
            (j.header.bits &&& 0x00800000 = 0 →
              v.isBlockCandidate = (bitsToTarget j.header.bits).any (meetsTarget hash)) := by
  intro sent s hash
  obtain ⟨tpl, tag, reserve, t, cb, jobId, seq, who, built, made⟩ := offered
  have extranonce : s.extranonce = sub.en12 := Submission.share_extranonce sub j
  refine ⟨fun pad => PowSubmit.parseClient_encode (sendable_submit built made fits clean _ _ _ _ _)
    pad, rfl, rfl, congrArg Subtype.val extranonce, rfl, rfl, rfl, rfl, fun ops absorbed => ?_⟩
  intro slot recomputed
  obtain ⟨coherent, committed⟩ : slot.Coherent ∧ slot.Committed H := sound_absorb H ops s.toPowSubmit
  obtain ⟨held, found⟩ : slot.job = some j.jobSection ∧
      slot.coinbases.get? j.coinbaseSection.coinbaseId = some j.coinbaseSection := absorb_holds absorbed rfl rfl
  have here : slot.coinbases.get? (Wire.coinbaseIdFor s.toPowSubmit) = some j.coinbaseSection :=
    (share_flags sub j acceptDiff user).1.symm ▸ found
  have header : headerOf H j.jobSection s.toPowSubmit j.header.time j.coinb1 true = (sub.header j).commitment :=
    Submission.header_commitment sub built made
  have ground :
    hashOf H j.jobSection s.toPowSubmit ⟨sub.siaT, sub.siaN⟩ j.header.time j.coinb1 true = turned hash :=
    Submission.header_groundHash sub built made
  refine ⟨fun pot within => ?_, ?_, fun p target v slot' through counted => ?_⟩
  · have honest : slot.Honest H j.jobSection s.toPowSubmit j.header.time j.coinb1 :=
      committed.honest held here j.header.time
    have attempted := filled_attempt ⟨sub.siaT, sub.siaN⟩ (turned (targetForPot pot)) honest true
    rw [ground, header, meetsTarget_turned] at attempted
    rw [shareTargetLe_eq within, Option.map_some]
    exact congrArg some attempted
  · obtain ⟨nonce, ntime⟩ := Submission.header_ground sub j
    rw [← HeaderV2.serialize_eq (Submission.header_extranonce sub j), nonce, ntime, extranonce]
  · obtain ⟨includes, which, theirHash, theirHeader, block⟩ :=
      verifyWithTarget_reading coherent committed held here rfl rfl through
    cases counted.symm.trans which
    have sameHash : v.hash = turned hash := theirHash.trans ground
    have sameHeader : v.commitment = (sub.header j).commitment := theirHeader.trans header
    refine ⟨sameHash, sameHeader, fun nonneg => ?_⟩
    have bits : (sub.header j).commitment.nbits = j.header.bits := rfl
    rw [block, sameHash, sameHeader, bits, ← bitsToTarget_turned nonneg, Option.any_map]
    congr 1
    funext target
    exact meetsTarget_turned _ _

set_option maxRecDepth 8000 in
/-- What a slot has seen first, decoded and hashed again. -/
theorem submit_hashed_alike_blank :
    let s (j : Job) := (blankSubmission.share j 1 "bc1qminer.rig").received
    ∃ j, j.Offered flatHashes (Fixed.zero 4) ∧
      Wire.parseClient ((blankSubmission.share j 1 "bc1qminer.rig").encode ++ []) = .ok (.pow (s j)) ∧
      (Wire.shareTargetLe 0).map (fun target =>
          (((JobSlot.run flatHashes []).absorb (s j).toPowSubmit).2.attempt
            flatHashes j.jobSection (s j).toPowSubmit ⟨Fixed.zero 8, Fixed.zero 8⟩
            j.header.time j.coinb1 target true).map
              (Wire.Attempt.filled flatHashes j.jobSection j.coinb1)) =
        some (if meetsTarget ((blankSubmission.header j).powHash flatHashes) (targetForPot 0) then
          some (turned ((blankSubmission.header j).powHash flatHashes), (blankSubmission.header j).commitment)
        else none) := by
  intro s
  have published : plainJob.any fun j =>
        j.coinb1.length ≤ 65535 ∧ ((JobSlot.run flatHashes []).absorb (s j).toPowSubmit).1.toBool = true := by
    decide
  obtain ⟨j, made, checked⟩ := (Option.any_eq_true _ _).mp published
  obtain ⟨fits, taken⟩ := of_decide_eq_true checked
  have offered := offered_plain made
  have clean : cleanUser "bc1qminer.rig" := by decide
  obtain ⟨decoded, _, _, _, _, _, _, _, alike⟩ := submit_hashed_alike offered fits clean blankSubmission 1
  exact ⟨j, offered, decoded [], (alike [] (ok_of_toBool taken)).1 0 (by decide)⟩

end Taken

end Lazarus.Gateway
