import Lazarus.Wire.SlotRun
import Lazarus.Wire.TargetByte

/-! What the difficulty that a share claims is worth: it is part of what was hashed, or it earns nothing
of its own. -/

namespace Lazarus.Wire

open Machine

section Credit

variable {H : Hashes} {slot slot' : JobSlot} {s : PowSubmit} {p : Policy} {v : VerifiedShare} {h : Hash}

/-- A hash meets the target of the work it is credited with. -/
def Earned (work : Nat) (hash : Hash) : Prop :=
  ∃ target, shareTargetLe (UInt8.ofNat (Nat.log2 work)) = some target ∧ meetsTarget hash target = true

/-- A power of two below the top is earned by meeting its target. -/
private theorem earned_pow {pot : UInt8} {target : Hash} (found : shareTargetLe pot = some target)
    (met : meetsTarget h target = true) : Earned (2 ^ pot.toNat) h := by
  refine ⟨target, ?_, met⟩
  rw [Nat.log2_two_pow, UInt8.ofNat_toNat]
  exact found

/-- A claim is earned by meeting its target: past the top of the type, the work is that of an easier
one. -/
theorem earned_claimedWork {target : Hash} (found : shareTargetLe s.targetPot = some target)
    (met : meetsTarget h target = true) : Earned s.claimedWork h := by
  unfold PowSubmit.claimedWork
  split
  · rename_i high
    obtain ⟨easier, easy⟩ := exists_shareTargetLe (show (63 : UInt8) < 224 by decide)
    refine ⟨easier, ?_, meetsTarget_of_le ?_ found easy met⟩
    · rw [show Nat.log2 u64Max = 63 by decide]
      exact easy
    · exact UInt8.le_trans (by decide) high
  · exact earned_pow found met

private theorem earned_workByHash (pays : 0 < workByHash p h) : Earned (workByHash p h) h := by
  unfold workByHash at pays ⊢
  dsimp only at pays ⊢
  split at pays
  · rename_i paid
    rw [if_pos paid]
    obtain ⟨met, -⟩ := Bool.and_eq_true_iff.mp paid
    obtain ⟨target, found, met⟩ := (Option.any_eq_true _ _).mp met
    exact earned_pow found met
  · exact absurd pays (Nat.lt_irrefl 0)

private theorem verify_earned (through : verify H slot s p = .ok (v, slot'))
    (pays : 0 < v.work) : Earned v.work v.hash := by
  obtain ⟨target, found, ⟨accepted⟩⟩ := verify_accepted through
  rw [accepted.share] at pays ⊢
  dsimp only [verifiedShare, creditedWork] at pays ⊢
  split
  · exact earned_claimedWork found accepted.meets
  · rename_i unproven
    rw [if_neg unproven] at pays
    exact earned_workByHash pays

private theorem verify_workByHash (through : verify H slot s p = .ok (v, slot'))
    (unproven : v.targetCommitted = false ∨ s.targetPot < p.minPot) : v.work = workByHash p v.hash := by
  obtain ⟨target, found, ⟨accepted⟩⟩ := verify_accepted through
  rw [accepted.share] at unproven ⊢
  dsimp only [verifiedShare, creditedWork] at unproven ⊢
  rw [if_neg]
  intro counts
  obtain ⟨committed, floor⟩ := Bool.and_eq_true_iff.mp counts
  cases unproven with
  | inl uncommitted => exact absurd committed (by simp [uncommitted])
  | inr under => exact absurd (of_decide_eq_true floor) (UInt8.not_le.mpr under)

end Credit

section Taken

/-- The coinbase of a share put together from its section, as a session reads it. -/
def JobSlot.assembled (slot : JobSlot) (s : PowSubmit) : Option Bytes := do
  let job ← slot.job
  let sect ← slot.coinbases.get? (coinbaseIdFor s)
  return sect.assembled job s.targetPot

/-- Verification takes the difficulty of a share as hashed, and not on trust. Whether the share is then
accepted is another matter. -/
def JobSlot.TakesAsHashed (slot : JobSlot) (s : PowSubmit) (p : Policy) : Prop :=
  ∃ job r, slot.job = some job ∧ slot.read job s p = .ok r ∧ r.targetCommitted job = true ∧ r.onTrust = false

variable {H : Hashes} {slot slot' : JobSlot} {s : PowSubmit} {p : Policy} {v : VerifiedShare}

private theorem takesAsHashed_of_verify (through : verify H slot s p = .ok (v, slot'))
    (committed : v.targetCommitted = true) (untrusted : p.trustedTarget = false) : slot.TakesAsHashed s p := by
  obtain ⟨target, -, ⟨accepted⟩⟩ := verify_accepted through
  obtain ⟨sect, -, trust, -⟩ := read_cases accepted.read
  rw [accepted.share] at committed
  exact ⟨accepted.job, accepted.reading, accepted.held, accepted.read,
    committed, by rw [trust, untrusted, Bool.false_and]⟩

/-- A share that is taken as hashed is put together from pieces that commit to its claim. -/
theorem JobSlot.Coherent.commits (coherent : slot.Coherent) (taken : slot.TakesAsHashed s p) :
    ∃ (job : JobSection) (sect : CoinbaseSection), slot.assembled s = some (sect.assembled job s.targetPot) ∧
      commitsTarget (sect.assembled job s.targetPot) job.targetByteIndex.toNat = true := by
  obtain ⟨job, r, held, through, committed, trust⟩ := taken
  obtain ⟨sect, found, legacy, -⟩ := coherent.read held through
  refine ⟨job, sect, ?_, ?_⟩
  · simp [JobSlot.assembled, held, found]
  · rw [Reading.targetCommitted, trust, Bool.false_or, legacy] at committed
    exact committed

/-- The claimed difficulty is part of the hash. Two shares of any slots whose difficulty is taken as
hashed claim the same where their coinbases are the same bytes; whether a coinbase commits to its target
byte does not depend on the claim; credited work is earned by the hash, and where the claim does not
count it is decided by the hash and the policy. -/
theorem claim_is_hashed (H : Hashes) :
    (∀ (ops ops' : List SlotOp) (s s' : PowSubmit) (p p' : Policy),
      (JobSlot.run H ops).TakesAsHashed s p → (JobSlot.run H ops').TakesAsHashed s' p' →
      (JobSlot.run H ops).assembled s = (JobSlot.run H ops').assembled s' → s.targetPot = s'.targetPot) ∧
    (∀ (coinb1 coinb2 : Bytes) (targetByteIndex : Nat) (pot pot' : UInt8),
      commitsTarget (assemble coinb1 coinb2 targetByteIndex pot) targetByteIndex =
        commitsTarget (assemble coinb1 coinb2 targetByteIndex pot') targetByteIndex) ∧
    (∀ (slot slot' : JobSlot) (s : PowSubmit) (p : Policy) (v : VerifiedShare),
      verify H slot s p = .ok (v, slot') → 0 < v.work → Earned v.work v.hash) ∧
    (∀ (first first' second second' : JobSlot) (s t : PowSubmit) (p q : Policy) (v w : VerifiedShare),
      verify H first s p = .ok (v, first') → verify H second t q = .ok (w, second') →
      (v.targetCommitted = false ∨ s.targetPot < p.minPot) →
        (w.targetCommitted = false ∨ t.targetPot < q.minPot) →
      v.hash = w.hash → p.minPot = q.minPot → p.uncommittedPot = q.uncommittedPot → v.work = w.work) := by
  refine ⟨?_, fun _ _ _ => commitsTarget_assemble, fun _ _ _ _ _ => verify_earned, ?_⟩
  · intro ops ops' s s' p p' taken taken' same
    obtain ⟨job, sect, assembled, commits⟩ := (JobSlot.coherent_run H ops).commits taken
    obtain ⟨job', sect', assembled', commits'⟩ := (JobSlot.coherent_run H ops').commits taken'
    rw [assembled, assembled'] at same
    exact pot_eq_of_assemble_eq (Option.some.inj same) commits commits'
  · intro first first' second second' s t p q v w through through' unproven unproven' hash floor pot
    rw [verify_workByHash through unproven, verify_workByHash through' unproven', hash]
    simp only [workByHash, floor, pot]

/-- The digests of the messages that the shares below hash, told apart by their lengths and, for the two
of thirty-two bytes, by the first byte. -/
def exampleHashes : Hashes where
  sha256 data := Fixed.ofNat 32 (match data.length, data.head? with
    | 89, _ => 0x548fcf09323497203ca5c9be99e3731acdb4f08e8441f44a167b33c799498d29
    | 32, some 0x29 => 0x834c3ce4d0dacd9c516d95b5f4c1535daf36f80858a4a16679df5807c43bfa34
    | 30, _ => 0x078cb45238b1798f291351c0c1f169f80d55f4060284856a10a8751ce397fb12
    | 80, _ => 0xdbf46538e41d60235ab8f8c65f10ef8a90a565651a01192793f0da515b85e486
    | 22, _ => 0x016534a6d390f59772b8b45c2ce9be25236af0d30834c87143bfc1cc96b07e5c
    | 183, _ => 0xafe79a0c16024c8054174cd8c10ded903688390ab28254aa0d891dfef7b37e7d
    | 17, _ => 0x300c6d26c726c0ca86d471925effbefa03edbcd5a7a79e004b3df7ad860fe180
    | 160, _ => 0x1587d95741bfbf697a5f86800a9ef774bfcc1cd492929f10e6d5f5bab63fa221
    | 32, some 0x42 => 0x8e6ab79109ac360b988856ebe2168805a13bc86837a129e059ce6b532aecb650
    | 96, _ => 0x4230968df22ccf969500126045c55aae5a0acad9e8a4dbcb770439793b22bed6
    | _, _ => 0)
  blake2b256 data := Fixed.ofNat 32 (match data.length with
    | 52 => 0xf413fe04ff08b07df8d81bc598c63bd82066ca2cdfd77d9737d45c0e6aa0a50a
    | 80 => 0x68918106026ab947350c2d237551aa1b4cabe73e5d6508c49bd3e70700000000
    | _ => 0)

/-- A coinbase up to its extranonce slot, and from there on. -/
def exampleHead : Bytes :=
  [1, 0, 0, 0, 1] ++ List.replicate 32 0 ++ List.replicate 4 0xff ++
    [28, 0x01, 100, 0x02, 0x74, 0, 0x07, 1, 0, 0, 1, 0, 0, 0, 0x0e, 0, 0]

def exampleTail : Bytes := List.replicate 4 0xff ++ [1, 50, 0, 0, 0, 0, 0, 0, 0, 1, 0x51, 0, 0, 0, 0]

/-- One header, under pieces and a claim of choice. -/
def exampleShare (coinb1 coinb2 : Bytes) (targetByteIndex : UInt16) (targetPot : UInt8) : PowSubmit where
  coinbaseId := 0
  flags := 0x08
  targetPot
  version := 0x20000000
  extranonce := Fixed.zero 12
  blake2b := some { ntime := Fixed.zero 8, nonce := Fixed.ofNat 8 2361593813 }
  timeOnWire := some 1700000000
  job := some {
    prevHash := ⟨List.replicate 32 0x11, rfl⟩
    targetByteIndex
    nbits := Fixed.ofNat 4 0x1d00ffff
    height := 100
    txnCount := 0 }
  coinbase := some { coinbaseId := 0, coinb1, coinb2 }

def examplePolicy : Policy := { poolScript := [0x51] }

/-- What verification of a share makes of it on a fresh slot: the work, whether it is committed, the hash. -/
def exampleOutcome (s : PowSubmit) : Option (Nat × Bool × Hash) :=
  match verify exampleHashes (JobSlot.run exampleHashes [.absorb s]) s examplePolicy with
  | .ok (v, _) => some (v.work, v.targetCommitted, v.hash)
  | .error _ => none

private theorem verify_of_exampleOutcome {s : PowSubmit} {work : Nat} {committed : Bool} {h : Hash}
    (outcome : exampleOutcome s = some (work, committed, h)) :
    ∃ v slot', verify exampleHashes (JobSlot.run exampleHashes [.absorb s]) s examplePolicy = .ok (v, slot') ∧
      v.work = work ∧ v.targetCommitted = committed ∧ v.hash = h := by
  unfold exampleOutcome at outcome
  split at outcome
  · rename_i v slot' through
    cases outcome
    exact ⟨v, slot', through, rfl, rfl, rfl⟩
  · cases outcome

/-- One header in four shares. Cut at the extranonce slot or inside the outpoint, its claim is taken as
hashed, is the same, and pays; sent whole, two claims of it pay the same. -/
theorem claim_is_hashed_one_header :
    let hash := Fixed.ofNat 32 0x07e7d39bc408655d3ee7ab4c1baa5175232d0c3547b96a0206819168
    let whole := exampleHead ++ List.replicate 12 0 ++ exampleTail
    let cut := exampleShare exampleHead exampleTail 48 1
    let recut := exampleShare (whole.take 10) (whole.drop 22) 48 1
    let low := exampleShare whole [] 0 1
    let high := exampleShare whole [] 0 5
    exampleOutcome cut = some (2, true, hash) ∧ cut.targetPot = recut.targetPot ∧ Earned 2 hash ∧
      exampleOutcome low = exampleOutcome high := by
  intro hash whole cut recut low high
  obtain ⟨same, -, earned, byHash⟩ := claim_is_hashed exampleHashes
  have outcome : exampleOutcome cut = some (2, true, hash) := by decide
  have again : exampleOutcome recut = some (2, true, hash) := by decide
  obtain ⟨v, kept, through, work, committed, hashed⟩ := verify_of_exampleOutcome outcome
  obtain ⟨w, kept', through', -, committed', -⟩ := verify_of_exampleOutcome again
  have assembled : (JobSlot.run exampleHashes [.absorb cut]).assembled cut =
      (JobSlot.run exampleHashes [.absorb recut]).assembled recut := by decide
  refine ⟨outcome, ?_, ?_, ?_⟩
  · exact same _ _ cut recut _ _ (takesAsHashed_of_verify through committed rfl)
      (takesAsHashed_of_verify through' committed' rfl) assembled
  · rw [← work, ← hashed]
    exact earned _ _ _ _ _ through (by rw [work]; decide)
  · have floor : exampleOutcome low = some (1, false, hash) := by decide
    have claimed : (exampleOutcome high).map Prod.snd = some (false, hash) := by decide
    cases outcome' : exampleOutcome high with
    | none => simp [outcome'] at claimed
    | some credited =>
      obtain ⟨work', committed', hash'⟩ := credited
      simp only [outcome', Option.map_some, Option.some.injEq, Prod.mk.injEq] at claimed
      obtain ⟨rfl, rfl⟩ := claimed
      obtain ⟨v, _, through, paid, uncommitted, hashed⟩ := verify_of_exampleOutcome floor
      obtain ⟨w, _, through', paid', uncommitted', hashed'⟩ := verify_of_exampleOutcome outcome'
      have equal := byHash _ _ _ _ low high _ _ v w through through' (.inl uncommitted) (.inl uncommitted')
        (hashed.trans hashed'.symm) rfl rfl
      rw [floor, ← paid, ← paid', equal]

end Taken

end Lazarus.Wire
