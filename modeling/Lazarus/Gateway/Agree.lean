import Lazarus.Gateway.Sent
import Lazarus.Gateway.Weight
import Lazarus.Wire.Caches

/-! The gateway and Prime hash one header. Each puts it together its own way, and each expands its own targets;
what they hash, what they compare and what they would put into a block are the same bytes, turned around. -/

namespace Lazarus.Gateway

open LittleEndian
open Wire (Fixed Hash Hashes Commitment parseClient)

/-- The other byte order. -/
def turned (h : Hash) : Hash := ⟨h.val.reverse, by rw [List.length_reverse, h.property]⟩

@[simp] theorem turned_turned (h : Hash) : turned (turned h) = h := Subtype.ext (List.reverse_reverse _)

namespace HeaderV2

/-- The fields of a header that the template fixes, as Prime has them. -/
def commitment (h : HeaderV2) : Commitment where
  version := h.version.toUInt32
  prevHash := h.prevBlock
  height := h.height.toUInt32
  merkleRoot := h.merkleRoot
  timeOnWire := h.timeOnWire
  nbits := h.bits
  txcount := h.txcount.toUInt32
  flags := h.flags
  xorClearBits := h.xorKeyMaskClearBits
  xorKey := h.xorKey
  rhs := h.mmRhs

/-- The eight bytes a miner returns as its nonce. -/
def groundNonce (h : HeaderV2) : Fixed 8 := ⟨bytes 4 h.nonce.toNat ++ bytes 4 h.nonce2.toNat, by simp⟩

/-- The eight bytes a miner returns as its time. -/
def groundNtime (h : HeaderV2) : Fixed 8 := ⟨bytes 4 h.timeOffset.toNat ++ bytes 4 h.nonce3.toNat, by simp⟩

variable {h : HeaderV2} {en12 : Fixed 12}

theorem val_headerExtranonce (en12 : Fixed 12) :
    (headerExtranonce en12.val).val = List.replicate 4 0 ++ en12.val := by
  simp [headerExtranonce, en12.property]

theorem h2_eq (H : Hashes) (h : HeaderV2) : h.h2 H = h.commitment.h2 H := rfl

/-- What is hashed once while a miner iterates. -/
theorem hash1_eq (H : Hashes) (extranonce : h.extranonce = headerExtranonce en12.val) :
    h.hash1 H = Wire.workRoot H (h.commitment.h2 H) en12 := by
  rw [hash1, extranonce, val_headerExtranonce, h2_eq, Wire.workRoot, Wire.siaCoinb1]
  congr 1
  simp [List.replicate]

/-- The hash of any header, whatever its fields, is the one Prime computes from its commitment. -/
theorem powHash_eq (H : Hashes) (extranonce : h.extranonce = headerExtranonce en12.val) :
    Wire.powHashLe H (Wire.workHeader (Wire.siaPrevhash H h.prevBlock) h.groundNonce h.groundNtime
      (Wire.workRoot H (h.commitment.h2 H) en12)) h.xorKey h.xorKeyMaskClearBits = turned (h.powHash H) := by
  have ground : asicHash H (prevblockHidden H h.prevBlock) (h.hash1 H) h.nonce h.nonce2 h.timeOffset h.nonce3 =
      H.blake2b256 (Wire.workHeader (Wire.siaPrevhash H h.prevBlock) h.groundNonce h.groundNtime
        (Wire.workRoot H (h.commitment.h2 H) en12)) := by
    rw [asicHash, hash1_eq H extranonce, Wire.workHeader, groundNonce, groundNtime]
    simp only [List.append_assoc]
    rfl
  refine Subtype.ext ?_
  simp only [Wire.powHashLe, turned, powHash, ground]
  rfl

/-- The bytes of any header are the ones Prime writes. -/
theorem serialize_eq (extranonce : h.extranonce = headerExtranonce en12.val) :
    Wire.serializeHeaderV2 h.commitment h.groundNonce h.groundNtime en12 = h.serialize.val := by
  have time : h.groundNtime.val.take 4 = bytes 4 h.timeOffset.toNat ∧
      h.groundNtime.val.drop 4 = bytes 4 h.nonce3.toNat := by
    simp [groundNtime]
  have count : h.txcount.toUInt32.toUInt16 = h.txcount := by simp
  simp only [Wire.serializeHeaderV2, serialize, time, extranonce, val_headerExtranonce,
    commitment, count, groundNonce]
  simp only [List.append_assoc]
  rfl

end HeaderV2

section Targets

private theorem eq_of_value {a b : Hash} (same : value a.val = value b.val) : a = b := by
  have ours := bytes_value a.val
  have theirs := bytes_value b.val
  rw [a.property, same] at ours
  rw [b.property] at theirs
  exact Subtype.ext (ours.symm.trans theirs)

/-- A hash meets a target alike on both sides. -/
theorem meetsTarget_turned (h target : Hash) : Wire.meetsTarget (turned h)
    (turned target) = meetsTarget h target := by
  rw [Bool.eq_iff_iff, Wire.meetsTarget_iff, meetsTarget, decide_eq_true_eq,
    BigEndian.le_iff (h.property.trans target.property.symm)]
  rfl

/-- The target of a difficulty is the one Prime holds a claim of it to. -/
theorem shareTargetLe_eq {pot : UInt8} (within : pot < 224) : Wire.shareTargetLe pot = some
    (turned (targetForPot pot)) := by
  obtain ⟨target, found⟩ := Wire.exists_shareTargetLe within
  have small : pot.toNat < 224 := UInt8.lt_iff_toNat_lt.mp within
  have number : value (turned (targetForPot pot)).val = (2 ^ 224 - 1) / 2 ^ pot.toNat := by
    have ones : value (List.replicate 32 (0xff : UInt8)).reverse = 2 ^ 256 - 1 := by decide
    have high : (2 ^ 256 - 1) / 2 ^ 32 = 2 ^ 224 - 1 := by decide
    have past : ¬ 256 ≤ 32 + pot.toNat := by omega
    simp only [turned, targetForPot, past, dite_false]
    rw [BigEndian.value_shrInPlace, ones, Nat.pow_add, ← Nat.div_div_eq_div_mul, high]
  rw [found, eq_of_value ((Wire.shareTargetLe_eq_some found).2.trans number.symm)]

variable {bits : UInt32}

private theorem mantissa_eq (nonneg : bits &&& 0x00800000 = 0) : bits &&& 0x00ffffff = bits &&& 0x007fffff := by
  have both : (0x00ffffff : UInt32) = 0x00800000 ||| 0x007fffff := by decide
  have apart : bits &&& (0x00800000 ||| 0x007fffff) = bits &&& 0x00800000 ||| bits &&& 0x007fffff :=
    UInt32.toBitVec_inj.mp BitVec.and_or_distrib_left
  rw [both, apart, nonneg, UInt32.zero_or]

private theorem bitsToTarget_value {target : Hash} (found : bitsToTarget bits = some target) :
    value (turned target).val = (bits &&& 0x00ffffff).toNat * 256 ^ (bits >>> 24).toNat / 256 ^ 3 := by
  have narrow : (bits &&& 0x00ffffff).toNat < 256 ^ 3 := by
    rw [UInt32.toNat_and]
    exact (Nat.and_lt_two_pow _ (show (0x00ffffff : UInt32).toNat < 2 ^ 24 by decide)).trans_eq (by decide)
  unfold bitsToTarget at found
  dsimp only at found
  split at found
  · cases found
  · rename_i some
    split at found
    · rename_i large
      split at found
      · cases found
        have fits : (bits >>> 24).toNat ≤ 32 := by omega
        have width : 256 ^ (bits >>> 24).toNat = 256 ^ ((bits >>> 24).toNat - 3) * 256 ^ 3 := by
          rw [← Nat.pow_add, Nat.sub_add_cancel large]
        have low : 32 - (32 - (bits >>> 24).toNat + 3) = (bits >>> 24).toNat - 3 := by omega
        simp only [turned, List.reverse_append, List.reverse_reverse, List.reverse_replicate, low]
        rw [value_append, value_append, value_replicate_zero, value_replicate_zero,
          value_bytes, Nat.mod_eq_of_lt narrow, List.length_replicate,
          width, ← Nat.mul_assoc, Nat.mul_div_cancel _ (by decide)]
        ring
      · cases found
    · rename_i small
      cases found
      have lowered := @Wire.value_lowered (bits &&& 0x00ffffff) _ (Nat.le_of_not_le small) 29
      have less : ((bits &&& 0x00ffffff) >>> UInt32.ofNat (8 * (3 - (bits >>> 24).toNat))).toNat < 256 ^ 3 := by
        rw [UInt32.toNat_shiftRight, Nat.shiftRight_eq_div_pow]
        exact (Nat.div_le_self _ _).trans_lt narrow
      rw [← lowered]
      simp only [turned, List.reverse_append, List.reverse_reverse, List.reverse_replicate]
      rw [value_append, value_append, value_replicate_zero, value_bytes, value_bytes, Nat.mod_eq_of_lt less,
        Nat.mod_eq_of_lt (less.trans (by decide)), Nat.mul_zero, Nat.mul_zero]

private theorem isSome_bitsToTarget (some : bits &&& 0x00ffffff ≠ 0) (fits : (bits >>> 24).toNat ≤ 32) :
    (bitsToTarget bits).isSome := by
  unfold bitsToTarget
  dsimp only
  split
  · rename_i none
    rcases none with zero | past
    · exact absurd zero some
    · omega
  · split
    · split
      · rfl
      · omega
    · rfl

private theorem bitsToTarget_eq_none (none : bits &&& 0x00ffffff = 0 ∨ 32 < (bits >>> 24).toNat) :
    bitsToTarget bits = .none := by
  unfold bitsToTarget
  dsimp only
  rw [if_pos none]

/-- A compact target that is not negative is expanded alike, and one that is not one is so on both sides. -/
theorem bitsToTarget_turned (nonneg : bits &&& 0x00800000 = 0) :
    (bitsToTarget bits).map turned = Wire.nbitsToTargetLe bits := by
  have same := mantissa_eq nonneg
  by_cases fits : (bits >>> 24).toNat ≤ 32
  · by_cases zero : bits &&& 0x007fffff = 0
    · rw [(Wire.nbitsToTargetLe_eq_none fits).mpr (.inr zero), bitsToTarget_eq_none (.inl (same.trans zero)),
        Option.map_none]
    · obtain ⟨theirs, expanded, number⟩ := Wire.nbitsToTargetLe_value fits
        (not_or.mpr ⟨not_not.mpr nonneg, zero⟩)
      obtain ⟨ours, found⟩ := Option.isSome_iff_exists.mp (isSome_bitsToTarget (same ▸ zero) fits)
      have value := bitsToTarget_value found
      rw [same, ← number] at value
      rw [found, expanded, Option.map_some, eq_of_value value]
  · have past := Nat.not_le.mp fits
    have large : ¬ (bits >>> 24).toNat ≤ 3 := by omega
    have unfit : Wire.nbitsToTargetLe bits = none := by
      unfold Wire.nbitsToTargetLe
      dsimp only
      rw [if_neg large, if_pos past, ite_self]
    rw [unfit, bitsToTarget_eq_none (.inr past), Option.map_none]

end Targets

section Jobs

variable {H : Hashes} {tpl : Json} {tag : String} {reserve : Nat} {t : Template}
  {extra1 : Fixed 4} {cb : CoinbaserV2} {jobId : UInt8} {seq : Nat} {who : Option String} {j : Job}

private theorem coinbaseJob_header (made : coinbaseJob H t extra1 cb jobId seq who = some j) :
    j.header =
      { version := t.version
        prevBlock := t.prevBlock
        time := t.curtime
        bits := UInt32.ofNat (value t.nbits.val)
        height := t.height.toInt32
        txcount := t.txnCount.toUInt16
        merkleRoot := merkleRootSha256d H j.coinb1 t.txids
        extranonce := headerExtranonce extra1.val } := by
  unfold coinbaseJob at made
  dsimp only at made
  split at made
  · cases made
  · cases made
    rfl

namespace Job

/-- The job as Prime has it. -/
def jobSection (j : Job) : Wire.JobSection where
  prevHash := j.header.prevBlock
  targetByteIndex := 0
  nbits := j.tpl.nbits
  coinbaserId := j.cb.id
  height := j.tpl.height
  coinbaseValue := UInt64.ofNat j.tpl.value
  txnCount := j.tpl.txnCount
  merkleBranches := j.tpl.branches

/-- The coinbase as Prime has it. -/
def coinbaseSection (j : Job) : Wire.CoinbaseSection :=
  { coinbaseId := j.cb.id, coinb1 := j.coinb1, coinb2 := [] }

/-- A job the gateway makes of some template of its node. -/
def Offered (H : Hashes) (extra1 : Fixed 4) (j : Job) : Prop :=
  ∃ tpl tag reserve t cb jobId seq who,
    buildTemplate H tpl tag reserve = some t ∧ coinbaseJob H t extra1 cb jobId seq who = some j

end Job

/-- What a miner submits on a job: its session's bytes and its own, and what its hardware rolled. -/
structure Submission where
  sessEn1 : Fixed 4
  en2 : Fixed 8
  siaT : Fixed 8
  siaN : Fixed 8

namespace Submission

variable (sub : Submission)

def en12 : Fixed 12 := ⟨sub.sessEn1.val ++ sub.en2.val, by simp [sub.sessEn1.property, sub.en2.property]⟩

/-- The header that was ground on a job. -/
def header (j : Job) : HeaderV2 := j.submitted sub.sessEn1 sub.en2 sub.siaT sub.siaN

/-- The share that is sent for it. -/
def share (j : Job) (acceptDiff : Nat) (user : String) : PowSubmit :=
  j.submit sub.sessEn1 sub.en2 sub.siaT sub.siaN acceptDiff user

variable {acceptDiff : Nat} {user : String}

theorem header_extranonce (j : Job) : (sub.header j).extranonce = headerExtranonce sub.en12.val := rfl

theorem share_extranonce (j : Job) : (sub.share j acceptDiff user).received.extranonce = sub.en12 := by
  refine Subtype.ext ?_
  simp [PowSubmit.received, PowSubmit.bare, PowSubmit.sentExtranonce, share,
    Job.submit, en12, sub.sessEn1.property, sub.en2.property]

/-- Bytes that are read as two numbers and written again. -/
private theorem rewritten (s : Fixed 8) :
    bytes 4 (UInt32.ofNat (value (s.val.take 4))).toNat ++
      bytes 4 (UInt32.ofNat (value (s.val.drop 4))).toNat = s.val := by
  have half {part : Wire.Bytes} (size : part.length = 4) :
      bytes 4 (UInt32.ofNat (value part)).toNat = part := by
    have small := value_lt part
    rw [size] at small
    have whole := bytes_value part
    rw [size] at whole
    rw [UInt32.toNat_ofNat', Nat.mod_eq_of_lt (small.trans_eq (by decide)), whole]
  rw [half (by simp [s.property]), half (by simp [s.property]), List.take_append_drop]

theorem header_ground (j : Job) :
    (sub.header j).groundNonce = sub.siaN ∧ (sub.header j).groundNtime = sub.siaT :=
  ⟨Subtype.ext (rewritten sub.siaN), Subtype.ext (rewritten sub.siaT)⟩

/-- What Prime takes for the header, the count being read with the coinbase in it, is the
header that was ground. -/
theorem header_commitment (built : buildTemplate H tpl tag reserve = some t)
    (made : coinbaseJob H t extra1 cb jobId seq who = some j) :
    (Wire.h2KeyFor j.jobSection (sub.share j acceptDiff user).received.toPowSubmit
      j.header.time true).commitment H j.jobSection j.coinb1 = (sub.header j).commitment := by
  obtain ⟨txs, entries, worth, k, template⟩ := buildTemplate_built built
  have same := (coinbaseJob_eq_some made).1
  have fields := coinbaseJob_header made
  have few : t.txnCount.toUInt16.toUInt32 = t.txnCount := by
    have all := template.few
    have kept : t.txids.length ≤ entries.length := by
      rw [template.txids, List.length_map, List.length_take]
      omega
    have small : t.txnCount.toNat < 2 ^ 16 := by
      rw [template.txnCount, UInt32.toNat_add, UInt32.toNat_ofNat', UInt32.toNat_one]
      omega
    refine UInt32.toNat_inj.mp ?_
    rw [UInt16.toNat_toUInt32, UInt32.toNat_toUInt16, Nat.mod_eq_of_lt small]
  have root : Wire.coinbaseRoot H j.jobSection j.coinb1 = merkleRootSha256d H j.coinb1 t.txids := by
    have folded := foldBranches_root H j.coinb1 t.txids
    rw [← template.branches] at folded
    rw [← folded, Wire.coinbaseRoot, Job.jobSection, same]
    rfl
  have version : (sub.header j).version = t.version := by rw [header, Job.submitted, fields]
  have count : (sub.header j).txcount.toUInt32 = t.txnCount := by rw [header, Job.submitted, fields, few]
  have tall : (sub.header j).height.toUInt32 = t.height := by rw [header, Job.submitted, fields]; simp
  rw [HeaderV2.commitment, Wire.H2Key.commitment, root, count, tall]
  simp only [Wire.h2KeyFor, Wire.JobSection.nbitsU32, Job.jobSection, same,
    header, Job.submitted, share, Job.submit, PowSubmit.received, PowSubmit.bare,
    Wire.headerFlags, Wire.PowSubmit.useTimeOffset, HeaderV2.timeOnWire, fields]
  rfl

/-- The hash Prime grinds again from the share, turned around, is the one the gateway judged. -/
theorem header_groundHash (built : buildTemplate H tpl tag reserve = some t)
    (made : coinbaseJob H t extra1 cb jobId seq who = some j) :
    Wire.groundHash H j.jobSection (sub.share j acceptDiff user).received.toPowSubmit ⟨sub.siaT, sub.siaN⟩
        (((Wire.h2KeyFor j.jobSection (sub.share j acceptDiff user).received.toPowSubmit
          j.header.time true).commitment H j.jobSection j.coinb1).h2 H) =
            turned ((sub.header j).powHash H) := by
  have ground := header_ground sub j
  rw [header_commitment sub built made, ← HeaderV2.powHash_eq H (header_extranonce sub j),
    ground.1, ground.2, Wire.groundHash, share_extranonce]
  have key : (sub.header j).xorKey = Fixed.zero 16 ∧ (sub.header j).xorKeyMaskClearBits = 0 := by
    rw [header, Job.submitted, coinbaseJob_header made]
    exact ⟨rfl, rfl⟩
  rw [key.1, key.2]
  rfl

end Submission

/-- **The gateway and Prime mean one share.** Whatever a miner submits on a job of the gateway, Prime reads the
fields that were sent, with anything after them; takes the header that was ground for the header of the share,
and so has its hash, turned around, and the bytes that would stand in a block; and holds the hash to the targets
the gateway held it to. -/
theorem share_agrees (offered : j.Offered H extra1) (fits : j.coinb1.length ≤ 65535) {user : String}
    (clean : cleanUser user) (sub : Submission) (acceptDiff : Nat) :
    let sent := sub.share j acceptDiff user
    let s := sent.received
    let commitment :=
      (Wire.h2KeyFor j.jobSection s.toPowSubmit j.header.time true).commitment H j.jobSection j.coinb1
    let hash := Wire.groundHash H j.jobSection s.toPowSubmit ⟨sub.siaT, sub.siaN⟩ (commitment.h2 H)
    (∀ pad, parseClient (sent.encode ++ pad) = .ok (.pow s)) ∧
      (s.job = some j.jobSection ∧ s.coinbase = some j.coinbaseSection ∧ s.blake2b = some ⟨sub.siaT, sub.siaN⟩ ∧
        s.timeOnWire = some j.header.time ∧ s.username = user ∧ s.targetPot = sharePot acceptDiff) ∧
      commitment = (sub.header j).commitment ∧
      hash = turned ((sub.header j).powHash H) ∧
      Wire.serializeHeaderV2 commitment sub.siaN sub.siaT s.extranonce = (sub.header j).serialize.val ∧
      (∀ pot < 224, (Wire.shareTargetLe pot).map (Wire.meetsTarget hash) =
        some (meetsTarget ((sub.header j).powHash H) (targetForPot pot))) ∧
      (j.header.bits &&& 0x00800000 = 0 → (Wire.nbitsToTargetLe commitment.nbits).map (Wire.meetsTarget hash) =
        (bitsToTarget j.header.bits).map (meetsTarget ((sub.header j).powHash H))) := by
  intro sent s commitment hash
  obtain ⟨tpl, tag, reserve, t, cb, jobId, seq, who, built, made⟩ := offered
  have same : commitment = (sub.header j).commitment := Submission.header_commitment sub built made
  have ground : hash = turned ((sub.header j).powHash H) := Submission.header_groundHash sub built made
  refine ⟨fun pad => PowSubmit.parseClient_encode (sendable_submit built made fits clean _ _ _ _ _) pad,
    ⟨rfl, rfl, rfl, rfl, rfl, rfl⟩, same, ground, ?_, ?_, ?_⟩
  · have extranonce : s.extranonce = sub.en12 := Submission.share_extranonce sub j
    obtain ⟨nonce, ntime⟩ := Submission.header_ground sub j
    rw [same, ← HeaderV2.serialize_eq (Submission.header_extranonce sub j), nonce, ntime, extranonce]
  · intro pot within
    rw [shareTargetLe_eq within, Option.map_some, ground, meetsTarget_turned]
  · intro nonneg
    have bits : commitment.nbits = j.header.bits := by
      rw [same]
      rfl
    rw [bits, ← bitsToTarget_turned nonneg, Option.map_map, ground]
    congr 1
    funext target
    exact meetsTarget_turned _ _

/-- A submission of nothing but zeros. -/
def blankSubmission : Submission := ⟨Fixed.zero 4, Fixed.zero 8, Fixed.zero 8, Fixed.zero 8⟩

theorem offered_plain (made : plainJob = some j) : j.Offered flatHashes (Fixed.zero 4) :=
  ⟨_, _, _, _, _, _, _, _, buildTemplate_plain, made⟩

set_option maxRecDepth 8000 in
/-- A miner's share on the job of a template of one transaction. -/
theorem share_agrees_blank :
    ∃ j, j.Offered flatHashes (Fixed.zero 4) ∧
      parseClient ((blankSubmission.share j 1 "bc1qminer.rig").encode ++ [0x55]) =
        .ok (.pow (blankSubmission.share j 1 "bc1qminer.rig").received) := by
  have published : plainJob.any fun j => j.coinb1.length ≤ 65535 := by decide
  obtain ⟨j, made, fits⟩ := (Option.any_eq_true _ _).mp published
  have offered := offered_plain made
  exact ⟨j, offered, (share_agrees offered (of_decide_eq_true fits) (by decide) blankSubmission 1).1 _⟩

end Jobs

end Lazarus.Gateway
