import Lazarus.Gateway.Kept
import Lazarus.Gateway.Submit
import Lazarus.Wire.Encoding

/-! A share on its way to Prime. The gateway writes its sections in an order of its own, with an encoder of its
own, and Prime's reader has the same fields of the bytes. -/

namespace Lazarus.Gateway

open LittleEndian
open Wire (Fixed Hash Hashes JobSection CoinbaseSection PowMessage parseClient)
open Wire.Parse

namespace PowSubmit

/-- The twelve bytes that are sent of an extranonce. -/
def sentExtranonce (s : PowSubmit) : Fixed 12 :=
  ⟨s.extranonce.take 12 ++ List.replicate (12 - s.extranonce.length) 0, by
    simp only [List.length_append, List.length_replicate, List.length_take]
    omega⟩

/-- The share before any of its sections is read. -/
def bare (s : PowSubmit) : PowMessage where
  coinbaseId := s.coinbaseId
  flags := s.flags
  targetPot := s.targetByte
  version := s.version
  extranonce := s.sentExtranonce
  reserved := ⟨[if s.useTimeOffset then 1 else 0, 0, 0, 0], rfl⟩
  jobId := s.jobId
  ntime32 := s.ntime
  nonce32 := s.nonce
  username := s.username

/-- The share as Prime has it. -/
def received (s : PowSubmit) : PowMessage :=
  { s.bare with
    job := s.job
    coinbase := s.coinbase
    blake2b := s.blake2b.map fun b => { ntime := b.siaNtime, nonce := b.siaNonce }
    timeOnWire := s.blake2b.map Blake2bSection.timeOnWire }

/-- A share whose lengths fit the fields they are sent in. -/
structure Sendable (s : PowSubmit) : Prop where
  plain : 0 ∉ Utf8.bytes s.username
  short : (Utf8.bytes s.username).length ≤ Wire.maxUsername
  branches : ∀ j ∈ s.job, j.merkleBranches.length ≤ 255
  pieces : ∀ c ∈ s.coinbase, c.coinb1.length ≤ 65535 ∧ c.coinb2.length ≤ 65535

section Encoders

theorem encodeJob_eq (j : JobSection) : encodeJob j = j.encode := by
  simp [encodeJob, JobSection.encode, JobSection.body]

/-- A length that fits its two bytes is not cut. -/
theorem encodeCoinbase_eq {c : CoinbaseSection} (one : c.coinb1.length ≤ 65535)
    (two : c.coinb2.length ≤ 65535) : encodeCoinbase c = c.encode := by
  have uncut : ∀ {n : Nat}, n ≤ 65535 → (UInt16.ofNat n).toNat = n := by
    intro n fits
    rw [UInt16.toNat_ofNat']
    exact Nat.mod_eq_of_lt (by omega)
  simp [encodeCoinbase, CoinbaseSection.encode, CoinbaseSection.body, uncut one, uncut two]

theorem encodeBlake2b_eq (b : Blake2bSection) :
    encodeBlake2b b = Wire.Blake2bSection.encode { ntime := b.siaNtime, nonce := b.siaNonce }
      (some b.timeOnWire) := by
  simp [encodeBlake2b, Wire.Blake2bSection.encode, Wire.powAlgoBlake2b]

end Encoders

variable {s : PowSubmit}

/-- The sections in the order a gateway sends them. -/
def sections (s : PowSubmit) : Wire.Bytes :=
  s.job.elim [] JobSection.encode ++ (s.coinbase.elim [] CoinbaseSection.encode ++
    ((s.blake2b.map fun b => ({ ntime := b.siaNtime, nonce := b.siaNonce } : Wire.Blake2bSection)).elim []
      (·.encode (s.blake2b.map Blake2bSection.timeOnWire)) ++ [Wire.endMark]))

theorem reads_sections (sendable : s.Sendable) {count : Nat} (enough : 5 ≤ count) :
    Reads (PowMessage.readSections count s.bare) s.sections s.received := by
  refine PowMessage.reads_jobSection (k := 4) sendable.branches ?_ rfl count enough
  refine PowMessage.reads_coinbaseSection (k := 3) sendable.pieces ?_ rfl
  refine PowMessage.reads_blake2b (k := 1) ?_ ?_ rfl rfl
  · intro timed
    rwa [Option.isSome_map] at timed ⊢
  · exact PowMessage.reads_end s.received

/-- What is sent, field by field. -/
def body (s : PowSubmit) : Wire.Bytes :=
  [s.jobId] ++
    ([s.coinbaseId] ++ ([s.flags] ++ ([s.targetByte] ++ (bytes 4 s.ntime.toNat ++ (bytes 4 s.nonce.toNat ++
    (bytes 4 s.version.toNat ++ ([UInt8.ofNat Wire.extranonceLen] ++ (s.sentExtranonce.val ++
      ((Utf8.bytes s.username ++ [0]) ++ (s.bare.reserved.val ++ s.sections))))))))))

theorem encode_eq (sendable : s.Sendable) : s.encode = Wire.subPow :: s.body := by
  have job : s.job.elim [] encodeJob = s.job.elim [] JobSection.encode := by
    cases s.job with
    | none => rfl
    | some j => exact encodeJob_eq j
  have coinbase : s.coinbase.elim [] encodeCoinbase = s.coinbase.elim [] CoinbaseSection.encode := by
    have pieces := sendable.pieces
    cases found : s.coinbase with
    | none => rfl
    | some c => exact encodeCoinbase_eq (pieces c found).1 (pieces c found).2
  have blake2b : s.blake2b.elim [] encodeBlake2b =
      (s.blake2b.map fun b => ({ ntime := b.siaNtime, nonce := b.siaNonce } : Wire.Blake2bSection)).elim []
        (·.encode (s.blake2b.map Blake2bSection.timeOnWire)) := by
    cases s.blake2b with
    | none => rfl
    | some b => exact encodeBlake2b_eq b
  simp [encode, body, sections, job, coinbase, blake2b, sentExtranonce, bare, subShare, Wire.subPow, structEnd,
    Wire.endMark, Wire.extranonceLen]

theorem reads_body (sendable : s.Sendable) {count : Nat} (enough : 5 ≤ count) :
    Reads (PowMessage.read count) s.body s.received := by
  refine (reads_u8 _).bind ((reads_u8 _).bind ((reads_u8 _).bind ((reads_u8 _).bind ((reads_u32 _).bind ?_))))
  refine (reads_u32 _).bind ((reads_u32 _).bind ((reads_u8 _).bind ?_))
  refine (reads_array s.sentExtranonce).bind ?_
  refine (reads_cstr sendable.plain sendable.short).bind ((reads_array s.bare.reserved).bind ?_)
  rw [Utf8.lossy_bytes]
  exact reads_sections sendable enough

/-- Prime has the share of the bytes, whatever stands after them. -/
theorem parseClient_encode (sendable : s.Sendable) (pad : Wire.Bytes) :
    parseClient (s.encode ++ pad) = .ok (.pow s.received) := by
  have enough : 5 ≤ (s.body ++ pad).length + 1 := by
    simp only [body, List.length_append, List.length_singleton]
    omega
  have whole := reads_body sendable enough [] pad
  rw [List.nil_append] at whole
  have decoded : PowMessage.decode (s.body ++ pad) = .ok s.received := congrArg (Prod.fst <$> ·) whole
  rw [encode_eq sendable, List.cons_append, parseClient, if_neg (by decide), if_pos rfl, decoded]
  rfl

end PowSubmit

section Jobs

variable {H : Hashes} {tpl : Json} {tag : String} {reserve : Nat} {t : Template}
  {extra1 : Fixed 4} {cb : CoinbaserV2} {jobId : UInt8} {seq : Nat} {who : Option String} {j : Job}

private theorem cleanUser_plain {user : String} (clean : cleanUser user) :
    0 ∉ Utf8.bytes user ∧ (Utf8.bytes user).length ≤ Wire.maxUsername := by
  simp only [cleanUser, Bool.and_eq_true, List.all_eq_true, decide_eq_true_eq] at clean
  obtain ⟨⟨_, short⟩, printable⟩ := clean
  refine ⟨fun zero => ?_, short.trans (by decide)⟩
  exact absurd (printable 0 zero).1 (by decide)

private theorem length_branches_le (built : buildTemplate H tpl tag reserve = some t) :
    t.branches.length ≤ 16 := by
  obtain ⟨txs, entries, value, k, template⟩ := buildTemplate_built built
  have few : t.txids.length + 1 ≤ 2 ^ 16 := by
    have all := template.few
    rw [template.txids, List.length_map, List.length_take]
    omega
  rw [template.branches, merkleBranchesForCoinbase]
  exact Merkle.length_siblings_le (hashPair H) _ (by rwa [List.length_cons])

/-- Every share of a miner on a job can be sent, where the coinbase fits its section. -/
theorem sendable_submit (built : buildTemplate H tpl tag reserve = some t)
    (made : coinbaseJob H t extra1 cb jobId seq who = some j) (fits : j.coinb1.length ≤ 65535) {user : String}
    (clean : cleanUser user) (sessEn1 : Fixed 4) (en2 siaT siaN : Fixed 8) (acceptDiff : Nat) :
    (j.submit sessEn1 en2 siaT siaN acceptDiff user).Sendable where
  plain := (cleanUser_plain clean).1
  short := (cleanUser_plain clean).2
  branches := by
    intro job same
    cases same
    rw [(coinbaseJob_eq_some made).1]
    exact (length_branches_le built).trans (by decide)
  pieces := by
    intro c same
    cases same
    exact ⟨fits, Nat.zero_le _⟩

end Jobs

end Lazarus.Gateway
