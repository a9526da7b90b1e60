import Lazarus.Lib.Table
import Lazarus.Wire.Classify
import Lazarus.Wire.Mining

/-! Verification of a share: the header is put back together from the job slot and the share's own
fields, the work is checked, and the coinbase is judged. -/

namespace Lazarus.Wire

def maxTimeAhead : Nat := 7200

def maxTimeBehind : Nat := 3600

def maxCoinbaseSectionBytes : Nat := 20000

def maxCoinbasesPerSlot : Nat := 8

def maxCbCache : Nat := 32

def maxCbCacheBytes : Nat := 384 * 1024

def maxH2Cache : Nat := 64

/-- Every field of a share that its header commitment depends on. -/
structure H2Key where
  coinbaseId : UInt8
  targetPot : UInt8
  txcount : UInt32
  version : UInt32
  timeOnWire : UInt32
  flags : UInt8
deriving DecidableEq

/-- A job slot of a gateway, as a session remembers it. The two caches hold what was computed for
shares whose work checked out; the convention says whether the job's count of transactions has the
coinbase in it, once a share has shown it. -/
structure JobSlot where
  job : Option JobSection := none
  coinbases : Table UInt8 CoinbaseSection := ∅
  h2Cache : Table H2Key Hash := ∅
  cbCache : Table (UInt8 × UInt8) (Bytes × Coinbase) := ∅
  txcountIncludesCoinbase : Option Bool := none

/-- What folding a share's sections into its slot changed. -/
structure Absorbed where
  jobChanged : Bool := false
  coinbaseAdded : Option UInt8 := none
deriving DecidableEq

def coinbaseIdFor (s : PowSubmit) : UInt8 := if s.subsidyOnly then 0xff else s.coinbaseId

namespace JobSlot

/-- Drop what was computed from one coinbase section. -/
def dropDerived (slot : JobSlot) (id : UInt8) : JobSlot :=
  { slot with
    h2Cache := slot.h2Cache.retain fun key => key.coinbaseId != id
    cbCache := slot.cbCache.retain fun key => key.1 != id }

/-- A job section that names another job starts the slot afresh. -/
def startJob (slot : JobSlot) : Option JobSection → Bool × JobSlot
  | none => (false, slot)
  | some j => if slot.job = some j then (false, slot) else (true, { job := some j })

def putCoinbase (slot : JobSlot) (c : CoinbaseSection) : JobSlot :=
  { slot with coinbases := slot.coinbases.insert c.coinbaseId c }.dropDerived c.coinbaseId

/-- Fold a share's sections into the slot, or refuse the coinbase section. -/
def absorb (slot : JobSlot) (s : PowSubmit) : Except Reject Absorbed × JobSlot :=
  if s.coinbase.any fun c => maxCoinbaseSectionBytes < c.coinb1.length + c.coinb2.length then
    (.error .coinbaseTooLarge, slot)
  else
    let (jobChanged, slot) := slot.startJob s.job
    match s.coinbase with
    | none => (.ok { jobChanged }, slot)
    | some c =>
      if slot.coinbases.get? c.coinbaseId = some c then (.ok { jobChanged }, slot)
      else if slot.coinbases.get? c.coinbaseId = none ∧ maxCoinbasesPerSlot ≤ slot.coinbases.size then
        (.error .badCoinbaseId, slot)
      else (.ok { jobChanged, coinbaseAdded := some c.coinbaseId }, slot.putCoinbase c)

def forgetCoinbase (slot : JobSlot) (id : UInt8) : JobSlot :=
  { slot with coinbases := slot.coinbases.erase id }.dropDerived id

def evictSections (slot : JobSlot) : JobSlot := { slot with coinbases := ∅, h2Cache := ∅, cbCache := ∅ }

end JobSlot

structure VerifiedShare where
  hash : Hash
  work : Nat
  targetCommitted : Bool
  targetPot : UInt8
  height : UInt32
  ntime : UInt32
  isBlockCandidate : Bool
  coinbaseKind : CoinbaseKind
  coinbaseValue : Nat
  paidToPool : Nat
  commitment : Commitment
  coinbaseLegacy : Bytes
  coinbase : Coinbase
deriving DecidableEq

section Checks

def okOr (found : Option α) (reject : Reject) : Except Reject α :=
  match found with
  | some a => .ok a
  | none => .error reject

def rejectIf (refused : Bool) (reject : Reject) : Except Reject Unit :=
  if refused then .error reject else .ok ()

@[simp] theorem okOr_eq_ok {found : Option α} {reject : Reject} {a : α} :
    okOr found reject = .ok a ↔ found = some a := by
  cases found with
  | none => simp [okOr]
  | some b => simp [okOr]

@[simp] theorem rejectIf_eq_ok {refused : Bool} {reject : Reject} {u : Unit} :
    rejectIf refused reject = .ok u ↔ refused = false := by
  cases refused with
  | false => simp [rejectIf]
  | true => simp [rejectIf]

/-- A computation that goes through does so in both of its parts. -/
theorem bind_eq_ok {first : Except Reject α} {next : α → Except Reject β} {b : β} :
    (first >>= next) = .ok b ↔ ∃ a, first = .ok a ∧ next a = .ok b := by
  cases first with
  | error reject => simp [bind, Except.bind]
  | ok a => simp [bind, Except.bind]

end Checks

/-- A coinbase as a share is verified against it. `fresh` where it was not in the cache. -/
structure Reading where
  onTrust : Bool
  legacy : Bytes
  parsed : Coinbase
  fresh : Bool

/-- The difficulty is part of what was hashed, or is taken on trust. -/
def Reading.targetCommitted (r : Reading) (job : JobSection) : Bool :=
  r.onTrust || commitsTarget r.legacy job.targetByteIndex.toNat

/-- A coinbase put together from the section it was sent in. -/
def CoinbaseSection.assembled (sect : CoinbaseSection) (job : JobSection) (targetPot : UInt8) : Bytes :=
  assemble sect.coinb1 sect.coinb2 job.targetByteIndex.toNat targetPot

/-- The coinbase of a share: from the cache, or put together, parsed and held to the job's height. -/
def JobSlot.read (slot : JobSlot) (job : JobSection) (s : PowSubmit) (p : Policy) : Except Reject Reading := do
  let sect ← okOr (slot.coinbases.get? (coinbaseIdFor s)) .coinbaseMissing
  let onTrust := p.trustedTarget && isWhole sect.coinb2 job.targetByteIndex.toNat
  match slot.cbCache.get? (coinbaseIdFor s, s.targetPot) with
  | some (legacy, parsed) => return { onTrust, legacy, parsed, fresh := false }
  | none =>
    let legacy := sect.assembled job s.targetPot
    match parse legacy with
    | .error _ => throw .badCoinbase
    | .ok parsed =>
      rejectIf (parsed.height != some job.height) .badJobId
      return { onTrust, legacy, parsed, fresh := true }

/-- A header that was tried and met its target. -/
structure Attempt where
  commitment : Commitment
  hash : Hash
  includes : Bool
  key : H2Key
  h2 : Hash

def headerFlags (s : PowSubmit) : UInt8 := if s.useTimeOffset then flagUseTimeOffset else 0

def coinbaseRoot (H : Hashes) (job : JobSection) (legacy : Bytes) : Hash :=
  H.merkleRoot (H.sha256d legacy) job.merkleBranches

/-- The header of a share under one reading of the job's transaction count. A cached commitment stands
in for the header, and its merkle root is then left out. -/
def JobSlot.attempt (H : Hashes) (slot : JobSlot) (job : JobSection) (s : PowSubmit) (b2 : Blake2bSection)
    (timeOnWire : UInt32) (legacy : Bytes) (shareTarget : Hash) (includes : Bool) : Option Attempt :=
  let flags := headerFlags s
  let txcount := if includes then job.txnCount else job.txnCount + 1
  let key : H2Key := ⟨coinbaseIdFor s, s.targetPot, txcount, s.version, timeOnWire, flags⟩
  let hint := slot.h2Cache.get? key
  let commitment : Commitment := {
    version := s.version
    prevHash := job.prevHash
    height := job.height
    merkleRoot := if hint.isSome then Fixed.zero 32 else coinbaseRoot H job legacy
    timeOnWire, nbits := job.nbitsU32, txcount, flags
    xorClearBits := 0, xorKey := Fixed.zero 16, rhs := Fixed.zero 32 }
  let h2 := hint.getD (commitment.h2 H)
  let work := workHeader (siaPrevhash H job.prevHash) b2.nonce b2.ntime (workRoot H h2 s.extranonce)
  let hash := powHashLe H work (Fixed.zero 16) 0
  if meetsTarget hash shareTarget then some { commitment, hash, includes, key, h2 } else none

/-- Both readings of the count, until one share has shown which it is. -/
def JobSlot.conventions (slot : JobSlot) : List Bool :=
  match slot.txcountIncludesCoinbase with
  | some includes => [includes]
  | none => [false, true]

/-- What a hash earns on its own: a fixed amount where it meets the floor, whatever was claimed. -/
def workByHash (p : Policy) (hash : Hash) : Nat :=
  let pot := max p.uncommittedPot p.minPot
  let met := (shareTargetLe pot).any fun t => meetsTarget hash t
  if met && pot < 64 then 2 ^ pot.toNat else 0

def creditedWork (s : PowSubmit) (p : Policy) (targetCommitted : Bool) (hash : Hash) : Nat :=
  if targetCommitted && p.minPot ≤ s.targetPot then s.claimedWork else workByHash p hash

/-- The header time is out of bounds of the clock, where the clock is known. -/
def badTime (p : Policy) (ntime : UInt32) : Bool :=
  let top := 2 ^ 32 - 1
  p.now != 0 &&
    (min (p.now.toNat + maxTimeAhead) top < ntime.toNat || min (ntime.toNat + maxTimeBehind) top < p.now.toNat)

namespace JobSlot

/-- Keep a commitment, emptying a full cache first, and the convention it was found under. -/
def noteAttempt (slot : JobSlot) (a : Attempt) : JobSlot :=
  { slot with
    h2Cache := (if maxH2Cache ≤ slot.h2Cache.size then ∅ else slot.h2Cache).insert a.key a.h2
    txcountIncludesCoinbase := some a.includes }

def cacheCost (entry : Bytes × Coinbase) : Nat :=
  entry.1.length + (entry.2.outputs.map fun o => 48 + o.script.length).sum

/-- Keep a parsed coinbase, emptying the cache first where it is full by count or by bytes. -/
def noteCoinbase (slot : JobSlot) (key : UInt8 × UInt8) (r : Reading) : JobSlot :=
  if r.fresh then
    let entry := (r.legacy, r.parsed)
    let held := (slot.cbCache.values.map cacheCost).sum
    let full := maxCbCache ≤ slot.cbCache.size || maxCbCacheBytes < held + cacheCost entry
    { slot with cbCache := (if full then ∅ else slot.cbCache).insert key entry }
  else slot

end JobSlot

/-- The share as it was verified. The merkle root of a cached commitment is filled in. -/
def verifiedShare (H : Hashes) (job : JobSection) (s : PowSubmit) (p : Policy)
    (r : Reading) (kind : CoinbaseKind) (ntime : UInt32) (a : Attempt) : VerifiedShare :=
  let commitment :=
    if a.commitment.merkleRoot = Fixed.zero 32 then
      { a.commitment with merkleRoot := coinbaseRoot H job r.legacy }
    else a.commitment
  { hash := a.hash
    work := creditedWork s p (r.targetCommitted job) a.hash
    targetCommitted := r.targetCommitted job
    targetPot := s.targetPot
    height := job.height
    ntime
    isBlockCandidate := (nbitsToTargetLe commitment.nbits).any fun t => meetsTarget a.hash t
    coinbaseKind := kind
    coinbaseValue := r.parsed.totalOutputValue
    paidToPool := r.parsed.paidTo p.poolScript
    commitment
    coinbaseLegacy := r.legacy
    coinbase := r.parsed }

/-- Check a share against its slot and an explicit target. A share that is refused leaves the slot as
it was. -/
def verifyWithTarget (H : Hashes) (slot : JobSlot) (s : PowSubmit) (p : Policy) (shareTarget : Hash) :
    Except Reject (VerifiedShare × JobSlot) := do
  rejectIf (!s.isBlake2b) .badVersion
  let b2 ← okOr s.blake2b .badVersion
  let timeOnWire ← okOr s.timeOnWire .badNtime
  let job ← okOr slot.job .badJobId
  let r ← slot.read job s p
  let kind := classifyCoinbase r.parsed p s.subsidyOnly job.txnCount.toNat job.merkleBranches.isEmpty
  rejectIf (kind = .foreign) .badCoinbaseOutputs
  let ntime := shareNtime timeOnWire b2.ntime (headerFlags s)
  rejectIf (badTime p ntime) .badNtime
  rejectIf (65535 ≤ job.txnCount) .badJobId
  let a ← okOr (slot.conventions.findSome? (slot.attempt H job s b2 timeOnWire r.legacy shareTarget)) .highHash
  return (verifiedShare H job s p r kind ntime a,
    (slot.noteAttempt a).noteCoinbase (coinbaseIdFor s, s.targetPot) r)

/-- Check a share against the target it claims. -/
def verify (H : Hashes) (slot : JobSlot) (s : PowSubmit) (p : Policy) :
    Except Reject (VerifiedShare × JobSlot) := do
  let shareTarget ← okOr (shareTargetLe s.targetPot) .badTarget
  verifyWithTarget H slot s p shareTarget

end Lazarus.Wire
