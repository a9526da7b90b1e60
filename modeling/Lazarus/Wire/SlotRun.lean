import Lazarus.Lib.Along
import Lazarus.Wire.Verify

/-! Runs of a job slot: what a session does to it, what a share that goes through was held to, and that
a cached coinbase is always the one the share's section and claim put together. -/

namespace Lazarus.Wire

section Through

variable {H : Hashes} {slot slot' : JobSlot} {job : JobSection} {s : PowSubmit} {p : Policy} {r : Reading}

/-- What reading a share's coinbase goes through. -/
theorem read_cases (through : slot.read job s p = .ok r) :
    ∃ sect, slot.coinbases.get? (coinbaseIdFor s) = some sect ∧
      r.onTrust = (p.trustedTarget && isWhole sect.coinb2 job.targetByteIndex.toNat) ∧
      ((r.fresh = false ∧ slot.cbCache.get? (coinbaseIdFor s, s.targetPot) = some (r.legacy, r.parsed)) ∨
        (r.fresh = true ∧ r.legacy = sect.assembled job s.targetPot ∧ parse r.legacy = .ok r.parsed ∧
          r.parsed.height = some job.height)) := by
  obtain ⟨sect, held, through⟩ := bind_eq_ok.mp through
  refine ⟨sect, okOr_eq_ok.mp held, ?_⟩
  cases cached : slot.cbCache.get? (coinbaseIdFor s, s.targetPot) with
  | some entry =>
    simp only [cached] at through
    cases through
    exact ⟨rfl, .inl ⟨rfl, rfl⟩⟩
  | none =>
    simp only [cached] at through
    cases parsed : parse (sect.assembled job s.targetPot) with
    | error e =>
      simp only [parsed] at through
      cases through
    | ok cb =>
      simp only [parsed] at through
      obtain ⟨_, height, through⟩ := bind_eq_ok.mp through
      cases through
      exact ⟨rfl, .inr ⟨rfl, rfl, parsed, by simpa using height⟩⟩

private theorem attempt_meets {b2 : Blake2bSection} {timeOnWire : UInt32} {legacy : Bytes} {shareTarget : Hash}
    {includes : Bool} {a : Attempt}
    (tried : slot.attempt H job s b2 timeOnWire legacy shareTarget includes = some a) :
    meetsTarget a.hash shareTarget = true := by
  obtain ⟨met, made⟩ := Option.ite_none_right_eq_some.mp tried
  cases made
  exact met

/-- What a share that is accepted at a target went through, and what is kept of it. -/
structure Accepted (H : Hashes) (slot : JobSlot) (s : PowSubmit) (p : Policy) (shareTarget : Hash)
    (v : VerifiedShare) (slot' : JobSlot) where
  job : JobSection
  reading : Reading
  attempt : Attempt
  ntime : UInt32
  held : slot.job = some job
  read : slot.read job s p = .ok reading
  meets : meetsTarget attempt.hash shareTarget = true
  share : v = verifiedShare H job s p reading
    (classifyCoinbase reading.parsed p s.subsidyOnly job.txnCount.toNat job.merkleBranches.isEmpty)
      ntime attempt
  kept : slot' = (slot.noteAttempt attempt).noteCoinbase (coinbaseIdFor s, s.targetPot) reading

private theorem verifyWithTarget_accepted {shareTarget : Hash} {v : VerifiedShare}
    (through : verifyWithTarget H slot s p shareTarget = .ok (v, slot')) :
    Nonempty (Accepted H slot s p shareTarget v slot') := by
  obtain ⟨_, _, through⟩ := bind_eq_ok.mp through
  obtain ⟨b2, _, through⟩ := bind_eq_ok.mp through
  obtain ⟨timeOnWire, _, through⟩ := bind_eq_ok.mp through
  obtain ⟨job, held, through⟩ := bind_eq_ok.mp through
  obtain ⟨reading, read, through⟩ := bind_eq_ok.mp through
  obtain ⟨_, _, through⟩ := bind_eq_ok.mp through
  obtain ⟨_, _, through⟩ := bind_eq_ok.mp through
  obtain ⟨_, _, through⟩ := bind_eq_ok.mp through
  obtain ⟨attempt, chosen, through⟩ := bind_eq_ok.mp through
  obtain ⟨includes, _, tried⟩ := List.exists_of_findSome?_eq_some (okOr_eq_ok.mp chosen)
  cases through
  exact ⟨⟨job, reading, attempt, _, okOr_eq_ok.mp held, read, attempt_meets tried, rfl, rfl⟩⟩

theorem verify_accepted {v : VerifiedShare} (through : verify H slot s p = .ok (v, slot')) :
    ∃ shareTarget, shareTargetLe s.targetPot = some shareTarget ∧
      Nonempty (Accepted H slot s p shareTarget v slot') := by
  obtain ⟨shareTarget, target, through⟩ := bind_eq_ok.mp through
  exact ⟨shareTarget, okOr_eq_ok.mp target, verifyWithTarget_accepted through⟩

end Through

section Coherent

namespace JobSlot

/-- Every cached coinbase is the one its section and claim put together, parsed, at the job's height. -/
def Coherent (slot : JobSlot) : Prop :=
  ∀ id pot legacy parsed, slot.cbCache.get? (id, pot) = some (legacy, parsed) →
    ∃ job sect, slot.job = some job ∧ slot.coinbases.get? id = some sect ∧ legacy = sect.assembled job pot ∧
      parse legacy = .ok parsed ∧ parsed.height = some job.height

variable {slot slot' : JobSlot}

/-- A slot that keeps only entries of sections it has not touched stays coherent. -/
theorem Coherent.thin (coherent : slot.Coherent) (job : slot'.job = slot.job)
    (fewer : ∀ id pot entry, slot'.cbCache.get? (id, pot) = some entry →
      slot.cbCache.get? (id, pot) = some entry ∧ slot'.coinbases.get? id = slot.coinbases.get? id) :
    slot'.Coherent := by
  intro id pot legacy parsed cached
  obtain ⟨was, section_⟩ := fewer id pot _ cached
  rw [job, section_]
  exact coherent id pot legacy parsed was

theorem coherent_of_empty (empty : slot.cbCache = ∅) : slot.Coherent := by
  intro id pot legacy parsed cached
  rw [empty] at cached
  cases cached

theorem Coherent.dropDerived {id : UInt8} {coinbases : Table UInt8 CoinbaseSection} (coherent : slot.Coherent)
    (others : ∀ other, other ≠ id → coinbases.get? other = slot.coinbases.get? other) :
    ({ slot with coinbases := coinbases }.dropDerived id).Coherent := by
  refine coherent.thin rfl ?_
  intro other pot entry cached
  rw [JobSlot.dropDerived, Table.get?_retain] at cached
  by_cases same : other = id
  · simp [same] at cached
  · simp only [bne_iff_ne, ne_eq, same, not_false_eq_true, ↓reduceIte] at cached
    exact ⟨cached, others other same⟩

theorem Coherent.startJob (coherent : slot.Coherent) (job : Option JobSection) :
    (slot.startJob job).2.Coherent := by
  unfold JobSlot.startJob
  split
  · exact coherent
  · split
    · exact coherent
    · exact coherent_of_empty rfl

theorem Coherent.absorb (coherent : slot.Coherent) (s : PowSubmit) : (slot.absorb s).2.Coherent := by
  have started := coherent.startJob s.job
  unfold JobSlot.absorb
  split
  · exact coherent
  · dsimp only
    split
    · exact started
    · split_ifs with held full
      · exact started
      · exact started
      · refine started.dropDerived ?_
        intro other apart
        rw [Table.get?_insert, if_neg apart]

theorem Coherent.forgetCoinbase (coherent : slot.Coherent) (id : UInt8) :
    (slot.forgetCoinbase id).Coherent := by
  refine coherent.dropDerived ?_
  intro other apart
  rw [Table.get?_erase, if_neg apart]

/-- In a coherent slot, a share is read against the coinbase that its section and claim put together. -/
theorem Coherent.read (coherent : slot.Coherent) {job : JobSection} {s : PowSubmit} {p : Policy} {r : Reading}
    (held : slot.job = some job) (through : slot.read job s p = .ok r) :
    ∃ sect, slot.coinbases.get? (coinbaseIdFor s) = some sect ∧ r.legacy = sect.assembled job s.targetPot ∧
      parse r.legacy = .ok r.parsed ∧ r.parsed.height = some job.height := by
  obtain ⟨sect, found, -, ⟨-, cached⟩ | ⟨-, made⟩⟩ := read_cases through
  · obtain ⟨job', sect', held', found', made⟩ := coherent _ _ _ _ cached
    rw [held] at held'
    rw [found] at found'
    cases held'
    cases found'
    exact ⟨sect, found, made⟩
  · exact ⟨sect, found, made⟩

theorem Coherent.noteCoinbase (coherent : slot.Coherent) {job : JobSection}
    {s : PowSubmit} {p : Policy} {r : Reading} {a : Attempt} (held : slot.job = some job)
    (through : slot.read job s p = .ok r) :
    ((slot.noteAttempt a).noteCoinbase (coinbaseIdFor s, s.targetPot) r).Coherent := by
  unfold JobSlot.noteCoinbase
  split
  · intro id pot legacy parsed cached
    rw [Table.get?_insert] at cached
    split_ifs at cached with here full
    · cases here
      cases cached
      obtain ⟨sect, found, made⟩ := coherent.read held through
      exact ⟨job, sect, held, found, made⟩
    · cases cached
    · exact coherent id pot legacy parsed cached
  · exact coherent

end JobSlot

end Coherent

section Runs

/-- What a session does to a slot. -/
inductive SlotOp where
  | absorb (s : PowSubmit)
  | forgetCoinbase (id : UInt8)
  | evictSections
  | verify (s : PowSubmit) (p : Policy) (shareTarget : Hash)

namespace JobSlot

def step (H : Hashes) (slot : JobSlot) : SlotOp → JobSlot
  | .absorb s => (slot.absorb s).2
  | .forgetCoinbase id => slot.forgetCoinbase id
  | .evictSections => slot.evictSections
  | .verify s p shareTarget =>
    match verifyWithTarget H slot s p shareTarget with
    | .ok (_, slot') => slot'
    | .error _ => slot

/-- A slot after any operations on it. -/
def run (H : Hashes) (ops : List SlotOp) : JobSlot := ops.foldl (step H) {}

theorem Coherent.step (H : Hashes) {slot : JobSlot} (coherent : slot.Coherent) (op : SlotOp) :
    (slot.step H op).Coherent := by
  cases op with
  | absorb s => exact coherent.absorb s
  | forgetCoinbase id => exact coherent.forgetCoinbase id
  | evictSections => exact coherent_of_empty rfl
  | verify s p shareTarget =>
    unfold JobSlot.step
    dsimp only
    split
    · rename_i v slot' through
      obtain ⟨accepted⟩ := verifyWithTarget_accepted through
      rw [accepted.kept]
      exact coherent.noteCoinbase accepted.held accepted.read
    · exact coherent

theorem coherent_run (H : Hashes) (ops : List SlotOp) : (run H ops).Coherent :=
  Run.foldl_kept (step H) Coherent (fun _ op coherent => coherent.step H op) ops (coherent_of_empty rfl)

end JobSlot

end Runs

end Lazarus.Wire
