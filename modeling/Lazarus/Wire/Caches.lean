import Lazarus.Wire.SlotRun

/-! The caches of a job slot do not show: a share is judged as it would be against the same slot with
nothing cached. A cached commitment stands in for the header, so it has to be the commitment of the
header that its key and the slot put together. -/

namespace Lazarus.Wire

/-- The header that a share with these fields commits to, over a coinbase. -/
def H2Key.commitment (H : Hashes) (key : H2Key) (job : JobSection) (legacy : Bytes) : Commitment :=
  { version := key.version
    prevHash := job.prevHash
    height := job.height
    merkleRoot := coinbaseRoot H job legacy
    timeOnWire := key.timeOnWire
    nbits := job.nbitsU32
    txcount := key.txcount
    flags := key.flags
    xorClearBits := 0
    xorKey := Fixed.zero 16
    rhs := Fixed.zero 32 }

/-- Every field of a share that its header commitment depends on, under one reading of the count. -/
def h2KeyFor (job : JobSection) (s : PowSubmit) (timeOnWire : UInt32) (includes : Bool) : H2Key :=
  ⟨coinbaseIdFor s, s.targetPot, if includes then job.txnCount else job.txnCount + 1, s.version, timeOnWire,
    headerFlags s⟩

namespace JobSlot

/-- The slot with nothing cached. -/
def uncached (slot : JobSlot) : JobSlot := { slot with h2Cache := ∅, cbCache := ∅ }

/-- Every cached commitment is that of the header its key, its section and the job put together. -/
def Committed (H : Hashes) (slot : JobSlot) : Prop :=
  ∀ key h2, slot.h2Cache.get? key = some h2 →
    ∃ job sect, slot.job = some job ∧ slot.coinbases.get? key.coinbaseId = some sect ∧
      h2 = (key.commitment H job (sect.assembled job key.targetPot)).h2 H

variable {H : Hashes} {slot slot' : JobSlot}

theorem committed_of_empty (empty : slot.h2Cache = ∅) : slot.Committed H := by
  intro key h2 cached
  rw [empty] at cached
  cases cached

theorem Committed.dropDerived {id : UInt8} {coinbases : Table UInt8 CoinbaseSection}
    (committed : slot.Committed H)
    (others : ∀ other, other ≠ id → coinbases.get? other = slot.coinbases.get? other) :
    ({ slot with coinbases := coinbases }.dropDerived id).Committed H := by
  intro key h2 cached
  rw [JobSlot.dropDerived, Table.get?_retain] at cached
  by_cases same : key.coinbaseId = id
  · simp [same] at cached
  · simp only [bne_iff_ne, ne_eq, same, not_false_eq_true, ↓reduceIte] at cached
    obtain ⟨job, sect, held, found, made⟩ := committed key h2 cached
    exact ⟨job, sect, held, (others _ same).trans found, made⟩

theorem Committed.startJob (committed : slot.Committed H) (job : Option JobSection) :
    (slot.startJob job).2.Committed H := by
  unfold JobSlot.startJob
  split
  · exact committed
  · split
    · exact committed
    · exact committed_of_empty rfl

theorem Committed.absorb (committed : slot.Committed H) (s : PowSubmit) : (slot.absorb s).2.Committed H := by
  have started := committed.startJob s.job
  unfold JobSlot.absorb
  split
  · exact committed
  · dsimp only
    split
    · exact started
    · split_ifs with held full
      · exact started
      · exact started
      · refine started.dropDerived ?_
        intro other apart
        rw [Table.get?_insert, if_neg apart]

theorem Committed.forgetCoinbase (committed : slot.Committed H) (id : UInt8) :
    (slot.forgetCoinbase id).Committed H := by
  refine committed.dropDerived ?_
  intro other apart
  rw [Table.get?_erase, if_neg apart]

end JobSlot

section Attempt

variable {H : Hashes} {slot : JobSlot} {job : JobSection} {s : PowSubmit}
  {b2 : Blake2bSection} {timeOnWire : UInt32} {legacy : Bytes} {shareTarget : Hash}

/-- What a share is judged by of an attempt: its hash, and its header with the merkle root filled in. -/
def Attempt.filled (H : Hashes) (job : JobSection) (legacy : Bytes) (a : Attempt) : Hash × Commitment :=
  (a.hash, if a.commitment.merkleRoot = Fixed.zero 32 then
    { a.commitment with merkleRoot := coinbaseRoot H job legacy } else a.commitment)

/-- The hash of a header commitment under a share's ground fields. -/
def groundHash (H : Hashes) (job : JobSection) (s : PowSubmit) (b2 : Blake2bSection) (h2 : Hash) : Hash :=
  powHashLe H (workHeader (siaPrevhash H job.prevHash) b2.nonce b2.ntime (workRoot H h2 s.extranonce))
    (Fixed.zero 16) 0

/-- Cached commitments of a share are those of its headers over this coinbase. -/
def JobSlot.Honest (H : Hashes) (slot : JobSlot) (job : JobSection) (s : PowSubmit) (timeOnWire : UInt32)
    (legacy : Bytes) : Prop :=
  ∀ includes h2, slot.h2Cache.get? (h2KeyFor job s timeOnWire includes) = some h2 →
    h2 = ((h2KeyFor job s timeOnWire includes).commitment H job legacy).h2 H

private theorem attempt_eq (includes : Bool) :
    slot.attempt H job s b2 timeOnWire legacy shareTarget includes =
      let key := h2KeyFor job s timeOnWire includes
      let hint := slot.h2Cache.get? key
      let commitment := { key.commitment H job legacy with
        merkleRoot := if hint.isSome then Fixed.zero 32 else coinbaseRoot H job legacy }
      let h2 := hint.getD (commitment.h2 H)
      let hash := groundHash H job s b2 h2
      if meetsTarget hash shareTarget then some { commitment, hash, includes, key, h2 } else none := rfl

/-- With honest commitments cached, or none, an attempt comes to the same. -/
theorem attempt_filled (honest : slot.Honest H job s timeOnWire legacy) (includes : Bool) :
    (slot.attempt H job s b2 timeOnWire legacy shareTarget includes).map (Attempt.filled H job legacy) =
      let commitment := (h2KeyFor job s timeOnWire includes).commitment H job legacy
      let hash := groundHash H job s b2 (commitment.h2 H)
      if meetsTarget hash shareTarget then some (hash, commitment) else none := by
  rw [attempt_eq]
  dsimp only
  cases cached : slot.h2Cache.get? (h2KeyFor job s timeOnWire includes) with
  | none =>
    simp only [Option.isSome_none, Bool.false_eq_true, ↓reduceIte, Option.getD_none, apply_ite (Option.map _),
      Option.map_some, Option.map_none, Attempt.filled]
    -- a merkle root of zeros is worked out again, to zeros
    by_cases zeros : coinbaseRoot H job legacy = Fixed.zero 32
    · simp only [H2Key.commitment, zeros, ↓reduceIte]
    · simp only [H2Key.commitment, if_neg zeros]
      rfl
  | some h2 =>
    have known := honest includes h2 cached
    simp only [Option.isSome_some, ↓reduceIte, Option.getD_some, apply_ite (Option.map _), Option.map_some,
      Option.map_none, Attempt.filled, known]
    rfl

private theorem attempt_h2 (honest : slot.Honest H job s timeOnWire legacy) {includes : Bool} {a : Attempt}
    (tried : slot.attempt H job s b2 timeOnWire legacy shareTarget includes = some a) :
    a.key = h2KeyFor job s timeOnWire includes ∧ a.h2 = (a.key.commitment H job legacy).h2 H := by
  rw [attempt_eq] at tried
  obtain ⟨_, made⟩ := Option.ite_none_right_eq_some.mp tried
  cases made
  refine ⟨rfl, ?_⟩
  cases cached : slot.h2Cache.get? (h2KeyFor job s timeOnWire includes) with
  | none => simp [H2Key.commitment]
  | some h2 => simp [honest includes h2 cached]

end Attempt

section Judged

variable {H : Hashes} {slot : JobSlot} {job : JobSection} {s : PowSubmit} {p : Policy}

private theorem ok_bind {α β : Type} (a : α) (next : α → Except Reject β) :
    (Except.ok a >>= next) = next a := rfl

private theorem read_uncached (coherent : slot.Coherent) (held : slot.job = some job) :
    (slot.read job s p).map (fun r => (r.onTrust, r.legacy, r.parsed)) =
      (slot.uncached.read job s p).map fun r => (r.onTrust, r.legacy, r.parsed) := by
  unfold JobSlot.read
  cases found : slot.coinbases.get? (coinbaseIdFor s) with
  | none => simp [JobSlot.uncached, found, okOr, bind, Except.bind]
  | some sect =>
    cases cached : slot.cbCache.get? (coinbaseIdFor s, s.targetPot) with
    | none => simp [JobSlot.uncached, found]
    | some entry =>
      obtain ⟨legacy, parsed⟩ := entry
      obtain ⟨job', sect', held', found', rfl, made, height⟩ := coherent _ _ _ _ cached
      rw [held] at held'
      rw [found] at found'
      cases held'
      cases found'
      simp [JobSlot.uncached, found, okOr, bind, Except.bind, made, height,
        rejectIf, pure, Except.pure, Except.map]

/-- In a slot whose cached commitments are those of its headers, those of one share are. -/
theorem JobSlot.Committed.honest (committed : slot.Committed H) (held : slot.job = some job)
    {sect : CoinbaseSection} (found : slot.coinbases.get? (coinbaseIdFor s) = some sect) (timeOnWire : UInt32) :
    slot.Honest H job s timeOnWire (sect.assembled job s.targetPot) := by
  intro includes h2 cached
  obtain ⟨job', sect', held', found', made⟩ := committed _ h2 cached
  rw [held] at held'
  cases held'
  have same : sect' = sect := Option.some.inj (found'.symm.trans found)
  rw [made, same]
  rfl

private theorem attempts_uncached {legacy : Bytes} {timeOnWire : UInt32}
    (honest : slot.Honest H job s timeOnWire legacy) (b2 : Blake2bSection) (shareTarget : Hash) :
    (slot.conventions.findSome? (slot.attempt H job s b2 timeOnWire legacy shareTarget)).map
      (Attempt.filled H job legacy) =
      (slot.uncached.conventions.findSome? (slot.uncached.attempt H job s b2 timeOnWire legacy shareTarget)).map
        (Attempt.filled H job legacy) := by
  have bare : slot.uncached.Honest H job s timeOnWire legacy := by
    intro includes h2 cached
    cases cached
  rw [List.map_findSome?, List.map_findSome?]
  have same :
    (Option.map (Attempt.filled H job legacy)) ∘ slot.attempt H job s b2 timeOnWire legacy shareTarget =
      (Option.map (Attempt.filled H job legacy)) ∘
        slot.uncached.attempt H job s b2 timeOnWire legacy shareTarget := by
    funext includes
    rw [Function.comp_apply, Function.comp_apply, attempt_filled honest, attempt_filled bare]
  rw [same]
  rfl

private theorem verifiedShare_congr {kind : CoinbaseKind} {ntime : UInt32} {r r' : Reading} {a a' : Attempt}
    (reading : (r.onTrust, r.legacy, r.parsed) = (r'.onTrust, r'.legacy, r'.parsed))
    (attempt : a.filled H job r.legacy = a'.filled H job r.legacy) :
    verifiedShare H job s p r kind ntime a = verifiedShare H job s p r' kind ntime a' := by
  obtain ⟨onTrust, legacy, parsed, fresh⟩ := r
  obtain ⟨onTrust', legacy', parsed', fresh'⟩ := r'
  simp only [Prod.mk.injEq] at reading
  obtain ⟨rfl, rfl, rfl⟩ := reading
  obtain ⟨hash, commitment⟩ := Prod.mk.inj attempt
  simp only [verifiedShare, hash, commitment, Reading.targetCommitted]

private theorem verify_uncached (coherent : slot.Coherent) (committed : slot.Committed H)
    (s : PowSubmit) (p : Policy) (shareTarget : Hash) :
    Prod.fst <$> verifyWithTarget H slot s p shareTarget = Prod.fst <$>
      verifyWithTarget H slot.uncached s p shareTarget := by
  unfold verifyWithTarget
  simp only [map_bind, map_pure]
  refine bind_congr fun _ => bind_congr fun b2 => bind_congr fun timeOnWire => ?_
  cases held : slot.job with
  | none => simp [JobSlot.uncached, held, okOr, bind, Except.bind]
  | some job =>
    have kept : slot.uncached.job = some job := held
    rw [kept, okOr, ok_bind, ok_bind]
    have same := read_uncached (s := s) (p := p) coherent held
    cases read : slot.read job s p with
    | error e =>
      cases read' : slot.uncached.read job s p with
      | error e' =>
        rw [read, read'] at same
        cases same
        rfl
      | ok r' =>
        rw [read, read'] at same
        cases same
    | ok r =>
      cases read' : slot.uncached.read job s p with
      | error e' =>
        rw [read, read'] at same
        cases same
      | ok r' =>
        rw [read, read'] at same
        have reading : (r.onTrust, r.legacy, r.parsed) = (r'.onTrust, r'.legacy, r'.parsed) :=
          Except.ok.inj same
        obtain ⟨sect, found, made, _, _⟩ := coherent.read held read
        have honest : slot.Honest H job s timeOnWire r.legacy := made ▸ committed.honest held found timeOnWire
        have attempts := attempts_uncached honest b2 shareTarget
        have legacy : r'.legacy = r.legacy := (Prod.mk.inj (Prod.mk.inj reading).2).1.symm
        have parsed : r'.parsed = r.parsed := (Prod.mk.inj (Prod.mk.inj reading).2).2.symm
        rw [ok_bind, ok_bind, parsed, legacy]
        refine bind_congr fun _ => bind_congr fun _ => bind_congr fun _ => ?_
        cases tried : slot.conventions.findSome? (slot.attempt H job s b2 timeOnWire r.legacy shareTarget) with
        | none =>
          rw [tried, Option.map_none] at attempts
          rw [Option.map_eq_none_iff.mp attempts.symm]
          rfl
        | some a =>
          rw [tried, Option.map_some] at attempts
          obtain ⟨a', tried', filled⟩ := Option.map_eq_some_iff.mp attempts.symm
          rw [tried', okOr, ok_bind, okOr, ok_bind, verifiedShare_congr reading filled.symm]

private theorem accepted_h2 {v : VerifiedShare} {slot' : JobSlot} {shareTarget : Hash}
    (coherent : slot.Coherent) (committed : slot.Committed H)
    (through : verifyWithTarget H slot s p shareTarget = .ok (v, slot')) :
    ∃ job sect a r, slot.job = some job ∧ slot.coinbases.get? a.key.coinbaseId = some sect ∧
      a.h2 = (a.key.commitment H job (sect.assembled job a.key.targetPot)).h2 H ∧
      slot' = (slot.noteAttempt a).noteCoinbase (coinbaseIdFor s, s.targetPot) r := by
  obtain ⟨_, _, through⟩ := bind_eq_ok.mp through
  obtain ⟨b2, _, through⟩ := bind_eq_ok.mp through
  obtain ⟨timeOnWire, _, through⟩ := bind_eq_ok.mp through
  obtain ⟨job, held, through⟩ := bind_eq_ok.mp through
  obtain ⟨r, read, through⟩ := bind_eq_ok.mp through
  obtain ⟨_, _, through⟩ := bind_eq_ok.mp through
  obtain ⟨_, _, through⟩ := bind_eq_ok.mp through
  obtain ⟨_, _, through⟩ := bind_eq_ok.mp through
  obtain ⟨a, chosen, through⟩ := bind_eq_ok.mp through
  obtain ⟨includes, _, tried⟩ := List.exists_of_findSome?_eq_some (okOr_eq_ok.mp chosen)
  cases through
  rw [okOr_eq_ok] at held
  obtain ⟨sect, found, made, _, _⟩ := coherent.read held read
  have honest : slot.Honest H job s timeOnWire r.legacy := made ▸ committed.honest held found timeOnWire
  obtain ⟨key, h2⟩ := attempt_h2 honest tried
  have id : a.key.coinbaseId = coinbaseIdFor s := by rw [key]; rfl
  have pot : a.key.targetPot = s.targetPot := by rw [key]; rfl
  refine ⟨job, sect, a, r, held, id ▸ found, ?_, rfl⟩
  rw [pot, ← made]
  exact h2

end Judged

section Bounds

namespace JobSlot

/-- The caches keep to their limits. A coinbase that alone is past the limit in bytes is cached alone. -/
structure Bounded (slot : JobSlot) : Prop where
  h2 : slot.h2Cache.size ≤ maxH2Cache
  cb : slot.cbCache.size ≤ maxCbCache
  bytes : (slot.cbCache.values.map cacheCost).sum ≤ maxCbCacheBytes ∨ ∃ entry, slot.cbCache.values = [entry]

variable {slot : JobSlot}

theorem bounded_of_empty (h2 : slot.h2Cache = ∅) (cb : slot.cbCache = ∅) : slot.Bounded := by
  refine ⟨?_, ?_, .inl ?_⟩
  · rw [h2]
    exact Nat.zero_le _
  · rw [cb]
    exact Nat.zero_le _
  · rw [cb]
    exact Nat.zero_le _

theorem Bounded.dropDerived (bounded : slot.Bounded) (coinbases : Table UInt8 CoinbaseSection) (id : UInt8) :
    ({ slot with coinbases := coinbases }.dropDerived id).Bounded := by
  refine ⟨Nat.le_trans (Table.size_retain_le _ _) bounded.h2,
    Nat.le_trans (Table.size_retain_le _ _) bounded.cb, ?_⟩
  have fewer := Table.values_retain (fun key : UInt8 × UInt8 => key.1 != id) slot.cbCache
  rcases bounded.bytes with within | ⟨entry, alone⟩
  · exact .inl (Nat.le_trans ((fewer.map cacheCost).sum_le_sum fun _ _ => Nat.zero_le _) within)
  · rw [alone] at fewer
    rcases List.sublist_singleton.mp fewer with none | one
    · exact .inl (by rw [JobSlot.dropDerived, none]; exact Nat.zero_le _)
    · exact .inr ⟨entry, one⟩

theorem Bounded.startJob (bounded : slot.Bounded) (job : Option JobSection) :
    (slot.startJob job).2.Bounded := by
  unfold JobSlot.startJob
  split
  · exact bounded
  · split
    · exact bounded
    · exact bounded_of_empty rfl rfl

theorem Bounded.absorb (bounded : slot.Bounded) (s : PowSubmit) : (slot.absorb s).2.Bounded := by
  have started := bounded.startJob s.job
  unfold JobSlot.absorb
  split
  · exact bounded
  · dsimp only
    split
    · exact started
    · split_ifs with held full
      · exact started
      · exact started
      · exact started.dropDerived _ _

theorem Bounded.noteAttempt (bounded : slot.Bounded) (a : Attempt) : (slot.noteAttempt a).Bounded := by
  refine ⟨?_, bounded.cb, bounded.bytes⟩
  unfold JobSlot.noteAttempt
  split
  · exact Nat.le_trans (Table.size_insert_le _ _ _) (by decide)
  · exact Nat.le_trans (Table.size_insert_le _ _ _) (by omega)

theorem Bounded.noteCoinbase (bounded : slot.Bounded) (key : UInt8 × UInt8) (r : Reading) :
    (slot.noteCoinbase key r).Bounded := by
  unfold JobSlot.noteCoinbase
  split
  · dsimp only
    split
    · refine ⟨bounded.h2, Nat.le_trans (Table.size_insert_le _ _ _) (by decide),
        .inr ⟨(r.legacy, r.parsed), ?_⟩⟩
      obtain ⟨rest, listed, fewer⟩ :=
        Table.values_insert (∅ : Table (UInt8 × UInt8) (Bytes × Coinbase)) key (r.legacy, r.parsed)
      rw [listed, List.eq_nil_of_sublist_nil fewer]
    · rename_i room
      simp only [Bool.or_eq_true, decide_eq_true_eq, not_or, Nat.not_le, Nat.not_lt] at room
      refine ⟨bounded.h2, Nat.le_trans (Table.size_insert_le _ _ _) room.1, .inl ?_⟩
      obtain ⟨rest, listed, fewer⟩ := Table.values_insert slot.cbCache key (r.legacy, r.parsed)
      have less : (rest.map cacheCost).sum ≤ (slot.cbCache.values.map cacheCost).sum :=
        (fewer.map cacheCost).sum_le_sum fun _ _ => Nat.zero_le _
      rw [listed, List.map_cons, List.sum_cons]
      omega
  · exact bounded

end JobSlot

end Bounds

section Runs

namespace JobSlot

/-- What holds of a slot that a session has used. -/
structure Sound (H : Hashes) (slot : JobSlot) : Prop where
  coherent : slot.Coherent
  committed : slot.Committed H
  bounded : slot.Bounded

variable {H : Hashes} {slot : JobSlot}

theorem Committed.noteAttempt {job : JobSection} {sect : CoinbaseSection}
    {a : Attempt} (committed : slot.Committed H) (held : slot.job = some job)
    (found : slot.coinbases.get? a.key.coinbaseId = some sect)
    (h2 : a.h2 = (a.key.commitment H job (sect.assembled job a.key.targetPot)).h2 H) :
    (slot.noteAttempt a).Committed H := by
  intro key h cached
  rw [JobSlot.noteAttempt, Table.get?_insert] at cached
  split_ifs at cached with here full
  · cases here
    cases cached
    exact ⟨job, sect, held, found, h2⟩
  · cases cached
  · exact committed key h cached

theorem Committed.noteCoinbase (committed : slot.Committed H) (key : UInt8 × UInt8) (r : Reading) :
    (slot.noteCoinbase key r).Committed H := by
  unfold JobSlot.noteCoinbase
  split
  · exact committed
  · exact committed

theorem Sound.step (sound : slot.Sound H) (op : SlotOp) : (slot.step H op).Sound H := by
  refine ⟨sound.coherent.step H op, ?_, ?_⟩
  · cases op with
    | absorb s => exact sound.committed.absorb s
    | forgetCoinbase id => exact sound.committed.forgetCoinbase id
    | evictSections => exact committed_of_empty rfl
    | verify s p shareTarget =>
      unfold JobSlot.step
      dsimp only
      split
      · rename_i through
        obtain ⟨job, sect, a, r, held, found, h2, rfl⟩ := accepted_h2 sound.coherent sound.committed through
        exact (sound.committed.noteAttempt held found h2).noteCoinbase _ r
      · exact sound.committed
  · cases op with
    | absorb s => exact sound.bounded.absorb s
    | forgetCoinbase id => exact sound.bounded.dropDerived _ id
    | evictSections => exact bounded_of_empty rfl rfl
    | verify s p shareTarget =>
      unfold JobSlot.step
      dsimp only
      split
      · rename_i through
        obtain ⟨job, sect, a, r, _, _, _, rfl⟩ := accepted_h2 sound.coherent sound.committed through
        exact (sound.bounded.noteAttempt a).noteCoinbase _ r
      · exact sound.bounded

theorem sound_run (H : Hashes) (ops : List SlotOp) : (run H ops).Sound H :=
  Run.foldl_kept (step H) (Sound H) (fun _ op sound => sound.step op) ops
    ⟨coherent_of_empty rfl, committed_of_empty rfl, bounded_of_empty rfl rfl⟩

/-- A slot goes on with its job, or starts a new one with nothing else in it. -/
theorem startJob_cases (slot : JobSlot) (job : Option JobSection) :
    (slot.startJob job = (false, slot) ∧ ∀ j ∈ job, slot.job = some j) ∨
      ∃ j, job = some j ∧ slot.job ≠ some j ∧ slot.startJob job = (true, { job := some j }) := by
  unfold startJob
  cases job with
  | none => exact .inl ⟨rfl, by simp⟩
  | some j =>
    by_cases same : slot.job = some j
    · exact .inl ⟨by simp [same], by simpa using same⟩
    · exact .inr ⟨j, rfl, same, by simp [same]⟩

/-- A section that is refused changes nothing: a slot that has just started a job has room. -/
theorem absorb_refused {s : PowSubmit} {reject : Reject} (refused : (slot.absorb s).1 = .error reject) :
    (slot.absorb s).2 = slot := by
  revert refused
  unfold JobSlot.absorb
  split
  · intro _
    rfl
  · dsimp only
    split
    · intro refused
      cases refused
    · split_ifs with held full
      · intro refused
        cases refused
      · intro _
        rcases slot.startJob_cases s.job with ⟨same, _⟩ | ⟨j, _, _, started⟩
        · rw [same]
        · rw [started] at full
          have room : ¬ maxCoinbasesPerSlot ≤ (∅ : Table UInt8 CoinbaseSection).size := by decide
          exact absurd full.2 room
      · intro refused
        cases refused

end JobSlot

/-- After any operations on a slot, every share is judged as it would be with nothing cached, the caches
keep to their limits with one coinbase past the limit in bytes at most, and a share whose sections are
refused leaves the slot as it was. -/
theorem caches_invisible (H : Hashes) (ops : List SlotOp) :
    let slot := JobSlot.run H ops
    (∀ s p shareTarget,
        Prod.fst <$> verifyWithTarget H slot s p shareTarget = Prod.fst <$>
          verifyWithTarget H slot.uncached s p shareTarget) ∧
      (slot.h2Cache.size ≤ maxH2Cache ∧ slot.cbCache.size ≤ maxCbCache ∧
        ((slot.cbCache.values.map JobSlot.cacheCost).sum ≤ maxCbCacheBytes ∨ ∃ entry,
          slot.cbCache.values = [entry])) ∧
      ∀ s reject, (slot.absorb s).1 = .error reject → (slot.absorb s).2 = slot := by
  intro slot
  obtain ⟨coherent, committed, bounded⟩ := JobSlot.sound_run H ops
  refine ⟨?_, ⟨bounded.h2, bounded.cb, bounded.bytes⟩, ?_⟩
  · intro s p shareTarget
    exact verify_uncached coherent committed s p shareTarget
  · intro s reject refused
    exact JobSlot.absorb_refused refused

end Runs

end Lazarus.Wire
