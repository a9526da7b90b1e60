import Lazarus.Wire.Coinbase

/-! The byte of a coinbase that carries the claimed difficulty. It is found by a walk over the scriptSig
that reads only what stands before it, so it can neither be moved nor left out by what is written
there. -/

namespace Lazarus.Wire

section Walk

variable {sig sig' legacy legacy' : Bytes} {i j t : Nat}

private theorem skipPush_lt (found : skipPush sig i = some j) : i < j := by
  simp only [skipPush, Option.bind_eq_bind, Option.bind_eq_some_iff] at found
  obtain ⟨n, -, found⟩ := found
  split_ifs at found with data pushdata bare
  · cases found
    omega
  · obtain ⟨len, -, found⟩ := Option.bind_eq_some_iff.mp found
    cases found
    omega
  · cases found
    omega

private theorem skipPush_agree (found : skipPush sig i = some j) (agree : ∀ k < j, sig'[k]? = sig[k]?) :
    skipPush sig' i = some j := by
  have opcode : sig'[i]? = sig[i]? := agree i (skipPush_lt found)
  rw [← found]
  simp only [skipPush, Option.bind_eq_bind] at found ⊢
  obtain ⟨n, byte, found⟩ := Option.bind_eq_some_iff.mp found
  rw [opcode, byte, Option.bind_some, Option.bind_some]
  split_ifs at found ⊢ with data pushdata bare
  · rfl
  · obtain ⟨len, -, found⟩ := Option.bind_eq_some_iff.mp found
    cases found
    rw [agree (i + 1) (by omega)]
  · rfl

theorem scriptSigOf_eq_some : scriptSigOf legacy = some sig ↔
    ∃ len, legacy[sigAt - 1]? = some len ∧ len < 0xfd ∧
    sigAt + len.toNat ≤ legacy.length ∧ sig = (legacy.drop sigAt).take len.toNat := by
  simp only [scriptSigOf, Option.bind_eq_bind, Option.bind_eq_some_iff]
  constructor
  · rintro ⟨len, byte, found⟩
    split_ifs at found with long there
    cases found
    exact ⟨len, byte, UInt8.not_le.mp long, there, rfl⟩
  · rintro ⟨len, byte, short, there, rfl⟩
    exact ⟨len, byte, by rw [if_neg (UInt8.not_le.mpr short), if_pos there]⟩

private theorem length_scriptSigOf (found : scriptSigOf legacy = some sig) :
    sigAt + sig.length ≤ legacy.length := by
  obtain ⟨len, -, -, there, rfl⟩ := scriptSigOf_eq_some.mp found
  rw [List.length_take, List.length_drop]
  omega

private theorem scriptSigOf_agree (found : scriptSigOf legacy = some sig)
    (size : legacy'.length = legacy.length) (lead : legacy'[sigAt - 1]? = legacy[sigAt - 1]?) :
    ∃ sig', scriptSigOf legacy' = some sig' ∧ sig'.length = sig.length ∧
      ∀ k, legacy'[sigAt + k]? = legacy[sigAt + k]? → sig'[k]? = sig[k]? := by
  obtain ⟨len, byte, short, there, rfl⟩ := scriptSigOf_eq_some.mp found
  refine ⟨(legacy'.drop sigAt).take len.toNat, ?_, ?_, ?_⟩
  · exact scriptSigOf_eq_some.mpr ⟨len, lead.trans byte, short, by rw [size]; exact there, rfl⟩
  · simp [size]
  · intro k same
    simp only [List.getElem?_take, List.getElem?_drop, same]

theorem targetByteAt_eq_some : targetByteAt legacy = some t ↔ ∃ sig tag i n, scriptSigOf legacy = some sig ∧
    skipPush sig 0 = some tag ∧ skipPush sig tag = some i ∧ sig[i]? = some n ∧
    (0x01 ≤ n ∧ n ≤ 0x4b ∧ i + 1 + n.toNat ≤ sig.length) ∧ t = sigAt + i + 1 := by
  simp only [targetByteAt, Option.bind_eq_bind, Option.bind_eq_some_iff]
  constructor
  · rintro ⟨sig, script, tag, height, i, unique, n, byte, found⟩
    split_ifs at found with data
    cases found
    exact ⟨sig, tag, i, n, script, height, unique, byte, data, rfl⟩
  · rintro ⟨sig, tag, i, n, script, height, unique, byte, data, rfl⟩
    exact ⟨sig, script, tag, height, i, unique, n, byte, if_pos data⟩

/-- The target byte is one of the coinbase's, and not its first. -/
theorem targetByteAt_bounds (found : targetByteAt legacy = some t) : sigAt < t ∧ t < legacy.length := by
  obtain ⟨sig, tag, i, n, script, -, -, -, ⟨pos, -, whole⟩, rfl⟩ := targetByteAt_eq_some.mp found
  have within := length_scriptSigOf script
  have data : 1 ≤ n.toNat := UInt8.le_iff_toNat_le.mp pos
  omega

private theorem targetByteAt_agree (found : targetByteAt legacy = some t)
    (size : legacy'.length = legacy.length) (agree : ∀ k < t, legacy'[k]? = legacy[k]?) :
    targetByteAt legacy' = some t := by
  obtain ⟨sig, tag, i, n, script, height, unique, byte, data, rfl⟩ := targetByteAt_eq_some.mp found
  obtain ⟨sig', script', length, reads⟩ := scriptSigOf_agree script size (agree _ (by omega))
  have before : ∀ k < i + 1, sig'[k]? = sig[k]? := fun k bound => reads k (agree _ (by omega))
  have inner := skipPush_lt unique
  refine targetByteAt_eq_some.mpr ⟨sig', tag, i, n, script', ?_, ?_, ?_, ?_, rfl⟩
  · exact skipPush_agree height fun k bound => before k (by omega)
  · exact skipPush_agree unique fun k bound => before k (by omega)
  · rw [before i (by omega), byte]
  · rw [length]
    exact data

end Walk

section Assembled

variable {coinb1 coinb2 : Bytes} {targetByteIndex : Nat} {targetPot : UInt8}

private theorem length_assemble (pot pot' : UInt8) :
    (assemble coinb1 coinb2 targetByteIndex pot).length =
      (assemble coinb1 coinb2 targetByteIndex pot').length := by
  unfold assemble
  split
  · rfl
  · rw [List.length_set, List.length_set]

private theorem getElem?_assemble (pot pot' : UInt8) {k : Nat} (other : k ≠ targetByteIndex) :
    (assemble coinb1 coinb2 targetByteIndex pot)[k]? = (assemble coinb1 coinb2 targetByteIndex pot')[k]? := by
  unfold assemble
  split
  · rfl
  · rw [List.getElem?_set_ne other.symm, List.getElem?_set_ne other.symm]

theorem commitsTarget_iff {assembled : Bytes} :
    commitsTarget assembled targetByteIndex = true ↔ targetByteAt assembled = some targetByteIndex := by
  simp [commitsTarget]

private theorem committed_byte
    (commits : commitsTarget (assemble coinb1 coinb2 targetByteIndex targetPot) targetByteIndex = true) :
    (assemble coinb1 coinb2 targetByteIndex targetPot)[targetByteIndex]? = some targetPot := by
  obtain ⟨late, within⟩ := targetByteAt_bounds (commitsTarget_iff.mp commits)
  have pieces : isWhole coinb2 targetByteIndex = false := by
    rw [isWhole, beq_eq_false_iff_ne.mpr (Nat.ne_of_gt (Nat.zero_lt_of_lt late)), Bool.and_false]
  rw [assemble, pieces] at within ⊢
  simp only [Bool.false_eq_true, ↓reduceIte, List.length_set] at within ⊢
  exact List.getElem?_set_self within

/-- Whether a coinbase commits to its target byte does not depend on what is written there. -/
theorem commitsTarget_assemble (pot pot' : UInt8) :
    commitsTarget (assemble coinb1 coinb2 targetByteIndex pot) targetByteIndex =
      commitsTarget (assemble coinb1 coinb2 targetByteIndex pot') targetByteIndex := by
  have moves :
    ∀ first second, commitsTarget (assemble coinb1 coinb2 targetByteIndex first) targetByteIndex = true →
      commitsTarget (assemble coinb1 coinb2 targetByteIndex second) targetByteIndex = true := by
    intro first second commits
    rw [commitsTarget_iff] at commits ⊢
    refine targetByteAt_agree commits (length_assemble second first) ?_
    intro k before
    exact getElem?_assemble second first (Nat.ne_of_lt before)
  exact Bool.eq_iff_iff.mpr ⟨moves pot pot', moves pot' pot⟩

/-- Two claims that are the same bytes are the same claim, however the bytes were cut into pieces. -/
theorem pot_eq_of_assemble_eq {other1 other2 : Bytes} {otherIndex : Nat} {otherPot : UInt8}
    (same : assemble coinb1 coinb2 targetByteIndex targetPot = assemble other1 other2 otherIndex otherPot)
    (commits : commitsTarget (assemble coinb1 coinb2 targetByteIndex targetPot) targetByteIndex = true)
    (commits' : commitsTarget (assemble other1 other2 otherIndex otherPot) otherIndex = true) :
    targetPot = otherPot := by
  have index : targetByteIndex = otherIndex := by
    have here := commitsTarget_iff.mp commits
    rw [same, commitsTarget_iff.mp commits'] at here
    exact (Option.some.inj here).symm
  have byte := committed_byte commits
  rw [same, index, committed_byte commits'] at byte
  exact (Option.some.inj byte).symm

end Assembled

end Lazarus.Wire
