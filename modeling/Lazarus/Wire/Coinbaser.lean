import Lazarus.Wire.Classify
import Lazarus.Wire.Reader

/-! The list of outputs Prime tells a gateway to put in its coinbase, as bytes and back. -/

namespace Lazarus.Wire

open Machine Parse

def maxOutputs : Nat := 512

def minScript : Nat := 2

def maxScript : Nat := 64

namespace Output

/-- Bytes an output takes inside a serialized coinbase. -/
def serializedLen (o : Output) : Nat := 8 + 1 + o.script.length

def encode (o : Output) : Bytes := LittleEndian.bytes 8 o.sats ++ UInt8.ofNat o.script.length :: o.script

def decode : Parse Output := do
  let sats ← u64
  let n ← u8
  if minScript ≤ n.toNat ∧ n.toNat ≤ maxScript then
    let script ← take n.toNat
    return { script, sats := sats.toNat }
  else fail (.malformed "coinbaser script length")

/-- Outputs to the end of the buffer. Each takes bytes, so as many rounds as there are bytes are enough. -/
def decodeAll : Nat → List Output → Parse (List Output)
  | 0, out => return out
  | rounds + 1, out => do
    if (← remaining) = 0 then return out
    else
      let o ← decode
      if maxOutputs < (out ++ [o]).length then fail (.malformed "coinbaser output count")
      else decodeAll rounds (out ++ [o])

end Output

def encodeV2 (id : UInt8) (outputs : List Output) : Bytes :=
  id :: (outputs.take maxOutputs).flatMap Output.encode

def decodeV2 (bytes : Bytes) : Except Fault (UInt8 × List Output) :=
  let read : Parse (UInt8 × List Output) := do
    let id ← u8
    let out ← Output.decodeAll bytes.length []
    return (id, out)
  (read { buf := bytes }).map Prod.fst

/-- An output a reply can carry. -/
structure Output.Fits (o : Output) : Prop where
  sats : o.sats ≤ u64Max
  least : minScript ≤ o.script.length
  most : o.script.length ≤ maxScript

namespace Output

theorem length_encode (o : Output) : o.encode.length = o.serializedLen := by
  simp only [encode, List.length_append, LittleEndian.length_bytes, List.length_cons, serializedLen]
  omega

theorem reads_decode {o : Output} (fits : o.Fits) : Reads decode o.encode o := by
  have least := fits.least
  have most := fits.most
  have size : (UInt8.ofNat o.script.length).toNat = o.script.length := by
    rw [UInt8.toNat_ofNat']
    apply Nat.mod_eq_of_lt
    unfold maxScript at most
    omega
  have sats : (UInt64.ofNat o.sats).toNat = o.sats := by
    rw [UInt64.toNat_ofNat']
    apply Nat.mod_eq_of_lt
    have below := fits.sats
    unfold u64Max at below
    omega
  have number := reads_u64 (UInt64.ofNat o.sats)
  rw [sats] at number
  have last : Reads (take o.script.length >>= fun script => Pure.pure { script, sats := o.sats }) o.script o :=
    (reads_take o.script).map fun script => ({ script, sats := o.sats } : Output)
  have rest : Reads (u8 >>= fun n =>
      if minScript ≤ n.toNat ∧ n.toNat ≤ maxScript then
        take n.toNat >>= fun script => Pure.pure { script, sats := (UInt64.ofNat o.sats).toNat }
      else fail (.malformed "coinbaser script length")) ([UInt8.ofNat o.script.length] ++ o.script) o := by
    apply (reads_u8 (UInt8.ofNat o.script.length)).bind
    rw [size, if_pos ⟨least, most⟩, sats]
    exact last
  exact number.bind rest

theorem decodeAll_encode {outputs : List Output} (out : List Output) {rounds : Nat}
    (fits : ∀ o ∈ outputs, o.Fits) (enough : outputs.length < rounds)
    (few : out.length + outputs.length ≤ maxOutputs) (before : Bytes) :
    decodeAll rounds out ⟨before ++ outputs.flatMap encode, before.length⟩ =
      .ok (out ++ outputs, ⟨before ++ outputs.flatMap encode, (before ++ outputs.flatMap encode).length⟩) := by
  induction outputs generalizing out rounds before with
  | nil =>
    obtain ⟨rounds, rfl⟩ := Nat.exists_eq_succ_of_ne_zero (Nat.ne_of_gt enough)
    have left : remaining ⟨before ++ [], before.length⟩ = .ok (0, ⟨before ++ [], before.length⟩) := by
      rw [remaining]
      simp
    rw [List.flatMap_nil, decodeAll, bind_of_ok left, if_pos rfl]
    simp only [List.append_nil]
    rfl
  | cons o rest ih =>
    obtain ⟨rounds, rfl⟩ := Nat.exists_eq_succ_of_ne_zero (Nat.ne_of_gt (Nat.zero_lt_of_lt enough))
    rw [List.length_cons] at enough few
    have here := reads_decode (fits o (by simp)) before (rest.flatMap encode)
    have left : remaining ⟨before ++ (o :: rest).flatMap encode, before.length⟩ =
        .ok ((o.encode ++ rest.flatMap encode).length,
          ⟨before ++ (o :: rest).flatMap encode, before.length⟩) := by
      rw [remaining, if_pos (by simp)]
      simp
    have some : (o.encode ++ rest.flatMap encode).length ≠ 0 := by
      rw [List.length_append, length_encode, serializedLen]
      omega
    have room : ¬ maxOutputs < (out ++ [o]).length := by
      rw [List.length_append, List.length_singleton]
      omega
    have later : decodeAll rounds (out ++ [o]) _ = _ :=
      ih (out ++ [o]) (fun other member => fits other (by simp [member]))
      (by omega) (by rw [List.length_append, List.length_singleton]; omega) (before ++ o.encode)
    rw [decodeAll, bind_of_ok left, if_neg some]
    rw [List.flatMap_cons, ← List.append_assoc]
    rw [bind_of_ok here, if_neg room, later]
    simp

end Output

/-- A list within the limits comes back as it was sent. -/
theorem decodeV2_encodeV2 (id : UInt8) {outputs : List Output} (fits : ∀ o ∈ outputs, o.Fits)
    (few : outputs.length ≤ maxOutputs) : decodeV2 (encodeV2 id outputs) = .ok (id, outputs) := by
  have whole : encodeV2 id outputs = [id] ++ outputs.flatMap Output.encode := by
    rw [encodeV2, List.take_of_length_le few]
    rfl
  have first : u8 ⟨[id] ++ outputs.flatMap Output.encode, 0⟩ =
      .ok (id, ⟨[id] ++ outputs.flatMap Output.encode, [id].length⟩) :=
    reads_u8 id [] (outputs.flatMap Output.encode)
  have rounds : outputs.length < ([id] ++ outputs.flatMap Output.encode).length := by
    have each : outputs.length ≤ (outputs.flatMap Output.encode).length := by
      rw [List.length_flatMap]
      refine (List.length_le_sum_of_one_le _ ?_).trans' (by rw [List.length_map])
      intro size member
      obtain ⟨o, _, rfl⟩ := List.mem_map.mp member
      rw [Output.length_encode, Output.serializedLen]
      omega
    rw [List.length_append, List.length_singleton]
    omega
  have rest := Output.decodeAll_encode [] fits rounds (by simpa using few) [id]
  unfold decodeV2
  rw [whole]
  simp only
  rw [bind_of_ok first, bind_of_ok rest]
  rfl

end Lazarus.Wire
