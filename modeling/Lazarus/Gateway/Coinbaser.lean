import Lazarus.Lib.LittleEndian
import Lazarus.Lib.Machine
import Lazarus.Lib.Shares

/-! The split a gateway holds, as Prime sends it, and its rescaling to another template value. -/

namespace Lazarus.Gateway

open Machine LittleEndian Shares

structure CoinbaserOutput where
  sats : Nat
  script : List UInt8
deriving DecidableEq

structure CoinbaserV2 where
  id : UInt8
  outputs : List CoinbaserOutput
deriving DecidableEq

namespace CoinbaserV2

/-- Wraps, as sums do in a gateway's build. -/
def valueSum (cb : CoinbaserV2) : Nat := asU64 (cb.outputs.map CoinbaserOutput.sats).sum

/-- The same ratios on a new template value. The last output absorbs the rounding. -/
def scaleTo (cb : CoinbaserV2) (newValue : Nat) : CoinbaserV2 :=
  let old := cb.valueSum
  if old = 0 ∨ old = newValue ∨ cb.outputs = [] then cb
  else
    let first := cb.outputs.dropLast.map fun o => { o with sats := asU64 (o.sats * newValue / old) }
    let paid := (first.map CoinbaserOutput.sats).foldl satAdd 0
    let last := cb.outputs.getLast?.toList.map fun o => { o with sats := newValue - paid }
    { cb with outputs := first ++ last }

end CoinbaserV2

section Parse

/-- The outputs of a reply, this many at most. Fewer than nine bytes at the end are left alone. -/
def readSplit : Nat → List UInt8 → Option (List CoinbaserOutput)
  | 0, _ => some []
  | more + 1, buf =>
    if buf.length < 9 then some []
    else
      let sl := (buf.getD 8 0).toNat
      if sl < 2 ∨ 64 < sl ∨ buf.length < 9 + sl then none
      else do
        let rest ← readSplit more (buf.drop (9 + sl))
        return ⟨value (buf.take 8), (buf.drop 9).take sl⟩ :: rest

def parseCoinbaserV2 : List UInt8 → Option CoinbaserV2
  | [] => none
  | id :: buf => (readSplit 512 buf).map fun outputs => { id, outputs }

end Parse

section Sums

variable {cb : CoinbaserV2} {newValue : Nat}

/-- What the outputs come to where that is a 64-bit value. -/
theorem valueSum_eq (fits : (cb.outputs.map CoinbaserOutput.sats).sum ≤ u64Max) :
    cb.valueSum = (cb.outputs.map CoinbaserOutput.sats).sum := asU64_eq fits

/-- Rescaling keeps the scripts, in their order. -/
theorem scaleTo_scripts (cb : CoinbaserV2) (newValue : Nat) :
    (cb.scaleTo newValue).outputs.map CoinbaserOutput.script = cb.outputs.map CoinbaserOutput.script := by
  unfold CoinbaserV2.scaleTo
  dsimp only
  split
  · rfl
  · rename_i rescaled
    rw [not_or, not_or] at rescaled
    obtain ⟨_, _, some⟩ := rescaled
    conv_rhs => rw [← List.dropLast_append_getLast some]
    simp [List.getLast?_eq_some_getLast some, Function.comp_def]

private theorem sum_dropLast_le {outputs : List CoinbaserOutput} {old : Nat}
    (within : (outputs.map CoinbaserOutput.sats).sum ≤ old) (newValue : Nat) :
    (outputs.dropLast.map fun o => share newValue o.sats old).sum ≤ newValue := by
  have part : (outputs.dropLast.map CoinbaserOutput.sats).sum ≤ old :=
    Nat.le_trans
      (List.Sublist.sum_le_sum ((List.dropLast_sublist outputs).map _) fun _ _ => Nat.zero_le _) within
  have shares := sum_share_le_amount newValue part
  rwa [List.map_map] at shares

/-- A split that is rescaled: every output but the last takes its share rounded down, the
last one what is left. -/
theorem scaleTo_eq {total : Nat} (sum : (cb.outputs.map CoinbaserOutput.sats).sum = total)
    (positive : 0 < total) (fits : total ≤ u64Max) (changed : total ≠ newValue) (top : newValue ≤ u64Max) :
    ∃ last, cb.outputs.getLast? = some last ∧ (cb.scaleTo newValue).outputs =
      (cb.outputs.dropLast.map fun o => ⟨share newValue o.sats total, o.script⟩) ++
        [⟨newValue - (cb.outputs.dropLast.map fun o => share newValue o.sats total).sum, last.script⟩] := by
  have old : cb.valueSum = total := (valueSum_eq (sum.trans_le fits)).trans sum
  have some : cb.outputs ≠ [] := by
    intro none
    rw [none] at sum
    exact positive.ne sum
  refine ⟨cb.outputs.getLast some, List.getLast?_eq_some_getLast some, ?_⟩
  have whole : ∀ o ∈ cb.outputs.dropLast, asU64 (o.sats * newValue / total) = share newValue o.sats total := by
    intro o member
    have part : o.sats ≤ total := sum ▸ List.single_le_sum (fun _ _ => Nat.zero_le _) _
      (List.mem_map_of_mem (List.mem_of_mem_dropLast member))
    rw [Nat.mul_comm]
    exact asU64_eq (Nat.le_trans (share_le newValue part) top)
  have paid : ((cb.outputs.dropLast.map fun o => share newValue o.sats total)).foldl satAdd 0 =
      (cb.outputs.dropLast.map fun o => share newValue o.sats total).sum := by
    rw [foldl_satAdd_eq, Nat.zero_add]
    rw [Nat.zero_add]
    exact Nat.le_trans (sum_dropLast_le sum.le newValue) top
  unfold CoinbaserV2.scaleTo
  dsimp only
  rw [old, if_neg (by simp [positive.ne', changed, some]), List.getLast?_eq_some_getLast some, List.map_map]
  simp only [Function.comp_def, Option.toList_some, List.map_cons, List.map_nil]
  rw [List.map_congr_left whole, paid]
  congr 1
  exact List.map_congr_left fun o member => by rw [whole o member]

/-- What a rescaled split comes to. -/
theorem sum_scaleTo (positive : 0 < (cb.outputs.map CoinbaserOutput.sats).sum)
    (fits : (cb.outputs.map CoinbaserOutput.sats).sum ≤ u64Max) (top : newValue ≤ u64Max) :
    ((cb.scaleTo newValue).outputs.map CoinbaserOutput.sats).sum = newValue := by
  by_cases changed : (cb.outputs.map CoinbaserOutput.sats).sum = newValue
  · have old : cb.valueSum = newValue := (valueSum_eq fits).trans changed
    rw [CoinbaserV2.scaleTo, if_pos (.inr (.inl old))]
    exact changed
  · obtain ⟨last, _, outputs⟩ := scaleTo_eq rfl positive fits changed top
    have within := sum_dropLast_le (le_refl (cb.outputs.map CoinbaserOutput.sats).sum) newValue
    rw [outputs, List.map_append, List.sum_append, List.map_map]
    simp only [Function.comp_def, List.map_cons, List.map_nil, List.sum_cons, List.sum_nil, Nat.add_zero]
    omega

/-- Rescaling to a smaller value never pays more than it. -/
theorem sum_scaleTo_le (fits : (cb.outputs.map CoinbaserOutput.sats).sum ≤ u64Max) (top : newValue ≤ u64Max) :
    ((cb.scaleTo newValue).outputs.map CoinbaserOutput.sats).sum ≤ newValue := by
  rcases Nat.eq_zero_or_pos (cb.outputs.map CoinbaserOutput.sats).sum with none | positive
  · have old : cb.valueSum = 0 := (valueSum_eq fits).trans none
    rw [CoinbaserV2.scaleTo, if_pos (.inl old), none]
    exact Nat.zero_le _
  · exact (sum_scaleTo positive fits top).le

end Sums

end Lazarus.Gateway
