import Lazarus.Gateway.Cbtx
import Lazarus.Wire.Serialize

/-! What Prime's parse makes of the coinbases a gateway writes. -/

namespace Lazarus.Gateway

open Machine LittleEndian
open Wire (TxOut Coinbase readVarint readOutputs readCoinbase bip34Height Bytes)
open Wire.Cursor

private theorem gives_compact {n : Nat} (fits : n ≤ u64Max) : Gives readVarint (compact n) n := by
  have same : compact n = (Wire.VarintForm.least n).write n := (Wire.VarintForm.write_least n).symm
  rw [same]
  exact Wire.gives_form (Wire.VarintForm.holds_least fits)

section Outputs

def CoinbaserOutput.toTxOut (o : CoinbaserOutput) : TxOut := { value := o.sats, script := o.script }

/-- An output that Prime's parse has room for. -/
structure CoinbaserOutput.Readable (o : CoinbaserOutput) : Prop where
  sats : o.sats ≤ u64Max
  script : o.script.length ≤ 10000

private theorem gives_outputs {outputs : List CoinbaserOutput} (readable : ∀ o ∈ outputs, o.Readable) :
    Gives (readOutputs outputs.length) (outputs.flatMap pushOut) (outputs.map CoinbaserOutput.toTxOut) := by
  induction outputs with
  | nil => exact Gives.pure []
  | cons o rest ih =>
    have later := ih fun other member => readable other (List.mem_cons_of_mem o member)
    obtain ⟨sats, script⟩ := readable o List.mem_cons_self
    have amount : (UInt64.ofNat o.sats).toNat = o.sats := by
      rw [UInt64.toNat_ofNat_of_lt']
      unfold u64Max at sats
      rw [UInt64.size]
      omega
    rw [List.flatMap_cons, List.map_cons, pushOut, List.append_assoc, List.append_assoc]
    unfold u64Max at sats
    refine (gives_u64 (n := o.sats) (by omega)).bind ?_
    refine (gives_compact (n := o.script.length) (by unfold u64Max; omega)).bind ?_
    rw [if_neg (Nat.not_lt.mpr script)]
    refine (gives_take o.script).bind ?_
    have last :=
      later.map fun outs => ({ value := (UInt64.ofNat o.sats).toNat, script := o.script } : TxOut) :: outs
    rw [amount] at last
    rw [amount]
    exact last

end Outputs

section Height

/-- The height a coinbase opens with. -/
theorem bip34Height_scriptsig {height : UInt32} (small : height.toNat < 2 ^ 24) (tag : String) (extra : Bytes) :
    bip34Height (scriptsig height tag extra) = some height := by
  have push : ∀ (width : UInt8) (rest : Bytes), 1 ≤ width → width ≤ 4 → height.toNat < 256 ^ width.toNat →
      bip34Height (width :: (bytes width.toNat height.toNat ++ rest)) = some height := by
    intro width rest least most fits
    have low : ¬ (0x51 ≤ width ∧ width ≤ 0x60) := fun high => absurd (UInt8.le_trans high.1 most) (by decide)
    rw [bip34Height, if_neg low, if_pos ⟨least, most⟩, if_pos (by simp),
      List.take_left' (length_bytes _ _), value_bytes, Nat.mod_eq_of_lt fits, UInt32.ofNat_toNat]
  unfold scriptsig
  simp only
  split
  · rename_i one
    exact push 1 _ (by decide) (by decide) (UInt32.lt_iff_toNat_lt.mp one)
  · split
    · rename_i two
      exact push 2 _ (by decide) (by decide) (UInt32.lt_iff_toNat_lt.mp two)
    · exact push 3 _ (by decide) (by decide) small

private theorem two_le_length_scriptsig (height : UInt32) (tag : String) (extra : Bytes) :
    2 ≤ (scriptsig height tag extra).length := by
  simp only [scriptsig, List.length_append, List.length_cons]
  split
  · simp
    omega
  · split
    · simp
      omega
    · simp
      omega

end Height

/-- The coinbase as Prime has it once parsed. -/
def parsedLegacy (height : UInt32) (tag : String) (extra : Bytes) (cb : CoinbaserV2)
    (wit : Option Bytes) : Coinbase where
  version := 1
  scriptSig := scriptsig height tag extra
  sequence := 0xffffffff
  outputs := (coinbaseOuts cb wit).map CoinbaserOutput.toTxOut
  lockTime := 0
  height := bip34Height (scriptsig height tag extra)
  outputsAt := (bytes 4 1 ++ [1] ++ coinbaseInput height tag extra).length
  lockTimeAt := (bytes 4 1 ++ [1] ++ coinbaseInput height tag extra ++ pushOuts cb wit).length

/-- A coinbase the gateway writes is read back. -/
theorem parse_coinbaseLegacy (height : UInt32) (tag : String) (extra : Bytes)
    (cb : CoinbaserV2) (wit : Option Bytes) (short : (scriptsig height tag extra).length ≤ 100)
    (some : coinbaseOuts cb wit ≠ []) (few : (coinbaseOuts cb wit).length ≤ 10000)
    (readable : ∀ o ∈ coinbaseOuts cb wit, o.Readable) :
    Wire.parse (coinbaseLegacy height tag extra cb wit) = .ok (parsedLegacy height tag extra cb wit) := by
  have count : 0 < (coinbaseOuts cb wit).length := List.length_pos_iff.mpr some
  have long := two_le_length_scriptsig height tag extra
  have outpoint : Gives (take 36) (List.replicate 32 0 ++ bytes 4 0xffffffff)
      (List.replicate 32 0 ++ bytes 4 0xffffffff) := by
    have plain := gives_take (List.replicate 32 0 ++ bytes 4 0xffffffff)
    rwa [List.length_append, List.length_replicate, length_bytes] at plain
  have one : Gives readVarint [1] 1 := gives_compact (n := 1) (by decide)
  have whole : coinbaseLegacy height tag extra cb wit = [] ++ (bytes 4 1 ++ ([1] ++ (List.replicate 32 0 ++
      bytes 4 0xffffffff ++ (compact (scriptsig height tag extra).length ++ (scriptsig height tag extra ++
        (bytes 4 0xffffffff ++
          (compact (coinbaseOuts cb wit).length ++ ((coinbaseOuts cb wit).flatMap pushOut ++
          (bytes 4 0 ++ []))))))))) := by
    simp [coinbaseLegacy, coinbaseInput, pushOuts]
  have run : readCoinbase { buf := coinbaseLegacy height tag extra cb wit } =
      .ok (parsedLegacy height tag extra cb wit, between (coinbaseLegacy height tag extra cb wit) []) := by
    rw [whole]
    change readCoinbase (between [] _) = _
    unfold readCoinbase
    rw [(gives_u32 (n := 1) (by decide)).bind_eq, one.bind_eq, if_neg (by decide)]
    dsimp only
    rw [outpoint.bind_eq, if_neg (by decide)]
    rw [(gives_compact (by unfold u64Max; omega)).bind_eq, if_neg (by omega)]
    rw [(gives_take _).bind_eq, (gives_u32 (by decide)).bind_eq, get_bind_eq]
    rw [(gives_compact (by unfold u64Max; omega)).bind_eq, if_neg (by omega)]
    rw [(gives_outputs readable).bind_eq, get_bind_eq]
    rw [(gives_u32 (by decide)).bind_eq, get_bind_eq, if_neg (by simp)]
    simp only [List.append_nil]
    change Except.ok (_, _) = _
    simp [parsedLegacy, coinbaseInput, pushOuts, List.append_assoc]
  exact congrArg (Prod.fst <$> ·) run

end Lazarus.Gateway
