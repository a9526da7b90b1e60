import Lazarus.Gateway.Coinbaser
import Lazarus.Wire.Cursor

/-! A coinbase transaction in its two forms: the legacy one that its id is taken of, and the one with a witness
that goes into a block. -/

namespace Lazarus.Gateway

open LittleEndian

def compact (n : Nat) : Wire.Bytes :=
  if n < 0xfd then [UInt8.ofNat n]
  else if n ≤ 0xffff then 0xfd :: bytes 2 n
  else if n ≤ 0xffffffff then 0xfe :: bytes 4 n
  else 0xff :: bytes 8 n

/-- The height, the pool's tag, then the extranonce. -/
def scriptsig (height : UInt32) (tag : String) (extra : Wire.Bytes) : Wire.Bytes :=
  let push :=
    if height < 0x100 then 1 :: bytes 1 height.toNat
    else if height < 0x10000 then 2 :: bytes 2 height.toNat
    else 3 :: bytes 3 height.toNat
  let name := tag.toUTF8.data.toList
  push ++ UInt8.ofNat name.length :: name ++ extra

/-- The outputs of a coinbase: the split's, and the witness commitment after them. -/
def coinbaseOuts (cb : CoinbaserV2) (wit : Option Wire.Bytes) : List CoinbaserOutput :=
  cb.outputs ++ wit.toList.map fun script => ⟨0, script⟩

def pushOut (o : CoinbaserOutput) : Wire.Bytes := bytes 8 o.sats ++ compact o.script.length ++ o.script

def pushOuts (cb : CoinbaserV2) (wit : Option Wire.Bytes) : Wire.Bytes :=
  compact (coinbaseOuts cb wit).length ++ (coinbaseOuts cb wit).flatMap pushOut

/-- The one input, after its count. -/
def coinbaseInput (height : UInt32) (tag : String) (extra : Wire.Bytes) : Wire.Bytes :=
  let ss := scriptsig height tag extra
  List.replicate 32 0 ++ bytes 4 0xffffffff ++ compact ss.length ++ ss ++ bytes 4 0xffffffff

/-- What a coinbase's id is taken of. -/
def coinbaseLegacy (height : UInt32) (tag : String) (extra : Wire.Bytes)
    (cb : CoinbaserV2) (wit : Option Wire.Bytes) : Wire.Bytes :=
  bytes 4 1 ++ [1] ++ coinbaseInput height tag extra ++ pushOuts cb wit ++ bytes 4 0

/-- A coinbase as it stands in a block: marker and flag after the version, and the witness
before the lock time. -/
def coinbaseWitness (height : UInt32) (tag : String) (extra : Wire.Bytes)
    (cb : CoinbaserV2) (wit : Option Wire.Bytes) : Wire.Bytes :=
  bytes 4 1 ++ [0, 1, 1] ++ coinbaseInput height tag extra ++ pushOuts cb wit ++
    [1, 32] ++ List.replicate 32 0 ++ bytes 4 0

/-- A short count is one byte. -/
theorem compact_of_lt {n : Nat} (short : n < 0xfd) : compact n = [UInt8.ofNat n] := if_pos short

theorem length_compact (n : Nat) :
    (compact n).length = if n < 0xfd then 1 else if n ≤ 0xffff then 3 else if n ≤ 0xffffffff then 5 else 9 := by
  unfold compact
  split
  · rfl
  · split
    · simp
    · split
      · simp
      · simp

/-- The witness form is 36 bytes longer: marker, flag, and a stack of one 32-byte item. -/
theorem length_coinbaseWitness (height : UInt32) (tag : String) (extra : Wire.Bytes) (cb : CoinbaserV2)
    (wit : Option Wire.Bytes) :
    (coinbaseWitness height tag extra cb wit).length =
      (coinbaseLegacy height tag extra cb wit).length + 36 := by
  simp only [coinbaseWitness, coinbaseLegacy, List.length_append, List.length_cons,
    List.length_nil, length_bytes, List.length_replicate]
  omega

end Lazarus.Gateway
