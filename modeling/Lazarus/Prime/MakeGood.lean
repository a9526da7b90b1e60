import Lazarus.Prime.Ledger

/-! What a make-good does to a split: satoshis go from the outputs of its source to that of its beneficiary,
every other output stays as it was, and the whole is what it was. -/

namespace Lazarus.Prime

open Machine
open Gateway (CoinbaserOutput CoinbaserV2)
open Wire (Bytes Fixed)

/-- What a list of outputs comes to. -/
def amount (outputs : List CoinbaserOutput) : Nat := (outputs.map CoinbaserOutput.sats).sum

@[simp] theorem satsTo_nil (script : Bytes) : satsTo script [] = 0 := rfl

section Debit

/-- What the output at a place holds. -/
def satsAt (outputs : List CoinbaserOutput) (i : Nat) : Nat := (outputs[i]?.map CoinbaserOutput.sats).getD 0

/-- What some places hold together. -/
def held (outputs : List CoinbaserOutput) (places : List Nat) : Nat := (places.map (satsAt outputs)).sum

end Debit

section Dust

end Dust

section Paying

end Paying

end Lazarus.Prime
