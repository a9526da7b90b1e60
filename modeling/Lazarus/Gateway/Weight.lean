import Lazarus.Gateway.Kept

/-! What the block of a job weighs, against the limit its template carries. The gateway counts eighty bytes of
header and nine of transaction count for every block; the header has 164 bytes. -/

namespace Lazarus.Gateway

open Machine LittleEndian
open Wire (Fixed Hash Hashes)

section Matching

/-- A transaction of a template with its true weight. -/
def Weighed (tx : Json) (t : Transaction) : Prop :=
  tx.hexField "data" = some t.full ∧ ((tx.get "weight").bind Json.asU64).map UInt64.toNat = some t.weight

private theorem readTx_raw {tx : Json} {e : TemplateTx} (read : readTx tx = some e) :
    tx.hexField "data" = some e.raw ∧ e.weight = (((tx.get "weight").bind Json.asU64).getD 0).toNat ∧
      e.fee = (((tx.get "fee").bind Json.asU64).getD 0).toNat := by
  simp only [readTx, Option.bind_eq_bind, Option.bind_eq_some_iff, Option.pure_def, Option.some.injEq] at read
  obtain ⟨_, _, _, _, _, _, raw, found, rfl⟩ := read
  exact ⟨found, rfl, rfl⟩

end Matching

section Sizes

variable (height : UInt32) (tag : String) (extra : Wire.Bytes) (cb : CoinbaserV2)

private theorem coinbase_weight_congr {wit wit' : Option Wire.Bytes}
    (same : wit.map List.length = wit'.map List.length) :
    (coinbaseTransaction height tag extra cb wit).weight =
      (coinbaseTransaction height tag extra cb wit').weight := by
  have legacy :
      (coinbaseLegacy height tag extra cb wit).length = (coinbaseLegacy height tag extra cb wit').length := by
    cases wit with
    | none =>
      cases wit' with
      | none => rfl
      | some script => cases same
    | some script =>
      cases wit' with
      | none => cases same
      | some other =>
        have long : script.length = other.length := Option.some.inj same
        simp only [coinbaseLegacy, pushOuts, coinbaseOuts, pushOut, List.length_append, List.flatMap_append,
          Option.toList_some, List.map_cons, List.map_nil, List.flatMap_cons,
          List.flatMap_nil, List.length_nil, long]
        rfl
  rw [Transaction.weight, Transaction.weight, ← coinbaseLegacy_eq, ← coinbaseLegacy_eq, ← coinbaseWitness_eq,
    ← coinbaseWitness_eq, length_coinbaseWitness, length_coinbaseWitness, legacy]

/-- What the count falls short of a block's header and transaction count. -/
def shortfall (kept : Nat) : Nat := if kept < 252 then 304 else 312

private theorem overhead_eq {kept : Nat} (few : kept + 1 ≤ 65535) :
    Block.overhead (kept + 1) = blockOverheadWeight + shortfall kept := by
  unfold Block.overhead shortfall
  rw [length_compact]
  by_cases short : kept < 252
  · rw [if_pos (by omega), if_pos short]
    rfl
  · rw [if_neg (by omega), if_pos few, if_neg short]
    rfl

end Sizes

section Limit

variable {H : Hashes} {tpl : Json} {tag : String} {extra1 : Fixed 4} {reserve : Nat}
  {cb : CoinbaserV2} {jobId : UInt8} {seq : Nat} {who : Option String}
  {t : Template} {j : Job} {ts : List Transaction}

/-- A template may lose transactions: the node's commitment is the one that its ids give. -/
def Json.trimmable (H : Hashes) (tpl : Json) (txs : List Json) : Bool :=
  commitOk H tpl.commitment (Kept.all (txs.filterMap readTx) 0)

/-- What is kept of a template's transactions under a limit, by their weights. -/
def keptOf (H : Hashes) (tpl : Json) (limit reserve : Nat) (txs : List Json)
    (ts : List Transaction) : List Transaction :=
  ts.take (keptCount (some limit) reserve (tpl.trimmable H txs) (ts.map Transaction.weight))

/-- A commitment that is derived anew is as long as the node's was. -/
theorem Built.commitment_length {txs : List Json} {entries : List TemplateTx} {value : UInt64} {k : Nat}
    (template : Built H tpl tag reserve t txs entries value k) :
    t.witnessCommit.map List.length = tpl.commitment.map List.length := by
  have long : ∀ wtxids, (witnessCommitmentScript H wtxids).length = 38 := by
    intro wtxids
    simp [witnessCommitmentScript, (sha256d H _).property]
  rcases template.commitment with ⟨_, same⟩ | ⟨derived, anew⟩
  · rw [same]
  · rw [anew]
    cases given : tpl.commitment with
    | none => rfl
    | some theirs =>
      rw [given] at derived
      have ours : theirs = witnessCommitmentScript H (Kept.all entries value.toNat).wtxids := eq_of_beq derived
      rw [ours, Option.map_some, Option.map_some, Option.map_some, long, long]

/-- A published job's block is within the limit exactly where the gateway's count leaves room for what it falls
short: 304 units, or 312 with 252 transactions or more beside the coinbase. -/
theorem block_within_limit_iff {txs : List Json} {limit : Nat} {height : UInt64}
    (listed : (tpl.get "transactions").bind Json.asArray = some txs) (weighed : List.Forall₂ Weighed txs ts)
    (limited : tpl.weightlimit = some limit) (tall : (tpl.get "height").bind Json.asU64 = some height)
    (built : buildTemplate H tpl tag reserve = some t) (made : coinbaseJob H t extra1 cb jobId seq who = some j)
    (hdr : HeaderV2) :
    ∃ block : Block, block.serialize = assembleBlock extra1 j hdr ∧
      (block.weight ≤ limit ↔
        let kept := keptOf H tpl limit reserve txs ts
        let coinbase := coinbaseTransaction height.toUInt32 tag (coinbaseExtra extra1) cb tpl.commitment
        blockOverheadWeight + coinbase.weight + (kept.map Transaction.weight).sum +
          shortfall kept.length ≤ limit) := by
  obtain ⟨txs', entries, value, k, template⟩ := buildTemplate_built built
  obtain rfl : txs = txs' := Option.some.inj (listed.symm.trans template.listed)
  have tall' : height.toUInt32 = t.height :=
    Option.some.inj ((congrArg (Option.map UInt64.toUInt32) tall).symm.trans template.height)
  have each : List.Forall₂ (fun e t => e.raw = t.full ∧ e.weight = t.weight) entries ts := by
    refine forall₂_read template.read weighed ?_
    rintro tx e t read ⟨data, weight⟩
    obtain ⟨raw, weight', _⟩ := readTx_raw read
    refine ⟨Option.some.inj (raw.symm.trans data), ?_⟩
    obtain ⟨n, found, same⟩ := Option.map_eq_some_iff.mp weight
    rw [weight', found]
    exact same
  have bodies := map_eq_of_forall₂ (f := TemplateTx.raw) (g := Transaction.full) each fun _ _ here => here.1
  have weights :=
    map_eq_of_forall₂ (f := TemplateTx.weight) (g := Transaction.weight) each fun _ _ here => here.2
  have kept : keptOf H tpl limit reserve txs ts = ts.take k := by
    rw [keptOf, template.count, limited, weights, template.found]
    rfl
  have few : (ts.take k).length + 1 ≤ 65535 := by
    have size := congrArg List.length weights
    rw [List.length_map, List.length_map] at size
    have within := template.few
    rw [List.length_take]
    omega
  have commit := template.commitment_length
  refine ⟨_, (assembleBlock_eq template made bodies hdr).symm, ?_⟩
  rw [Block.weight_eq, List.length_cons, overhead_eq few, List.map_cons, List.sum_cons, kept,
    coinbase_weight_congr t.height tag (coinbaseExtra extra1) cb commit, tall']
  dsimp only
  omega

end Limit

section Failing

/-- Hash functions that tell nothing apart. -/
def flatHashes : Hashes := ⟨fun _ => Fixed.zero 32, fun _ => Fixed.zero 32⟩

def plainTransaction : Transaction where
  version := Fixed.ofNat 4 1
  inputs := [⟨Fixed.ofNat 36 7, [], Fixed.ofNat 4 0xffffffff, []⟩]
  outputs := [⟨1000, [0x51]⟩]
  lockTime := Fixed.ofNat 4 0

def zeroHex : String := "0000000000000000000000000000000000000000000000000000000000000000"

def plainTx : Json := .object [
  ("data", .string ("0100000001070000000000000000000000000000000000000000000000000000" ++
    "00000000000000000000ffffffff01e803000000000000015100000000")),
  ("txid", .string zeroHex), ("hash", .string zeroHex), ("fee", .number (some 1000)),
  ("weight", .number (some 244))]

/-- A template of one transaction. -/
def plainTemplate (limit : UInt64) : Json := .object [
  ("previousblockhash", .string zeroHex), ("bits", .string "1d00ffff"), ("height", .number (some 962049)),
  ("coinbasevalue", .number (some 312501000)), ("curtime", .number (some 1800000000)),
  ("version", .number (some 536870912)), ("weightlimit", .number (some limit)),
  ("transactions", .array [plainTx])]

def evenSplit : CoinbaserV2 where
  id := 1
  outputs := [⟨156250500, 0 :: 20 :: List.replicate 20 7⟩, ⟨156250500, 0 :: 20 :: List.replicate 20 9⟩]

def plainCoinbase : Transaction :=
  coinbaseTransaction 962049 "Lazarus" (coinbaseExtra (Fixed.zero 4)) evenSplit none

/-- A field of hex digits at the head of an object. -/
theorem hexField_head (key digits : String) (rest : List (String × Json)) :
    (Json.object ((key, .string digits) :: rest)).hexField key = Primed.hexDecode digits.toList := by
  simp [Json.hexField, Json.get, Json.asStr]

theorem hash32Rev_zeroHex : hash32Rev zeroHex = some (Fixed.zero 32) := by
  have digits : Primed.hexDecode zeroHex.toList = some (List.replicate 32 0) := by
    rw [zeroHex, String.toList_ofList]
    rfl
  rw [hash32Rev, digits]
  rfl

set_option maxRecDepth 8000 in
theorem hexField_plainTx : plainTx.hexField "data" = some plainTransaction.full := by
  rw [plainTx, hexField_head, String.toList_append, String.toList_ofList, String.toList_ofList]
  decide

-- Steps that hold by unfolding stay in the proof here and below: checked again, they would decode every string.
theorem readTx_plainTx :
    readTx plainTx = some ⟨Fixed.zero 32, Fixed.zero 32, plainTransaction.full, 244, 1000⟩ := by
  have data := hexField_plainTx
  simp -implicitDefEqProofs only [readTx, data]
  simp -implicitDefEqProofs [plainTx, Json.get, List.lookup, Json.asStr, Json.asU64, hash32Rev_zeroHex]

/-- That template under a limit its block just fits. -/
def plainBuilt : Template where
  height := 962049
  value := 312501000
  prevNotify := Fixed.zero 32
  nbits := ⟨[0xff, 0xff, 0, 0x1d], rfl⟩
  version := 536870912
  curtime := 1800000000
  branches := [Fixed.zero 32]
  txids := [Fixed.zero 32]
  txHexes := [plainTransaction.full]
  txnCount := 2
  witnessCommit := none
  tag := "Lazarus"
  weightlimit := some 1488
  txWeight := 244
  trimmedTxs := 0
  trimmedFees := 0
  prevBlock := Fixed.zero 32

set_option maxRecDepth 8000 in
theorem buildTemplate_plain : buildTemplate flatHashes (plainTemplate 1488) "Lazarus" 584 = some plainBuilt := by
  simp -implicitDefEqProofs only [buildTemplate, plainTemplate, Json.get,
    Json.hexField, List.lookup, Json.asStr, Json.asU64, Json.asArray,
    hexRev, hash32Rev_zeroHex, readTx_plainTx, Option.bind_eq_bind, Option.bind_some,
    Option.bind_none, List.filterMap_cons, List.filterMap_nil, String.reduceBEq, beq_self_eq_true]
  rfl

/-- The job on it with an even split. -/
def plainJob : Option Job := coinbaseJob flatHashes plainBuilt (Fixed.zero 4) evenSplit 1 0 none

set_option maxRecDepth 8000 in
/-- Where the limit is above what the count falls short, the block is within it. -/
theorem block_within_limit_roomy :
    ∃ t j, ∃ block : Block, buildTemplate flatHashes (plainTemplate 1488) "Lazarus" 584 = some t ∧
      coinbaseJob flatHashes t (Fixed.zero 4) evenSplit 1 0 none = some j ∧
        block.serialize = assembleBlock (Fixed.zero 4) j {} ∧ block.weight ≤ 1488 := by
  have published : plainJob.isSome := by decide
  obtain ⟨j, made⟩ := Option.isSome_iff_exists.mp published
  have built := buildTemplate_plain
  have listed : ((plainTemplate 1488).get "transactions").bind Json.asArray = some [plainTx] := by
    simp [plainTemplate, Json.get, Json.asArray, List.lookup]
  have tall : ((plainTemplate 1488).get "height").bind Json.asU64 = some 962049 := by decide
  have limited : (plainTemplate 1488).weightlimit = some 1488 := by decide
  have weighed : List.Forall₂ Weighed [plainTx] [plainTransaction] := .cons ⟨hexField_plainTx, by decide⟩ .nil
  obtain ⟨block, assembled, within⟩ := block_within_limit_iff listed weighed limited tall built made {}
  have trimmable : (plainTemplate 1488).trimmable flatHashes [plainTx] = true := by
    simp -implicitDefEqProofs only [Json.trimmable, List.filterMap_cons, List.filterMap_nil, readTx_plainTx]
    decide
  refine ⟨plainBuilt, j, block, built, made, assembled, within.mpr ?_⟩
  simp -implicitDefEqProofs only [keptOf, trimmable]
  decide

set_option maxRecDepth 8000 in
/-- The block of that job weighs 1488 units under a limit of 1184, which the gateway's count just meets. -/
theorem block_over_limit :
    List.Forall₂ Weighed [plainTx] [plainTransaction] ∧ (plainTemplate 1184).weightlimit = some 1184 ∧
      (pooledJob flatHashes (plainTemplate 1184) "Lazarus" (Fixed.zero 4)
        (coinbaseWeight 962049 "Lazarus" (Fixed.zero 4) evenSplit false) evenSplit 1 0).map
          (assembleBlock (Fixed.zero 4) · {}) = some (Block.serialize ⟨{}, [plainCoinbase, plainTransaction]⟩) ∧
      Block.weight ⟨{}, [plainCoinbase, plainTransaction]⟩ = 1488 := by
  refine ⟨.cons ⟨hexField_plainTx, by decide⟩ .nil, by decide, ?_, by decide⟩
  simp -implicitDefEqProofs only [pooledJob, buildTemplate, plainTemplate,
    Json.get, Json.hexField, List.lookup, Json.asStr, Json.asU64, Json.asArray,
    hexRev, hash32Rev_zeroHex, readTx_plainTx, Option.bind_eq_bind, Option.bind_some,
    Option.bind_none, List.filterMap_cons, List.filterMap_nil, String.reduceBEq, beq_self_eq_true]
  decide

end Failing

end Lazarus.Gateway
