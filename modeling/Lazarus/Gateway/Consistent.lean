import Lazarus.Gateway.Weight

/-! The block of a job is consistent: its header, its coinbase and its transactions say the same of each other,
whatever was trimmed. -/

namespace Lazarus.Gateway

open Machine LittleEndian
open Wire (Fixed Hash Hashes)

/-- A transaction and the fee it pays. -/
structure Funded where
  tx : Transaction
  fee : Nat

/-- The hash a field of a transaction holds, as it is printed. -/
def Json.idField (tx : Json) (key : String) : Option Hash := do hash32Rev (← (← tx.get key).asStr)

def Json.u64Field (tx : Json) (key : String) : Option Nat := ((tx.get key).bind Json.asU64).map UInt64.toNat

/-- What the node says of a transaction is true. -/
structure Truthful (H : Hashes) (tx : Json) (f : Funded) : Prop where
  data : tx.hexField "data" = some f.tx.full
  txid : tx.idField "txid" = some (f.tx.txid H)
  hash : tx.idField "hash" = some (f.tx.wtxid H)
  weight : tx.u64Field "weight" = some f.tx.weight
  fee : tx.u64Field "fee" = some f.fee

/-- A script commits to witness ids: to the root over a zero leaf and them, with a zero nonce. -/
def CommitsTo (H : Hashes) (wtxids : List Hash) (script : Wire.Bytes) : Prop :=
  ∃ root, Merkle.Root (hashPair H) (Fixed.zero 32 :: wtxids) root ∧
    script = [0x6a, 0x24, 0xaa, 0x21, 0xa9, 0xed] ++ (sha256d H (root.val ++ List.replicate 32 0)).val

/-- The node's commitment is right for its transactions; it may give none where none of them has a witness. -/
def RightCommitment (H : Hashes) (tpl : Json) (fs : List Funded) : Prop :=
  (∃ script, tpl.commitment = some script ∧ CommitsTo H (fs.map fun f => f.tx.wtxid H) script) ∨
    tpl.commitment = none ∧ ∀ f ∈ fs, f.tx.hasWitness = false

private theorem witnessCommitmentScript_commits (H : Hashes) (wtxids : List Hash) :
    CommitsTo H wtxids (witnessCommitmentScript H wtxids) :=
  ⟨_, merkleRootFromTxids_root H (List.cons_ne_nil _ _), rfl⟩

/-- What a job's block says of itself: the coinbase without its witness is the one the job carries, the
root is over it and the kept transactions and is where the branches lead, the counts agree, the last
output commits to the kept witness ids wherever there is a witness, and the outputs come to at most the
subsidy and the kept fees. -/
structure Job.Consistent (H : Hashes) (j : Job) (subsidy : Nat) (coinbase : Transaction)
    (kept : List Funded) : Prop where
  coinb1 : coinbase.stripped = j.coinb1
  merkleRoot :
    Merkle.Root (hashPair H) (sha256d H j.coinb1 :: kept.map fun f => f.tx.txid H) j.header.merkleRoot
  branches : foldBranches H (sha256d H j.coinb1) j.tpl.branches = j.header.merkleRoot
  txcount : j.header.txcount.toNat = (coinbase :: kept.map Funded.tx).length
  nonce : coinbase.inputs.map TxIn.witness = [[List.replicate 32 0]]
  commitment : (∃ f ∈ kept, f.tx.hasWitness) →
    ∃ script, CommitsTo H (kept.map fun f => f.tx.wtxid H) script ∧ coinbase.outputs.getLast? = some ⟨0, script⟩
  outputs : (coinbase.outputs.map CoinbaserOutput.sats).sum ≤ subsidy + (kept.map Funded.fee).sum

section Entries

variable {H : Hashes} {txs : List Json} {entries : List TemplateTx} {fs : List Funded}

private theorem readTx_truthful {tx : Json} {e : TemplateTx} {f : Funded}
    (read : readTx tx = some e) (honest : Truthful H tx f) :
    e.raw = f.tx.full ∧ e.txid = f.tx.txid H ∧ e.wtxid = f.tx.wtxid H ∧ e.fee = f.fee := by
  simp only [readTx, Option.bind_eq_bind, Option.bind_eq_some_iff, Option.pure_def, Option.some.injEq] at read
  obtain ⟨idField, idFound, id, idRead, txid, txidRead, raw, rawFound, rfl⟩ := read
  obtain ⟨named, namedFound, rest⟩ := Option.bind_eq_some_iff.mp honest.txid
  obtain ⟨printed, printedRead, parsed⟩ := Option.bind_eq_some_iff.mp rest
  rw [namedFound, Option.some_or, Option.some.injEq] at idFound
  subst idFound
  obtain rfl : printed = id := Option.some.inj (printedRead.symm.trans idRead)
  obtain ⟨fee, feeFound, same⟩ := Option.map_eq_some_iff.mp honest.fee
  refine ⟨Option.some.inj (rawFound.symm.trans honest.data),
    Option.some.inj (txidRead.symm.trans parsed), ?_, ?_⟩
  · exact congrArg (Option.getD · txid) honest.hash
  · rw [← same, feeFound]
    rfl

end Entries

section Job

variable {H : Hashes} {tpl : Json} {tag : String} {extra1 : Fixed 4} {reserve : Nat}
  {cb : CoinbaserV2} {jobId : UInt8} {seq : Nat} {who : Option String}
  {t : Template} {j : Job} {fs : List Funded}

private theorem sum_fit_le {value left : Nat} (within : (cb.outputs.map CoinbaserOutput.sats).sum ≤ value)
    (top : value ≤ u64Max) (less : left ≤ value) :
    ((cb.fit left).outputs.map CoinbaserOutput.sats).sum ≤ left := by
  have sum := valueSum_eq (Nat.le_trans within top)
  unfold CoinbaserV2.fit
  split
  · exact sum_scaleTo_le (Nat.le_trans within top) (Nat.le_trans less top)
  · omega

private theorem soloSplit_whole {value feeBps : Nat} {minerScript feeScript : Wire.Bytes} {id : UInt8}
    (made : soloSplit value minerScript feeScript feeBps id = some cb) :
    (cb.outputs.map CoinbaserOutput.sats).sum = value ∧ cb.fit value = cb := by
  unfold soloSplit at made
  dsimp only at made
  split at made
  · cases made
  · rename_i fee
    split at made
    · cases made
    · split at made
      · cases made
      · split at made
        · cases made
        · rename_i same
          cases made
          rw [not_not] at same
          refine ⟨?_, if_neg (Nat.not_lt.mpr same.le)⟩
          simp only [List.map_cons, List.map_nil, List.sum_cons, List.sum_nil]
          omega

/-- Whatever the template was cut to, the commitment is to what is left wherever that has a witness. -/
theorem Built.commits {txs : List Json} {entries : List TemplateTx} {value : UInt64} {k : Nat}
    (template : Built H tpl tag reserve t txs entries value k) (committed : RightCommitment H tpl fs)
    (wtxids : entries.map TemplateTx.wtxid = fs.map fun f => f.tx.wtxid H)
    (some : ∃ f ∈ fs.take k, f.tx.hasWitness) :
    ∃ script, t.witnessCommit = .some script ∧ CommitsTo H ((fs.take k).map fun f => f.tx.wtxid H) script := by
  have size : entries.length = fs.length := by simpa using congrArg List.length wtxids
  rcases committed with ⟨script, given, commits⟩ | ⟨_, bare⟩
  · rcases template.commitment with ⟨all, same⟩ | ⟨_, anew⟩
    · rw [all, size, List.take_length]
      exact ⟨script, same.trans given, commits⟩
    · rw [given] at anew
      refine ⟨_, anew, ?_⟩
      rw [List.map_take, List.map_take, wtxids]
      exact witnessCommitmentScript_commits H _
  · obtain ⟨f, member, witness⟩ := some
    rw [bare f (List.mem_of_mem_take member)] at witness
    cases witness

/-- The fees that are left are those of the kept transactions. -/
theorem Built.remaining_eq {txs : List Json} {entries : List TemplateTx} {value : UInt64} {k subsidy : Nat}
    (template : Built H tpl tag reserve t txs entries value k)
    (earned : value.toNat = subsidy + (fs.map Funded.fee).sum)
    (fees : entries.map TemplateTx.fee = fs.map Funded.fee) :
    t.value = subsidy + ((fs.take k).map Funded.fee).sum := by
  have parts :
      (fs.map Funded.fee).sum = ((fs.take k).map Funded.fee).sum + ((fs.drop k).map Funded.fee).sum := by
    rw [← List.sum_append, ← List.map_append, List.take_append_drop]
  rw [template.remaining, List.map_drop, fees, ← List.map_drop, earned, parts]
  omega

/-- The count fits the header's sixteen bits. -/
private theorem toNat_txcount {n : Nat} (few : n + 1 ≤ 65535) :
    (UInt32.ofNat n + 1).toUInt16.toNat = n + 1 := by
  rw [UInt32.toNat_toUInt16, UInt32.toNat_add, UInt32.toNat_ofNat']
  simp only [UInt32.toNat_one]
  omega

/-- A job on a template cut to room, with a split of what is left, agrees with what is kept. -/
private theorem coinbaseJob_consistent {txs : List Json} {value : UInt64} {subsidy : Nat}
    (listed : (tpl.get "transactions").bind Json.asArray = some txs)
    (truthful : List.Forall₂ (Truthful H) txs fs)
    (committed : RightCommitment H tpl fs) (worth : (tpl.get "coinbasevalue").bind Json.asU64 = some value)
    (earned : value.toNat = subsidy + (fs.map Funded.fee).sum)
    (within : (cb.outputs.map CoinbaserOutput.sats).sum ≤ value.toNat)
    (built : buildTemplate H tpl tag reserve = some t)
    (made : coinbaseJob H t extra1 (cb.fit t.value) jobId seq who = some j) :
    ∃ (k : Nat) (coinbase : Transaction),
      (∀ hdr, assembleBlock extra1 j hdr = Block.serialize ⟨hdr, coinbase :: (fs.take k).map Funded.tx⟩) ∧
      j.Consistent H subsidy coinbase (fs.take k) := by
  obtain ⟨txs', entries, value', k, template⟩ := buildTemplate_built built
  obtain rfl : txs = txs' := Option.some.inj (listed.symm.trans template.listed)
  obtain rfl : value = value' := Option.some.inj (worth.symm.trans template.worth)
  obtain ⟨same, split, coinb1, root, txcount, _⟩ := coinbaseJob_eq_some made
  have each := forall₂_read template.read truthful fun tx e f read honest => readTx_truthful read honest
  have raws : entries.map TemplateTx.raw = (fs.map Funded.tx).map Transaction.full := by
    rw [List.map_map]
    exact map_eq_of_forall₂ each fun _ _ here => here.1
  have txids : entries.map TemplateTx.txid = fs.map fun f => f.tx.txid H :=
    map_eq_of_forall₂ each fun _ _ here => here.2.1
  have wtxids : entries.map TemplateTx.wtxid = fs.map fun f => f.tx.wtxid H :=
    map_eq_of_forall₂ each fun _ _ here => here.2.2.1
  have fees : entries.map TemplateTx.fee = fs.map Funded.fee :=
    map_eq_of_forall₂ each fun _ _ here => here.2.2.2
  have kept : t.txids = (fs.take k).map fun f => f.tx.txid H := by
    rw [template.txids, List.map_take, txids, List.map_take]
  have left := template.remaining_eq earned fees
  refine ⟨k, coinbaseTransaction t.height tag (coinbaseExtra extra1) (cb.fit t.value) t.witnessCommit,
    fun hdr => ?_, ?_⟩
  · rw [assembleBlock_eq template made raws, List.map_take]
  constructor
  · rw [coinb1, coinbaseLegacy_eq, template.tag]
  · rw [root, merkleRootSha256d, kept]
    exact merkleRootFromTxids_root H (List.cons_ne_nil _ _)
  · rw [same, template.branches, root, foldBranches_root]
  · have few : (fs.take k).length + 1 ≤ 65535 := by
      have size : entries.length = fs.length := by simpa using congrArg List.length fees
      have within := template.few
      rw [List.length_take]
      omega
    rw [txcount, template.txnCount, kept, List.length_map, toNat_txcount few, List.length_cons, List.length_map]
  · rfl
  · intro witness
    obtain ⟨script, given, commits⟩ := template.commits committed wtxids witness
    refine ⟨script, commits, ?_⟩
    simp [coinbaseTransaction, coinbaseOuts, given]
  · have fits : value.toNat ≤ u64Max := Nat.le_pred_of_lt (UInt64.toNat_lt value)
    have less : t.value ≤ value.toNat := template.remaining.trans_le (Nat.sub_le _ _)
    rw [← left]
    refine Nat.le_trans (Nat.le_of_eq ?_) (sum_fit_le within fits less)
    cases wit : t.witnessCommit with
    | none => simp [coinbaseTransaction, coinbaseOuts]
    | some script => simp [coinbaseTransaction, coinbaseOuts]

/-- Every job assembles into a consistent block, whatever was trimmed for it. -/
theorem job_consistent {txs : List Json} {value : UInt64} {subsidy : Nat}
    (listed : (tpl.get "transactions").bind Json.asArray = some txs)
    (truthful : List.Forall₂ (Truthful H) txs fs)
    (committed : RightCommitment H tpl fs) (worth : (tpl.get "coinbasevalue").bind Json.asU64 = some value)
    (earned : value.toNat = subsidy + (fs.map Funded.fee).sum)
    (within : (cb.outputs.map CoinbaserOutput.sats).sum ≤ value.toNat)
    (built : buildTemplate H tpl tag reserve = some t)
    (made : coinbaseJob H t extra1 (cb.fit t.value) jobId seq who = some j) :
    ∃ (k : Nat) (coinbase : Transaction),
      (∀ hdr, assembleBlock extra1 j hdr = Block.serialize ⟨hdr, coinbase :: (fs.take k).map Funded.tx⟩) ∧
      j.Consistent H subsidy coinbase (fs.take k) :=
  coinbaseJob_consistent listed truthful committed worth earned within built made

/-- So does every job of a miner that mines alone, and its coinbase takes all that the block is worth. -/
theorem soloJob_consistent {txs : List Json} {value : UInt64} {subsidy feeBps : Nat} {ident : String}
    {script feeScript : Wire.Bytes} (listed : (tpl.get "transactions").bind Json.asArray = some txs)
    (truthful : List.Forall₂ (Truthful H) txs fs) (committed : RightCommitment H tpl fs)
    (worth : (tpl.get "coinbasevalue").bind Json.asU64 = some value)
    (earned : value.toNat = subsidy + (fs.map Funded.fee).sum)
    (built : buildTemplate H tpl tag reserve = some t)
    (made : soloJobFor H t extra1 ident script feeScript feeBps seq = some j) :
    ∃ (k : Nat) (coinbase : Transaction),
      (∀ hdr, assembleBlock extra1 j hdr = Block.serialize ⟨hdr, coinbase :: (fs.take k).map Funded.tx⟩) ∧
      j.Consistent H subsidy coinbase (fs.take k) ∧ (j.cb.outputs.map CoinbaserOutput.sats).sum = t.value := by
  unfold soloJobFor at made
  simp only [Option.bind_eq_bind, Option.bind_eq_some_iff] at made
  obtain ⟨cb, split, made⟩ := made
  obtain ⟨whole, fit⟩ := soloSplit_whole split
  have less : t.value ≤ value.toNat := by
    obtain ⟨_, _, value', _, template⟩ := buildTemplate_built built
    obtain rfl : value = value' := Option.some.inj (worth.symm.trans template.worth)
    exact template.remaining.trans_le (Nat.sub_le _ _)
  have taken : j.cb = cb := (coinbaseJob_eq_some made).2.1
  obtain ⟨k, coinbase, assembled, consistent⟩ := coinbaseJob_consistent listed truthful committed worth earned
    (whole.trans_le less) built (fit.symm ▸ made)
  exact ⟨k, coinbase, assembled, consistent, taken.symm ▸ whole⟩

end Job

section Trimmed

def witnessTransaction : Transaction :=
  { plainTransaction with inputs := plainTransaction.inputs.map fun i => { i with witness := [[42]] } }

def witnessTx : Json := .object [
  ("data", .string ("0100000000010107000000000000000000000000000000000000000000000000" ++
    "000000000000000000000000ffffffff01e803000000000000015101012a00000000")),
  ("txid", .string zeroHex), ("hash", .string zeroHex), ("fee", .number (some 2000)),
  ("weight", .number (some 249))]

/-- A template of two transactions that has room for one beside a pool's coinbase. -/
def tightTemplate : Json := .object [
  ("previousblockhash", .string zeroHex), ("bits", .string "1d00ffff"), ("height", .number (some 962049)),
  ("coinbasevalue", .number (some 312501000)), ("curtime", .number (some 1800000000)),
  ("version", .number (some 536870912)), ("weightlimit", .number (some 1400)),
  ("default_witness_commitment", .string ("6a24aa21a9ed" ++ zeroHex)),
  ("transactions", .array [witnessTx, plainTx])]

def tightFunded : List Funded := [⟨witnessTransaction, 2000⟩, ⟨plainTransaction, 1000⟩]

private theorem idField_zeroHex {tx : Json} {key : String} (given : tx.get key = some (.string zeroHex)) :
    tx.idField key = some (Fixed.zero 32) := by
  simp [Json.idField, given, Json.asStr, hash32Rev_zeroHex]

set_option maxRecDepth 8000 in
private theorem hexField_witnessTx : witnessTx.hexField "data" = some witnessTransaction.full := by
  rw [witnessTx, hexField_head, String.toList_append, String.toList_ofList, String.toList_ofList]
  decide

private theorem readTx_witnessTx :
    readTx witnessTx = some ⟨Fixed.zero 32, Fixed.zero 32, witnessTransaction.full, 249, 2000⟩ := by
  have data := hexField_witnessTx
  simp -implicitDefEqProofs only [readTx, data]
  simp -implicitDefEqProofs [witnessTx, Json.get, List.lookup, Json.asStr, Json.asU64, hash32Rev_zeroHex]

set_option maxRecDepth 8000 in
private theorem tightTemplate_commitment :
    tightTemplate.commitment = some ([0x6a, 0x24, 0xaa, 0x21, 0xa9, 0xed] ++ List.replicate 32 0) := by
  simp -implicitDefEqProofs only [Json.commitment, tightTemplate, Json.hexField,
    Json.get, List.lookup, Json.asStr, Option.bind_eq_bind, Option.bind_some,
    String.reduceBEq, beq_self_eq_true]
  rw [String.toList_append, zeroHex, String.toList_ofList, String.toList_ofList]
  decide

set_option maxRecDepth 8000 in
/-- A job whose template lost a transaction to its coinbase, and whose split was scaled down
for it, is consistent. -/
theorem job_consistent_trimmed :
    ∃ t j k coinbase, buildTemplate flatHashes tightTemplate "Lazarus" 772 = some t ∧
      coinbaseJob flatHashes t (Fixed.zero 4) (evenSplit.fit t.value) 1 0 none = some j ∧
        j.Consistent flatHashes 312498000 coinbase (tightFunded.take k) := by
  have published : ((buildTemplate flatHashes tightTemplate "Lazarus" 772).bind fun t =>
      coinbaseJob flatHashes t (Fixed.zero 4) (evenSplit.fit t.value) 1 0 none).isSome := by
    have commitment := tightTemplate_commitment
    rw [Json.commitment] at commitment
    simp -implicitDefEqProofs only [buildTemplate, commitment]
    simp -implicitDefEqProofs only [tightTemplate, Json.get, List.lookup,
      Json.asStr, Json.asU64, Json.asArray, hexRev, hash32Rev_zeroHex,
      readTx_plainTx, readTx_witnessTx, Option.bind_eq_bind, Option.bind_some,
      List.filterMap_cons, List.filterMap_nil, String.reduceBEq, beq_self_eq_true]
    decide
  obtain ⟨j, found⟩ := Option.isSome_iff_exists.mp published
  obtain ⟨t, built, made⟩ := Option.bind_eq_some_iff.mp found
  have listed : (tightTemplate.get "transactions").bind Json.asArray = some [witnessTx, plainTx] := by
    simp [tightTemplate, Json.get, Json.asArray, List.lookup]
  have truthful : List.Forall₂ (Truthful flatHashes) [witnessTx, plainTx] tightFunded :=
    .cons ⟨hexField_witnessTx, idField_zeroHex rfl, idField_zeroHex rfl, by decide, by decide⟩
      (.cons ⟨hexField_plainTx, idField_zeroHex rfl, idField_zeroHex rfl, by decide, by decide⟩ .nil)
  have committed : RightCommitment flatHashes tightTemplate tightFunded :=
    .inl ⟨_, tightTemplate_commitment, witnessCommitmentScript_commits flatHashes _⟩
  have worth : (tightTemplate.get "coinbasevalue").bind Json.asU64 = some 312501000 := by decide
  have earned : (312501000 : UInt64).toNat = 312498000 + (tightFunded.map Funded.fee).sum := by decide
  obtain ⟨k, coinbase, _, consistent⟩ :=
    job_consistent listed truthful committed worth earned (by decide) built made
  exact ⟨t, j, k, coinbase, built, made, consistent⟩

end Trimmed

end Lazarus.Gateway
