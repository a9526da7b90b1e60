import Lazarus.Nta.Spec

/-! Validating a block against the chain, and connecting it. -/

namespace Lazarus.Nta

/-- The digests: of a transaction's body, and of what an attestation and a block commit to. -/
structure Digests where
  txid : List OutPoint → List Pay → Bytes
  att : Bytes × Int × Int × TxKey × List TxKey × Bytes → Bytes
  block : Int × Int × List Pay × List TxKey × List Bytes → Bytes

/-- A byte string as a number, highest byte first. -/
def fromBytesBig (bytes : Bytes) : Int := (bytes.foldl (fun n b => 256 * n + b.toNat) 0 : Nat)

def shareTarget (chain : Chain) (bitsTarget : Int) : Int := min (2 ^ 256 - 1) (bitsTarget * chain.k)

/-- The weight of the coinbase, whatever the block says it is. -/
def coinbaseWeight (block : Block) : Int := 4000 + 40 * block.coinbaseOuts.length

/-- The weight of a transaction, whatever it says it is. -/
def txWeight (t : Tx) : Int := 100 + 50 * (t.spends.length + t.pays.length)

def txKey (t : Tx) : TxKey := (t.txid, t.spends, t.pays)

/-- The ids that transactions say they have are those of their bodies. -/
def txIdOk (D : Digests) (t : Tx) : Bool := t.txid = D.txid t.spends t.pays

def attDigest (D : Digests) (a : Attestation) : Bytes :=
  D.att (a.script, a.height, a.bitsTarget, txKey a.extra, a.il.map txKey, a.wtxidTree)

def attPowTag (D : Digests) (a : Attestation) : Int := fromBytesBig ((attDigest D a).take 8)

def blockPowTag (D : Digests) (block : Block) : Int :=
  fromBytesBig ((D.block (block.height, block.bitsTarget, block.coinbaseOuts, block.txs.map txKey,
    block.attestations.map (attDigest D))).take 8)

def valueScripts (block : Block) : List Bytes :=
  (block.coinbaseOuts.filter fun out => out.1 ≠ opReturn ∧ 0 < out.2).map Prod.fst

section Apply

/-- What the inputs that are left are worth together. -/
def inValue (utxo : Utxo) : List OutPoint → List OutPoint → Except Reason Int
  | _, [] => .ok 0
  | spentHere, op :: rest =>
    if op ∈ spentHere then .error .txInternalDoubleSpend
    else
      match utxo.lookup op with
      | none => .error .txMissingInput
      | some (_, val) => (inValue utxo (op :: spentHere) rest).map (val + ·)

/-- The outputs of a transaction as they are filed. -/
def outputs (tx : Tx) : List (OutPoint × Pay) := tx.pays.zipIdx.map fun (pay, i) => ((tx.txid, (i : Int)), pay)

def applyTx (utxo : Utxo) (tx : Tx) : Except Reason Utxo :=
  if tx.spends = [] then .error .txNoInputs
  else
    match inValue utxo [] tx.spends with
    | .error reason => .error reason
    | .ok value =>
      if tx.pays.any fun pay => pay.2 < 0 then .error .txNegativeValue
      else if value < (tx.pays.map Prod.snd).sum then .error .txOverspend
      else .ok (Coins.create (Coins.spend utxo tx.spends) (outputs tx))

def txValidAgainst (utxo : Utxo) (tx : Tx) : Bool := (applyTx utxo tx).isOk

end Apply

section Inclusion

/-- One body added to the catalog. A second body under an id in use is a conflict. -/
def addBody (cat : List Tx × List Reason) (t : Tx) : List Tx × List Reason :=
  match cat.1.find? fun prev => prev.txid == t.txid with
  | some prev => if txKey prev ≠ txKey t then (cat.1, cat.2 ++ [.ilTxidConflict]) else cat
  | none => (cat.1 ++ [t], cat.2)

/-- The bodies that are committed to: in the window on the chain, and in the block. -/
def committed (chain : Chain) (block : Block) : List Tx :=
  ((chain.windowIls.filter fun entry => chain.height - chain.W < entry.1 ∧
    entry.1 ≤ chain.height).flatMap Prod.snd) ++ block.attestations.flatMap Attestation.il

def ilCatalog (chain : Chain) (block : Block) : List Tx × List Reason :=
  (committed chain block).foldl addBody ([], [])

/-- What the mandatory list is built up of: the inputs in use, the bodies taken and the weight so far. -/
structure Selection where
  usedInputs : List OutPoint := []
  taken : List Tx := []
  weight : Int

def select (chain : Chain) (s : Selection) (t : Tx) : Selection :=
  if txKey t ∈ chain.confirmed then s
  else if !txValidAgainst chain.utxo t then s
  else if t.spends.any fun op => op ∈ s.usedInputs then s
  else if chain.maxWeight < s.weight + txWeight t then s
  else { usedInputs := s.usedInputs ++ t.spends, taken := s.taken ++ [t], weight := s.weight + txWeight t }

/-- The transactions a block has to have. -/
def feasibleIl (chain : Chain) (block : Block) : List Tx :=
  let (cat, catErr) := ilCatalog chain block
  if catErr ≠ [] then []
  else
    ((cat.insertionSort fun a b => a.txid ≤ b.txid).foldl (select chain)
      { weight := coinbaseWeight block }).taken

end Inclusion

section Attestations

/-- The script that each height and tree stands for so far. -/
abbrev Trees := AList fun _ : Int × Bytes => Bytes

def checkAttestation (D : Digests) (chain : Chain) (block : Block) (a : Attestation)
    (st : Int) (trees : Trees) : List Reason × Trees :=
  let key := (a.height, a.wtxidTree)
  let multiplexed := match trees.lookup key with
    | some script => script ≠ a.script
    | none => false
  ([when (a.height ≠ block.height) .attHeight, when (a.bitsTarget ≠ chain.bitsTarget) .attBits,
      when (a.powInt ≠ attPowTag D a) .attPowUnbind, when (st ≤ a.powInt) .attPow,
      when (a.script = anyone) .attAnyone,
      when (maxIlTxids < a.il.length) .attIlSize, when (maxIlWeight < (a.il.map txWeight).sum) .attIlWeight,
      when (maxExtraWeight < txWeight a.extra) .attExtraWeight, when (!txIdOk D a.extra) .badTxid,
      when (a.il.any fun t => !txIdOk D t) .badTxid, when (a.extra.spends = []) .attEmptyExtra,
      when (!txValidAgainst chain.utxo a.extra) .attExtraInvalid,
        when (a.wtxidTree ≠ a.extra.txid) .attTreeMismatch,
      when multiplexed .attMultiplexTree, when (a.height < block.height - chain.W) .attWindow].flatten,
    if multiplexed then trees else trees.insert key a.script)
where
  /-- A reason, if there is one. -/
  when (found : Bool) (reason : Reason) : List Reason := if found then [reason] else []

/-- Every attestation checked, each with the trees of those before it. -/
def checkAttestations (D : Digests) (chain : Chain) (block : Block) (st : Int) (trees : Trees) :
    List Attestation → List Reason
  | [] => []
  | a :: rest =>
    let (errors, trees) := checkAttestation D chain block a st trees
    errors ++ checkAttestations D chain block st trees rest

end Attestations

section Validate

def checkOut (out : Pay) : List Reason :=
  (if out.2 < 0 then [.coinbaseNegative] else []) ++
    (if out.1 = opReturn ∧ out.2 ≠ 0 then [.opreturnValue] else []) ++
    if out.1 = anyone ∧ 0 < out.2 then [.anyoneCanSpend] else []

/-- The transactions of a block applied one after the other. A bad id, a repeated transaction and too much
weight end the check. -/
def checkTxs (D : Digests) (chain : Chain) : Utxo → Int → List Bytes → List Tx → List Reason
  | _, _, _, [] => []
  | utxo, used, seen, tx :: rest =>
    if !txIdOk D tx then [.badTxid]
    else if tx.txid ∈ seen then [.duplicateTx]
    else if chain.maxWeight < used + txWeight tx then [.blockWeight]
    else
      match applyTx utxo tx with
      | .ok utxo => checkTxs D chain utxo (used + txWeight tx) (seen ++ [tx.txid]) rest
      | .error reason => reason :: checkTxs D chain utxo (used + txWeight tx) (seen ++ [tx.txid]) rest

/-- Everything about a block but its mandatory transactions. -/
def blockErrors (D : Digests) (chain : Chain) (block : Block) : List Reason :=
  let scripts := block.attestations.map Attestation.script
  [if block.height ≠ chain.height + 1 then [.badHeight] else [],
    if block.bitsTarget ≠ chain.bitsTarget then [.badBits] else [],
    if block.powInt ≠ blockPowTag D block then [.blockPowUnbind] else [],
    if chain.bitsTarget ≤ block.powInt then [.blockPow] else [],
    block.coinbaseOuts.flatMap checkOut,
    if scripts.dedup.length ≠ scripts.length then [.duplicateAttestationScript] else [],
    ((valueScripts block).filter fun s => s ∉ scripts).map .unattestedPayee,
    if maxAttestations < block.attestations.length then [.tooManyAttestations] else [],
    checkAttestations D chain block (shareTarget chain chain.bitsTarget) ∅ block.attestations,
    checkTxs D chain chain.utxo (coinbaseWeight block) [] block.txs].flatten

def validate (D : Digests) (chain : Chain) (block : Block) (enforceIl : Bool := true) : Verdict :=
  let errors := blockErrors D chain block
  if errors ≠ [] then .reject errors
  else if !enforceIl then .accept
  else
    let catErr := (ilCatalog chain block).2
    if catErr ≠ [] then .reject catErr
    else
      match (feasibleIl chain block).find? fun t => txKey t ∉ block.txs.map txKey with
      | some t => .reject [.ilUnsatisfied t.txid]
      | none => .accept

end Validate

section Connect

/-- The id a block's coinbase outputs are filed under. -/
def coinbaseId (height : Int) : Bytes := s!"cb{height}".toUTF8.data.toList

/-- The value outputs of a coinbase as they are filed. -/
def coinbaseOutputs (block : Block) : List (OutPoint × Pay) :=
  block.coinbaseOuts.zipIdx.filterMap fun (out, i) =>
    if 0 < out.2 ∧ out.1 ≠ opReturn then some ((coinbaseId block.height, (i : Int)), out) else none

/-- The chain with a block on it, the window not yet pruned. -/
def extend (chain : Chain) (block : Block) (utxo : Utxo) : Chain :=
  { chain with
    utxo := Coins.create utxo (coinbaseOutputs block)
    confirmed := chain.confirmed ∪ (block.txs.map txKey).toFinset
    windowIls := chain.windowIls ++ block.attestations.map fun a => (block.height, a.il)
    height := block.height }

/-- Connect a block that is valid. An error is the assertion that a valid block's transactions apply. -/
def connect (D : Digests) (chain : Chain) (block : Block) (enforceIl : Bool) :
    Except Reason (Chain × Verdict) :=
  let v := validate D chain block enforceIl
  if !v.ok then .ok (chain, v)
  else (block.txs.foldlM applyTx chain.utxo).map fun utxo => ((extend chain block utxo).pruneWindow, v)

end Connect

end Lazarus.Nta
