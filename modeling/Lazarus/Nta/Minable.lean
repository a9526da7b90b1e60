import Lazarus.Nta.Inclusion

/-! The list that a height demands can be mined there: the block made of it is accepted, whatever blocks were
connected before. -/

namespace Lazarus.Nta

variable {D : Digests} {chain : Chain} {block : Block}

section Attested

private theorem when_eq_nil {found : Bool} {reason : Reason} : checkAttestation.when found reason = [] ↔
    found = false := by
  cases found <;> simp [checkAttestation.when]

private theorem checkAttestation_ok {a : Attestation} {st : Int} {trees : Trees}
    (clear : (checkAttestation D chain block a st trees).1 = []) :
    a.script ≠ anyone ∧ ∀ t ∈ a.il, txIdOk D t := by
  simp only [checkAttestation, List.flatten_cons, List.append_eq_nil_iff, when_eq_nil] at clear
  obtain ⟨-, -, -, -, payee, -, -, -, -, ids, -⟩ := clear
  refine ⟨by simpa using payee, fun t member => ?_⟩
  simpa using List.any_eq_false.mp ids t member

private theorem checkAttestations_ok {st : Int} {trees : Trees} {atts : List Attestation}
    (clear : checkAttestations D chain block st trees atts = []) :
    ∀ a ∈ atts, a.script ≠ anyone ∧ ∀ t ∈ a.il, txIdOk D t := by
  induction atts generalizing trees with
  | nil => nofun
  | cons first rest ih =>
    obtain ⟨here, later⟩ := List.append_eq_nil_iff.mp clear
    exact List.forall_mem_cons.mpr ⟨checkAttestation_ok here, ih later⟩

end Attested

section Accepted

private theorem checkOut_eq_nil {out : Pay} : checkOut out = [] ↔
    0 ≤ out.2 ∧ (out.1 = opReturn → out.2 = 0) ∧ (out.1 = anyone → out.2 ≤ 0) := by
  rw [checkOut]
  split_ifs with negative carries open_
  all_goals simp only [List.nil_append, List.append_nil, List.cons_append, reduceCtorEq, false_iff, true_iff]
  all_goals grind

/-- What a block without an error has been checked for. -/
structure Checked (D : Digests) (chain : Chain) (block : Block) : Prop where
  height : block.height = chain.height + 1
  bits : block.bitsTarget = chain.bitsTarget
  bound : block.powInt = blockPowTag D block
  work : block.powInt < chain.bitsTarget
  outs : ∀ out ∈ block.coinbaseOuts, checkOut out = []
  distinct : (block.attestations.map Attestation.script).Nodup
  payees : ∀ s ∈ valueScripts block, s ∈ block.attestations.map Attestation.script
  count : block.attestations.length ≤ maxAttestations
  attested : checkAttestations D chain block (shareTarget chain chain.bitsTarget) ∅ block.attestations = []
  txs : checkTxs D chain chain.utxo (coinbaseWeight block) [] block.txs = []

private theorem dedup_length_iff {scripts : List Bytes} : scripts.dedup.length = scripts.length ↔
    scripts.Nodup :=
  ⟨fun same => List.dedup_eq_self.mp ((List.dedup_sublist scripts).eq_of_length same),
    fun distinct => by rw [distinct.dedup]⟩

private theorem blockErrors_eq_nil : blockErrors D chain block = [] ↔ Checked D chain block := by
  simp only [blockErrors, List.flatten_cons, List.flatten_nil, List.append_eq_nil_iff,
    ite_eq_right_iff, reduceCtorEq, imp_false, not_not, not_le, not_lt,
    List.flatMap_eq_nil_iff, List.map_eq_nil_iff, List.filter_eq_nil_iff,
    decide_not, Bool.not_eq_true', decide_eq_false_iff_not, dedup_length_iff]
  exact ⟨fun ⟨height, bits, bound, work, outs, distinct, payees, count, attested, txs, _⟩ =>
      ⟨height, bits, bound, work, outs, distinct, payees, count, attested, txs⟩,
    fun checked => ⟨checked.height, checked.bits, checked.bound, checked.work, checked.outs, checked.distinct,
      checked.payees, checked.count, checked.attested, checked.txs, trivial⟩⟩

theorem checked_of_ok {enforceIl : Bool} (ok : (validate D chain block enforceIl).ok) :
    Checked D chain block := by
  rw [← blockErrors_eq_nil]
  by_contra errors
  rw [validate, if_pos errors] at ok
  cases ok

/-- A block that is in order, whose bodies do not conflict and that has the mandatory list
in full, is accepted. -/
theorem validate_of_checked (checked : Checked D chain block) (clear : (ilCatalog chain block).2 = [])
    (has : ∀ t ∈ feasibleIl chain block, txKey t ∈ block.txs.map txKey) : validate D chain block = .accept := by
  have missing : (feasibleIl chain block).find? (fun t => txKey t ∉ block.txs.map txKey) = none :=
    List.find?_eq_none.mpr fun t member => by simpa using has t member
  rw [validate, if_neg (not_not.mpr (blockErrors_eq_nil.mpr checked)),
    if_neg (by simp), if_neg (not_not.mpr clear), missing]

end Accepted

section Connect

/-- What connecting a block does: a block that is rejected does nothing, and the transactions of one
that is accepted apply. -/
theorem connect_cases (D : Digests) (chain : Chain) (block : Block) (enforceIl : Bool) :
    (validate D chain block enforceIl).ok = false ∧
        connect D chain block enforceIl = .ok (chain, validate D chain block enforceIl) ∨
      (validate D chain block enforceIl).ok = true ∧ ∃ utxo, block.txs.foldlM applyTx chain.utxo = .ok utxo ∧
        connect D chain block enforceIl =
        .ok ((extend chain block utxo).pruneWindow, validate D chain block enforceIl) := by
  cases verdict : (validate D chain block enforceIl).ok with
  | false => exact .inl ⟨rfl, by rw [connect, verdict]; rfl⟩
  | true =>
    obtain ⟨-, -, -, -, utxo, applies⟩ := checkTxs_eq_nil.mp (checked_of_ok verdict).txs
    exact .inr ⟨rfl, utxo, applies, by rw [connect, verdict, applies]; rfl⟩

/-- Who is under the id of a body in the coins has been confirmed as that body, and the lists in the window are
of bodies that have their own ids. -/
structure Grounded (D : Digests) (chain : Chain) : Prop where
  coins : ∀ op ∈ chain.utxo, ∀ t, txIdOk D t → t.txid = op.1 → txKey t ∈ chain.confirmed
  window : ∀ entry ∈ chain.windowIls, ∀ t ∈ entry.2, txIdOk D t

private theorem coinbaseOutputs_fst {op : OutPoint} (made : op ∈ (coinbaseOutputs block).map Prod.fst) :
    op.1 = coinbaseId block.height := by
  obtain ⟨entry, member, rfl⟩ := List.mem_map.mp made
  obtain ⟨⟨out, i⟩, -, kept⟩ := List.mem_filterMap.mp member
  dsimp only at kept
  split_ifs at kept
  exact (congrArg (fun entry => entry.1.1) (Option.some.inj kept)).symm

theorem Grounded.pruneWindow (grounded : Grounded D chain) : Grounded D chain.pruneWindow where
  coins := grounded.coins
  window := fun entry member => grounded.window entry (List.mem_of_mem_filter member)

theorem Grounded.extend {utxo : Utxo} (grounded : Grounded D chain)
    (injective : ∀ s p s' p', D.txid s p = D.txid s' p' → s = s' ∧ p = p')
    (labels : ∀ s p h, D.txid s p ≠ coinbaseId h)
    (checked : Checked D chain block) (applies : block.txs.foldlM applyTx chain.utxo = .ok utxo) :
    Grounded D (extend chain block utxo) := by
  obtain ⟨ids, -⟩ := checkTxs_eq_nil.mp checked.txs
  constructor
  · intro op member t idOk named
    have own : t.txid = D.txid t.spends t.pays := by simpa [txIdOk] using idOk
    cases Coins.mem_create.mp member with
    | inl coin =>
      obtain old | ⟨tx, listed, made⟩ := mem_of_foldlM applies coin
      · exact Finset.mem_union_left _ (grounded.coins op old t idOk named)
      · have txOwn : tx.txid = D.txid tx.spends tx.pays := by simpa [txIdOk] using ids tx listed
        have same : txKey t = txKey tx := txKey_eq_iff.mpr ⟨named.trans made,
          injective _ _ _ _ (own.symm.trans ((named.trans made).trans txOwn))⟩
        exact Finset.mem_union_right _ (List.mem_toFinset.mpr (same ▸ List.mem_map_of_mem listed))
    | inr reward => exact absurd (own.symm.trans (named.trans (coinbaseOutputs_fst reward))) (labels _ _ _)
  · intro entry member
    cases List.mem_append.mp member with
    | inl old => exact grounded.window entry old
    | inr new =>
      obtain ⟨a, listed, rfl⟩ := List.mem_map.mp new
      exact (checkAttestations_ok checked.attested a listed).2

end Connect

section Prune

/-- `connect`, but nothing is ever dropped from the window. -/
def connectKeeping (D : Digests) (chain : Chain) (block : Block) (enforceIl : Bool) :
    Except Reason (Chain × Verdict) :=
  let v := validate D chain block enforceIl
  if !v.ok then .ok (chain, v) else (block.txs.foldlM applyTx chain.utxo).map fun utxo =>
    (extend chain block utxo, v)

private theorem committed_pruneWindow : committed chain.pruneWindow block = committed chain block := by
  have same : (chain.windowIls.filter fun entry => chain.height - chain.W + 1 ≤ entry.1).filter (fun entry =>
      chain.height - chain.W < entry.1 ∧ entry.1 ≤ chain.height) = chain.windowIls.filter fun entry =>
      chain.height - chain.W < entry.1 ∧ entry.1 ≤ chain.height := by
    rw [List.filter_filter]
    refine List.filter_congr fun entry _ => ?_
    rw [← Bool.decide_and, decide_eq_decide]
    omega
  rw [committed, committed, Chain.pruneWindow, same]

private theorem checkAttestations_pruneWindow {st : Int} {trees : Trees} {atts : List Attestation} :
    checkAttestations D chain.pruneWindow block st trees atts =
      checkAttestations D chain block st trees atts := by
  induction atts generalizing trees with
  | nil => rfl
  | cons first rest ih =>
    have here : checkAttestation D chain.pruneWindow block first st trees =
      checkAttestation D chain block first st trees := rfl
    rw [checkAttestations, checkAttestations, here]
    simp only [ih]

private theorem checkTxs_pruneWindow {utxo : Utxo} {used : Int} {seen : List Bytes} {txs : List Tx} :
    checkTxs D chain.pruneWindow utxo used seen txs = checkTxs D chain utxo used seen txs := by
  induction txs generalizing utxo used seen with
  | nil => rfl
  | cons first rest ih =>
    rw [checkTxs, checkTxs]
    simp only [ih]
    rfl

private theorem validate_pruneWindow {enforceIl : Bool} :
    validate D chain.pruneWindow block enforceIl = validate D chain block enforceIl := by
  have errors : blockErrors D chain.pruneWindow block = blockErrors D chain block := by
    rw [blockErrors, blockErrors, checkAttestations_pruneWindow, checkTxs_pruneWindow]
    rfl
  have catalog : ilCatalog chain.pruneWindow block = ilCatalog chain block := by
    rw [ilCatalog, ilCatalog, committed_pruneWindow]
  have list : feasibleIl chain.pruneWindow block = feasibleIl chain block := by
    rw [feasibleIl, feasibleIl, catalog]
    rfl
  rw [validate, validate, errors, catalog, list]

private theorem extend_pruneWindow {utxo : Utxo} (next : chain.height ≤ block.height) :
    (extend chain.pruneWindow block utxo).pruneWindow = (extend chain block utxo).pruneWindow := by
  have later : ∀ h : Int, (decide (block.height - chain.W + 1 ≤ h) && decide (chain.height - chain.W + 1 ≤ h)) =
      decide (block.height - chain.W + 1 ≤ h) := fun h => by
    rw [← Bool.decide_and, decide_eq_decide]
    omega
  simp only [extend, Chain.pruneWindow, List.filter_append, List.filter_filter]
  congr 2
  exact List.filter_congr fun entry _ => later entry.1

private theorem pruneWindow_twice : chain.pruneWindow.pruneWindow = chain.pruneWindow := by
  simp [Chain.pruneWindow]

private theorem connectKeeping_alike {kept : Chain} (D : Digests) (block : Block)
    (enforceIl : Bool) (alike : chain.pruneWindow = kept.pruneWindow) :
    ∃ after kept', connect D chain block enforceIl = .ok (after, validate D chain block enforceIl) ∧
      connectKeeping D kept block enforceIl = .ok (kept', validate D chain block enforceIl) ∧
      after.pruneWindow = kept'.pruneWindow := by
  have verdict : validate D kept block enforceIl = validate D chain block enforceIl := by
    rw [← validate_pruneWindow, ← alike, validate_pruneWindow]
  obtain ⟨rejected, result⟩ | ⟨accepted, utxo, applies, result⟩ := connect_cases D chain block enforceIl
  · exact ⟨chain, kept, result, by rw [connectKeeping, verdict, rejected]; rfl, alike⟩
  · have height : kept.height = chain.height := (Chain.mk.inj alike).1.symm
    have coins : kept.utxo = chain.utxo := (Chain.mk.inj alike).2.2.2.2.2.1.symm
    have next := (checked_of_ok accepted).height
    refine ⟨_, extend kept block utxo, result, ?_, ?_⟩
    · rw [connectKeeping, verdict, accepted, coins, applies]
      rfl
    · rw [pruneWindow_twice, ← extend_pruneWindow (by omega), alike, extend_pruneWindow (by omega)]

end Prune

section Runs

/-- Calls one after the other: the chain they leave, and their verdicts. -/
def run (step : Chain → Block → Bool → Except Reason (Chain × Verdict)) (chain : Chain) :
    List (Block × Bool) → Except Reason (Chain × List Verdict)
  | [] => .ok (chain, [])
  | (block, enforceIl) :: rest => do
    let (chain, v) ← step chain block enforceIl
    let (chain, verdicts) ← run step chain rest
    return (chain, v :: verdicts)

private theorem run_keeping {kept : Chain} (D : Digests) (calls : List (Block × Bool))
    (alike : chain.pruneWindow = kept.pruneWindow) :
    ∃ after kept' verdicts, run (connect D) chain calls = .ok (after, verdicts) ∧
      run (connectKeeping D) kept calls = .ok (kept', verdicts) := by
  induction calls generalizing chain kept with
  | nil => exact ⟨chain, kept, [], rfl, rfl⟩
  | cons first rest ih =>
    obtain ⟨block, enforceIl⟩ := first
    obtain ⟨after, kept', here, there, alike⟩ := connectKeeping_alike D block enforceIl alike
    obtain ⟨last, lastKept, verdicts, ran, ranKept⟩ := ih alike
    refine ⟨last, lastKept, validate D chain block enforceIl :: verdicts, ?_, ?_⟩
    · rw [run, here]
      simp only [bind, Except.bind, ran]
      rfl
    · rw [run, there]
      simp only [bind, Except.bind, ranKept]
      rfl

private theorem run_grounded (injective : ∀ s p s' p', D.txid s p = D.txid s' p' → s = s' ∧ p = p')
    (labels : ∀ s p h, D.txid s p ≠ coinbaseId h) {calls : List (Block × Bool)}
    {after : Chain} {verdicts : List Verdict}
    (grounded : Grounded D chain) (ran : run (connect D) chain calls = .ok (after, verdicts)) :
    Grounded D after := by
  induction calls generalizing chain verdicts with
  | nil =>
    cases ran
    exact grounded
  | cons first rest ih =>
    obtain ⟨block, enforceIl⟩ := first
    rw [run] at ran
    obtain ⟨-, result⟩ | ⟨accepted, utxo, applies, result⟩ := connect_cases D chain block enforceIl
    all_goals
      rw [result] at ran
      simp only [bind, Except.bind] at ran
    · cases later : run (connect D) chain rest with
      | error reason =>
        rw [later] at ran
        cases ran
      | ok done =>
        rw [later] at ran
        cases ran
        exact ih grounded later
    · have next := (grounded.extend injective labels (checked_of_ok accepted) applies).pruneWindow
      cases later : run (connect D) (extend chain block utxo).pruneWindow rest with
      | error reason =>
        rw [later] at ran
        cases ran
      | ok done =>
        rw [later] at ran
        cases ran
        exact ih next later

end Runs

section Mined

/-- A coinbase and attestations for the next height. -/
structure Proposed (D : Digests) (chain : Chain) (block : Block) : Prop where
  height : block.height = chain.height + 1
  bits : block.bitsTarget = chain.bitsTarget
  attested : checkAttestations D chain block (shareTarget chain chain.bitsTarget) ∅ block.attestations = []
  distinct : (block.attestations.map Attestation.script).Nodup
  payees : ∀ s ∈ valueScripts block, s ∈ block.attestations.map Attestation.script
  bound : block.powInt = blockPowTag D block
  work : block.powInt < chain.bitsTarget

private theorem ilCatalog_clear (injective : ∀ s p s' p', D.txid s p = D.txid s' p' → s = s' ∧ p = p')
    (grounded : Grounded D chain) (attested : ∀ a ∈ block.attestations, ∀ t ∈ a.il, txIdOk D t) :
    (ilCatalog chain block).2 = [] ∧ ∀ t ∈ committed chain block, txIdOk D t := by
  have ids : ∀ t ∈ committed chain block, txIdOk D t := fun t member => by
    cases List.mem_append.mp member with
    | inl old =>
      obtain ⟨entry, listed, there⟩ := List.mem_flatMap.mp old
      exact grounded.window entry (List.mem_of_mem_filter listed) t there
    | inr new =>
      obtain ⟨a, listed, there⟩ := List.mem_flatMap.mp new
      exact attested a listed t there
  exact ⟨addBody_fold_clear ([], []) injective nofun ids rfl, ids⟩

private theorem checkTxs_feasibleIl (grounded : Grounded D chain) (clear : (ilCatalog chain block).2 = [])
    (ids : ∀ t ∈ committed chain block, txIdOk D t) :
    checkTxs D chain chain.utxo (coinbaseWeight block) [] (feasibleIl chain block) = [] := by
  obtain ⟨s, list, taken⟩ := feasibleIl_taken clear
  have own : ∀ t ∈ s.taken, txIdOk D t := fun t member => ids t (mem_committed (taken.part.subset member))
  rw [list, checkTxs_eq_nil]
  refine ⟨own, fun _ _ => List.not_mem_nil, ordered_nodup.sublist (taken.part.map _), fun some => ?_, ?_⟩
  · rw [← taken.weight]
    exact taken.fits some
  · refine foldlM_of_disjoint chain.utxo taken.valid taken.apart fun tx member other listed op spent made => ?_
    exact taken.unconfirmed tx member
      (grounded.coins op (spends_mem (taken.valid other listed) op spent) tx (own tx member) made.symm)

/-- The rules that a coinbase and the number of attestations have to meet on their own account. -/
def OwnRules (block : Block) : Prop :=
  (∀ out ∈ block.coinbaseOuts, 0 ≤ out.2 ∧ (out.1 = opReturn → out.2 = 0)) ∧
    block.attestations.length ≤ maxAttestations

private theorem anyone_ne_opReturn : anyone ≠ opReturn := by decide

private theorem validate_mined (grounded : Grounded D chain)
    (injective : ∀ s p s' p', D.txid s p = D.txid s' p' → s = s' ∧ p = p')
    (proposed : Proposed D chain block) (mined : block.txs = feasibleIl chain block) :
    (validate D chain block).ok = true ↔ OwnRules block := by
  have attested := checkAttestations_ok proposed.attested
  obtain ⟨clear, ids⟩ := ilCatalog_clear injective grounded fun a listed => (attested a listed).2
  constructor
  · intro accepted
    have checked := checked_of_ok accepted
    exact ⟨fun out member =>
      ⟨(checkOut_eq_nil.mp (checked.outs out member)).1, (checkOut_eq_nil.mp (checked.outs out member)).2.1⟩,
      checked.count⟩
  · rintro ⟨outs, count⟩
    have paid : ∀ out ∈ block.coinbaseOuts, checkOut out = [] := fun out member => by
      refine checkOut_eq_nil.mpr ⟨(outs out member).1, (outs out member).2, fun anyone_ => ?_⟩
      by_contra positive
      have carried : out.1 ≠ opReturn := anyone_ ▸ anyone_ne_opReturn
      have payee : out.1 ∈ valueScripts block :=
        List.mem_map.mpr ⟨out, List.mem_filter.mpr ⟨member, decide_eq_true ⟨carried, not_le.mp positive⟩⟩, rfl⟩
      obtain ⟨a, listed, script⟩ := List.mem_map.mp (proposed.payees _ payee)
      exact (attested a listed).1 (script.trans anyone_)
    have checked : Checked D chain block :=
      ⟨proposed.height, proposed.bits, proposed.bound, proposed.work, paid, proposed.distinct,
        proposed.payees, count, proposed.attested, mined ▸ checkTxs_feasibleIl grounded clear ids⟩
    rw [validate_of_checked checked clear fun t member => List.mem_map_of_mem (mined ▸ member)]
    rfl

/-- **The list demanded at a height can be mined there**: after any calls of `connect` the bodies do not
conflict, the block made of the list is accepted, no call fails and a rejected block does nothing; nor does it
matter that lists out of the window were dropped. -/
theorem mandatory_list_minable (D : Digests)
    (injective : ∀ s p s' p', D.txid s p = D.txid s' p' → s = s' ∧ p = p')
    (labels : ∀ s p h, D.txid s p ≠ coinbaseId h) (start : Chain) (empty : start.windowIls = [])
    (grounded : ∀ op ∈ start.utxo, ∀ t, txIdOk D t → t.txid = op.1 → txKey t ∈ start.confirmed)
    (calls : List (Block × Bool)) : ∃ chain verdicts, run (connect D) start calls = .ok (chain, verdicts) ∧
      (∃ unpruned, run (connectKeeping D) start calls = .ok (unpruned, verdicts)) ∧
      (∀ block, Proposed D chain block → (ilCatalog chain block).2 = [] ∧
        (block.txs = feasibleIl chain block → ((validate D chain block).ok = true ↔ OwnRules block))) ∧
      ∀ block enforceIl, ∃ after v, connect D chain block enforceIl = .ok (after, v) ∧
        (v.ok = false → after = chain) := by
  have sound : Grounded D start := ⟨grounded, fun entry member => absurd (empty ▸ member) List.not_mem_nil⟩
  obtain ⟨chain, unpruned, verdicts, ran, kept⟩ := run_keeping D calls (Eq.refl start.pruneWindow)
  have reached := run_grounded injective labels sound ran
  refine ⟨chain, verdicts, ran, ⟨unpruned, kept⟩,
    fun block proposed => ⟨?_, validate_mined reached injective proposed⟩, fun block enforceIl => ?_⟩
  · exact (ilCatalog_clear injective reached fun a listed =>
      (checkAttestations_ok proposed.attested a listed).2).1
  · obtain ⟨-, result⟩ | ⟨accepted, utxo, -, result⟩ := connect_cases D chain block enforceIl
    · exact ⟨chain, _, result, fun _ => rfl⟩
    · exact ⟨_, _, result, fun rejected => absurd (rejected.symm.trans accepted) nofun⟩

end Mined

section Example

instance encodableByte : Encodable UInt8 := .ofLeftInverse UInt8.toNat UInt8.ofNat fun _ => UInt8.ofNat_toNat

def alice : Bytes := "alice".toUTF8.data.toList

def bob : Bytes := "bob".toUTF8.data.toList

/-- The id of a payment from coin to bob. -/
def paymentId : Bytes :=
  [103, 234, 96, 19, 157, 227, 208, 219, 92, 81, 85, 75, 186, 23, 36, 163,
    113, 71, 177, 230, 175, 178, 70, 73, 244, 111, 160, 245, 43, 3, 82, 64]

def payment : Tx := { txid := paymentId, spends := [("coin".toUTF8.data.toList, 0)], pays := [(bob, 11)] }

/-- A payment that spends the output of the first as if it were worth more. -/
def secondPayment : Tx where
  txid := [196, 21, 112, 92, 71, 225, 55, 8, 80, 141, 28, 32, 150, 119,
    216, 228, 133, 147, 107, 58, 52, 58, 252, 45, 100, 6, 130, 131, 252, 62, 52, 203]
  spends := [(paymentId, 0)]
  pays := [(bob, 50)]

def extraTx : Tx where
  txid := [0, 238, 148, 161, 83, 127, 249, 90, 14, 167, 137, 144, 218,
    24, 180, 38, 11, 251, 163, 41, 126, 169, 116, 198, 59, 82, 219, 146, 147, 190, 167, 206]
  spends := [("fund".toUTF8.data.toList, 0)]
  pays := [(alice, 40)]

/-- SHA-256 on the bodies and the heads that are used here, and of each other body an id of its own. -/
def someDigests : Digests where
  txid := fun spends pays =>
    if (spends, pays) = (payment.spends, payment.pays) then payment.txid
    else if (spends, pays) = (secondPayment.spends, secondPayment.pays) then secondPayment.txid
    else if (spends, pays) = (extraTx.spends, extraTx.pays) then extraTx.txid
    else List.replicate (33 + Encodable.encode (spends, pays)) 0
  att := fun (_, _, _, _, il, _) =>
    if il.length = 1 then [252, 198, 164, 47, 146, 22, 10, 243] else [230, 60, 40, 156, 4, 93, 19, 100]
  block := fun (_, _, _, txs, _) =>
    match txs with
    | [] => [110, 207, 224, 85, 217, 127, 51, 158]
    | [_] => [41, 37, 43, 51, 157, 225, 115, 133]
    | _ => [194, 65, 54, 149, 174, 203, 57, 64]

def attestationOf (il : List Tx) (powInt : Int) : Attestation :=
  { script := alice, height := 101, bitsTarget := 2 ^ 200, powInt, extra := extraTx,
    wtxidTree := extraTx.txid, il }

/-- A chain with a coin to pay from and one to attest with. -/
def funded : Chain :=
  { height := 100, bitsTarget := 2 ^ 200,
    utxo := (AList.insert ("coin".toUTF8.data.toList, 0) (bob, 100) ∅).insert
      ("fund".toUTF8.data.toList, 0) (alice, 50) }

def onePayment : Block :=
  { height := 101, bitsTarget := 2 ^ 200, powInt := 2964823430385464197,
    coinbaseOuts := [(alice, 50)], txs := [payment],
    attestations := [attestationOf [payment] 18214426267167886067] }

/-- A chain with a coin under the id of a payment that nobody has made. -/
def unmade : Chain :=
  { funded with utxo := funded.utxo.insert (paymentId, 0) (bob, 50) }

/-- The block of the list of both payments. -/
def bothPayments : Block :=
  { height := 101, bitsTarget := 2 ^ 200, powInt := 13997529133354793280, coinbaseOuts := [(alice, 50)],
    txs := [payment, secondPayment],
    attestations := [attestationOf [payment, secondPayment] 16590179777879282532] }

def negativeReward : Block :=
  { height := 101, bitsTarget := 2 ^ 200, powInt := 7984847323677012894,
    coinbaseOuts := [(alice, -1)], txs := [], attestations := [] }

/-- The transactions whose digests are known. -/
def knownTxs : List Tx := [payment, secondPayment, extraTx]

private theorem someDigests_cases (s : List OutPoint) (p : List Pay) :
    (∃ tx ∈ knownTxs, (s, p) = (tx.spends, tx.pays) ∧ someDigests.txid s p = tx.txid) ∨
      someDigests.txid s p = List.replicate (33 + Encodable.encode (s, p)) 0 := by
  simp only [someDigests]
  split_ifs with first second third
  · exact .inl ⟨payment, by simp [knownTxs], first, rfl⟩
  · exact .inl ⟨secondPayment, by simp [knownTxs], second, rfl⟩
  · exact .inl ⟨extraTx, by simp [knownTxs], third, rfl⟩
  · exact .inr rfl

private theorem knownTxs_length : ∀ tx ∈ knownTxs, tx.txid.length = 32 ∧ tx.txid.head? ≠ some 99 := by decide

private theorem knownTxs_distinct : ∀ tx ∈ knownTxs, ∀ other ∈ knownTxs, tx.txid = other.txid →
    tx = other := by decide

private theorem someDigests_injective (s : List OutPoint) (p : List Pay) (s' : List OutPoint) (p' : List Pay)
    (same : someDigests.txid s p = someDigests.txid s' p') : s = s' ∧ p = p' := by
  rw [← Prod.mk.injEq]
  obtain ⟨tx, known, body, id⟩ | id := someDigests_cases s p
  all_goals obtain ⟨tx', known', body', id'⟩ | id' := someDigests_cases s' p'
  · rw [body, body', knownTxs_distinct tx known tx' known' (id.symm.trans (same.trans id'))]
  · have length := congrArg List.length (id.symm.trans (same.trans id'))
    rw [(knownTxs_length tx known).1, List.length_replicate] at length
    omega
  · have length := congrArg List.length (id.symm.trans (same.trans id'))
    rw [(knownTxs_length tx' known').1, List.length_replicate] at length
    omega
  · have length := congrArg List.length (id.symm.trans (same.trans id'))
    rw [List.length_replicate, List.length_replicate] at length
    exact Encodable.encode_injective (by omega)

private theorem coinbaseId_head (h : Int) : (coinbaseId h).head? = some 99 := by
  have append (a b : String) :
    (a ++ b).toUTF8.data.toList = a.toUTF8.data.toList ++ b.toUTF8.data.toList := by simp
  have label : "cb".toUTF8.data.toList = [99, 98] := by decide
  have bytes : coinbaseId h = ("cb" ++ toString h).toUTF8.data.toList := by
    simp only [coinbaseId]
    rfl
  rw [bytes, append, label]
  rfl

private theorem someDigests_labels (s : List OutPoint) (p : List Pay) (h : Int) :
    someDigests.txid s p ≠ coinbaseId h := by
  intro same
  have head := coinbaseId_head h
  rw [← same] at head
  obtain ⟨tx, known, -, id⟩ | id := someDigests_cases s p
  · exact (knownTxs_length tx known).2 (id ▸ head)
  · rw [id, Nat.add_comm] at head
    cases head

private theorem someDigests_length (s : List OutPoint) (p : List Pay) : 32 ≤ (someDigests.txid s p).length := by
  obtain ⟨tx, known, -, id⟩ | id := someDigests_cases s p
  · rw [id, (knownTxs_length tx known).1]
  · rw [id, List.length_replicate]
    omega

private theorem funded_short : ∀ op ∈ funded.utxo, op.1.length = 4 := by
  intro op member
  simp only [funded, AList.mem_insert] at member
  rcases member with rfl | rfl | none
  · rfl
  · rfl
  · exact absurd none (AList.notMem_empty op)

theorem mandatory_list_minable_payment : ∃ chain verdicts,
    run (connect someDigests) funded [(onePayment, true)] = .ok (chain, verdicts) ∧
      (∃ unpruned, run (connectKeeping someDigests) funded [(onePayment, true)] = .ok (unpruned, verdicts)) ∧
      (∀ block, Proposed someDigests chain block → (ilCatalog chain block).2 = [] ∧
        (block.txs = feasibleIl chain block →
          ((validate someDigests chain block).ok = true ↔ OwnRules block))) ∧
      ∀ block enforceIl, ∃ after v, connect someDigests chain block enforceIl = .ok (after, v) ∧
        (v.ok = false → after = chain) :=
  mandatory_list_minable someDigests someDigests_injective someDigests_labels funded rfl
    (fun op member t own named => by
      have id : t.txid = someDigests.txid t.spends t.pays := by simpa [txIdOk] using own
      have long := someDigests_length t.spends t.pays
      have short := funded_short op member
      rw [← id, named] at long
      omega)
    [(onePayment, true)]

theorem mandatory_list_not_minable :
    (∀ s p s' p', someDigests.txid s p = someDigests.txid s' p' → s = s' ∧ p = p') ∧
      unmade.windowIls = [] ∧ run (connect someDigests) unmade [] = .ok (unmade, []) ∧
      (Proposed someDigests unmade bothPayments ∧ coinbaseWeight bothPayments ≤ unmade.maxWeight ∧
        bothPayments.txs = feasibleIl unmade bothPayments ∧
        validate someDigests unmade bothPayments = .reject [.txOverspend]) ∧
      Proposed someDigests unmade negativeReward ∧ coinbaseWeight negativeReward ≤ unmade.maxWeight ∧
        negativeReward.txs = feasibleIl unmade negativeReward ∧
        validate someDigests unmade negativeReward = .reject [.coinbaseNegative] :=
  ⟨someDigests_injective, rfl, rfl,
    ⟨⟨rfl, rfl, by decide, by decide, by decide, by decide, by decide⟩, by decide, by decide, by decide⟩,
    ⟨rfl, rfl, by decide, by decide, by decide, by decide, by decide⟩, by decide, by decide, by decide⟩

end Example

end Lazarus.Nta
