import Lazarus.Nta.Validate

/-! What applying transactions reads and leaves: a transaction that is valid against a set of coins is valid
wherever its inputs are the same coins. -/

namespace Lazarus.Nta

variable {D : Digests} {chain : Chain} {utxo later : Utxo} {tx t : Tx}

/-- A body's key says what it spends and pays. -/
theorem txKey_eq_iff : txKey t = txKey tx ↔ t.txid = tx.txid ∧ t.spends = tx.spends ∧ t.pays = tx.pays := by
  simp [txKey]

theorem txWeight_pos (tx : Tx) : 0 < txWeight tx := by
  rw [txWeight]
  omega

theorem weights_nonneg (txs : List Tx) : 0 ≤ (txs.map txWeight).sum :=
  List.sum_nonneg fun weight member => by
    obtain ⟨tx, -, rfl⟩ := List.mem_map.mp member
    exact (txWeight_pos tx).le

section Inputs

private theorem inValue_congr {spentHere spends : List OutPoint}
    (same : ∀ op ∈ spends, utxo.lookup op = later.lookup op) :
    inValue utxo spentHere spends = inValue later spentHere spends := by
  induction spends generalizing spentHere with
  | nil => rfl
  | cons op rest ih =>
    rw [inValue, inValue, same op List.mem_cons_self,
      ih fun op member => same op (List.mem_cons_of_mem _ member)]

private theorem mem_of_inValue {spentHere spends : List OutPoint} {value : Int}
    (ok : inValue utxo spentHere spends = .ok value) : ∀ op ∈ spends, op ∈ utxo := by
  induction spends generalizing spentHere value with
  | nil => nofun
  | cons first rest ih =>
    rw [inValue] at ok
    split_ifs at ok with again
    cases found : utxo.lookup first with
    | none =>
      rw [found] at ok
      cases ok
    | some entry =>
      cases rest_value : inValue utxo (first :: spentHere) rest with
      | error reason =>
        simp only [found, rest_value] at ok
        cases ok
      | ok sum =>
        intro op member
        cases List.mem_cons.mp member with
        | inl here => exact here ▸ AList.lookup_isSome.mp (found ▸ rfl)
        | inr there => exact ih rest_value op there

end Inputs

section Apply

/-- What a transaction leaves of the coins. -/
def applied (utxo : Utxo) (tx : Tx) : Utxo := Coins.create (Coins.spend utxo tx.spends) (outputs tx)

private theorem applyTx_ok (ok : applyTx utxo tx = .ok later) :
    (∀ op ∈ tx.spends, op ∈ utxo) ∧ later = applied utxo tx := by
  rw [applyTx] at ok
  by_cases empty : tx.spends = []
  · rw [if_pos empty] at ok
    cases ok
  · rw [if_neg empty] at ok
    cases value : inValue utxo [] tx.spends with
    | error reason =>
      rw [value] at ok
      cases ok
    | ok sum =>
      simp only [value] at ok
      split_ifs at ok with negative
      exact ⟨mem_of_inValue value, (Except.ok.inj ok).symm⟩

private theorem txValidAgainst_iff : txValidAgainst utxo tx ↔ applyTx utxo tx = .ok (applied utxo tx) := by
  cases result : applyTx utxo tx with
  | error reason => simp [txValidAgainst, result, Except.isOk, Except.toBool]
  | ok after => simp [txValidAgainst, result, Except.isOk, Except.toBool, (applyTx_ok result).2]

theorem spends_mem (valid : txValidAgainst utxo tx) : ∀ op ∈ tx.spends, op ∈ utxo :=
  (applyTx_ok (txValidAgainst_iff.mp valid)).1

private theorem txValidAgainst_congr (same : ∀ op ∈ tx.spends, utxo.lookup op = later.lookup op) :
    txValidAgainst utxo tx = txValidAgainst later tx := by
  rw [txValidAgainst, txValidAgainst, applyTx, applyTx, inValue_congr same]
  by_cases empty : tx.spends = []
  · rw [if_pos empty, if_pos empty]
  · rw [if_neg empty, if_neg empty]
    cases inValue later [] tx.spends with
    | error reason => rfl
    | ok value =>
      dsimp only
      split_ifs <;> rfl

private theorem outputs_fst {op : OutPoint} (made : op ∈ (outputs tx).map Prod.fst) : op.1 = tx.txid := by
  obtain ⟨entry, member, rfl⟩ := List.mem_map.mp made
  obtain ⟨filed, -, rfl⟩ := List.mem_map.mp member
  rfl

private theorem lookup_applied {op : OutPoint} (kept : op ∉ tx.spends) (other : op.1 ≠ tx.txid) :
    (applied utxo tx).lookup op = utxo.lookup op := by
  rw [applied, Coins.lookup_create_of_notMem fun made => other (outputs_fst made),
    Coins.lookup_spend, if_neg kept]

private theorem mem_applied {op : OutPoint} (member : op ∈ applied utxo tx) : op ∈ utxo ∨ op.1 = tx.txid := by
  cases Coins.mem_create.mp member with
  | inl kept => exact .inl (Coins.mem_spend.mp kept).1
  | inr made => exact .inr (outputs_fst made)

end Apply

section Block

/-- Transactions applied one after the other. -/
theorem mem_of_foldlM {txs : List Tx} (ok : txs.foldlM applyTx utxo = .ok later)
    {op : OutPoint} (member : op ∈ later) : op ∈ utxo ∨ ∃ tx ∈ txs, op.1 = tx.txid := by
  induction txs generalizing utxo with
  | nil => exact .inl (Except.ok.inj ok ▸ member)
  | cons first rest ih =>
    rw [List.foldlM_cons] at ok
    cases result : applyTx utxo first with
    | error reason =>
      rw [result] at ok
      cases ok
    | ok after =>
      rw [result] at ok
      obtain kept | ⟨tx, listed, made⟩ := ih ok
      · obtain old | new := mem_applied ((applyTx_ok result).2 ▸ kept)
        · exact .inl old
        · exact .inr ⟨first, List.mem_cons_self, new⟩
      · exact .inr ⟨tx, List.mem_cons_of_mem _ listed, made⟩

/-- What a block's transactions have to be for none of them to be objected to. -/
theorem checkTxs_eq_nil {used : Int} {seen : List Bytes} {txs : List Tx} :
    checkTxs D chain utxo used seen txs = [] ↔ (∀ tx ∈ txs, txIdOk D tx) ∧
    (∀ tx ∈ txs, tx.txid ∉ seen) ∧ (txs.map Tx.txid).Nodup ∧
      (txs ≠ [] → used + (txs.map txWeight).sum ≤ chain.maxWeight) ∧
      ∃ later, txs.foldlM applyTx utxo = .ok later := by
  induction txs generalizing utxo used seen with
  | nil => simp [checkTxs, pure, Except.pure]
  | cons first rest ih =>
    have heavier := weights_nonneg rest
    rw [checkTxs]
    split_ifs with badId seenBefore heavy
    · simp only [false_iff, not_and]
      intro ids
      simp [ids first List.mem_cons_self] at badId
    · simp only [false_iff, not_and]
      intro _ fresh
      exact absurd seenBefore (fresh first List.mem_cons_self)
    · simp only [false_iff, not_and]
      intro _ _ _ fits
      have room := fits (List.cons_ne_nil _ _)
      rw [List.map_cons, List.sum_cons] at room
      omega
    · rw [List.foldlM_cons]
      cases result : applyTx utxo first with
      | error reason =>
        simp only [List.cons_ne_nil, false_iff, not_and]
        rintro - - - - ⟨later, applies⟩
        cases applies
      | ok after =>
        simp only [ih]
        have idOk : txIdOk D first := by simpa using badId
        constructor
        · rintro ⟨ids, fresh, distinct, fits, applies⟩
          refine ⟨List.forall_mem_cons.mpr ⟨idOk, ids⟩,
            List.forall_mem_cons.mpr ⟨seenBefore, fun tx member before => ?_⟩,
            List.nodup_cons.mpr ⟨fun again => ?_, distinct⟩, fun _ => ?_, applies⟩
          · exact fresh tx member (List.mem_append_left _ before)
          · obtain ⟨tx, member, same⟩ := List.mem_map.mp again
            exact fresh tx member (List.mem_append_right _ (List.mem_singleton.mpr same))
          · rw [List.map_cons, List.sum_cons]
            by_cases last : rest = []
            · subst last
              simp only [List.map_nil, List.sum_nil]
              omega
            · have room := fits last
              omega
        · rintro ⟨ids, fresh, distinct, fits, applies⟩
          obtain ⟨apart, distinct⟩ := List.nodup_cons.mp distinct
          refine ⟨(List.forall_mem_cons.mp ids).2, fun tx member before => ?_, distinct, fun _ => ?_, applies⟩
          · cases List.mem_append.mp before with
            | inl old => exact (List.forall_mem_cons.mp fresh).2 tx member old
            | inr same => exact apart (List.mem_singleton.mp same ▸ List.mem_map_of_mem member)
          · have room := fits (List.cons_ne_nil _ _)
            rw [List.map_cons, List.sum_cons] at room
            omega

/-- Valid transactions that share no input and whose outputs none of them spends apply one after the other. -/
theorem foldlM_of_disjoint {txs : List Tx} (utxo : Utxo) (valid : ∀ tx ∈ txs, txValidAgainst utxo tx)
    (apart : txs.Pairwise fun a b => ∀ op ∈ b.spends, op ∉ a.spends)
    (grounded : ∀ tx ∈ txs, ∀ other ∈ txs, ∀ op ∈ other.spends, op.1 ≠ tx.txid) :
    ∃ later, txs.foldlM applyTx utxo = .ok later := by
  induction txs generalizing utxo with
  | nil => exact ⟨utxo, rfl⟩
  | cons first rest ih =>
    obtain ⟨here, valid⟩ := List.forall_mem_cons.mp valid
    obtain ⟨clear, apart⟩ := List.pairwise_cons.mp apart
    have same : ∀ tx ∈ rest, ∀ op ∈ tx.spends, utxo.lookup op = (applied utxo first).lookup op :=
      fun tx member op spent =>
      (lookup_applied (clear tx member op spent)
        (grounded first List.mem_cons_self tx (List.mem_cons_of_mem _ member) op spent)).symm
    obtain ⟨later, applies⟩ := ih (applied utxo first)
      (fun tx member => txValidAgainst_congr (same tx member) ▸ valid tx member) apart
      fun tx member other listed =>
        grounded tx (List.mem_cons_of_mem _ member) other (List.mem_cons_of_mem _ listed)
    refine ⟨later, ?_⟩
    rw [List.foldlM_cons, txValidAgainst_iff.mp here]
    exact applies

end Block

end Lazarus.Nta
