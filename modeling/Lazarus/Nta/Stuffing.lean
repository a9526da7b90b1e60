import Lazarus.Nta.Minable

/-! What of a block's own making the mandatory list depends on: the number of its coinbase outputs, which a
finder can raise with outputs that are worth nothing. -/

namespace Lazarus.Nta

variable {D : Digests} {chain : Chain} {block other : Block} {t : Tx}

/-- The outputs of a coinbase that carry a value. -/
def valueOuts (block : Block) : List Pay := block.coinbaseOuts.filter fun out => out.2 ≠ 0

/-- A body that has to be mined where there is room for it. -/
def Demanded (chain : Chain) (block : Block) (t : Tx) : Prop :=
  t ∈ (ilCatalog chain block).1 ∧ txKey t ∉ chain.confirmed ∧ txValidAgainst chain.utxo t

private theorem ilCatalog_congr (same : other.attestations = block.attestations) :
    ilCatalog chain other = ilCatalog chain block := by
  rw [ilCatalog, ilCatalog, committed, committed, same]

private theorem ordered_congr (same : other.attestations = block.attestations) :
    ordered chain other = ordered chain block := by
  rw [ordered, ordered, ilCatalog_congr same]

private theorem feasibleIl_congr (same : other.attestations = block.attestations)
    (count : other.coinbaseOuts.length = block.coinbaseOuts.length) :
    feasibleIl chain other = feasibleIl chain block := by
  have start : startSelection other = startSelection block := by
    rw [startSelection, startSelection, coinbaseWeight, coinbaseWeight, count]
  rw [feasibleIl_eq, feasibleIl_eq, ilCatalog_congr same, ordered_congr same, start]

private theorem feasibleIl_none
    (full : ∀ t, Demanded chain block t → chain.maxWeight < coinbaseWeight block + txWeight t) :
    feasibleIl chain block = [] := by
  rw [feasibleIl_eq]
  split_ifs with conflict
  · rfl
  · obtain ⟨s, list, taken⟩ := feasibleIl_taken (not_not.mp conflict)
    rw [feasibleIl_eq, if_neg conflict] at list
    rw [list]
    by_contra some
    obtain ⟨t, rest, shape⟩ := List.exists_cons_of_ne_nil some
    have member : t ∈ s.taken := shape ▸ List.mem_cons_self
    have heavy :=
      full t ⟨mem_ordered.mp (taken.part.subset member), taken.unconfirmed t member, taken.valid t member⟩
    have fits := taken.fits some
    have rest_weight := weights_nonneg rest
    rw [taken.weight, shape, List.map_cons, List.sum_cons] at fits
    omega

private theorem fold_taken (chain : Chain) (bodies : List Tx) (s : Selection) :
    s.taken.Sublist (bodies.foldl (select chain) s).taken := by
  induction bodies generalizing s with
  | nil => exact List.Sublist.refl _
  | cons first rest ih =>
    refine List.Sublist.trans ?_ (ih (select chain s first))
    rw [select]
    split_ifs
    all_goals first
      | exact List.Sublist.refl _
      | exact List.sublist_append_left _ _

private theorem feasibleIl_some (clear : (ilCatalog chain block).2 = []) (demanded : Demanded chain block t)
    (fits : coinbaseWeight block + txWeight t ≤ chain.maxWeight) : feasibleIl chain block ≠ [] := by
  obtain ⟨listed, unconfirmed, valid⟩ := demanded
  obtain ⟨before, after, split⟩ := List.append_of_mem (mem_ordered.mpr listed)
  rw [feasibleIl_eq, if_neg (not_not.mpr clear), split, List.foldl_append, List.foldl_cons]
  intro empty
  have sound := (taken_start chain block).fold before
  have grown := fold_taken chain after (select chain (before.foldl (select chain) (startSelection block)) t)
  rw [empty, List.sublist_nil] at grown
  -- nothing was taken before, so that the body is free of conflicts and the weight is the coinbase's
  cases taken : (before.foldl (select chain) (startSelection block)).taken with
  | cons first rest =>
    have kept := fold_taken chain [t] (before.foldl (select chain) (startSelection block))
    rw [List.foldl_cons, List.foldl_nil, grown, taken, List.sublist_nil] at kept
    cases kept
  | nil =>
    have unused := sound.used
    have weight := sound.weight
    rw [taken] at unused weight
    rw [select, if_neg unconfirmed, if_neg (by simp [valid]), if_neg (by simp [unused])] at grown
    rw [if_neg (by simp at weight; omega)] at grown
    simp at grown

/-- A block with as many outputs that are worth nothing as a finder likes. -/
def stuffed (block : Block) (count : Nat) : Block :=
  { block with coinbaseOuts := valueOuts block ++ List.replicate count (opReturn, 0) }

private theorem valueOuts_stuffed (count : Nat) : valueOuts (stuffed block count) = valueOuts block := by
  simp [valueOuts, stuffed]

private theorem coinbaseWeight_stuffed (count : Nat) :
    coinbaseWeight (stuffed block count) = 4000 + 40 * (valueOuts block).length + 40 * count := by
  simp only [coinbaseWeight, stuffed, List.length_append, List.length_replicate]
  push_cast
  ring

private theorem valueScripts_stuffed (count : Nat) : valueScripts (stuffed block count) = valueScripts
    (stuffed block 0) := by
  simp [valueScripts, stuffed, List.filter_append]

private theorem valueOuts_length (block : Block) : (valueOuts block).length ≤ block.coinbaseOuts.length :=
  List.length_filter_le _ _

/-- **A finder moves the mandatory list with outputs that are worth nothing**: it is the same for the same
number of outputs, and the same whatever the finder adds only where nothing demanded has room beside the
outputs that carry value. A block that is accepted is within the weight unless it has no transaction and
too heavy a coinbase. -/
theorem stuffing_evicts_iff (D : Digests) (chain : Chain) :
    (∀ block other, other.attestations = block.attestations → valueOuts other = valueOuts block →
      other.coinbaseOuts.length = block.coinbaseOuts.length → feasibleIl chain other = feasibleIl chain block) ∧
    (∀ block, block.height = chain.height + 1 →
      ((∀ other, other.height = chain.height + 1 → other.attestations = block.attestations →
          valueOuts other = valueOuts block → feasibleIl chain other = feasibleIl chain block) ↔
        (ilCatalog chain block).2 ≠ [] ∨ ∀ t, Demanded chain block t →
          chain.maxWeight < 4000 + 40 * (valueOuts block).length + txWeight t)) ∧
    ∀ block enforceIl, (validate D chain block enforceIl).ok →
      (coinbaseWeight block + (block.txs.map txWeight).sum ≤ chain.maxWeight ↔
        block.txs ≠ [] ∨ coinbaseWeight block ≤ chain.maxWeight) := by
  refine ⟨fun block other same _ count => feasibleIl_congr same count,
    fun block height => ⟨fun still => ?_, ?_⟩, fun block enforceIl ok => ?_⟩
  · by_contra room
    rw [not_or, not_not] at room
    obtain ⟨clear, room⟩ := room
    push Not at room
    obtain ⟨t, demanded, fits⟩ := room
    have bare := still (stuffed block 0) height rfl (valueOuts_stuffed 0)
    have crammed := still (stuffed block chain.maxWeight.toNat) height rfl (valueOuts_stuffed _)
    have taken : feasibleIl chain (stuffed block 0) ≠ [] :=
      feasibleIl_some clear demanded (by rw [coinbaseWeight_stuffed]; omega)
    have evicted : feasibleIl chain (stuffed block chain.maxWeight.toNat) = [] := by
      refine feasibleIl_none fun other _ => ?_
      rw [coinbaseWeight_stuffed]
      have positive := txWeight_pos other
      omega
    exact taken (bare.trans (crammed.symm.trans evicted))
  · rintro full other - same values
    have empty : ∀ b : Block, b.attestations = block.attestations → valueOuts b = valueOuts block →
        feasibleIl chain b = [] := by
      intro b same values
      cases full with
      | inl conflict => rw [feasibleIl_eq, ilCatalog_congr same, if_pos conflict]
      | inr full =>
        refine feasibleIl_none fun t demanded => ?_
        have heavy := full t ⟨ilCatalog_congr same ▸ demanded.1, demanded.2⟩
        have count := valueOuts_length b
        rw [values] at count
        rw [coinbaseWeight]
        omega
    rw [empty other same values, empty block rfl rfl]
  · obtain ⟨-, -, -, fits, -⟩ := checkTxs_eq_nil.mp (checked_of_ok ok).txs
    by_cases none : block.txs = []
    · simp [none]
    · exact iff_of_true (fits none) (.inl none)

/-- A block without a transaction, whose coinbase alone is too heavy. -/
def heavyCoinbase : Block := stuffed
  { onePayment with
    powInt := 7984847323677012894, txs := [], attestations := [attestationOf [] 16590179777879282532] } 99900

private theorem heavyCoinbase_weight : funded.maxWeight < coinbaseWeight heavyCoinbase := by
  rw [heavyCoinbase, coinbaseWeight_stuffed]
  decide

private theorem heavyCoinbase_checked : Checked someDigests funded heavyCoinbase where
  height := rfl
  bits := rfl
  bound := rfl
  work := by decide
  outs := fun out member => by
    cases List.mem_append.mp member with
    | inl paid => exact List.mem_singleton.mp (show out ∈ [(alice, 50)] from paid) ▸ by decide
    | inr nothing => exact List.eq_of_mem_replicate nothing ▸ by decide
  distinct := by decide
  payees := fun s payee => by
    rw [heavyCoinbase, valueScripts_stuffed] at payee
    exact List.mem_singleton.mpr (List.mem_singleton.mp (show s ∈ [alice] from payee))
  count := by decide
  attested := by decide
  txs := rfl

theorem stuffing_evicts_payment :
    (stuffed onePayment 99900).attestations = onePayment.attestations ∧
      valueOuts (stuffed onePayment 99900) = valueOuts onePayment ∧
      feasibleIl funded onePayment = [payment] ∧ feasibleIl funded (stuffed onePayment 99900) = [] ∧
      validate someDigests funded heavyCoinbase = .accept ∧
        funded.maxWeight < coinbaseWeight heavyCoinbase := by
  refine ⟨rfl, valueOuts_stuffed _, by decide, feasibleIl_none fun t _ => ?_,
    validate_of_checked heavyCoinbase_checked (by decide) ?_, heavyCoinbase_weight⟩
  · have full : funded.maxWeight < coinbaseWeight (stuffed onePayment 99900) := heavyCoinbase_weight
    have positive := txWeight_pos t
    omega
  · rw [feasibleIl_none fun t _ => by
      have positive := txWeight_pos t
      have full := heavyCoinbase_weight
      omega]
    nofun

end Lazarus.Nta
