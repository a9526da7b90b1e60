import Lazarus.Gateway.Template

/-! What a template keeps of its transactions. The five lists are cut at one place, and the place is
known from the weights. -/

namespace Lazarus.Gateway

open Machine
open Wire (Fixed Hash Hashes)

section Cut

variable {entries : List TemplateTx} {value k : Nat}

/-- The first so many of a template's transactions. -/
def Kept.cut (entries : List TemplateTx) (value k : Nat) : Kept where
  merkle := (entries.take k).map TemplateTx.txid
  wtxids := (entries.take k).map TemplateTx.wtxid
  txHexes := (entries.take k).map TemplateTx.raw
  weights := (entries.take k).map TemplateTx.weight
  fees := (entries.take k).map TemplateTx.fee
  txWeight := asU64 ((entries.take k).map TemplateTx.weight).sum
  value := value - ((entries.drop k).map TemplateTx.fee).sum
  trimmedTxs := entries.length - k
  trimmedFees := min ((entries.drop k).map TemplateTx.fee).sum u64Max

theorem Kept.cut_all (entries : List TemplateTx) (value : Nat) :
    Kept.cut entries value entries.length = Kept.all entries value := by
  simp [Kept.cut, Kept.all]

/-- Taking off what was added last. -/
private theorem asU64_sub_add (sum w : Nat) (fits : w ≤ 2 ^ 64) : asU64
    (asU64 (sum + w) + 2 ^ 64 - w) = asU64 sum := by
  unfold asU64
  omega

/-- One step of the trimming moves the cut by one transaction, in all lists alike. -/
theorem Kept.dropTail_cut (sized : ∀ e ∈ entries, e.weight < 2 ^ 64) (more : k < entries.length) (value : Nat) :
    (Kept.cut entries value (k + 1)).dropTail = Kept.cut entries value k := by
  have last : entries.take (k + 1) = entries.take k ++ [entries[k]] := List.take_succ_eq_append_getElem more
  have first : entries.drop k = entries[k] :: entries.drop (k + 1) := List.drop_eq_getElem_cons more
  have weight := sized entries[k] (List.getElem_mem more)
  simp only [Kept.dropTail, Kept.cut, last, first, List.map_append, List.map_cons,
    List.map_nil, List.dropLast_concat, List.getLast?_concat, Option.getD_some,
    List.sum_append, List.sum_cons, List.sum_nil, Nat.add_zero]
  rw [asU64_sub_add _ _ weight.le]
  congr 1
  · omega
  · omega
  · unfold satAdd
    omega

/-- How many transactions are kept: the longest prefix whose weights, summed in 64 bits,
are within the budget. -/
def keptWithin (budget : Nat) (weights : List Nat) : Nat → Nat :=
  Nat.findGreatest fun k => asU64 (weights.take k).sum ≤ budget

/-- The trimming ends at the longest prefix that fits. -/
theorem Kept.trimTo_cut (sized : ∀ e ∈ entries, e.weight < 2 ^ 64) (budget value : Nat)
    (within : k ≤ entries.length) : Kept.trimTo budget k (Kept.cut entries value k) =
      Kept.cut entries value (keptWithin budget (entries.map TemplateTx.weight) k) := by
  induction k with
  | zero => rfl
  | succ k ih =>
    have left : (Kept.cut entries value (k + 1)).merkle ≠ [] := by
      refine List.ne_nil_of_length_pos ?_
      simp only [Kept.cut, List.length_map, List.length_take]
      omega
    have weighs : asU64 ((entries.take (k + 1)).map TemplateTx.weight).sum =
      (Kept.cut entries value (k + 1)).txWeight := rfl
    rw [Kept.trimTo, keptWithin, Nat.findGreatest_succ, ← List.map_take, weighs]
    by_cases heavy : budget < (Kept.cut entries value (k + 1)).txWeight
    · rw [if_pos ⟨heavy, left⟩, Kept.dropTail_cut sized within, ih (Nat.le_of_succ_le within),
        if_neg (Nat.not_le.mpr heavy)]
      rfl
    · rw [if_neg fun both => heavy both.1, if_pos (Nat.not_lt.mp heavy)]

end Cut

section Room

variable {entries : List TemplateTx}

/-- How many of a template's transactions a job has, from its limit and its weights. -/
def keptCount (weightlimit : Option Nat) (coinbaseReserve : Nat) (trimmable : Bool)
    (weights : List Nat) : Nat :=
  match weightlimit with
  | none => weights.length
  | some limit =>
    if trimmable then keptWithin (limit - asU64 (blockOverheadWeight + coinbaseReserve)) weights weights.length
    else weights.length

private theorem makeRoom_eq (H : Hashes) (sized : ∀ e ∈ entries, e.weight < 2 ^ 64)
    (value : Nat) (weightlimit : Option Nat) (coinbaseReserve : Nat) (wit : Option Wire.Bytes) :
    let trimmable := commitOk H wit (Kept.all entries value)
    let k := keptCount weightlimit coinbaseReserve trimmable (entries.map TemplateTx.weight)
    let room := makeRoom H weightlimit coinbaseReserve (Kept.all entries value) wit
    room.1 = Kept.cut entries value k ∧
      (k = entries.length ∧ room.2 = wit ∨
        trimmable = true ∧ room.2 = wit.map fun _ =>
          witnessCommitmentScript H ((entries.take k).map TemplateTx.wtxid)) := by
  intro trimmable k room
  have size : (entries.map TemplateTx.weight).length = entries.length := List.length_map ..
  have untouched : k = entries.length → room = (Kept.all entries value, wit) →
    room.1 = Kept.cut entries value k ∧
      (k = entries.length ∧ room.2 = wit ∨ trimmable = true ∧
        room.2 = wit.map fun _ => witnessCommitmentScript H ((entries.take k).map TemplateTx.wtxid)) := by
    intro whole same
    rw [whole, Kept.cut_all, same]
    exact ⟨rfl, .inl ⟨rfl, rfl⟩⟩
  cases weightlimit with
  | none => exact untouched size rfl
  | some limit =>
    by_cases heavy : limit - asU64 (blockOverheadWeight + coinbaseReserve) < (Kept.all entries value).txWeight
    · by_cases may : trimmable = true
      · have cut := Kept.trimTo_cut sized (limit - asU64 (blockOverheadWeight + coinbaseReserve)) value
          (le_refl entries.length)
        rw [Kept.cut_all] at cut
        have count : k = keptWithin (limit - asU64 (blockOverheadWeight + coinbaseReserve))
            (entries.map TemplateTx.weight) entries.length := by
          simp only [k, keptCount, may, if_true, size]
        have steps : (Kept.all entries value).merkle.length = entries.length := List.length_map ..
        have made : room = (Kept.cut entries value k,
            wit.map fun _ => witnessCommitmentScript H ((entries.take k).map TemplateTx.wtxid)) := by
          simp only [room, makeRoom]
          rw [if_pos ⟨heavy, may⟩, steps, cut, ← count]
          rfl
        rw [made]
        exact ⟨rfl, .inr ⟨may, rfl⟩⟩
      · refine untouched ?_ (if_neg fun both => may both.2)
        simp only [k, keptCount, may, if_neg, Bool.false_eq_true, not_false_eq_true, size]
    · refine untouched ?_ (if_neg fun both => heavy both.1)
      by_cases may : trimmable = true
      · simp only [k, keptCount, may, if_true, size, keptWithin]
        refine Nat.findGreatest_eq ?_
        rw [List.take_of_length_le size.le]
        exact Nat.not_lt.mp heavy
      · simp only [k, keptCount, may, if_neg, Bool.false_eq_true, not_false_eq_true, size]

end Room

section Build

/-- A list of which nothing is passed over. -/
private theorem map_eq_of_filterMap {α β : Type} {f : α → Option β} {items : List α}
    (all : (items.filterMap f).length = items.length) : items.map f = (items.filterMap f).map some := by
  induction items with
  | nil => rfl
  | cons item rest ih =>
    have fewer := List.length_filterMap_le f rest
    cases found : f item with
    | none =>
      rw [List.filterMap_cons_none found, List.length_cons] at all
      omega
    | some b =>
      rw [List.filterMap_cons_some found, List.length_cons, List.length_cons, Nat.add_right_cancel_iff] at all
      rw [List.map_cons, found, ih all, List.filterMap_cons_some found, List.map_cons]

private theorem readTx_weight_lt {tx : Json} {e : TemplateTx} (read : readTx tx = some e) :
    e.weight < 2 ^ 64 := by
  simp only [readTx, Option.bind_eq_bind, Option.bind_eq_some_iff, Option.pure_def, Option.some.injEq] at read
  obtain ⟨_, _, _, _, _, _, _, _, rfl⟩ := read
  exact UInt64.toNat_lt _

def Json.weightlimit (tpl : Json) : Option Nat := ((tpl.get "weightlimit").bind Json.asU64).map UInt64.toNat

def Json.commitment (tpl : Json) : Option Wire.Bytes := tpl.hexField "default_witness_commitment"

/-- A template in terms of the node's: its transactions, the value, and how many of the
transactions are kept. -/
structure Built (H : Hashes) (tpl : Json) (tag : String) (coinbaseReserve : Nat)
    (t : Template) (txs : List Json) (entries : List TemplateTx) (value : UInt64) (k : Nat) : Prop where
  listed : (tpl.get "transactions").bind Json.asArray = some txs
  found : entries = txs.filterMap readTx
  read : txs.map readTx = entries.map some
  few : entries.length + 1 ≤ 65535
  worth : (tpl.get "coinbasevalue").bind Json.asU64 = some value
  height : ((tpl.get "height").bind Json.asU64).map UInt64.toUInt32 = some t.height
  weightlimit : t.weightlimit = tpl.weightlimit
  count :
    k = keptCount tpl.weightlimit coinbaseReserve (commitOk H tpl.commitment (Kept.all entries value.toNat))
    (entries.map TemplateTx.weight)
  txids : t.txids = (entries.take k).map TemplateTx.txid
  txHexes : t.txHexes = (entries.take k).map TemplateTx.raw
  txWeight : t.txWeight = asU64 ((entries.take k).map TemplateTx.weight).sum
  remaining : t.value = value.toNat - ((entries.drop k).map TemplateTx.fee).sum
  branches : t.branches = merkleBranchesForCoinbase H t.txids
  txnCount : t.txnCount = UInt32.ofNat t.txids.length + 1
  commitment : k = entries.length ∧ t.witnessCommit = tpl.commitment ∨
    commitOk H tpl.commitment (Kept.all entries value.toNat) = true ∧
      t.witnessCommit = tpl.commitment.map fun _ =>
        witnessCommitmentScript H ((entries.take k).map TemplateTx.wtxid)
  tag : t.tag = tag

/-- Every template that is built is one of the node's, cut. -/
theorem buildTemplate_built {H : Hashes} {tpl : Json} {tag : String} {coinbaseReserve : Nat} {t : Template}
    (built : buildTemplate H tpl tag coinbaseReserve = some t) :
    ∃ txs entries value k, Built H tpl tag coinbaseReserve t txs entries value k := by
  unfold buildTemplate at built
  -- previous block and bits, each a field, a string and its digits; then the height
  obtain ⟨_, _, built⟩ := Option.bind_eq_some_iff.mp built
  obtain ⟨_, _, built⟩ := Option.bind_eq_some_iff.mp built
  obtain ⟨_, _, built⟩ := Option.bind_eq_some_iff.mp built
  obtain ⟨_, _, built⟩ := Option.bind_eq_some_iff.mp built
  obtain ⟨_, _, built⟩ := Option.bind_eq_some_iff.mp built
  obtain ⟨_, _, built⟩ := Option.bind_eq_some_iff.mp built
  obtain ⟨tallField, tallFound, built⟩ := Option.bind_eq_some_iff.mp built
  obtain ⟨tall, tallRead, built⟩ := Option.bind_eq_some_iff.mp built
  obtain ⟨worthField, worthFound, built⟩ := Option.bind_eq_some_iff.mp built
  obtain ⟨value, worthRead, built⟩ := Option.bind_eq_some_iff.mp built
  -- time and version
  obtain ⟨_, _, built⟩ := Option.bind_eq_some_iff.mp built
  obtain ⟨_, _, built⟩ := Option.bind_eq_some_iff.mp built
  obtain ⟨_, _, built⟩ := Option.bind_eq_some_iff.mp built
  obtain ⟨_, _, built⟩ := Option.bind_eq_some_iff.mp built
  obtain ⟨listField, listFound, built⟩ := Option.bind_eq_some_iff.mp built
  obtain ⟨txs, listRead, built⟩ := Option.bind_eq_some_iff.mp built
  dsimp only at built
  split at built
  · cases built
  · rename_i readable
    rw [not_or, not_not, Nat.not_lt] at readable
    obtain ⟨all, few⟩ := readable
    have read := map_eq_of_filterMap all
    have sized : ∀ e ∈ txs.filterMap readTx, e.weight < 2 ^ 64 := by
      intro e member
      obtain ⟨tx, _, found⟩ := List.mem_filterMap.mp member
      exact readTx_weight_lt found
    obtain ⟨kept, commitment⟩ := makeRoom_eq H sized value.toNat tpl.weightlimit coinbaseReserve tpl.commitment
    cases built
    refine ⟨txs, txs.filterMap readTx, value, keptCount tpl.weightlimit coinbaseReserve
      (commitOk H tpl.commitment (Kept.all (txs.filterMap readTx) value.toNat))
      ((txs.filterMap readTx).map TemplateTx.weight), ?_⟩
    exact {
      listed := Option.bind_eq_some_iff.mpr ⟨listField, listFound, listRead⟩
      found := rfl
      read
      few := all ▸ few
      worth := Option.bind_eq_some_iff.mpr ⟨worthField, worthFound, worthRead⟩
      height := by
        rw [Option.bind_eq_some_iff.mpr ⟨tallField, tallFound, tallRead⟩]
        rfl
      weightlimit := rfl
      count := rfl
      txids := congrArg Kept.merkle kept
      txHexes := congrArg Kept.txHexes kept
      txWeight := congrArg Kept.txWeight kept
      remaining := congrArg Kept.value kept
      branches := rfl
      txnCount := rfl
      commitment
      tag := rfl }

/-- Lists that are read item by item, and hold to other items one by one, do so across. -/
theorem forall₂_read {β : Type} {R : Json → β → Prop} {S : TemplateTx → β → Prop} {txs : List Json}
    {entries : List TemplateTx} {others : List β} (read : txs.map readTx = entries.map some)
    (each : List.Forall₂ R txs others) (across : ∀ tx e b, readTx tx = some e → R tx b → S e b) :
    List.Forall₂ S entries others := by
  induction each generalizing entries with
  | nil =>
    rw [List.map_nil, eq_comm, List.map_eq_nil_iff] at read
    exact read ▸ .nil
  | cons here rest ih =>
    cases entries with
    | nil => simp at read
    | cons e entries =>
      rw [List.map_cons, List.map_cons, List.cons.injEq] at read
      exact .cons (across _ _ _ read.1 here) (ih read.2)

/-- Equal in one thing item by item, equal as lists of it. -/
theorem map_eq_of_forall₂ {α β γ : Type} {f : α → γ} {g : β → γ} {R : α → β → Prop}
    {items : List α} {others : List β} (each : List.Forall₂ R items others) (same : ∀ a b, R a b → f a = g b) :
    items.map f = others.map g := by
  induction each with
  | nil => rfl
  | cons here _ ih => rw [List.map_cons, List.map_cons, same _ _ here, ih]

/-- A job that is made: what it has of its template, and that the gateway's own count is within the limit. -/
theorem coinbaseJob_eq_some {H : Hashes} {t : Template} {extra1 : Fixed 4}
    {cb : CoinbaserV2} {jobId : UInt8} {seq : Nat}
    {who : Option String} {j : Job} (made : coinbaseJob H t extra1 cb jobId seq who = some j) :
    j.tpl = t ∧ j.cb = cb ∧ j.coinb1 = coinbaseLegacy t.height t.tag (coinbaseExtra extra1) cb t.witnessCommit ∧
      j.header.merkleRoot = merkleRootSha256d H j.coinb1 t.txids ∧ j.header.txcount = t.txnCount.toUInt16 ∧
      ∀ limit, t.weightlimit = some limit → jobWeight t extra1 cb ≤ limit := by
  unfold coinbaseJob at made
  dsimp only at made
  split at made
  · cases made
  · rename_i within
    cases made
    refine ⟨rfl, rfl, rfl, rfl, rfl, ?_⟩
    intro limit limited
    rw [limited] at within
    simpa using within

/-- The block of a job is made of its coinbase and the transactions that are kept. -/
theorem assembleBlock_eq {H : Hashes} {tpl : Json} {tag : String} {extra1 : Fixed 4} {coinbaseReserve : Nat}
    {cb : CoinbaserV2} {jobId : UInt8} {seq : Nat} {who : Option String}
    {t : Template} {j : Job} {ts : List Transaction}
    {txs : List Json} {entries : List TemplateTx} {value : UInt64} {k : Nat}
    (template : Built H tpl tag coinbaseReserve t txs entries value k)
    (made : coinbaseJob H t extra1 cb jobId seq who = some j)
    (bodies : entries.map TemplateTx.raw = ts.map Transaction.full)
    (hdr : HeaderV2) :
    assembleBlock extra1 j hdr =
      Block.serialize
        ⟨hdr, coinbaseTransaction t.height tag (coinbaseExtra extra1) cb t.witnessCommit :: ts.take k⟩ := by
  obtain ⟨same, split, _⟩ := coinbaseJob_eq_some made
  have raws : t.txHexes = (ts.take k).map Transaction.full := by
    rw [template.txHexes, List.map_take, bodies, List.map_take]
  have count : (ts.take k).length = t.txHexes.length := by rw [raws, List.length_map]
  rw [assembleBlock, same, split, template.tag, coinbaseWitness_eq, Block.serialize, List.length_cons, count,
    Nat.add_comm 1, List.flatMap_cons, raws, List.flatMap_def, List.append_assoc]

end Build

end Lazarus.Gateway
