import Lazarus.Gateway.Parsed
import Lazarus.Primed.Issue
import Lazarus.Wire.Floor

/-! A split that a gateway rescales to another template value, as Prime judges the coinbase built of it. -/

namespace Lazarus.Gateway

open Machine LittleEndian Shares Tally
open Tides (Split Script)
open Primed (coinbaserOutputs)
open Wire (Bytes Output TxOut Coinbase Policy issuedValue totalTo owed cap slack minersOf issuedTo)

section Received

/-- The split a gateway has of an issued list. -/
def CoinbaserV2.ofIssued (id : UInt8) (list : List Output) : CoinbaserV2 :=
  { id, outputs := list.map fun o => { sats := o.sats, script := o.script } }

private theorem readSplit_encode {list : List Output} (fits : ∀ o ∈ list, o.Fits)
    {rounds : Nat} (few : list.length ≤ rounds) : readSplit rounds (list.flatMap Output.encode) =
      some (list.map fun o => { sats := o.sats, script := o.script }) := by
  induction list generalizing rounds with
  | nil =>
    cases rounds with
    | zero => rfl
    | succ rounds => rfl
  | cons o rest ih =>
    cases rounds with
    | zero => cases few
    | succ rounds =>
      have later :=
        ih (fun other member => fits other (List.mem_cons_of_mem o member)) (Nat.le_of_succ_le_succ few)
      obtain ⟨sats, least, most⟩ := fits o List.mem_cons_self
      unfold Wire.minScript at least
      unfold Wire.maxScript at most
      unfold u64Max at sats
      have size : (UInt8.ofNat o.script.length).toNat = o.script.length :=
        UInt8.toNat_ofNat_of_lt' (by rw [UInt8.size]; omega)
      have number : value (bytes 8 o.sats) = o.sats := by
        rw [value_bytes]
        exact Nat.mod_eq_of_lt (by omega)
      have shape : (o :: rest).flatMap Output.encode =
          bytes 8 o.sats ++ (UInt8.ofNat o.script.length :: (o.script ++ rest.flatMap Output.encode)) := by
        simp [Output.encode]
      have length : (bytes 8 o.sats).length = 8 := length_bytes 8 o.sats
      generalize bytes 8 o.sats = amount at number shape length
      have at8 : ((o :: rest).flatMap Output.encode).getD 8 0 = UInt8.ofNat o.script.length := by
        rw [shape, List.getD_append_right _ _ _ _ (by omega), length]
        rfl
      have first : ((o :: rest).flatMap Output.encode).take 8 = amount := by
        rw [shape]
        exact List.take_left' length
      have behind : ((o :: rest).flatMap Output.encode).drop 9 = o.script ++ rest.flatMap Output.encode := by
        rw [shape, ← List.drop_drop (i := 1) (j := 8), List.drop_left' length]
        rfl
      have long : ((o :: rest).flatMap Output.encode).length =
          9 + o.script.length + (rest.flatMap Output.encode).length := by
        rw [shape]
        simp only [List.length_append, List.length_cons, length]
        omega
      rw [readSplit, at8, size, first, number, long, if_neg (by omega)]
      simp only
      rw [if_neg (by omega), ← List.drop_drop, behind, List.drop_left, List.take_left, later]
      rfl

/-- A list that a reply can carry comes to a gateway whole. -/
theorem parseCoinbaserV2_encodeV2 (id : UInt8) {list : List Output} (fits : ∀ o ∈ list, o.Fits)
    (few : list.length ≤ Wire.maxOutputs) :
    parseCoinbaserV2 (Wire.encodeV2 id list) = some (.ofIssued id list) := by
  have read : readSplit 512 (list.flatMap Output.encode) = _ := readSplit_encode fits few
  rw [Wire.encodeV2, List.take_of_length_le few, parseCoinbaserV2, read]
  rfl

end Received

section Amounts

variable {total newValue sats : Nat}

private theorem owed_le_share (positive : 0 < total) (newValue sats : Nat) :
    owed total newValue sats ≤ share newValue sats total := by
  unfold owed
  split
  · rename_i whole
    have more : total ≤ newValue := whole.resolve_left positive.ne'
    rw [share, Nat.le_div_iff_mul_le positive, Nat.mul_comm]
    exact Nat.mul_le_mul_right sats more
  · rw [share, Nat.mul_comm newValue]
    exact asU64_le

private theorem share_le_cap (within : sats ≤ total) (top : newValue ≤ u64Max) :
    share newValue sats total ≤ cap total newValue sats := by
  unfold cap
  split
  · rename_i whole
    rcases whole with none | less
    · rw [share, none, Nat.div_zero]
      exact Nat.zero_le _
    · rw [share, Nat.mul_comm]
      rcases Nat.eq_zero_or_pos total with none | positive
      · rw [none, Nat.div_zero]
        exact Nat.zero_le _
      · exact Nat.div_le_of_le_mul ((Nat.mul_le_mul_left sats less).trans_eq (Nat.mul_comm sats total))
  · rw [asU64_eq ((Wire.scaled_le within).trans top), share, Nat.mul_comm]

private theorem tally_share_le (outputs : List CoinbaserOutput) (script : Bytes) (amount whole : Nat) :
    tally script (outputs.map fun o => (o.script, share amount o.sats whole)) ≤
      share amount (tally script (outputs.map fun o => (o.script, o.sats))) whole := by
  induction outputs with
  | nil => exact Nat.zero_le _
  | cons o rest ih =>
    simp only [List.map_cons, tally_cons]
    split
    · exact (Nat.add_le_add_left ih _).trans (share_add_le amount o.sats _ whole)
    · rw [Nat.zero_add, Nat.zero_add]
      exact ih

private theorem le_tally {outputs : List CoinbaserOutput} {o : CoinbaserOutput} (member : o ∈ outputs) :
    o.sats ≤ tally o.script (outputs.map fun o => (o.script, o.sats)) := by
  rw [← Wire.sum_filter_script]
  exact List.le_sum_of_mem (List.mem_map.mpr ⟨o, List.mem_filter.mpr ⟨member, by simp⟩, rfl⟩)

private theorem tally_le_sats (outputs : List CoinbaserOutput) (script : Bytes) :
    tally script (outputs.map fun o => (o.script, o.sats)) ≤ (outputs.map CoinbaserOutput.sats).sum := by
  rw [← Wire.sum_filter_script]
  exact (List.filter_sublist.map CoinbaserOutput.sats).sum_le_sum fun _ _ => Nat.zero_le _

variable {cb : CoinbaserV2}

private theorem scaleTo_shares (sum : (cb.outputs.map CoinbaserOutput.sats).sum = total) (positive : 0 < total)
    (fits : total ≤ u64Max) (top : newValue ≤ u64Max) :
    ∃ init last rest, cb.outputs = init ++ [last] ∧ rest < cb.outputs.length ∧
      (cb.scaleTo newValue).outputs = (init.map fun o => ⟨share newValue o.sats total, o.script⟩) ++
        [⟨share newValue last.sats total + rest, last.script⟩] := by
  have some : cb.outputs ≠ [] := by
    intro none
    rw [none] at sum
    exact positive.ne sum
  have count : 0 < cb.outputs.length := List.length_pos_iff.mpr some
  have split : cb.outputs = cb.outputs.dropLast ++ [cb.outputs.getLast some] :=
    (List.dropLast_append_getLast some).symm
  refine ⟨cb.outputs.dropLast, cb.outputs.getLast some, ?_⟩
  by_cases changed : total = newValue
  · have whole : ∀ sats, share newValue sats total = sats := by
      intro sats
      rw [share, ← changed, Nat.mul_div_cancel_left _ positive]
    have old : cb.valueSum = newValue := ((valueSum_eq (sum.trans_le fits)).trans sum).trans changed
    refine ⟨0, split, count, ?_⟩
    simp only [whole, Nat.add_zero]
    rw [CoinbaserV2.scaleTo, if_pos (.inr (.inl old)), List.map_id'' fun _ => rfl]
    exact split
  · obtain ⟨last, found, scaled⟩ := scaleTo_eq sum positive fits changed top
    obtain rfl : cb.outputs.getLast some = last :=
      Option.some.inj ((List.getLast?_eq_some_getLast some).symm.trans found)
    have lost : newValue < ((cb.outputs.map CoinbaserOutput.sats).map fun part =>
        share newValue part (cb.outputs.map CoinbaserOutput.sats).sum).sum +
          (cb.outputs.map CoinbaserOutput.sats).length := lt_sum_share newValue (sum ▸ positive)
    have within :
      ((cb.outputs.map CoinbaserOutput.sats).map fun part => share newValue part total).sum ≤ newValue :=
      sum_share_le_amount newValue sum.le
    have parted : ((cb.outputs.map CoinbaserOutput.sats).map fun part => share newValue part total).sum =
        (cb.outputs.dropLast.map fun o => share newValue o.sats total).sum +
          share newValue (cb.outputs.getLast some).sats total := by
      conv_lhs => rw [split]
      simp [Function.comp_def]
    rw [sum, List.length_map] at lost
    refine ⟨newValue - (cb.outputs.dropLast.map fun o => share newValue o.sats total).sum -
      share newValue (cb.outputs.getLast some).sats total, split, by omega, ?_⟩
    rw [scaled]
    congr 3
    omega

private theorem tally_scaleTo_le (sum : (cb.outputs.map CoinbaserOutput.sats).sum = total)
    (positive : 0 < total) (fits : total ≤ u64Max) (top : newValue ≤ u64Max) (script : Bytes) :
    tally script ((cb.scaleTo newValue).outputs.map fun o => (o.script, o.sats)) ≤
      share newValue (tally script (cb.outputs.map fun o => (o.script, o.sats))) total + cb.outputs.length := by
  obtain ⟨init, last, rest, split, few, scaled⟩ := scaleTo_shares sum positive fits top
  have shares := tally_share_le cb.outputs script newValue total
  rw [split, List.map_append, List.map_append, tally_append, tally_append] at shares
  rw [scaled, split, List.map_append, List.map_append, List.map_map, tally_append, tally_append]
  rw [split] at few
  simp only [List.map_cons, List.map_nil, tally_cons, tally_nil, Function.comp_def] at shares ⊢
  by_cases own : last.script = script
  · rw [if_pos own, if_pos own] at shares
    rw [if_pos own, if_pos own]
    omega
  · rw [if_neg own, if_neg own] at shares
    rw [if_neg own, if_neg own]
    omega

private theorem share_le_scaleTo (sum : (cb.outputs.map CoinbaserOutput.sats).sum = total)
    (positive : 0 < total) (fits : total ≤ u64Max) (top : newValue ≤ u64Max)
    {o : CoinbaserOutput} (member : o ∈ cb.outputs) :
    ∃ o' ∈ (cb.scaleTo newValue).outputs, o'.script = o.script ∧ share newValue o.sats total ≤ o'.sats := by
  obtain ⟨init, last, rest, split, _, scaled⟩ := scaleTo_shares sum positive fits top
  rw [split] at member
  rw [scaled]
  rcases List.mem_append.mp member with early | late
  · exact ⟨_, List.mem_append_left _ (List.mem_map_of_mem early), rfl, Nat.le_refl _⟩
  · obtain rfl := List.mem_singleton.mp late
    exact ⟨_, List.mem_append_right _ (List.mem_singleton_self _), rfl, Nat.le_add_right _ _⟩

end Amounts

section Judged

variable {height : UInt32} {tag : String} {extra : Bytes} {cb : CoinbaserV2} {wit : Option Bytes}

/-- A witness commitment: a null-data script that Prime's parse has room for. -/
def WitnessCommitment (wit : Bytes) : Prop := wit.head? = some 0x6a ∧ wit.length ≤ 10000

private theorem sum_parsedLegacy : ((parsedLegacy height tag extra cb wit).outputs.map TxOut.value).sum =
    (cb.outputs.map CoinbaserOutput.sats).sum := by
  simp only [parsedLegacy, coinbaseOuts, List.map_append, List.map_map, List.sum_append, Function.comp_def,
    CoinbaserOutput.toTxOut]
  cases wit with
  | none => simp
  | some script => simp

private theorem paidTo_parsedLegacy (fits : (cb.outputs.map CoinbaserOutput.sats).sum ≤ u64Max)
    (script : Bytes) : (parsedLegacy height tag extra cb wit).paidTo script =
    tally script (cb.outputs.map fun o => (o.script, o.sats)) := by
  have within : (parsedLegacy height tag extra cb wit).Fits := sum_parsedLegacy.trans_le fits
  rw [Coinbase.paidTo_eq within, Coinbase.entries]
  simp only [parsedLegacy, coinbaseOuts, List.map_append, List.map_map, tally_append, Function.comp_def,
    CoinbaserOutput.toTxOut]
  cases wit with
  | none => simp
  | some commitment => simp

variable {list : List Output} {id : UInt8} {newValue : Nat}

private theorem sum_ofIssued (id : UInt8) (list : List Output) :
    ((CoinbaserV2.ofIssued id list).outputs.map CoinbaserOutput.sats).sum = issuedValue list := by
  rw [CoinbaserV2.ofIssued, List.map_map]
  rfl

private theorem tally_ofIssued (id : UInt8) (list : List Output) (script : Bytes) :
    tally script ((CoinbaserV2.ofIssued id list).outputs.map fun o => (o.script, o.sats)) =
      totalTo list script := by
  rw [CoinbaserV2.ofIssued, List.map_map]
  rfl

private theorem scripts_ofIssued (id : UInt8) (list : List Output) :
    (CoinbaserV2.ofIssued id list).outputs.map CoinbaserOutput.script = list.map Output.script := by
  rw [CoinbaserV2.ofIssued, List.map_map]
  rfl

private theorem mem_scaleTo_script {o : CoinbaserOutput}
    (member : o ∈ ((CoinbaserV2.ofIssued id list).scaleTo newValue).outputs) :
    o.script ∈ list.map Output.script := by
  rw [← scripts_ofIssued id list, ← scaleTo_scripts _ newValue]
  exact List.mem_map_of_mem member

private theorem issuedValue_pos (nonempty : list ≠ []) (positive : ∀ o ∈ list, 0 < o.sats) :
    0 < issuedValue list := by
  obtain ⟨o, rest, shape⟩ := List.exists_cons_of_ne_nil nonempty
  have here := positive o (shape ▸ List.mem_cons_self)
  rw [issuedValue, shape, List.map_cons, List.sum_cons]
  omega

private theorem classify_rescaled (nonempty : list ≠ []) (positive : ∀ o ∈ list, 0 < o.sats)
    (spendable : ∀ o ∈ list, o.script.head? ≠ some 0x6a) (fits : issuedValue list ≤ u64Max)
    (top : newValue ≤ u64Max)
    (each : ∀ o ∈ ((CoinbaserV2.ofIssued id list).scaleTo newValue).outputs, 0 < o.sats)
    (committed : ∀ script ∈ wit, WitnessCommitment script) {p : Policy} (held : p.issued = some list)
    (subsidyOnly merkleEmpty : Bool) (jobTxnCount : Nat) :
    Wire.classifyCoinbase
      (parsedLegacy height tag extra ((CoinbaserV2.ofIssued id list).scaleTo newValue) wit) p
      subsidyOnly jobTxnCount merkleEmpty = .split := by
  let cb := CoinbaserV2.ofIssued id list
  have sum : (cb.outputs.map CoinbaserOutput.sats).sum = issuedValue list := sum_ofIssued id list
  have some : 0 < issuedValue list := issuedValue_pos nonempty positive
  have total : ((cb.scaleTo newValue).outputs.map CoinbaserOutput.sats).sum = newValue :=
    sum_scaleTo (sum.symm ▸ some) (sum.trans_le fits) top
  have value : (parsedLegacy height tag extra (cb.scaleTo newValue) wit).totalOutputValue = newValue := by
    have within : (parsedLegacy height tag extra (cb.scaleTo newValue) wit).Fits :=
      (sum_parsedLegacy.trans total).trans_le top
    rw [Coinbase.totalOutputValue_eq within, sum_parsedLegacy, total]
  have plain : ∀ o ∈ (cb.scaleTo newValue).outputs, o.toTxOut.isOpReturn = false := by
    intro o member
    obtain ⟨i, listed, same⟩ := List.mem_map.mp (mem_scaleTo_script member)
    have other := spendable i listed
    rw [same] at other
    simpa [TxOut.isOpReturn, CoinbaserOutput.toTxOut] using other
  apply Wire.classifyCoinbase_split held
  · intro o member
    obtain ⟨source, present, rfl⟩ := List.mem_map.mp member
    rcases List.mem_append.mp present with paying | last
    · exact .inr ⟨plain source paying, .inr (mem_scaleTo_script paying)⟩
    · obtain ⟨script, commitment, rfl⟩ := List.mem_map.mp last
      obtain ⟨null, _⟩ := committed script (Option.mem_toList.mp commitment)
      exact .inl ⟨by simp [TxOut.isOpReturn, CoinbaserOutput.toTxOut, null], rfl⟩
  · intro i miner
    obtain ⟨present, other⟩ := List.mem_filter.mp miner
    have listed : (⟨i.sats, i.script⟩ : CoinbaserOutput) ∈ cb.outputs := List.mem_map.mpr ⟨i, present, rfl⟩
    obtain ⟨o, paying, script, least⟩ := share_le_scaleTo sum some fits top listed
    have most := tally_scaleTo_le sum some fits top i.script
    have count : cb.outputs.length = list.length := List.length_map _
    have here := le_tally paying
    have least' : 0 < o.sats := each o paying
    have part := Wire.totalTo_le list i.script
    have ceiling := share_le_cap part top
    rw [script] at here
    rw [tally_ofIssued, count] at most
    have whole := (tally_le_sats (cb.scaleTo newValue).outputs i.script).trans_eq total
    have owes := owed_le_share some newValue i.sats
    rw [paidTo_parsedLegacy (total.trans_le top), value, Wire.issuedTo_eq (by simpa using other) fits]
    generalize tally i.script ((cb.scaleTo newValue).outputs.map fun o => (o.script, o.sats)) =
      paid at most here whole ⊢
    refine ⟨by omega, ?_, (owes.trans (least.trans here)).trans (le_satAdd_left (by omega))⟩
    unfold slack satAdd
    omega
  · by_cases miners : minersOf p.poolScript list = []
    · right
      obtain ⟨i, rest, shape⟩ := List.exists_cons_of_ne_nil nonempty
      have present : i ∈ list := shape ▸ List.mem_cons_self
      have pool : i.script = p.poolScript := by simpa using List.filter_eq_nil_iff.mp miners i present
      have listed : (⟨i.sats, i.script⟩ : CoinbaserOutput) ∈ cb.outputs := List.mem_map.mpr ⟨i, present, rfl⟩
      obtain ⟨o, paying, script, _⟩ := share_le_scaleTo sum some fits top listed
      exact ⟨o.toTxOut, List.mem_map_of_mem (List.mem_append_left _ paying), plain o paying, script.trans pool⟩
    · exact .inl miners

end Judged

/-- A split that is rescaled is still a split to Prime. Of a list that was issued, within what a reply carries
and what Prime's parse has room for, every template value that leaves each output a sat gives outputs that sum
to it, with the list's scripts in their order; the coinbase built of them is parsed to its height, those outputs
and the commitment; and it is called a split by every policy that holds the list. -/
theorem rescaled_is_split (s : Split) (poolScript : Script) (id : UInt8) (newValue : Nat) (height : UInt32)
    (tag : String) (extra : Bytes) (wit : Option Bytes) (two : 2 ≤ (coinbaserOutputs s poolScript).length)
    (positive : ∀ o ∈ coinbaserOutputs s poolScript, 0 < o.sats)
    (spendable : ∀ o ∈ coinbaserOutputs s poolScript, o.script.head? ≠ some 0x6a)
    (small : issuedValue (coinbaserOutputs s poolScript) < 2 ^ 63)
    (few : (coinbaserOutputs s poolScript).length < 10000)
    (room : ∀ o ∈ coinbaserOutputs s poolScript, o.script.length ≤ 10000) (top : newValue ≤ u64Max)
    (each : ∀ o ∈ ((CoinbaserV2.ofIssued id (coinbaserOutputs s poolScript)).scaleTo newValue).outputs,
      0 < o.sats)
    (low : height.toNat < 2 ^ 24) (short : (scriptsig height tag extra).length ≤ 100)
    (committed : ∀ script ∈ wit, WitnessCommitment script) :
    let cb := CoinbaserV2.ofIssued id (coinbaserOutputs s poolScript)
    let scaled := cb.scaleTo newValue
    ((∀ o ∈ coinbaserOutputs s poolScript, o.Fits) → (coinbaserOutputs s poolScript).length ≤ Wire.maxOutputs →
        parseCoinbaserV2 (Wire.encodeV2 id (coinbaserOutputs s poolScript)) = some cb) ∧
      (scaled.outputs.map CoinbaserOutput.sats).sum = newValue ∧
      scaled.outputs.map CoinbaserOutput.script = (coinbaserOutputs s poolScript).map Output.script ∧
      ∃ coinbase, Wire.parse (coinbaseLegacy height tag extra scaled wit) = .ok coinbase ∧
        coinbase.height = some height ∧
        coinbase.outputs = scaled.outputs.map (fun o => { value := o.sats, script := o.script }) ++
          wit.toList.map (fun script => { value := 0, script }) ∧
        ∀ p : Policy, p.issued = some (coinbaserOutputs s poolScript) → ∀ subsidyOnly jobTxnCount merkleEmpty,
          Wire.classifyCoinbase coinbase p subsidyOnly jobTxnCount merkleEmpty = .split := by
  generalize coinbaserOutputs s poolScript = list at *
  intro cb scaled
  have fits : issuedValue list ≤ u64Max := by
    unfold u64Max
    omega
  have nonempty : list ≠ [] := List.ne_nil_of_length_pos (by omega)
  have sum : (cb.outputs.map CoinbaserOutput.sats).sum = issuedValue list := sum_ofIssued id list
  have some : 0 < issuedValue list := issuedValue_pos nonempty positive
  have total : (scaled.outputs.map CoinbaserOutput.sats).sum = newValue :=
    sum_scaleTo (sum.symm ▸ some) (sum.trans_le fits) top
  have scripts : scaled.outputs.map CoinbaserOutput.script = list.map Output.script :=
    (scaleTo_scripts cb newValue).trans (scripts_ofIssued id list)
  have length : scaled.outputs.length = list.length := by
    have same := congrArg List.length scripts
    rwa [List.length_map, List.length_map] at same
  have readable : ∀ o ∈ coinbaseOuts scaled wit, o.Readable := by
    intro o member
    rcases List.mem_append.mp member with paying | last
    · obtain ⟨i, listed, same⟩ := List.mem_map.mp (mem_scaleTo_script paying)
      have part : o.sats ≤ newValue := total ▸ List.le_sum_of_mem (List.mem_map_of_mem paying)
      exact ⟨part.trans top, same ▸ room i listed⟩
    · obtain ⟨script, commitment, rfl⟩ := List.mem_map.mp last
      exact ⟨Nat.zero_le _, (committed script (Option.mem_toList.mp commitment)).2⟩
  have count : (coinbaseOuts scaled wit).length ≤ 10000 := by
    have one : wit.toList.length ≤ 1 := by cases wit <;> simp
    rw [coinbaseOuts, List.length_append, List.length_map]
    omega
  have parsed := parse_coinbaseLegacy height tag extra scaled wit short
    (List.append_ne_nil_of_left_ne_nil (List.ne_nil_of_length_pos (by omega)) _) count readable
  refine ⟨fun carried within => parseCoinbaserV2_encodeV2 id carried within, total, scripts, _, parsed,
    bip34Height_scriptsig low tag extra, ?_, ?_⟩
  · simp only [parsedLegacy, coinbaseOuts, List.map_append, List.map_map]
    rfl
  · intro p held subsidyOnly jobTxnCount merkleEmpty
    exact classify_rescaled nonempty positive spendable fits top each committed
      held subsidyOnly merkleEmpty jobTxnCount

/-- Two payees of one script and the pool, with a template that lost some of its fees. -/
theorem rescaled_is_split_shared :
    let payee (sats : Nat) : Tides.Payee :=
      { identity := "", work := 0, sats, carry := 0, script := [0x51, 0x01] }
    let s : Split :=
      { value := 1100, feeSats := 100, totalWork := 0, payees := [payee 700, payee 300],
        unpaid := [], poolSats := 100
        carryPaid := 0, rebateCredits := [], rebateSats := 0, rebateOwedCredited := 0, rebateDeferred := 0 }
    let scaled := (CoinbaserV2.ofIssued 3 (coinbaserOutputs s [0x51, 0x02])).scaleTo 777
    scaled.outputs.map CoinbaserOutput.sats = [494, 211, 72] ∧
      ∃ coinbase,
        Wire.parse (coinbaseLegacy 962049 "Lazarus" (List.replicate 12 1) scaled (some [0x6a, 0x24])) =
          .ok coinbase ∧ coinbase.height = some 962049 ∧
        ∀ p : Policy, p.issued = some (coinbaserOutputs s [0x51, 0x02]) → ∀ subsidyOnly jobTxnCount merkleEmpty,
          Wire.classifyCoinbase coinbase p subsidyOnly jobTxnCount merkleEmpty = .split := by
  intro payee s scaled
  refine ⟨by decide, ?_⟩
  obtain ⟨_, _, _, coinbase, parsed, height, _, split⟩ := rescaled_is_split s [0x51, 0x02] 3 777 962049
    "Lazarus" (List.replicate 12 1) (some [0x6a, 0x24]) (by decide) (by decide)
      (by decide) (by decide) (by decide)
    (by decide) (by decide) (by decide) (by decide) (by decide) (by rintro script ⟨⟩; exact ⟨rfl, by decide⟩)
  exact ⟨coinbase, parsed, height, split⟩

end Lazarus.Gateway
