import Lazarus.Wire.Remainder

/-! What a split pays the scripts of its list. Each entry is held to its own amount, so a script that
is listed more than once may be paid for less than its total; how much less is the tolerances' to say. -/

namespace Lazarus.Wire

open Machine Tally

section Floor

/-- The largest amount a list issues to a script in one output. -/
def heaviest (iss : List Output) (script : Bytes) : Nat :=
  ((iss.filter fun i => i.script == script).map Output.sats).foldl max 0

/-- No script is issued more in all than its outputs' tolerances cover beyond its largest output. -/
def Policy.Floored (p : Policy) : Prop :=
  ∀ script ∈ p.minerScripts, totalTo p.list script ≤
    (p.list.filter fun i => i.script == script).length * p.tolerance +
      max (heaviest p.list script - p.tolerance) 1

instance (p : Policy) : Decidable p.Floored := inferInstanceAs (Decidable (∀ script ∈ p.minerScripts, _))

private theorem foldl_max_mem (amounts : List Nat) (start : Nat) :
    amounts.foldl max start = start ∨ amounts.foldl max start ∈ amounts := by
  induction amounts generalizing start with
  | nil => exact .inl rfl
  | cons amount rest ih =>
    rw [List.foldl_cons]
    rcases ih (max start amount) with same | later
    · rw [same]
      rcases Nat.le_total start amount with up | down
      · rw [Nat.max_eq_right up]
        simp
      · rw [Nat.max_eq_left down]
        simp
    · simp [later]

private theorem le_foldl_max {amounts : List Nat} (start : Nat) (member : amount ∈ amounts ∨ amount ≤ start) :
    amount ≤ amounts.foldl max start := by
  induction amounts generalizing start with
  | nil => exact member.resolve_left (by simp)
  | cons first rest ih =>
    rw [List.foldl_cons]
    apply ih
    rcases member with listed | low
    · rcases List.mem_cons.mp listed with rfl | later
      · exact .inr (Nat.le_max_right _ _)
      · exact .inl later
    · exact .inr (Nat.le_trans low (Nat.le_max_left _ _))

private theorem sats_le_heaviest {iss : List Output} {i : Output} (member : i ∈ iss) :
    i.sats ≤ heaviest iss i.script :=
  le_foldl_max 0 (.inl (List.mem_map.mpr ⟨i, List.mem_filter.mpr ⟨member, by simp⟩, rfl⟩))

private theorem exists_heaviest {iss : List Output} {script : Bytes} (listed : script ∈ iss.map Output.script) :
    ∃ i ∈ iss, i.script = script ∧ i.sats = heaviest iss script := by
  rcases foldl_max_mem ((iss.filter fun i => i.script == script).map Output.sats) 0 with none | found
  · obtain ⟨i, member, rfl⟩ := List.mem_map.mp listed
    have low := sats_le_heaviest member
    refine ⟨i, member, rfl, ?_⟩
    rw [heaviest, none] at low ⊢
    omega
  · obtain ⟨i, member, same⟩ := List.mem_map.mp found
    obtain ⟨present, script⟩ := List.mem_filter.mp member
    exact ⟨i, present, by simpa using script, same⟩

private theorem sats_le_totalTo {iss : List Output} {i : Output} (member : i ∈ iss) :
    i.sats ≤ totalTo iss i.script := by
  rw [totalTo, ← sum_filter_script]
  exact List.le_sum_of_mem (List.mem_map.mpr ⟨i, List.mem_filter.mpr ⟨member, by simp⟩, rfl⟩)

/-- A script listed twice is issued more in all than in its largest output. -/
theorem heaviest_lt {iss : List Output} {script : Bytes} (positive : ∀ i ∈ iss, 0 < i.sats)
    (twice : 2 ≤ (iss.map Output.script).count script) : max (heaviest iss script) 1 < totalTo iss script := by
  have listed : script ∈ iss.map Output.script := List.count_pos_iff.mp (Nat.lt_of_lt_of_le (by decide) twice)
  obtain ⟨i, present, same, largest⟩ := exists_heaviest listed
  have counted : (iss.filter fun j => j.script == script).length = (iss.map Output.script).count script := by
    rw [List.count, List.countP_map, List.countP_eq_length_filter]
    rfl
  have own : i ∈ iss.filter fun j => j.script == script := List.mem_filter.mpr ⟨present, by simp [same]⟩
  have parted := List.sum_map_erase Output.sats own
  have left : 0 < ((iss.filter fun j => j.script == script).erase i).length := by
    rw [List.length_erase_of_mem own, counted]
    omega
  obtain ⟨j, other⟩ := List.exists_mem_of_length_pos left
  have more : j.sats ≤ (((iss.filter fun j => j.script == script).erase i).map Output.sats).sum :=
    List.le_sum_of_mem (List.mem_map_of_mem other)
  have some := positive j (List.mem_of_mem_filter (List.mem_of_mem_erase other))
  have first := positive i present
  rw [totalTo, ← sum_filter_script, ← largest]
  omega

/-- A payment that covers the largest output covers the total, where the tolerances make up the
difference. -/
private theorem owed_total_le {total actual count tolerance issued largest paid : Nat} (fits : actual ≤ u64Max)
    (part : issued ≤ total) (some : 1 ≤ count) (least : largest ≤ issued) (placed : 1 ≤ paid)
    (covered : owed total actual largest ≤ paid + tolerance)
    (floored : issued ≤ count * tolerance + max (largest - tolerance) 1) :
    owed total actual issued ≤ paid + count * tolerance := by
  unfold owed at covered ⊢
  split at covered
  · rename_i whole
    rw [if_pos whole]
    omega
  · rename_i scaled
    rw [if_neg scaled]
    rw [asU64_eq (Nat.le_trans (scaled_le (Nat.le_trans least part)) fits)] at covered
    rw [asU64_eq (Nat.le_trans (scaled_le part) fits)]
    have positive : 0 < total := by omega
    have low : actual ≤ total := by omega
    obtain ⟨others, rfl⟩ : ∃ others, count = others + 1 := ⟨count - 1, by omega⟩
    rcases Nat.lt_or_ge tolerance largest with beyond | within
    · have split : issued ≤ others * tolerance + largest := by
        rw [Nat.add_mul] at floored
        omega
      have scaledSplit : issued * actual / total ≤ others * tolerance + largest * actual / total := by
        calc issued * actual / total
            ≤ (others * tolerance * total + largest * actual) / total := by
              apply Nat.div_le_div_right
              calc issued * actual ≤ (others * tolerance + largest) * actual := Nat.mul_le_mul_right _ split
                _ = others * tolerance * actual + largest * actual := Nat.add_mul _ _ _
                _ ≤ others * tolerance * total + largest * actual :=
                    Nat.add_le_add_right (Nat.mul_le_mul_left _ low) _
          _ = others * tolerance + largest * actual / total := by
              rw [Nat.add_comm, Nat.add_mul_div_right _ _ positive, Nat.add_comm]
      rw [Nat.add_mul]
      omega
    · have small : issued * actual / total ≤ issued := Shares.share_le issued low
      omega

private theorem split_pays_in_full {p : Policy} {cb : Coinbase} {subsidyOnly merkleEmpty : Bool}
    {jobTxnCount : Nat} (floored : p.Floored) (fits : cb.Fits)
    (split : classifyCoinbase cb p subsidyOnly jobTxnCount merkleEmpty = .split) : p.PaysInFull cb := by
  have credited : (classifyCoinbase cb p subsidyOnly jobTxnCount merkleEmpty).credited = true := by
    rw [split]; rfl
  have actual := cb.totalOutputValue_le fits
  obtain ⟨s, through, none, ⟨only, _⟩ | ⟨iss, placed, placing⟩⟩ := classifyCoinbase_credited credited
  · rw [split] at only
    cases only
  · have list : p.list = iss := by simp [Policy.list, placing.held]
    have counts := counted placing.counted
    intro script member
    obtain ⟨other, listed⟩ := mem_minerScripts.mp member
    obtain ⟨i, present, rfl, largest⟩ := exists_heaviest listed
    have miner : i ∈ minersOf p.poolScript iss := List.mem_filter.mpr ⟨list ▸ present, by simpa using other⟩
    have paid := counts.all (placing.all split) i miner
    have covered := counts.full placing.full i miner paid
    rw [← list] at covered
    have one : 1 ≤ (p.list.filter fun j => j.script == i.script).length :=
      List.length_pos_of_mem (List.mem_filter.mpr ⟨present, by simp⟩)
    have floor := floored i.script member
    rw [← largest] at floor
    exact owed_total_le actual (totalTo_le p.list i.script) one (sats_le_totalTo present) paid covered floor

end Floor

section Thin

/-- A list that a coinbase can pay: amounts for every miner that add up within their type, and no
script that burns what it is paid. -/
structure Policy.Payable (p : Policy) : Prop where
  spendable : ∀ script ∈ p.poolScript :: p.list.map Output.script, script.head? ≠ some 0x6a
  positive : ∀ i ∈ p.list, 0 < i.sats
  fits : issuedValue p.list ≤ u64Max

variable {p : Policy}

/-- The least a split pays one script, and what it issues to the others. -/
def thinAmount (p : Policy) (short script : Bytes) : Nat :=
  if script = short then max (heaviest p.list short - p.tolerance) 1 else totalTo p.list script

/-- A coinbase that pays one script no more than its largest output asks for, the others in full, and
the pool the rest. -/
def thinCoinbase (p : Policy) (short : Bytes) : Coinbase where
  outputs := (p.minerScripts.dedup.map fun script => ⟨thinAmount p short script, script⟩) ++
    [⟨issuedValue p.list - (p.minerScripts.dedup.map (thinAmount p short)).sum, p.poolScript⟩]

private theorem totalTo_pos (payable : p.Payable) {script : Bytes} (member : script ∈ p.minerScripts) :
    0 < totalTo p.list script := by
  obtain ⟨_, listed⟩ := mem_minerScripts.mp member
  obtain ⟨i, present, rfl⟩ := List.mem_map.mp listed
  exact Nat.lt_of_lt_of_le (payable.positive i present) (sats_le_totalTo present)

private theorem heaviest_le (iss : List Output) (script : Bytes) :
    heaviest iss script ≤ totalTo iss script := by
  rcases foldl_max_mem ((iss.filter fun i => i.script == script).map Output.sats) 0 with none | found
  · rw [heaviest, none]
    exact Nat.zero_le _
  · rw [totalTo, ← sum_filter_script]
    exact List.le_sum_of_mem found

theorem thinAmount_le (payable : p.Payable) (short : Bytes) {script : Bytes}
    (member : script ∈ p.minerScripts) : thinAmount p short script ≤ totalTo p.list script := by
  unfold thinAmount
  split
  · rename_i same
    have some := totalTo_pos payable member
    have most := heaviest_le p.list script
    rw [← same]
    omega
  · exact Nat.le_refl _

private theorem thinAmount_pos (payable : p.Payable) (short : Bytes) {script : Bytes}
    (member : script ∈ p.minerScripts) : 0 < thinAmount p short script := by
  unfold thinAmount
  split
  · omega
  · exact totalTo_pos payable member

private theorem sum_totalTo_le (p : Policy) :
    (p.minerScripts.dedup.map (totalTo p.list)).sum ≤ issuedValue p.list := by
  have distinct : (p.poolScript :: p.minerScripts.dedup).Nodup := by
    refine List.nodup_cons.mpr ⟨?_, List.nodup_dedup _⟩
    intro member
    exact (mem_minerScripts.mp (List.mem_dedup.mp member)).1 rfl
  have whole := sum_tally (p.poolScript :: p.minerScripts.dedup) distinct
    (p.list.map fun i => (i.script, i.sats)) (by
      intro entry member
      obtain ⟨i, present, rfl⟩ := List.mem_map.mp member
      by_cases pool : i.script = p.poolScript
      · simp [pool]
      · have miner := mem_minerScripts.mpr ⟨pool, List.mem_map.mpr ⟨i, present, rfl⟩⟩
        simp [miner])
  rw [List.map_cons, List.sum_cons, List.map_map] at whole
  have values : (p.list.map (Prod.snd ∘ fun i => (i.script, i.sats))).sum = issuedValue p.list := rfl
  rw [← values, ← whole]
  exact Nat.le_add_left _ _

private theorem sum_thinAmount_le (payable : p.Payable) (short : Bytes) :
    (p.minerScripts.dedup.map (thinAmount p short)).sum ≤ issuedValue p.list :=
  Nat.le_trans (List.sum_le_sum fun _ member => thinAmount_le payable short (List.mem_dedup.mp member))
    (sum_totalTo_le p)

private theorem sum_thinCoinbase (payable : p.Payable) (short : Bytes) :
    ((thinCoinbase p short).outputs.map TxOut.value).sum = issuedValue p.list := by
  have part := sum_thinAmount_le payable short
  have values :
    (p.minerScripts.dedup.map (TxOut.value ∘ fun script => ⟨thinAmount p short script, script⟩)).sum =
      (p.minerScripts.dedup.map (thinAmount p short)).sum := rfl
  simp only [thinCoinbase, List.map_append, List.map_map, List.sum_append,
    List.map_cons, List.map_nil, List.sum_cons, List.sum_nil, values]
  omega

theorem paidTo_thinCoinbase (fits : (thinCoinbase p short).Fits) {script : Bytes}
    (member : script ∈ p.minerScripts) : (thinCoinbase p short).paidTo script = thinAmount p short script := by
  have named : (thinCoinbase p short).entries.map Prod.fst = p.minerScripts.dedup ++ [p.poolScript] := by
    simp only [Coinbase.entries, thinCoinbase, List.map_append, List.map_map, List.map_cons, List.map_nil]
    exact congrArg (· ++ [p.poolScript]) (List.map_id p.minerScripts.dedup)
  rw [Coinbase.paidTo_eq fits]
  apply tally_of_mem
  · rw [named]
    refine List.Nodup.append (List.nodup_dedup _) (by simp) ?_
    intro other miner pool
    rw [List.mem_singleton] at pool
    exact (mem_minerScripts.mp (List.mem_dedup.mp miner)).1 pool
  · simp only [Coinbase.entries, thinCoinbase, List.map_append, List.map_map, List.mem_append]
    exact .inl (List.mem_map.mpr ⟨script, List.mem_dedup.mpr member, rfl⟩)

/-- An output a coinbase may have beside what diverts nothing: an empty `OP_RETURN`, or one that pays the
pool or a listed script. -/
def Sanctioned (p : Policy) (iss : List Output) (o : TxOut) : Prop :=
  o.isOpReturn = true ∧ o.value = 0 ∨
    o.isOpReturn = false ∧ (o.script = p.poolScript ∨ o.script ∈ iss.map Output.script)

/-- What a survey of sanctioned outputs finds: no foreign one, the pool's where there is one, and the gateway's
only where the list has it. -/
structure Approved (p : Policy) (iss : List Output) (outputs : List TxOut) (s s' : Survey) : Prop where
  foreign : s'.foreign = s.foreign
  pool : (s.poolPaid = true ∨ ∃ o ∈ outputs, o.isOpReturn = false ∧ o.script = p.poolScript) →
    s'.poolPaid = true
  gateway : s'.gatewayPaid = true → s.gatewayPaid = true ∨
    ∃ script, p.gatewayScript = some script ∧ script ∈ iss.map Output.script

private theorem surveyOutput_sanctioned {iss : List Output} (held : p.issued = some iss)
    (s : Survey) {o : TxOut} (sanctioned : Sanctioned p iss o) :
    ∃ s', surveyOutput p s o = some s' ∧ Approved p iss [o] s s' := by
  unfold surveyOutput
  rcases sanctioned with ⟨burned, nothing⟩ | ⟨plain, destination⟩
  · simp only [burned, nothing, ↓reduceIte, Nat.lt_irrefl]
    exact ⟨s, rfl, rfl, fun paid => paid.resolve_right (by simp [burned]), .inl⟩
  · simp only [plain, Bool.false_eq_true, ↓reduceIte]
    by_cases pool : o.script = p.poolScript
    · rw [if_pos pool]
      exact ⟨_, rfl, rfl, fun _ => rfl, .inl⟩
    · rw [if_neg pool]
      have listed := destination.resolve_left pool
      have unpaid : ¬ ∃ other ∈ [o], other.isOpReturn = false ∧ other.script = p.poolScript := by
        rintro ⟨other, member, _, same⟩
        exact pool (List.mem_singleton.mp member ▸ same)
      split
      · rename_i gateway
        have own : p.gatewayScript = some o.script := by simpa [isGateway] using gateway
        exact ⟨_, rfl, rfl, fun paid => paid.resolve_right unpaid, fun _ => .inr ⟨o.script, own, listed⟩⟩
      · obtain ⟨i, present, same⟩ := List.mem_map.mp listed
        rw [if_pos]
        · exact ⟨_, rfl, rfl, fun paid => paid.resolve_right unpaid, .inl⟩
        · rw [held]
          exact List.any_eq_true.mpr ⟨i, present, by simp [same]⟩

private theorem survey_through {outputs : List TxOut} {iss : List Output}
    (held : p.issued = some iss) (s : Survey) (sanctioned : ∀ o ∈ outputs, Sanctioned p iss o) :
    ∃ s', outputs.foldlM (surveyOutput p) s = some s' ∧ Approved p iss outputs s s' := by
  induction outputs generalizing s with
  | nil => exact ⟨s, rfl, rfl, fun paid => paid.resolve_right (by simp), .inl⟩
  | cons o rest ih =>
    obtain ⟨next, taken, first⟩ := surveyOutput_sanctioned held s (sanctioned o List.mem_cons_self)
    obtain ⟨s', through, later⟩ := ih next fun other member => sanctioned other (List.mem_cons_of_mem o member)
    refine ⟨s', by rw [List.foldlM_cons, taken]; exact through, later.foreign.trans first.foreign, ?_, ?_⟩
    · rintro (earlier | ⟨other, member, found⟩)
      · exact later.pool (.inl (first.pool (.inl earlier)))
      · rcases List.mem_cons.mp member with rfl | member
        · exact later.pool (.inl (first.pool (.inr ⟨other, List.mem_singleton_self other, found⟩)))
        · exact later.pool (.inr ⟨other, member, found⟩)
    · intro paid
      rcases later.gateway paid with earlier | listed
      · exact first.gateway earlier
      · exact .inr listed

private theorem place_through {cb : Coinbase} {tolerance : Nat} {iss miners done : List Output} (s : Placed)
    (paid : ∀ i ∈ done, 0 < cb.paidTo i.script ∧
      cb.paidTo i.script ≤ satAdd (cap (issuedValue iss) cb.totalOutputValue (issuedTo miners i.script))
        (slack tolerance iss) ∧
      owed (issuedValue iss) cb.totalOutputValue i.sats ≤ satAdd (cb.paidTo i.script) tolerance) :
    done.foldlM (placeOutput cb tolerance iss miners) s =
      some { present := s.present + done.length, shorted := s.shorted } := by
  induction done generalizing s with
  | nil => rfl
  | cons i rest ih =>
    obtain ⟨some, within, full⟩ := paid i (by simp)
    have here : placeOutput cb tolerance iss miners s i =
        Option.some { present := s.present + 1, shorted := s.shorted } := by
      simp [placeOutput, some, Nat.not_lt.mpr within, Nat.not_lt.mpr full]
    rw [List.foldlM_cons, here]
    have later := ih { present := s.present + 1, shorted := s.shorted } fun other member =>
      paid other (by simp [member])
    refine later.trans ?_
    simp only [List.length_cons, Nat.add_assoc, Nat.add_comm 1]

/-- A coinbase of sanctioned outputs that pays every miner output in full, and no script over its
ceiling, is called a split. -/
theorem classifyCoinbase_split {cb : Coinbase} {iss : List Output} (held : p.issued = some iss)
    (sanctioned : ∀ o ∈ cb.outputs, Sanctioned p iss o)
    (paid : ∀ i ∈ minersOf p.poolScript iss, 0 < cb.paidTo i.script ∧
      cb.paidTo i.script ≤
      satAdd (cap (issuedValue iss) cb.totalOutputValue (issuedTo (minersOf p.poolScript iss) i.script))
        (slack p.tolerance iss) ∧
      owed (issuedValue iss) cb.totalOutputValue i.sats ≤ satAdd (cb.paidTo i.script) p.tolerance)
    (some : minersOf p.poolScript iss ≠ [] ∨ ∃ o ∈ cb.outputs, o.isOpReturn = false ∧ o.script = p.poolScript)
    (subsidyOnly merkleEmpty : Bool) (jobTxnCount : Nat) :
    classifyCoinbase cb p subsidyOnly jobTxnCount merkleEmpty = .split := by
  obtain ⟨s, through, approved⟩ := survey_through held {} sanctioned
  have gateway : (s.gatewayPaid && !(p.gatewayScript.any fun g => iss.any fun i => i.script == g)) = false := by
    cases pays : s.gatewayPaid with
    | false => rfl
    | true =>
      obtain ⟨script, own, listed⟩ := (approved.gateway pays).resolve_left (by simp)
      obtain ⟨i, present, same⟩ := List.mem_map.mp listed
      have found : (iss.any fun i => i.script == script) = true :=
        List.any_eq_true.mpr ⟨i, present, by simp [same]⟩
      simp [own, found]
  have counted : (s.poolPaid || s.gatewayPaid || !(minersOf p.poolScript iss).isEmpty) = true := by
    rcases some with miners | pool
    · simp [List.isEmpty_eq_false_iff.mpr miners]
    · simp [approved.pool (.inr pool)]
  have verdict : classifyIssued cb p s iss subsidyOnly jobTxnCount merkleEmpty = Option.some .split := by
    simp only [classifyIssued, gateway, Bool.false_and, Bool.false_eq_true, ↓reduceIte, place_through {} paid,
      Nat.zero_add, counted, Bool.and_true, decide_true]
  have outputs : classifyOutputs cb p subsidyOnly jobTxnCount merkleEmpty = .split := by
    simp only [classifyOutputs, through, approved.foreign, Nat.lt_irrefl,
      ↓reduceIte, held, Option.bind_some, verdict]
  simp [classifyCoinbase, outputs]

private theorem thinCoinbase_sanctioned (payable : p.Payable) (short : Bytes) :
    ∀ o ∈ (thinCoinbase p short).outputs, o.isOpReturn = false ∧
      (o.script = p.poolScript ∨ o.script ∈ p.list.map Output.script) := by
  have spendable : ∀ script, (script = p.poolScript ∨ script ∈ p.list.map Output.script) → ∀ value,
      (TxOut.isOpReturn ⟨value, script⟩) = false := by
    intro script known value
    have plain : script.head? ≠ some 0x6a := payable.spendable script (List.mem_cons.mpr known)
    simpa [TxOut.isOpReturn] using plain
  intro o output
  rcases List.mem_append.mp output with miner | pool
  · obtain ⟨script, listed, rfl⟩ := List.mem_map.mp miner
    have known := (mem_minerScripts.mp (List.mem_dedup.mp listed)).2
    exact ⟨spendable script (.inr known) _, .inr known⟩
  · rw [List.mem_singleton.mp pool]
    exact ⟨spendable p.poolScript (.inl rfl) _, .inl rfl⟩

theorem fits_thinCoinbase (payable : p.Payable) (short : Bytes) : (thinCoinbase p short).Fits := by
  rw [Coinbase.Fits, sum_thinCoinbase payable short]
  exact payable.fits

theorem totalOutputValue_thinCoinbase (payable : p.Payable) (short : Bytes) :
    (thinCoinbase p short).totalOutputValue = issuedValue p.list := by
  rw [Coinbase.totalOutputValue_eq (fits_thinCoinbase payable short), sum_thinCoinbase payable short]

private theorem sats_le_thinAmount {i : Output} (present : i ∈ p.list) (short : Bytes) :
    i.sats ≤ thinAmount p short i.script + p.tolerance := by
  unfold thinAmount
  split
  · rename_i same
    have most := sats_le_heaviest present
    rw [← same]
    omega
  · have least := sats_le_totalTo present
    omega

private theorem thinCoinbase_pays (payable : p.Payable) (short : Bytes) :
    ∀ i ∈ minersOf p.poolScript p.list, 0 < (thinCoinbase p short).paidTo i.script ∧
      (thinCoinbase p short).paidTo i.script ≤ satAdd (cap (issuedValue p.list)
        (thinCoinbase p short).totalOutputValue (issuedTo (minersOf p.poolScript p.list) i.script))
        (slack p.tolerance p.list) ∧
      owed (issuedValue p.list) (thinCoinbase p short).totalOutputValue i.sats ≤
        satAdd ((thinCoinbase p short).paidTo i.script) p.tolerance := by
  intro i miner
  obtain ⟨present, other⟩ := List.mem_filter.mp miner
  have known : i.script ∈ p.minerScripts :=
    mem_minerScripts.mpr ⟨by simpa using other, List.mem_map.mpr ⟨i, present, rfl⟩⟩
  have part := totalTo_le p.list i.script
  have amount := thinAmount_le payable short known
  have top := payable.fits
  have least := sats_le_totalTo present
  rw [paidTo_thinCoinbase (fits_thinCoinbase payable short) known,
    totalOutputValue_thinCoinbase payable short, cap, if_pos (.inr (Nat.le_refl _)),
    owed, if_pos (.inr (Nat.le_refl _)), issuedTo_eq (by simpa using other) top]
  refine ⟨thinAmount_pos payable short known, ?_, Nat.le_min.mpr ⟨sats_le_thinAmount present short, by omega⟩⟩
  exact Nat.le_trans amount (le_satAdd_left (by omega))

/-- That coinbase is called a split. -/
theorem classify_thinCoinbase (payable : p.Payable) {short : Bytes} (member : short ∈ p.minerScripts)
    (subsidyOnly merkleEmpty : Bool) (jobTxnCount : Nat) :
    classifyCoinbase (thinCoinbase p short) p subsidyOnly jobTxnCount merkleEmpty = .split := by
  obtain ⟨iss, held⟩ : ∃ iss, p.issued = some iss := by
    cases held : p.issued with
    | none => simp [Policy.minerScripts, Policy.list, held, minersOf] at member
    | some iss => exact ⟨iss, rfl⟩
  have list : p.list = iss := by simp [Policy.list, held]
  have sanctioned := thinCoinbase_sanctioned payable short
  have paid := thinCoinbase_pays payable short
  rw [list] at sanctioned paid
  refine classifyCoinbase_split held (fun o output => .inr (sanctioned o output)) paid (.inl ?_) _ _ _
  obtain ⟨i, miner, _⟩ := List.mem_map.mp member
  rw [list] at miner
  exact List.ne_nil_of_mem miner

end Thin

section Result

/-- What a credited coinbase is held to, for every coinbase whose outputs add up within their type. -/
def Policy.Sound (p : Policy) : Prop :=
  ∀ (cb : Coinbase) (subsidyOnly merkleEmpty : Bool) (jobTxnCount : Nat), cb.Fits →
    (classifyCoinbase cb p subsidyOnly jobTxnCount merkleEmpty).credited = true →
    p.Undiverted cb ∧ (classifyCoinbase cb p subsidyOnly jobTxnCount merkleEmpty = .split → p.PaysInFull cb)

/-- No credited coinbase diverts the pool's remainder, and where no script is issued more than its
tolerances and its largest output cover, every split pays every listed script in full. For a list that
can be paid at all, that condition is needed too. -/
theorem credited_pays_pool (p : Policy) :
    (∀ (cb : Coinbase) (subsidyOnly merkleEmpty : Bool) (jobTxnCount : Nat), cb.Fits →
      (classifyCoinbase cb p subsidyOnly jobTxnCount merkleEmpty).credited = true → p.Undiverted cb) ∧
    (p.Floored → p.Sound) ∧ (p.Payable → (p.Sound ↔ p.Floored)) := by
  have enough : p.Floored → p.Sound := fun floored cb _ _ _ fits credited =>
    ⟨undiverted fits credited, split_pays_in_full floored fits⟩
  refine ⟨fun cb _ _ _ fits credited => undiverted fits credited, enough, fun payable => ⟨?_, enough⟩⟩
  intro sound short member
  have fits := fits_thinCoinbase payable short
  have split := classify_thinCoinbase payable member false false 0
  have full := (sound (thinCoinbase p short) false false 0 fits (by rw [split]; rfl)).2 split short member
  rw [totalOutputValue_thinCoinbase payable short, owed, if_pos (.inr (Nat.le_refl _)),
    paidTo_thinCoinbase fits member, thinAmount, if_pos rfl] at full
  omega

/-- A list that names two identities of one script, paid for one of them: a hundred sats of two hundred
are with the pool, and the coinbase is called a split. -/
theorem split_pays_one_of_two :
    let p : Policy := { poolScript := [0x52], issued := some [⟨[0x51], 100⟩, ⟨[0x51], 100⟩, ⟨[0x52], 50⟩] }
    let cb : Coinbase := { outputs := [⟨100, [0x51]⟩, ⟨150, [0x52]⟩] }
    cb.Fits ∧ classifyCoinbase cb p false 2 false = .split ∧ cb.totalOutputValue = issuedValue p.list ∧
      cb.paidTo [0x51] + 2 * p.tolerance < totalTo p.list [0x51] ∧ ¬ p.PaysInFull cb := by
  intro p cb
  refine ⟨by decide, by decide, by decide, by decide, ?_⟩
  intro full
  exact absurd (full [0x51] (by decide)) (by decide)

/-- Distinct scripts: every split pays in full. -/
theorem credited_pays_pool_distinct :
    let p : Policy := { poolScript := [0x52], issued := some [⟨[0x51], 100⟩, ⟨[0x53], 70⟩, ⟨[0x52], 50⟩] }
    p.Floored ∧ p.Sound := by
  intro p
  have floored : p.Floored := by decide
  exact ⟨floored, (credited_pays_pool p).2.1 floored⟩

end Result

end Lazarus.Wire
