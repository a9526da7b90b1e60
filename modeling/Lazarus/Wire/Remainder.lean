import Lazarus.Lib.Along
import Lazarus.Lib.Shares
import Lazarus.Lib.Tally
import Lazarus.Wire.Classify

/-! What a coinbase that is credited can pay to whom: the pool's remainder is not diverted, and a
coinbase called a split pays every listed script. -/

namespace Lazarus.Wire

open Machine Tally

section Sums

namespace Coinbase

/-- The outputs of a coinbase by script. -/
def entries (cb : Coinbase) : List (Bytes × Nat) := cb.outputs.map fun o => (o.script, o.value)

/-- The outputs of a coinbase add up within their type. -/
def Fits (cb : Coinbase) : Prop := (cb.outputs.map TxOut.value).sum ≤ u64Max

instance (cb : Coinbase) : Decidable cb.Fits := inferInstanceAs (Decidable (_ ≤ _))

end Coinbase

theorem sum_filter_script {ι : Type} (items : List ι) (script : ι → Bytes) (amount : ι → Nat) (s : Bytes) :
    ((items.filter fun item => script item == s).map amount).sum =
      tally s (items.map fun item => (script item, amount item)) := by
  induction items with
  | nil => rfl
  | cons item rest ih =>
    by_cases same : script item = s
    · simp [same, ih]
    · simp [same, ih]

private theorem tally_le_sum {ι : Type} (items : List ι) (script : ι → Bytes) (amount : ι → Nat) (s : Bytes) :
    tally s (items.map fun item => (script item, amount item)) ≤ (items.map amount).sum := by
  rw [← sum_filter_script]
  exact (List.filter_sublist.map amount).sum_le_sum fun _ _ => Nat.zero_le _

namespace Coinbase

variable {cb : Coinbase}

theorem totalOutputValue_eq (fits : cb.Fits) : cb.totalOutputValue = (cb.outputs.map TxOut.value).sum := by
  have within : 0 + (cb.outputs.map TxOut.value).sum ≤ u64Max := by
    rw [Nat.zero_add]
    exact fits
  rw [totalOutputValue, foldl_satAdd_eq within, Nat.zero_add]

theorem totalOutputValue_le (fits : cb.Fits) : cb.totalOutputValue ≤ u64Max := by
  rw [cb.totalOutputValue_eq fits]
  exact fits

theorem paidTo_eq (fits : cb.Fits) (script : Bytes) : cb.paidTo script = tally script cb.entries := by
  have some := sum_filter_script cb.outputs TxOut.script TxOut.value script
  have part := tally_le_sum cb.outputs TxOut.script TxOut.value script
  rw [paidTo, foldl_satAdd_eq, Nat.zero_add, some]
  · rfl
  · rw [Nat.zero_add, some]
    exact Nat.le_trans part fits

end Coinbase

/-- What a list issues to a script in all. -/
def totalTo (iss : List Output) (script : Bytes) : Nat := tally script (iss.map fun i => (i.script, i.sats))

theorem totalTo_le (iss : List Output) (script : Bytes) : totalTo iss script ≤ issuedValue iss :=
  tally_le_sum iss Output.script Output.sats script

private theorem issuedTo_eq_sum {poolScript script : Bytes} (other : script ≠ poolScript) (iss : List Output) :
    (((minersOf poolScript iss).filter fun i => i.script == script).map Output.sats).sum =
      totalTo iss script := by
  rw [totalTo, ← sum_filter_script, minersOf, List.filter_filter]
  congr 2
  apply List.filter_congr
  intro i _
  by_cases same : i.script = script
  · simp [same, other]
  · simp [same]

private theorem issuedTo_le {poolScript script : Bytes} (other : script ≠ poolScript) (iss : List Output) :
    issuedTo (minersOf poolScript iss) script ≤ totalTo iss script := by
  rw [← issuedTo_eq_sum other, issuedTo]
  exact Nat.le_trans (foldl_satAdd_le 0 _) (by simp)

theorem issuedTo_eq {poolScript script : Bytes} (other : script ≠ poolScript) {iss : List Output}
    (fits : issuedValue iss ≤ u64Max) : issuedTo (minersOf poolScript iss) script = totalTo iss script := by
  rw [← issuedTo_eq_sum other, issuedTo, foldl_satAdd_eq, Nat.zero_add]
  rw [Nat.zero_add, issuedTo_eq_sum other]
  exact Nat.le_trans (totalTo_le iss script) fits

/-- A part of the list rescaled is no more than the template. -/
theorem scaled_le {total actual sats : Nat} (within : sats ≤ total) : sats * actual / total ≤ actual := by
  rw [Nat.mul_comm]
  exact Shares.share_le actual within

private theorem cap_mono {total actual sats sats' : Nat} (fits : actual ≤ u64Max) (lower : sats ≤ sats')
    (within : sats' ≤ total) : cap total actual sats ≤ cap total actual sats' := by
  unfold cap
  split
  · exact lower
  · rw [asU64_eq (Nat.le_trans (scaled_le (Nat.le_trans lower within)) fits),
      asU64_eq (Nat.le_trans (scaled_le within) fits)]
    exact Nat.div_le_div_right (Nat.mul_le_mul_right actual lower)

end Sums

section Survey

variable {p : Policy}

private theorem surveyOutput_cases {s s' : Survey} {o : TxOut} (surveyed : surveyOutput p s o = some s') :
    (o.isOpReturn = true ∧ o.value = 0 ∧ s' = s) ∨
      (o.isOpReturn = false ∧ o.script = p.poolScript ∧ s' = { s with poolPaid := true }) ∨
      (o.isOpReturn = false ∧ o.script ≠ p.poolScript ∧ p.gatewayScript = some o.script ∧
        s' = { s with gatewayPaid := true, gatewaySats := satAdd s.gatewaySats o.value }) ∨
      (o.isOpReturn = false ∧ o.script ≠ p.poolScript ∧ p.gatewayScript ≠ some o.script ∧
        ((∃ iss, p.issued = some iss ∧ o.script ∈ iss.map Output.script) ∧ s' = s ∨
          s' = { s with foreign := s.foreign + 1 })) := by
  unfold surveyOutput at surveyed
  cases burned : o.isOpReturn with
  | true =>
    simp only [burned, ↓reduceIte] at surveyed
    split at surveyed
    · cases surveyed
    · exact .inl ⟨rfl, by omega, (Option.some.inj surveyed).symm⟩
  | false =>
    simp only [burned, Bool.false_eq_true, ↓reduceIte] at surveyed
    right
    by_cases pool : o.script = p.poolScript
    · rw [if_pos pool] at surveyed
      exact .inl ⟨rfl, pool, (Option.some.inj surveyed).symm⟩
    · rw [if_neg pool] at surveyed
      right
      by_cases gateway : p.gatewayScript = some o.script
      · rw [if_pos (by simp [isGateway, gateway])] at surveyed
        exact .inl ⟨rfl, pool, gateway, (Option.some.inj surveyed).symm⟩
      · rw [if_neg (by simpa [isGateway] using gateway)] at surveyed
        refine .inr ⟨rfl, pool, gateway, ?_⟩
        split at surveyed
        · rename_i listed
          obtain ⟨iss, held, found⟩ := (Option.any_eq_true _ _).mp listed
          obtain ⟨i, member, same⟩ := List.any_eq_true.mp found
          exact .inl
            ⟨⟨iss, held, List.mem_map.mpr ⟨i, member, by simpa using same⟩⟩, (Option.some.inj surveyed).symm⟩
        · exact .inr (Option.some.inj surveyed).symm

/-- What a survey that goes through says of the outputs it has seen. -/
structure Surveyed (p : Policy) (outputs : List TxOut) (s : Survey) : Prop where
  unburned : ∀ o ∈ outputs, o.isOpReturn = true → o.value = 0
  known : s.foreign = 0 → ∀ o ∈ outputs, o.isOpReturn = true ∨ o.script = p.poolScript ∨
    p.gatewayScript = some o.script ∨ ∃ iss, p.issued = some iss ∧ o.script ∈ iss.map Output.script
  gateway : ∀ g, p.gatewayScript = some g → g ≠ p.poolScript → (outputs.map TxOut.value).sum ≤ u64Max →
    s.gatewaySats = tally g (outputs.map fun o => (o.script, o.value))
  unpaid : s.gatewayPaid = false → s.gatewaySats = 0
  paid : s.gatewayPaid = true → ∃ o ∈ outputs, p.gatewayScript = some o.script ∧ o.script ≠ p.poolScript

/-- One more output keeps the survey true, if what it changes is accounted for. -/
private theorem Surveyed.snoc {done : List TxOut} {before after : Survey}
    {o : TxOut} (sofar : Surveyed p done before) (unburned : o.isOpReturn = true → o.value = 0)
    (known : after.foreign = 0 → before.foreign = 0 ∧ (o.isOpReturn = true ∨ o.script = p.poolScript ∨
      p.gatewayScript = some o.script ∨ ∃ iss, p.issued = some iss ∧ o.script ∈ iss.map Output.script))
    (gateway : ∀ g, p.gatewayScript = some g → g ≠ p.poolScript → before.gatewaySats + o.value ≤ u64Max →
      after.gatewaySats = before.gatewaySats + if o.script = g then o.value else 0)
    (unpaid : after.gatewayPaid = false → before.gatewayPaid = false ∧ after.gatewaySats = before.gatewaySats)
    (paid : after.gatewayPaid = true → before.gatewayPaid = true ∨
      p.gatewayScript = some o.script ∧ o.script ≠ p.poolScript) :
    Surveyed p (done ++ [o]) after where
  unburned other member := by
    rcases List.mem_append.mp member with earlier | new
    · exact sofar.unburned other earlier
    · rw [List.mem_singleton.mp new]
      exact unburned
  known none other member := by
    obtain ⟨noneBefore, here⟩ := known none
    rcases List.mem_append.mp member with earlier | new
    · exact sofar.known noneBefore other earlier
    · rw [List.mem_singleton.mp new]
      exact here
  gateway g same other fits := by
    simp only [List.map_append, List.map_cons, List.map_nil, List.sum_append,
      List.sum_cons, List.sum_nil] at fits
    have before' := sofar.gateway g same other (by omega)
    have part := tally_le_sum done TxOut.script TxOut.value g
    rw [gateway g same other (by omega), before']
    simp
  unpaid none := by
    obtain ⟨noneBefore, same⟩ := unpaid none
    rw [same]
    exact sofar.unpaid noneBefore
  paid some := by
    rcases paid some with earlier | here
    · obtain ⟨other, member, script⟩ := sofar.paid earlier
      exact ⟨other, by simp [member], script⟩
    · exact ⟨o, by simp, here⟩

private theorem surveyed {outputs : List TxOut} {s : Survey}
    (through : outputs.foldlM (surveyOutput p) {} = some s) : Surveyed p outputs s := by
  refine Run.foldlM_invariant (Surveyed p) ?_ through
    ⟨by simp, by simp, fun _ _ _ _ => rfl, fun _ => rfl, by simp⟩
  intro done before o after sofar taken
  rcases surveyOutput_cases
    taken with ⟨burned, empty, rfl⟩ | ⟨plain, pool, rfl⟩ | ⟨plain, other, gateway, rfl⟩ |
    ⟨plain, other, notGateway, ⟨listed, rfl⟩ | rfl⟩
  · exact sofar.snoc (fun _ => empty) (fun none => ⟨none, .inl burned⟩) (fun _ _ _ _ => by simp [empty])
      (fun none => ⟨none, rfl⟩) .inl
  · refine sofar.snoc (by simp [plain]) (fun none => ⟨none, .inr (.inl pool)⟩) ?_ (fun none => ⟨none, rfl⟩) .inl
    intro g _ different _
    rw [if_neg (pool ▸ Ne.symm different), Nat.add_zero]
  · refine sofar.snoc (by simp [plain]) (fun none => ⟨none, .inr (.inr (.inl gateway))⟩) ?_ (by simp)
      (fun _ => .inr ⟨gateway, other⟩)
    intro g same _ fits
    rw [if_pos (Option.some.inj (gateway.symm.trans same))]
    exact satAdd_eq fits
  · refine sofar.snoc (by simp [plain]) (fun none => ⟨none, .inr (.inr (.inr listed))⟩)
      ?_ (fun none => ⟨none, rfl⟩) .inl
    intro g same _ _
    have apart : o.script ≠ g := by
      rintro rfl
      exact notGateway same
    simp [apart]
  · refine sofar.snoc (by simp [plain]) (by simp) ?_ (fun none => ⟨none, rfl⟩) .inl
    intro g same _ _
    have apart : o.script ≠ g := by
      rintro rfl
      exact notGateway same
    simp [apart]

end Survey

section Placing

variable {cb : Coinbase} {tolerance : Nat} {iss miners : List Output}

/-- What counting the miner outputs says of those counted: none is over its ceiling, and unless one is
short each that is paid is paid in full. -/
structure Counted (cb : Coinbase) (tolerance : Nat) (iss miners done : List Output) (s : Placed) : Prop where
  within : ∀ i ∈ done, cb.paidTo i.script ≤
    satAdd (cap (issuedValue iss) cb.totalOutputValue (issuedTo miners i.script)) (slack tolerance iss)
  full : s.shorted = false → ∀ i ∈ done, 0 < cb.paidTo i.script →
    owed (issuedValue iss) cb.totalOutputValue i.sats ≤ cb.paidTo i.script + tolerance
  present : s.present ≤ done.length
  all : s.present = done.length → ∀ i ∈ done, 0 < cb.paidTo i.script

theorem counted {s : Placed} (through : miners.foldlM (placeOutput cb tolerance iss miners) {} = some s) :
    Counted cb tolerance iss miners miners s := by
  refine Run.foldlM_invariant (Counted cb tolerance iss miners) ?_ through
    ⟨by simp, by simp, Nat.le_refl _, by simp⟩
  intro done before i after sofar taken
  simp only [placeOutput] at taken
  split at taken
  · rename_i paid
    split at taken
    · cases taken
    · rename_i within
      cases taken
      refine ⟨?_, ?_, ?_, ?_⟩
      · intro other member
        rcases List.mem_append.mp member with earlier | new
        · exact sofar.within other earlier
        · rw [List.mem_singleton.mp new]
          exact Nat.le_of_not_lt within
      · intro none other member
        obtain ⟨noneBefore, enough⟩ := Bool.or_eq_false_iff.mp none
        rcases List.mem_append.mp member with earlier | new
        · exact sofar.full noneBefore other earlier
        · rw [List.mem_singleton.mp new]
          intro _
          exact Nat.le_trans (Nat.le_of_not_lt (of_decide_eq_false enough)) satAdd_le
      · have := sofar.present
        simp only [List.length_append, List.length_singleton]
        omega
      · intro every other member
        simp only [List.length_append, List.length_singleton] at every
        rcases List.mem_append.mp member with earlier | new
        · exact sofar.all (by omega) other earlier
        · rw [List.mem_singleton.mp new]
          exact paid
  · rename_i unpaid
    cases taken
    have nothing : cb.paidTo i.script = 0 := by omega
    refine ⟨?_, ?_, ?_, ?_⟩
    · intro other member
      rcases List.mem_append.mp member with earlier | new
      · exact sofar.within other earlier
      · rw [List.mem_singleton.mp new, nothing]
        exact Nat.zero_le _
    · intro none other member
      rcases List.mem_append.mp member with earlier | new
      · exact sofar.full none other earlier
      · rw [List.mem_singleton.mp new]
        exact fun some => absurd some unpaid
    · have := sofar.present
      simp only [List.length_append, List.length_singleton]
      omega
    · intro every
      have := sofar.present
      simp only [List.length_append, List.length_singleton] at every
      omega

end Placing

section Bounds

namespace Policy

/-- The issued list; none held is an empty one. -/
def list (p : Policy) : List Output := p.issued.getD []

/-- The scripts a list pays, the pool's own apart. -/
def minerScripts (p : Policy) : List Bytes := (minersOf p.poolScript p.list).map Output.script

/-- What a listed miner script may be paid by a coinbase. -/
def minerCeiling (p : Policy) (cb : Coinbase) (script : Bytes) : Nat :=
  cap (issuedValue p.list) cb.totalOutputValue (totalTo p.list script) + slack p.tolerance p.list

/-- A gateway script of its own: not the pool's, and not on the list. -/
def Unlisted (p : Policy) (g : Bytes) : Prop :=
  p.gatewayScript = some g ∧ g ≠ p.poolScript ∧ g ∉ p.list.map Output.script

instance (p : Policy) (g : Bytes) : Decidable (p.Unlisted g) := inferInstanceAs (Decidable (_ ∧ _ ∧ _))

/-- What such a script may be paid. -/
def gatewayCeiling (p : Policy) (cb : Coinbase) : Nat :=
  excess (issuedValue p.list) cb.totalOutputValue + slack p.tolerance p.list

/-- The ceilings of everybody but the pool. -/
def ceilings (p : Policy) (cb : Coinbase) : Nat :=
  (p.minerScripts.dedup.map (p.minerCeiling cb)).sum +
    ((p.gatewayScript.toList.filter fun g => p.Unlisted g).map fun _ => p.gatewayCeiling cb).sum

/-- A coinbase that diverts none of the pool's remainder. -/
structure Undiverted (p : Policy) (cb : Coinbase) : Prop where
  destinations : ∀ o ∈ cb.outputs, 0 < o.value →
    o.script = p.poolScript ∨ o.script ∈ p.list.map Output.script ∨ p.gatewayScript = some o.script
  unburned : ∀ o ∈ cb.outputs, o.isOpReturn = true → o.value = 0
  miners : ∀ script ∈ p.minerScripts, cb.paidTo script ≤ p.minerCeiling cb script
  gateway : ∀ g, p.Unlisted g → cb.paidTo g ≤ p.gatewayCeiling cb
  pool : cb.totalOutputValue - p.ceilings cb ≤ cb.paidTo p.poolScript

/-- A list pays every miner script what it issues to it, less the tolerance for each of its outputs
and less what a template worth less takes off. -/
def PaysInFull (p : Policy) (cb : Coinbase) : Prop :=
  ∀ script ∈ p.minerScripts, owed (issuedValue p.list) cb.totalOutputValue (totalTo p.list script) ≤
    cb.paidTo script + (p.list.filter fun i => i.script == script).length * p.tolerance

end Policy

variable {p : Policy} {cb : Coinbase}

theorem mem_minerScripts {script : Bytes} :
    script ∈ p.minerScripts ↔ script ≠ p.poolScript ∧ script ∈ p.list.map Output.script := by
  simp only [Policy.minerScripts, minersOf, List.mem_map, List.mem_filter]
  constructor
  · rintro ⟨i, ⟨listed, different⟩, rfl⟩
    exact ⟨by simpa using different, i, listed, rfl⟩
  · rintro ⟨different, i, listed, rfl⟩
    exact ⟨i, ⟨listed, by simpa using different⟩, rfl⟩

/-- The scripts a coinbase may pay, each once. -/
private def payable (p : Policy) : List Bytes :=
  p.poolScript :: (p.minerScripts.dedup ++ p.gatewayScript.toList.filter fun g => p.Unlisted g)

private theorem nodup_payable (p : Policy) : (payable p).Nodup := by
  have unlisted : ∀ g ∈ p.gatewayScript.toList.filter fun g => p.Unlisted g, p.Unlisted g := by
    intro g member
    simpa using (List.mem_filter.mp member).2
  refine List.nodup_cons.mpr ⟨?_, List.Nodup.append (List.nodup_dedup _) ?_ ?_⟩
  · intro member
    rcases List.mem_append.mp member with miner | gateway
    · exact (mem_minerScripts.mp (List.mem_dedup.mp miner)).1 rfl
    · exact (unlisted _ gateway).2.1 rfl
  · refine List.Nodup.filter _ ?_
    cases p.gatewayScript <;> simp
  · intro script miner gateway
    exact (unlisted script gateway).2.2 (mem_minerScripts.mp (List.mem_dedup.mp miner)).2

private theorem mem_payable {script : Bytes} (destination : script = p.poolScript ∨
    script ∈ p.list.map Output.script ∨ p.gatewayScript = some script) : script ∈ payable p := by
  by_cases pool : script = p.poolScript
  · simp [payable, pool]
  · by_cases listed : script ∈ p.list.map Output.script
    · have miner := mem_minerScripts.mpr ⟨pool, listed⟩
      simp [payable, miner]
    · have gateway := (destination.resolve_left pool).resolve_left listed
      have own : script ∈ p.gatewayScript.toList.filter fun g => p.Unlisted g :=
        List.mem_filter.mpr ⟨by simp [gateway], decide_eq_true ⟨gateway, pool, listed⟩⟩
      simp only [payable, List.mem_cons, List.mem_append]
      exact .inr (.inr own)

/-- What a coinbase pays goes to the scripts it may pay. -/
private theorem total_eq_payable (fits : cb.Fits)
    (destinations : ∀ o ∈ cb.outputs, 0 < o.value →
      o.script = p.poolScript ∨ o.script ∈ p.list.map Output.script ∨ p.gatewayScript = some o.script) :
    cb.totalOutputValue = ((payable p).map cb.paidTo).sum := by
  have covered : ∀ entry ∈ cb.entries.filter fun entry => 0 < entry.2, entry.1 ∈ payable p := by
    intro entry member
    obtain ⟨paid, positive⟩ := List.mem_filter.mp member
    obtain ⟨o, present, rfl⟩ := List.mem_map.mp paid
    exact mem_payable (destinations o present (by simpa using positive))
  have empty : ∀ entry ∈ cb.entries, decide (0 < entry.2) = false → entry.2 = 0 := by
    intro entry _ none
    simpa using none
  have sums := sum_tally (payable p) (nodup_payable p) _ covered
  have each : (payable p).map (fun script => tally script (cb.entries.filter fun entry => 0 < entry.2)) =
      (payable p).map cb.paidTo := by
    apply List.map_congr_left
    intro script _
    rw [cb.paidTo_eq fits, tally_filter script cb.entries _ empty]
  rw [← each, sums, sum_filter cb.entries _ empty, cb.totalOutputValue_eq fits, Coinbase.entries, List.map_map]
  rfl

private theorem pool_gets_rest (fits : cb.Fits)
    (destinations : ∀ o ∈ cb.outputs, 0 < o.value →
      o.script = p.poolScript ∨ o.script ∈ p.list.map Output.script ∨ p.gatewayScript = some o.script)
    (miners : ∀ script ∈ p.minerScripts, cb.paidTo script ≤ p.minerCeiling cb script)
    (gateway : ∀ g, p.Unlisted g → cb.paidTo g ≤ p.gatewayCeiling cb) :
    cb.totalOutputValue - p.ceilings cb ≤ cb.paidTo p.poolScript := by
  have listed : (p.minerScripts.dedup.map cb.paidTo).sum ≤ (p.minerScripts.dedup.map (p.minerCeiling cb)).sum :=
    List.sum_le_sum fun script member => miners script (List.mem_dedup.mp member)
  have own : ((p.gatewayScript.toList.filter fun g => p.Unlisted g).map cb.paidTo).sum ≤
      ((p.gatewayScript.toList.filter fun g => p.Unlisted g).map fun _ => p.gatewayCeiling cb).sum :=
    List.sum_le_sum fun g member => gateway g (by simpa using (List.mem_filter.mp member).2)
  rw [total_eq_payable fits destinations, payable, List.map_cons, List.sum_cons,
    List.map_append, List.sum_append, Policy.ceilings]
  omega

/-- All but what an unlisted gateway script may take goes to the listed scripts and the pool's. -/
theorem total_le_listed (fits : cb.Fits) (undiverted : p.Undiverted cb) {scripts : List Bytes}
    (pool : p.poolScript ∈ scripts) (listed : ∀ script ∈ p.list.map Output.script, script ∈ scripts) :
    cb.totalOutputValue ≤ (scripts.dedup.map cb.paidTo).sum + p.gatewayCeiling cb := by
  have distinct : (p.poolScript :: p.minerScripts.dedup).Nodup := by
    refine List.nodup_cons.mpr ⟨?_, List.nodup_dedup _⟩
    intro member
    exact (mem_minerScripts.mp (List.mem_dedup.mp member)).1 rfl
  have among : (p.poolScript :: p.minerScripts.dedup).Subperm scripts.dedup := by
    apply List.subperm_of_subset distinct
    intro script member
    rcases List.mem_cons.mp member with rfl | miner
    · exact List.mem_dedup.mpr pool
    · exact List.mem_dedup.mpr (listed script (mem_minerScripts.mp (List.mem_dedup.mp miner)).2)
  have paid :
      ((p.poolScript :: p.minerScripts.dedup).map cb.paidTo).sum ≤ (scripts.dedup.map cb.paidTo).sum := by
    obtain ⟨part, same, within⟩ := among
    rw [← (same.map cb.paidTo).sum_eq]
    exact (within.map cb.paidTo).sum_le_sum fun _ _ => Nat.zero_le _
  have own :
      ((p.gatewayScript.toList.filter fun g => p.Unlisted g).map cb.paidTo).sum ≤ p.gatewayCeiling cb := by
    cases held : p.gatewayScript with
    | none => simp
    | some g =>
      by_cases unlisted : p.Unlisted g
      · simpa [unlisted] using undiverted.gateway g unlisted
      · simp [unlisted]
  rw [total_eq_payable fits undiverted.destinations, payable, ← List.cons_append,
    List.map_append, List.sum_append]
  exact Nat.add_le_add paid own

end Bounds

section Verdict

/-- The kinds whose work is credited in the window. -/
def CoinbaseKind.credited : CoinbaseKind → Bool
  | split | partialSplit _ | poolOnly => true
  | _ => false

variable {p : Policy} {cb : Coinbase} {subsidyOnly merkleEmpty : Bool} {jobTxnCount : Nat}

private theorem gatewayOnly_uncredited {gateway : Option Bytes} {kind : CoinbaseKind}
    (only : gatewayOnly cb gateway subsidyOnly jobTxnCount merkleEmpty = some kind) :
    kind.credited = false := by
  unfold gatewayOnly at only
  split at only
  · cases only
  · simp only at only
    split at only
    · cases only
    · split at only
      · cases only
        rfl
      · split at only
        · cases only
          rfl
        · cases only
          rfl

/-- What has been checked of a coinbase that an issued list calls a split or a part of one. -/
structure Placing (cb : Coinbase) (p : Policy) (s : Survey) (kind : CoinbaseKind)
    (iss : List Output) (placed : Placed) : Prop where
  held : p.issued = some iss
  gateway : s.gatewayPaid = true → (∃ g, p.gatewayScript = some g ∧ g ∈ iss.map Output.script) ∨
    s.gatewaySats ≤ satAdd (excess (issuedValue iss) cb.totalOutputValue) (slack p.tolerance iss)
  counted : (minersOf p.poolScript iss).foldlM (placeOutput cb p.tolerance iss (minersOf p.poolScript iss)) {} =
    some placed
  full : placed.shorted = false
  all : kind = .split → placed.present = (minersOf p.poolScript iss).length

private theorem classifyIssued_credited {s : Survey} {iss : List Output}
    {kind : CoinbaseKind} (held : p.issued = some iss)
    (verdict : classifyIssued cb p s iss subsidyOnly jobTxnCount merkleEmpty = some kind)
    (credited : kind.credited = true) : ∃ placed, Placing cb p s kind iss placed := by
  simp only [classifyIssued] at verdict
  split at verdict
  · split at verdict
    · cases verdict
      cases credited
    · split at verdict
      · cases verdict
        cases credited
      · cases verdict
        cases credited
  · rename_i bounded
    split at verdict
    · cases verdict
      cases credited
    · rename_i placed counted
      have gateway : s.gatewayPaid = true → (∃ g, p.gatewayScript = some g ∧ g ∈ iss.map Output.script) ∨
          s.gatewaySats ≤ satAdd (excess (issuedValue iss) cb.totalOutputValue) (slack p.tolerance iss) := by
        intro paid
        by_cases listed : (p.gatewayScript.any fun g => iss.any fun i => i.script == g) = true
        · obtain ⟨g, same, found⟩ := (Option.any_eq_true _ _).mp listed
          obtain ⟨i, member, equal⟩ := List.any_eq_true.mp found
          exact .inl ⟨g, same, List.mem_map.mpr ⟨i, member, by simpa using equal⟩⟩
        · right
          rw [Bool.not_eq_true] at listed
          simpa [paid, listed] using bounded
      split at verdict
      · cases verdict
      · rename_i full
        refine ⟨placed, held, gateway, counted, by simpa using full, ?_⟩
        split at verdict
        · rename_i all
          intro _
          rw [Bool.and_eq_true] at all
          simpa using all.1
        · split at verdict
          · cases verdict
            simp
          · cases verdict

private theorem classifyUnissued_credited {s : Survey}
    (credited : (classifyUnissued cb p s subsidyOnly jobTxnCount merkleEmpty).credited = true) :
    classifyUnissued cb p s subsidyOnly jobTxnCount merkleEmpty = .poolOnly ∧
      ∀ o ∈ cb.outputs, o.isOpReturn = true ∨ o.script = p.poolScript := by
  simp only [classifyUnissued] at credited ⊢
  split
  · rename_i only
    refine ⟨rfl, ?_⟩
    intro o member
    have each := List.all_eq_true.mp (Bool.and_eq_true_iff.mp only).2 o member
    simpa using each
  · rename_i more
    rw [if_neg more] at credited
    split at credited
    · rename_i kind only
      rw [gatewayOnly_uncredited only] at credited
      cases credited
    · split at credited
      · split at credited
        · cases credited
        · cases credited
      · cases credited

/-- What has been checked of a coinbase that is credited. -/
theorem classifyCoinbase_credited
    (credited : (classifyCoinbase cb p subsidyOnly jobTxnCount merkleEmpty).credited = true) :
    ∃ s, cb.outputs.foldlM (surveyOutput p) {} = some s ∧ s.foreign = 0 ∧
      ((classifyCoinbase cb p subsidyOnly jobTxnCount merkleEmpty = .poolOnly ∧
          ∀ o ∈ cb.outputs, o.isOpReturn = true ∨ o.script = p.poolScript) ∨
        ∃ iss placed,
          Placing cb p s (classifyCoinbase cb p subsidyOnly jobTxnCount merkleEmpty) iss placed) := by
  have same : classifyCoinbase cb p subsidyOnly jobTxnCount merkleEmpty =
      classifyOutputs cb p subsidyOnly jobTxnCount merkleEmpty := by
    unfold classifyCoinbase at credited ⊢
    simp only at credited ⊢
    split
    · rename_i again
      rw [if_pos again] at credited
      cases only : gatewayOnly cb p.gatewayScript subsidyOnly jobTxnCount merkleEmpty with
      | none => rfl
      | some kind =>
        rw [only, Option.getD_some, gatewayOnly_uncredited only] at credited
        cases credited
    · rfl
  rw [same] at credited ⊢
  unfold classifyOutputs at credited ⊢
  split at credited
  · cases credited
  · rename_i s through
    split at credited
    · cases credited
    · rename_i none
      refine ⟨s, through, by omega, ?_⟩
      simp only [if_neg none]
      split at credited
      · rename_i kind verdict
        obtain ⟨iss, held, decided⟩ := Option.bind_eq_some_iff.mp verdict
        obtain ⟨placed, placing⟩ := classifyIssued_credited held decided credited
        exact .inr ⟨iss, placed, placing⟩
      · exact .inl (classifyUnissued_credited credited)

/-- A coinbase that pays nobody but the pool pays no other script. -/
private theorem paidTo_onlyPool (fits : cb.Fits)
    (unburned : ∀ o ∈ cb.outputs, o.isOpReturn = true → o.value = 0)
    (only : ∀ o ∈ cb.outputs, o.isOpReturn = true ∨ o.script = p.poolScript) {script : Bytes}
    (other : script ≠ p.poolScript) : cb.paidTo script = 0 := by
  rw [cb.paidTo_eq fits, Coinbase.entries, ← sum_filter_script]
  apply List.sum_eq_zero
  intro value member
  obtain ⟨o, found, rfl⟩ := List.mem_map.mp member
  obtain ⟨present, same⟩ := List.mem_filter.mp found
  rcases only o present with burned | pool
  · exact unburned o present burned
  · exact absurd (pool ▸ (by simpa using same : o.script = script)).symm other

theorem undiverted (fits : cb.Fits)
    (credited : (classifyCoinbase cb p subsidyOnly jobTxnCount merkleEmpty).credited = true) :
    p.Undiverted cb := by
  obtain ⟨s, through, none, verdict⟩ := classifyCoinbase_credited credited
  have survey := surveyed through
  have actual := cb.totalOutputValue_le fits
  have destinations : ∀ o ∈ cb.outputs, 0 < o.value →
      o.script = p.poolScript ∨ o.script ∈ p.list.map Output.script ∨ p.gatewayScript = some o.script := by
    intro o member positive
    rcases survey.known none o member with burned | pool | gateway | ⟨iss, held, listed⟩
    · exact absurd (survey.unburned o member burned) (Nat.ne_of_gt positive)
    · exact .inl pool
    · exact .inr (.inr gateway)
    · right
      left
      simpa [Policy.list, held] using listed
  have bounds : (∀ script ∈ p.minerScripts, cb.paidTo script ≤ p.minerCeiling cb script) ∧
      ∀ g, p.Unlisted g → cb.paidTo g ≤ p.gatewayCeiling cb := by
    rcases verdict with ⟨_, only⟩ | ⟨iss, placed, placing⟩
    · constructor
      · intro script member
        rw [paidTo_onlyPool fits survey.unburned only (mem_minerScripts.mp member).1]
        exact Nat.zero_le _
      · intro g unlisted
        rw [paidTo_onlyPool fits survey.unburned only unlisted.2.1]
        exact Nat.zero_le _
    · have list : p.list = iss := by simp [Policy.list, placing.held]
      have counts := counted placing.counted
      constructor
      · intro script member
        obtain ⟨i, listed, rfl⟩ := List.mem_map.mp member
        rw [list] at listed
        have other : i.script ≠ p.poolScript := (mem_minerScripts.mp member).1
        refine Nat.le_trans (counts.within i listed) (Nat.le_trans satAdd_le ?_)
        rw [Policy.minerCeiling, list]
        exact Nat.add_le_add_right (cap_mono actual (issuedTo_le other iss) (totalTo_le iss i.script)) _
      · intro g unlisted
        obtain ⟨own, other, absent⟩ := unlisted
        rw [cb.paidTo_eq fits, Coinbase.entries, ← survey.gateway g own other fits]
        cases paid : s.gatewayPaid with
        | false =>
          rw [survey.unpaid paid]
          exact Nat.zero_le _
        | true =>
          rcases placing.gateway paid with ⟨g', same, listed⟩ | bounded
          · rw [own] at same
            cases same
            rw [list] at absent
            exact absurd listed absent
          · refine Nat.le_trans bounded (Nat.le_trans satAdd_le ?_)
            rw [Policy.gatewayCeiling, list]
  exact ⟨destinations, survey.unburned, bounds.1, bounds.2, pool_gets_rest fits destinations bounds.1 bounds.2⟩

end Verdict

end Lazarus.Wire
