import Lazarus.Wire.Gives
import Lazarus.Wire.TargetByte

/-! Coinbases as bytes: what was there where one was parsed, the form with a witness that goes into a block, and
the ones that tools build. -/

namespace Lazarus.Wire

open Machine LittleEndian Cursor

/-- The standard reserved value, alone on the stack. -/
def coinbaseWitness : Bytes := [0x01, 0x20] ++ List.replicate 32 0

/-- A parsed coinbase in segwit form, as it stands in a full block. -/
def withWitness (legacy : Bytes) (parsed : Coinbase) : Bytes :=
  legacy.take 4 ++ [0x00, 0x01] ++ (legacy.take parsed.lockTimeAt).drop 4 ++
    coinbaseWitness ++ legacy.drop parsed.lockTimeAt

def writeVarint (n : Nat) : Bytes :=
  if n < 0xfd then [UInt8.ofNat n]
  else if n ≤ 0xffff then 0xfd :: bytes 2 n
  else if n ≤ 0xffffffff then 0xfe :: bytes 4 n
  else 0xff :: bytes 8 n

/-- A height without the zero bytes at its top, a zero apart. -/
def heightBytes (height : UInt32) : Bytes :=
  let hb := bytes 4 height.toNat
  hb.take (max (4 - (hb.reverse.takeWhile (· == 0)).length) 1)

/-- The scriptSig of a built coinbase up to its target byte: the height, the tag, and
what opens the unique id. -/
def buildHead (height : UInt32) (tag : Bytes) : Bytes :=
  UInt8.ofNat (heightBytes height).length :: heightBytes height ++
    (UInt8.ofNat tag.length + 1) :: tag ++ [0x00] ++ [0x07]

def buildSig (height : UInt32) (tag : Bytes) : Bytes :=
  buildHead height tag ++ [0xff, 0x00, 0x00, 0x01, 0x00, 0x00, 0x00] ++
    [0x0e, 0x00, 0x00] ++ List.replicate extranonceSlot 0

def writeOutput (o : TxOut) : Bytes := bytes 8 o.value ++ writeVarint o.script.length ++ o.script

/-- The bytes of a coinbase, and where its target byte and its extranonce slot are. -/
def build (height : UInt32) (tag : Bytes) (outputs : List TxOut) (lockTime : UInt32) : Bytes × Nat × Nat :=
  let sig := buildSig height tag
  let before := bytes 4 1 ++ [1] ++ List.replicate 32 0 ++ List.replicate 4 0xff ++ writeVarint sig.length
  (before ++ sig ++ bytes 4 0xffffffff ++ writeVarint outputs.length ++
    outputs.flatMap writeOutput ++ bytes 4 lockTime.toNat, before.length + (buildHead height tag).length,
    before.length + (sig.length - extranonceSlot))

/-- The forms a count is written in, of which some are longer than need be. -/
inductive VarintForm where
  | byte
  | two
  | four
  | eight
deriving DecidableEq

namespace VarintForm

def write : VarintForm → Nat → Bytes
  | byte, n => [UInt8.ofNat n]
  | two, n => 0xfd :: bytes 2 n
  | four, n => 0xfe :: bytes 4 n
  | eight, n => 0xff :: bytes 8 n

/-- Counts that a form has room for. -/
def Holds : VarintForm → Nat → Prop
  | byte, n => n < 0xfd
  | two, n => n < 2 ^ 16
  | four, n => n < 2 ^ 32
  | eight, n => n < 2 ^ 64

/-- The shortest one. -/
def least (n : Nat) : VarintForm :=
  if n < 0xfd then byte else if n ≤ 0xffff then two else if n ≤ 0xffffffff then four else eight

end VarintForm

/-- The forms of the counts in a coinbase: of its inputs, its scriptSig, its outputs, and the
script of each of these. -/
structure Forms where
  inputs : VarintForm
  scriptSig : VarintForm
  outputs : VarintForm
  scripts : List VarintForm

def writeOutputAs (form : VarintForm) (o : TxOut) : Bytes :=
  bytes 8 o.value ++ form.write o.script.length ++ o.script

/-- A coinbase with one null input, its counts in these forms. -/
def Coinbase.writeAs (cb : Coinbase) (forms : Forms) : Bytes :=
  bytes 4 cb.version.toNat ++ forms.inputs.write 1 ++ (List.replicate 32 0 ++ List.replicate 4 0xff) ++
    forms.scriptSig.write cb.scriptSig.length ++ cb.scriptSig ++ bytes 4 cb.sequence.toNat ++
    forms.outputs.write cb.outputs.length ++ (List.zipWith writeOutputAs forms.scripts cb.outputs).flatten ++
    bytes 4 cb.lockTime.toNat

/-- Every count of a coinbase has a form with room for it. -/
structure Forms.Hold (forms : Forms) (cb : Coinbase) : Prop where
  inputs : forms.inputs.Holds 1
  scriptSig : forms.scriptSig.Holds cb.scriptSig.length
  outputs : forms.outputs.Holds cb.outputs.length
  scripts : List.Forall₂ (fun form (o : TxOut) => form.Holds o.script.length) forms.scripts cb.outputs

/-- What parsing takes, the amounts being 64-bit numbers. -/
structure Coinbase.Parses (cb : Coinbase) : Prop where
  least : 2 ≤ cb.scriptSig.length
  most : cb.scriptSig.length ≤ 100
  paid : cb.outputs ≠ []
  few : cb.outputs.length ≤ 10000
  scripts : ∀ o ∈ cb.outputs, o.script.length ≤ 10000
  values : ∀ o ∈ cb.outputs, o.value ≤ u64Max

section Varint

private theorem cuts_varint : Cuts readVarint fun data n => ∃ form : VarintForm, form.Holds n ∧
    data = form.write n := by
  have rest :
    ∀ lead : UInt8, Cuts (if lead = 0xfd then return (← u16).toNat else if lead = 0xfe then return (← u32).toNat
      else if lead = 0xff then return (← u64).toNat else return lead.toNat : Read Nat)
      fun data n => ∃ form : VarintForm, form.Holds n ∧ [lead] ++ data = form.write n := by
    intro lead
    refine Cuts.ite (fun fd => ?_) fun nfd => Cuts.ite (fun fe => ?_) fun nfe =>
      Cuts.ite (fun ff => ?_) fun nff => ?_
    · refine (cuts_u16.bind fun v => Cuts.pure v.toNat).weaken ?_
      rintro data n ⟨first, second, v, rfl, rfl, rfl, rfl⟩
      exact ⟨.two, v.toNat_lt, by rw [List.append_nil, fd]; rfl⟩
    · refine (cuts_u32.bind fun v => Cuts.pure v.toNat).weaken ?_
      rintro data n ⟨first, second, v, rfl, rfl, rfl, rfl⟩
      exact ⟨.four, v.toNat_lt, by rw [List.append_nil, fe]; rfl⟩
    · refine (cuts_u64.bind fun v => Cuts.pure v.toNat).weaken ?_
      rintro data n ⟨first, second, v, rfl, rfl, rfl, rfl⟩
      exact ⟨.eight, v.toNat_lt, by rw [List.append_nil, ff]; rfl⟩
    · refine (Cuts.pure lead.toNat).weaken ?_
      rintro data n ⟨rfl, rfl⟩
      have below : lead.toNat < 0xfd := by
        have most := lead.toNat_lt
        rw [← UInt8.toNat_inj] at nfd nfe nff
        change lead.toNat ≠ 253 at nfd
        change lead.toNat ≠ 254 at nfe
        change lead.toNat ≠ 255 at nff
        omega
      exact ⟨.byte, below, by rw [List.append_nil, VarintForm.write, UInt8.ofNat_toNat]⟩
  refine (cuts_u8.bind rest).weaken ?_
  rintro data n ⟨first, second, lead, rfl, rfl, form, holds, shape⟩
  exact ⟨form, holds, shape⟩

/-- A count comes back from any form with room for it. -/
theorem gives_form {form : VarintForm} {n : Nat} (holds : form.Holds n) :
    Gives readVarint (form.write n) n := by
  cases form with
  | byte =>
    have short : n < 0xfd := holds
    have byte : (UInt8.ofNat n).toNat = n := UInt8.toNat_ofNat_of_lt' (by rw [UInt8.size]; omega)
    have below : ∀ m : UInt8, 0xfd ≤ m.toNat → UInt8.ofNat n ≠ m := by
      intro m large same
      rw [← same, byte] at large
      omega
    refine (gives_u8 (UInt8.ofNat n)).bind (y := n) (?_ : Gives _ [] n)
    rw [if_neg (below _ (by decide)), if_neg (below _ (by decide)), if_neg (below _ (by decide)), byte]
    exact Gives.pure n
  | two =>
    have number := (gives_u16 (n := n) holds).map fun v => v.toNat
    rw [UInt16.toNat_ofNat_of_lt' holds] at number
    exact (gives_u8 0xfd).bind number
  | four =>
    have number := (gives_u32 (n := n) holds).map fun v => v.toNat
    rw [UInt32.toNat_ofNat_of_lt' holds] at number
    exact (gives_u8 0xfe).bind number
  | eight =>
    have number := (gives_u64 (n := n) holds).map fun v => v.toNat
    rw [UInt64.toNat_ofNat_of_lt' holds] at number
    exact (gives_u8 0xff).bind number

theorem VarintForm.write_least (n : Nat) : (least n).write n = writeVarint n := by
  unfold least writeVarint
  split
  · rfl
  · split
    · rfl
    · split
      · rfl
      · rfl

theorem VarintForm.holds_least {n : Nat} (fits : n ≤ u64Max) : (least n).Holds n := by
  unfold u64Max at fits
  unfold least
  split
  · rename_i one
    exact one
  · split
    · exact Nat.lt_succ_of_le ‹n ≤ 0xffff›
    · split
      · exact Nat.lt_succ_of_le ‹n ≤ 0xffffffff›
      · exact Nat.lt_of_le_of_lt fits (by decide)

end Varint

section Outputs

/-- Outputs as bytes, each script's length in some form. -/
def Written (data : Bytes) (outputs : List TxOut) : Prop :=
  (∀ o ∈ outputs, o.script.length ≤ 10000 ∧ o.value ≤ u64Max) ∧ ∃ forms : List VarintForm,
    List.Forall₂ (fun form (o : TxOut) => form.Holds o.script.length) forms outputs ∧
    data = (List.zipWith writeOutputAs forms outputs).flatten

private theorem cuts_outputs (n : Nat) : Cuts (readOutputs n) fun data outputs =>
    outputs.length = n ∧ Written data outputs := by
  induction n with
  | zero =>
    refine (Cuts.pure ([] : List TxOut)).weaken ?_
    rintro data outputs ⟨rfl, rfl⟩
    exact ⟨rfl, fun o member => (List.not_mem_nil member).elim, [], .nil, rfl⟩
  | succ more ih =>
    have last :
      ∀ (value : UInt64) (sl : Nat), Cuts (if 10000 < sl then throw (.malformed "coinbase output script length")
        else do
          let script ← take sl
          return ⟨value.toNat, script⟩ :: (← readOutputs more) : Read (List TxOut)) fun data outputs =>
        sl ≤ 10000 ∧ ∃ script after rest, script.length = sl ∧ data = script ++ after ∧
          (rest.length = more ∧ Written after rest) ∧ outputs = ⟨value.toNat, script⟩ :: rest := by
      intro value sl
      refine Cuts.ite (fun _ => Cuts.throw _ _) fun short =>
        ((cuts_take sl).bind fun script => ih.bind fun rest => Cuts.pure (⟨value.toNat, script⟩ :: rest)).weaken
          ?_
      rintro data outputs ⟨_, _, script, rfl, ⟨rfl, size⟩, after, _, rest, rfl, shaped, rfl, rfl⟩
      exact ⟨Nat.not_lt.mp short, script, after, rest, size, by rw [List.append_nil], shaped, rfl⟩
    refine (cuts_u64.bind fun value => cuts_varint.bind (last value)).weaken ?_
    rintro data outputs
      ⟨_, _, value, rfl, rfl, _, _, sl, rfl, ⟨form, holds, rfl⟩, short,
        script, after, rest, rfl, rfl, ⟨count, each, forms, hold, rfl⟩, rfl⟩
    refine ⟨congrArg Nat.succ count, ?_, form :: forms, .cons holds hold, ?_⟩
    · intro o member
      rcases List.mem_cons.mp member with rfl | later
      · exact ⟨short, Nat.le_of_lt_succ value.toNat_lt⟩
      · exact each o later
    · simp [writeOutputAs]

private theorem gives_outputsAs {forms : List VarintForm} {outputs : List TxOut}
    (hold : List.Forall₂ (fun form (o : TxOut) => form.Holds o.script.length) forms outputs)
    (short : ∀ o ∈ outputs, o.script.length ≤ 10000) (values : ∀ o ∈ outputs, o.value ≤ u64Max) :
    Gives (readOutputs outputs.length) (List.zipWith writeOutputAs forms outputs).flatten outputs := by
  induction hold with
  | nil => exact Gives.pure []
  | cons holds hold ih =>
    rename_i form o forms rest
    have later := ih (fun other member => short other (List.mem_cons_of_mem o member))
      fun other member => values other (List.mem_cons_of_mem o member)
    have fits : o.value < 2 ^ 64 := Nat.lt_succ_of_le (values o List.mem_cons_self)
    have amount : (UInt64.ofNat o.value).toNat = o.value := UInt64.toNat_ofNat_of_lt' fits
    rw [List.zipWith_cons_cons, List.flatten_cons, writeOutputAs, List.append_assoc, List.append_assoc]
    refine (gives_u64 (n := o.value) fits).bind ((gives_form holds).bind ?_)
    rw [if_neg (Nat.not_lt.mpr (short o List.mem_cons_self)), amount]
    exact (gives_take o.script).bind (later.map fun outs => o :: outs)

end Outputs

section Whole

variable {cb : Coinbase} {forms : Forms} {b : Bytes}

/-- What stands before the lock time. -/
def Coinbase.upToLockTime (cb : Coinbase) (forms : Forms) : Bytes :=
  bytes 4 cb.version.toNat ++ forms.inputs.write 1 ++ (List.replicate 32 0 ++ List.replicate 4 0xff) ++
    forms.scriptSig.write cb.scriptSig.length ++ cb.scriptSig ++ bytes 4 cb.sequence.toNat ++
    forms.outputs.write cb.outputs.length ++ (List.zipWith writeOutputAs forms.scripts cb.outputs).flatten

private theorem parse_sound (parsed : parse b = .ok cb) : cb.Parses ∧ cb.height = bip34Height cb.scriptSig ∧
    ∃ forms : Forms, forms.Hold cb ∧ b = cb.writeAs forms ∧ cb.lockTimeAt = (cb.upToLockTime forms).length := by
  obtain ⟨⟨cb', c⟩, run, same⟩ :=
    Fallible.bind_eq_ok.mp (show (readCoinbase (between [] b) >>= fun out => .ok out.1) = .ok cb from parsed)
  obtain rfl : cb' = cb := Except.ok.inj same
  unfold readCoinbase at run
  obtain ⟨version, c1, here, run⟩ := bind_ok run
  obtain ⟨-, rest, rfl, rfl, rfl⟩ := cuts_u32 _ _ _ _ here
  obtain ⟨count, c1, here, run⟩ := bind_ok run
  obtain ⟨-, rest, rfl, rfl, inputs, one, rfl⟩ := cuts_varint _ _ _ _ here
  by_cases many : count ≠ 1
  · rw [if_pos many] at run
    cases run
  rw [if_neg many] at run
  rw [not_not] at many
  subst many
  obtain ⟨prevout, c1, here, run⟩ := bind_ok run
  obtain ⟨_, rest, rfl, rfl, rfl, thirtySix⟩ := cuts_take 36 _ _ _ _ here
  by_cases null : prevout.take 32 ≠ List.replicate 32 0 ∨ prevout.drop 32 ≠ List.replicate 4 0xff
  · rw [if_pos null] at run
    cases run
  rw [if_neg null] at run
  rw [not_or, not_not, not_not] at null
  obtain ⟨n, c1, here, run⟩ := bind_ok run
  obtain ⟨_, rest, rfl, rfl, sigForm, sigHolds, rfl⟩ := cuts_varint _ _ _ _ here
  by_cases sized : n < 2 ∨ 100 < n
  · rw [if_pos sized] at run
    cases run
  rw [if_neg sized] at run
  obtain ⟨scriptSig, c1, here, run⟩ := bind_ok run
  obtain ⟨_, rest, rfl, rfl, rfl, sigLength⟩ := cuts_take n _ _ _ _ here
  subst sigLength
  obtain ⟨sequence, c1, here, run⟩ := bind_ok run
  obtain ⟨_, rest, rfl, rfl, rfl⟩ := cuts_u32 _ _ _ _ here
  rw [get_bind_eq] at run
  obtain ⟨nout, c1, here, run⟩ := bind_ok run
  obtain ⟨_, rest, rfl, rfl, outForm, outHolds, rfl⟩ := cuts_varint _ _ _ _ here
  by_cases none : nout = 0 ∨ 10000 < nout
  · rw [if_pos none] at run
    cases run
  rw [if_neg none] at run
  obtain ⟨outputs, c1, here, run⟩ := bind_ok run
  obtain ⟨_, rest, rfl, rfl, count, each, scripts, hold, rfl⟩ := cuts_outputs nout _ _ _ _ here
  rw [get_bind_eq] at run
  obtain ⟨lockTime, c1, here, run⟩ := bind_ok run
  obtain ⟨_, rest, rfl, rfl, rfl⟩ := cuts_u32 _ _ _ _ here
  rw [get_bind_eq] at run
  split at run
  · cases run
  rename_i done
  rw [remaining_between, not_not, List.length_eq_zero_iff] at done
  subst done count
  have whole := Prod.mk.inj (Except.ok.inj run)
  rw [← whole.1]
  have outpoint : prevout = List.replicate 32 0 ++ List.replicate 4 0xff := by
    rw [← null.1, ← null.2, List.take_append_drop]
  have paid : outputs ≠ [] := fun empty => none (.inl (by rw [empty, List.length_nil]))
  have sig : 2 ≤ scriptSig.length ∧ scriptSig.length ≤ 100 := by omega
  have few : outputs.length ≤ 10000 := by omega
  refine ⟨⟨sig.1, sig.2, paid, few, fun o member => (each o member).1, fun o member => (each o member).2⟩, rfl,
    ⟨inputs, sigForm, outForm, scripts⟩, ⟨one, sigHolds, outHolds, hold⟩, ?_, ?_⟩
  · simp [Coinbase.writeAs, outpoint]
  · simp [Coinbase.upToLockTime, outpoint]

private theorem parse_writeAs (hold : forms.Hold cb) (parses : cb.Parses) :
    ∃ back, parse (cb.writeAs forms) = .ok back ∧ back.height = bip34Height cb.scriptSig ∧
      back.outputs = cb.outputs ∧ back.scriptSig = cb.scriptSig := by
  have count : 0 < cb.outputs.length := List.length_pos_iff.mpr parses.paid
  have outpoint : Gives (take 36) (List.replicate 32 0 ++ List.replicate 4 0xff)
      (List.replicate 32 0 ++ List.replicate 4 0xff) :=
        gives_take (List.replicate 32 0 ++ List.replicate 4 0xff)
  have whole : ([] : Bytes) ++ cb.writeAs forms = [] ++ (bytes 4 cb.version.toNat ++ (forms.inputs.write 1 ++
      ((List.replicate 32 0 ++ List.replicate 4 0xff) ++
        (forms.scriptSig.write cb.scriptSig.length ++ (cb.scriptSig ++
        (bytes 4 cb.sequence.toNat ++ (forms.outputs.write cb.outputs.length ++
          ((List.zipWith writeOutputAs forms.scripts cb.outputs).flatten ++
            (bytes 4 cb.lockTime.toNat ++ []))))))))) := by
    simp [Coinbase.writeAs]
  obtain ⟨back, c, run, facts⟩ : ∃ back c, readCoinbase (between [] (cb.writeAs forms)) = .ok (back, c) ∧
      back.height = bip34Height cb.scriptSig ∧ back.outputs = cb.outputs ∧ back.scriptSig = cb.scriptSig := by
    unfold between
    rw [whole]
    change ∃ back c, readCoinbase (between [] _) = _ ∧ _
    unfold readCoinbase
    rw [(gives_u32 cb.version.toNat_lt).bind_eq, (gives_form hold.inputs).bind_eq, if_neg (by decide)]
    dsimp only
    rw [outpoint.bind_eq, if_neg (by decide)]
    rw [(gives_form hold.scriptSig).bind_eq, if_neg (by have := parses.least; have := parses.most; omega)]
    rw [(gives_take _).bind_eq, (gives_u32 cb.sequence.toNat_lt).bind_eq, get_bind_eq]
    rw [(gives_form hold.outputs).bind_eq, if_neg (by have := parses.few; omega)]
    rw [(gives_outputsAs hold.scripts parses.scripts parses.values).bind_eq, get_bind_eq]
    rw [(gives_u32 cb.lockTime.toNat_lt).bind_eq, get_bind_eq, if_neg (by simp)]
    exact ⟨_, _, rfl, rfl, rfl, rfl⟩
  exact ⟨back, congrArg (Prod.fst <$> ·) run, facts⟩

/-- The shortest forms there are for a coinbase's counts. -/
def Coinbase.leastForms (cb : Coinbase) : Forms where
  inputs := .least 1
  scriptSig := .least cb.scriptSig.length
  outputs := .least cb.outputs.length
  scripts := cb.outputs.map fun o => .least o.script.length

theorem Coinbase.Parses.hold (parses : cb.Parses) : cb.leastForms.Hold cb := by
  have small : ∀ n ≤ 10000, (VarintForm.least n).Holds n :=
    fun n most => VarintForm.holds_least (most.trans (by decide))
  refine ⟨small 1 (by decide), small _ (parses.most.trans (by decide)), small _ parses.few, ?_⟩
  rw [leastForms, List.forall₂_map_left_iff, List.forall₂_same]
  exact fun o member => small _ (parses.scripts o member)

/-- The form with a witness is the coinbase's own bytes with the marker and the flag after the version, and the
witness before the lock time. -/
theorem withWitness_shape (parsed : parse b = .ok cb) : ∃ version body lockTime : Bytes, version.length = 4 ∧
    lockTime.length = 4 ∧ b = version ++ body ++ lockTime ∧
    withWitness b cb = version ++ [0x00, 0x01] ++ body ++ coinbaseWitness ++ lockTime := by
  obtain ⟨-, -, forms, -, whole, lockTimeAt⟩ := parse_sound parsed
  let body := forms.inputs.write 1 ++ (List.replicate 32 0 ++ List.replicate 4 0xff) ++
    forms.scriptSig.write cb.scriptSig.length ++ cb.scriptSig ++ bytes 4 cb.sequence.toNat ++
    forms.outputs.write cb.outputs.length ++ (List.zipWith writeOutputAs forms.scripts cb.outputs).flatten
  have upTo : cb.upToLockTime forms = bytes 4 cb.version.toNat ++ body := by simp [Coinbase.upToLockTime, body]
  have split : b = bytes 4 cb.version.toNat ++ body ++ bytes 4 cb.lockTime.toNat := by
    rw [whole, ← upTo]
    rfl
  refine ⟨bytes 4 cb.version.toNat, body, bytes 4 cb.lockTime.toNat, length_bytes _ _,
    length_bytes _ _, split, ?_⟩
  rw [withWitness, lockTimeAt, upTo, split, List.take_left' rfl, List.drop_left' rfl,
    List.drop_left' (length_bytes 4 cb.version.toNat), List.append_assoc (bytes 4 cb.version.toNat) body,
    List.take_left' (length_bytes 4 cb.version.toNat)]

end Whole

section Build

variable {height lockTime : UInt32} {tag : Bytes} {outputs : List TxOut}

private theorem value_take_of_zeros {s : Bytes} {n : Nat}
    (enough : s.length - (s.reverse.takeWhile (· == 0)).length ≤ n) : value (s.take n) = value s := by
  have top :
      s.drop (s.length - (s.reverse.takeWhile (· == 0)).length) = (s.reverse.takeWhile (· == 0)).reverse := by
    rw [List.prefix_iff_eq_take.mp (List.takeWhile_prefix (l := s.reverse) (· == 0)),
      List.reverse_take, List.reverse_reverse, List.length_reverse,
      List.length_take_of_le (List.takeWhile_prefix (l := s.reverse) (· == 0)).length_le]
  have zeros : s.drop n = List.replicate (s.drop n).length 0 := by
    refine List.eq_replicate_iff.mpr ⟨rfl, fun byte member => ?_⟩
    have among := (List.drop_sublist_drop_left s enough).subset member
    rw [top, List.mem_reverse] at among
    exact beq_iff_eq.mp (List.mem_takeWhile_imp (p := fun b : UInt8 => b == 0) among)
  have parts := value_append (s.take n) (s.drop n)
  rw [List.take_append_drop, zeros, value_replicate_zero, Nat.mul_zero, Nat.add_zero] at parts
  exact parts.symm

private theorem value_heightBytes (height : UInt32) : value (heightBytes height) = height.toNat := by
  have whole : value (bytes 4 height.toNat) = height.toNat := by
    rw [value_bytes]
    exact Nat.mod_eq_of_lt height.toNat_lt
  unfold heightBytes
  rw [value_take_of_zeros, whole]
  rw [length_bytes]
  exact Nat.le_max_left _ _

private theorem length_heightBytes (height : UInt32) :
    1 ≤ (heightBytes height).length ∧ (heightBytes height).length ≤ 4 := by
  unfold heightBytes
  simp only [List.length_take, length_bytes]
  omega

private theorem bip34Height_buildSig (height : UInt32) (tag : Bytes) :
    bip34Height (buildSig height tag) = some height := by
  have size := length_heightBytes height
  have byte : (UInt8.ofNat (heightBytes height).length).toNat = (heightBytes height).length :=
    UInt8.toNat_ofNat_of_lt' (by rw [UInt8.size]; omega)
  have most : UInt8.ofNat (heightBytes height).length ≤ 4 := by
    rw [UInt8.le_iff_toNat_le, byte]
    exact size.2
  have least : 1 ≤ UInt8.ofNat (heightBytes height).length := by
    rw [UInt8.le_iff_toNat_le, byte]
    exact size.1
  have low :
    ¬ (0x51 ≤ UInt8.ofNat (heightBytes height).length ∧ UInt8.ofNat (heightBytes height).length ≤ 0x60) :=
    fun high => absurd (UInt8.le_trans high.1 most) (by decide)
  simp only [buildSig, buildHead, List.cons_append, List.append_assoc, bip34Height]
  rw [if_neg low, if_pos ⟨least, most⟩, byte, if_pos (by simp), List.take_left' rfl,
    value_heightBytes, UInt32.ofNat_toNat]

private theorem length_buildHead (height : UInt32) (tag : Bytes) :
    (buildHead height tag).length = (heightBytes height).length + tag.length + 4 := by
  simp [buildHead]
  omega

private theorem length_buildSig (height : UInt32) (tag : Bytes) :
    (buildSig height tag).length = (buildHead height tag).length + 22 := by
  simp [buildSig, extranonceSlot]

/-- A push of data with its length before it. -/
def pushData (data : Bytes) : Bytes := UInt8.ofNat data.length :: data

private theorem skipPush_pushData {data : Bytes} (before after : Bytes)
    (least : 1 ≤ data.length) (most : data.length ≤ 75) :
    skipPush (before ++ pushData data ++ after) before.length = some (before ++ pushData data).length := by
  have byte : (UInt8.ofNat data.length).toNat = data.length :=
    UInt8.toNat_ofNat_of_lt' (by rw [UInt8.size]; omega)
  have opcode : (before ++ pushData data ++ after)[before.length]? = some (UInt8.ofNat data.length) := by
    rw [List.append_assoc, List.getElem?_append_right (Nat.le_refl _), Nat.sub_self]
    rfl
  have plain : (0x01 : UInt8) ≤ UInt8.ofNat data.length ∧ UInt8.ofNat data.length ≤ 0x4b := by
    rw [UInt8.le_iff_toNat_le, UInt8.le_iff_toNat_le, byte]
    exact ⟨least, most⟩
  rw [skipPush, opcode]
  refine (if_pos plain).trans (congrArg some ?_)
  rw [byte, List.length_append, pushData, List.length_cons]
  omega

private theorem buildSig_pushes (height : UInt32) (tag : Bytes) : ∃ after, buildSig height tag =
    pushData (heightBytes height) ++ pushData (tag ++ [0x00]) ++ 0x07 ::
      ([0xff, 0x00, 0x00, 0x01, 0x00, 0x00, 0x00] ++ after) ∧
      (buildHead height tag).length =
        (pushData (heightBytes height) ++ pushData (tag ++ [0x00])).length + 1 := by
  refine ⟨[0x0e, 0x00, 0x00] ++ List.replicate extranonceSlot 0, ?_, ?_⟩
  · simp [buildSig, buildHead, pushData]
  · simp [buildHead, pushData]
    omega

private theorem scriptSigOf_written {before sig after : Bytes} (lead : before.length = sigAt - 1)
    (short : sig.length < 0xfd) :
    scriptSigOf (before ++ UInt8.ofNat sig.length :: (sig ++ after)) = some sig := by
  have byte : (UInt8.ofNat sig.length).toNat = sig.length :=
    UInt8.toNat_ofNat_of_lt' (by rw [UInt8.size]; omega)
  have behind : (before ++ [UInt8.ofNat sig.length]).length = sigAt := by
    rw [List.length_append, lead]
    rfl
  have whole : before ++ UInt8.ofNat sig.length :: (sig ++ after) = (before ++ [UInt8.ofNat sig.length]) ++
      (sig ++ after) := by
    simp
  refine scriptSigOf_eq_some.mpr ⟨UInt8.ofNat sig.length, ?_, ?_, ?_, ?_⟩
  · rw [← lead, List.getElem?_append_right (Nat.le_refl _), Nat.sub_self]
    rfl
  · rw [UInt8.lt_iff_toNat_lt, byte]
    exact short
  · rw [whole, byte, List.length_append, behind, List.length_append]
    omega
  · rw [whole, List.drop_left' behind, byte, List.take_left' rfl]

private theorem targetByteAt_pushes {legacy sig first second third : Bytes}
    {n : UInt8} (script : scriptSigOf legacy = some sig)
    (shape : sig = pushData first ++ pushData second ++ n :: third) (one : 1 ≤ first.length)
    (few : first.length ≤ 75)
    (one' : 1 ≤ second.length) (few' : second.length ≤ 75) (data : 1 ≤ n.toNat) (most : n.toNat ≤ 75)
    (whole : n.toNat ≤ third.length) :
    targetByteAt legacy = some (sigAt + (pushData first ++ pushData second).length + 1) := by
  have heightPush := skipPush_pushData [] (pushData second ++ n :: third) one few
  rw [List.nil_append, ← List.append_assoc, ← shape] at heightPush
  have tagPush := skipPush_pushData (pushData first) (n :: third) one' few'
  rw [← shape] at tagPush
  have byte : sig[(pushData first ++ pushData second).length]? = some n := by
    rw [shape, List.getElem?_append_right (Nat.le_refl _), Nat.sub_self]
    rfl
  have inside : (pushData first ++ pushData second).length + 1 + n.toNat ≤ sig.length := by
    simp only [shape, List.length_append, List.length_cons]
    omega
  exact targetByteAt_eq_some.mpr ⟨sig, _, _, n, script, heightPush, tagPush, byte,
    ⟨UInt8.le_iff_toNat_le.mpr data, UInt8.le_iff_toNat_le.mpr most, inside⟩, rfl⟩

private theorem targetByteAt_build (short : tag.length ≤ 60) :
    targetByteAt (build height tag outputs lockTime).1 = some (build height tag outputs lockTime).2.1 := by
  have size := length_heightBytes height
  have head := length_buildHead height tag
  have sigLength := length_buildSig height tag
  have count : writeVarint (buildSig height tag).length = [UInt8.ofNat (buildSig height tag).length] := by
    rw [writeVarint, if_pos (by omega)]
  have whole : (build height tag outputs lockTime).1 =
    (bytes 4 1 ++ [1] ++ List.replicate 32 0 ++ List.replicate 4 0xff) ++
      UInt8.ofNat (buildSig height tag).length ::
        (buildSig height tag ++ (bytes 4 0xffffffff ++ writeVarint outputs.length ++
        outputs.flatMap writeOutput ++ bytes 4 lockTime.toNat)) := by
    simp only [build, count, List.append_assoc, List.cons_append, List.nil_append]
  have place : (build height tag outputs lockTime).2.1 = sigAt + (buildHead height tag).length := by
    simp only [build, count, List.length_append, length_bytes, List.length_replicate,
      List.length_cons, List.length_nil, sigAt]
  have script : scriptSigOf (build height tag outputs lockTime).1 = some (buildSig height tag) := by
    rw [whole]
    exact scriptSigOf_written (by simp [sigAt]) (by omega)
  obtain ⟨after, shape, headLength⟩ := buildSig_pushes height tag
  rw [place, headLength]
  have tagLength : (tag ++ [(0x00 : UInt8)]).length = tag.length + 1 := List.length_append
  have idData :
      (0x07 : UInt8).toNat ≤ (([0xff, 0x00, 0x00, 0x01, 0x00, 0x00, 0x00] : Bytes) ++ after).length := by
    rw [List.length_append]
    exact Nat.le_add_right 7 _
  exact targetByteAt_pushes script shape size.1 (by omega) (by omega) (by omega) (by decide) (by decide) idData

/-- What a built coinbase is, once parsed. -/
def built (height : UInt32) (tag : Bytes) (outputs : List TxOut) (lockTime : UInt32) : Coinbase :=
  { version := 1, scriptSig := buildSig height tag, sequence := 0xffffffff, outputs, lockTime }

private theorem build_eq_writeAs : (build height tag outputs lockTime).1 =
    (built height tag outputs lockTime).writeAs (built height tag outputs lockTime).leastForms := by
  have each :
    (List.zipWith writeOutputAs (outputs.map fun o => VarintForm.least o.script.length) outputs).flatten =
      outputs.flatMap writeOutput := by
    induction outputs with
    | nil => rfl
    | cons o rest ih =>
      rw [List.map_cons, List.zipWith_cons_cons, List.flatten_cons, ih, List.flatMap_cons, writeOutputAs,
        VarintForm.write_least]
      rfl
  have one : writeVarint 1 = [1] := rfl
  have version : (1 : UInt32).toNat = 1 := rfl
  have sequence : (0xffffffff : UInt32).toNat = 0xffffffff := rfl
  simp only [build, built, Coinbase.leastForms, Coinbase.writeAs, each,
    VarintForm.write_least, one, version, sequence, List.append_assoc]

private theorem built_parses (short : tag.length ≤ 60) (values : ∀ o ∈ outputs, o.value ≤ u64Max)
    (paid : outputs ≠ []) (few : outputs.length ≤ 10000) (scripts : ∀ o ∈ outputs, o.script.length ≤ 10000) :
    (built height tag outputs lockTime).Parses := by
  have size := length_heightBytes height
  have head := length_buildHead height tag
  have sigLength := length_buildSig height tag
  have least : 2 ≤ (buildSig height tag).length := by omega
  have most : (buildSig height tag).length ≤ 100 := by omega
  exact ⟨least, most, paid, few, scripts, values⟩

private theorem parse_build (height : UInt32) (tag : Bytes) (outputs : List TxOut)
    (lockTime : UInt32) (short : tag.length ≤ 60)
    (values : ∀ o ∈ outputs, o.value ≤ u64Max) (paid : outputs ≠ []) (few : outputs.length ≤ 10000)
    (scripts : ∀ o ∈ outputs, o.script.length ≤ 10000) :
    ∃ cb, parse (build height tag outputs lockTime).1 = .ok cb ∧ cb.height = some height ∧
      cb.outputs = outputs := by
  have parses : (built height tag outputs lockTime).Parses := built_parses short values paid few scripts
  obtain ⟨cb, parsed, sameHeight, sameOutputs, -⟩ := parse_writeAs parses.hold parses
  exact ⟨cb, (congrArg parse build_eq_writeAs).trans parsed,
    sameHeight.trans (bip34Height_buildSig height tag), sameOutputs⟩

end Build

/-- Coinbase parsing is exact. A coinbase that was parsed is all of the bytes it was parsed from, its counts in
the forms they have there; without the marker, the flag and the witness its form with a witness is those bytes;
what it pays are the sums of its outputs, stopping at the top. What is built within the limits is parsed to its
height and its outputs, and has its target byte where building says. -/
theorem coinbase_parse_exact {b : Bytes} {cb : Coinbase} (parsed : parse b = .ok cb)
    (height : UInt32) (tag : Bytes) (outputs : List TxOut) (lockTime : UInt32)
    (short : tag.length ≤ 60) (values : ∀ o ∈ outputs, o.value ≤ u64Max)
    (paid : outputs ≠ []) (few : outputs.length ≤ 10000) (scripts : ∀ o ∈ outputs, o.script.length ≤ 10000) :
    ((∃ forms : Forms, forms.Hold cb ∧ cb.writeAs forms = b) ∧
      (∃ version body lock : Bytes, version.length = 4 ∧ lock.length = 4 ∧ b = version ++ body ++ lock ∧
        withWitness b cb = version ++ [0x00, 0x01] ++ body ++ coinbaseWitness ++ lock) ∧
      cb.totalOutputValue = min (cb.outputs.map TxOut.value).sum u64Max ∧
      ∀ script,
        cb.paidTo script = min ((cb.outputs.filter fun o => o.script == script).map TxOut.value).sum u64Max) ∧
    ∃ back, parse (build height tag outputs lockTime).1 = .ok back ∧ back.height = some height ∧
      back.outputs = outputs ∧
      targetByteAt (build height tag outputs lockTime).1 = some (build height tag outputs lockTime).2.1 := by
  have sum : ∀ amounts : List Nat, amounts.foldl satAdd 0 = min amounts.sum u64Max := fun amounts => by
    rw [foldl_satAdd_eq_min (Nat.zero_le _), Nat.zero_add]
  refine ⟨⟨?_, withWitness_shape parsed, sum _, fun script => sum _⟩, ?_⟩
  · obtain ⟨-, -, forms, hold, whole, -⟩ := parse_sound parsed
    exact ⟨forms, hold, whole.symm⟩
  · obtain ⟨back, again, sameHeight, sameOutputs⟩ :=
      parse_build height tag outputs lockTime short values paid few scripts
    exact ⟨back, again, sameHeight, sameOutputs, targetByteAt_build short⟩

theorem coinbase_parse_exact_one : ∃ cb, parse (build 7 [0x6c] [⟨5, [0x51]⟩] 0).1 = .ok cb ∧
    cb.height = some 7 ∧ cb.totalOutputValue = 5 := by
  obtain ⟨cb, parsed, height, outputs⟩ := parse_build 7 [0x6c] [⟨5, [0x51]⟩] 0
    (by decide) (by decide) (by decide) (by decide) (by decide)
  have total := (coinbase_parse_exact parsed 7 [0x6c] [⟨5, [0x51]⟩] 0
    (by decide) (by decide) (by decide) (by decide) (by decide)).1.2.2.1
  refine ⟨cb, parsed, height, total.trans ?_⟩
  rw [outputs]
  rfl

/-- An output script or a count of outputs past its limit is built and not parsed, and a sum past 64
bits stops at the top. -/
theorem built_not_parsed :
    (¬ ∃ cb, parse (build 0 [] [⟨0, List.replicate 10001 0⟩] 0).1 = .ok cb ∧
      cb.outputs = [⟨0, List.replicate 10001 0⟩]) ∧
    (¬ ∃ cb, parse (build 0 [] (List.replicate 10001 ⟨0, []⟩) 0).1 = .ok cb ∧
      cb.outputs = List.replicate 10001 ⟨0, []⟩) ∧
    ∃ cb, parse (build 0 [] [⟨u64Max, []⟩, ⟨1, []⟩] 0).1 = .ok cb ∧
      cb.totalOutputValue ≠ (cb.outputs.map TxOut.value).sum := by
  refine ⟨?_, ?_, ?_⟩
  · rintro ⟨cb, parsed, outputs⟩
    have limit := (parse_sound parsed).1.scripts ⟨0, List.replicate 10001 0⟩
      (by rw [outputs]; exact List.mem_singleton_self _)
    rw [List.length_replicate] at limit
    omega
  · rintro ⟨cb, parsed, outputs⟩
    have limit := (parse_sound parsed).1.few
    rw [outputs, List.length_replicate] at limit
    omega
  · obtain ⟨cb, parsed, -, outputs⟩ := parse_build 0 [] [⟨u64Max, []⟩, ⟨1, []⟩] 0
      (by decide) (by decide) (by decide) (by decide) (by decide)
    refine ⟨cb, parsed, ?_⟩
    rw [Coinbase.totalOutputValue, outputs, foldl_satAdd_eq_min (Nat.zero_le _)]
    decide

end Lazarus.Wire
