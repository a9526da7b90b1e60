import Lazarus.Lib.Machine
import Lazarus.Wire.Pow

/-! The node's tip and the jobs held to it: how a tip is read from the node, and what it says of the block
a job claims to build. -/

namespace Lazarus.Primed

open Machine LittleEndian Wire

/-- The node's tip. `hashLe` and `parentLe` are in the byte order a job carries them; `bits` and
`nextBits` are the compact targets of the tip and of the block after it. None is something the node did
not say. -/
structure Tip where
  height : Nat
  hash : String := ""
  hashLe : Option Hash := none
  parentLe : Option Hash := none
  bits : Option UInt32 := none
  nextBits : Option UInt32 := none
  seenAt : Nat := 0
deriving DecidableEq

/-- What the tip says about the block a job claims to build. -/
inductive JobCheck where
  | current
  | otherBranch
  | aheadByOne
  | stale
  | ahead
  | wrongBits
deriving DecidableEq

/-- Whether work on the job is taken. -/
def JobCheck.taken : JobCheck → Bool
  | current | otherBranch | aheadByOne => true
  | stale | ahead | wrongBits => false

/-- Whether a compact target is easier than four times another, the most a retarget allows. One that
does not decode is not a target at all. -/
def easierThan4x (nbits tipBits : UInt32) : Bool :=
  match nbitsToTargetLe nbits with
  | none => true
  | some t =>
    match nbitsToTargetLe tipBits with
    | none => false
    | some cap =>
      -- four times the cap overflows 256 bits: no bound to apply
      if cap.val.getD 31 0 >>> 6 ≠ 0 then false else decide ((shlBits 2 0 cap.val).reverse < t.val.reverse)

namespace Tip

/-- The judgement of a job whose height the chain can use, given the block our node has under it and the
target our node holds it to. -/
def judge (tip : Tip) (prevHash : Hash) (height : Nat) (nbits : UInt32) (parent : Option Hash)
    (reference : Option UInt32) : JobCheck :=
  let ours := parent = some prevHash
  let isExact := reference = some nbits
  let possible := (tip.bits.map fun tipBits => !easierThan4x nbits tipBits).getD true
  -- the node gave no figure, or this is a retarget block being built somewhere our node is not
  let isOpen := reference.isNone || (!ours && height % 2016 = 0)
  if !(isExact || (isOpen && possible)) then .wrongBits
  else if ours then .current
  else if height = tip.height + 2 then .aheadByOne
  else .otherBranch

/-- Hold a job to the node's chain. A height that overflows stops the session before it has an answer. -/
def checkJob (tip : Tip) (prevHash : Hash) (height : Nat) (nbits : UInt32)
    (grace now : Nat) : Option JobCheck :=
  let expected := tip.height + 1
  if u32Max < expected then none
  else if height = expected then some (tip.judge prevHash height nbits tip.hashLe tip.nextBits)
  else if u32Max < expected + 1 then none
  else if height = expected + 1 then some (tip.judge prevHash height nbits none tip.nextBits)
  else if expected < height then some .ahead
  else if height + 1 = expected ∧ now - tip.seenAt < grace then
    some (tip.judge prevHash height nbits tip.parentLe tip.bits)
  else some .stale

/-- Work on the job is taken. -/
def takes (tip : Tip) (prevHash : Hash) (height : Nat) (nbits : UInt32) (grace now : Nat) : Bool :=
  ((tip.checkJob prevHash height nbits grace now).map JobCheck.taken).getD false

end Tip

section Refresh

def hexDigit (c : Char) : Option Nat :=
  if '0' ≤ c ∧ c ≤ '9' then some (c.toNat - '0'.toNat)
  else if 'a' ≤ c ∧ c ≤ 'f' then some (c.toNat - 'a'.toNat + 10)
  else if 'A' ≤ c ∧ c ≤ 'F' then some (c.toNat - 'A'.toNat + 10)
  else none

def hexDecode : List Char → Option Bytes
  | [] => some []
  | [_] => none
  | high :: low :: rest => do
    let high ← hexDigit high
    let low ← hexDigit low
    let bytes ← hexDecode rest
    return UInt8.ofNat (16 * high + low) :: bytes

/-- A block hash as the node prints it, in the byte order it has on the wire. -/
def hashLe (hexBe : String) : Option Hash := do
  let h ← hexDecode hexBe.toList
  if size : h.length = 32 then some ⟨h.reverse, by simp [size]⟩ else none

/-- A compact target as the node prints it. -/
def compact (v : String) : Option UInt32 :=
  let digits := match v.toList with
    | '+' :: rest => rest
    | all => all
  if digits = [] then none
  else do
    let n ← digits.foldlM (fun n c => (hexDigit c).map fun digit => 16 * n + digit) 0
    if n ≤ u32Max then some (UInt32.ofNat n) else none

/-- What the node answered, none where a call failed or a field was not there. -/
structure ChainInfo where
  blocks : Option Nat := none
  bestblockhash : Option String := none

@[inherit_doc ChainInfo]
structure BlockHeader where
  previousblockhash : Option String := none
  bits : Option String := none

@[inherit_doc ChainInfo]
structure MiningInfo where
  blocks : Option Nat := none
  nextBits : Option String := none

@[inherit_doc ChainInfo]
structure Answers where
  getblockchaininfo : Option ChainInfo := none
  getblockheader : Option BlockHeader := none
  getmininginfo : Option MiningInfo := none

/-- Whether the block after this height must carry the target of the block at it. -/
def nextBitsFollowTip (network : String) (height : Nat) : Bool :=
  if network = "regtest" then true
  else if network = "mainnet" ∨ network = "signet" then !((height + 1) % 2016 = 0)
  else false

/-- Read the node's tip and publish it. Either lookup beside the tip can fail on its own; the tip is then
published without it, and the next call asks again. -/
def refreshLocked (network : String) (snapshot : Option Tip) (node : Answers) (now : Nat) : Option Tip := do
  let info ← node.getblockchaininfo
  let height := info.blocks.getD 0 % 2 ^ 32
  let hash := info.bestblockhash.getD ""
  let current := snapshot.filter fun t => t.hash = hash
  let parent := current.bind Tip.parentLe
  let bits := current.bind Tip.bits
  let header := if parent.isNone || bits.isNone then node.getblockheader else none
  let parent := (header.map fun h => h.previousblockhash.bind Primed.hashLe).getD parent
  let bits := (header.map fun h => h.bits.bind compact).getD bits
  let reported := current.bind Tip.nextBits
  let reported := match reported with
    | some next => some next
    | none => (node.getmininginfo.filter fun m => m.blocks = some height).bind fun m => m.nextBits.bind compact
  let nextBits := match reported with
    | some next => some next
    | none => bits.filter fun _ => nextBitsFollowTip network height
  let seenAt := (current.map Tip.seenAt).getD now
  return { height, hash, hashLe := Primed.hashLe hash, parentLe := parent, bits, nextBits, seenAt }

end Refresh

section Target

private theorem top_shiftRight_eq_zero (cap : Hash) : cap.val.getD 31 0 >>> 6 = 0 ↔
    4 * value cap.val < 256 ^ 32 := by
  have size : cap.val.length = 32 := cap.property
  have top : cap.val.drop 31 = [cap.val.getD 31 0] := by
    rw [List.drop_eq_getElem_cons (by omega), List.drop_eq_nil_of_le (by omega),
      List.getD_eq_getElem _ _ (by omega)]
  have share : value cap.val / 256 ^ 31 = (cap.val.getD 31 0).toNat := by
    rw [← value_drop, top, value_cons, value_nil, Nat.mul_zero, Nat.add_zero]
  have shifted : (cap.val.getD 31 0 >>> 6).toNat = (cap.val.getD 31 0).toNat / 64 := by
    rw [UInt8.toNat_shiftRight, Nat.shiftRight_eq_div_pow]
    rfl
  rw [← UInt8.toNat_inj, shifted, ← share]
  show value cap.val / 256 ^ 31 / 64 = 0 ↔ _
  omega

private theorem value_shlBits_two {cap : Hash} (fits : 4 * value cap.val < 256 ^ 32) :
    value (shlBits 2 0 cap.val) = 4 * value cap.val := by
  rw [value_shlBits (by decide) (by decide) (by decide), cap.property]
  show (0 + 4 * value cap.val) % _ = _
  rw [Nat.zero_add, Nat.mod_eq_of_lt fits]

private theorem easierThan4x_eq_false {nbits tipBits : UInt32} :
    easierThan4x nbits tipBits = false ↔
      ∃ t, nbitsToTargetLe nbits = some t ∧ ∀ cap, nbitsToTargetLe tipBits = some cap →
        value t.val ≤ 4 * value cap.val := by
  unfold easierThan4x
  cases nbitsToTargetLe nbits with
  | none => simp
  | some t =>
    cases nbitsToTargetLe tipBits with
    | none => simp
    | some cap =>
      have size : (shlBits 2 0 cap.val).length = t.val.length := by
        rw [length_shlBits, cap.property, t.property]
      by_cases top : cap.val.getD 31 0 >>> 6 = 0
      · have fits := (top_shiftRight_eq_zero cap).mp top
        simp only [top, ne_eq, not_true_eq_false, if_false, decide_eq_false_iff_not, reverse_lt_iff size,
          value_shlBits_two fits, Nat.not_lt, Option.some.injEq, exists_eq_left', forall_eq']
      · have wide : ¬ 4 * value cap.val < 256 ^ 32 := fun fits => top ((top_shiftRight_eq_zero cap).mpr fits)
        have small := value_lt t.val
        rw [t.property] at small
        simp only [top, ne_eq, not_false_eq_true, if_true, Option.some.injEq,
          exists_eq_left', forall_eq', true_iff]
        omega

/-- **Targets are what they claim**, bytes taken as numbers. A power-of-two target is its power, a
compact one its mantissa moved by its exponent, meeting one is being at most it, a hash meets the powers
up to its own, and a target is easier than four times another when it is more than that, where four times
the other is a target at all. -/
theorem targets_exact :
    (∀ pot : UInt8, pot < 224 → ∃ t, shareTargetLe pot = some t ∧ value t.val = (2 ^ 224 - 1) >>> pot.toNat) ∧
    (∀ nbits : UInt32, (nbits >>> 24).toNat ≤ 32 →
      (nbitsToTargetLe nbits = none ↔ nbits &&& 0x00800000 ≠ 0 ∨ nbits &&& 0x007fffff = 0) ∧
      ∀ t, nbitsToTargetLe nbits = some t →
        value t.val = (nbits &&& 0x007fffff).toNat * 256 ^ (nbits >>> 24).toNat / 256 ^ 3) ∧
    (∀ h t : Hash, meetsTarget h t = true ↔ value h.val ≤ value t.val) ∧
    (∀ (h : Hash) (pot : UInt8), value h.val < 2 ^ 224 → pot < 224 → ∀ t, shareTargetLe pot = some t →
      (meetsTarget h t = true ↔ pot.toNat ≤ hashPot h)) ∧
    ∀ (nbits tipBits : UInt32) (t cap : Hash), nbitsToTargetLe nbits = some t →
      nbitsToTargetLe tipBits = some cap → 4 * value cap.val < 2 ^ 256 →
      (easierThan4x nbits tipBits = true ↔ 4 * value cap.val < value t.val) := by
  refine ⟨?_, ?_, fun h t => meetsTarget_iff, ?_, ?_⟩
  · intro pot within
    obtain ⟨t, found⟩ := exists_shareTargetLe within
    refine ⟨t, found, ?_⟩
    rw [Nat.shiftRight_eq_div_pow, (shareTargetLe_eq_some found).2]
  · intro nbits fits
    refine ⟨nbitsToTargetLe_eq_none fits, fun t found => ?_⟩
    have decoded : ¬ (nbits &&& 0x00800000 ≠ 0 ∨ nbits &&& 0x007fffff = 0) := by
      rw [← nbitsToTargetLe_eq_none fits, found]
      exact Option.some_ne_none t
    obtain ⟨t', found', number⟩ := nbitsToTargetLe_value fits decoded
    rw [found] at found'
    cases found'
    exact number
  · intro h pot below within t found
    exact meetsTarget_shareTargetLe_iff found below
  · intro nbits tipBits t cap found foundCap fits
    rw [← Bool.not_eq_false, easierThan4x_eq_false]
    simp [found, foundCap]

end Target

namespace Tip

/-- The block our node has under a job of this height. -/
def parentAt (tip : Tip) (height : Nat) : Option Hash :=
  if height = tip.height then tip.parentLe else if height = tip.height + 1 then tip.hashLe else none

/-- The target our node holds a block of this height to, where it said: the tip's own or that of the
block after it, which stands for the one after that too. -/
def reference (tip : Tip) (height : Nat) : Option UInt32 :=
  if height = tip.height then tip.bits else tip.nextBits

/-- The heights a job is still taken for: the tip's inside the grace period, and the two after it. -/
def Live (tip : Tip) (height grace now : Nat) : Prop :=
  tip.height + 1 ≤ u32Max ∧ (height = tip.height + 1 ∨
    tip.height + 2 ≤ u32Max ∧ (height = tip.height + 2 ∨ height = tip.height ∧ now - tip.seenAt < grace))

/-- The node's figure is not the last word: it gave none, or this is a retarget block being built
somewhere our node is not. -/
def Open (tip : Tip) (prevHash : Hash) (height : Nat) : Prop :=
  tip.reference height = none ∨ tip.parentAt height ≠ some prevHash ∧ height % 2016 = 0

theorem Live.range {tip : Tip} {height grace now : Nat} (live : tip.Live height grace now) :
    tip.height ≤ height ∧ height ≤ tip.height + 2 := by
  unfold Live at live
  omega

theorem judge_taken {tip : Tip} {prevHash : Hash} {height : Nat} {nbits : UInt32} {parent : Option Hash}
    {reference : Option UInt32} :
    (tip.judge prevHash height nbits parent reference).taken = true ↔
      reference = some nbits ∨ (reference = none ∨ parent ≠ some prevHash ∧ height % 2016 = 0) ∧
        ∀ tipBits, tip.bits = some tipBits → easierThan4x nbits tipBits = false := by
  have possible : (tip.bits.map fun tipBits => !easierThan4x nbits tipBits).getD true = true ↔
      ∀ tipBits, tip.bits = some tipBits → easierThan4x nbits tipBits = false := by
    cases tip.bits with
    | none => simp
    | some tipBits => simp
  rw [← possible]
  unfold judge
  simp only
  split
  · rename_i refused
    simp only [Bool.not_eq_true', Bool.or_eq_false_iff, Bool.and_eq_false_iff, decide_eq_false_iff_not,
      Option.isNone_eq_false_iff, Option.isSome_iff_ne_none, Bool.not_eq_false', decide_eq_true_eq] at refused
    simp only [JobCheck.taken, Bool.false_eq_true, false_iff, not_or, not_and_or, Bool.not_eq_true]
    tauto
  · rename_i allowed
    have taken : (if parent = some prevHash then JobCheck.current
        else if height = tip.height + 2 then .aheadByOne else .otherBranch).taken = true := by
      split
      · rfl
      · split
        · rfl
        · rfl
    simp only [Bool.not_eq_true', Bool.not_eq_false, Bool.or_eq_true, Bool.and_eq_true, decide_eq_true_eq,
      Option.isNone_iff_eq_none, decide_eq_false_iff_not] at allowed
    exact ⟨fun _ => allowed, fun _ => taken⟩

theorem checkJob_of_live {tip : Tip} {prevHash : Hash} {height : Nat} {nbits : UInt32} {grace now : Nat}
    (live : tip.Live height grace now) :
    tip.checkJob prevHash height nbits grace now =
      some (tip.judge prevHash height nbits (tip.parentAt height) (tip.reference height)) := by
  obtain ⟨fits, place⟩ := live
  have here : ¬ u32Max < tip.height + 1 := by omega
  rcases place with next | ⟨room, after | ⟨own, inside⟩⟩
  · subst next
    simp [checkJob, here, parentAt, reference]
  · subst after
    have room' : ¬ u32Max < tip.height + 1 + 1 := by omega
    simp [checkJob, here, room', parentAt, reference]
  · subst own
    have room' : ¬ u32Max < tip.height + 1 + 1 := by omega
    simp [checkJob, here, room', parentAt, reference, inside, show ¬ tip.height = tip.height + 1 + 1 by omega]

theorem not_taken_of_not_live {tip : Tip} {prevHash : Hash} {height : Nat} {nbits : UInt32} {grace now : Nat}
    (gone : ¬ tip.Live height grace now) : tip.takes prevHash height nbits grace now = false := by
  unfold Live at gone
  unfold takes checkJob
  simp only
  split
  · rfl
  · split
    · exact absurd ⟨by omega, .inl (by assumption)⟩ gone
    · split
      · rfl
      · split
        · exact absurd ⟨by omega, .inr ⟨by omega, .inl (by omega)⟩⟩ gone
        · split
          · rfl
          · split
            · rename_i own
              exact absurd ⟨by omega, .inr ⟨by omega, .inr ⟨by omega, own.2⟩⟩⟩ gone
            · rfl

/-- A job is taken for a live height, under the node's figure or, where that is not the last word, under
any target that is not too easy for the tip. -/
theorem takes_iff {tip : Tip} {prevHash : Hash} {height : Nat} {nbits : UInt32} {grace now : Nat} :
    tip.takes prevHash height nbits grace now = true ↔
      tip.Live height grace now ∧ (tip.reference height = some nbits ∨ tip.Open prevHash height ∧
        ∀ tipBits, tip.bits = some tipBits → easierThan4x nbits tipBits = false) := by
  by_cases live : tip.Live height grace now
  · unfold takes
    rw [checkJob_of_live live, Option.map_some, Option.getD_some, judge_taken]
    exact ⟨fun allowed => ⟨live, allowed⟩, And.right⟩
  · rw [not_taken_of_not_live live]
    simp [live]

/-- A target of at most four times the tip's, both as numbers. -/
def WithinFour (tip : Tip) (nbits : UInt32) : Prop :=
  ∃ tipBits t cap, tip.bits = some tipBits ∧ nbitsToTargetLe nbits = some t ∧
    nbitsToTargetLe tipBits = some cap ∧ value t.val ≤ 4 * value cap.val

/-- A job's target is held to the chain: it is taken only under the node's figure for its height or under
at most four times the tip's, and not at all where the node gave neither. -/
structure Holds (tip : Tip) (prevHash : Hash) (height : Nat) (nbits : UInt32) (grace now : Nat) : Prop where
  bounded : tip.takes prevHash height nbits grace now = true →
    tip.reference height = some nbits ∨ tip.WithinFour nbits
  refused : tip.reference height = none → tip.bits = none → tip.takes prevHash height nbits grace now = false

/-- A job whose target nothing is held against: the node's figure for its height is not the last word, and
the tip's own target is unknown or does not decode. -/
def Unbounded (tip : Tip) (prevHash : Hash) (height : Nat) (nbits : UInt32) (grace now : Nat) : Prop :=
  tip.Live height grace now ∧ tip.Open prevHash height ∧ tip.reference height ≠ some nbits ∧
    (tip.bits = none ∨
      ∃ tipBits, tip.bits = some tipBits ∧ nbitsToTargetLe tipBits = none ∧ nbitsToTargetLe nbits ≠ none)

/-- A job's target is held to the chain exactly when something bounds it. -/
theorem job_held_iff (tip : Tip) (prevHash : Hash) (height : Nat) (nbits : UInt32) (grace now : Nat) :
    tip.Holds prevHash height nbits grace now ↔ ¬ tip.Unbounded prevHash height nbits grace now := by
  constructor
  · rintro ⟨bounded, _⟩ ⟨live, free, other, blind⟩
    have possible : ∀ tipBits, tip.bits = some tipBits → easierThan4x nbits tipBits = false := by
      intro tipBits known
      rcases blind with unknown | ⟨_, same, none, decodes⟩
      · rw [unknown] at known
        cases known
      · rw [known, Option.some.injEq] at same
        subst same
        obtain ⟨t, found⟩ := Option.ne_none_iff_exists'.mp decodes
        exact easierThan4x_eq_false.mpr ⟨t, found, by simp [none]⟩
    rcases bounded
      (takes_iff.mpr ⟨live, .inr ⟨free, possible⟩⟩) with same | ⟨tipBits, t, cap, known, found, limit, _⟩
    · exact other same
    · rcases blind with unknown | ⟨_, same, none, _⟩
      · rw [unknown] at known
        cases known
      · rw [known, Option.some.injEq] at same
        rw [← same, limit] at none
        cases none
  · intro sure
    constructor
    · intro taken
      obtain ⟨live, same | ⟨free, possible⟩⟩ := takes_iff.mp taken
      · exact .inl same
      · by_cases other : tip.reference height = some nbits
        · exact .inl other
        · have known : tip.bits ≠ none := fun unknown => sure ⟨live, free, other, .inl unknown⟩
          obtain ⟨tipBits, known⟩ := Option.ne_none_iff_exists'.mp known
          obtain ⟨t, found, within⟩ := easierThan4x_eq_false.mp (possible tipBits known)
          have decodes : nbitsToTargetLe tipBits ≠ none := by
            intro none
            exact sure ⟨live, free, other, .inr ⟨tipBits, known, none, by simp [found]⟩⟩
          obtain ⟨cap, limit⟩ := Option.ne_none_iff_exists'.mp decodes
          exact .inr ⟨tipBits, t, cap, known, found, limit, within cap limit⟩
    · intro unsaid unknown
      by_contra taken
      obtain ⟨live, _⟩ := takes_iff.mp (Bool.not_eq_false _ |>.mp taken)
      exact sure ⟨live, .inl unsaid, by simp [unsaid], .inl unknown⟩

/-- The tip of a node that failed both lookups beside it. -/
def blind : Option Tip :=
  refreshLocked "mainnet" none
    { getblockchaininfo := some { blocks := some 125, bestblockhash := some "00" } } 0

/-- Neither figure is known, and the easiest target there is, is taken: on the next height and, inside the
grace period, on the tip's own. -/
theorem blind_takes_any_target :
    ∃ tip, blind = some tip ∧ tip.reference 126 = none ∧ tip.bits = none ∧
      tip.takes (Fixed.zero 32) 126 0x207fffff 5 0 = true ∧
      tip.takes (Fixed.zero 32) 125 0x207fffff 5 0 = true ∧
      ¬ tip.Holds (Fixed.zero 32) 126 0x207fffff 5 0 := by
  have takes : ∀ tip, blind = some tip → tip.takes (Fixed.zero 32) 126 0x207fffff 5 0 = true := by decide
  refine ⟨_, rfl, rfl, rfl, takes _ rfl, by decide, ?_⟩
  rintro ⟨_, refused⟩
  have none := refused rfl rfl
  rw [takes _ rfl] at none
  cases none

end Tip

end Lazarus.Primed
