import Lazarus.Wire.Caches
import Lazarus.Wire.Claimed

/-! What a session's shares make Prime hold: the coinbase sections of its job slots, counted against a
budget, and which of its slots keep theirs. -/

namespace Lazarus.Wire

def CoinbaseSection.bytes (c : CoinbaseSection) : Nat := c.coinb1.length + c.coinb2.length

namespace JobSlot

/-- Bytes of coinbase sections a slot is holding. -/
def coinbaseBytes (slot : JobSlot) : Nat := (slot.coinbases.values.map CoinbaseSection.bytes).sum

/-- The slot holds no coinbase section and nothing parsed from one. -/
def Bare (slot : JobSlot) : Prop := slot.coinbases = ∅ ∧ slot.cbCache = ∅

variable {slot : JobSlot}

theorem coinbaseBytes_of_empty (empty : slot.coinbases = ∅) : slot.coinbaseBytes = 0 := by
  rw [coinbaseBytes, empty]
  rfl

theorem coinbaseBytes_evictSections (slot : JobSlot) : slot.evictSections.coinbaseBytes = 0 := rfl

theorem coinbaseBytes_forgetCoinbase_le (slot : JobSlot) (id : UInt8) :
    (slot.forgetCoinbase id).coinbaseBytes ≤ slot.coinbaseBytes :=
  (((List.kerase_sublist id slot.coinbases.entries).map _).map _).sum_le_sum fun _ _ => Nat.zero_le _

/-- Forgetting a section just put in leaves no more than there was before it. -/
theorem coinbaseBytes_put_forget_le (slot : JobSlot) (c : CoinbaseSection) :
    ((slot.putCoinbase c).forgetCoinbase c.coinbaseId).coinbaseBytes ≤ slot.coinbaseBytes := by
  have same :
      ((slot.putCoinbase c).forgetCoinbase c.coinbaseId).coinbases = slot.coinbases.erase c.coinbaseId := by
    apply AList.ext
    change List.kerase c.coinbaseId (AList.insert c.coinbaseId c slot.coinbases).entries = _
    rw [AList.entries_insert]
    exact List.kerase_cons_eq rfl
  unfold coinbaseBytes
  rw [same]
  exact coinbaseBytes_forgetCoinbase_le slot c.coinbaseId

theorem coinbaseBytes_put_empty (empty : slot.coinbases = ∅) (c : CoinbaseSection) :
    (slot.putCoinbase c).coinbaseBytes = c.bytes := by
  have one : (slot.putCoinbase c).coinbases = AList.insert c.coinbaseId c ∅ := by rw [← empty]; rfl
  rw [coinbaseBytes, one]
  simp [Table.values]

theorem coinbaseBytes_startJob_le (slot : JobSlot) (job : Option JobSection) :
    (slot.startJob job).2.coinbaseBytes ≤ slot.coinbaseBytes := by
  rcases slot.startJob_cases job with ⟨same, _⟩ | ⟨j, _, _, started⟩
  · rw [same]
  · rw [started]
    exact Nat.zero_le _

theorem Bare.put_forget (bare : slot.Bare) (c : CoinbaseSection) :
    ((slot.putCoinbase c).forgetCoinbase c.coinbaseId).Bare := by
  obtain ⟨sections, parsed⟩ := bare
  constructor
  · change AList.erase c.coinbaseId (AList.insert c.coinbaseId c slot.coinbases) = ∅
    rw [sections]
    apply AList.ext
    change List.kerase c.coinbaseId [(⟨c.coinbaseId, c⟩ : Sigma fun _ : UInt8 => CoinbaseSection)] = []
    exact List.kerase_cons_eq rfl
  · simp only [forgetCoinbase, putCoinbase, dropDerived, parsed]
    rfl

/-- What taking up a share's sections does to a slot: it refuses them, or starts the job and may put in
the coinbase section. -/
theorem absorb_cases (slot : JobSlot) (s : PowSubmit) :
    (∃ reject, slot.absorb s = (.error reject, slot)) ∨
      slot.absorb s = (.ok { jobChanged := (slot.startJob s.job).1 }, (slot.startJob s.job).2) ∨
      ∃ c, s.coinbase = some c ∧ c.bytes ≤ maxCoinbaseSectionBytes ∧
        slot.absorb s = (.ok { jobChanged := (slot.startJob s.job).1, coinbaseAdded := some c.coinbaseId },
          (slot.startJob s.job).2.putCoinbase c) := by
  cases refused : (slot.absorb s).1 with
  | error reject =>
    exact .inl ⟨reject, Prod.ext refused (absorb_refused refused)⟩
  | ok absorbed =>
    right
    revert refused
    unfold absorb
    split
    · intro refused
      cases refused
    · rename_i within
      cases brought : s.coinbase with
      | none => exact fun _ => .inl rfl
      | some c =>
        have small : c.bytes ≤ maxCoinbaseSectionBytes := by simpa [brought, CoinbaseSection.bytes] using within
        dsimp only
        split_ifs with held full
        · exact fun _ => .inl rfl
        · intro refused
          cases refused
        · exact fun _ => .inr ⟨c, rfl, small, rfl⟩

end JobSlot

end Lazarus.Wire

namespace Lazarus.Primed

open Wire

def maxJobSlots : Nat := 256

def maxLiveSlots : Nat := 16

def maxIdentityBytes : Nat := 128

/-- The job slots of a session. `liveSlots` has the slots that started a job, the one longest ago first. -/
structure Memory where
  slots : List JobSlot
  coinbaseBytes : Nat := 0
  liveSlots : List Nat := []

/-- A share as a session takes it up, with the identity its username comes to. -/
structure Submission where
  jobId : UInt8
  identity : Bytes
  submit : PowSubmit

/-- An identity is of one to 128 bytes, all of them visible characters. -/
def Submission.named (sub : Submission) : Bool :=
  !sub.identity.isEmpty && sub.identity.length ≤ maxIdentityBytes && sub.identity.all fun b =>
    0x21 ≤ b && b ≤ 0x7e

namespace Memory

def fresh : Memory := { slots := List.replicate maxJobSlots {} }

def total (slots : List JobSlot) : Nat := (slots.map JobSlot.coinbaseBytes).sum

/-- Evict the sections of the slots longest without a new job, until few enough are live. -/
def trim : List Nat → List JobSlot → List Nat × List JobSlot
  | [], slots => ([], slots)
  | old :: rest, slots =>
    if maxLiveSlots < (old :: rest).length then trim rest (slots.modify old JobSlot.evictSections) else
      (old :: rest, slots)

/-- Note that a slot just started a new job. -/
def touchSlot (m : Memory) (jobId : Nat) : Memory :=
  let (liveSlots, slots) := trim (m.liveSlots.filter (· ≠ jobId) ++ [jobId]) m.slots
  { m with liveSlots, slots }

/-- Undo a coinbase section that a share brought in. -/
def dropCoinbase (m : Memory) (jobId : Nat) (id : UInt8) : Memory :=
  match m.slots[jobId]? with
  | none => m
  | some slot =>
    let before := slot.coinbaseBytes
    let slot := slot.forgetCoinbase id
    { m with
      slots := m.slots.set jobId slot
      coinbaseBytes := m.coinbaseBytes - (before - slot.coinbaseBytes) }

/-- Count what a slot holds after taking up a share's sections, where it held `heldBefore`. -/
def account (m : Memory) (jobId heldBefore heldAfter : Nat) (jobChanged : Bool) : Memory :=
  if jobChanged then
    let m := m.touchSlot jobId
    { m with coinbaseBytes := total m.slots }
  else { m with coinbaseBytes := m.coinbaseBytes - heldBefore + heldAfter }

/-- The verification of a share against its slot, which may be refused before it gets that far. -/
def verify (H : Hashes) (m : Memory) (jobId : Nat) (s : PowSubmit) : Option Policy → Memory
  | none => m
  | some p =>
    match m.slots[jobId]? with
    | none => m
    | some slot =>
      match Wire.verify H slot s p with
      | .ok (_, slot) => { m with slots := m.slots.set jobId slot }
      | .error _ => m

/-- What a share leaves in memory. `policy` is what it is verified under, if the checks against the chain
let it through. -/
def onPow (H : Hashes) (budget : Nat) (m : Memory) (sub : Submission) (policy : Option Policy) : Memory :=
  let jobId := sub.jobId.toNat
  match m.slots[jobId]? with
  | none => m
  | some slot =>
    if !sub.named then m
    else
      match slot.absorb sub.submit with
      | (.error _, slot) => { m with slots := m.slots.set jobId slot }
      | (.ok absorbed, slot') =>
        let m := { m with slots := m.slots.set jobId slot' }
        let m := m.account jobId slot.coinbaseBytes slot'.coinbaseBytes absorbed.jobChanged
        match absorbed.coinbaseAdded with
        | some id =>
          if budget < m.coinbaseBytes then m.dropCoinbase jobId id else m.verify H jobId sub.submit policy
        | none => m.verify H jobId sub.submit policy

/-- A section that its slot has room and its session has budget for comes to a live slot, or with a new
job. -/
def Clear (budget : Nat) (m : Memory) (sub : Submission) : Prop :=
  ∀ slot ∈ m.slots[sub.jobId.toNat]?, ∀ c ∈ sub.submit.coinbase, sub.named = true →
    c.bytes ≤ maxCoinbaseSectionBytes → (∀ j ∈ sub.submit.job, slot.job = some j) →
    m.coinbaseBytes + c.bytes ≤ budget → sub.jobId.toNat ∈ m.liveSlots

instance Clear.decidable (budget : Nat) (m : Memory) (sub : Submission) : Decidable (m.Clear budget sub) :=
  inferInstanceAs <| Decidable <| ∀ slot ∈ m.slots[sub.jobId.toNat]?, ∀ c ∈ sub.submit.coinbase,
    sub.named = true → c.bytes ≤ maxCoinbaseSectionBytes → (∀ j ∈ sub.submit.job, slot.job = some j) →
    m.coinbaseBytes + c.bytes ≤ budget → sub.jobId.toNat ∈ m.liveSlots

section Trim

theorem trim_live (live : List Nat) (slots : List JobSlot) : (trim live slots).1 = live.drop
    (live.length - maxLiveSlots) := by
  induction live generalizing slots with
  | nil => rfl
  | cons old rest ih =>
    unfold trim
    split
    · rename_i many
      rw [List.length_cons] at many
      have more : (old :: rest).length - maxLiveSlots = (rest.length - maxLiveSlots) + 1 := by
        rw [List.length_cons]
        omega
      rw [ih, more, List.drop_succ_cons]
    · rename_i few
      rw [Nat.sub_eq_zero_of_le (Nat.le_of_not_lt few), List.drop_zero]

/-- A slot keeps its sections, or is among the oldest and loses them. -/
theorem getElem?_trim (live : List Nat) (slots : List JobSlot) (i : Nat) :
    (trim live slots).2[i]? =
      if i ∈ live.take (live.length - maxLiveSlots) then slots[i]?.map JobSlot.evictSections else
        slots[i]? := by
  induction live generalizing slots with
  | nil => simp [trim]
  | cons old rest ih =>
    unfold trim
    split
    · rename_i many
      rw [List.length_cons] at many
      have more : (old :: rest).length - maxLiveSlots = (rest.length - maxLiveSlots) + 1 := by
        rw [List.length_cons]
        omega
      rw [ih, more, List.take_succ_cons, List.getElem?_modify]
      by_cases oldest : old = i
      · have twice : ∀ slot : JobSlot, slot.evictSections.evictSections = slot.evictSections := fun _ => rfl
        simp [oldest, twice, Function.comp_def]
      · simp [oldest, Ne.symm oldest]
    · rename_i few
      rw [Nat.sub_eq_zero_of_le (Nat.le_of_not_lt few), List.take_zero, if_neg List.not_mem_nil]

end Trim

section Total

theorem total_set {slots : List JobSlot} {i : Nat} {slot : JobSlot} (found : slots[i]? = some slot)
    (slot' : JobSlot) : total (slots.set i slot') + slot.coinbaseBytes = total slots + slot'.coinbaseBytes := by
  induction slots generalizing i with
  | nil => cases found
  | cons first rest ih =>
    cases i with
    | zero =>
      cases found
      simp only [total, List.set_cons_zero, List.map_cons, List.sum_cons]
      omega
    | succ i =>
      have later := ih (i := i) (by simpa using found)
      simp only [total, List.set_cons_succ, List.map_cons, List.sum_cons] at later ⊢
      omega

theorem coinbaseBytes_le_total {slots : List JobSlot} {i : Nat} {slot : JobSlot}
    (found : slots[i]? = some slot) : slot.coinbaseBytes ≤ total slots :=
  List.single_le_sum (fun _ _ => Nat.zero_le _) _ (List.mem_map_of_mem (List.mem_of_getElem? found))

theorem total_evict_le (slots : List JobSlot) (i : Nat) : total
    (slots.modify i JobSlot.evictSections) ≤ total slots := by
  induction slots generalizing i with
  | nil => simp
  | cons first rest ih =>
    cases i with
    | zero =>
      simp only [total, List.modify_zero_cons, List.map_cons, List.sum_cons,
        JobSlot.coinbaseBytes_evictSections]
      omega
    | succ i =>
      have later := ih i
      simp only [total, List.modify_succ_cons, List.map_cons, List.sum_cons] at later ⊢
      omega

theorem total_trim_le (live : List Nat) (slots : List JobSlot) : total (trim live slots).2 ≤ total slots := by
  induction live generalizing slots with
  | nil => exact Nat.le_refl _
  | cons old rest ih =>
    unfold trim
    split
    · exact Nat.le_trans (ih _) (total_evict_le slots old)
    · exact Nat.le_refl _

end Total

/-- The count is the sum over the slots and within the budget, and few slots are live. -/
structure Held (budget : Nat) (m : Memory) : Prop where
  counted : m.coinbaseBytes = total m.slots
  within : m.coinbaseBytes ≤ budget
  few : m.liveSlots.length ≤ maxLiveSlots

/-- Only live slots hold coinbase sections or anything parsed from them. -/
def Resident (m : Memory) : Prop := ∀ i slot, m.slots[i]? = some slot → i ∉ m.liveSlots → slot.Bare

/-- The same, leaving one slot out. -/
def ResidentBut (jobId : Nat) (m : Memory) : Prop :=
  ∀ i slot, m.slots[i]? = some slot → i ∉ m.liveSlots → i ≠ jobId → slot.Bare

section Steps

variable {H : Hashes} {budget : Nat} {m : Memory} {jobId : Nat}

theorem Resident.but (resident : m.Resident) (jobId : Nat) (slot' : JobSlot) :
    { m with slots := m.slots.set jobId slot' }.ResidentBut jobId := by
  intro i slot found dead other
  have same : m.slots[i]? = some slot := by simpa [List.getElem?_set, Ne.symm other] using found
  exact resident i slot same dead

theorem Resident.of_live (resident : m.ResidentBut jobId) (live : jobId ∈ m.liveSlots) : m.Resident := by
  intro i slot found dead
  refine resident i slot found dead ?_
  rintro rfl
  exact dead live

/-- What touching a slot leaves: few live slots with this one among them, and its own sections. -/
theorem touchSlot_live (m : Memory) (jobId : Nat) :
    (m.touchSlot jobId).liveSlots.length ≤ maxLiveSlots ∧ jobId ∈ (m.touchSlot jobId).liveSlots ∧
      (m.touchSlot jobId).slots[jobId]? = m.slots[jobId]? := by
  have absent : jobId ∉ m.liveSlots.filter (· ≠ jobId) := by simp
  have few : (m.liveSlots.filter (· ≠ jobId) ++ [jobId]).length - maxLiveSlots ≤
      (m.liveSlots.filter (· ≠ jobId)).length := by
    rw [List.length_append, List.length_singleton, maxLiveSlots]
    omega
  simp only [touchSlot, trim_live, getElem?_trim]
  refine ⟨?_, ?_, ?_⟩
  · rw [List.length_drop]
    omega
  · rw [List.drop_append_of_le_length few]
    simp
  · rw [List.take_append_of_le_length few, if_neg fun member => absent (List.mem_of_mem_take member)]

theorem ResidentBut.touchSlot (resident : m.ResidentBut jobId) : (m.touchSlot jobId).Resident := by
  refine Resident.of_live ?_ (touchSlot_live m jobId).2.1
  intro i slot found dead other
  simp only [Memory.touchSlot, trim_live, getElem?_trim] at found dead
  split at found
  · obtain ⟨_, _, rfl⟩ := Option.map_eq_some_iff.mp found
    exact ⟨rfl, rfl⟩
  · rename_i kept
    refine resident i slot found ?_ other
    intro live
    have listed : i ∈ m.liveSlots.filter (· ≠ jobId) ++ [jobId] := by simp [live, other]
    rw [← List.take_append_drop ((m.liveSlots.filter (· ≠ jobId) ++ [jobId]).length - maxLiveSlots)
      (m.liveSlots.filter (· ≠ jobId) ++ [jobId]), List.mem_append] at listed
    exact listed.elim kept dead

/-- A share that goes through leaves its slot's sections alone, of which there is one. -/
theorem verify_slot {slot slot' : JobSlot} {s : PowSubmit} {p : Policy} {v : VerifiedShare}
    (through : Wire.verify H slot s p = .ok (v, slot')) :
    slot'.coinbases = slot.coinbases ∧ slot.coinbases ≠ ∅ := by
  obtain ⟨_, _, ⟨accepted⟩⟩ := verify_accepted through
  obtain ⟨sect, found, _⟩ := read_cases accepted.read
  refine ⟨?_, ?_⟩
  · rw [accepted.kept, JobSlot.noteCoinbase]
    split
    · rfl
    · rfl
  · intro empty
    rw [empty] at found
    cases found

/-- A verification leaves the memory as it was, or the slot with the same sections, of which there is one. -/
theorem verify_cases (H : Hashes) (m : Memory) (jobId : Nat) (s : PowSubmit) (policy : Option Policy) :
    m.verify H jobId s policy = m ∨
      ∃ slot slot', m.slots[jobId]? = some slot ∧ slot'.coinbases = slot.coinbases ∧ slot.coinbases ≠ ∅ ∧
        m.verify H jobId s policy = { m with slots := m.slots.set jobId slot' } := by
  unfold Memory.verify
  cases policy with
  | none => exact .inl rfl
  | some p =>
    cases found : m.slots[jobId]? with
    | none => exact .inl rfl
    | some slot =>
      cases through : Wire.verify H slot s p with
      | error _ => exact .inl (by simp only [through])
      | ok result =>
        obtain ⟨v, slot'⟩ := result
        obtain ⟨kept, some⟩ := verify_slot through
        simp only [through]
        exact .inr ⟨slot, slot', rfl, kept, some, rfl⟩

theorem Held.verify (held : m.Held budget) (s : PowSubmit) (policy : Option Policy) :
    (m.verify H jobId s policy).Held budget := by
  rcases m.verify_cases H jobId s policy with same | ⟨slot, slot', found, kept, _, stored⟩
  · rw [same]
    exact held
  · have same : slot'.coinbaseBytes = slot.coinbaseBytes := by
      rw [JobSlot.coinbaseBytes, kept, JobSlot.coinbaseBytes]
    have changed := total_set found slot'
    have counted := held.counted
    rw [stored]
    refine ⟨?_, held.within, held.few⟩
    dsimp only
    omega

theorem Resident.verify (resident : m.Resident) (s : PowSubmit) (policy : Option Policy) :
    (m.verify H jobId s policy).Resident := by
  rcases m.verify_cases H jobId s policy with same | ⟨slot, slot', found, _, some, stored⟩
  · rw [same]
    exact resident
  · rw [stored]
    refine Resident.of_live (resident.but jobId slot') ?_
    by_contra dead
    exact some (resident jobId slot found dead).1

/-- What counting a slot's new sections comes to: the sum again, no more than the slot grew by. -/
theorem account_spec {slot : JobSlot} (held : m.Held budget) (found : m.slots[jobId]? = some slot)
    (slot' : JobSlot) (jobChanged : Bool) : let m' :=
    { m with slots := m.slots.set jobId slot' }.account jobId slot.coinbaseBytes slot'.coinbaseBytes jobChanged
    m'.coinbaseBytes = total m'.slots ∧
      m'.coinbaseBytes + slot.coinbaseBytes ≤ m.coinbaseBytes + slot'.coinbaseBytes ∧
      m'.liveSlots.length ≤ maxLiveSlots ∧ m'.slots[jobId]? = some slot' := by
  have changed := total_set found slot'
  have counted := held.counted
  have part := coinbaseBytes_le_total found
  have inside : jobId < m.slots.length := (List.getElem?_eq_some_iff.mp found).1
  have put : (m.slots.set jobId slot')[jobId]? = some slot' := by simp [inside]
  cases jobChanged with
  | false =>
    refine ⟨?_, ?_, held.few, put⟩
    · simp only [account, Bool.false_eq_true, if_false]
      omega
    · simp only [account, Bool.false_eq_true, if_false]
      omega
  | true =>
    have touched := touchSlot_live { m with slots := m.slots.set jobId slot' } jobId
    refine ⟨rfl, ?_, touched.1, touched.2.2.trans put⟩
    have fewer : total ({ m with slots := m.slots.set jobId slot' }.touchSlot jobId).slots ≤
      total (m.slots.set jobId slot') :=
      total_trim_le _ _
    simp only [account, if_true]
    omega

theorem dropCoinbase_eq {slot : JobSlot} (found : m.slots[jobId]? = some slot) (id : UInt8) :
    m.dropCoinbase jobId id =
      { m with
        slots := m.slots.set jobId (slot.forgetCoinbase id)
        coinbaseBytes := m.coinbaseBytes - (slot.coinbaseBytes - (slot.forgetCoinbase id).coinbaseBytes) } := by
  unfold dropCoinbase
  rw [found]

/-- The memory once a slot's new sections are counted. -/
def takeUp (m : Memory) (jobId : Nat) (slot slot' : JobSlot) (jobChanged : Bool) : Memory :=
  { m with slots := m.slots.set jobId slot' }.account jobId slot.coinbaseBytes slot'.coinbaseBytes jobChanged

/-- What a share can do to the memory: nothing, start its job, or start its job and bring a section that
is dropped again when it costs too much. -/
theorem onPow_cases (H : Hashes) (budget : Nat) (m : Memory) (sub : Submission) (policy : Option Policy) :
    m.onPow H budget sub policy = m ∨
      ∃ slot, m.slots[sub.jobId.toNat]? = some slot ∧ sub.named = true ∧
        (m.onPow H budget sub policy =
            (m.takeUp sub.jobId.toNat slot (slot.startJob sub.submit.job).2
              (slot.startJob sub.submit.job).1).verify H sub.jobId.toNat sub.submit policy ∨
          ∃ c taken, sub.submit.coinbase = some c ∧ c.bytes ≤ maxCoinbaseSectionBytes ∧
            taken = m.takeUp sub.jobId.toNat slot ((slot.startJob sub.submit.job).2.putCoinbase c)
              (slot.startJob sub.submit.job).1 ∧
            (budget < taken.coinbaseBytes ∧
                m.onPow H budget sub policy = taken.dropCoinbase sub.jobId.toNat c.coinbaseId ∨
              taken.coinbaseBytes ≤ budget ∧
                m.onPow H budget sub policy = taken.verify H sub.jobId.toNat sub.submit policy)) := by
  cases found : m.slots[sub.jobId.toNat]? with
  | none => exact .inl (by simp only [onPow, found])
  | some slot =>
    cases named : sub.named with
    | false => exact .inl (by simp only [onPow, found, named, Bool.not_false, if_true])
    | true =>
      rcases slot.absorb_cases sub.submit with ⟨reject, refused⟩ | plain | ⟨c, present, small, brought⟩
      · left
        obtain ⟨inside, rfl⟩ := List.getElem?_eq_some_iff.mp found
        simp only [onPow, found, named, refused, Bool.not_true, Bool.false_eq_true,
          if_false, List.set_getElem_self]
      · refine .inr ⟨slot, rfl, rfl, .inl ?_⟩
        simp only [onPow, found, named, plain, Bool.not_true, Bool.false_eq_true, if_false, takeUp]
      · refine .inr ⟨slot, rfl, rfl, .inr ⟨c, _, present, small, rfl, ?_⟩⟩
        simp only [onPow, found, named, brought, Bool.not_true, Bool.false_eq_true, if_false, takeUp]
        split
        · rename_i costly
          exact .inl ⟨costly, rfl⟩
        · rename_i afford
          exact .inr ⟨Nat.le_of_not_lt afford, rfl⟩

/-- A share keeps the count, the budget and the limit on live slots. -/
theorem Held.onPow (held : m.Held budget) (sub : Submission) (policy : Option Policy) :
    (m.onPow H budget sub policy).Held budget := by
  rcases m.onPow_cases H budget sub policy with same | ⟨slot, found, _, plain | ⟨c, taken, _, _, rfl, outcome⟩⟩
  · rw [same]
    exact held
  · have smaller := slot.coinbaseBytes_startJob_le sub.submit.job
    obtain ⟨counted, grown, few, _⟩ :=
      account_spec held found (slot.startJob sub.submit.job).2 (slot.startJob sub.submit.job).1
    have within := held.within
    rw [plain]
    exact Held.verify ⟨counted, by omega, few⟩ _ _
  · have smaller := slot.coinbaseBytes_startJob_le sub.submit.job
    obtain ⟨counted, grown, few, put⟩ :=
      account_spec held found ((slot.startJob sub.submit.job).2.putCoinbase c) (slot.startJob sub.submit.job).1
    rcases outcome with ⟨_, dropped⟩ | ⟨afford, kept⟩
    · have part := coinbaseBytes_le_total put
      have less := JobSlot.coinbaseBytes_put_forget_le (slot.startJob sub.submit.job).2 c
      have changed :=
        total_set put (((slot.startJob sub.submit.job).2.putCoinbase c).forgetCoinbase c.coinbaseId)
      have within := held.within
      have forgot :=
        JobSlot.coinbaseBytes_forgetCoinbase_le ((slot.startJob sub.submit.job).2.putCoinbase c) c.coinbaseId
      rw [dropped, takeUp, dropCoinbase_eq put]
      refine ⟨?_, ?_, few⟩
      · dsimp only
        omega
      · dsimp only
        omega
    · rw [kept]
      exact Held.verify ⟨counted, afford, few⟩ _ _

theorem ResidentBut.dropCoinbase {slot : JobSlot} (resident : m.ResidentBut jobId)
    (found : m.slots[jobId]? = some slot) (id : UInt8) : (m.dropCoinbase jobId id).ResidentBut jobId := by
  rw [dropCoinbase_eq found]
  intro i other held dead apart
  have same : m.slots[i]? = some other := by simpa [List.getElem?_set, Ne.symm apart] using held
  exact resident i other same dead apart

/-- With its slot live, a share keeps to the live slots whether or not its section is dropped. -/
theorem ResidentBut.outcome {slot : JobSlot} {m' : Memory} {costly afford : Prop}
    {s : PowSubmit} {policy : Option Policy} {id : UInt8} (resident : m.ResidentBut jobId)
    (live : jobId ∈ m.liveSlots) (found : m.slots[jobId]? = some slot)
    (outcome : costly ∧ m' = m.dropCoinbase jobId id ∨ afford ∧ m' = m.verify H jobId s policy) :
    m'.Resident := by
  rcases outcome with ⟨_, dropped⟩ | ⟨_, through⟩
  · rw [dropped]
    refine Resident.of_live (resident.dropCoinbase found id) ?_
    rw [dropCoinbase_eq found]
    exact live
  · rw [through]
    exact (Resident.of_live resident live).verify s policy

/-- A section that comes to a slot with nothing in it and is dropped leaves nothing. -/
theorem Resident.dropped {slot : JobSlot} (resident : m.Resident) (found : m.slots[jobId]? = some slot)
    (bare : slot.Bare) (c : CoinbaseSection) :
    ((m.takeUp jobId slot (slot.putCoinbase c) false).dropCoinbase jobId c.coinbaseId).Resident := by
  have inside : jobId < m.slots.length := (List.getElem?_eq_some_iff.mp found).1
  have put : (m.takeUp jobId slot (slot.putCoinbase c) false).slots[jobId]? = some (slot.putCoinbase c) := by
    change (m.slots.set jobId (slot.putCoinbase c))[jobId]? = _
    simp [inside]
  have but : (m.takeUp jobId slot (slot.putCoinbase c) false).ResidentBut jobId := resident.but jobId _
  intro i other held dead
  by_cases same : i = jobId
  · rw [dropCoinbase_eq put] at held
    have here : other = (slot.putCoinbase c).forgetCoinbase c.coinbaseId := by
      have long : jobId < (m.takeUp jobId slot (slot.putCoinbase c) false).slots.length :=
        (List.getElem?_eq_some_iff.mp put).1
      rw [same, List.getElem?_set_self long] at held
      exact (Option.some.inj held).symm
    rw [here]
    exact bare.put_forget c
  · exact but.dropCoinbase put c.coinbaseId i other held dead same

/-- A share whose section comes to a live slot or with a new job leaves sections in live slots only. -/
theorem Resident.onPow (held : m.Held budget) (resident : m.Resident) {sub : Submission}
    (clear : m.Clear budget sub) (policy : Option Policy) : (m.onPow H budget sub policy).Resident := by
  rcases m.onPow_cases H budget sub
    policy with same | ⟨slot, found, named, plain | ⟨c, taken, brought, small, rfl, outcome⟩⟩
  · rw [same]
    exact resident
  · rw [plain]
    apply Resident.verify
    rcases slot.startJob_cases sub.submit.job with ⟨same, _⟩ | ⟨j, _, _, started⟩
    · rw [same]
      obtain ⟨inside, rfl⟩ := List.getElem?_eq_some_iff.mp found
      simpa [takeUp, account, Resident] using resident
    · rw [started]
      exact (resident.but _ _).touchSlot
  · obtain ⟨_, _, _, put⟩ :=
      account_spec held found ((slot.startJob sub.submit.job).2.putCoinbase c) (slot.startJob sub.submit.job).1
    rcases slot.startJob_cases sub.submit.job with ⟨same, kept⟩ | ⟨j, _, _, started⟩
    · rw [same] at outcome put
      have but : (m.takeUp sub.jobId.toNat slot (slot.putCoinbase c) false).ResidentBut sub.jobId.toNat :=
        resident.but _ _
      by_cases live : sub.jobId.toNat ∈ m.liveSlots
      · exact but.outcome live put outcome
      · have bare := resident _ slot found live
        rcases outcome with ⟨_, dropped⟩ | ⟨afford, _⟩
        · rw [dropped]
          exact resident.dropped found bare c
        · have grew : (m.takeUp sub.jobId.toNat slot (slot.putCoinbase c) false).coinbaseBytes =
              m.coinbaseBytes + c.bytes := by
            change m.coinbaseBytes - slot.coinbaseBytes + (slot.putCoinbase c).coinbaseBytes = _
            rw [JobSlot.coinbaseBytes_of_empty bare.1, JobSlot.coinbaseBytes_put_empty bare.1, Nat.sub_zero]
          rw [grew] at afford
          exact absurd (clear slot found c brought named small kept afford) live
    · rw [started] at outcome put
      have but : (m.takeUp sub.jobId.toNat slot ({ job := some j : JobSlot }.putCoinbase c) true).ResidentBut
        sub.jobId.toNat :=
        fun i slot held dead _ => (resident.but _ _).touchSlot i slot held dead
      exact but.outcome (touchSlot_live _ _).2.1 put outcome

end Steps

/-- A share and what it is verified under, as `onPow` takes them one after the other. -/
def step (H : Hashes) (budget : Nat) (m : Memory) (share : Submission × Option Policy) : Memory :=
  m.onPow H budget share.1 share.2

def run (H : Hashes) (budget : Nat) (shares : List (Submission × Option Policy)) : Memory :=
  shares.foldl (step H budget) fresh

theorem fresh_held (budget : Nat) : fresh.Held budget := by
  have empty : total fresh.slots = 0 := by simp [total, fresh, JobSlot.coinbaseBytes_of_empty]
  exact ⟨empty.symm, Nat.zero_le _, Nat.zero_le _⟩

theorem fresh_resident : fresh.Resident := by
  intro i slot found _
  rw [fresh, List.getElem?_replicate] at found
  split at found
  · cases found
    exact ⟨rfl, rfl⟩
  · cases found

/-- After any shares the count of a session is the sum over its slots, within the budget, and few slots are
live. As long as each section comes to a live slot or with a new job, no other slot holds any. -/
theorem session_memory_bounded (H : Hashes) (budget : Nat) (shares : List (Submission × Option Policy)) :
    ((run H budget shares).coinbaseBytes = total (run H budget shares).slots ∧
      (run H budget shares).coinbaseBytes ≤ budget ∧ (run H budget shares).liveSlots.length ≤ maxLiveSlots) ∧
    (Run.Along (fun m share => m.Clear budget share.1) (step H budget) fresh shares →
      ∀ i slot, (run H budget shares).slots[i]? = some slot → i ∉ (run H budget shares).liveSlots →
        slot.coinbases = ∅ ∧ slot.cbCache = ∅) := by
  have held : (run H budget shares).Held budget :=
    Run.foldl_kept (step H budget) (Held budget) (fun _ share held => held.onPow share.1 share.2)
      shares (fresh_held budget)
  refine ⟨⟨held.counted, held.within, held.few⟩, ?_⟩
  intro clear
  have both : (run H budget shares).Held budget ∧ (run H budget shares).Resident := by
    refine Run.foldl_invariant (fun m => m.Held budget ∧ m.Resident) ?_
      clear ⟨fresh_held budget, fresh_resident⟩
    intro m share before clear
    exact ⟨before.1.onPow share.1 share.2, before.2.onPow before.1 clear share.2⟩
  exact both.2

/-- A share of slot 3 with the sections of choice. -/
def exampleSubmission (job : Option JobSection) (coinbase : Option CoinbaseSection) : Submission where
  jobId := 3
  identity := [0x62, 0x63, 0x31, 0x71]
  submit := { exampleShare exampleHead exampleTail 48 1 with job, coinbase }

/-- A job with its coinbase, a second coinbase of it, and the first again: each to a live slot. -/
theorem session_memory_bounded_oneSlot :
    let share := exampleShare exampleHead exampleTail 48 1
    let shares :=
      [(exampleSubmission share.job share.coinbase, some examplePolicy),
        (exampleSubmission none (some { coinbaseId := 1, coinb1 := exampleHead, coinb2 := [] }),
          some examplePolicy),
        (exampleSubmission none share.coinbase, some examplePolicy)]
    let m := run exampleHashes 65536 shares
    m.coinbaseBytes = 135 ∧ m.coinbaseBytes = total m.slots ∧ m.liveSlots = [3] ∧
      ∀ i slot, m.slots[i]? = some slot → i ∉ m.liveSlots → slot.coinbases = ∅ ∧ slot.cbCache = ∅ := by
  intro share shares m
  obtain ⟨⟨counted, _⟩, resident⟩ := session_memory_bounded exampleHashes 65536 shares
  refine ⟨by decide +kernel, counted, by decide +kernel, resident ?_⟩
  decide +kernel

/-- A section without a job, to a slot that has none: the share is refused and the section stays, in a
slot that is not live. -/
theorem section_outside_live :
    let share := exampleSubmission none (some { coinbaseId := 0, coinb1 := [1], coinb2 := [] })
    let m := run exampleHashes 65536 [(share, none)]
    ¬ ∀ i slot, m.slots[i]? = some slot → i ∉ m.liveSlots → slot.coinbases = ∅ ∧ slot.cbCache = ∅ := by
  intro share m every
  have bare := every 3 _ rfl (by decide)
  cases bare.1

end Memory

end Lazarus.Primed
