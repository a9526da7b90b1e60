import Lazarus.Primed.Payouts

/-! One batch of balances paid by hand, seen from both ends: the operator's tool, which goes by a document of
the stats page and by its own record of a payment, and Prime, which takes up the request file in its own time.
Blocks are found, the document is rebuilt and a run of the tool dies wherever it likes in between. -/

namespace Lazarus.Primed

open Tides Tally

/-- The stats document as it is served: the tip height it was built at, zero without one, and the batch's hold.
`ended` says whether Prime has ended the hold at a request since. -/
structure StatsDoc where
  tip : Nat := 0
  hold : Option Hold := none
  ended : Bool := false

/-- How far a run of the tool is. There is one run at a time. -/
inductive Tool where
  | idle
  | asking (req : Request)
  | tidied (req : Request)
  | counting (hold : Hold)
  | signed (entries : List (String × Nat))
  | recorded (entries : List (String × Nat))

/-- How far Prime is with the batch's request. -/
inductive Polling where
  | idle
  | read (req : Request) (seen : Option Hold)
  | applied (reply : Reply)
  | answered

/-- The batch as a whole. `tip` is the highest the chain has been; `record` is whether the tool has a record of
a payment. The four accounts are what was held for an identity, and what a broadcast transaction paid it, a
release gave back and blocks drew. -/
structure ByHand where
  ledger : Ledger := {}
  tip : Nat := 0
  published : Option Nat := none
  request : Option Request := none
  answer : Option Reply := none
  record : Bool := false
  polling : Polling := .idle
  building : Option Nat := none
  doc : StatsDoc := {}
  tool : Tool := .idle
  held : String → Nat := fun _ => 0
  paid : String → Nat := fun _ => 0
  released : String → Nat := fun _ => 0
  drawn : String → Nat := fun _ => 0

/-- One step of the chain, of the ledger at large, of the stats page, of the tool or of Prime's poll. -/
inductive ByHandOp where
  | advance (height : Nat)
  | publish (height : Nat)
  | book (carryDelta : List (String × Int)) (books : Books)
  | other (l : Ledger)
  | buildTip
  | buildDoc
  | hold (entries : List (String × Nat))
  | release
  | pay
  | count (height : Nat)
  | write
  | send (txid : String)
  | tidy
  | submit
  | die
  | read
  | apply (payer : Payer) (ts : Nat)
  | reply
  | remove

namespace ByHand

/-- What one identity is due out of some entries is added to its account. -/
def credit (account : String → Nat) (entries : List (String × Nat)) : String → Nat :=
  fun identity => account identity + tally identity entries

/-- A found block is booked, and takes what it takes out of the batch's hold. -/
def book (batch : String) (s : ByHand) (carryDelta : List (String × Int)) (books : Books) : ByHand :=
  let ledger := (s.ledger.bookDebits carryDelta books).1
  { s with
    ledger
    drawn := fun identity => s.drawn identity +
      (heldFor (s.ledger.hold batch) identity - heldFor (ledger.hold batch) identity) }

/-- The tool goes by the hold in the document, and pays it if its amounts are final. Without a height in the
document it asks the node for one. -/
def pay (s : ByHand) : ByHand :=
  match s.doc.hold with
  | none => s
  | some hold =>
    if s.record then s
    else if s.doc.tip = 0 then { s with tool := .counting hold }
    else if s.doc.tip < hold.readyHeight then s
    else { s with tool := .signed hold.entries }

/-- Prime handles the request it has read. -/
def apply (batch : String) (s : ByHand) (req : Request) (seen : Option Hold)
    (payer : Payer) (ts : Nat) : ByHand :=
  let (ledger, reply) := handle payer ts s.published seen s.ledger batch req
  { s with
    ledger
    polling := .applied reply
    doc := { s.doc with ended := s.doc.ended || (s.ledger.hold batch).isSome && (ledger.hold batch).isNone }
    held := credit s.held reply.taken
    released := credit s.released reply.returned }

def step (batch : String) (s : ByHand) : ByHandOp → ByHand
  | .advance height => { s with tip := max s.tip height }
  | .publish height => { s with published := some (min height s.tip) }
  | .book carryDelta books => s.book batch carryDelta books
  -- whatever else the ledger is put through leaves its holds alone
  | .other l => { s with ledger := { l with window := { l.window with holds := s.ledger.window.holds } } }
  | .buildTip => { s with building := some (s.published.getD 0) }
  | .buildDoc =>
    match s.building with
    | none => s
    | some tip => { s with building := none, doc := { tip, hold := s.ledger.hold batch } }
  | .hold entries =>
    match s.tool with
    | .idle => if s.answer.isSome ∨ s.doc.hold.isSome then s else { s with tool := .asking (.hold entries) }
    | _ => s
  | .release =>
    match s.tool with
    | .idle => if s.record then s else { s with tool := .asking .release }
    | _ => s
  | .pay =>
    match s.tool with
    | .idle => s.pay
    | _ => s
  | .count height =>
    match s.tool with
    | .counting hold =>
      if min height s.tip < hold.readyHeight then { s with tool := .idle } else
        { s with tool := .signed hold.entries }
    | _ => s
  -- on disk before it is on the wire
  | .write =>
    match s.tool with
    | .signed entries => { s with tool := .recorded entries, record := true }
    | _ => s
  | .send txid =>
    match s.tool with
    | .recorded entries => { s with tool := .asking (.paid txid none), paid := credit s.paid entries }
    | _ => s
  -- the last answer is moved out of the way, then the request is renamed into place
  | .tidy =>
    match s.tool with
    | .asking req => { s with tool := .tidied req, answer := none }
    | _ => s
  | .submit =>
    match s.tool with
    | .tidied req => { s with tool := .idle, request := some req }
    | _ => s
  | .die => { s with tool := .idle }
  | .read =>
    match s.polling, s.request with
    | .idle, some req => { s with polling := .read req (s.ledger.hold batch) }
    | _, _ => s
  | .apply payer ts =>
    match s.polling with
    | .read req seen => s.apply batch req seen payer ts
    | _ => s
  | .reply =>
    match s.polling with
    | .applied reply => { s with answer := some reply, polling := if reply.retry then .idle else .answered }
    | _ => s
  -- by name: whatever request is there now
  | .remove =>
    match s.polling with
    | .answered => { s with request := none, polling := .idle }
    | _ => s

/-- A run of the tool that is killed leaves every file as it was. -/
example (batch : String) (s : ByHand) : s.step batch .die = { s with tool := .idle } := by
  simp only [step]

/-- No block draws from the hold once the tip is at its ready height. -/
def Given (batch : String) (s : ByHand) : ByHandOp → Prop
  | .book carryDelta books => ∀ hold, s.ledger.hold batch = some hold → hold.readyHeight ≤ s.tip →
    (s.ledger.bookDebits carryDelta books).1.hold batch = some hold
  | _ => True

/-- A request of the batch is in the directory, or in Prime's hands. -/
def Pending (s : ByHand) (req : Request) : Prop := s.request = some req ∨ ∃ seen, s.polling = .read req seen

instance (s : ByHand) (req : Request) : Decidable (s.Pending req) :=
  match reading : s.polling with
  | .read other seen =>
    decidable_of_iff (s.request = some req ∨ other = req) (by simp [Pending, reading])
  | .idle => decidable_of_iff (s.request = some req) (by simp [Pending, reading])
  | .applied _ => decidable_of_iff (s.request = some req) (by simp [Pending, reading])
  | .answered => decidable_of_iff (s.request = some req) (by simp [Pending, reading])

/-- As given; and a payment is begun only while no release of the batch is pending and the hold has not been
ended since the document was built; and when the document has no height, the hold is paid only if it stands as
it is there. -/
def Guarded (batch : String) (s : ByHand) : ByHandOp → Prop
  | .book carryDelta books => ∀ hold, s.ledger.hold batch = some hold → hold.readyHeight ≤ s.tip →
    (s.ledger.bookDebits carryDelta books).1.hold batch = some hold
  | .pay => ¬ s.Pending .release ∧ s.doc.ended = false
  | .count height => ∀ hold, s.tool = .counting hold → hold.readyHeight ≤ min height s.tip →
    s.ledger.hold batch = some hold
  | _ => True

/-- A held balance goes out once. -/
def OutOnce (s : ByHand) : Prop :=
  ∀ identity, s.paid identity + s.released identity + s.drawn identity ≤ s.held identity

/-- The amounts are what the batch holds, and no block takes from them any more. -/
def FinalFor (batch : String) (s : ByHand) (entries : List (String × Nat)) : Prop :=
  ∃ hold, s.ledger.hold batch = some hold ∧ hold.entries = entries ∧ hold.readyHeight ≤ s.tip

/-- What is so while a run of the tool is as far as it is. `spent` is whether the hold that stands is paid. -/
def ToolSound (batch : String) (s : ByHand) (spent : Bool) : Tool → Prop
  | .idle => True
  | .asking req => (req = .release → s.record = false) ∧ ∀ txid block, req = .paid txid block → s.record = true
  | .tidied req => (req = .release → s.record = false) ∧ ∀ txid block, req = .paid txid block → s.record = true
  | .counting _ => s.record = false ∧ ¬ s.Pending .release
  | .signed entries => s.record = false ∧ ¬ s.Pending .release ∧ s.FinalFor batch entries
  | .recorded entries => s.record = true ∧ spent = false ∧ (∀ txid block, ¬ s.Pending (.paid txid block)) ∧
    s.FinalFor batch entries

/-- The hold that stands is good for what has not gone out of it, unless it is paid; and then nothing gives it
back any more. -/
structure Sound (batch : String) (spent : Bool) (s : ByHand) : Prop where
  published : ∀ height, s.published = some height → height ≤ s.tip
  building : ∀ height, s.building = some height → height ≤ s.tip
  docTip : s.doc.tip ≤ s.tip
  money : ∀ identity, s.paid identity + s.released identity + s.drawn identity +
    (if spent then 0 else heldFor (s.ledger.hold batch) identity) ≤ s.held identity
  spentFinal : spent = true → s.record = true ∧
    ∀ hold, s.ledger.hold batch = some hold → hold.readyHeight ≤ s.tip
  unreleased : s.record = true → ¬ s.Pending .release
  unpaid : s.record = false → ∀ txid block, ¬ s.Pending (.paid txid block)
  document : s.record = false → s.doc.ended = false → ∀ hold, s.doc.hold = some hold →
    hold.readyHeight ≤ s.doc.tip → s.ledger.hold batch = some hold
  tool : s.ToolSound batch spent s.tool

variable {batch : String} {spent : Bool} {s : ByHand}

theorem Sound.outOnce (sound : s.Sound batch spent) : s.OutOnce := by
  intro identity
  exact (Nat.le_add_right _ _).trans (sound.money identity)

/-- A run of the tool stands where the record and the requests are what they were, and a payment that is on
its way has its hold. -/
theorem ToolSound.transfer {after : ByHand} {now : Bool} {tool : Tool} (before : s.ToolSound batch spent tool)
    (same : after.record = s.record) (still : ∀ req, after.Pending req → s.Pending req)
    (final : ∀ entries, tool = .signed entries ∨ tool = .recorded entries → s.FinalFor batch entries →
      now = spent ∧ after.FinalFor batch entries) :
    after.ToolSound batch now tool := by
  cases tool with
  | idle => trivial
  | asking req =>
    exact ⟨fun gives => same.trans (before.1 gives),
      fun txid block pays => same.trans (before.2 txid block pays)⟩
  | tidied req =>
    exact ⟨fun gives => same.trans (before.1 gives),
      fun txid block pays => same.trans (before.2 txid block pays)⟩
  | counting hold => exact ⟨same.trans before.1, fun pending => before.2 (still _ pending)⟩
  | signed entries =>
    obtain ⟨unrecorded, unasked, stands⟩ := before
    exact ⟨same.trans unrecorded, fun pending => unasked (still _ pending), (final entries (.inl rfl) stands).2⟩
  | recorded entries =>
    obtain ⟨written, unspent, unasked, stands⟩ := before
    obtain ⟨still_spent, stands⟩ := final entries (.inr rfl) stands
    exact ⟨same.trans written, still_spent.trans unspent,
      fun txid block pending => unasked txid block (still _ pending), stands⟩

/-- While a payment is on its way, nothing is asked of Prime that would end the hold. -/
theorem Sound.paying (sound : s.Sound batch spent) {entries : List (String × Nat)}
    (paying : s.tool = .signed entries ∨ s.tool = .recorded entries) :
    ¬ s.Pending .release ∧ ∀ txid block, ¬ s.Pending (.paid txid block) := by
  have tool := sound.tool
  rcases paying with signed | recorded
  · rw [signed] at tool
    exact ⟨tool.2.1, sound.unpaid tool.1⟩
  · rw [recorded] at tool
    exact ⟨sound.unreleased tool.1, tool.2.2.1⟩

section Around

theorem Sound.advance (sound : s.Sound batch spent) (height : Nat) :
    (s.step batch (.advance height)).Sound batch spent := by
  have higher : s.tip ≤ max s.tip height := Nat.le_max_left _ _
  refine ⟨fun h known => (sound.published h known).trans higher,
    fun h known => (sound.building h known).trans higher, sound.docTip.trans higher,
    sound.money, ?_, sound.unreleased, sound.unpaid, sound.document, ?_⟩
  · intro paid
    exact ⟨(sound.spentFinal paid).1, fun hold stands => ((sound.spentFinal paid).2 hold stands).trans higher⟩
  · refine sound.tool.transfer rfl (fun _ pending => pending) ?_
    rintro entries _ ⟨hold, stands, same, ready⟩
    exact ⟨rfl, hold, stands, same, ready.trans higher⟩

theorem Sound.publish (sound : s.Sound batch spent) (height : Nat) :
    (s.step batch (.publish height)).Sound batch spent := by
  refine ⟨?_, sound.building, sound.docTip, sound.money, sound.spentFinal, sound.unreleased, sound.unpaid,
    sound.document, sound.tool⟩
  intro h known
  cases known
  exact Nat.min_le_right _ _

/-- A block that draws from no final hold draws nothing from one that is paid. -/
theorem Sound.book (sound : s.Sound batch spent) {carryDelta : List (String × Int)} {books : Books}
    (given : s.Given batch (.book carryDelta books)) :
    (s.step batch (.book carryDelta books)).Sound batch spent := by
  have drained := bookDebits_drained s.ledger carryDelta books batch
  refine ⟨sound.published, sound.building, sound.docTip, ?_, ?_, sound.unreleased, sound.unpaid, ?_, ?_⟩
  · intro identity
    have before := sound.money identity
    have less := drained.less identity
    show s.paid identity + s.released identity + (s.drawn identity + (heldFor (s.ledger.hold batch) identity -
      heldFor ((s.ledger.bookDebits carryDelta books).1.hold batch) identity)) +
      (if spent then 0 else heldFor ((s.ledger.bookDebits carryDelta books).1.hold batch) identity) ≤
        s.held identity
    cases spent with
    | false => simp at before ⊢; omega
    | true =>
      have none : heldFor (s.ledger.hold batch) identity -
          heldFor ((s.ledger.bookDebits carryDelta books).1.hold batch) identity = 0 := by
        cases stands : s.ledger.hold batch with
        | none => simp
        | some hold =>
          rw [given hold stands ((sound.spentFinal rfl).2 hold stands)]
          exact Nat.sub_self _
      simp at before ⊢
      omega
  · intro paid
    refine ⟨(sound.spentFinal paid).1, fun hold stands => ?_⟩
    obtain ⟨old, stood, same⟩ := drained.ready hold stands
    exact same ▸ (sound.spentFinal paid).2 old stood
  · intro unrecorded standing hold shown ready
    exact given hold (sound.document unrecorded standing hold shown ready) (ready.trans sound.docTip)
  · refine sound.tool.transfer rfl (fun _ pending => pending) ?_
    rintro entries _ ⟨hold, stands, same, ready⟩
    exact ⟨rfl, hold, given hold stands ready, same, ready⟩

theorem Sound.other (sound : s.Sound batch spent) (l : Ledger) : (s.step batch (.other l)).Sound batch spent :=
  ⟨sound.published, sound.building, sound.docTip, sound.money, sound.spentFinal, sound.unreleased, sound.unpaid,
    sound.document, sound.tool.transfer rfl (fun _ pending => pending) fun _ _ final => ⟨rfl, final⟩⟩

theorem Sound.buildTip (sound : s.Sound batch spent) : (s.step batch .buildTip).Sound batch spent := by
  refine ⟨sound.published, ?_, sound.docTip, sound.money, sound.spentFinal, sound.unreleased, sound.unpaid,
    sound.document, sound.tool⟩
  intro height known
  cases known
  cases tip : s.published with
  | none => exact Nat.zero_le _
  | some height => exact sound.published height tip

theorem Sound.buildDoc (sound : s.Sound batch spent) : (s.step batch .buildDoc).Sound batch spent := by
  simp only [step]
  split
  · exact sound
  · rename_i tip read
    refine ⟨sound.published, by simp, sound.building tip read, sound.money, sound.spentFinal, sound.unreleased,
      sound.unpaid, ?_, sound.tool⟩
    intro _ _ hold shown _
    exact shown

end Around

section Run

theorem Sound.hold (sound : s.Sound batch spent) (entries : List (String × Nat)) :
    (s.step batch (.hold entries)).Sound batch spent := by
  simp only [step]
  split
  · split
    · exact sound
    · exact ⟨sound.published, sound.building, sound.docTip, sound.money, sound.spentFinal, sound.unreleased,
        sound.unpaid, sound.document, by simp [ToolSound]⟩
  · exact sound

theorem Sound.release (sound : s.Sound batch spent) : (s.step batch .release).Sound batch spent := by
  simp only [step]
  split
  · split
    · exact sound
    · rename_i unrecorded
      exact ⟨sound.published, sound.building, sound.docTip, sound.money, sound.spentFinal, sound.unreleased,
        sound.unpaid, sound.document, by simpa [ToolSound] using unrecorded⟩
  · exact sound

/-- A payment goes by a document that says what the ledger says. -/
theorem Sound.pay (sound : s.Sound batch spent) (guarded : s.Guarded batch .pay) :
    (s.step batch .pay).Sound batch spent := by
  obtain ⟨unasked, standing⟩ := guarded
  simp only [step, ByHand.pay]
  split
  · split
    · exact sound
    · rename_i hold shown
      split
      · exact sound
      · rename_i recorded
        have unrecorded : s.record = false := by simpa using recorded
        split
        · exact ⟨sound.published, sound.building, sound.docTip, sound.money, sound.spentFinal, sound.unreleased,
            sound.unpaid, sound.document, unrecorded, unasked⟩
        · split
          · exact sound
          · rename_i early
            have ready : hold.readyHeight ≤ s.doc.tip := Nat.le_of_not_lt early
            have stands := sound.document unrecorded standing hold shown ready
            exact ⟨sound.published, sound.building, sound.docTip, sound.money,
              sound.spentFinal, sound.unreleased, sound.unpaid, sound.document,
              unrecorded, unasked, hold, stands, rfl, ready.trans sound.docTip⟩
  · exact sound

theorem Sound.count (sound : s.Sound batch spent) {height : Nat} (guarded : s.Guarded batch (.count height)) :
    (s.step batch (.count height)).Sound batch spent := by
  simp only [step]
  split
  · rename_i hold counting
    have tool := sound.tool
    rw [counting] at tool
    obtain ⟨unrecorded, unasked⟩ := tool
    split
    · exact ⟨sound.published, sound.building, sound.docTip, sound.money, sound.spentFinal, sound.unreleased,
        sound.unpaid, sound.document, trivial⟩
    · rename_i early
      have ready : hold.readyHeight ≤ min height s.tip := Nat.le_of_not_lt early
      exact ⟨sound.published, sound.building, sound.docTip, sound.money, sound.spentFinal, sound.unreleased,
        sound.unpaid, sound.document, unrecorded, unasked, hold, guarded hold counting ready, rfl,
        ready.trans (Nat.min_le_right _ _)⟩
  · exact sound

theorem Sound.write (sound : s.Sound batch spent) : (s.step batch .write).Sound batch spent := by
  simp only [step]
  split
  · rename_i entries signed
    have tool := sound.tool
    rw [signed] at tool
    obtain ⟨unrecorded, unasked, final⟩ := tool
    have unspent : spent = false := by
      cases spent with
      | false => rfl
      | true => exact absurd (sound.spentFinal rfl).1 (by simp [unrecorded])
    exact ⟨sound.published, sound.building, sound.docTip, sound.money, by simp [unspent], fun _ => unasked,
      by simp, by simp, rfl, unspent, sound.unpaid unrecorded, final⟩
  · exact sound

/-- Sending the payment spends the hold. -/
theorem Sound.send (sound : s.Sound batch spent) (txid : String) :
    ∃ spent, (s.step batch (.send txid)).Sound batch spent := by
  simp only [step]
  split
  · rename_i entries recorded
    have tool := sound.tool
    rw [recorded] at tool
    obtain ⟨written, unspent, _, hold, stands, same, ready⟩ := tool
    refine ⟨true, sound.published, sound.building, sound.docTip, ?_, ?_, sound.unreleased, sound.unpaid,
      sound.document, by simpa [ToolSound] using written⟩
    · intro identity
      have before := sound.money identity
      rw [unspent, stands, heldFor_some, same] at before
      simp [credit] at before ⊢
      omega
    · intro _
      refine ⟨written, fun other now => ?_⟩
      rw [stands] at now
      cases now
      exact ready
  · exact ⟨spent, sound⟩

theorem Sound.tidy (sound : s.Sound batch spent) : (s.step batch .tidy).Sound batch spent := by
  simp only [step]
  split
  · rename_i req asking
    have tool := sound.tool
    rw [asking] at tool
    exact ⟨sound.published, sound.building, sound.docTip, sound.money, sound.spentFinal, sound.unreleased,
      sound.unpaid, sound.document, tool⟩
  · exact sound

theorem Sound.submit (sound : s.Sound batch spent) : (s.step batch .submit).Sound batch spent := by
  simp only [step]
  split
  · rename_i req tidied
    have tool := sound.tool
    rw [tidied] at tool
    refine ⟨sound.published, sound.building, sound.docTip, sound.money,
      sound.spentFinal, ?_, ?_, sound.document, trivial⟩
    · rintro recorded (asked | read)
      · have unrecorded := tool.1 (Option.some.inj asked)
        exact absurd (recorded.symm.trans unrecorded) (by simp)
      · exact sound.unreleased recorded (.inr read)
    · rintro unrecorded txid block (asked | read)
      · have recorded := tool.2 txid block (Option.some.inj asked)
        exact absurd (recorded.symm.trans unrecorded) (by simp)
      · exact sound.unpaid unrecorded txid block (.inr read)
  · exact sound

theorem Sound.die (sound : s.Sound batch spent) : (s.step batch .die).Sound batch spent :=
  ⟨sound.published, sound.building, sound.docTip, sound.money, sound.spentFinal, sound.unreleased, sound.unpaid,
    sound.document, trivial⟩

end Run

section Poll

/-- Prime moves on with a request and nothing is asked that was not. -/
theorem Sound.poll (sound : s.Sound batch spent) {request : Option Request}
    {answer : Option Reply} {polling : Polling}
    (still : ∀ req, Pending { s with request, answer, polling } req → s.Pending req) :
    Sound batch spent { s with request, answer, polling } :=
  ⟨sound.published, sound.building, sound.docTip, sound.money, sound.spentFinal,
    fun recorded pending => sound.unreleased recorded (still _ pending),
    fun unrecorded txid block pending => sound.unpaid unrecorded txid block (still _ pending), sound.document,
    sound.tool.transfer rfl still fun _ _ final => ⟨rfl, final⟩⟩

theorem Sound.read (sound : s.Sound batch spent) : (s.step batch .read).Sound batch spent := by
  simp only [step]
  split
  · rename_i req _ waiting
    apply sound.poll
    rintro other (asked | ⟨seen, read⟩)
    · exact .inl asked
    · cases read
      exact .inl waiting
  · exact sound

theorem Sound.reply (sound : s.Sound batch spent) : (s.step batch .reply).Sound batch spent := by
  simp only [step]
  split
  · apply sound.poll
    rintro other (asked | ⟨seen, read⟩)
    · exact .inl asked
    · split at read <;> cases read
  · exact sound

theorem Sound.remove (sound : s.Sound batch spent) : (s.step batch .remove).Sound batch spent := by
  simp only [step]
  split
  · apply sound.poll
    rintro other (asked | ⟨seen, read⟩)
    · cases asked
    · cases read
  · exact sound

/-- Handling a request moves the money from one account to the other, and what ends a hold was asked for while
no payment was on its way. -/
theorem Sound.apply (sound : s.Sound batch spent) {req : Request} {seen : Option Hold}
    (reading : s.polling = .read req seen) (payer : Payer) (ts : Nat) :
    ∃ spent, (s.apply batch req seen payer ts).Sound batch spent := by
  have pending : s.Pending req := .inr ⟨seen, reading⟩
  have handled := handle_handled payer ts s.published seen s.ledger batch req
  generalize result : handle payer ts s.published seen s.ledger batch req = outcome at handled
  obtain ⟨ledger, reply⟩ := outcome
  simp only [ByHand.apply, result]
  have still : ∀ other, Pending { s with
      ledger, polling := .applied reply
      doc := { s.doc with ended := s.doc.ended || (s.ledger.hold batch).isSome && (ledger.hold batch).isNone }
      held := credit s.held reply.taken, released := credit s.released reply.returned } other →
        s.Pending other := by
    rintro other (asked | ⟨_, read⟩)
    · exact .inl asked
    · cases read
  have unreleased := fun recorded asked => sound.unreleased recorded (still _ asked)
  have unpaid := fun unrecorded txid block asked => sound.unpaid unrecorded txid block (still _ asked)
  cases handled with
  | kept _ same took gave quiet =>
    refine ⟨spent, sound.published, sound.building, sound.docTip, ?_, ?_, unreleased, unpaid, ?_, ?_⟩
    · intro identity
      simpa [credit, took, gave, same] using sound.money identity
    · intro paid
      refine ⟨(sound.spentFinal paid).1, fun hold stands => ?_⟩
      exact (sound.spentFinal paid).2 hold (same ▸ stands)
    · intro unrecorded standing hold shown ready
      have before : s.doc.ended = false := by simp at standing; exact standing.1
      exact same.trans (sound.document unrecorded before hold shown ready)
    · refine sound.tool.transfer rfl still ?_
      rintro entries _ ⟨hold, stands, known, ready⟩
      exact ⟨rfl, hold, same.trans stands, known, ready⟩
  | placed entries hold unused stands took gave moves =>
    refine ⟨false, sound.published, sound.building, sound.docTip, ?_, by simp, unreleased, unpaid, ?_, ?_⟩
    · intro identity
      have before := sound.money identity
      simp [credit, took, gave, stands, unused] at before ⊢
      exact before
    · intro unrecorded standing other shown ready
      have before : s.doc.ended = false := by simp at standing; exact standing.1
      have stood := sound.document unrecorded before other shown ready
      exact absurd (unused.symm.trans stood) (by simp)
    · refine sound.tool.transfer rfl still ?_
      rintro _ _ ⟨other, stood, _, _⟩
      exact absurd (unused.symm.trans stood) (by simp)
  | released hold stood gone took gave moves =>
    have unspent : spent = false := by
      cases spent with
      | false => rfl
      | true => exact absurd pending (sound.unreleased (sound.spentFinal rfl).1)
    refine ⟨false, sound.published, sound.building, sound.docTip, ?_, by simp, unreleased, unpaid, ?_, ?_⟩
    · intro identity
      have before := sound.money identity
      rw [unspent, stood, heldFor_some] at before
      simp [credit, took, gave, gone] at before ⊢
      omega
    · intro _ standing
      simp [stood, gone] at standing
    · refine sound.tool.transfer rfl still ?_
      intro entries paying
      exact absurd pending (sound.paying paying).1
  | finished txid block hold stood gone took gave moves =>
    refine ⟨false, sound.published, sound.building, sound.docTip, ?_, by simp, unreleased, unpaid, ?_, ?_⟩
    · intro identity
      have before := sound.money identity
      simp [credit, took, gave, gone] at before ⊢
      omega
    · intro _ standing
      simp [stood, gone] at standing
    · refine sound.tool.transfer rfl still ?_
      intro entries paying
      exact absurd pending ((sound.paying paying).2 txid block)

end Poll

theorem Sound.step (sound : s.Sound batch spent) {op : ByHandOp} (guarded : s.Guarded batch op) :
    ∃ spent, (s.step batch op).Sound batch spent := by
  cases op with
  | advance height => exact ⟨spent, sound.advance height⟩
  | publish height => exact ⟨spent, sound.publish height⟩
  | book carryDelta books => exact ⟨spent, sound.book guarded⟩
  | other l => exact ⟨spent, sound.other l⟩
  | buildTip => exact ⟨spent, sound.buildTip⟩
  | buildDoc => exact ⟨spent, sound.buildDoc⟩
  | hold entries => exact ⟨spent, sound.hold entries⟩
  | release => exact ⟨spent, sound.release⟩
  | pay => exact ⟨spent, sound.pay guarded⟩
  | count height => exact ⟨spent, sound.count guarded⟩
  | write => exact ⟨spent, sound.write⟩
  | send txid => exact sound.send txid
  | tidy => exact ⟨spent, sound.tidy⟩
  | submit => exact ⟨spent, sound.submit⟩
  | die => exact ⟨spent, sound.die⟩
  | read => exact ⟨spent, sound.read⟩
  | apply payer ts =>
    simp only [ByHand.step]
    split
    · rename_i req seen reading
      exact sound.apply reading payer ts
    · exact ⟨spent, sound⟩
  | reply => exact ⟨spent, sound.reply⟩
  | remove => exact ⟨spent, sound.remove⟩

theorem sound_start {l : Ledger} (unused : l.hold batch = none) (tip : Nat) :
    Sound batch false { ledger := l, tip } := by
  refine ⟨by simp, by simp, Nat.zero_le _, ?_, by simp, by simp, ?_, by simp, trivial⟩
  · intro identity
    simp [unused]
  · rintro _ txid block (asked | ⟨seen, read⟩)
    · cases asked
    · cases read

/-- From before the batch is held, a payment that is never begun beside a release pays no balance a second
time. -/
theorem held_out_once (batch : String) (l : Ledger) (unused : l.hold batch = none)
    (tip : Nat) (ops : List ByHandOp)
    (guarded : Run.Along (Guarded batch) (step batch) { ledger := l, tip } ops) :
    (ops.foldl (step batch) { ledger := l, tip }).OutOnce := by
  obtain ⟨_, sound⟩ := Run.foldl_invariant (fun s : ByHand => ∃ spent, s.Sound batch spent)
    (fun _ _ sound guarded => sound.elim fun _ sound => sound.step guarded)
      guarded ⟨false, sound_start unused tip⟩
  exact sound.outOnce

section Beside

/-- One miner with a balance, gone for a day. -/
def idle : Ledger :=
  let seen : Window :=
    { idents := ⟨[], List.nodup_nil⟩, lastSeen := AList.insert 0 1000 ∅,
      carryKnown := known_empty, debtKnown := known_empty }
  { window := seen.setCarry "alice" 7000 }

/-- The node shows a payment of that balance three blocks deep. -/
def payer : Payer where
  staleAfterSecs := 86400
  staleMinPayout := 1000
  toScript identity := if identity = "alice" then some "0014" else none
  node _ _ := .ok { confirmations := some 3, vout := some [("0014", some 7000)] }

/-- The balance is held, and the document of the height from which it is final is built. -/
def heldReady : List ByHandOp :=
  [.advance 100, .publish 100, .buildTip, .buildDoc, .hold [("alice", 7000)], .tidy, .submit, .read,
    .apply payer 100000, .reply, .remove, .advance 104, .publish 104, .buildTip, .buildDoc]

def payment : String := "00000000000000000000000000000000000000000000000000000000000000ff"

/-- The payment is sent, reported and seen by Prime three blocks deep. -/
def paidOut : List ByHandOp :=
  heldReady ++ [.pay, .write, .send payment, .tidy, .submit, .read, .apply payer 100000, .reply, .remove]

theorem held_out_once_paidOut :
    (paidOut.foldl (step "b") { ledger := idle }).ledger.hold "b" = none ∧
      (paidOut.foldl (step "b") { ledger := idle }).held "alice" = 7000 ∧
      (paidOut.foldl (step "b") { ledger := idle }).paid "alice" = 7000 ∧
      (paidOut.foldl (step "b") { ledger := idle }).OutOnce := by
  refine ⟨by decide +kernel, by decide +kernel, by decide +kernel,
    held_out_once "b" idle (by decide +kernel) 0 paidOut ?_⟩
  simp only [paidOut, heldReady, List.cons_append, List.nil_append, Run.along_cons, Run.along_nil, Guarded]
  refine ⟨trivial, trivial, trivial, trivial, trivial, trivial, trivial,
    trivial, trivial, trivial, trivial, trivial, trivial, trivial, trivial,
    ?_, trivial, trivial, trivial, trivial, trivial, trivial, trivial, trivial, trivial⟩
  decide

/-- A release is asked for and not waited for, and the payment goes out before Prime takes it up. -/
def beside : List ByHandOp :=
  heldReady ++ [.release, .tidy, .submit, .die, .pay, .write, .send payment, .read, .apply payer 100000]

/-- The balance is in a transaction on the wire, and it is carry again. -/
theorem release_beside_pay_twice :
    idle.hold "b" = none ∧ Run.Along (Given "b") (step "b") { ledger := idle } beside ∧
      (beside.foldl (step "b") { ledger := idle }).held "alice" = 7000 ∧
      (beside.foldl (step "b") { ledger := idle }).paid "alice" = 7000 ∧
      (beside.foldl (step "b") { ledger := idle }).ledger.window.carryOf "alice" = 7000 ∧
      ¬ (beside.foldl (step "b") { ledger := idle }).OutOnce := by
  refine ⟨by decide, ?_, by decide, by decide, by decide, ?_⟩
  · simp [beside, heldReady, Given]
  · intro once
    exact absurd (once "alice") (by decide)

end Beside

end ByHand

end Lazarus.Primed
