import Lazarus.Lib.Along
import Lazarus.Primed.Tip

/-! Holds and the coinbasers that are older than they are. A coinbaser is priced off a snapshot, sent, and
recorded with the height it is for at three different moments, and a hold takes the tip, moves the balances
and clears the snapshot at three others. -/

namespace Lazarus.Primed

open Wire

/-- Blocks past the one it was issued for that a coinbaser can be mined on. -/
def coinbaserGraceBlocks : Nat := 2

/-- Coinbasers a session keeps. -/
def coinbasersKept : Nat := 16

/-- A coinbaser may be mined on for its grace past the block it was issued for, which was the one after
the tip. -/
def readyAfterBlocks : Nat := coinbaserGraceBlocks + 2

/-- A coinbaser as a session remembers it. `snapshot` is how many holds had been placed when the balances
it was priced off were read from the ledger. -/
structure IssuedCoinbaser where
  id : UInt8
  prevHash : Hash
  height : Nat
  snapshot : Nat
deriving DecidableEq

/-- Whether the coinbaser may be mined on at a height by its own alone. -/
def IssuedCoinbaser.inGrace (c : IssuedCoinbaser) (height : Nat) : Bool :=
  0 < c.height && height ≤ c.height + coinbaserGraceBlocks

/-- How far a session is with the coinbaser it was asked for. -/
inductive Asking where
  | idle
  | read (prevHash : Hash) (snapshot : Nat)
  | replied (prevHash : Hash) (snapshot : Nat)

structure Session where
  coinbasers : List IssuedCoinbaser := []
  nextCoinbaserId : UInt8 := 1
  asking : Asking := .idle

namespace Session

/-- The last coinbaser issued under this id. -/
def issued (s : Session) (id : UInt8) : Option IssuedCoinbaser := s.coinbasers.reverse.find? fun c => c.id = id

/-- The coinbaser a job may be held to: the one it names, if it was issued for the block the job builds on
or for one not long before. -/
def issuedFor (s : Session) (id : UInt8) (prevHash : Hash) (height : Nat) : Option IssuedCoinbaser :=
  (s.issued id).filter fun c => c.prevHash = prevHash || c.inGrace height

/-- Remember the coinbaser that was sent, under the height the tip gives it now. -/
def record (s : Session) (prevHash : Hash) (snapshot height : Nat) : Session :=
  let c : IssuedCoinbaser := { id := s.nextCoinbaserId, prevHash, height, snapshot }
  let coinbasers := s.coinbasers ++ [c]
  { coinbasers := coinbasers.drop (coinbasers.length - coinbasersKept)
    nextCoinbaserId := if s.nextCoinbaserId = 255 then 1 else s.nextCoinbaserId + 1
    asking := .idle }

theorem mem_of_issuedFor {s : Session} {id : UInt8} {prevHash : Hash} {height : Nat} {c : IssuedCoinbaser}
    (found : s.issuedFor id prevHash height = some c) : c ∈ s.coinbasers :=
  List.mem_reverse.mp (List.mem_of_find?_eq_some (Option.filter_eq_some_iff.mp found).1)

theorem mem_record {s : Session} {prevHash : Hash} {snapshot height : Nat} {c : IssuedCoinbaser}
    (member : c ∈ (s.record prevHash snapshot height).coinbasers) :
    c ∈ s.coinbasers ∨ c.height = height ∧ c.snapshot = snapshot := by
  rcases List.mem_append.mp (List.mem_of_mem_drop member) with old | new
  · exact .inl old
  · rw [List.mem_singleton.mp new]
    exact .inr ⟨rfl, rfl⟩

end Session

/-- A hold as it was placed: the how manieth it is, the tip it took, and from where on it is final. -/
structure Placed where
  number : Nat
  height : Nat
  readyHeight : Nat
deriving DecidableEq

/-- Every session, the snapshot they share, and the hold that is being placed. `moves` counts the holds
placed, `taken` is the tip height that the hold being placed has taken. -/
structure Desk where
  tip : Option Tip := none
  moves : Nat := 0
  slot : Option Nat := none
  taken : Option Nat := none
  holds : List Placed := []
  sessions : Nat → Session := fun _ => {}

/-- One step of a session, of the node poller or of a hold request. -/
inductive DeskOp where
  | advance (tip : Tip)
  | read (i : Nat) (prevHash : Hash) (expired : Bool)
  | reply (i : Nat)
  | record (i : Nat)
  | close (i : Nat)
  | take
  | decline
  | move
  | clear

namespace Desk

/-- The height a coinbaser is recorded under: that of the block after the tip, zero without one. -/
def nextHeight (s : Desk) : Nat := (s.tip.map fun tip => tip.height + 1).getD 0

def withSession (s : Desk) (i : Nat) (session : Session) : Desk :=
  { s with sessions := Function.update s.sessions i session }

def step (s : Desk) : DeskOp → Desk
  | .advance tip => { s with tip := some tip }
  | .read i prevHash expired =>
    match (s.sessions i).asking with
    | .idle =>
      -- the shared snapshot if it is not too old, else a new one off the ledger
      let snapshot := if expired then s.moves else s.slot.getD s.moves
      { s with slot := some snapshot }.withSession i { s.sessions i with asking := .read prevHash snapshot }
    | _ => s
  | .reply i =>
    match (s.sessions i).asking with
    | .read prevHash snapshot => s.withSession i { s.sessions i with asking := .replied prevHash snapshot }
    | _ => s
  | .record i =>
    match (s.sessions i).asking with
    | .replied prevHash snapshot => s.withSession i ((s.sessions i).record prevHash snapshot s.nextHeight)
    | _ => s
  | .close i => s.withSession i {}
  | .take => { s with taken := s.tip.map Tip.height }
  | .decline => { s with taken := none }
  | .move =>
    match s.taken with
    | none => s
    | some height =>
      { s with
        moves := s.moves + 1
        holds := s.holds ++ [{ number := s.moves + 1, height, readyHeight := height + readyAfterBlocks }]
        taken := none }
  | .clear => { s with slot := none }

/-- The tip never goes back. -/
def Advancing (s : Desk) : DeskOp → Prop
  | .advance tip => ∀ old, s.tip = some old → old.height ≤ tip.height
  | _ => True

/-- The tip never goes back; and when a coinbaser is recorded, it is not past the tip of a hold that is
being placed or that was placed since the coinbaser's snapshot was read. -/
def Timely (s : Desk) : DeskOp → Prop
  | .advance tip => ∀ old, s.tip = some old → old.height ≤ tip.height
  | .record i =>
    ∀ prevHash snapshot, (s.sessions i).asking = .replied prevHash snapshot → ∀ tip, s.tip = some tip →
    (∀ height, s.taken = some height → tip.height ≤ height) ∧
      ∀ hold ∈ s.holds, snapshot < hold.number → tip.height ≤ hold.height
  | _ => True

/-- Held balances are final: once the tip is at a hold's ready height, no job that is taken can be held, by
its height, to a coinbaser whose snapshot is older than the hold. -/
def Final (s : Desk) : Prop :=
  ∀ hold ∈ s.holds, ∀ tip, s.tip = some tip → hold.readyHeight ≤ tip.height →
    ∀ i id prevHash height nbits grace now c, tip.takes prevHash height nbits grace now = true →
      (s.sessions i).issuedFor id prevHash height = some c → c.inGrace height = true → hold.number ≤ c.snapshot

/-- Every coinbaser older than a hold was recorded by the time of the tip the hold took. -/
structure Sound (s : Desk) : Prop where
  ready : ∀ hold ∈ s.holds, hold.readyHeight = hold.height + readyAfterBlocks
  older : ∀ i, ∀ c ∈ (s.sessions i).coinbasers, ∀ hold ∈ s.holds, c.snapshot < hold.number →
    c.height ≤ hold.height + 1
  pending : ∀ height, s.taken = some height → ∀ i, ∀ c ∈ (s.sessions i).coinbasers, c.height ≤ height + 1
  behind : ∀ i, ∀ c ∈ (s.sessions i).coinbasers, c.height ≤ s.nextHeight

theorem sound_empty : Sound {} := ⟨by simp, by simp, by simp, by simp⟩

variable {s : Desk}

theorem nextHeight_of_tip {tip : Tip} (known : s.tip = some tip) : s.nextHeight = tip.height + 1 := by
  simp [nextHeight, known]

/-- What is known of each coinbaser of every session, when one session changes. -/
theorem forall_withSession {i : Nat} {session : Session} {P : IssuedCoinbaser → Prop}
    (own : ∀ c ∈ session.coinbasers, P c) (others : ∀ j, ∀ c ∈ (s.sessions j).coinbasers, P c) (j : Nat) :
    ∀ c ∈ ((s.withSession i session).sessions j).coinbasers, P c := by
  show ∀ c ∈ (Function.update s.sessions i session j).coinbasers, P c
  by_cases same : j = i
  · subst same
    rw [Function.update_self]
    exact own
  · rw [Function.update_of_ne same]
    exact others j

/-- A session that brings in only coinbasers that keep the rules. -/
theorem Sound.withSession (sound : s.Sound) {i : Nat} {session : Session}
    (keeps : ∀ c ∈ session.coinbasers, c ∈ (s.sessions i).coinbasers ∨
      (∀ hold ∈ s.holds, c.snapshot < hold.number → c.height ≤ hold.height + 1) ∧
        (∀ height, s.taken = some height → c.height ≤ height + 1) ∧ c.height ≤ s.nextHeight) :
    (s.withSession i session).Sound := by
  refine ⟨sound.ready, ?_, ?_, ?_⟩
  · apply forall_withSession ?_ sound.older
    intro c member
    rcases keeps c member with old | ⟨older, _, _⟩
    · exact sound.older i c old
    · exact older
  · intro height taken
    apply forall_withSession ?_ (sound.pending height taken)
    intro c member
    rcases keeps c member with old | ⟨_, pending, _⟩
    · exact sound.pending height taken i c old
    · exact pending height taken
  · apply forall_withSession ?_ sound.behind
    intro c member
    rcases keeps c member with old | ⟨_, _, behind⟩
    · exact sound.behind i c old
    · exact behind

theorem Sound.advance (sound : s.Sound) {tip : Tip}
    (advancing : ∀ old, s.tip = some old → old.height ≤ tip.height) : (s.step (.advance tip)).Sound := by
  refine ⟨sound.ready, sound.older, sound.pending, ?_⟩
  intro i c member
  have before := sound.behind i c member
  have after : (s.step (.advance tip)).nextHeight = tip.height + 1 := nextHeight_of_tip rfl
  rw [after]
  cases known : s.tip with
  | none => simp [nextHeight, known] at before; omega
  | some old =>
    rw [nextHeight_of_tip known] at before
    have higher := advancing old known
    omega

theorem Sound.record (sound : s.Sound) {i : Nat} (timely : s.Timely (.record i)) :
    (s.step (.record i)).Sound := by
  simp only [step]
  split
  · rename_i prevHash snapshot asked
    apply sound.withSession
    intro c member
    rcases Session.mem_record member with old | ⟨height, read⟩
    · exact .inl old
    · refine .inr ⟨?_, ?_, Nat.le_of_eq height⟩
      · intro hold placed older
        rw [height]
        cases known : s.tip with
        | none => simp [nextHeight, known]
        | some tip =>
          rw [nextHeight_of_tip known]
          exact Nat.succ_le_succ ((timely prevHash snapshot asked tip known).2 hold placed (read ▸ older))
      · intro taken placing
        rw [height]
        cases known : s.tip with
        | none => simp [nextHeight, known]
        | some tip =>
          rw [nextHeight_of_tip known]
          exact Nat.succ_le_succ ((timely prevHash snapshot asked tip known).1 taken placing)
  · exact sound

theorem Sound.take (sound : s.Sound) : (s.step .take).Sound := by
  refine ⟨sound.ready, sound.older, ?_, sound.behind⟩
  intro height taken i c member
  obtain ⟨tip, known, rfl⟩ := Option.map_eq_some_iff.mp taken
  rw [← nextHeight_of_tip known]
  exact sound.behind i c member

theorem Sound.move (sound : s.Sound) : (s.step .move).Sound := by
  simp only [step]
  split
  · exact sound
  · rename_i height taken
    refine ⟨?_, ?_, by simp, sound.behind⟩
    · intro hold member
      rcases List.mem_append.mp member with old | new
      · exact sound.ready hold old
      · rw [List.mem_singleton.mp new]
    · intro i c member hold placed older
      rcases List.mem_append.mp placed with old | new
      · exact sound.older i c member hold old older
      · rw [List.mem_singleton.mp new]
        exact sound.pending height taken i c member

theorem Sound.step (sound : s.Sound) {op : DeskOp} (timely : s.Timely op) : (s.step op).Sound := by
  cases op with
  | advance tip => exact sound.advance timely
  | read i prevHash expired =>
    simp only [Desk.step]
    split
    · have slotted : Sound { s with slot := some (if expired then s.moves else s.slot.getD s.moves) } :=
        ⟨sound.ready, sound.older, sound.pending, sound.behind⟩
      exact slotted.withSession fun c member => .inl member
    · exact sound
  | reply i =>
    simp only [Desk.step]
    split
    · exact sound.withSession fun c member => .inl member
    · exact sound
  | record i => exact sound.record timely
  | close i => exact sound.withSession fun c member => by cases member
  | take => exact sound.take
  | decline => exact ⟨sound.ready, sound.older, fun height taken => (by cases taken), sound.behind⟩
  | move => exact sound.move
  | clear => exact ⟨sound.ready, sound.older, sound.pending, sound.behind⟩

/-- Two blocks of grace, one for the block after the tip and one for the tip's own height being taken add
up to the ready height with nothing to spare. -/
theorem Sound.final (sound : s.Sound) : s.Final := by
  intro hold placed tip known ready i id prevHash height nbits grace now c taken found grace'
  by_contra older
  have recorded := sound.older i c (Session.mem_of_issuedFor found) hold placed (by omega)
  have live := (Tip.takes_iff.mp taken).1.range.1
  rw [sound.ready hold placed] at ready
  simp only [IssuedCoinbaser.inGrace, Bool.and_eq_true, decide_eq_true_eq] at grace'
  simp only [readyAfterBlocks, coinbaserGraceBlocks] at ready grace'
  omega

/-- Held balances are final at their ready height in every run in which coinbasers are recorded in time. -/
theorem held_final {run : List DeskOp} (timely : Run.Along Timely step {} run) : (run.foldl step {}).Final :=
  (Run.foldl_invariant Sound (fun _ _ sound allowed => sound.step allowed) timely sound_empty).final

section Late

/-- The tip at a height, just seen. -/
def tipOf (height : Nat) : Tip := { height, bits := some 0x1d00ffff, nextBits := some 0x1d00ffff }

/-- A coinbaser is priced, a hold is placed, and the coinbaser is sent and recorded at once. -/
def inTime : List DeskOp :=
  [.advance (tipOf 100), .read 0 (Fixed.zero 32) true, .take, .move, .clear,
    .reply 0, .record 0, .advance (tipOf 104)]

theorem held_final_inTime : (inTime.foldl step {}).holds.length = 1 ∧ (inTime.foldl step {}).Final := by
  refine ⟨by decide, held_final ?_⟩
  simp only [inTime, Run.along_cons, Run.along_nil, Timely]
  refine ⟨?_, trivial, trivial, trivial, trivial, trivial, ?_, ?_, trivial⟩
  · intro old known
    cases known
  · intro prevHash snapshot asked tip known
    cases known
    refine ⟨?_, ?_⟩
    · intro height taken
      cases taken
    · intro hold placed _
      rw [List.mem_singleton.mp placed]
  · intro old known
    cases known
    decide

/-- A block arrives before the coinbaser is sent. -/
def late : List DeskOp :=
  [.advance (tipOf 100), .read 0 (Fixed.zero 32) true, .take, .move, .clear,
    .advance (tipOf 101), .reply 0, .record 0, .advance (tipOf 104)]

/-- The hold is ready at 104, and there a job of height 104, in its grace, is held to a coinbaser that
still pays the held balance. -/
theorem late_record_not_final :
    Run.Along Advancing step {} late ∧ (late.foldl step {}).holds.map Placed.readyHeight = [104] ∧
      (late.foldl step {}).holds.map Placed.number = [1] ∧
      (tipOf 104).takes (Fixed.zero 32) 104 0x1d00ffff 5 0 = true ∧
      (((late.foldl step {}).sessions 0).issuedFor 1 (Fixed.zero 32) 104).map
        IssuedCoinbaser.snapshot = some 0 ∧
      ¬ (late.foldl step {}).Final := by
  refine ⟨?_, by decide, by decide, by decide, by decide, ?_⟩
  · simp only [late, Run.along_cons, Run.along_nil, Advancing]
    refine ⟨?_, trivial, trivial, trivial, trivial, ?_, trivial, trivial, ?_, trivial⟩
    · intro old known
      cases known
    · intro old known
      cases known
      decide
    · intro old known
      cases known
      decide
  · intro final
    have fresh :=
      final ⟨1, 100, 104⟩ (by decide) (tipOf 104) rfl (by decide) 0 1 (Fixed.zero 32) 104 0x1d00ffff 5 0
      ⟨1, Fixed.zero 32, 102, 0⟩ (by decide) (by decide) (by decide)
    exact absurd fresh (by decide)

end Late

end Desk

end Lazarus.Primed
