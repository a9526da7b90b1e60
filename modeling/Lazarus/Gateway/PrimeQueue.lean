import Lazarus.Lib.Along
import Lazarus.Lib.Threads
import Lazarus.Wire.Cursor

/-! The queue of shares to Prime and the counter that gates it. Threads that send look at the counter,
send, and add one; the loop takes what is queued, writes it, and takes the number off; a new connection
sets the counter to zero. -/

namespace Lazarus.Gateway

open Wire (Bytes)

/-- Shares that may wait. -/
def primeQueueCap : Nat := 100000

/-- How far a call of `send_prime` has come. -/
inductive Sending where
  | idle
  /-- The counter was low enough. -/
  | passed (body : Bytes)
  /-- The share is in the channel and not counted yet. The sender lock is held. -/
  | sent
deriving DecidableEq

/-- How far `prime_loop` has come. -/
inductive PrimeLoop where
  | connecting
  /-- Between two batches, or with what it has taken out of the channel so far. -/
  | writing (outgoing : List Bytes)
deriving DecidableEq

/-- The counter, the channel, the threads that send and the loop. -/
structure PrimeQueue (ι : Type) where
  primeDepth : Nat := 0
  primeDropped : Nat := 0
  channel : List Bytes := []
  sending : ι → Sending := fun _ => .idle
  loop : PrimeLoop := .connecting

inductive QueueStep (ι : Type) where
  | load (thread : ι) (body : Bytes)
  | send (thread : ι)
  | add (thread : ι)
  | reconnect
  | recv
  /-- The batch is written, and its slots are released. -/
  | written
  /-- The connection fails after this many shares of the batch were tried. -/
  | failed (released : Nat)

namespace PrimeQueue

variable {ι : Type} [Fintype ι] [DecidableEq ι]

/-- What the loop has taken out of the channel and not released. -/
def outgoing (q : PrimeQueue ι) : List Bytes :=
  match q.loop with
  | .connecting => []
  | .writing outgoing => outgoing

def release (q : PrimeQueue ι) (n : Nat) : PrimeQueue ι := { q with primeDepth := q.primeDepth - n }

/-- A share that comes in while the counter is at the cap is dropped. -/
def drops (q : PrimeQueue ι) : QueueStep ι → Bool
  | .load thread _ => q.sending thread = .idle ∧ primeQueueCap ≤ q.primeDepth
  | _ => false

def step (q : PrimeQueue ι) (s : QueueStep ι) : PrimeQueue ι :=
  match s with
  | .load thread body =>
    match q.sending thread with
    | .idle =>
      if primeQueueCap ≤ q.primeDepth then { q with primeDropped := q.primeDropped + 1 }
      else { q with sending := Function.update q.sending thread (.passed body) }
    | _ => q
  | .send thread =>
    match q.sending thread with
    | .passed body =>
      -- whoever sends holds the lock until it has counted
      if ∃ other, q.sending other = .sent then q
      else { q with channel := q.channel ++ [body], sending := Function.update q.sending thread .sent }
    | _ => q
  | .add thread =>
    match q.sending thread with
    | .sent => { q with primeDepth := q.primeDepth + 1, sending := Function.update q.sending thread .idle }
    | _ => q
  | .reconnect =>
    match q.loop with
    | .connecting => { q with primeDepth := 0, loop := .writing [] }
    | .writing _ => q
  | .recv =>
    match q.loop, q.channel with
    | .writing outgoing, body :: rest => { q with channel := rest, loop := .writing (outgoing ++ [body]) }
    | _, _ => q
  | .written =>
    match q.loop with
    | .writing outgoing => { q.release outgoing.length with loop := .writing [] }
    | .connecting => q
  | .failed released =>
    match q.loop with
    | .writing outgoing => { q.release (min released outgoing.length) with loop := .connecting }
    | .connecting => q

section Accounting

/-- A share in the channel that is not counted yet. -/
def uncounted : Sending → Nat
  | .sent => 1
  | _ => 0

/-- A thread between the steps of a call. -/
def inCall : Sending → Nat
  | .idle => 0
  | _ => 1

theorem uncounted_le_inCall (s : Sending) : uncounted s ≤ inCall s := by
  cases s with
  | idle => exact Nat.le_refl 0
  | passed body => exact Nat.zero_le 1
  | sent => exact Nat.le_refl 1

theorem inCall_le_one (s : Sending) : inCall s ≤ 1 := by
  cases s with
  | idle => exact Nat.zero_le 1
  | passed body => exact Nat.le_refl 1
  | sent => exact Nat.le_refl 1

/-- The counter and the shares that are about to be counted are the shares that wait. -/
def Balanced (q : PrimeQueue ι) : Prop :=
  q.primeDepth + Threads.count uncounted q.sending = q.channel.length + q.outgoing.length

/-- The counter and the calls that are on their way stay below the cap and one for each thread. -/
def Bounded (q : PrimeQueue ι) : Prop :=
  q.primeDepth + Threads.count inCall q.sending < primeQueueCap + Fintype.card ι

/-- The steps that leave the counter right: a new connection finds only shares waiting that are still to be
counted, and a batch is all released and was all counted. -/
def Steady (q : PrimeQueue ι) : QueueStep ι → Prop
  | .reconnect => q.loop = .connecting → q.channel.length = Threads.count uncounted q.sending
  | .written => q.outgoing.length ≤ q.primeDepth
  | .failed released => q.outgoing.length ≤ released ∧ q.outgoing.length ≤ q.primeDepth
  | _ => True

variable {q : PrimeQueue ι} {s : QueueStep ι}

/-- The steps of a sender keep the balance. -/
theorem Balanced.sender (balanced : q.Balanced) (thread : ι) :
    (∀ body, (q.step (.load thread body)).Balanced) ∧ (q.step (.send thread)).Balanced ∧
      (q.step (.add thread)).Balanced := by
  have weight := Threads.count_update uncounted q.sending thread
  refine ⟨fun body => ?_, ?_, ?_⟩
  · cases phase : q.sending thread with
    | idle =>
      simp only [step, phase]
      split_ifs with full
      · exact balanced
      · have same := weight (.passed body)
        rw [phase] at same
        simp only [Balanced, outgoing, uncounted] at balanced same ⊢
        omega
    | passed body' => simpa only [step, phase] using balanced
    | sent => simpa only [step, phase] using balanced
  · cases phase : q.sending thread with
    | idle => simpa only [step, phase] using balanced
    | passed body =>
      simp only [step, phase]
      split_ifs with locked
      · exact balanced
      · have more := weight .sent
        rw [phase] at more
        simp only [Balanced, outgoing, uncounted, List.length_append, List.length_singleton] at balanced more ⊢
        omega
    | sent => simpa only [step, phase] using balanced
  · cases phase : q.sending thread with
    | idle => simpa only [step, phase] using balanced
    | passed body => simpa only [step, phase] using balanced
    | sent =>
      have less := weight .idle
      rw [phase] at less
      simp only [Balanced, step, phase, outgoing, uncounted] at balanced less ⊢
      omega

/-- A step keeps the balance just when it is steady. -/
theorem Balanced.step_iff (balanced : q.Balanced) : (q.step s).Balanced ↔ q.Steady s := by
  cases s with
  | load thread body => exact iff_of_true ((balanced.sender thread).1 body) trivial
  | send thread => exact iff_of_true (balanced.sender thread).2.1 trivial
  | add thread => exact iff_of_true (balanced.sender thread).2.2 trivial
  | recv =>
    refine iff_of_true ?_ trivial
    simp only [step]
    split
    · rename_i out body rest loop channel
      simp only [Balanced, outgoing, loop, channel, List.length_append,
        List.length_cons, List.length_nil] at balanced ⊢
      omega
    · exact balanced
  | reconnect =>
    cases loop : q.loop with
    | writing out => simpa [step, Steady, loop] using balanced
    | connecting =>
      simp only [step, Steady, loop, Balanced, outgoing, List.length_nil, forall_const]
      omega
  | written =>
    cases loop : q.loop with
    | connecting => simpa [step, Steady, loop, outgoing] using balanced
    | writing out =>
      simp only [step, Steady, loop, Balanced, release, outgoing, List.length_nil] at balanced ⊢
      omega
  | failed released =>
    cases loop : q.loop with
    | connecting => simpa [step, Steady, loop, outgoing] using balanced
    | writing out =>
      simp only [step, Steady, loop, Balanced, release, outgoing, List.length_nil] at balanced ⊢
      omega

/-- No step puts the counter and the calls on their way past their bound. -/
theorem Bounded.step (bounded : q.Bounded) : (q.step s).Bounded := by
  cases s with
  | load thread body =>
    cases phase : q.sending thread with
    | idle =>
      simp only [PrimeQueue.step, phase]
      split_ifs with full
      · exact bounded
      · have more := Threads.count_update inCall q.sending thread (.passed body)
        have quiet : inCall (q.sending thread) = 0 := by rw [phase]; rfl
        have room := Threads.count_lt_card inCall_le_one quiet
        rw [phase] at more
        simp only [Bounded, inCall] at bounded more ⊢
        omega
    | passed body' => simpa only [PrimeQueue.step, phase] using bounded
    | sent => simpa only [PrimeQueue.step, phase] using bounded
  | send thread =>
    cases phase : q.sending thread with
    | idle => simpa only [PrimeQueue.step, phase] using bounded
    | passed body =>
      simp only [PrimeQueue.step, phase]
      split_ifs with locked
      · exact bounded
      · have same := Threads.count_update inCall q.sending thread .sent
        rw [phase] at same
        simp only [Bounded, inCall] at bounded same ⊢
        omega
    | sent => simpa only [PrimeQueue.step, phase] using bounded
  | add thread =>
    cases phase : q.sending thread with
    | idle => simpa only [PrimeQueue.step, phase] using bounded
    | passed body => simpa only [PrimeQueue.step, phase] using bounded
    | sent =>
      have less := Threads.count_update inCall q.sending thread .idle
      rw [phase] at less
      simp only [Bounded, PrimeQueue.step, phase, inCall] at bounded less ⊢
      omega
  | recv =>
    simp only [PrimeQueue.step]
    split
    · exact bounded
    · exact bounded
  | reconnect =>
    cases loop : q.loop with
    | writing out => simpa only [PrimeQueue.step, loop] using bounded
    | connecting =>
      simp only [PrimeQueue.step, loop, Bounded] at bounded ⊢
      omega
  | written =>
    cases loop : q.loop with
    | connecting => simpa only [PrimeQueue.step, loop] using bounded
    | writing out =>
      simp only [PrimeQueue.step, loop, Bounded, release] at bounded ⊢
      omega
  | failed released =>
    cases loop : q.loop with
    | connecting => simpa only [PrimeQueue.step, loop] using bounded
    | writing out =>
      simp only [PrimeQueue.step, loop, Bounded, release] at bounded ⊢
      omega

/-- Before anything has been sent. -/
def start : PrimeQueue ι := {}

omit [DecidableEq ι] in
theorem start_balanced : (start : PrimeQueue ι).Balanced := by
  have none : Threads.count uncounted (start : PrimeQueue ι).sending = 0 := Threads.count_eq_zero fun _ => rfl
  rw [Balanced, none]
  rfl

omit [DecidableEq ι] in
theorem start_bounded : (start : PrimeQueue ι).Bounded := by
  have none : Threads.count inCall (start : PrimeQueue ι).sending = 0 := Threads.count_eq_zero fun _ => rfl
  rw [Bounded, none]
  exact Nat.add_pos_left (by decide) _

/-- **The counter of the queue counts what is queued, in a run whose steps leave it right**: between the steps
of senders and loop it is the number of shares in the channel; a share is dropped only when so many wait; and no
more than the cap and one for each thread do. -/
theorem prime_depth_counts (run : List (QueueStep ι)) (steady : Run.Along Steady step start run) :
    ((∀ thread, (run.foldl step start).sending thread = .idle) → (run.foldl step start).loop = .writing [] →
      (run.foldl step start).primeDepth = (run.foldl step start).channel.length) ∧
    (∀ s, (run.foldl step start).drops s →
      primeQueueCap ≤ (run.foldl step start).channel.length + (run.foldl step start).outgoing.length) ∧
    (run.foldl step start).channel.length < primeQueueCap + Fintype.card ι := by
  have balanced :=
    Run.foldl_invariant Balanced (fun q s balanced steady => balanced.step_iff.mpr steady) steady start_balanced
  have bounded := Run.foldl_kept step Bounded (fun q s bounded => bounded.step) run start_bounded
  generalize run.foldl step start = q at balanced bounded
  refine ⟨fun idle between => ?_, fun s dropped => ?_, ?_⟩
  · rw [Balanced, outgoing, between, Threads.count_eq_zero fun thread => by rw [idle thread]; rfl] at balanced
    exact balanced
  · cases s with
    | load thread body =>
      have full : q.sending thread = .idle ∧ primeQueueCap ≤ q.primeDepth := of_decide_eq_true dropped
      rw [Balanced] at balanced
      omega
    | _ => cases dropped
  · have calls := Threads.count_le_count uncounted_le_inCall q.sending
    rw [Balanced] at balanced
    rw [Bounded] at bounded
    omega

end Accounting

section Drift

instance steadyDecidable (q : PrimeQueue ι) (s : QueueStep ι) : Decidable (q.Steady s) :=
  match s with
  | .reconnect => inferInstanceAs (Decidable (_ → _))
  | .written => inferInstanceAs (Decidable (_ ≤ _))
  | .failed _ => inferInstanceAs (Decidable (_ ∧ _))
  | .load _ _ | .send _ | .add _ | .recv => .isTrue trivial

/-- One thread sends one share, and the loop writes it. -/
def delivered : List (QueueStep (Fin 1)) := [.reconnect, .load 0 [39], .send 0, .add 0, .recv, .written]

theorem prime_depth_counts_delivered :
    ((∀ thread, (delivered.foldl step start).sending thread = .idle) →
      (delivered.foldl step start).loop = .writing [] →
      (delivered.foldl step start).primeDepth = (delivered.foldl step start).channel.length) ∧
    (∀ s, (delivered.foldl step start).drops s →
      primeQueueCap ≤ (delivered.foldl step start).channel.length +
      (delivered.foldl step start).outgoing.length) ∧
    (delivered.foldl step start).channel.length < primeQueueCap + Fintype.card (Fin 1) :=
  prime_depth_counts delivered (by decide)

/-- A share that is written before it is counted. -/
def writtenFirst : List (QueueStep (Fin 1)) := [.reconnect, .load 0 [39], .send 0, .recv, .written, .add 0]

/-- A connection that is lost while a share waits. -/
def lostConnection : List (QueueStep (Fin 1)) :=
  [.reconnect, .load 0 [39], .send 0, .add 0, .failed 0, .reconnect]

theorem prime_depth_drifts :
    ((∀ thread, (writtenFirst.foldl step start).sending thread = .idle) ∧
      (writtenFirst.foldl step start).loop = .writing [] ∧ (writtenFirst.foldl step start).primeDepth = 1 ∧
      (writtenFirst.foldl step start).channel = []) ∧
    (∀ thread, (lostConnection.foldl step start).sending thread = .idle) ∧
      (lostConnection.foldl step start).loop = .writing [] ∧ (lostConnection.foldl step start).primeDepth = 0 ∧
      (lostConnection.foldl step start).channel = [[39]] := by
  decide

end Drift

end PrimeQueue

end Lazarus.Gateway
