import Lazarus.Primed.Payouts
import Lazarus.Tides.HoldMoves
import Lazarus.Tides.Outright

/-! What a payout request does to the ledger, in sats and holds, and when it may be refused. -/

namespace Lazarus.Primed

open Tides Tally

/-- A request that Prime dealt with: what it was judged by, the ledger before and after, and
what Prime had to say. -/
structure Outcome where
  id : String
  number : Nat
  payer : Payer
  ts : Nat
  tip : Option Nat
  seen : Option Hold
  before : Ledger
  after : Ledger
  reply : Reply

namespace Outcome

/-- The entries of a hold that can be paid at all. -/
def payable (o : Outcome) (entries : List (String × Nat)) : List (String × Nat) :=
  entries.filter fun entry => (o.payer.toScript entry.1).isSome

/-- The transaction is deep enough and pays every entry of the hold Prime looked at. -/
def Pays (o : Outcome) (txid : String) (blockhash : Option String) : Prop :=
  ∃ hold tx, o.seen = some hold ∧ isHash txid = true ∧ o.payer.node txid (blockhash.filter isHash) = .ok tx ∧
    paidConfirmations ≤ tx.confirmations.getD 0 ∧ paysAll tx hold.entries o.payer.toScript = .ok ()

/-- What a request can be refused for. A credit cannot. -/
def Grounds (o : Outcome) : Request → Prop
  | .hold _ => o.payer.staleAfterSecs = 0 ∨ o.tip = none ∨ (o.before.hold o.id).isSome
  | .paid txid blockhash => o.before.hold o.id = none ∨ ¬ o.Pays txid blockhash
  | .release => o.before.hold o.id = none
  | .credit _ _ => False

/-- What a request does: it is refused on good grounds and the ledger stays as it was, or it is carried out.
A hold takes the stale balances it names out of the carry, whole; a credit adjusts the balances of its
identities one entry at a time; a release gives a hold back to the carry, less what is owed; a payment takes
a hold off the books. -/
inductive Effect (o : Outcome) : Request → Prop where
  | refused (req : Request) (error : String) (said : o.reply = .refused error) (grounds : o.Grounds req)
      (same : o.after = o.before) : Effect o req
  | held (entries held : List (String × Nat)) (height ready : Nat) (skipped : List HoldSkip)
      (unpayable : List (String × Nat))
      (said : o.reply = .held height ready (held.map Prod.snd).sum held skipped unpayable)
      (parts : (o.payable entries ++ unpayable).Perm entries)
      (free : o.before.hold o.id = none)
      (placed : (o.after.hold o.id).map Hold.entries = if held = [] then none else some held)
      (others : ∀ other, other ≠ o.id → o.after.hold other = o.before.hold other)
      (still : held = [] → o.after = o.before)
      (moved : o.before.window.Signed → SetAside o.before o.id (o.payable entries) o.ts o.payer.staleAfterSecs
        o.payer.staleMinPayout o.after held skipped) : Effect o (.hold entries)
  | credited (entries : List (String × Int)) (note : String) (creditedSats debitedSats : Nat)
      (moves : List Moved) (said : o.reply = .credited note creditedSats debitedSats moves)
      (moved : ∀ identity, o.after.window.balanceOf identity =
        (adjustments identity entries).foldl adjusted (o.before.window.balanceOf identity))
      (holds : o.after.window.holds = o.before.window.holds) : Effect o (.credit entries note)
  | released (entries : List (String × Nat)) (said : o.reply = .released (entries.map Prod.snd).sum entries)
      (whole : (o.before.hold o.id).map Hold.entries = some entries) (gone : o.after.hold o.id = none)
      (others : ∀ other, other ≠ o.id → o.after.hold other = o.before.hold other)
      (moved : o.before.window.Signed → Released o.before o.id o.after entries) : Effect o .release
  | paid (txid : String) (blockhash : Option String) (confirmations : Int) (entries : List (String × Nat))
      (said : o.reply = .paid txid confirmations (entries.map Prod.snd).sum entries)
      (pays : o.Pays txid blockhash)
      (whole : (o.before.hold o.id).map Hold.entries = some entries) (gone : o.after.hold o.id = none)
      (others : ∀ other, other ≠ o.id → o.after.hold other = o.before.hold other)
      (kept : ∀ identity, o.after.window.balanceOf identity = o.before.window.balanceOf identity) :
      Effect o (.paid txid blockhash)

end Outcome

section Handle

variable (payer : Payer) (ts : Nat) (tip : Option Nat) (seen : Option Hold)
  (l : Ledger) (id : String) (number : Nat)

/-- The outcome of a request that is handled now. -/
def outcome (req : Request) : Outcome where
  id := id
  number := number
  payer := payer
  ts := ts
  tip := tip
  seen := seen
  before := l
  after := (handle payer ts tip seen l id req).1
  reply := (handle payer ts tip seen l id req).2

private theorem balanceOf_creditEntry (state : Ledger × List Moved × Nat × Nat)
    (entry : String × Int) (identity : String) : (creditEntry state entry).1.window.balanceOf identity =
      (adjustments identity [entry]).foldl adjusted (state.1.window.balanceOf identity) :=
  balanceOf_settleCarry state.1 [entry] identity

private theorem balanceOf_credit (identity : String) (entries : List (String × Int))
    (state : Ledger × List Moved × Nat × Nat) : (entries.foldl creditEntry state).1.window.balanceOf identity =
      (adjustments identity entries).foldl adjusted (state.1.window.balanceOf identity) := by
  induction entries generalizing state with
  | nil => rfl
  | cons entry rest ih =>
    rw [List.foldl_cons, ih, balanceOf_creditEntry, ← List.foldl_append]
    congr 1
    simp only [adjustments, ← List.map_append, ← List.filter_append, List.singleton_append]

private theorem effect_hold (entries : List (String × Nat)) :
    (outcome payer ts tip seen l id number (.hold entries)).Effect (.hold entries) := by
  by_cases off : payer.staleAfterSecs = 0
  · refine .refused _ "stale-after-days is 0: no balance is stale" ?_ (.inl off)
      ?_ <;> simp [outcome, handle, off]
  · cases tip with
    | none =>
      refine .refused _ "no tip from the node yet" ?_ (.inr (.inl rfl)) ?_ <;> simp [outcome, handle, off]
    | some height =>
      cases placed : l.holdCarry id (entries.filter fun entry => (payer.toScript entry.1).isSome) ts
          payer.staleAfterSecs payer.staleMinPayout height (height + readyAfterBlocks) with
      | error e =>
        have taken : (l.hold id).isSome := by
          unfold Ledger.holdCarry at placed
          split at placed
          · assumption
          · simp only at placed
            split at placed <;> cases placed
        refine .refused _ e ?_ (.inr (.inr taken)) ?_ <;> simp [outcome, handle, off, placed]
      | ok result =>
        obtain ⟨l', held, skipped⟩ := result
        obtain ⟨free, now⟩ := holdCarry_hold placed
        have after : (outcome payer ts (some height) seen l id number (.hold entries)).after = l' := by
          simp [outcome, handle, off, placed]
        refine .held entries held height (height + readyAfterBlocks) skipped
          (entries.filter (not ∘ fun entry => (payer.toScript entry.1).isSome)) ?_ ?_ free ?_ ?_ ?_ ?_
        · simp [outcome, handle, off, placed]
        · exact List.filter_append_perm _ entries
        · rw [after]
          change (l'.hold id).map Hold.entries = _
          rw [now]
          split <;> rfl
        · rw [after]
          exact fun other differs => holdCarry_other differs placed
        · rw [after]
          rintro rfl
          exact holdCarry_nothing placed
        · rw [after]
          exact fun signed => holdCarry_setAside signed placed

private theorem effect_credit (entries : List (String × Int)) (note : String) :
    (outcome payer ts tip seen l id number (.credit entries note)).Effect (.credit entries note) :=
  .credited entries note _ _ _ rfl (fun identity => balanceOf_credit identity entries (l, [], 0, 0))
    (Run.foldl_unmoved (fun state : Ledger × List Moved × Nat × Nat => state.1.window.holds) creditEntry_holds
      (l, [], 0, 0) entries)

private theorem balanceOf_finishHold {l l' : Ledger} {batch : String} {entries : List (String × Nat)}
    (finished : l.finishHold batch = some (l', entries)) (identity : String) :
    l'.window.balanceOf identity = l.window.balanceOf identity := by
  obtain ⟨hold, _, same⟩ := Option.map_eq_some_iff.mp finished
  cases same
  rfl

private theorem effect_release : (outcome payer ts tip seen l id number .release).Effect .release := by
  cases released : l.releaseHold id with
  | none =>
    refine .refused _ "no such hold" ?_ (Option.map_eq_none_iff.mp released)
      ?_ <;> simp [outcome, handle, released]
  | some result =>
    obtain ⟨l', entries⟩ := result
    obtain ⟨hold, stood, rfl, gone⟩ := releaseHold_hold released
    have after : (outcome payer ts tip seen l id number .release).after = l' := by
      simp [outcome, handle, released]
    refine .released hold.entries ?_ ?_ ?_ ?_ ?_
    · simp [outcome, handle, released]
    · change (l.hold id).map Hold.entries = _
      rw [stood]
      rfl
    · rw [after]
      exact gone
    · rw [after]
      exact fun other differs => releaseHold_other differs released
    · rw [after]
      exact fun signed => releaseHold_released signed released

private theorem effect_paid (txid : String) (blockhash : Option String) :
    ((handle payer ts tip seen l id (.paid txid blockhash)).2.retry = true ∧
        (handle payer ts tip seen l id (.paid txid blockhash)).1 = l) ∨
      (outcome payer ts tip seen l id number (.paid txid blockhash)).Effect (.paid txid blockhash) := by
  have refuse : ∀ error, handle payer ts tip seen l id (.paid txid blockhash) = (l, .refused error) →
      (l.hold id = none ∨
        ¬ (outcome payer ts tip seen l id number (.paid txid blockhash)).Pays txid blockhash) →
      (outcome payer ts tip seen l id number (.paid txid blockhash)).Effect (.paid txid blockhash) := by
    intro error same grounds
    exact .refused _ error (congrArg Prod.snd same) grounds (congrArg Prod.fst same)
  cases looked : seen with
  | none =>
    rw [looked] at refuse
    refine .inr (refuse "no such hold" rfl (.inr ?_))
    rintro ⟨hold, _, some, _⟩
    cases some
  | some hold =>
    rw [looked] at refuse
    by_cases hash : isHash txid = true
    · cases shown : payer.node txid (blockhash.filter isHash) with
      | error e => exact .inl (by simp [handle, hash, shown, Reply.retry])
      | ok tx =>
        by_cases deep : tx.confirmations.getD 0 < paidConfirmations
        · exact .inl (by simp [handle, hash, shown, deep, Reply.retry])
        · right
          cases paid : paysAll tx hold.entries payer.toScript with
          | error e =>
            refine refuse (txid ++ " is not this payment: " ++ e)
              (by simp [handle, hash, shown, deep, paid]) (.inr ?_)
            rintro ⟨_, _, same, _, its, _, pays⟩
            cases same
            cases shown.symm.trans its
            cases paid.symm.trans pays
          | ok _ =>
            cases finished : l.finishHold id with
            | none =>
              exact refuse "no such hold" (by simp [handle, hash, shown, deep, paid, finished])
                (.inl (Option.map_eq_none_iff.mp finished))
            | some result =>
              obtain ⟨l', entries⟩ := result
              obtain ⟨stood, found, rfl, gone⟩ := finishHold_hold finished
              have after :
                  (outcome payer ts tip (some hold) l id number (.paid txid blockhash)).after = l' := by
                simp [outcome, handle, hash, shown, deep, paid, finished]
              refine .paid txid blockhash (tx.confirmations.getD 0) stood.entries ?_ ?_ ?_ ?_ ?_ ?_
              · simp [outcome, handle, hash, shown, deep, paid, finished]
              · exact ⟨hold, tx, rfl, hash, shown, not_lt.mp deep, paid⟩
              · change (l.hold id).map Hold.entries = _
                rw [found]
                rfl
              · rw [after]
                exact gone
              · rw [after]
                exact fun other differs => finishHold_other differs finished
              · rw [after]
                exact fun identity => balanceOf_finishHold finished identity
    · refine .inr (refuse "txid is 64 hex characters" (by simp [handle, hash]) (.inr ?_))
      rintro ⟨_, _, _, good, _⟩
      exact hash good

/-- A request is left waiting and nothing moves, or it has its effect. -/
theorem handle_effect (req : Request) :
    ((handle payer ts tip seen l id req).2.retry = true ∧ (handle payer ts tip seen l id req).1 = l) ∨
      (outcome payer ts tip seen l id number req).Effect req := by
  cases req with
  | hold entries => exact .inr (effect_hold payer ts tip seen l id number entries)
  | paid txid blockhash => exact effect_paid payer ts tip seen l id number txid blockhash
  | release => exact .inr (effect_release payer ts tip seen l id number)
  | credit entries note => exact .inr (effect_credit payer ts tip seen l id number entries note)

theorem Outcome.Effect.final {o : Outcome} {req : Request} (effect : o.Effect req) : o.reply.retry = false := by
  cases effect with
  | refused _ error said grounds same => rw [said]; rfl
  | held entries held height ready skipped unpayable said parts free placed others still moved => rw [said]; rfl
  | credited entries note creditedSats debitedSats moves said moved holds => rw [said]; rfl
  | released entries said whole gone others moved => rw [said]; rfl
  | paid txid blockhash confirmations entries said pays whole gone others kept => rw [said]; rfl

/-- A request that moved nothing leaves the ledger as it was. -/
theorem Outcome.Effect.unmoved {o : Outcome} {req : Request} (effect : o.Effect req)
    (unmoved : o.reply.moved = false) : o.after = o.before := by
  cases effect with
  | refused _ error said grounds same => exact same
  | held entries held height ready skipped unpayable said parts free placed others still moved =>
    rw [said] at unmoved
    exact still (by simpa [Reply.moved] using unmoved)
  | credited entries note creditedSats debitedSats moves said moved holds => cases said ▸ unmoved
  | released entries said whole gone others moved => cases said ▸ unmoved
  | paid txid blockhash confirmations entries said pays whole gone others kept => cases said ▸ unmoved

end Handle

end Lazarus.Primed
