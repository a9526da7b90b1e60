import Lazarus.Primed.Ready
import Lazarus.Tides.BatchHold

/-! Stale balances paid by hand: the requests an operator leaves in the payouts directory, how one is read,
and what handling it does to the ledger. -/

namespace Lazarus.Primed

open Tides Tally

/-- What the operator asks of Prime. -/
inductive Request where
  | hold (entries : List (String × Nat))
  | paid (txid : String) (blockhash : Option String)
  | release
  | credit (entries : List (String × Int)) (note : String)
deriving DecidableEq

/-- One entry of a credit, as it was applied. -/
structure Moved where
  identity : String
  requested : Int
  before : Nat
  after : Nat
  debtPaid : Nat
deriving DecidableEq

/-- What Prime has to say to a request. Entries that cannot be paid at all are listed apart from those the
ledger skipped. -/
inductive Reply where
  | refused (error : String)
  | waiting (error : String)
  | held (height readyHeight heldSats : Nat) (entries : List (String × Nat)) (skipped : List HoldSkip)
      (unpayable : List (String × Nat))
  | credited (note : String) (creditedSats debitedSats : Nat) (entries : List Moved)
  | released (releasedSats : Nat) (entries : List (String × Nat))
  | paid (txid : String) (confirmations : Int) (paidSats : Nat) (entries : List (String × Nat))

namespace Reply

/-- The request stays where it is, to be looked at again. -/
def retry : Reply → Bool
  | .waiting _ => true
  | _ => false

/-- The balances a hold took. -/
def taken : Reply → List (String × Nat)
  | .held _ _ _ entries _ _ => entries
  | _ => []

/-- The balances a release gave back. -/
def returned : Reply → List (String × Nat)
  | .released _ entries => entries
  | _ => []

/-- Whether the ledger is another one for it. -/
def moved : Reply → Bool
  | .refused _ => false
  | .waiting _ => false
  | .held _ _ _ entries _ _ => !entries.isEmpty
  | .credited _ _ _ _ => true
  | .released _ _ => true
  | .paid _ _ _ _ => true

end Reply

section Read

/-- Requests longer than this are not read. -/
def maxRequestBytes : Nat := 4 * 2 ^ 20

def maxEntries : Nat := 5000

def validId (id : String) : Bool :=
  id ≠ "" && id.utf8ByteSize ≤ 64 && id.toList.head? ≠ some '.' &&
    id.toList.all fun c => c.isAlphanum || c = '-' || c = '_' || c = '.'

/-- A request file: its length, and the request in it or why it is none. -/
structure RequestFile where
  bytes : Nat
  body : Except String Request

/-- How many entries a request names, if it names any. -/
def Request.count : Request → Option Nat
  | .hold entries => some entries.length
  | .credit entries _ => some entries.length
  | _ => none

def readRequest (id : String) (file : RequestFile) : Except String Request :=
  if !validId id then .error "the id may hold letters, digits, '-', '_' and '.', 64 at most"
  else if maxRequestBytes < file.bytes then .error "request too large"
  else
    match file.body with
    | .error e => .error ("not a request: " ++ e)
    | .ok req =>
      match req.count with
      | some n =>
        if n = 0 ∨ maxEntries < n then
          .error ("a hold or credit names 1..=" ++ toString maxEntries ++ " entries")
        else .ok req
      | none => .ok req

end Read

section Payment

/-- Confirmations before a payment counts as made. -/
def paidConfirmations : Int := 3

/-- A transaction as the node shows it: how deep it is, and its outputs by script in hex, those without a
value as such. -/
structure ShownTx where
  confirmations : Option Int
  vout : Option (List (String × Option Nat))

/-- The node's answer for a transaction, looked for in a block if one is named. -/
abbrev TxSource := String → Option String → Except String ShownTx

/-- The transaction pays every entry's script at least its sats. -/
def paysAll (tx : ShownTx) (entries : List (String × Nat)) (scriptFor : String → Option String) :
    Except String Unit := do
  let outs ← match tx.vout with
    | none => .error "no outputs"
    | some outs => outs.mapM fun out =>
      match out.2 with
      | none => .error "an output has no value"
      | some sats => .ok (out.1.toLower, sats)
  entries.forM fun entry => do
    let script ← match scriptFor entry.1 with
      | none => .error (entry.1 ++ " is not an address")
      | some script => .ok script
    if tally script outs < entry.2 then
      .error (entry.1 ++ " is held " ++ toString entry.2 ++ " sats and paid " ++ toString (tally script outs))

def isHexadecimal (c : Char) : Bool := c.isDigit || 'a' ≤ c && c ≤ 'f' || 'A' ≤ c && c ≤ 'F'

/-- Whether a text can be a transaction or block hash. -/
def isHash (text : String) : Bool := text.utf8ByteSize = 64 && text.toList.all isHexadecimal

end Payment

/-- What handling a request goes by, other than the ledger: the configuration, the script of an identity
that is an address, and the node. -/
structure Payer where
  staleAfterSecs : Nat
  staleMinPayout : Nat
  toScript : String → Option String
  node : TxSource

/-- One entry of a credit: settled by itself, with what it moved. -/
def creditEntry (state : Ledger × List Moved × Nat × Nat) (entry : String × Int) :
    Ledger × List Moved × Nat × Nat :=
  let (l, moved, credited, debited) := state
  let before := l.window.carryOf entry.1
  let debt := l.window.debtOf entry.1
  let (l, settled) := l.settleCarry [entry]
  let after := (settled.head?.map Prod.snd).getD before
  let debtPaid := debt - l.window.debtOf entry.1
  (l, moved ++ [{ identity := entry.1, requested := entry.2, before, after, debtPaid }],
    if before < after then credited + (after - before) else credited,
    if before < after then debited else debited + (before - after))

/-- Handle a request for a batch at a time, with the tip Prime has published. `seen` is the hold as it stood
before the node was asked for the payment: the ledger is let go of meanwhile. -/
def handle (payer : Payer) (ts : Nat) (tip : Option Nat) (seen : Option Hold) (l : Ledger) (id : String) :
    Request → Ledger × Reply
  | .hold entries =>
    if payer.staleAfterSecs = 0 then (l, .refused "stale-after-days is 0: no balance is stale")
    else
      match tip with
      | none => (l, .refused "no tip from the node yet")
      | some height =>
        let (payable, unpayable) := entries.partition fun entry => (payer.toScript entry.1).isSome
        let ready := height + readyAfterBlocks
        match l.holdCarry id payable ts payer.staleAfterSecs payer.staleMinPayout height ready with
        | .error e => (l, .refused e)
        | .ok (l, held, skipped) => (l, .held height ready (held.map Prod.snd).sum held skipped unpayable)
  | .credit entries note =>
    let (l, moved, credited, debited) := entries.foldl creditEntry (l, [], 0, 0)
    (l, .credited note credited debited moved)
  | .release =>
    match l.releaseHold id with
    | none => (l, .refused "no such hold")
    | some (l, entries) => (l, .released (entries.map Prod.snd).sum entries)
  | .paid txid blockhash =>
    match seen with
    | none => (l, .refused "no such hold")
    | some hold =>
      if !isHash txid then (l, .refused "txid is 64 hex characters")
      else
        match payer.node txid (blockhash.filter isHash) with
        | .error e =>
          (l, .waiting
            ("the node does not show " ++ txid ++ ": " ++ e ++ " (without txindex, give the blockhash)"))
        | .ok tx =>
          let conf := tx.confirmations.getD 0
          if conf < paidConfirmations then
            (l,
              .waiting (txid ++ " has " ++ toString conf ++ " confirmations; " ++
                toString paidConfirmations ++ " needed"))
          else
            match paysAll tx hold.entries payer.toScript with
            | .error e => (l, .refused (txid ++ " is not this payment: " ++ e))
            | .ok () =>
              match l.finishHold id with
              | none => (l, .refused "no such hold")
              | some (l, entries) => (l, .paid txid conf (entries.map Prod.snd).sum entries)

/-- What handling a request can do to the hold of its batch: nothing, or place it, or end it whole. Of the
requests that leave it alone only a credit moves the ledger. -/
inductive Handled (reply : Reply) (before after : Option Hold) : Request → Prop where
  | kept (req : Request) (same : after = before) (took : reply.taken = []) (gave : reply.returned = [])
      (quiet : reply.moved = true → ∃ entries note, req = .credit entries note) : Handled reply before after req
  | placed (entries : List (String × Nat)) (hold : Hold) (unused : before = none) (stands : after = some hold)
      (took : reply.taken = hold.entries) (gave : reply.returned = []) (moves : reply.moved = true) :
      Handled reply before after (.hold entries)
  | released (hold : Hold) (stood : before = some hold) (gone : after = none) (took : reply.taken = [])
      (gave : reply.returned = hold.entries) (moves : reply.moved = true) : Handled reply before after .release
  | finished (txid : String) (blockhash : Option String) (hold : Hold)
      (stood : before = some hold) (gone : after = none)
      (took : reply.taken = []) (gave : reply.returned = []) (moves : reply.moved = true) :
      Handled reply before after (.paid txid blockhash)

/-- A request that is refused or left waiting leaves the hold alone. -/
theorem Handled.refl {reply : Reply} {hold : Option Hold} {req : Request} (took : reply.taken = [])
    (gave : reply.returned = []) (unmoved : reply.moved = false) : Handled reply hold hold req :=
  .kept req rfl took gave (by simp [unmoved])

section Holds

variable (payer : Payer) (ts : Nat) (tip : Option Nat) (seen : Option Hold) (l : Ledger) (id : String)

theorem creditEntry_holds (state : Ledger × List Moved × Nat × Nat) (entry : String × Int) :
    (creditEntry state entry).1.window.holds = state.1.window.holds := by
  obtain ⟨l, moved, credited, debited⟩ := state
  simp only [creditEntry, Ledger.settleCarry, List.foldl_cons, List.foldl_nil, settleEntry]
  split
  · rfl
  · split
    · exact Window.holds_restoreCarry _ _ _
    · exact Window.holds_adjustCarry _ _ _

private theorem handle_hold (entries : List (String × Nat)) :
    Handled (handle payer ts tip seen l id (.hold entries)).2 (l.hold id)
      ((handle payer ts tip seen l id (.hold entries)).1.hold id) (.hold entries) := by
  simp only [handle]
  split
  · exact .refl rfl rfl rfl
  · split
    · exact .refl rfl rfl rfl
    · split
      · exact .refl rfl rfl rfl
      · rename_i after held skipped placed
        obtain ⟨unused, now⟩ := holdCarry_hold placed
        by_cases nothing : held = []
        · rw [if_pos nothing] at now
          exact .kept _ (now.trans unused.symm) nothing rfl (by simp [Reply.moved, nothing])
        · rw [if_neg nothing] at now
          exact .placed entries _ unused now rfl rfl (by simp [Reply.moved, nothing])

private theorem handle_credit (entries : List (String × Int)) (note : String) :
    Handled (handle payer ts tip seen l id (.credit entries note)).2 (l.hold id)
      ((handle payer ts tip seen l id (.credit entries note)).1.hold id) (.credit entries note) := by
  have holds := Run.foldl_unmoved (fun state : Ledger × List Moved × Nat × Nat => state.1.window.holds)
    creditEntry_holds (l, [], 0, 0) entries
  exact .kept _ (congrArg (AList.lookup id) holds) rfl rfl fun _ => ⟨entries, note, rfl⟩

private theorem handle_release :
    Handled (handle payer ts tip seen l id .release).2 (l.hold id)
      ((handle payer ts tip seen l id .release).1.hold id) .release := by
  simp only [handle]
  split
  · exact .refl rfl rfl rfl
  · rename_i after entries released
    obtain ⟨hold, stood, rfl, gone⟩ := releaseHold_hold released
    exact .released hold stood gone rfl rfl rfl

private theorem handle_paid (txid : String) (blockhash : Option String) :
    Handled (handle payer ts tip seen l id (.paid txid blockhash)).2 (l.hold id)
      ((handle payer ts tip seen l id (.paid txid blockhash)).1.hold id) (.paid txid blockhash) := by
  simp only [handle]
  split
  · exact .refl rfl rfl rfl
  · split
    · exact .refl rfl rfl rfl
    · split
      · exact .refl rfl rfl rfl
      · split
        · exact .refl rfl rfl rfl
        · split
          · exact .refl rfl rfl rfl
          · split
            · exact .refl rfl rfl rfl
            · rename_i after entries finished
              obtain ⟨hold, stood, _, gone⟩ := finishHold_hold finished
              exact .finished txid blockhash hold stood gone rfl rfl rfl

theorem handle_handled (req : Request) :
    Handled (handle payer ts tip seen l id req).2 (l.hold id)
      ((handle payer ts tip seen l id req).1.hold id) req := by
  cases req with
  | hold entries => exact handle_hold payer ts tip seen l id entries
  | paid txid blockhash => exact handle_paid payer ts tip seen l id txid blockhash
  | release => exact handle_release payer ts tip seen l id
  | credit entries note => exact handle_credit payer ts tip seen l id entries note

/-- Handling a request leaves the holds of other batches alone. -/
theorem handle_other {other : String} (differs : other ≠ id) (req : Request) :
    (handle payer ts tip seen l id req).1.hold other = l.hold other := by
  cases req with
  | hold entries =>
    simp only [handle]
    split
    · rfl
    · split
      · rfl
      · split
        · rfl
        · rename_i placed
          exact holdCarry_other differs placed
  | credit entries note =>
    exact congrArg (AList.lookup other) (Run.foldl_unmoved
      (fun state : Ledger × List Moved × Nat × Nat => state.1.window.holds)
        creditEntry_holds (l, [], 0, 0) entries)
  | release =>
    simp only [handle]
    split
    · rfl
    · rename_i released
      exact releaseHold_other differs released
  | paid txid blockhash =>
    simp only [handle]
    split
    · rfl
    · split
      · rfl
      · split
        · rfl
        · split
          · rfl
          · split
            · rfl
            · split
              · rfl
              · rename_i finished
                exact finishHold_other differs finished

end Holds

end Lazarus.Primed
