import Lazarus.Primed.Greeting

/-! What reaches a session's handlers when anyone may write to its stream. The header of a frame is
only masked, so whoever is on the way can set its fields; what is on the channel opens only where one
of the two ends sealed it. -/

namespace Lazarus.Primed

open Wire

/-- The box opens nothing but what the two ends have sealed: the gateway its messages, each under the nonce
after that of the one before, and the pool its own. -/
def OnlyOpens (bx : SalsaBox) (fromClient : Nonce) (ups : List Bytes) (toClient : Nonce)
    (downs : List Bytes) : Prop :=
  ∀ nonce body tag text, bx.decryptDetached nonce body tag = some text →
    (∃ i, ups[i]? = some text ∧ nonce = bumpNonce^[i] fromClient) ∨
    (∃ k, downs[k]? = some text ∧ nonce = bumpNonce^[k] toClient)

/-- A text is this message, or this message with a signature of the session's key behind it. -/
def Bears (nacl : Nacl) (clientSessionSignPk : Fixed signPk) (text body : Bytes) : Prop :=
  text = body ∨ ∃ signature, text = body ++ signature ∧ nacl.verify clientSessionSignPk body signature = true

section Genuine

variable {nacl : Nacl} {pk : Fixed signPk} {channel after : Channel} {h : Header}
  {payload body : Bytes} {found : Option Bytes}

private theorem decryptInPlace_ok {text : Bytes} (opened : channel.decryptInPlace payload = (.ok text, after)) :
    (∃ body tag, channel.bx.decryptDetached channel.recvNonce body tag = some text) ∧
      after = { channel with recvNonce := bumpNonce channel.recvNonce } := by
  unfold Channel.decryptInPlace at opened
  split at opened
  · cases opened
  · split at opened
    · cases opened
    · rename_i decrypted
      cases opened
      exact ⟨⟨_, _, decrypted⟩, rfl⟩

private theorem openBody_ok (opened : SecureSession.openBody nacl pk channel h payload = (.ok body, after)) :
    (h.channel = false ∧ after = channel) ∨
      ∃ text, Bears nacl pk text body ∧ channel.decryptInPlace payload = (.ok text, after) := by
  unfold SecureSession.openBody at opened
  split at opened
  · cases opened
  · cases onChannel : h.channel with
    | false =>
      refine .inl ⟨rfl, ?_⟩
      simp only [onChannel, Bool.false_eq_true, if_false] at opened
      split at opened
      · split at opened
        · cases opened
        · cases opened
          rfl
      · cases opened
        rfl
    | true =>
      refine .inr ?_
      simp only [onChannel, if_true] at opened
      generalize channel.decryptInPlace payload = decrypted at opened ⊢
      obtain ⟨result, next⟩ := decrypted
      cases result with
      | error e => cases opened
      | ok text =>
        dsimp only at opened
        split at opened
        · split at opened
          · cases opened
          · rename_i verified
            cases opened
            exact ⟨text, .inr (verifyTrailing_ok verified), rfl⟩
        · cases opened
          exact ⟨body, .inl rfl, rfl⟩

/-- A frame that is handled moves the channel by the text it opened, whose message it hands on if it hands on
any; a frame that is not on the channel does neither. -/
theorem handleFrame_ok (handled : SecureSession.handleFrame nacl pk channel h payload = (.ok found, after)) :
    (found = none ∧ after = channel) ∨
      ∃ text, channel.decryptInPlace payload = (.ok text, after) ∧ ∀ body ∈ found, Bears nacl pk text body := by
  unfold SecureSession.handleFrame at handled
  split at handled
  · cases handled
  · rename_i body next opened
    split at handled
    · split at handled
      · cases handled
      · rename_i onChannel
        cases handled
        rcases openBody_ok opened with ⟨off, _⟩ | ⟨text, bears, decrypted⟩
        · rw [off] at onChannel
          cases onChannel rfl
        · refine .inr ⟨text, decrypted, ?_⟩
          intro body' same
          cases same
          exact bears
    · split at handled
      · cases handled
      · cases handled
        rcases openBody_ok opened with ⟨_, same⟩ | ⟨text, _, decrypted⟩
        · exact .inl ⟨rfl, same⟩
        · exact .inr ⟨text, decrypted, nofun⟩

variable {fromClient toClient : Nonce} {ups downs : List Bytes}

/-- The nonces of the two directions do not meet, and neither direction comes back to one of its own. -/
structure StreamsApart (fromClient : Nonce) (ups : List Bytes) (toClient : Nonce)
    (downs : List Bytes) : Prop where
  few : ups.length < 2 ^ 192
  directions : ∀ i ≤ ups.length, ∀ k < downs.length, bumpNonce^[i] fromClient ≠ bumpNonce^[k] toClient

private theorem next_opens (apart : StreamsApart fromClient ups toClient downs) {bx : SalsaBox}
    (only : OnlyOpens bx fromClient ups toClient downs) {i : Nat} (within : i ≤ ups.length)
    {body tag text : Bytes}
    (opened : bx.decryptDetached (bumpNonce^[i] fromClient) body tag = some text) : ups[i]? = some text := by
  rcases only _ _ _ _ opened with ⟨j, sent, same⟩ | ⟨k, sent, same⟩
  · have less : j < ups.length := (List.getElem?_eq_some_iff.mp sent).1
    have few := apart.few
    rcases Nat.lt_trichotomy i j with before | rfl | later
    · exact absurd same (bumps_ne before (by omega))
    · exact sent
    · exact absurd same.symm (bumps_ne later (by omega))
  · have less : k < downs.length := (List.getElem?_eq_some_iff.mp sent).1
    exact absurd same (apart.directions i within k less)

private theorem handleAll_ok (apart : StreamsApart fromClient ups toClient downs)
    {frames : List (Header × Bytes)} {bodies : List Bytes}
    (only : OnlyOpens channel.bx fromClient ups toClient downs) {i : Nat} (within : i ≤ ups.length)
    (at_i : channel.recvNonce = bumpNonce^[i] fromClient)
    (handled : SecureSession.handleAll nacl pk frames channel = .ok (bodies, after)) :
    ∃ texts, texts.Sublist (ups.drop i) ∧ List.Forall₂ (Bears nacl pk) texts bodies := by
  induction frames generalizing channel bodies i with
  | nil =>
    cases handled
    exact ⟨[], List.nil_sublist _, .nil⟩
  | cons frame rest ih =>
    obtain ⟨h, payload⟩ := frame
    rw [SecureSession.handleAll] at handled
    split at handled
    · cases handled
    · rename_i found mid first
      split at handled
      · cases handled
      · rename_i more last later
        cases handled
        rcases handleFrame_ok first with ⟨rfl, rfl⟩ | ⟨text, decrypted, bears⟩
        · exact ih only within at_i later
        · obtain ⟨⟨body, tag, opened⟩, rfl⟩ := decryptInPlace_ok decrypted
          rw [at_i] at opened
          have here := next_opens apart only within opened
          obtain ⟨less, item⟩ := List.getElem?_eq_some_iff.mp here
          have next : ({ channel with recvNonce := bumpNonce channel.recvNonce } : Channel).recvNonce =
              bumpNonce^[i + 1] fromClient := by
            rw [Function.iterate_succ_apply', ← at_i]
          obtain ⟨texts, among, matched⟩ := ih (by exact only) less next later
          have parts : ups.drop i = text :: ups.drop (i + 1) := by rw [List.drop_eq_getElem_cons less, item]
          rw [parts]
          cases found with
          | none => exact ⟨texts, among.cons text, matched⟩
          | some body => exact ⟨text :: texts, among.cons_cons text, .cons (bears body rfl) matched⟩

/-- Whatever frames come, from whomever: under a box that opens only what was sealed with it, the mining
messages a session is handed are messages of its gateway, in the order they were sealed in, and none of them
twice. Nothing the pool sealed itself is taken for one. -/
theorem only_gateway_messages {bx : SalsaBox} {seed : UInt32} {frames : List (Header × Bytes)}
    {bodies : List Bytes} (only : OnlyOpens bx (sessionNonces seed pk).2 ups (sessionNonces seed pk).1 downs)
    (fewUp : ups.length < 2 ^ 160) (fewDown : downs.length < 2 ^ 160)
    (handled : SecureSession.handleAll nacl pk frames (.session bx seed pk) = .ok (bodies, after)) :
    ∃ texts, texts.Sublist ups ∧ List.Forall₂ (Bears nacl pk) texts bodies := by
  have apart : StreamsApart (sessionNonces seed pk).2 ups (sessionNonces seed pk).1 downs := by
    refine ⟨by omega, ?_⟩
    intro i within k less same
    exact directions_apart seed pk (by omega) (by omega) same.symm
  obtain ⟨texts, among, matched⟩ :=
    @handleAll_ok nacl pk (.session bx seed pk) after _ _ ups downs apart
      frames bodies only 0 (Nat.zero_le _) rfl handled
  exact ⟨texts, among, matched⟩

/-- A box for one message, under one nonce. -/
def oneMessage (n : Nonce) (text : Bytes) : SalsaBox where
  encrypt := Channel.nonceTagged.encrypt
  decryptDetached nonce body tag := if nonce = n ∧ body = text ∧ tag = n.val.take mac then some text else none

private theorem oneMessage_opens (n : Nonce) (text : Bytes) (sendNonce : Nonce) :
    Channel.decryptInPlace ⟨oneMessage n text, sendNonce, n⟩ ((oneMessage n text).encrypt n text) =
      (.ok text, ⟨oneMessage n text, sendNonce, bumpNonce n⟩) := by
  have half : (n.val.take mac).length = mac := by
    rw [List.length_take, n.property]
    rfl
  have long : ¬ (n.val.take mac ++ text).length < mac := by
    rw [List.length_append, half]
    omega
  change Channel.decryptInPlace _ (n.val.take mac ++ text) = _
  rw [Channel.decryptInPlace, if_neg long]
  simp only [oneMessage, List.take_left' half, List.drop_left' half, and_self, if_true]

/-- A frame of somebody else's before the gateway's own. -/
theorem only_gateway_messages_slippedIn :
    let pk := Fixed.zero signPk
    let n := (sessionNonces 7 pk).2
    let bx := oneMessage n [0x27, 1]
    let frames : List (Header × Bytes) :=
      [(⟨3, false, false, false, 7⟩, [1, 2, 3]), (⟨18, false, false, true, 5⟩, bx.encrypt n [0x27, 1])]
    SecureSession.handleAll plainNacl pk frames (.session bx 7 pk) =
        .ok ([[0x27, 1]], { Channel.session bx 7 pk with recvNonce := bumpNonce n }) ∧
      ∃ texts, texts.Sublist [[0x27, 1]] ∧ List.Forall₂ (Bears plainNacl pk) texts [[0x27, 1]] := by
  intro pk n bx frames
  have only : OnlyOpens bx n [[0x27, 1]] (sessionNonces 7 pk).1 [] := by
    intro nonce body tag text opened
    change (if nonce = n ∧ _ ∧ _ then _ else none) = some text at opened
    split at opened
    · rename_i all
      cases opened
      exact .inl ⟨0, rfl, all.1⟩
    · cases opened
  have handled : SecureSession.handleAll plainNacl pk frames (.session bx 7 pk) =
      .ok ([[0x27, 1]], { Channel.session bx 7 pk with recvNonce := bumpNonce n }) := by
    have opens := oneMessage_opens n [0x27, 1] (sessionNonces 7 pk).1
    have passed : ∀ c, SecureSession.handleFrame plainNacl pk c ⟨3, false, false, false, 7⟩ [1, 2, 3] =
      (.ok none, c) := fun _ => rfl
    have found :
      SecureSession.handleFrame plainNacl pk ⟨bx, (sessionNonces 7 pk).1, n⟩ ⟨18, false, false, true, 5⟩
        (bx.encrypt n [0x27, 1]) = (.ok (some [0x27, 1]), ⟨bx, (sessionNonces 7 pk).1, bumpNonce n⟩) := by
      rw [SecureSession.handleFrame, SecureSession.openBody, if_neg (by decide), if_pos (by decide), opens]
      rfl
    change SecureSession.handleAll plainNacl pk frames ⟨bx, (sessionNonces 7 pk).1, n⟩ = _
    rw [SecureSession.handleAll, passed]
    dsimp only
    rw [SecureSession.handleAll, found]
    rfl
  exact ⟨handled, only_gateway_messages only (by decide) (by decide) handled⟩

end Genuine

end Lazarus.Primed
