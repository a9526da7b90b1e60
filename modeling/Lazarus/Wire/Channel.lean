import Lazarus.Wire.Nonce

/-! The encrypted channel of a session: one box key for both directions, and a nonce of each. -/

namespace Lazarus.Wire

/-- Bytes of the tag before a ciphertext. -/
def mac : Nat := 16

/-- The box of a shared key: how a text is sealed under a nonce, and how a body with its tag is opened. -/
structure SalsaBox where
  encrypt : Nonce → Bytes → Bytes
  decryptDetached : Nonce → Bytes → Bytes → Option Bytes

structure Channel where
  bx : SalsaBox
  sendNonce : Nonce
  recvNonce : Nonce

namespace Channel

def encrypt (c : Channel) (plain : Bytes) : Bytes × Channel :=
  (c.bx.encrypt c.sendNonce plain, { c with sendNonce := bumpNonce c.sendNonce })

/-- Open a payload. On failure the nonce is not advanced. -/
def decryptInPlace (c : Channel) (buf : Bytes) : Except Error Bytes × Channel :=
  if buf.length < mac then (.error .short, c)
  else
    match c.bx.decryptDetached c.recvNonce (buf.drop mac) (buf.take mac) with
    | none => (.error .decrypt, c)
    | some body => (.ok body, { c with recvNonce := bumpNonce c.recvNonce })

/-- The channel of a session as the pool sets it up. -/
def session (bx : SalsaBox) (seed : UInt32) (clientSessionSignPk : Fixed signPk) : Channel :=
  let (sendNonce, recvNonce) := sessionNonces seed clientSessionSignPk
  { bx, sendNonce, recvNonce }

end Channel

/-- A message on a channel: a text to send, or a payload that came. -/
inductive Message where
  | toClient (plain : Bytes)
  | fromClient (payload : Bytes)

namespace Message

def isToClient : Message → Bool
  | .toClient _ => true
  | .fromClient _ => false

def isFromClient : Message → Bool
  | .toClient _ => false
  | .fromClient _ => true

end Message

namespace Channel

/-- The nonces the box is given while messages pass, in whatever order they do. A payload that does not open
ends the session; the nonce it was tried under is among them. -/
def nonces (c : Channel) : List Message → List Nonce
  | [] => []
  | .toClient plain :: rest => c.sendNonce :: (c.encrypt plain).2.nonces rest
  | .fromClient payload :: rest =>
    if payload.length < mac then []
    else
      c.recvNonce :: match c.decryptInPlace payload with
        | (.ok _, c) => c.nonces rest
        | (.error _, _) => []

section Interleaving

variable {c : Channel}

/-- What comes in is given the receiving nonce, and what follows it, if anything does, starts from the next. -/
theorem nonces_fromClient (payload : Bytes) (rest : List Message) :
    c.nonces (.fromClient payload :: rest) = [] ∨ c.nonces (.fromClient payload :: rest) = [c.recvNonce] ∨
      c.nonces (.fromClient payload :: rest) =
        c.recvNonce :: { c with recvNonce := bumpNonce c.recvNonce }.nonces rest := by
  rw [nonces]
  split
  · exact .inl rfl
  · rename_i long
    rw [decryptInPlace, if_neg long]
    cases c.bx.decryptDetached c.recvNonce (payload.drop mac) (payload.take mac) with
    | none => exact .inr (.inl rfl)
    | some body => exact .inr (.inr rfl)

/-- Every nonce is one of a direction's, counted up by fewer messages than went that way. -/
theorem mem_nonces {n : Nonce} (messages : List Message) (used : n ∈ c.nonces messages) :
    (∃ i < messages.countP Message.isToClient, n = bumpNonce^[i] c.sendNonce) ∨
      (∃ k < messages.countP Message.isFromClient, n = bumpNonce^[k] c.recvNonce) := by
  induction messages generalizing c with
  | nil => cases used
  | cons m rest ih =>
    cases m with
    | toClient plain =>
      rw [List.countP_cons_of_pos rfl, List.countP_cons_of_neg (by simp [Message.isFromClient])]
      rw [nonces, List.mem_cons] at used
      cases used with
      | inl here => exact .inl ⟨0, Nat.succ_pos _, here⟩
      | inr later =>
        rcases ih later with ⟨i, less, at_i⟩ | back
        · exact .inl ⟨i + 1, Nat.succ_lt_succ less, at_i⟩
        · exact .inr back
    | fromClient payload =>
      rw [List.countP_cons_of_neg (by simp [Message.isToClient]), List.countP_cons_of_pos rfl]
      rcases nonces_fromClient (c := c) payload rest with none | one | more
      · rw [none] at used
        cases used
      · rw [one, List.mem_singleton] at used
        exact .inr ⟨0, Nat.succ_pos _, used⟩
      · rw [more, List.mem_cons] at used
        cases used with
        | inl here => exact .inr ⟨0, Nat.succ_pos _, here⟩
        | inr later =>
          rcases ih later with out | ⟨k, less, at_k⟩
          · exact .inl out
          · exact .inr ⟨k + 1, Nat.succ_lt_succ less, at_k⟩

/-- Two directions whose counters do not meet, neither gone all the way round, use no nonce twice. -/
theorem nonces_nodup (messages : List Message)
    (fewOut : messages.countP Message.isToClient ≤ 2 ^ 192)
    (fewIn : messages.countP Message.isFromClient ≤ 2 ^ 192)
    (apart : ∀ i < messages.countP Message.isToClient, ∀ k < messages.countP Message.isFromClient,
      bumpNonce^[i] c.sendNonce ≠ bumpNonce^[k] c.recvNonce) : (c.nonces messages).Nodup := by
  induction messages generalizing c with
  | nil => exact List.nodup_nil
  | cons m rest ih =>
    cases m with
    | toClient plain =>
      rw [List.countP_cons_of_pos rfl] at fewOut apart
      rw [List.countP_cons_of_neg (by simp [Message.isFromClient])] at fewIn apart
      rw [nonces, List.nodup_cons]
      constructor
      · intro again
        rcases mem_nonces rest again with ⟨i, less, at_i⟩ | ⟨k, less, at_k⟩
        · exact bumps_ne (Nat.succ_pos i) (by omega) at_i
        · exact apart 0 (Nat.succ_pos _) k less at_k
      · exact ih (by omega) fewIn fun i less k => apart (i + 1) (Nat.succ_lt_succ less) k
    | fromClient payload =>
      rw [List.countP_cons_of_neg (by simp [Message.isToClient])] at fewOut apart
      rw [List.countP_cons_of_pos rfl] at fewIn apart
      rcases nonces_fromClient (c := c) payload rest with none | one | more
      · rw [none]
        exact List.nodup_nil
      · rw [one]
        exact List.nodup_singleton _
      · rw [more, List.nodup_cons]
        constructor
        · intro again
          rcases mem_nonces rest again with ⟨i, less, at_i⟩ | ⟨k, less, at_k⟩
          · exact apart i less 0 (Nat.succ_pos _) at_i.symm
          · exact bumps_ne (Nat.succ_pos k) (by omega) at_k
        · exact ih fewOut (by omega) fun i less k within => apart i less (k + 1) (Nat.succ_lt_succ within)

end Interleaving

/-- No nonce of a session is used twice, whatever the order of its messages: a nonce counts up by one, and the
two directions stay apart. -/
theorem session_nonces_distinct (bx : SalsaBox) (seed : UInt32) (clientSessionSignPk : Fixed signPk)
    (messages : List Message) (fewOut : messages.countP Message.isToClient < 2 ^ 160)
    (fewIn : messages.countP Message.isFromClient < 2 ^ 160) :
    (∀ n : Nonce, LittleEndian.value (bumpNonce n).val = (LittleEndian.value n.val + 1) % 2 ^ 192) ∧
      ((session bx seed clientSessionSignPk).nonces messages).Nodup := by
  constructor
  · exact value_bumpNonce
  · apply nonces_nodup messages (by omega) (by omega)
    intro i less k within
    exact directions_apart seed clientSessionSignPk (by omega) (by omega)

/-- A box whose tag is the nonce it was sealed under: it opens what was sealed under the same one. -/
def nonceTagged : SalsaBox where
  encrypt n plain := n.val.take mac ++ plain
  decryptDetached n body tag := if tag = n.val.take mac then some body else none

/-- A text out, one in and another out. -/
theorem session_nonces_distinct_backAndForth :
    let pk := Fixed.zero signPk
    let messages :=
      [.toClient [1, 2], .fromClient (nonceTagged.encrypt (sessionNonces 7 pk).2 [3]), .toClient []]
    ((session nonceTagged 7 pk).nonces messages).length = 3 ∧
      (∀ n : Nonce, LittleEndian.value (bumpNonce n).val = (LittleEndian.value n.val + 1) % 2 ^ 192) ∧
      ((session nonceTagged 7 pk).nonces messages).Nodup :=
  ⟨by decide, session_nonces_distinct nonceTagged 7 (Fixed.zero signPk) _ (by decide) (by decide)⟩

end Channel

end Lazarus.Wire
