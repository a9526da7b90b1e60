import Lazarus.Wire.Channel
import Lazarus.Wire.Reader
import Lazarus.Lib.Utf8

/-! The two messages a session opens with: the hello of a gateway, sealed to the pool and signed by the gateway,
and the pool's reply, sealed to the gateway and signed by the pool. -/

namespace Lazarus.Wire

def boxPk : Nat := 32

/-- Bytes of a signature. -/
def sig : Nat := 64

/-- Bytes a sealed box adds: a key of its own, and a tag. -/
def sealOverhead : Nat := 32 + mac

def maxUserAgent : Nat := 512

def maxMotd : Nat := 511

def resumeTokenLen : Nat := 40

def resumeMarker : Bytes := [0x44, 0x52, 0x53, 0x01]

/-- What the crates of signatures and boxes compute. A seal takes the key it draws as an argument. -/
structure Nacl where
  signPk : Fixed 32 → Fixed Wire.signPk
  sign : Fixed 32 → Bytes → Fixed sig
  verify : Fixed Wire.signPk → Bytes → Bytes → Bool
  boxPk : Fixed 32 → Fixed Wire.boxPk
  precompute : Fixed Wire.boxPk → Fixed 32 → SalsaBox
  sealTo : Fixed Wire.boxPk → Fixed 32 → Bytes → Bytes
  openSealed : Fixed 32 → Bytes → Option Bytes

/-- A box opens what it sealed under the same nonce, and puts a tag before it. -/
structure SalsaBox.Lawful (bx : SalsaBox) : Prop where
  size : ∀ nonce plain, (bx.encrypt nonce plain).length = mac + plain.length
  opens : ∀ nonce plain,
    bx.decryptDetached nonce ((bx.encrypt nonce plain).drop mac) ((bx.encrypt nonce plain).take mac) =
    some plain

/-- A signature verifies under its own key, a sealed box opens with the key it was sealed to, and either end of
two box keys computes the same box. -/
structure Nacl.Lawful (nacl : Nacl) : Prop where
  verifies : ∀ secret message, nacl.verify (nacl.signPk secret) message (nacl.sign secret message).val = true
  unseals : ∀ secret ephemeral message,
    nacl.openSealed secret (nacl.sealTo (nacl.boxPk secret) ephemeral message) = some message
  sealSize : ∀ pk ephemeral message, (nacl.sealTo pk ephemeral message).length = sealOverhead + message.length
  shared : ∀ one other, nacl.precompute (nacl.boxPk one) other = nacl.precompute (nacl.boxPk other) one
  boxes : ∀ pk secret, (nacl.precompute pk secret).Lawful

/-- Signatures and boxes that hide nothing: a public key is the secret itself, and a
seal bears its beginning. -/
def plainNacl : Nacl where
  signPk secret := secret
  sign secret _ := ⟨secret.val ++ secret.val, by rw [List.length_append, secret.property]; rfl⟩
  verify pk _ signature := signature = pk.val ++ pk.val
  boxPk secret := secret
  precompute _ _ := Channel.nonceTagged
  sealTo pk ephemeral message := ephemeral.val ++ pk.val.take mac ++ message
  openSealed secret closed := if (closed.drop 32).take mac = secret.val.take mac then
    some (closed.drop sealOverhead) else none

private theorem nonceTagged_lawful : Channel.nonceTagged.Lawful := by
  have half : ∀ nonce : Nonce, (nonce.val.take mac).length = mac := by
    intro nonce
    rw [List.length_take, nonce.property]
    rfl
  constructor
  · intro nonce plain
    simp only [Channel.nonceTagged, List.length_append, half]
  · intro nonce plain
    simp only [Channel.nonceTagged, List.take_left' (half nonce), List.drop_left' (half nonce), if_true]

theorem plainNacl_lawful : plainNacl.Lawful where
  verifies secret message := decide_eq_true rfl
  unseals secret ephemeral message := by
    have half : (secret.val.take mac).length = mac := by
      rw [List.length_take, secret.property]
      rfl
    have front : (ephemeral.val ++ secret.val.take mac).length = sealOverhead := by
      rw [List.length_append, half, ephemeral.property]
      rfl
    have tag : ((ephemeral.val ++ secret.val.take mac ++ message).drop 32).take mac = secret.val.take mac := by
      rw [List.append_assoc, List.drop_left' ephemeral.property]
      exact List.take_left' half
    simp only [plainNacl, tag, if_true, List.drop_left' front]
  sealSize pk ephemeral message := by
    change (ephemeral.val ++ pk.val.take mac ++ message).length = _
    rw [List.length_append, List.length_append, List.length_take, pk.property, ephemeral.property]
    rfl
  shared _ _ := rfl
  boxes _ _ := nonceTagged_lawful

/-- A signing pair and a box pair, by their secrets. -/
structure Identity where
  sign : Fixed 32
  bx : Fixed 32

/-- Why a message that is signed or sealed is refused. -/
inductive Refusal where
  | fault (f : Fault)
  | signature
  | unsealed
deriving DecidableEq

/-- Take the signature off the end of a message, if it is of this key. -/
def verifyTrailing (nacl : Nacl) (pk : Fixed signPk) (payload : Bytes) : Except Refusal Bytes :=
  if payload.length < sig then .error (.fault (.error .short))
  else if nacl.verify pk (payload.take (payload.length - sig)) (payload.drop (payload.length - sig)) then
    .ok (payload.take (payload.length - sig))
  else .error .signature

/-- Which configuration layout a client parses. -/
inductive Generation where
  | ocean
  | convoy
deriving DecidableEq

structure ClientHello where
  identitySignPk : Fixed signPk
  identityBoxPk : Fixed boxPk
  sessionSignPk : Fixed signPk
  sessionBoxPk : Fixed boxPk
  userAgent : String
  seed : UInt32
  generation : Generation
  resumeToken : Option (Fixed resumeTokenLen)
deriving DecidableEq

namespace ClientHello

/-- What a client of the later generation puts first in the pad. -/
def readResume : Parse (Generation × Option (Fixed resumeTokenLen)) := do
  let left ← Parse.remaining
  let c ← get
  if 5 ≤ left ∧ (c.buf.drop c.pos).take 4 = resumeMarker then
    let _ ← Parse.take 4
    if (← Parse.u8) = 1 then return (.convoy, some (← Parse.array resumeTokenLen))
    else return (.convoy, none)
  else return (.ocean, none)

/-- The fields of a hello whose signature is verified. -/
def read (identitySignPk : Fixed signPk) : Parse ClientHello := do
  let _ ← Parse.take 32
  let identityBoxPk ← Parse.array boxPk
  let sessionSignPk ← Parse.array signPk
  let sessionBoxPk ← Parse.array boxPk
  let ua ← Parse.cstr maxUserAgent
  if (← Parse.u8) ≠ 0xFE then Parse.fail (.malformed "hello separator")
  else
    let seed ← Parse.u32
    let (generation, resumeToken) ← readResume
    return {
      identitySignPk, identityBoxPk, sessionSignPk, sessionBoxPk, userAgent := Utf8.lossy ua, seed, generation,
      resumeToken }

end ClientHello

/-- Open and check a hello. The key that signed it is inside, so it is read first. -/
def parseClientHello (nacl : Nacl) (pool : Identity) (closed : Bytes) : Except Refusal ClientHello :=
  match nacl.openSealed pool.bx closed with
  | none => .error .unsealed
  | some plain =>
    if long : 4 * 32 + sig ≤ plain.length then
      let identitySignPk : Fixed signPk :=
        ⟨plain.take signPk, by rw [List.length_take]; unfold sig at long; unfold signPk; omega⟩
      match verifyTrailing nacl identitySignPk plain with
      | .error refusal => .error refusal
      | .ok body => ((ClientHello.read identitySignPk ⟨body, 0⟩).map Prod.fst).mapError .fault
    else .error (.fault (.error .short))

/-- What the pool signs in its reply. -/
def serverHelloBody (nacl : Nacl) (session : Identity) (hello : ClientHello) (motd : String) : Bytes :=
  hello.identitySignPk.val ++ hello.identityBoxPk.val ++ hello.sessionSignPk.val ++ hello.sessionBoxPk.val ++
    (nacl.signPk session.sign).val ++ (nacl.boxPk session.bx).val ++ (Utf8.bytes motd).take maxMotd ++ [0]

/-- The reply to a hello that was accepted. -/
def buildServerHello (nacl : Nacl) (pool session : Identity) (hello : ClientHello)
    (motd : String) (ephemeral : Fixed 32) :
    Bytes :=
  let m := serverHelloBody nacl session hello motd
  nacl.sealTo hello.sessionBoxPk ephemeral (m ++ (nacl.sign pool.sign m).val)

/-- The texts of the builds that place the whole list, by what they call themselves. -/
def isSplitGateway (ua : String) : Bool :=
  let u := ua.toList.map Char.toLower
  "lazarus-gateway".toList.isPrefixOf u || decide ("lazarus-split".toList <:+: u)

section Hello

variable {nacl : Nacl}

theorem length_serverHelloBody (session : Identity) (hello : ClientHello) (motd : String) :
    (serverHelloBody nacl session hello motd).length = 192 + min maxMotd (Utf8.bytes motd).length + 1 := by
  have sizes := And.intro hello.identitySignPk.property (And.intro hello.identityBoxPk.property
    (And.intro hello.sessionSignPk.property hello.sessionBoxPk.property))
  have keys := And.intro (nacl.signPk session.sign).property (nacl.boxPk session.bx).property
  simp only [signPk, boxPk] at sizes keys
  simp only [serverHelloBody, List.length_append, List.length_take, List.length_singleton, sizes, keys]

private theorem verifyTrailing_sign (lawful : nacl.Lawful) (secret : Fixed 32) (message : Bytes) :
    verifyTrailing nacl (nacl.signPk secret) (message ++ (nacl.sign secret message).val) = .ok message := by
  have size := (nacl.sign secret message).property
  have front : (message ++ (nacl.sign secret message).val).length - sig = message.length := by
    rw [List.length_append, size, Nat.add_sub_cancel]
  have enough : ¬ (message ++ (nacl.sign secret message).val).length < sig := by
    rw [List.length_append, size]
    omega
  rw [verifyTrailing, if_neg enough, front, List.take_left, List.drop_left,
    if_pos (lawful.verifies secret message)]

/-- What a message verifies to is what stands before its signature. -/
theorem verifyTrailing_ok {pk : Fixed signPk} {payload body : Bytes}
    (verified : verifyTrailing nacl pk payload = .ok body) :
    ∃ signature, payload = body ++ signature ∧ nacl.verify pk body signature = true := by
  unfold verifyTrailing at verified
  split at verified
  · cases verified
  · split at verified
    · rename_i right
      cases verified
      exact ⟨_, (List.take_append_drop _ _).symm, right⟩
    · cases verified

/-- The keys of a hello and what follows them up to the pad. -/
def helloFields (hello : ClientHello) : Bytes :=
  hello.identitySignPk.val ++ (hello.identityBoxPk.val ++ (hello.sessionSignPk.val ++ (hello.sessionBoxPk.val ++
    ((Utf8.bytes hello.userAgent ++ [0]) ++ ([0xFE] ++ (LittleEndian.bytes 4 hello.seed.toNat ++ []))))))

/-- Reading at these bytes gives this and moves past them, where just this follows. -/
def ReadsBefore (after : Bytes) (r : Parse α) (data : Bytes) (x : α) : Prop :=
  ∀ before, r ⟨before ++ data ++ after, before.length⟩ =
    .ok (x, ⟨before ++ data ++ after, (before ++ data).length⟩)

theorem ReadsBefore.bind {after first second : Bytes} {r : Parse α} {f : α → Parse β} {x : α} {y : β}
    (here : Parse.Reads r first x) (later : ReadsBefore after (f x) second y) :
    ReadsBefore after (r >>= f) (first ++ second) y := by
  intro before
  have one := here before (second ++ after)
  have two := later (before ++ first)
  simp only [List.append_assoc] at one two ⊢
  rw [Parse.bind_of_ok one, two]

private theorem readResume_pad {pad : Bytes} (plain : pad.take 4 ≠ resumeMarker) :
    ReadsBefore pad ClientHello.readResume [] (.ocean, none) := by
  intro before
  rw [List.append_nil]
  have left : Parse.remaining ⟨before ++ pad, before.length⟩ =
      .ok ((before ++ pad).length - before.length, ⟨before ++ pad, before.length⟩) := if_pos (by simp)
  have here : (get : Parse Cursor) ⟨before ++ pad, before.length⟩ =
      .ok (⟨before ++ pad, before.length⟩, ⟨before ++ pad, before.length⟩) := rfl
  have other :
      ¬ (5 ≤ (before ++ pad).length - before.length ∧
        ((before ++ pad).drop before.length).take 4 = resumeMarker) := by
    rw [List.drop_left]
    exact fun both => plain both.2
  unfold ClientHello.readResume
  rw [Parse.bind_of_ok left, Parse.bind_of_ok here]
  dsimp only
  rw [if_neg other]
  rfl

private theorem reads_hello {hello : ClientHello} {pad : Bytes} (named : 0 ∉ Utf8.bytes hello.userAgent)
    (short : (Utf8.bytes hello.userAgent).length ≤ maxUserAgent) (plain : pad.take 4 ≠ resumeMarker)
    (first : hello.generation = .ocean ∧ hello.resumeToken = none) :
    ReadsBefore pad (ClientHello.read hello.identitySignPk) (helloFields hello) hello := by
  have key : Parse.Reads (Parse.take 32) hello.identitySignPk.val hello.identitySignPk.val := by
    have taken := Parse.reads_take hello.identitySignPk.val
    rwa [hello.identitySignPk.property] at taken
  refine .bind key
    (.bind (Parse.reads_array hello.identityBoxPk) (.bind (Parse.reads_array hello.sessionSignPk) ?_))
  refine .bind (Parse.reads_array hello.sessionBoxPk) (.bind (Parse.reads_cstr named short) ?_)
  refine .bind (Parse.reads_u8 0xFE) ?_
  rw [if_neg (by decide)]
  refine .bind (Parse.reads_u32 hello.seed) ?_
  intro before
  have resume := readResume_pad plain before
  rw [Parse.bind_of_ok resume]
  obtain ⟨identitySignPk, identityBoxPk, sessionSignPk, sessionBoxPk, userAgent,
    seed, generation, resumeToken⟩ := hello
  obtain ⟨rfl, rfl⟩ := first
  dsimp only
  rw [Utf8.lossy_bytes]
  rfl

/-- A hello that a gateway signed with the key it names, and sealed to the pool, is the one the pool reads. -/
theorem parseClientHello_signed (lawful : nacl.Lawful) (pool : Identity)
    {identity : Fixed 32} {hello : ClientHello} {pad : Bytes}
    (own : hello.identitySignPk = nacl.signPk identity) (named : 0 ∉ Utf8.bytes hello.userAgent)
    (short : (Utf8.bytes hello.userAgent).length ≤ maxUserAgent) (plain : pad.take 4 ≠ resumeMarker)
    (first : hello.generation = .ocean ∧ hello.resumeToken = none) (ephemeral : Fixed 32) :
    parseClientHello nacl pool (nacl.sealTo (nacl.boxPk pool.bx) ephemeral
      (helloFields hello ++ pad ++ (nacl.sign identity (helloFields hello ++ pad)).val)) = .ok hello := by
  have sizes := And.intro hello.identitySignPk.property (And.intro hello.identityBoxPk.property
    (And.intro hello.sessionSignPk.property hello.sessionBoxPk.property))
  simp only [signPk, boxPk] at sizes
  obtain ⟨one, two, three, four⟩ := sizes
  have long : 4 * 32 + sig ≤
      (helloFields hello ++ pad ++ (nacl.sign identity (helloFields hello ++ pad)).val).length := by
    simp only [helloFields, List.length_append, one, two, three, four, (nacl.sign identity _).property]
    omega
  have front : (helloFields hello ++ pad ++ (nacl.sign identity (helloFields hello ++ pad)).val).take signPk =
      hello.identitySignPk.val := by
    rw [helloFields, List.append_assoc, List.append_assoc]
    exact List.take_left' hello.identitySignPk.property
  have verified := verifyTrailing_sign lawful identity (helloFields hello ++ pad)
  rw [← own] at verified
  have whole := reads_hello named short plain first []
  rw [List.nil_append] at whole
  have got :
      (ClientHello.read hello.identitySignPk ⟨helloFields hello ++ pad, 0⟩).map Prod.fst = .ok hello := by
    rw [List.length_nil] at whole
    rw [whole]
    rfl
  unfold parseClientHello
  rw [lawful.unseals]
  dsimp only
  rw [dif_pos long]
  simp only [front]
  rw [verified]
  dsimp only
  rw [got]
  rfl

end Hello

end Lazarus.Wire
