import Lazarus.Wire.Handshake

/-! The gateway's end of a session with Prime: its keys, the hello it opens with, the frames it
writes and those it reads. Everything is the gateway's own code; that it walks the same keys and
nonces as Prime is shown here. -/

namespace Lazarus.Gateway

open Wire (Bytes Fixed Nonce Nacl SalsaBox mac sig signPk boxPk)

/-- The next header key from the current one. -/
def headerXorFeedback (i : UInt32) : UInt32 :=
  let s := 0xb10cfeed
  let h := s
  let k := i
  let k := k * 0xcc9e2d51
  let k := Wire.rotateLeft k 15
  let k := k * 0x1b873593
  let h := h ^^^ k
  let h := Wire.rotateLeft h 13
  let h := h * 5 + 0xe6546b64
  let h := h ^^^ 4
  let h := h ^^^ h >>> 16
  let h := h * 0x85ebca6b
  let h := h ^^^ h >>> 13
  let h := h * 0xc2b2ae35
  h ^^^ h >>> 16

/-- The key the hello's header is sent under. -/
def helloXor : UInt32 := 0xDC871829

structure Header where
  cmdLen : UInt32
  isSigned : Bool
  isEncryptedPubkey : Bool
  isEncryptedChannel : Bool
  protoCmd : UInt8
deriving DecidableEq

inductive ProtoCmd where
  | helloOrPing
  | handshakeResp
  | mining
  | info

def ProtoCmd.code : ProtoCmd → UInt8
  | .helloOrPing => 1
  | .handshakeResp => 2
  | .mining => 5
  | .info => 7

namespace Header

def word (h : Header) : UInt32 :=
  let w := h.cmdLen &&& (0x3FFFFF : UInt32)
  let w := if h.isSigned then w ||| (1 : UInt32) <<< (24 : UInt32) else w
  let w := if h.isEncryptedPubkey then w ||| (1 : UInt32) <<< (25 : UInt32) else w
  let w := if h.isEncryptedChannel then w ||| (1 : UInt32) <<< (26 : UInt32) else w
  w ||| (h.protoCmd.toUInt32 &&& (0x1F : UInt32)) <<< (27 : UInt32)

def encode (h : Header) : Fixed 4 := .ofNat 4 h.word.toNat

def decode (raw : Fixed 4) : Header :=
  let w := UInt32.ofNat (LittleEndian.value raw.val)
  { cmdLen := w &&& (0x3FFFFF : UInt32)
    isSigned := w >>> (24 : UInt32) &&& (1 : UInt32) != 0
    isEncryptedPubkey := w >>> (25 : UInt32) &&& (1 : UInt32) != 0
    isEncryptedChannel := w >>> (26 : UInt32) &&& (1 : UInt32) != 0
    protoCmd := (w >>> (27 : UInt32) &&& (0x1F : UInt32)).toUInt8 }

def xorU32 (header : Fixed 4) (key : UInt32) : Fixed 4 :=
  .ofNat 4 (UInt32.ofNat (LittleEndian.value header.val) ^^^ key).toNat

def encodeObfuscated (h : Header) (key : UInt32) : Fixed 4 := xorU32 h.encode key

def decodeObfuscated (raw : Fixed 4) (key : UInt32) : Header := decode (xorU32 raw key)

end Header

/-- Add one to a chunk of four bytes, and to the next where it comes round to zero. -/
def incrementChunks : Nat → Bytes → Bytes
  | 0, n => n
  | chunks + 1, n =>
    let x := UInt32.ofNat (LittleEndian.value (n.take 4)) + 1
    LittleEndian.bytes 4 x.toNat ++ if x ≠ 0 then n.drop 4 else incrementChunks chunks (n.drop 4)

/-- The words of the two nonces, the receiver's and the sender's, each pair mixed from the one before. -/
def noncePairs : Nat → UInt32 → List (UInt32 × UInt32)
  | 0, _ => []
  | words + 1, nk2 =>
    let f := headerXorFeedback (nk2 - 42)
    (f, f ^^^ 0x57575757) :: noncePairs words (~~~f)

section Alike

theorem headerXorFeedback_eq (i : UInt32) : headerXorFeedback i = Wire.feedback i := rfl

private theorem incrementChunks_eq (chunks : Nat) (n : Bytes) :
    incrementChunks chunks n = Wire.bumpWords chunks n := by
  induction chunks generalizing n with
  | zero => rfl
  | succ chunks ih => rw [incrementChunks, Wire.bumpWords, ih]

private theorem noncePairs_eq (words : Nat) (nk : UInt32) :
    noncePairs words nk = (Wire.nonceWords words nk).map fun w => (w, w ^^^ Wire.nonceMask) := by
  induction words generalizing nk with
  | zero => rfl
  | succ words ih =>
    rw [noncePairs, Wire.nonceWords, List.map_cons, ih]
    rfl

private theorem length_noncePairs (words : Nat) (nk : UInt32) : (noncePairs words nk).length = words := by
  rw [noncePairs_eq, List.length_map, Wire.length_nonceWords]

end Alike

def incrementNonce (n : Nonce) : Nonce :=
  ⟨incrementChunks 6 n.val, by rw [incrementChunks_eq]; exact (Wire.bumpNonce n).property⟩

/-- The nonces of a session, the sender's first. -/
def deriveNonces (nk : UInt32) (sessionEdPk : Fixed signPk) : Nonce × Nonce :=
  let nk2 := (nk - 42) ^^^ UInt32.ofNat (LittleEndian.value ((sessionEdPk.val.drop 7).take 4))
  let pairs := noncePairs 6 nk2
  (⟨Wire.wordBytes (pairs.map Prod.snd), by
      rw [Wire.length_wordBytes, List.length_map, length_noncePairs]; rfl⟩,
    ⟨Wire.wordBytes (pairs.map Prod.fst), by
      rw [Wire.length_wordBytes, List.length_map, length_noncePairs]; rfl⟩)

/-- A signing pair and a box pair. The secret of the signing pair has its public key behind it. -/
structure SessionKeys where
  edPk : Fixed signPk
  edSk : Fixed 64
  xPk : Fixed boxPk
  xSk : Fixed 32

abbrev PoolKeys := SessionKeys

/-- What a channel encrypts under, and where its streams are. -/
structure ChannelKeys where
  remoteX : Fixed boxPk
  localX : Fixed 32
  sendNonce : Nonce
  recvNonce : Nonce
  sendHdr : UInt32
  recvHdr : UInt32

/-- The seed in a signing secret. -/
def seedOf (edSk : Fixed 64) : Fixed 32 := ⟨edSk.val.take 32, by rw [List.length_take, edSk.property]; rfl⟩

/-- Sign, where the secret's two halves belong together. -/
def signDetached (nacl : Nacl) (msg : Bytes) (edSk : Fixed 64) : Option (Fixed sig) :=
  if edSk.val.drop 32 = (nacl.signPk (seedOf edSk)).val then some (nacl.sign (seedOf edSk) msg) else none

/-- A set of keys from two secrets. -/
def generateKeys (nacl : Nacl) (ed x : Fixed 32) : SessionKeys where
  edPk := nacl.signPk ed
  edSk :=
    ⟨ed.val ++ (nacl.signPk ed).val, by rw [List.length_append, ed.property, (nacl.signPk ed).property]; rfl⟩
  xPk := nacl.boxPk x
  xSk := x

namespace ChannelKeys

/-- The client's keys once its hello is out; those of the box come with the reply. -/
def forClientAfterHello (nk : UInt32) (sessionEdPk : Fixed signPk) : ChannelKeys where
  remoteX := .zero boxPk
  localX := .zero 32
  sendNonce := (deriveNonces nk sessionEdPk).1
  recvNonce := (deriveNonces nk sessionEdPk).2
  sendHdr := headerXorFeedback nk
  recvHdr := headerXorFeedback (~~~nk)

def setPrecomp (ch : ChannelKeys) (remoteXPk : Fixed boxPk) (localXSk : Fixed 32) : ChannelKeys :=
  { ch with remoteX := remoteXPk, localX := localXSk }

def sealChannel (nacl : Nacl) (ch : ChannelKeys) (plain : Bytes) : Bytes × ChannelKeys :=
  ((nacl.precompute ch.remoteX ch.localX).encrypt ch.sendNonce plain,
    { ch with sendNonce := incrementNonce ch.sendNonce })

/-- Open a payload. Where it does not open the nonce stays. -/
def openChannel (nacl : Nacl) (ch : ChannelKeys) (cipher : Bytes) : Option Bytes × ChannelKeys :=
  if cipher.length < mac then (none, ch)
  else
    match (nacl.precompute ch.remoteX ch.localX).decryptDetached ch.recvNonce
      (cipher.drop mac) (cipher.take mac) with
    | none => (none, ch)
    | some out => (some out, { ch with recvNonce := incrementNonce ch.recvNonce })

def nextSendHdr (ch : ChannelKeys) : UInt32 × ChannelKeys :=
  (ch.sendHdr, { ch with sendHdr := headerXorFeedback ch.sendHdr })

def nextRecvHdr (ch : ChannelKeys) : UInt32 × ChannelKeys :=
  (ch.recvHdr, { ch with recvHdr := headerXorFeedback ch.recvHdr })

end ChannelKeys

/-- What a hello draws: the seed, how long its pad is and of which byte, and the seal's own key. -/
structure HelloDraw where
  nk : UInt32
  padLen : UInt8
  padByte : UInt8
  ephemeral : Fixed 32

/-- What a client signs in its hello. -/
def helloBody (keys session : SessionKeys) (version : String) (draw : HelloDraw) : Bytes :=
  keys.edPk.val ++ keys.xPk.val ++ session.edPk.val ++ session.xPk.val ++ Utf8.bytes version ++ [0] ++ [0xFE] ++
    LittleEndian.bytes 4 draw.nk.toNat ++ List.replicate (1 + draw.padLen.toNat % 40) draw.padByte

/-- The hello, its header before it, and the keys the client goes on with. -/
def encodeClientHello (nacl : Nacl) (keys session : SessionKeys) (poolXPk : Fixed boxPk) (version : String)
    (draw : HelloDraw) : Option (Bytes × ChannelKeys) := do
  let body := helloBody keys session version draw
  let signature ← signDetached nacl body keys.edSk
  let closed := nacl.sealTo poolXPk draw.ephemeral (body ++ signature.val)
  let h : Header :=
    { cmdLen := UInt32.ofNat closed.length, isSigned := true, isEncryptedPubkey := true,
      isEncryptedChannel := false, protoCmd := ProtoCmd.helloOrPing.code }
  return ((h.encodeObfuscated helloXor).val ++ closed, .forClientAfterHello draw.nk session.edPk)

/-- Hello UA the gateway sends. -/
def splitGatewayUa : String := "lazarus-gateway/0.1"

/-- A frame read whole: its header, under the key in use, says how much follows. -/
def readWhole (key : UInt32) (stream : Bytes) : Option (Fixed 4 × Bytes × Bytes) :=
  if enough : 4 ≤ stream.length then
    let hdr : Fixed 4 := ⟨stream.take 4, by rw [List.length_take]; omega⟩
    let peek := Header.decodeObfuscated hdr key
    if (stream.drop 4).length < peek.cmdLen.toNat then none
    else some (hdr, (stream.drop 4).take peek.cmdLen.toNat, (stream.drop 4).drop peek.cmdLen.toNat)
  else none

/-- A reply long enough holds the key of the pool's session whole. -/
theorem length_poolSessX {plain : Bytes} (long : 256 ≤ plain.length) :
    (((plain.take (plain.length - 64)).drop 160).take 32).length = boxPk := by
  simp only [List.length_take, List.length_drop, boxPk]
  omega

/-- Take up the pool's reply: the rest of the session is boxed to the key it names. -/
def takeReply (nacl : Nacl) (poolEd : Fixed signPk) (session : SessionKeys)
    (ch : ChannelKeys) (payload : Bytes) : Option ChannelKeys := do
  let ch := ch.nextRecvHdr.2
  let plain ← nacl.openSealed session.xSk payload
  if long : 256 ≤ plain.length then
    let body := plain.take (plain.length - 64)
    if nacl.verify poolEd body (plain.drop (plain.length - 64)) then
      let poolSessX : Fixed boxPk := ⟨(body.drop 160).take 32, length_poolSessX long⟩
      return ch.setPrecomp poolSessX session.xSk
    else none
  else none

/-- Write a mining message, signed with the session's key where one is given. -/
def wrapMining (nacl : Nacl) (ch : ChannelKeys) (body : Bytes) (signWith : Option SessionKeys) :
    Bytes × ChannelKeys :=
  let plain := match signWith with
    | none => body
    | some sk => match signDetached nacl body sk.edSk with
      | some signature => body ++ signature.val
      | none => body
  let (cipher, ch) := ch.sealChannel nacl plain
  let h : Header :=
    { cmdLen := UInt32.ofNat cipher.length, isSigned := signWith.isSome, isEncryptedPubkey := false,
      isEncryptedChannel := true, protoCmd := ProtoCmd.mining.code }
  let (key, ch) := ch.nextSendHdr
  ((h.encodeObfuscated key).val ++ cipher, ch)

/-- What is signed, with the signature off; it is checked where a key is given. -/
def stripSignature (nacl : Nacl) (plain : Bytes) (verifyEd : Option (Fixed signPk)) : Option Bytes :=
  if plain.length < 64 then none
  else
    let msg := plain.take (plain.length - 64)
    if verifyEd.any fun pk => !nacl.verify pk msg (plain.drop (plain.length - 64)) then none else some msg

/-- Open a frame of Prime's. -/
def openFrame (nacl : Nacl) (ch : ChannelKeys) (hdrRaw : Fixed 4) (payload : Bytes)
    (verifyEd : Option (Fixed signPk)) : Option (Header × Bytes) × ChannelKeys :=
  let (key, ch) := ch.nextRecvHdr
  let h := Header.decodeObfuscated hdrRaw key
  if payload.length ≠ h.cmdLen.toNat then (none, ch)
  else
    let (opened, ch) := if h.isEncryptedChannel then ch.openChannel nacl payload else (some payload, ch)
    let plain := opened.bind fun plain => if h.isSigned then stripSignature nacl plain verifyEd else some plain
    (plain.map fun plain => (h, plain), ch)

section Frames

/-- A header as Prime names its fields. -/
def Header.asPrime (h : Header) : Wire.Header where
  len := h.cmdLen
  signed := h.isSigned
  isSealed := h.isEncryptedPubkey
  channel := h.isEncryptedChannel
  cmd := h.protoCmd

theorem incrementNonce_eq (n : Nonce) : incrementNonce n = Wire.bumpNonce n :=
  Subtype.ext (incrementChunks_eq 6 n.val)

/-- The client sends under the nonces the pool receives under, and the other way round. -/
theorem deriveNonces_eq (nk : UInt32) (sessionEdPk : Fixed signPk) :
    deriveNonces nk sessionEdPk =
      ((Wire.sessionNonces nk sessionEdPk).2, (Wire.sessionNonces nk sessionEdPk).1) := by
  have first : ((Prod.fst : UInt32 × UInt32 → UInt32) ∘ fun w => (w, w ^^^ Wire.nonceMask)) = id := rfl
  have second :
    ((Prod.snd : UInt32 × UInt32 → UInt32) ∘ fun w => (w, w ^^^ Wire.nonceMask)) = (· ^^^ Wire.nonceMask) := rfl
  simp only [deriveNonces, Wire.sessionNonces, noncePairs_eq, List.map_map, first, second, List.map_id]

private theorem word_eq (h : Header) : h.word = h.asPrime.toU32 := by
  obtain ⟨cmdLen, isSigned, isEncryptedPubkey, isEncryptedChannel, protoCmd⟩ := h
  have top : (protoCmd &&& (0x1f : UInt8)).toUInt32 = protoCmd.toUInt32 &&& (0x1F : UInt32) :=
    UInt8.toUInt32_and _ _
  simp only [Header.word, Header.asPrime, Wire.Header.toU32, top]
  cases isSigned <;> cases isEncryptedPubkey <;> cases isEncryptedChannel <;> simp [Bool.toUInt32]

theorem encodeObfuscated_eq (h : Header) (key : UInt32) :
    (h.encodeObfuscated key).val = (h.asPrime.encode key).1 := by
  have read : UInt32.ofNat (LittleEndian.value h.encode.val) = h.asPrime.toU32 := by
    change UInt32.ofNat (LittleEndian.value (LittleEndian.bytes 4 h.word.toNat)) = _
    rw [LittleEndian.value_bytes, Nat.mod_eq_of_lt (show _ < 256 ^ 4 from h.word.toNat_lt),
      UInt32.ofNat_toNat, word_eq]
  rw [Header.encodeObfuscated, Header.xorU32, read]
  rfl

private theorem bit_eq {w i mask : UInt32} (low : i.toNat < 32) (power : mask.toNat = 2 ^ i.toNat) :
    (w >>> i &&& (1 : UInt32) != 0) = (w &&& mask != 0) := by
  rw [Wire.Header.flag_eq (i := 0) (by rfl), Wire.Header.flag_eq power,
    UInt32.toNat_shiftRight, Nat.mod_eq_of_lt low, Nat.shiftRight_eq_div_pow, Nat.pow_zero, Nat.div_one]

private theorem asPrime_decode (raw : Fixed 4) :
    (Header.decode raw).asPrime = Wire.Header.fromU32 (UInt32.ofNat (LittleEndian.value raw.val)) := by
  unfold Header.decode
  generalize UInt32.ofNat (LittleEndian.value raw.val) = w
  have five : (w >>> (27 : UInt32) &&& (0x1F : UInt32)).toUInt8 = (w >>> (27 : UInt32)).toUInt8 := by
    have small : (w >>> (27 : UInt32)).toNat < 2 ^ 5 := by
      have top := w.toNat_lt
      rw [UInt32.toNat_shiftRight, Nat.shiftRight_eq_div_pow]
      change w.toNat / 2 ^ 27 < 2 ^ 5
      omega
    have whole : (w >>> (27 : UInt32) &&& (0x1F : UInt32)) = w >>> (27 : UInt32) := by
      apply UInt32.toNat_inj.mp
      rw [UInt32.toNat_and]
      exact (Nat.and_two_pow_sub_one_eq_mod _ 5).trans (Nat.mod_eq_of_lt small)
    rw [whole]
  simp only [Header.asPrime, Wire.Header.fromU32, Wire.Header.mk.injEq, true_and]
  exact ⟨bit_eq (by decide) (by decide), bit_eq (by decide) (by decide), bit_eq (by decide) (by decide), five⟩

/-- A header of Prime's is read off its bytes under the key it was sent with. -/
theorem asPrime_decodeObfuscated {h : Wire.Header} (short : h.len.toNat < 2 ^ 22)
    (known : h.cmd.toNat < 32) {raw : Fixed 4} {key : UInt32} (sent : raw.val = (h.encode key).1) :
    (Header.decodeObfuscated raw key).asPrime = h := by
  have word : UInt32.ofNat (LittleEndian.value (Header.xorU32 raw key).val) = h.toU32 := by
    have inner : UInt32.ofNat (LittleEndian.value raw.val) = h.toU32 ^^^ key := by
      rw [sent]
      change UInt32.ofNat (LittleEndian.value (LittleEndian.bytes 4 (h.toU32 ^^^ key).toNat)) = _
      rw [LittleEndian.value_bytes, Nat.mod_eq_of_lt (show _ < 256 ^ 4 from (h.toU32 ^^^ key).toNat_lt),
        UInt32.ofNat_toNat]
    rw [Header.xorU32, inner, UInt32.xor_assoc, UInt32.xor_self, UInt32.xor_zero]
    change UInt32.ofNat (LittleEndian.value (LittleEndian.bytes 4 h.toU32.toNat)) = _
    rw [LittleEndian.value_bytes, Nat.mod_eq_of_lt (show _ < 256 ^ 4 from h.toU32.toNat_lt), UInt32.ofNat_toNat]
  rw [Header.decodeObfuscated, asPrime_decode, word, Wire.Header.fromU32_toU32 short known]

end Frames

end Lazarus.Gateway
