import Lazarus.Primed.Framing
import Lazarus.Wire.Handshake

/-! How a session of the pool starts, up to the first frame on its channel, and what it does with each frame
after that before the message inside is looked at. -/

namespace Lazarus.Primed

open Wire

/-- Largest hello a session reads. -/
def maxHello : Nat := 4096

/-- Key a client's hello is sent under. -/
def clientInitialKey : KeyStream := (0xDC871829 : UInt32)

/-- Command numbers of a frame. -/
inductive Command where
  | hello
  | helloReply
  | mining
  | info

def Command.code : Command → UInt8
  | .hello => 1
  | .helloReply => 2
  | .mining => 5
  | .info => 7

/-- Why a session ends. -/
inductive Ended where
  | refused (r : Refusal)
  | stopped (s : Stop)
  | bad (what : String)
  | closed
deriving DecidableEq

def outdatedNodeRefusal : String :=
  "gateway refused: its node built a block this chain rejected. Upgrade Bitcoin Knots to a build that has the #419 rule (29.4.2 or later) and reconnect — the refusal lifts on its own and an upgraded gateway is taken back straight away"

/-- What the pool decides a hello by, and what it greets with. -/
structure HelloPolicy where
  requireSplitGateway : Bool
  quarantined : Fixed signPk → Bool
  motd : String

/-- A session that is set up. -/
structure SecureSession where
  recvKeys : KeyStream
  sendKeys : KeyStream
  channel : Channel
  sessionKey : Identity
  hello : ClientHello

/-- One frame off the front of what comes in. -/
def readFrame (keys : KeyStream) (max : Nat) (stream : Bytes) : Except Ended (Header × Bytes × Bytes) :=
  if stream.length < Header.size then .error .closed
  else
    match (Header.decode (stream.take Header.size) keys).1 with
    | .error e => .error (.stopped (.wire e))
    | .ok h =>
      if max < h.len.toNat then .error (.bad "frame too large")
      else if (stream.drop Header.size).length < h.len.toNat then .error .closed
      else .ok (h, (stream.drop Header.size).take h.len.toNat, (stream.drop Header.size).drop h.len.toNat)

namespace SecureSession

/-- The session of a hello: its keys, and the box of the two session keys. -/
def ofHello (nacl : Nacl) (sessionKey : Identity) (hello : ClientHello) : SecureSession where
  recvKeys := feedback hello.seed
  sendKeys := feedback (~~~hello.seed)
  channel := .session (nacl.precompute hello.sessionBoxPk sessionKey.bx) hello.seed hello.sessionSignPk
  sessionKey
  hello

/-- The reply of a session, its header before it. -/
def reply (nacl : Nacl) (pool : Identity) (policy : HelloPolicy) (ephemeral : Fixed 32)
    (s : SecureSession) : Bytes × KeyStream :=
  writeFrame
    { cmd := Command.helloReply.code, signed := true, isSealed := true
      payload := buildServerHello nacl pool s.sessionKey s.hello policy.motd ephemeral } s.sendKeys

/-- A session up to its channel: what is written, and the session with what has come in behind the hello. A
gateway in quarantine has its reply before it is turned away. -/
def run (nacl : Nacl) (pool sessionKey : Identity) (policy : HelloPolicy)
    (ephemeral : Fixed 32) (stream : Bytes) : Bytes × Except Ended (SecureSession × Bytes) :=
  match readFrame clientInitialKey maxHello stream with
  | .error e => ([], .error e)
  | .ok (header, payload, rest) =>
    if header.cmd ≠ Command.hello.code ∨ !header.isSealed ∨ !header.signed ∨ header.channel then
      ([], .error (.bad "first frame is not a sealed, signed hello"))
    else
      match parseClientHello nacl pool payload with
      | .error r => ([], .error (.refused r))
      | .ok hello =>
        if policy.requireSplitGateway && !isSplitGateway hello.userAgent then
          ([], .error (.bad "split-only gateway required"))
        else
          let s := ofHello nacl sessionKey hello
          let (out, sendKeys) := s.reply nacl pool policy ephemeral
          if policy.quarantined hello.identitySignPk then (out, .error (.bad outdatedNodeRefusal))
          else (out, .ok ({ s with sendKeys }, rest))

/-- What a frame holds, once it is decrypted and its signature is off; and the channel past it. -/
def openBody (nacl : Nacl) (clientSessionSignPk : Fixed signPk) (channel : Channel)
    (h : Header) (payload : Bytes) : Except Ended Bytes × Channel :=
  if h.isSealed then (.error (.bad "sealed frame after handshake"), channel)
  else
    let (body, channel) := if h.channel then channel.decryptInPlace payload else (.ok payload, channel)
    match body with
    | .error e => (.error (.refused (.fault (.error e))), channel)
    | .ok body =>
      if h.signed then
        match verifyTrailing nacl clientSessionSignPk body with
        | .error r => (.error (.refused r), channel)
        | .ok body => (.ok body, channel)
      else (.ok body, channel)

/-- The mining message of a frame, where it has one. -/
def handleFrame (nacl : Nacl) (clientSessionSignPk : Fixed signPk) (channel : Channel)
    (h : Header) (payload : Bytes) : Except Ended (Option Bytes) × Channel :=
  match openBody nacl clientSessionSignPk channel h payload with
  | (.error e, channel) => (.error e, channel)
  | (.ok body, channel) =>
    if h.cmd = Command.mining.code then
      if !h.channel then (.error (.bad "plaintext mining frame"), channel) else (.ok (some body), channel)
    else if h.cmd = Command.hello.code then (.error (.bad "second hello"), channel)
    else (.ok none, channel)

/-- Handle frames one after the other: the mining messages among them, and the channel past them. -/
def handleAll (nacl : Nacl) (clientSessionSignPk : Fixed signPk) :
    List (Header × Bytes) → Channel → Except Ended (List Bytes × Channel)
  | [], channel => .ok ([], channel)
  | (h, payload) :: rest, channel =>
    match handleFrame nacl clientSessionSignPk channel h payload with
    | (.error e, _) => .error e
    | (.ok found, channel) =>
      match handleAll nacl clientSessionSignPk rest channel with
      | .error e => .error e
      | .ok (more, channel) => .ok (found.toList ++ more, channel)

/-- The mining message of a text for the gateway, signed with the session's key if it is to be. -/
def sendMining (nacl : Nacl) (sessionKey : Identity) (channel : Channel)
    (plain : Bytes) (signed : Bool) : Frame × Channel :=
  let m := if signed then plain ++ (nacl.sign sessionKey.sign plain).val else plain
  ({ cmd := Command.mining.code, signed, channel := true, payload := (channel.encrypt m).1 },
    (channel.encrypt m).2)

/-- The keep-alive: an empty ping on the channel. -/
def keepaliveFrame (channel : Channel) : Frame × Channel :=
  ({ cmd := Command.hello.code, channel := true, payload := (channel.encrypt []).1 }, (channel.encrypt []).2)

end SecureSession

section Reading

variable {f : Frame}

/-- A frame is read off the front of its bytes, with whatever follows left. -/
theorem readFrame_writeFrame (fits : f.Fits) {keys : KeyStream} {max : Nat}
    (small : f.payload.length ≤ max) (rest : Bytes) :
    readFrame keys max ((writeFrame f keys).1 ++ rest) = .ok (f.header, f.payload, rest) := by
  have size := f.header.length_encode keys
  have len := Receiver.toNat_len_header fits
  have parts : (writeFrame f keys).1 ++ rest = (f.header.encode keys).1 ++ (f.payload ++ rest) :=
    List.append_assoc _ _ _
  have front : ((writeFrame f keys).1 ++ rest).take Header.size = (f.header.encode keys).1 := by
    rw [parts]
    exact List.take_left' size
  have back : ((writeFrame f keys).1 ++ rest).drop Header.size = f.payload ++ rest := by
    rw [parts]
    exact List.drop_left' size
  have read := Header.decode_encode (h := f.header) (by rw [len]; exact fits.1) fits.2 keys
  have long : ¬ ((writeFrame f keys).1 ++ rest).length < Header.size := by
    rw [parts, List.length_append, size]
    omega
  rw [readFrame, if_neg long, front, back, read]
  dsimp only
  rw [len, if_neg (by omega), if_neg (by rw [List.length_append]; omega), List.take_left, List.drop_left]

end Reading

end Lazarus.Primed
