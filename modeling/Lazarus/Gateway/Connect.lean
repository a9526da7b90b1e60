import Lazarus.Gateway.Session
import Lazarus.Primed.Greeting

/-! A gateway and the pool after the handshake. Each has worked out the other's keys with code of its own: the
header keys and the nonces from the seed of the hello, the box from the two session keys. -/

namespace Lazarus.Gateway

open Wire (Bytes Fixed Nacl Identity ClientHello)
open Primed (Frame writeFrame readFrame HelloPolicy SecureSession)

/-- Keys that a signature can be made with, and that verify it. -/
structure SessionKeys.Matched (nacl : Nacl) (keys : SessionKeys) : Prop where
  own : keys.edPk = nacl.signPk (seedOf keys.edSk)
  halves : keys.edSk.val.drop 32 = (nacl.signPk (seedOf keys.edSk)).val

/-- The two ends of a session are where each needs the other to be. -/
structure InStep (nacl : Nacl) (ch : ChannelKeys) (s : SecureSession) : Prop where
  headersUp : ch.sendHdr = s.recvKeys
  headersDown : ch.recvHdr = s.sendKeys
  noncesUp : ch.sendNonce = s.channel.recvNonce
  noncesDown : ch.recvNonce = s.channel.sendNonce
  box : nacl.precompute ch.remoteX ch.localX = s.channel.bx

/-- A hello as the pool reads it. -/
def helloOf (keys session : SessionKeys) (version : String) (draw : HelloDraw) : ClientHello where
  identitySignPk := keys.edPk
  identityBoxPk := keys.xPk
  sessionSignPk := session.edPk
  sessionBoxPk := session.xPk
  userAgent := version
  seed := draw.nk
  generation := .ocean
  resumeToken := none

/-- What a gateway pads its hello with. -/
def HelloDraw.pad (draw : HelloDraw) : Bytes := List.replicate (1 + draw.padLen.toNat % 40) draw.padByte

section Handshake

variable {nacl : Nacl} {keys session : SessionKeys} {version : String} {draw : HelloDraw}

private theorem generateKeys_matched (nacl : Nacl) (ed x : Fixed 32) :
    (generateKeys nacl ed x).Matched nacl := by
  have seed : seedOf (generateKeys nacl ed x).edSk = ed := Subtype.ext (List.take_left' ed.property)
  constructor
  · rw [seed]
    rfl
  · rw [seed]
    exact List.drop_left' ed.property

private theorem helloBody_eq (keys session : SessionKeys) (version : String) (draw : HelloDraw) :
    helloBody keys session version draw = Wire.helloFields (helloOf keys session version draw) ++ draw.pad := by
  simp [helloBody, Wire.helloFields, helloOf, HelloDraw.pad]

private theorem pad_plain (draw : HelloDraw) : draw.pad.take 4 ≠ Wire.resumeMarker := by
  intro same
  rw [HelloDraw.pad, List.take_replicate] at same
  have every : ∀ b ∈ Wire.resumeMarker, b = draw.padByte := by
    rw [← same]
    exact fun b member => List.eq_of_mem_replicate member
  have one := every 0x44 (by decide)
  have two := every 0x52 (by decide)
  rw [← one] at two
  exact absurd two (by decide)

private theorem length_helloBody (keys session : SessionKeys) (version : String) (draw : HelloDraw) :
    (helloBody keys session version draw).length =
      128 + (Utf8.bytes version).length + 6 + (1 + draw.padLen.toNat % 40) := by
  simp only [helloBody, List.length_append, keys.edPk.property, keys.xPk.property, session.edPk.property,
    session.xPk.property, List.length_singleton, LittleEndian.length_bytes,
    List.length_replicate, Wire.signPk, Wire.boxPk]

private theorem encodeClientHello_eq (matched : keys.Matched nacl) (poolXPk : Fixed Wire.boxPk) :
    encodeClientHello nacl keys session poolXPk version draw = some
      ((writeFrame
          { cmd := Primed.Command.hello.code, signed := true, isSealed := true
            payload := nacl.sealTo poolXPk draw.ephemeral (helloBody keys session version draw ++
              (nacl.sign (seedOf keys.edSk) (helloBody keys session version draw)).val) }
          Primed.clientInitialKey).1, .forClientAfterHello draw.nk session.edPk) := by
  rw [encodeClientHello, signDetached, if_pos matched.halves]
  simp only [Option.bind_eq_bind, Option.pure_def, encodeObfuscated_eq]
  rfl

/-- A frame of Prime's is read off the front of its bytes, with whatever follows left. -/
theorem readWhole_writeFrame {f : Frame} (fits : f.Fits) (key : UInt32) (rest : Bytes) :
    ∃ hdr : Fixed 4, readWhole key ((writeFrame f key).1 ++ rest) = some (hdr, f.payload, rest) ∧
      hdr.val = (f.header.encode key).1 := by
  have size : (f.header.encode key).1.length = 4 := f.header.length_encode key
  have len := Primed.Receiver.toNat_len_header fits
  have parts : (writeFrame f key).1 ++ rest = (f.header.encode key).1 ++ (f.payload ++ rest) :=
    List.append_assoc _ _ _
  have front : ((writeFrame f key).1 ++ rest).take 4 = (f.header.encode key).1 := by
    rw [parts]
    exact List.take_left' size
  have back : ((writeFrame f key).1 ++ rest).drop 4 = f.payload ++ rest := by
    rw [parts]
    exact List.drop_left' size
  have long : 4 ≤ ((writeFrame f key).1 ++ rest).length := by
    rw [parts, List.length_append, size]
    omega
  refine ⟨⟨(f.header.encode key).1, size⟩, ?_, rfl⟩
  have peek :
      (Header.decodeObfuscated ⟨(f.header.encode key).1, size⟩ key).cmdLen.toNat = f.payload.length := by
    have read : (Header.decodeObfuscated ⟨(f.header.encode key).1, size⟩ key).asPrime = f.header :=
      asPrime_decodeObfuscated (by rw [len]; exact fits.1) fits.2 rfl
    exact (congrArg (fun h : Wire.Header => h.len.toNat) read).trans len
  simp only [readWhole, dif_pos long, front, back, peek]
  rw [if_neg (by rw [List.length_append]; omega), List.take_left, List.drop_left]

private theorem run_hello (lawful : nacl.Lawful) (matched : keys.Matched nacl) (pool sessionKey : Identity)
    (named : 0 ∉ Utf8.bytes version) (short : (Utf8.bytes version).length ≤ Wire.maxUserAgent)
    {policy : HelloPolicy}
    (places : policy.requireSplitGateway = true → Wire.isSplitGateway version = true)
    (welcome : policy.quarantined keys.edPk = false) (ephemeral : Fixed 32) (behind : Bytes) :
    let s := SecureSession.ofHello nacl sessionKey (helloOf keys session version draw)
    ∃ hello, encodeClientHello nacl keys session (nacl.boxPk pool.bx) version draw =
        some (hello, .forClientAfterHello draw.nk session.edPk) ∧
      SecureSession.run nacl pool sessionKey policy ephemeral (hello ++ behind) =
        ((s.reply nacl pool policy ephemeral).1,
          .ok ({ s with sendKeys := (s.reply nacl pool policy ephemeral).2 }, behind)) := by
  intro s
  refine ⟨_, encodeClientHello_eq matched _, ?_⟩
  have size := lawful.sealSize (nacl.boxPk pool.bx) draw.ephemeral (helloBody keys session version draw ++
    (nacl.sign (seedOf keys.edSk) (helloBody keys session version draw)).val)
  have signature := (nacl.sign (seedOf keys.edSk) (helloBody keys session version draw)).property
  simp only [List.length_append, length_helloBody, signature, Wire.sig, Wire.sealOverhead, Wire.mac] at size
  have pad := Nat.mod_lt draw.padLen.toNat (show 0 < 40 by decide)
  rw [Wire.maxUserAgent] at short
  have parsed : Wire.parseClientHello nacl pool (nacl.sealTo (nacl.boxPk pool.bx) draw.ephemeral
      (helloBody keys session version draw ++
        (nacl.sign (seedOf keys.edSk) (helloBody keys session version draw)).val)) =
      .ok (helloOf keys session version draw) := by
    rw [helloBody_eq]
    exact Wire.parseClientHello_signed lawful pool matched.own named short
      (pad_plain draw) ⟨rfl, rfl⟩ draw.ephemeral
  have split :
      (policy.requireSplitGateway && !Wire.isSplitGateway (helloOf keys session version draw).userAgent) =
      false := by
    cases required : policy.requireSplitGateway with
    | false => rfl
    | true =>
      rw [Bool.true_and, Bool.not_eq_false']
      exact places required
  have welcome' : policy.quarantined (helloOf keys session version draw).identitySignPk = false := welcome
  rw [SecureSession.run, Primed.readFrame_writeFrame]
  · dsimp only [Primed.Frame.header]
    rw [if_neg (by decide), parsed]
    dsimp only
    rw [split, welcome']
    rfl
  · refine ⟨?_, by change (1 : UInt8).toNat < 32; decide⟩
    change (nacl.sealTo _ _ _).length < 2 ^ 22
    omega
  · change (nacl.sealTo _ _ _).length ≤ Primed.maxHello
    rw [Primed.maxHello]
    omega

private theorem takeReply_server (lawful : nacl.Lawful) (pool : Identity) {ed x : Fixed 32} {s : SecureSession}
    (own : s.hello.sessionBoxPk = nacl.boxPk x) (policy : HelloPolicy)
    (ephemeral : Fixed 32) (ch : ChannelKeys) :
    takeReply nacl (nacl.signPk pool.sign) (generateKeys nacl ed x) ch
        (Wire.buildServerHello nacl pool s.sessionKey s.hello policy.motd ephemeral) =
      some (ch.nextRecvHdr.2.setPrecomp (nacl.boxPk s.sessionKey.bx) x) := by
  generalize body_eq : Wire.serverHelloBody nacl s.sessionKey s.hello policy.motd = m
  have length : (Wire.serverHelloBody nacl s.sessionKey s.hello policy.motd).length = _ :=
    Wire.length_serverHelloBody _ _ _
  rw [body_eq] at length
  have signature := (nacl.sign pool.sign m).property
  have long : 256 ≤ (m ++ (nacl.sign pool.sign m).val).length := by
    rw [List.length_append, length, signature, Wire.sig]
    omega
  have cut : (m ++ (nacl.sign pool.sign m).val).length - 64 = m.length := by
    rw [List.length_append, signature, Wire.sig]
    omega
  have key : (m.drop 160).take 32 = (nacl.boxPk s.sessionKey.bx).val := by
    have front : (s.hello.identitySignPk.val ++ s.hello.identityBoxPk.val ++ s.hello.sessionSignPk.val ++
        s.hello.sessionBoxPk.val ++ (nacl.signPk s.sessionKey.sign).val).length = 160 := by
      simp only [List.length_append, s.hello.identitySignPk.property, s.hello.identityBoxPk.property,
        s.hello.sessionSignPk.property, s.hello.sessionBoxPk.property, (nacl.signPk s.sessionKey.sign).property]
      rfl
    rw [← body_eq, Wire.serverHelloBody, List.append_assoc, List.append_assoc, List.drop_left' front]
    exact List.take_left' (nacl.boxPk s.sessionKey.bx).property
  have opened : nacl.openSealed x (Wire.buildServerHello nacl pool s.sessionKey s.hello policy.motd ephemeral) =
      some (m ++ (nacl.sign pool.sign m).val) := by
    rw [Wire.buildServerHello, own, body_eq]
    exact lawful.unseals x ephemeral _
  have secret : (generateKeys nacl ed x).xSk = x := rfl
  simp only [takeReply, secret, opened, Option.bind_eq_bind, Option.bind_some,
    dif_pos long, cut, List.take_left, List.drop_left, lawful.verifies, if_true, key]
  rfl

/-- The keys a gateway goes on with after the reply are those of the session the pool made of its hello. -/
theorem inStep_afterReply (lawful : nacl.Lawful) (pool sessionKey : Identity)
    (keys : SessionKeys) (ed x : Fixed 32) (version : String) (draw : HelloDraw)
    (policy : HelloPolicy) (ephemeral : Fixed 32) {s : SecureSession}
    (started : SecureSession.ofHello nacl sessionKey (helloOf keys (generateKeys nacl ed x) version draw) = s) :
    InStep nacl
      ((ChannelKeys.forClientAfterHello draw.nk (nacl.signPk ed)).nextRecvHdr.2.setPrecomp
        (nacl.boxPk s.sessionKey.bx) x)
      { s with sendKeys := (s.reply nacl pool policy ephemeral).2 } := by
  subst started
  exact ⟨rfl, rfl, congrArg Prod.fst (deriveNonces_eq draw.nk (nacl.signPk ed)),
    congrArg Prod.snd (deriveNonces_eq draw.nk (nacl.signPk ed)), lawful.shared sessionKey.bx x⟩

/-- A gateway whose keys can sign and whose build is let in has a session with the pool it is configured for:
the pool reads its hello as it was meant, it takes up the pool's reply, and the two are in step. -/
theorem session_opens (lawful : nacl.Lawful) (matched : keys.Matched nacl)
    (pool sessionKey : Identity) (ed x : Fixed 32)
    (named : 0 ∉ Utf8.bytes version) (short : (Utf8.bytes version).length ≤ Wire.maxUserAgent)
    (policy : HelloPolicy)
    (places : policy.requireSplitGateway = true → Wire.isSplitGateway version = true)
    (welcome : policy.quarantined keys.edPk = false) (draw : HelloDraw)
    (ephemeral : Fixed 32) (behind after : Bytes) :
    let session := generateKeys nacl ed x
    ∃ hello ch reply s hdr payload ch',
      encodeClientHello nacl keys session (nacl.boxPk pool.bx) version draw = some (hello, ch) ∧
        SecureSession.run nacl pool sessionKey policy ephemeral (hello ++ behind) = (reply, .ok (s, behind)) ∧
        s.hello = helloOf keys session version draw ∧
        readWhole ch.recvHdr (reply ++ after) = some (hdr, payload, after) ∧
        takeReply nacl (nacl.signPk pool.sign) session ch payload = some ch' ∧ InStep nacl ch' s := by
  intro session
  obtain ⟨hello, sent, accepted⟩ :=
    @run_hello nacl keys session version draw lawful matched pool sessionKey
      named short policy places welcome ephemeral behind
  generalize started : SecureSession.ofHello nacl sessionKey (helloOf keys session version draw) = s at accepted
  have own : s.hello.sessionBoxPk = nacl.boxPk x := by rw [← started]; rfl
  have size := lawful.sealSize s.hello.sessionBoxPk ephemeral
    (Wire.serverHelloBody nacl s.sessionKey s.hello policy.motd ++
    (nacl.sign pool.sign (Wire.serverHelloBody nacl s.sessionKey s.hello policy.motd)).val)
  simp only [List.length_append, Wire.length_serverHelloBody, (nacl.sign pool.sign _).property,
    Wire.sealOverhead, Wire.mac, Wire.sig, Wire.maxMotd] at size
  have fits : Frame.Fits
      { cmd := Primed.Command.helloReply.code, signed := true, isSealed := true
        payload := Wire.buildServerHello nacl pool s.sessionKey s.hello policy.motd ephemeral } := by
    refine ⟨?_, by change (2 : UInt8).toNat < 32; decide⟩
    change (nacl.sealTo _ _ _).length < 2 ^ 22
    omega
  obtain ⟨hdr, read, _⟩ := readWhole_writeFrame fits s.sendKeys after
  have inStep := inStep_afterReply lawful pool sessionKey keys ed x version draw policy ephemeral started
  refine ⟨hello, _, _, _, hdr, _, _, sent, accepted, ?_, ?_,
    takeReply_server lawful pool own policy ephemeral _, ?_⟩
  · rw [← started]
    rfl
  · rw [← started] at read ⊢
    exact read
  · exact inStep

/-- The gateway's own build, to a pool that lets in no other. -/
theorem session_opens_splitGateway :
    let keys := generateKeys Wire.plainNacl (.ofNat 32 7) (.ofNat 32 8)
    let pool : Identity := ⟨.ofNat 32 1, .ofNat 32 2⟩
    let policy : HelloPolicy := ⟨true, fun _ => false, "Lazarus"⟩
    let draw : HelloDraw := ⟨5, 3, 9, .ofNat 32 4⟩
    let session := generateKeys Wire.plainNacl (.ofNat 32 5) (.ofNat 32 6)
    ∃ hello ch reply s hdr payload ch',
      encodeClientHello Wire.plainNacl keys session (Wire.plainNacl.boxPk pool.bx) splitGatewayUa draw =
        some (hello, ch) ∧ SecureSession.run Wire.plainNacl pool ⟨.ofNat 32 3, .ofNat 32 9⟩
        policy (.ofNat 32 1) (hello ++ [1]) = (reply, .ok (s, [1])) ∧
        s.hello = helloOf keys session splitGatewayUa draw ∧
        readWhole ch.recvHdr (reply ++ []) = some (hdr, payload, []) ∧
        takeReply Wire.plainNacl (Wire.plainNacl.signPk pool.sign) session ch payload = some ch' ∧
        InStep Wire.plainNacl ch' s :=
  session_opens Wire.plainNacl_lawful (generateKeys_matched _ _ _) _ _
    _ _ (by decide) (by decide) _ (by decide) rfl _ _ _ _

end Handshake

end Lazarus.Gateway
