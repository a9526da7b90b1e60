import Lazarus.Gateway.Connect

/-! A session as both its ends run it, over the two streams of bytes between them. Either end sends when
it likes; the pool reads pieces of any size, the gateway a frame at a time, of which no byte may be
late. Where none is, what each has of the other's messages is what was sent, in the order it was sent
in, and none of it twice. -/

namespace Lazarus.Gateway

open Wire (Bytes Fixed Nacl Nonce SalsaBox Identity Channel bumpNonce)
open Primed (Frame Receiver Ended SecureSession writeFrame writeFrames maxIdleFrame)

/-- A message of the pool: the command its frame has, and whether it is signed. -/
structure Post where
  cmd : UInt8
  signed : Bool
  plain : Bytes
deriving DecidableEq

/-- A session of a gateway and the pool, with what is on its way between them. The four lists are what has been
sent and what has come, each way. -/
structure Link where
  gateway : ChannelKeys
  receiver : Receiver
  channel : Channel
  sendKeys : Wire.KeyStream
  up : Bytes := []
  down : Bytes := []
  sentUp : List Bytes := []
  gotUp : List Bytes := []
  sentDown : List Post := []
  gotDown : List (UInt8 × Bytes) := []

/-- What may happen next. Where the gateway reads, `pause` is how many bytes come before it waits in vain for
the next one, if it does. -/
inductive Event where
  | gatewaySends (body : Bytes)
  | primeReads (more : Nat)
  | primeSends (plain : Bytes) (signed : Bool)
  | primeKeepsAlive
  | gatewayReads (pause : Option Nat)

/-- What the two ends of a session are given. `cap` is the pool's limit for the frame of each number. -/
structure Terms where
  nacl : Nacl
  sessionKey : Identity
  clientSessionSignPk : Fixed Wire.signPk
  cap : Nat → Nat

namespace Link

/-- Send a frame down. -/
def post (l : Link) (message : Post) (sent : Frame × Channel) : Link :=
  { l with
    channel := sent.2
    sendKeys := (writeFrame sent.1 l.sendKeys).2
    down := l.down ++ (writeFrame sent.1 l.sendKeys).1
    sentDown := l.sentDown ++ [message] }

/-- What the gateway finds on the way, and what comes late. -/
def cut (l : Link) : Option Nat → Bytes × Bytes
  | none => (l.down, [])
  | some n => (l.down.take n, l.down.drop n)

/-- One event. A read finds what has come so far. What the gateway has of a header when its wait is over is
gone, and the session goes on; in a payload the session ends. -/
def step (t : Terms) (l : Link) : Event → Except Ended Link
  | .gatewaySends body =>
    let (packet, gateway) := wrapMining t.nacl l.gateway body none
    .ok { l with gateway, up := l.up ++ packet, sentUp := l.sentUp ++ [body] }
  | .primeReads more =>
    match l.up with
    | [] => .ok l
    | first :: rest =>
      match l.receiver.serve t.cap (.read first (rest.take more)) with
      | .error stop => .error (.stopped stop)
      | .ok receiver =>
        match SecureSession.handleAll t.nacl t.clientSessionSignPk
          (receiver.handled.drop l.receiver.handled.length) l.channel with
        | .error e => .error e
        | .ok (bodies, channel) =>
          .ok { l with receiver, channel, up := rest.drop more, gotUp := l.gotUp ++ bodies }
  | .primeSends plain signed =>
    .ok
      (l.post ⟨Primed.Command.mining.code, signed, plain⟩
        (SecureSession.sendMining t.nacl t.sessionKey l.channel plain signed))
  | .primeKeepsAlive =>
    .ok (l.post ⟨Primed.Command.hello.code, false, []⟩ (SecureSession.keepaliveFrame l.channel))
  | .gatewayReads pause =>
    let (come, late) := l.cut pause
    if come.length < 4 then .ok { l with down := late }
    else
      match readWhole l.gateway.recvHdr come with
      | none => .error .closed
      | some (hdr, payload, rest) =>
        match openFrame t.nacl l.gateway hdr payload none with
        | (none, _) => .error .closed
        | (some (h, plain), gateway) =>
          .ok { l with gateway, down := rest ++ late, gotDown := l.gotDown ++ [(h.protoCmd, plain)] }

def run (t : Terms) (l : Link) (events : List Event) : Except Ended Link := events.foldlM (step t) l

/-- The link as the handshake leaves it. -/
def opened (ch : ChannelKeys) (s : SecureSession) : Link where
  gateway := ch
  receiver := { keys := s.recvKeys }
  channel := s.channel
  sendKeys := s.sendKeys

end Link

/-- A pause in what the gateway reads falls before a frame or after it. -/
def Event.Whole (l : Link) : Event → Prop
  | .gatewayReads (some n) => l.down.take n = [] ∨ (readWhole l.gateway.recvHdr (l.down.take n)).isSome = true
  | _ => True

/-- No frame is broken by a pause all along a run. -/
def Link.Unbroken (t : Terms) : Link → List Event → Prop
  | _, [] => True
  | l, e :: rest => e.Whole l ∧ ∀ l', l.step t e = .ok l' → l'.Unbroken t rest

/-- A read in time, or one that finds nothing. -/
def Event.Timely : Event → Prop
  | .gatewayReads (some n) => n = 0
  | _ => True

theorem Link.Unbroken.of_timely {t : Terms} {l : Link} {events : List Event} (timely : ∀ e ∈ events, e.Timely) :
    l.Unbroken t events := by
  induction events generalizing l with
  | nil => trivial
  | cons e rest ih =>
    obtain ⟨here, timely⟩ := List.forall_mem_cons.mp timely
    refine ⟨?_, fun l' _ => ih timely⟩
    cases e with
    | gatewayReads pause =>
      cases pause with
      | none => trivial
      | some n =>
        obtain rfl : n = 0 := here
        exact .inl rfl
    | _ => trivial

private theorem readWhole_append {key : UInt32} {come payload rest : Bytes} {hdr : Fixed 4}
    (whole : readWhole key come = some (hdr, payload, rest)) (late : Bytes) :
    4 ≤ come.length ∧ readWhole key (come ++ late) = some (hdr, payload, rest ++ late) := by
  unfold readWhole at whole ⊢
  split at whole
  · rename_i enough
    refine ⟨enough, ?_⟩
    have front : (come ++ late).take 4 = come.take 4 := List.take_append_of_le_length enough
    have back : (come ++ late).drop 4 = come.drop 4 ++ late := List.drop_append_of_le_length enough
    rw [dif_pos (by rw [List.length_append]; omega)]
    simp only [front, back] at whole ⊢
    split at whole
    · cases whole
    · rename_i full
      simp only [Option.some.injEq, Prod.mk.injEq] at whole
      obtain ⟨rfl, rfl, rfl⟩ := whole
      have long := Nat.le_of_not_lt full
      rw [if_neg (by rw [List.length_append]; omega)]
      simp only [List.take_append_of_le_length long, List.drop_append_of_le_length long]
  · cases whole

/-- What a session is given, by the hello it began with. -/
def termsOf (nacl : Nacl) (s : SecureSession) (cap : Nat → Nat) : Terms where
  nacl
  sessionKey := s.sessionKey
  clientSessionSignPk := s.hello.sessionSignPk
  cap

/-- A message that fits the largest frame the other end takes. -/
def Event.Fits : Event → Prop
  | .gatewaySends body => body.length + Wire.mac ≤ maxIdleFrame
  | .primeSends plain _ => plain.length + Wire.sig + Wire.mac < 2 ^ 22
  | _ => True

/-- The mining message an event has the gateway send. -/
def Event.body : Event → Option Bytes
  | .gatewaySends body => some body
  | _ => none

/-- The message an event has the pool send. -/
def Event.post : Event → Option Post
  | .primeSends plain signed => some ⟨Primed.Command.mining.code, signed, plain⟩
  | .primeKeepsAlive => some ⟨Primed.Command.hello.code, false, []⟩
  | _ => none

/-- What is encrypted of a message. -/
def Post.text (nacl : Nacl) (secret : Fixed 32) (p : Post) : Bytes :=
  if p.signed then p.plain ++ (nacl.sign secret p.plain).val else p.plain

/-- A letter is what one frame on the channel holds. -/
structure Letter where
  cmd : UInt8
  signed : Bool
  text : Bytes

namespace Letter

def frame (bx : SalsaBox) (nonce : Nonce) (l : Letter) : Frame where
  cmd := l.cmd
  signed := l.signed
  channel := true
  payload := bx.encrypt nonce l.text

/-- The frames of letters, each under the nonce after that of the one before. -/
def frames (bx : SalsaBox) : Nonce → List Letter → List Frame
  | _, [] => []
  | nonce, l :: rest => l.frame bx nonce :: frames bx (bumpNonce nonce) rest

/-- The letter of a message from the gateway. -/
def up (body : Bytes) : Letter := ⟨Primed.Command.mining.code, false, body⟩

/-- The letter of a message from the pool. -/
def down (nacl : Nacl) (secret : Fixed 32) (p : Post) : Letter := ⟨p.cmd, p.signed, p.text nacl secret⟩

variable {bx : SalsaBox} {nonce : Nonce} {letters : List Letter}

theorem frames_concat (last : Letter) :
    frames bx nonce (letters ++ [last]) = frames bx nonce letters ++
      [last.frame bx (bumpNonce^[letters.length] nonce)] := by
  induction letters generalizing nonce with
  | nil => rfl
  | cons l rest ih =>
    rw [List.cons_append, frames, ih]
    rfl

/-- Some of the frames, from the front, are those of as many letters. -/
theorem frames_split {done rest : List Frame} (parts : frames bx nonce letters = done ++ rest) :
    ∃ front back, letters = front ++ back ∧ done = frames bx nonce front ∧
      rest = frames bx (bumpNonce^[front.length] nonce) back := by
  induction done generalizing nonce letters with
  | nil => exact ⟨[], letters, rfl, rfl, parts.symm⟩
  | cons f done ih =>
    cases letters with
    | nil => cases parts
    | cons l letters =>
      rw [frames, List.cons_append, List.cons.injEq] at parts
      obtain ⟨rfl, later⟩ := parts
      obtain ⟨front, back, rfl, rfl, rfl⟩ := ih later
      exact ⟨l :: front, back, rfl, rfl, rfl⟩

theorem mem_frames {f : Frame} (member : f ∈ frames bx nonce letters) :
    ∃ l ∈ letters, ∃ n, f = l.frame bx n := by
  induction letters generalizing nonce with
  | nil => cases member
  | cons l rest ih =>
    rcases List.mem_cons.mp member with rfl | later
    · exact ⟨l, List.mem_cons_self, nonce, rfl⟩
    · obtain ⟨l', among, n, same⟩ := ih later
      exact ⟨l', List.mem_cons_of_mem _ among, n, same⟩

end Letter

section Ends

variable {nacl : Nacl} {ch : ChannelKeys} {nonce : Nonce} {bx : SalsaBox}

private theorem wrapMining_eq {ch : ChannelKeys} (same : nacl.precompute ch.remoteX ch.localX = bx)
    (body : Bytes) : wrapMining nacl ch body none =
      ((writeFrame ((Letter.up body).frame bx ch.sendNonce) ch.sendHdr).1,
        { ch with sendNonce := bumpNonce ch.sendNonce, sendHdr := Wire.feedback ch.sendHdr }) := by
  simp only [wrapMining, ChannelKeys.sealChannel, ChannelKeys.nextSendHdr,
    encodeObfuscated_eq, incrementNonce_eq, headerXorFeedback_eq, same]
  rfl

private theorem decryptInPlace_encrypt {channel : Channel} (lawful : channel.bx.Lawful) (plain : Bytes) :
    channel.decryptInPlace (channel.bx.encrypt channel.recvNonce plain) =
      (.ok plain, { channel with recvNonce := bumpNonce channel.recvNonce }) := by
  have long : ¬ (channel.bx.encrypt channel.recvNonce plain).length < Wire.mac := by
    rw [lawful.size]
    omega
  rw [Channel.decryptInPlace, if_neg long, lawful.opens]

private theorem openChannel_eq {ch : ChannelKeys} (same : nacl.precompute ch.remoteX ch.localX = bx)
    (lawful : bx.Lawful) (plain : Bytes) : ch.openChannel nacl (bx.encrypt ch.recvNonce plain) =
    (some plain, { ch with recvNonce := bumpNonce ch.recvNonce }) := by
  have long : ¬ (bx.encrypt ch.recvNonce plain).length < Wire.mac := by
    rw [lawful.size]
    omega
  rw [ChannelKeys.openChannel, if_neg long, same, lawful.opens]
  dsimp only
  rw [incrementNonce_eq]

private theorem handleFrame_up (clientSessionSignPk : Fixed Wire.signPk)
    {channel : Channel} (lawful : channel.bx.Lawful) (body : Bytes) :
    SecureSession.handleFrame nacl clientSessionSignPk channel
      ((Letter.up body).frame channel.bx channel.recvNonce).header
        ((Letter.up body).frame channel.bx channel.recvNonce).payload =
      (.ok (some body), { channel with recvNonce := bumpNonce channel.recvNonce }) := by
  have opened := decryptInPlace_encrypt lawful body
  simp only [SecureSession.handleFrame, SecureSession.openBody, Frame.header,
    Letter.frame, Letter.up, opened, if_true, Bool.false_eq_true, if_false, Bool.not_true]

private theorem handleAll_up (clientSessionSignPk : Fixed Wire.signPk)
    {channel : Channel} (lawful : channel.bx.Lawful) (bodies : List Bytes) :
    SecureSession.handleAll nacl clientSessionSignPk
      (Receiver.sent (Letter.frames channel.bx channel.recvNonce (bodies.map Letter.up))) channel =
      .ok (bodies, { channel with recvNonce := bumpNonce^[bodies.length] channel.recvNonce }) := by
  induction bodies generalizing channel with
  | nil => rfl
  | cons body bodies ih =>
    have later := @ih { channel with recvNonce := bumpNonce channel.recvNonce } lawful
    rw [List.map_cons, Letter.frames, Receiver.sent, List.map_cons, SecureSession.handleAll,
      handleFrame_up _ lawful]
    dsimp only
    rw [Receiver.sent] at later
    rw [later]
    rfl

private theorem stripSignature_text (secret : Fixed 32) (p : Post) :
    (if p.signed then stripSignature nacl (p.text nacl secret) none else some (p.text nacl secret)) =
      some p.plain := by
  cases signed : p.signed with
  | false => simp only [Post.text, signed, Bool.false_eq_true, if_false]
  | true =>
    have tail := (nacl.sign secret p.plain).property
    have cut : (p.plain ++ (nacl.sign secret p.plain).val).length - 64 = p.plain.length := by
      rw [List.length_append, tail, Wire.sig, Nat.add_sub_cancel]
    have enough : ¬ (p.plain ++ (nacl.sign secret p.plain).val).length < 64 := by
      rw [List.length_append, tail, Wire.sig]
      omega
    simp only [Post.text, signed, stripSignature, if_true, if_neg enough, cut, List.take_left, Option.any_none,
      Bool.false_eq_true, if_false]

private theorem openFrame_down {ch : ChannelKeys} (same : nacl.precompute ch.remoteX ch.localX = bx)
    (lawful : bx.Lawful) (secret : Fixed 32) {p : Post}
    (fits : ((Letter.down nacl secret p).frame bx ch.recvNonce).Fits) {hdr : Fixed 4}
    (sent : hdr.val = (((Letter.down nacl secret p).frame bx ch.recvNonce).header.encode ch.recvHdr).1) :
    ∃ h : Header, openFrame nacl ch hdr ((Letter.down nacl secret p).frame bx ch.recvNonce).payload none =
      (some (h, p.plain),
        { ch with recvNonce := bumpNonce ch.recvNonce, recvHdr := Wire.feedback ch.recvHdr }) ∧
        h.protoCmd = p.cmd := by
  have len := Receiver.toNat_len_header fits
  have read := asPrime_decodeObfuscated (by rw [len]; exact fits.1) fits.2 sent
  generalize head : Header.decodeObfuscated hdr ch.recvHdr = h at read
  have size : ((Letter.down nacl secret p).frame bx ch.recvNonce).payload.length = h.cmdLen.toNat := by
    rw [← len, ← read]
    rfl
  have boxed : h.isEncryptedChannel = true := congrArg Wire.Header.channel read
  have signed : h.isSigned = p.signed := congrArg Wire.Header.signed read
  refine ⟨h, ?_, congrArg Wire.Header.cmd read⟩
  rw [openFrame, ChannelKeys.nextRecvHdr, headerXorFeedback_eq]
  generalize Wire.feedback ch.recvHdr = next
  have opened := @openChannel_eq nacl bx { ch with recvHdr := next } same lawful (p.text nacl secret)
  dsimp only at opened ⊢
  rw [head, if_neg (not_not.mpr size), if_pos boxed]
  have payload : ((Letter.down nacl secret p).frame bx ch.recvNonce).payload =
    bx.encrypt ch.recvNonce (p.text nacl secret) := rfl
  rw [payload, opened, signed]
  dsimp only
  rw [Option.bind_some, stripSignature_text]
  rfl

end Ends

section Streams

variable {frames : List Frame} {keys last : Wire.KeyStream} {coming : Bytes} {r : Receiver} {f : Frame}

private theorem writeFrames_concat (frames : List Frame) (f : Frame) (keys : Wire.KeyStream) :
    writeFrames (frames ++ [f]) keys =
      ((writeFrames frames keys).1 ++ (writeFrame f (writeFrames frames keys).2).1,
        (writeFrame f (writeFrames frames keys).2).2) := by
  induction frames generalizing keys with
  | nil => simp [writeFrames]
  | cons first rest ih => rw [List.cons_append, writeFrames, ih, writeFrames, List.append_assoc]

private theorem writeFrame_snd (f : Frame) (keys : Wire.KeyStream) :
    (writeFrame f keys).2 = Wire.feedback keys := rfl

private theorem owes_send (owes : r.Owes last coming frames) (f : Frame) :
    r.Owes (writeFrame f last).2 (coming ++ (writeFrame f last).1) (frames ++ [f]) := by
  cases owes with
  | plain _ fresh bytes on =>
    refine .plain _ fresh ?_ ?_
    · rw [← List.append_assoc, bytes, writeFrames_concat, on]
    · rw [writeFrames_concat, on]
  | headed g rest kept bytes on =>
    refine .headed g (rest ++ [f]) kept ?_ ?_
    · rw [← List.append_assoc, bytes, writeFrames_concat, on, List.append_assoc]
    · rw [writeFrames_concat, on]

end Streams

section Order

variable {t : Terms} {l : Link}

/-- What the gateway has sent is what the pool has, and behind it what is still on the way. -/
structure UpInOrder (t : Terms) (l : Link) (waiting : List Bytes) : Prop where
  sent : l.sentUp = l.gotUp ++ waiting
  owed : l.receiver.Owes l.gateway.sendHdr l.up
    (Letter.frames l.channel.bx l.channel.recvNonce (waiting.map Letter.up))
  nonce : l.gateway.sendNonce = bumpNonce^[waiting.length] l.channel.recvNonce
  short : ∀ body ∈ waiting, body.length + Wire.mac ≤ maxIdleFrame
  stuck : l.receiver.Stuck

/-- What the pool has sent is what the gateway has, and behind it what is still on the way. -/
structure DownInOrder (t : Terms) (l : Link) (waiting : List Post) : Prop where
  sent : l.sentDown.map (fun p => (p.cmd, p.plain)) = l.gotDown ++ waiting.map fun p => (p.cmd, p.plain)
  flying : writeFrames (Letter.frames l.channel.bx l.gateway.recvNonce
    (waiting.map (Letter.down t.nacl t.sessionKey.sign))) l.gateway.recvHdr = (l.down, l.sendKeys)
  nonce : l.channel.sendNonce = bumpNonce^[waiting.length] l.gateway.recvNonce
  short : ∀ p ∈ waiting, (p.text t.nacl t.sessionKey.sign).length + Wire.mac < 2 ^ 22 ∧ p.cmd.toNat < 32

/-- Both ends have the box of the session, and both directions are in order. -/
structure InOrder (t : Terms) (l : Link) : Prop where
  box : t.nacl.precompute l.gateway.remoteX l.gateway.localX = l.channel.bx
  lawful : l.channel.bx.Lawful
  up : ∃ waiting, UpInOrder t l waiting
  down : ∃ waiting, DownInOrder t l waiting

private theorem inOrder_opened {nacl : Nacl} (laws : nacl.Lawful) {ch : ChannelKeys}
    {s : SecureSession} (step : InStep nacl ch s)
    (cap : Nat → Nat) : InOrder (termsOf nacl s cap) (.opened ch s) where
  box := step.box
  lawful := by
    change s.channel.bx.Lawful
    rw [← step.box]
    exact laws.boxes _ _
  up := ⟨[], rfl, .plain [] rfl rfl step.headersUp.symm, step.noncesUp, by simp, Nat.succ_pos 3⟩
  down := by
    refine ⟨[], rfl, ?_, step.noncesDown.symm, by simp⟩
    change ([], ch.recvHdr) = ([], s.sendKeys)
    rw [step.headersDown]

theorem InOrder.gatewaySends (order : InOrder t l) {body : Bytes}
    (short : body.length + Wire.mac ≤ maxIdleFrame) :
    ∃ l', l.step t (.gatewaySends body) = .ok l' ∧ InOrder t l' := by
  obtain ⟨box, lawful, ⟨waiting, up⟩, ⟨posts, down⟩⟩ := order
  have owed := owes_send up.owed ((Letter.up body).frame l.channel.bx l.gateway.sendNonce)
  have more : Letter.frames l.channel.bx l.channel.recvNonce ((waiting ++ [body]).map Letter.up) =
      Letter.frames l.channel.bx l.channel.recvNonce (waiting.map Letter.up) ++
        [(Letter.up body).frame l.channel.bx l.gateway.sendNonce] := by
    rw [List.map_append, List.map_singleton, Letter.frames_concat, List.length_map, up.nonce]
  rw [← more, writeFrame_snd] at owed
  simp only [Link.step, wrapMining_eq box]
  refine ⟨_, rfl, box, lawful, ⟨waiting ++ [body], ?_, owed, ?_, ?_, up.stuck⟩,
    ⟨posts, down.sent, down.flying, down.nonce, down.short⟩⟩
  · rw [up.sent, List.append_assoc]
  · rw [List.length_append, List.length_singleton, Function.iterate_succ_apply', up.nonce]
  · intro other among
    rcases List.mem_append.mp among with before | last
    · exact up.short other before
    · rw [List.mem_singleton.mp last]
      exact short

/-- The frames of what is on the way fit their headers, and are within the limit the pool holds them to. -/
theorem UpInOrder.fits {waiting : List Bytes} (up : UpInOrder t l waiting) (lawful : l.channel.bx.Lawful) :
    ∀ f ∈ Letter.frames l.channel.bx l.channel.recvNonce (waiting.map Letter.up),
      f.Fits ∧ f.payload.length ≤ maxIdleFrame := by
  intro f among
  obtain ⟨letter, written, n, rfl⟩ := Letter.mem_frames among
  obtain ⟨body, waits, rfl⟩ := List.mem_map.mp written
  have short := up.short body waits
  have size : ((Letter.up body).frame l.channel.bx n).payload.length = Wire.mac + body.length :=
    lawful.size n body
  have small : maxIdleFrame < 2 ^ 22 := by decide
  refine ⟨⟨by omega, ?_⟩, by omega⟩
  change (5 : UInt8).toNat < 32
  decide

theorem InOrder.primeReads (order : InOrder t l) (roomy : ∀ k, maxIdleFrame ≤ t.cap k) (more : Nat) :
    ∃ l', l.step t (.primeReads more) = .ok l' ∧ InOrder t l' := by
  obtain ⟨box, lawful, ⟨waiting, up⟩, ⟨posts, down⟩⟩ := order
  cases flying : l.up with
  | nil =>
    refine ⟨l, ?_, ⟨box, lawful, ⟨waiting, up⟩, ⟨posts, down⟩⟩⟩
    simp only [Link.step, flying]
  | cons first rest =>
    have parts : l.up = (Receiver.Turn.read first (rest.take more)).chunk ++ rest.drop more := by
      rw [flying, Receiver.Turn.chunk, List.cons_append, List.take_append_drop]
    have owed := up.owed
    rw [parts] at owed
    have capped :
        l.receiver.Capped t.cap (Letter.frames l.channel.bx l.channel.recvNonce (waiting.map Letter.up)) := by
      intro k f found
      exact (up.fits lawful f (List.mem_of_getElem? found)).2.trans (roomy _)
    obtain ⟨done, later, receiver, split, served, owes, handled, stuck⟩ :=
      Receiver.serve_spec _ up.stuck owed (fun f among => (up.fits lawful f among).1) capped
    obtain ⟨front, back, letters, rfl, rfl⟩ := Letter.frames_split split
    obtain ⟨bodies, left, rfl, rfl, rfl⟩ := List.map_eq_append_iff.mp letters
    have fresh : receiver.handled.drop l.receiver.handled.length =
        Receiver.sent (Letter.frames l.channel.bx l.channel.recvNonce (bodies.map Letter.up)) := by
      rw [handled, List.drop_left]
    have read := @handleAll_up t.nacl t.clientSessionSignPk l.channel lawful bodies
    rw [← fresh] at read
    rw [List.length_map] at owes
    simp only [Link.step, flying, served, read]
    refine ⟨_, rfl, box, lawful, ⟨left, ?_, owes, ?_, ?_, stuck⟩,
      ⟨posts, down.sent, down.flying, down.nonce, down.short⟩⟩
    · rw [up.sent, List.append_assoc]
    · rw [up.nonce, List.length_append, Nat.add_comm, Function.iterate_add_apply]
    · exact fun body among => up.short body (List.mem_append_right _ among)

/-- Whatever frame the pool sends is one more on the way. -/
theorem InOrder.post (order : InOrder t l) {p : Post}
    (short : (p.text t.nacl t.sessionKey.sign).length + Wire.mac < 2 ^ 22 ∧ p.cmd.toNat < 32)
    {sent : Frame × Channel}
    (written : sent = ((Letter.down t.nacl t.sessionKey.sign p).frame l.channel.bx l.channel.sendNonce,
      { l.channel with sendNonce := bumpNonce l.channel.sendNonce })) : InOrder t (l.post p sent) := by
  obtain ⟨box, lawful, ⟨waiting, up⟩, ⟨posts, down⟩⟩ := order
  subst written
  have flying := writeFrames_concat (Letter.frames l.channel.bx l.gateway.recvNonce
    (posts.map (Letter.down t.nacl t.sessionKey.sign)))
    ((Letter.down t.nacl t.sessionKey.sign p).frame l.channel.bx l.channel.sendNonce) l.gateway.recvHdr
  have more :
    Letter.frames l.channel.bx l.gateway.recvNonce ((posts ++ [p]).map (Letter.down t.nacl t.sessionKey.sign)) =
      Letter.frames l.channel.bx l.gateway.recvNonce (posts.map (Letter.down t.nacl t.sessionKey.sign)) ++
        [(Letter.down t.nacl t.sessionKey.sign p).frame l.channel.bx l.channel.sendNonce] := by
    rw [List.map_append, List.map_singleton, Letter.frames_concat, List.length_map, down.nonce]
  rw [← more, down.flying] at flying
  refine ⟨box, lawful, ⟨waiting, up.sent, up.owed, up.nonce, up.short, up.stuck⟩,
    ⟨posts ++ [p], ?_, flying, ?_, ?_⟩⟩
  · change (l.sentDown ++ [p]).map _ = l.gotDown ++ _
    rw [List.map_append, down.sent, List.map_append, List.append_assoc]
  · change bumpNonce l.channel.sendNonce = bumpNonce^[(posts ++ [p]).length] l.gateway.recvNonce
    rw [List.length_append, List.length_singleton, Function.iterate_succ_apply', down.nonce]
  · intro other among
    rcases List.mem_append.mp among with before | last
    · exact down.short other before
    · rw [List.mem_singleton.mp last]
      exact short

theorem Link.cut_append (l : Link) (pause : Option Nat) : (l.cut pause).1 ++ (l.cut pause).2 = l.down := by
  cases pause with
  | none => exact List.append_nil _
  | some n => exact List.take_append_drop n l.down

theorem InOrder.gatewayReads (order : InOrder t l) {pause : Option Nat}
    (whole : (Event.gatewayReads pause).Whole l) :
    ∃ l', l.step t (.gatewayReads pause) = .ok l' ∧ InOrder t l' := by
  obtain ⟨box, lawful, ⟨waiting, up⟩, ⟨posts, down⟩⟩ := order
  have parts := l.cut_append pause
  by_cases nothing : (l.cut pause).1 = []
  · have same : (l.cut pause).2 = l.down := by rw [← parts, nothing, List.nil_append]
    refine ⟨l, ?_, ⟨box, lawful, ⟨waiting, up⟩, ⟨posts, down⟩⟩⟩
    simp only [Link.step, nothing, same, List.length_nil, show 0 < 4 by decide, if_true]
  cases posts with
  | nil =>
    have empty : l.down = [] := (congrArg Prod.fst down.flying).symm
    rw [empty] at parts
    exact absurd (List.append_eq_nil_iff.mp parts).1 nothing
  | cons p posts =>
    obtain ⟨small, known⟩ := down.short p List.mem_cons_self
    have fits : ((Letter.down t.nacl t.sessionKey.sign p).frame l.channel.bx l.gateway.recvNonce).Fits := by
      refine ⟨?_, known⟩
      change (l.channel.bx.encrypt _ _).length < _
      rw [lawful.size]
      change Wire.mac + (p.text t.nacl t.sessionKey.sign).length < _
      omega
    have flying := down.flying
    rw [List.map_cons, Letter.frames, writeFrames, writeFrame_snd, Prod.mk.injEq] at flying
    obtain ⟨bytes, keys⟩ := flying
    generalize later : Letter.frames l.channel.bx (bumpNonce l.gateway.recvNonce)
      (posts.map (Letter.down t.nacl t.sessionKey.sign)) = frames at bytes keys
    obtain ⟨hdr, read, sent⟩ :=
      readWhole_writeFrame fits l.gateway.recvHdr (writeFrames frames (Wire.feedback l.gateway.recvHdr)).1
    rw [bytes] at read
    -- what has come of the frame is all of it
    have come : ∃ found, readWhole l.gateway.recvHdr (l.cut pause).1 = some found := by
      cases pause with
      | none => exact ⟨_, read⟩
      | some n => exact Option.isSome_iff_exists.mp (whole.resolve_left nothing)
    obtain ⟨⟨hdr', payload, rest⟩, come⟩ := come
    obtain ⟨enough, again⟩ := readWhole_append come (l.cut pause).2
    rw [parts, read, Option.some.injEq, Prod.mk.injEq, Prod.mk.injEq] at again
    obtain ⟨rfl, rfl, rest'⟩ := again
    obtain ⟨h, opened, cmd⟩ := openFrame_down box lawful t.sessionKey.sign fits sent
    simp only [Link.step, if_neg (Nat.not_lt.mpr enough), come, opened, ← rest']
    refine ⟨_, rfl, box, lawful, ⟨waiting, up.sent, up.owed, up.nonce, up.short, up.stuck⟩,
      ⟨posts, ?_, ?_, ?_, ?_⟩⟩
    · rw [down.sent, List.map_cons, cmd, List.append_assoc]
      rfl
    · rw [later, ← keys]
    · rw [down.nonce, List.length_cons, Function.iterate_succ_apply]
    · exact fun q among => down.short q (List.mem_cons_of_mem p among)

/-- No event that fits breaks the session or its order. -/
theorem InOrder.step (order : InOrder t l) (roomy : ∀ k, maxIdleFrame ≤ t.cap k) {e : Event} (fits : e.Fits)
    (whole : e.Whole l) :
    ∃ l', l.step t e = .ok l' ∧ InOrder t l' := by
  cases e with
  | gatewaySends body => exact order.gatewaySends fits
  | primeReads more => exact order.primeReads roomy more
  | gatewayReads pause => exact order.gatewayReads whole
  | primeKeepsAlive =>
    refine ⟨_, rfl, order.post ?_ rfl⟩
    change ([] : Bytes).length + Wire.mac < 2 ^ 22 ∧ (1 : UInt8).toNat < 32
    decide
  | primeSends plain signed =>
    refine ⟨_, rfl, order.post ?_ rfl⟩
    change plain.length + Wire.sig + Wire.mac < 2 ^ 22 at fits
    refine ⟨?_, by change (5 : UInt8).toNat < 32; decide⟩
    cases signed with
    | false =>
      change plain.length + Wire.mac < _
      omega
    | true =>
      change (plain ++ (t.nacl.sign t.sessionKey.sign plain).val).length + Wire.mac < _
      rw [List.length_append, (t.nacl.sign t.sessionKey.sign plain).property]
      exact fits

private theorem sentUp_step {e : Event} {l' : Link} (stepped : l.step t e = .ok l') :
    l'.sentUp = l.sentUp ++ e.body.toList ∧ l'.sentDown = l.sentDown ++ e.post.toList := by
  cases e with
  | gatewaySends body =>
    cases stepped
    exact ⟨rfl, (List.append_nil _).symm⟩
  | primeSends plain signed =>
    cases stepped
    exact ⟨(List.append_nil _).symm, rfl⟩
  | primeKeepsAlive =>
    cases stepped
    exact ⟨(List.append_nil _).symm, rfl⟩
  | primeReads more =>
    simp only [Link.step] at stepped
    split at stepped
    · cases stepped
      exact ⟨(List.append_nil _).symm, (List.append_nil _).symm⟩
    · split at stepped
      · cases stepped
      · split at stepped
        · cases stepped
        · cases stepped
          exact ⟨(List.append_nil _).symm, (List.append_nil _).symm⟩
  | gatewayReads pause =>
    simp only [Link.step] at stepped
    split at stepped
    · cases stepped
      exact ⟨(List.append_nil _).symm, (List.append_nil _).symm⟩
    · split at stepped
      · cases stepped
      · split at stepped
        · cases stepped
        · cases stepped
          exact ⟨(List.append_nil _).symm, (List.append_nil _).symm⟩

theorem InOrder.run (order : InOrder t l) (roomy : ∀ k, maxIdleFrame ≤ t.cap k) {events : List Event}
    (fits : ∀ e ∈ events, e.Fits) (unbroken : l.Unbroken t events) :
    ∃ l', l.run t events = .ok l' ∧ InOrder t l' ∧ l'.sentUp = l.sentUp ++ events.filterMap Event.body ∧
      l'.sentDown = l.sentDown ++ events.filterMap Event.post := by
  induction events generalizing l with
  | nil => exact ⟨l, rfl, order, (List.append_nil _).symm, (List.append_nil _).symm⟩
  | cons e events ih =>
    obtain ⟨whole, unbroken⟩ := unbroken
    obtain ⟨mid, stepped, order'⟩ := order.step roomy (fits e List.mem_cons_self) whole
    obtain ⟨l', ran, kept, ups, downs⟩ :=
      ih order' (fun e' among => fits e' (List.mem_cons_of_mem e among)) (unbroken mid stepped)
    obtain ⟨up, down⟩ := sentUp_step stepped
    refine ⟨l', ?_, kept, ?_, ?_⟩
    · rw [Link.run, List.foldlM_cons, stepped]
      exact ran
    · rw [ups, up, List.append_assoc]
      cases e <;> rfl
    · rw [downs, down, List.append_assoc]
      cases e <;> rfl

/-- With nothing on its way up, the pool has all that was sent. -/
theorem InOrder.drained_up (order : InOrder t l) (empty : l.up = []) : l.gotUp = l.sentUp := by
  obtain ⟨waiting, up⟩ := order.up
  have owed := up.owed
  rw [empty] at owed
  have none := (owed.done up.stuck fun f among => (up.fits order.lawful f among).1).1
  have nothing : waiting = [] := by
    cases waiting with
    | nil => rfl
    | cons body rest => cases none
  rw [up.sent, nothing, List.append_nil]

theorem InOrder.drained_down (order : InOrder t l) (empty : l.down = []) :
    l.gotDown = l.sentDown.map fun p => (p.cmd, p.plain) := by
  obtain ⟨waiting, down⟩ := order.down
  cases waiting with
  | nil => rw [down.sent, List.map_nil, List.append_nil]
  | cons p rest =>
    have flying := down.flying
    rw [empty, List.map_cons, Letter.frames, writeFrames, Prod.mk.injEq] at flying
    have size :=
      ((Letter.down t.nacl t.sessionKey.sign p).frame l.channel.bx l.gateway.recvNonce).header.length_encode
      l.gateway.recvHdr
    have short := congrArg List.length flying.1
    rw [writeFrame, List.length_append, List.length_append, size, Wire.Header.size, List.length_nil] at short
    omega

/-- Whatever the order of sending and reading, and however the bytes are cut, a session that was opened goes on
while no pause breaks a frame the gateway reads: each end has, in order and once each, what the other has sent
up to now, and all of it when nothing is on its way. -/
theorem session_in_order {nacl : Nacl} (laws : nacl.Lawful) {ch : ChannelKeys}
    {s : SecureSession} (inStep : InStep nacl ch s)
    {cap : Nat → Nat} (roomy : ∀ k, maxIdleFrame ≤ cap k) {events : List Event} (fits : ∀ e ∈ events, e.Fits)
    (unbroken : (Link.opened ch s).Unbroken (termsOf nacl s cap) events) :
    ∃ l, (Link.opened ch s).run (termsOf nacl s cap) events = .ok l ∧
      l.gotUp <+: events.filterMap Event.body ∧
      l.gotDown <+: (events.filterMap Event.post).map (fun p => (p.cmd, p.plain)) ∧
      (l.up = [] → l.gotUp = events.filterMap Event.body) ∧
      (l.down = [] → l.gotDown = (events.filterMap Event.post).map fun p => (p.cmd, p.plain)) := by
  obtain ⟨l, ran, order, ups, downs⟩ := (inOrder_opened laws inStep cap).run roomy fits unbroken
  have allUp : l.sentUp = events.filterMap Event.body := ups
  have allDown : l.sentDown = events.filterMap Event.post := downs
  obtain ⟨waitingUp, up⟩ := order.up
  obtain ⟨waitingDown, down⟩ := order.down
  refine ⟨l, ran, ⟨waitingUp, ?_⟩, ⟨waitingDown.map fun p => (p.cmd, p.plain), ?_⟩, ?_, ?_⟩
  · rw [← up.sent, allUp]
  · rw [← down.sent, allDown]
  · intro empty
    rw [order.drained_up empty, allUp]
  · intro empty
    rw [order.drained_down empty, allDown]

end Order

end Lazarus.Gateway
