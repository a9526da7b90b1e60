import Lazarus.Gateway.Link
import Lazarus.Gateway.Rescale
import Lazarus.Gateway.Sent

/-! What is said on a session: the shares and requests of a gateway as the pool parses them, and the pool's
messages as the gateway acts on them. -/

namespace Lazarus.Gateway

open LittleEndian
open Wire (Bytes Fixed Hash Output ClientMsg parseClient)
open Primed (maxIdleFrame)

/-- A message of the gateway. -/
inductive Said where
  | share (s : PowSubmit)
  | coinbaserRequest (value : UInt64) (prevhash : Hash)

namespace Said

def encode : Said → Bytes
  | share s => s.encode
  | coinbaserRequest value prevhash => 0x10 :: (bytes 8 value.toNat ++ prevhash.val ++ [structEnd])

/-- The message as the pool has it. -/
def parsed : Said → ClientMsg
  | share s => .pow s.received
  | coinbaserRequest value prevhash => .coinbaserRequest value prevhash

def Sendable : Said → Prop
  | share s => s.Sendable
  | coinbaserRequest _ _ => True

end Said

/-- A message of the pool on the mining channel. -/
inductive Told where
  | configureV1 (poolScript : Bytes) (primeId : UInt32) (tag : String) (vardiffMin : UInt64)
  | configureV3 (poolScript : Bytes) (primeId : UInt64) (resumeToken : Fixed Wire.resumeTokenLen)
      (tag : String) (vardiffMin : UInt64)
  | coinbaserReply (value : UInt64) (coinbaserV2 : Bytes)
  | shareReceipt (status : UInt8) (reason : UInt16) (nonce32 : UInt32) (targetPot jobId : UInt8)
  | requestShortIds (job : UInt8)
  | requestTransactions (job : UInt8) (indexes : List UInt16)
  | requestFullBlock (job : UInt8)
  | blockNotify

namespace Told

def subCoinbaserReply : UInt8 := 0x11

def subShareReceipt : UInt8 := 0x8F

def subConfigure : UInt8 := 0x99

def subBlockNotify : UInt8 := 0xF9

/-- Set in a configuration of the later layout. -/
def configFlagAbwDisabled : UInt8 := 0x01

def encode : Told → Bytes
  | configureV1 poolScript primeId tag vardiffMin =>
    [subConfigure, 1, UInt8.ofNat poolScript.length] ++ poolScript ++ bytes 4 primeId.toNat ++
      [UInt8.ofNat (Utf8.bytes tag).length] ++ Utf8.bytes tag ++ bytes 8 vardiffMin.toNat ++ [0, Wire.endMark]
  | configureV3 poolScript primeId resumeToken tag vardiffMin =>
    [subConfigure, 3, UInt8.ofNat poolScript.length] ++ poolScript ++ bytes 8 primeId.toNat ++
      resumeToken.val ++ [UInt8.ofNat (Utf8.bytes tag).length] ++ Utf8.bytes tag ++ bytes 8 vardiffMin.toNat ++
      [configFlagAbwDisabled, Wire.endMark]
  | coinbaserReply value coinbaserV2 =>
    subCoinbaserReply :: (bytes 8 value.toNat ++ bytes 4 coinbaserV2.length ++ coinbaserV2)
  | shareReceipt status reason nonce32 targetPot jobId =>
    [subShareReceipt, status] ++ bytes 2 reason.toNat ++ bytes 4 nonce32.toNat ++ [targetPot, jobId]
  | requestShortIds job => [Wire.subJobValidation, 0x10, job]
  | requestTransactions job indexes =>
    [Wire.subJobValidation, 0x11, job] ++ bytes 2 indexes.length ++ indexes.flatMap fun i => bytes 2 i.toNat
  | requestFullBlock job => [Wire.subJobValidation, 0x12, job]
  | blockNotify => [subBlockNotify]

end Told

/-- What a gateway makes of a session: the split it builds jobs on with the value it was asked about, and how
often it was told to fetch a template. -/
structure Heard where
  lastCb : Option (UInt64 × CoinbaserV2) := none
  kicks : Nat := 0
deriving DecidableEq

/-- Take up one message. A list that does not parse leaves the split as it is. -/
def Heard.hear (h : Heard) (plain : Bytes) : Heard :=
  if plain.head? = some Told.subCoinbaserReply ∧ 13 ≤ plain.length then
    let value := UInt64.ofNat (LittleEndian.value ((plain.drop 1).take 8))
    let n := LittleEndian.value ((plain.drop 9).take 4)
    if 13 + n ≤ plain.length then
      match parseCoinbaserV2 ((plain.drop 13).take n) with
      | some cb => { h with lastCb := some (value, cb) }
      | none => h
    else h
  else if plain.head? = some Told.subBlockNotify then { h with kicks := h.kicks + 1 }
  else h

/-- The split of a reply, by its value, its id and the list it was made of. -/
structure IssuedReply where
  value : UInt64
  id : UInt8
  outputs : List Output

namespace IssuedReply

/-- The reply carries its list whole. -/
def Fits (r : IssuedReply) : Prop := (∀ o ∈ r.outputs, o.Fits) ∧ r.outputs.length ≤ Wire.maxOutputs

def told (r : IssuedReply) : Told := .coinbaserReply r.value (Wire.encodeV2 r.id r.outputs)

/-- The split as the gateway holds it. -/
def held (r : IssuedReply) : UInt64 × CoinbaserV2 := (r.value, .ofIssued r.id r.outputs)

end IssuedReply

/-- What happens on a session, by what is said. -/
inductive Turn where
  | speaks (s : Said)
  | primeReads (more : Nat)
  | tells (t : Told)
  | replies (r : IssuedReply)
  | primeKeepsAlive
  | gatewayReads (pause : Option Nat)

namespace Told

/-- A configuration is signed, and nothing else is. -/
def signed : Told → Bool
  | configureV1 .. => true
  | configureV3 .. => true
  | _ => false

def isReply : Told → Bool
  | coinbaserReply .. => true
  | _ => false

end Told

namespace Turn

def event : Turn → Event
  | speaks s => .gatewaySends s.encode
  | primeReads more => .primeReads more
  | tells t => .primeSends t.encode t.signed
  | replies r => .primeSends r.told.encode false
  | primeKeepsAlive => .primeKeepsAlive
  | gatewayReads pause => .gatewayReads pause

/-- What the ends send is of a size they send. -/
def Fits : Turn → Prop
  | speaks s => s.Sendable
  | tells t => t.isReply = false ∧ t.encode.length < 2 ^ 21
  | replies r => r.Fits
  | _ => True

def said : Turn → Option Said
  | speaks s => some s
  | _ => none

def reply : Turn → Option IssuedReply
  | replies r => some r
  | _ => none

end Turn

section Hearing

private theorem length_outputs_le {list : List Output} (fits : ∀ o ∈ list, o.Fits) :
    (list.flatMap Output.encode).length ≤ 73 * list.length := by
  induction list with
  | nil => exact Nat.le_refl _
  | cons o rest ih =>
    obtain ⟨_, _, most⟩ := fits o List.mem_cons_self
    have later := ih fun other among => fits other (List.mem_cons_of_mem o among)
    have here : o.encode.length = 9 + o.script.length := by
      rw [Output.encode, List.length_append, length_bytes, List.length_cons]
      omega
    rw [Wire.maxScript] at most
    rw [List.flatMap_cons, List.length_append, List.length_cons, here]
    omega

private theorem length_encodeV2_le {r : IssuedReply} (fits : r.Fits) :
    (Wire.encodeV2 r.id r.outputs).length ≤ 37377 := by
  have size := length_outputs_le fits.1
  have few := fits.2
  rw [Wire.encodeV2, List.take_of_length_le few, List.length_cons]
  rw [Wire.maxOutputs] at few
  omega

private theorem hear_reply (h : Heard) {r : IssuedReply} (fits : r.Fits) :
    h.hear r.told.encode = { h with lastCb := some r.held } := by
  have small := length_encodeV2_le fits
  have list := parseCoinbaserV2_encodeV2 r.id fits.1 fits.2
  unfold IssuedReply.told
  generalize Wire.encodeV2 r.id r.outputs = blob at small list ⊢
  have shape : (Told.coinbaserReply r.value blob).encode =
      Told.subCoinbaserReply :: (bytes 8 r.value.toNat ++ (bytes 4 blob.length ++ blob)) := by
    simp [Told.encode]
  have eight : (bytes 8 r.value.toNat).length = 8 := length_bytes 8 _
  have four : (bytes 4 blob.length).length = 4 := length_bytes 4 _
  have first : ((Told.coinbaserReply r.value blob).encode.drop 1).take 8 = bytes 8 r.value.toNat := by
    rw [shape]
    exact List.take_left' eight
  have second : (Told.coinbaserReply r.value blob).encode.drop 9 = bytes 4 blob.length ++ blob := by
    rw [shape]
    exact List.drop_left' eight
  have third : (Told.coinbaserReply r.value blob).encode.drop 13 = blob := by
    have parts : (Told.coinbaserReply r.value blob).encode.drop 13 =
        ((Told.coinbaserReply r.value blob).encode.drop 9).drop 4 := by rw [List.drop_drop]
    rw [parts, second]
    exact List.drop_left' four
  have length : (Told.coinbaserReply r.value blob).encode.length = 13 + blob.length := by
    rw [shape, List.length_cons, List.length_append, List.length_append, eight, four]
    omega
  have value : UInt64.ofNat (LittleEndian.value (bytes 8 r.value.toNat)) = r.value := by
    rw [value_bytes, Nat.mod_eq_of_lt (show r.value.toNat < 256 ^ 8 from r.value.toNat_lt), UInt64.ofNat_toNat]
  have count : LittleEndian.value (bytes 4 blob.length) = blob.length := by
    rw [value_bytes]
    exact Nat.mod_eq_of_lt (by omega)
  have head : (Told.coinbaserReply r.value blob).encode.head? = some Told.subCoinbaserReply := rfl
  unfold Heard.hear
  rw [if_pos ⟨head, by omega⟩]
  dsimp only
  rw [first, second, third, List.take_left' four, value, count, length,
    if_pos (Nat.le_refl _), List.take_length, list]
  rfl

private theorem hear_other (h : Heard) {t : Told} (other : t.isReply = false) :
    (h.hear t.encode).lastCb = h.lastCb := by
  have away : t.encode.head? ≠ some Told.subCoinbaserReply := by
    cases t with
    | coinbaserReply value coinbaserV2 => cases other
    | _ => exact fun same => absurd (Option.some.inj same) (by decide)
  rw [Heard.hear, if_neg fun both => away both.1]
  split
  · rfl
  · rfl

private theorem prefix_filterMap {f : α → Option β} {xs : List α} {ys : List β}
    (front : ys <+: xs.filterMap f) : ∃ before, before <+: xs ∧ ys = before.filterMap f := by
  induction xs generalizing ys with
  | nil => exact ⟨[], List.prefix_rfl, List.prefix_nil.mp front⟩
  | cons x xs ih =>
    cases given : f x with
    | none =>
      rw [List.filterMap_cons_none given] at front
      obtain ⟨before, first, rfl⟩ := ih front
      exact ⟨x :: before, (List.prefix_cons_inj x).mpr first, (List.filterMap_cons_none given).symm⟩
    | some y =>
      rw [List.filterMap_cons_some given] at front
      cases ys with
      | nil => exact ⟨[], List.nil_prefix, rfl⟩
      | cons y' ys =>
        obtain ⟨rfl, more⟩ := List.cons_prefix_cons.mp front
        obtain ⟨before, first, rfl⟩ := ih more
        exact ⟨x :: before, (List.prefix_cons_inj x).mpr first, (List.filterMap_cons_some given).symm⟩

/-- The plain texts the pool sends in some turns. -/
def plains (turns : List Turn) : List Bytes := (turns.filterMap fun t => t.event.post).map Post.plain

private theorem heard_plains {turns : List Turn} (fits : ∀ t ∈ turns, t.Fits) (h : Heard) :
    ((plains turns).foldl Heard.hear h).lastCb =
      (turns.filterMap Turn.reply).getLast?.elim h.lastCb fun r => some r.held := by
  induction turns generalizing h with
  | nil => rfl
  | cons t turns ih =>
    have fit := fits t List.mem_cons_self
    have later := ih fun t' among => fits t' (List.mem_cons_of_mem t among)
    cases t with
    | speaks s => exact later h
    | primeReads more => exact later h
    | gatewayReads pause => exact later h
    | primeKeepsAlive => exact later h
    | tells t =>
      have same := later (h.hear t.encode)
      rw [hear_other h fit.1] at same
      exact same
    | replies r =>
      change ((plains turns).foldl Heard.hear (h.hear r.told.encode)).lastCb =
        (r :: turns.filterMap Turn.reply).getLast?.elim h.lastCb fun r => some r.held
      rw [hear_reply h fit, ih fun t' among => fits t' (List.mem_cons_of_mem _ among), List.getLast?_cons]
      cases (turns.filterMap Turn.reply).getLast? with
      | none => rfl
      | some last => rfl

end Hearing

section Saying

private theorem length_encode_le {s : PowSubmit} (sendable : s.Sendable) :
    s.encode.length + Wire.mac ≤ maxIdleFrame := by
  have job : (s.job.elim [] Wire.JobSection.encode).length ≤ 8229 := by
    cases found : s.job with
    | none => exact Nat.zero_le _
    | some j =>
      have few := sendable.branches j found
      have hashes : (j.merkleBranches.flatMap Subtype.val).length = 32 * j.merkleBranches.length := by
        induction j.merkleBranches with
        | nil => rfl
        | cons b rest ih => rw [List.flatMap_cons, List.length_append, b.property, ih, List.length_cons]; omega
      simp only [Option.elim_some, Wire.JobSection.encode, Wire.JobSection.body,
        List.length_cons, List.length_append, length_bytes, j.prevHash.property,
        j.nbits.property, List.length_nil, hashes]
      omega
  have coinbase : (s.coinbase.elim [] Wire.CoinbaseSection.encode).length ≤ 131076 := by
    cases found : s.coinbase with
    | none => exact Nat.zero_le _
    | some c =>
      obtain ⟨one, two⟩ := sendable.pieces c found
      simp only [Option.elim_some, Wire.CoinbaseSection.encode, Wire.CoinbaseSection.body, List.length_cons,
        List.length_append, length_bytes, List.length_nil]
      omega
  have blake2b :
    ((s.blake2b.map fun b => ({ ntime := b.siaNtime, nonce := b.siaNonce } : Wire.Blake2bSection)).elim []
      (·.encode (s.blake2b.map Blake2bSection.timeOnWire))).length ≤ 23 := by
    cases s.blake2b with
    | none => exact Nat.zero_le _
    | some b =>
      simp only [Option.map_some, Option.elim_some, Wire.Blake2bSection.encode,
        List.length_cons, List.length_append, b.siaNtime.property, b.siaNonce.property,
        length_bytes, List.length_nil]
      omega
  have short := sendable.short
  rw [Wire.maxUsername] at short
  rw [PowSubmit.encode_eq sendable, PowSubmit.body, PowSubmit.sections, maxIdleFrame, Wire.mac]
  simp only [List.length_cons, List.length_append, length_bytes, s.sentExtranonce.property,
    s.bare.reserved.property, List.length_nil]
  omega

private theorem parseClient_said {s : Said} (sendable : s.Sendable) : parseClient s.encode = .ok s.parsed := by
  cases s with
  | share s =>
    have read := PowSubmit.parseClient_encode sendable []
    rwa [List.append_nil] at read
  | coinbaserRequest value prevhash =>
    have reads :
      Wire.Parse.Reads Wire.readCoinbaserRequest (bytes 8 value.toNat ++ (prevhash.val ++ ([structEnd] ++ [])))
        (.coinbaserRequest value prevhash) := by
      refine (Wire.Parse.reads_u64 value).bind
        ((Wire.Parse.reads_array prevhash).bind ((Wire.Parse.reads_u8 _).bind ?_))
      exact Wire.Parse.Reads.pure _
    have whole := reads [] []
    rw [List.nil_append, List.append_nil, List.length_nil, List.append_nil, ← List.append_assoc] at whole
    rw [Said.encode, parseClient, if_pos (by rfl), whole]
    rfl

end Saying

section Conversation

variable {nacl : Wire.Nacl} {ch : ChannelKeys} {s : Primed.SecureSession} {cap : Nat → Nat} {turns : List Turn}

private theorem event_fits {t : Turn} (fits : t.Fits) : t.event.Fits := by
  cases t with
  | speaks said =>
    cases said with
    | share s => exact length_encode_le fits
    | coinbaserRequest value prevhash =>
      change (Said.coinbaserRequest value prevhash).encode.length + Wire.mac ≤ maxIdleFrame
      simp only [Said.encode, List.length_cons, List.length_append, length_bytes,
        prevhash.property, List.length_nil, maxIdleFrame, Wire.mac]
      omega
  | tells t =>
    have small := fits.2
    change t.encode.length + Wire.sig + Wire.mac < 2 ^ 22
    rw [Wire.sig, Wire.mac]
    omega
  | replies r =>
    have small := length_encodeV2_le fits
    change r.told.encode.length + Wire.sig + Wire.mac < 2 ^ 22
    simp only [IssuedReply.told, Told.encode, List.length_cons, List.length_append,
      length_bytes, Wire.sig, Wire.mac]
    omega
  | primeReads more => trivial
  | primeKeepsAlive => trivial
  | gatewayReads pause => trivial

/-- However the two ends take turns, and however their bytes are cut, while no pause breaks a frame of the
pool, it parses the gateway's shares and requests as they were meant, in their order and once each, and the
gateway builds on the last split of those that have come. With nothing on its way that is all of them, and
the last split issued. -/
theorem conversation_in_order (laws : nacl.Lawful) (inStep : InStep nacl ch s)
    (roomy : ∀ k, maxIdleFrame ≤ cap k) (fits : ∀ t ∈ turns, t.Fits)
    (unbroken : (Link.opened ch s).Unbroken (termsOf nacl s cap) (turns.map Turn.event)) :
    ∃ l, (Link.opened ch s).run (termsOf nacl s cap) (turns.map Turn.event) = .ok l ∧
      (∃ heard, heard <+: turns.filterMap Turn.said ∧
        l.gotUp.map parseClient = heard.map (fun m => .ok m.parsed) ∧
        (l.up = [] → heard = turns.filterMap Turn.said)) ∧
      ∃ come, come <+: turns.filterMap Turn.reply ∧
        ((l.gotDown.map Prod.snd).foldl Heard.hear {}).lastCb = come.getLast?.map IssuedReply.held ∧
        (l.down = [] → come = turns.filterMap Turn.reply) := by
  have eventsFit : ∀ e ∈ turns.map Turn.event, e.Fits := by
    intro e among
    obtain ⟨t, taken, rfl⟩ := List.mem_map.mp among
    exact event_fits (fits t taken)
  obtain ⟨l, ran, ups, downs, allUp, allDown⟩ := session_in_order laws inStep roomy eventsFit unbroken
  have bodies : (turns.map Turn.event).filterMap Event.body = (turns.filterMap Turn.said).map Said.encode := by
    rw [List.filterMap_map, List.map_filterMap]
    congr 1
    funext t
    cases t <;> rfl
  have posts : (turns.map Turn.event).filterMap Event.post = turns.filterMap fun t => t.event.post :=
    List.filterMap_map
  rw [bodies] at ups allUp
  rw [posts] at downs allDown
  refine ⟨l, ran, ?_, ?_⟩
  · obtain ⟨heard, front, same⟩ := List.prefix_map_iff.mp ups
    refine ⟨heard, front, ?_, ?_⟩
    · rw [same, List.map_map]
      refine List.map_congr_left fun m among => parseClient_said ?_
      obtain ⟨t, taken, speaks⟩ := List.mem_filterMap.mp (front.subset among)
      have fit := fits t taken
      cases t with
      | speaks said => exact Option.some.inj speaks ▸ fit
      | _ => cases speaks
    · intro empty
      have whole := congrArg List.length ((allUp empty).symm.trans same)
      rw [List.length_map, List.length_map] at whole
      exact front.eq_of_length whole.symm
  · obtain ⟨sent, front, same⟩ := List.prefix_map_iff.mp downs
    obtain ⟨before, first, rfl⟩ := prefix_filterMap front
    obtain ⟨rest, rfl⟩ := first
    have texts : l.gotDown.map Prod.snd = plains before := by
      rw [same, List.map_map]
      rfl
    refine ⟨before.filterMap Turn.reply, ?_, ?_, ?_⟩
    · rw [List.filterMap_append]
      exact List.prefix_append _ _
    · rw [texts, heard_plains fun t among => fits t (List.mem_append_left rest among)]
      cases (before.filterMap Turn.reply).getLast? <;> rfl
    · intro empty
      have whole := congrArg List.length ((allDown empty).symm.trans same)
      rw [List.length_map, List.length_map, List.filterMap_append, List.length_append] at whole
      have none : (rest.filterMap fun t => t.event.post) = [] := List.length_eq_zero_iff.mp (by omega)
      have quiet : rest.filterMap Turn.reply = [] := by
        rw [List.filterMap_eq_nil_iff] at none ⊢
        intro t among
        have silent := none t among
        cases t with
        | replies r => cases silent
        | _ => rfl
      rw [List.filterMap_append, quiet, List.append_nil]

/-- A request is answered, read in two pieces, and a share sent on the split. -/
theorem conversation_in_order_requestAnswered :
    let nacl := Wire.plainNacl
    let pool : Wire.Identity := ⟨.ofNat 32 1, .ofNat 32 2⟩
    let keys := generateKeys nacl (.ofNat 32 7) (.ofNat 32 8)
    let draw : HelloDraw := ⟨5, 3, 9, .ofNat 32 4⟩
    let policy : Primed.HelloPolicy := ⟨true, fun _ => false, "Lazarus"⟩
    let s := Primed.SecureSession.ofHello nacl pool
      (helloOf keys (generateKeys nacl (.ofNat 32 5) (.ofNat 32 6)) splitGatewayUa draw)
    let s' := { s with sendKeys := (s.reply nacl pool policy (.ofNat 32 1)).2 }
    let ch := (ChannelKeys.forClientAfterHello draw.nk (nacl.signPk (.ofNat 32 5))).nextRecvHdr.2.setPrecomp
      (nacl.boxPk s.sessionKey.bx) (.ofNat 32 6)
    let turns : List Turn :=
      [.tells .blockNotify, .speaks (.coinbaserRequest 1100 (.zero 32)), .primeReads 3, .primeReads 200,
      .gatewayReads (some 0), .replies ⟨1100, 1, [⟨[0x51, 0x01], 1100⟩]⟩,
        .gatewayReads none, .gatewayReads none]
    ∃ l, (Link.opened ch s').run (termsOf nacl s' fun _ => maxIdleFrame) (turns.map Turn.event) = .ok l ∧
      (∃ heard, heard <+: turns.filterMap Turn.said ∧
        l.gotUp.map parseClient = heard.map (fun m => .ok m.parsed) ∧
        (l.up = [] → heard = turns.filterMap Turn.said)) ∧
      ∃ come, come <+: turns.filterMap Turn.reply ∧
        ((l.gotDown.map Prod.snd).foldl Heard.hear {}).lastCb = come.getLast?.map IssuedReply.held ∧
        (l.down = [] → come = turns.filterMap Turn.reply) := by
  intro nacl pool keys draw policy s s' ch turns
  have inStep : InStep nacl ch s' :=
    inStep_afterReply Wire.plainNacl_lawful pool pool keys (.ofNat 32 5)
      (.ofNat 32 6) splitGatewayUa draw policy (.ofNat 32 1) rfl
  have reply : IssuedReply.Fits ⟨1100, 1, [⟨[0x51, 0x01], 1100⟩]⟩ := by
    refine ⟨?_, by decide⟩
    rintro o (_ | ⟨_, ⟨⟩⟩)
    exact ⟨by decide, by decide, by decide⟩
  have notify : Turn.Fits (.tells .blockNotify) := ⟨rfl, by decide⟩
  have fits : ∀ t ∈ turns, t.Fits := by
    simp only [turns, List.forall_mem_cons]
    exact ⟨notify, trivial, trivial, trivial, trivial, reply, trivial, trivial, by simp⟩
  have timely : ∀ e ∈ turns.map Turn.event, e.Timely := by
    simp only [turns, List.map_cons, List.map_nil, List.forall_mem_cons]
    exact ⟨trivial, trivial, trivial, trivial, rfl, trivial, trivial, trivial, by simp⟩
  exact conversation_in_order Wire.plainNacl_lawful inStep (fun _ => Nat.le_refl _) fits (.of_timely timely)

end Conversation

end Lazarus.Gateway
