import Lazarus.Wire.Frame

/-! Frames cut from what a session has read. Bytes come in pieces of any size; a header may be read long
before its payload is there, and the buffer is moved up between reads. -/

namespace Lazarus.Primed

open Wire

def maxIdleFrame : Nat := 192 * 1024

/-- What is in from the stream, and how far it has been used. -/
structure InBuf where
  data : Bytes := []
  pos : Nat := 0
  within : pos ≤ data.length := by simp

namespace InBuf

def unread (b : InBuf) : Bytes := b.data.drop b.pos

def take (b : InBuf) (n : Nat) : Option (Bytes × InBuf) :=
  if enough : b.data.length - b.pos < n then none
  else some ((b.data.drop b.pos).take n, { b with pos := b.pos + n, within := by have := b.within; omega })

def makeRoom (b : InBuf) : InBuf :=
  if 0 < b.pos ∧ b.data.length / 2 ≤ b.pos then { data := b.data.drop b.pos } else b

/-- A read puts its bytes behind those that are in. -/
def readBuf (b : InBuf) (chunk : Bytes) : InBuf where
  data := b.data ++ chunk
  pos := b.pos
  within := by
    have := b.within
    rw [List.length_append]
    omega

@[simp] theorem unread_makeRoom (b : InBuf) : b.makeRoom.unread = b.unread := by
  unfold makeRoom
  split
  · rfl
  · rfl

@[simp] theorem unread_readBuf (b : InBuf) (chunk : Bytes) : (b.readBuf chunk).unread = b.unread ++ chunk :=
  List.drop_append_of_le_length b.within

/-- Taking cuts the front off what is unread, or finds it too short. -/
theorem take_cases (b : InBuf) (n : Nat) :
    b.take n = none ∧ b.unread.length < n ∨
      ∃ b', b.take n = some (b.unread.take n, b') ∧ b'.unread = b.unread.drop n ∧ n ≤ b.unread.length := by
  unfold take unread
  rw [List.length_drop]
  split
  · rename_i short
    exact .inl ⟨rfl, short⟩
  · rename_i enough
    exact .inr ⟨_, rfl, by rw [List.drop_drop], by omega⟩

end InBuf

/-- A frame as it is sent. -/
structure Frame where
  cmd : UInt8
  signed : Bool := false
  isSealed : Bool := false
  channel : Bool := false
  payload : Bytes

namespace Frame

def header (f : Frame) : Header where
  len := UInt32.ofNat f.payload.length
  signed := f.signed
  isSealed := f.isSealed
  channel := f.channel
  cmd := f.cmd

/-- The frame fits the fields of its header. -/
def Fits (f : Frame) : Prop := f.payload.length < 2 ^ 22 ∧ f.cmd.toNat < 32

end Frame

/-- The bytes of a frame under the key in use, and the stream past it. -/
def writeFrame (f : Frame) (keys : KeyStream) : Bytes × KeyStream :=
  ((f.header.encode keys).1 ++ f.payload, (f.header.encode keys).2)

/-- The bytes of frames sent one after the other, and the stream past them. -/
def writeFrames : List Frame → KeyStream → Bytes × KeyStream
  | [], keys => ([], keys)
  | f :: rest, keys =>
    ((writeFrame f keys).1 ++ (writeFrames rest (writeFrame f keys).2).1,
      (writeFrames rest (writeFrame f keys).2).2)

/-- Why a session stops reading. -/
inductive Stop where
  | wire (e : Error)
  | frameTooLarge
  | spinning
deriving DecidableEq

/-- The receiving end of a session. `handled` has the frames it has been through with. -/
structure Receiver where
  inbuf : InBuf := {}
  pending : Option Header := none
  keys : KeyStream
  handled : List (Header × Bytes) := []

namespace Receiver

/-- The header of the frame to come: kept from an earlier read, or cut off the buffer. `cap` is the limit in
force when the frame of this number comes. -/
def nextHeader (cap : Nat → Nat) (r : Receiver) : Except Stop (Option Header × Receiver) :=
  match r.pending with
  | some h => .ok (some h, r)
  | none =>
    match r.inbuf.take Header.size with
    | none => .ok (none, r)
    | some (bytes, inbuf) =>
      match Header.decode bytes r.keys with
      | (.error e, _) => .error (.wire e)
      | (.ok h, keys) =>
        if cap r.handled.length < h.len.toNat then .error .frameTooLarge
        else .ok (some h, { r with inbuf, keys, pending := some h })

/-- Cut one frame off the buffer, if it is all there. -/
def cut (cap : Nat → Nat) (r : Receiver) : Except Stop (Bool × Receiver) :=
  match r.nextHeader cap with
  | .error stop => .error stop
  | .ok (none, r) => .ok (false, r)
  | .ok (some h, r) =>
    match r.inbuf.take h.len.toNat with
    | none => .ok (false, r)
    | some (payload, inbuf) =>
      .ok (true, { r with inbuf, pending := none, handled := r.handled ++ [(h, payload)] })

/-- Cut frames off the buffer until there is none, at most so many. -/
def cutAll (cap : Nat → Nat) : Nat → Receiver → Except Stop Receiver
  | 0, _ => .error .spinning
  | count + 1, r =>
    match r.cut cap with
    | .error stop => .error stop
    | .ok (false, r) => .ok r
    | .ok (true, r) => cutAll cap count r

/-- A turn of the serve loop: bytes came in, at least one, or something else happened. -/
inductive Turn where
  | read (first : UInt8) (more : Bytes)
  | other

def Turn.chunk : Turn → Bytes
  | read first more => first :: more
  | other => []

/-- Every turn makes room before it waits. A frame takes its header at least, so there are no more frames
than bytes; one more may have its header read already. -/
def serve (cap : Nat → Nat) (r : Receiver) : Turn → Except Stop Receiver
  | .read first more =>
    let inbuf := r.inbuf.makeRoom.readBuf (first :: more)
    cutAll cap (inbuf.unread.length + 2) { r with inbuf }
  | .other => .ok { r with inbuf := r.inbuf.makeRoom }

def serveAll (cap : Nat → Nat) (r : Receiver) (turns : List Turn) : Except Stop Receiver :=
  turns.foldlM (serve cap) r

section Receiving

/-- What is unread and still to come, after a header that is kept, is these frames and nothing else, and the
sender's stream ends at `last`. -/
inductive Owes (last : KeyStream) (coming : Bytes) (r : Receiver) : List Frame → Prop where
  | plain (frames : List Frame) (fresh : r.pending = none)
      (bytes : r.inbuf.unread ++ coming = (writeFrames frames r.keys).1)
      (keys : (writeFrames frames r.keys).2 = last) :
      Owes last coming r frames
  | headed (f : Frame) (rest : List Frame) (kept : r.pending = some f.header)
      (bytes : r.inbuf.unread ++ coming = f.payload ++ (writeFrames rest r.keys).1)
      (keys : (writeFrames rest r.keys).2 = last) : Owes last coming r (f :: rest)

/-- No frame can be cut off the buffer. -/
def Stuck (r : Receiver) : Prop :=
  match r.pending with
  | none => r.inbuf.unread.length < Header.size
  | some h => r.inbuf.unread.length < h.len.toNat

/-- The frames a receiver has been through with, for what was sent. -/
def sent (frames : List Frame) : List (Header × Bytes) := frames.map fun f => (f.header, f.payload)

variable {cap : Nat → Nat} {last : KeyStream} {coming : Bytes} {r : Receiver}
  {f : Frame} {frames rest : List Frame}

theorem toNat_len_header (fits : f.Fits) : f.header.len.toNat = f.payload.length := by
  have short := fits.1
  change (UInt32.ofNat f.payload.length).toNat = _
  rw [UInt32.toNat_ofNat']
  omega

/-- A front that is all in can be taken off. -/
theorem split_front {unread coming front back : Bytes} (same : unread ++ coming = front ++ back)
    (enough : front.length ≤ unread.length) : unread.take front.length = front ∧
      unread.drop front.length ++ coming = back := by
  constructor
  · have firsts := congrArg (List.take front.length) same
    rwa [List.take_append_of_le_length enough, List.take_left] at firsts
  · have lasts := congrArg (List.drop front.length) same
    rwa [List.drop_append_of_le_length enough, List.drop_left] at lasts

/-- With a header kept, the payload is cut off as soon as it is all there. -/
theorem cut_headed (cap : Nat → Nat) (fits : f.Fits) (kept : r.pending = some f.header)
    (bytes : r.inbuf.unread ++ coming = f.payload ++ (writeFrames rest r.keys).1) :
    (r.cut cap = .ok (false, r) ∧ r.Stuck) ∨
      ∃ inbuf, r.cut cap =
      .ok (true, { r with inbuf, pending := none, handled := r.handled ++ [(f.header, f.payload)] }) ∧
        inbuf.unread.length ≤ r.inbuf.unread.length ∧ inbuf.unread ++ coming = (writeFrames rest r.keys).1 := by
  have size := toNat_len_header fits
  have header : r.nextHeader cap = .ok (some f.header, r) := by rw [nextHeader, kept]
  rcases r.inbuf.take_cases f.header.len.toNat with ⟨short, missing⟩ | ⟨inbuf, taken, left, enough⟩
  · refine .inl ⟨?_, ?_⟩
    · simp only [cut, header, short]
    · rw [Stuck, kept]
      exact missing
  · rw [size] at enough left taken
    obtain ⟨front, back⟩ := split_front bytes enough
    refine .inr ⟨inbuf, ?_, ?_, ?_⟩
    · simp only [cut, header, size, taken, front]
    · rw [left, List.length_drop]
      omega
    · rw [left]
      exact back

/-- With no header kept, the next is read as soon as it is all there. -/
theorem nextHeader_plain (cap : Nat → Nat) (fresh : r.pending = none)
    (bytes : r.inbuf.unread ++ coming = (writeFrames frames r.keys).1)
    (fits : ∀ f ∈ frames, f.Fits) (capped : ∀ f ∈ frames.head?, f.payload.length ≤ cap r.handled.length) :
    (r.nextHeader cap = .ok (none, r) ∧ r.Stuck) ∨
      ∃ f rest inbuf, frames = f :: rest ∧ inbuf.unread.length < r.inbuf.unread.length ∧
        r.nextHeader cap =
        .ok (some f.header, { r with inbuf, keys := (writeFrame f r.keys).2, pending := some f.header }) ∧
        inbuf.unread ++ coming = f.payload ++ (writeFrames rest (writeFrame f r.keys).2).1 := by
  rcases r.inbuf.take_cases Header.size with ⟨short, missing⟩ | ⟨inbuf, taken, left, enough⟩
  · refine .inl ⟨by simp only [nextHeader, fresh, short], ?_⟩
    rw [Stuck, fresh]
    exact missing
  · cases frames with
    | nil =>
      have empty : r.inbuf.unread = [] := (List.append_eq_nil_iff.mp bytes).1
      rw [empty] at enough
      cases enough
    | cons f rest =>
      have fit := fits f (by simp)
      have whole : r.inbuf.unread ++ coming =
          (f.header.encode r.keys).1 ++ (f.payload ++ (writeFrames rest (writeFrame f r.keys).2).1) := by
        rw [bytes, writeFrames, writeFrame, List.append_assoc]
      rw [← f.header.length_encode r.keys] at enough left taken
      obtain ⟨front, back⟩ := split_front whole enough
      have read := Header.decode_encode (h := f.header) (by rw [toNat_len_header fit]; exact fit.1) fit.2 r.keys
      have small : ¬ cap r.handled.length < f.header.len.toNat := by
        rw [toNat_len_header fit]
        exact Nat.not_lt.mpr (capped f rfl)
      refine .inr ⟨f, rest, inbuf, rfl, ?_, ?_, ?_⟩
      · have four := f.header.length_encode r.keys
        rw [left, List.length_drop]
        rw [Header.size] at four
        omega
      · rw [front, f.header.length_encode] at taken
        simp only [nextHeader, fresh, taken, read, if_neg small]
        rfl
      · rw [left]
        exact back

/-- A header that has just been read is as good as one that was kept. -/
theorem cut_of_header {h : Header} {r' : Receiver} (read : r.nextHeader cap = .ok (some h, r'))
    (kept : r'.pending = some h) : r.cut cap = r'.cut cap := by
  have again : r'.nextHeader cap = .ok (some h, r') := by rw [nextHeader, kept]
  simp only [cut, read, again]

/-- How often the loop may go round before the buffer is used up. -/
def need (r : Receiver) : Nat := r.inbuf.unread.length + if r.pending.isSome then 2 else 1

/-- Cutting takes off the next frame, or finds that it is not all there. -/
theorem cut_spec (owes : r.Owes last coming frames) (fits : ∀ f ∈ frames, f.Fits)
    (capped : ∀ f ∈ frames.head?, f.payload.length ≤ cap r.handled.length) :
    (∃ r', r.cut cap = .ok (false, r') ∧ r'.Owes last coming frames ∧ r'.handled = r.handled ∧ r'.Stuck) ∨
      ∃ f rest r', frames = f :: rest ∧ r.cut cap = .ok (true, r') ∧ r'.Owes last coming rest ∧
        r'.handled = r.handled ++ [(f.header, f.payload)] ∧ r'.need < r.need := by
  cases owes with
  | headed f rest kept bytes keys =>
    rcases cut_headed cap (fits f (by simp)) kept bytes with ⟨same, stuck⟩ | ⟨inbuf, off, less, left⟩
    · exact .inl ⟨r, same, .headed f rest kept bytes keys, rfl, stuck⟩
    · refine .inr ⟨f, rest, _, rfl, off, .plain rest rfl left keys, rfl, ?_⟩
      simp only [need, kept, Option.isSome_some, Option.isSome_none, if_true, Bool.false_eq_true, if_false]
      omega
  | plain _ fresh bytes keys =>
    rcases nextHeader_plain cap fresh bytes fits
      capped with ⟨same, stuck⟩ | ⟨f, rest, inbuf, rfl, less, read, left⟩
    · exact .inl ⟨r, by simp only [cut, same], .plain frames fresh bytes keys, rfl, stuck⟩
    · have here := cut_of_header read rfl
      have on : (writeFrames rest (writeFrame f r.keys).2).2 = last := by rw [← keys, writeFrames]
      rcases cut_headed cap (r := { r with inbuf, keys := (writeFrame f r.keys).2, pending := some f.header })
        (fits f (by simp)) rfl left with ⟨same, stuck⟩ | ⟨inbuf', off, fewer, after⟩
      · exact .inl ⟨_, here.trans same, .headed f rest rfl left on, rfl, stuck⟩
      · refine .inr ⟨f, rest, _, rfl, here.trans off, .plain rest rfl after on, rfl, ?_⟩
        simp only [need, fresh, Option.isSome_none, Bool.false_eq_true, if_false]
        dsimp only at fewer
        omega

/-- The frames to come are within the limits that will be in force. -/
def Capped (cap : Nat → Nat) (r : Receiver) (frames : List Frame) : Prop :=
  ∀ k f, frames[k]? = some f → f.payload.length ≤ cap (r.handled.length + k)

theorem Capped.head (capped : r.Capped cap frames) :
    ∀ f ∈ frames.head?, f.payload.length ≤ cap r.handled.length := by
  intro f first
  exact capped 0 f (by rwa [← List.head?_eq_getElem?])

/-- After some frames are cut off, the rest is owed and the buffer holds no whole frame. -/
theorem cutAll_spec (count : Nat) (enough : r.need ≤ count) (owes : r.Owes last coming frames)
    (fits : ∀ f ∈ frames, f.Fits) (capped : r.Capped cap frames) :
    ∃ done rest r', frames = done ++ rest ∧ cutAll cap count r = .ok r' ∧ r'.Owes last coming rest ∧
      r'.handled = r.handled ++ sent done ∧ r'.Stuck := by
  induction count generalizing r frames with
  | zero =>
    unfold need at enough
    split at enough
    · omega
    · omega
  | succ count ih =>
    rcases cut_spec owes fits
      capped.head with ⟨r', off, owes', same, stuck⟩ | ⟨f, rest, r', rfl, off, owes', more, less⟩
    · exact ⟨[], frames, r', rfl, by rw [cutAll, off], owes', by rw [same]; simp [sent], stuck⟩
    · have capped' : r'.Capped cap rest := by
        intro k g later
        have within := capped (k + 1) g (by simpa using later)
        rwa [more, List.length_append, List.length_singleton, Nat.add_assoc, Nat.add_comm 1]
      obtain ⟨done, rest', r'', rfl, all, owes'', total, stuck⟩ :=
        ih (by omega) owes' (fun g member => fits g (by simp [member])) capped'
      refine ⟨f :: done, rest', r'', rfl, by rw [cutAll, off]; exact all, owes'', ?_, stuck⟩
      rw [total, more]
      simp [sent]

theorem Owes.of_unread {r' : Receiver} {coming' : Bytes} (owes : r.Owes last coming frames)
    (pending : r'.pending = r.pending) (keys : r'.keys = r.keys)
    (same : r'.inbuf.unread ++ coming' = r.inbuf.unread ++ coming) : r'.Owes last coming' frames := by
  cases owes with
  | plain _ fresh bytes on =>
    refine .plain frames (pending.trans fresh) ?_ ?_
    · rw [same, keys, bytes]
    · rw [keys, on]
  | headed f rest kept bytes on =>
    refine .headed f rest (pending.trans kept) ?_ ?_
    · rw [same, keys, bytes]
    · rw [keys, on]

/-- A turn takes up its bytes and is through with the frames they complete. -/
theorem serve_spec (turn : Turn) (stuck : r.Stuck) (owes : r.Owes last (turn.chunk ++ coming) frames)
    (fits : ∀ f ∈ frames, f.Fits) (capped : r.Capped cap frames) :
    ∃ done rest r', frames = done ++ rest ∧ r.serve cap turn = .ok r' ∧ r'.Owes last coming rest ∧
      r'.handled = r.handled ++ sent done ∧ r'.Stuck := by
  cases turn with
  | other =>
    refine ⟨[], frames, _, rfl, rfl, owes.of_unread rfl rfl (by simp [Turn.chunk]), by simp [sent], ?_⟩
    unfold Stuck at stuck ⊢
    simpa using stuck
  | read first more =>
    have taken : { r with inbuf := r.inbuf.makeRoom.readBuf (first :: more) }.Owes last coming frames := by
      refine owes.of_unread rfl rfl ?_
      simp [Turn.chunk]
    refine cutAll_spec _ ?_ taken fits capped
    have two : ∀ b : Bool, (if b = true then 2 else 1) ≤ 2 := by decide
    exact Nat.add_le_add_left (two _) _

/-- All the turns together: some of the frames are through, the rest is owed. -/
theorem serveAll_spec (turns : List Turn) (stuck : r.Stuck)
    (owes : r.Owes last (turns.flatMap Turn.chunk ++ coming) frames)
    (fits : ∀ f ∈ frames, f.Fits) (capped : r.Capped cap frames) :
    ∃ done rest r', frames = done ++ rest ∧ r.serveAll cap turns = .ok r' ∧ r'.Owes last coming rest ∧
      r'.handled = r.handled ++ sent done ∧ r'.Stuck := by
  induction turns generalizing r frames with
  | nil => exact ⟨[], frames, r, rfl, rfl, owes, by simp [sent], stuck⟩
  | cons turn turns ih =>
    rw [List.flatMap_cons, List.append_assoc] at owes
    obtain ⟨done, rest, r', rfl, served, owes', more, stuck'⟩ := serve_spec turn stuck owes fits capped
    have capped' : r'.Capped cap rest := by
      intro k f later
      have within := capped (done.length + k) f
        (by rw [List.getElem?_append_right (Nat.le_add_right _ _)]; simpa using later)
      rw [more, List.length_append, sent, List.length_map]
      rwa [← Nat.add_assoc] at within
    obtain ⟨done', rest', r'', rfl, all, owes'', total, stuck''⟩ :=
      ih stuck' owes' (fun f member => fits f (by simp [member])) capped'
    refine ⟨done ++ done', rest', r'', by rw [List.append_assoc], ?_, owes'', ?_, stuck''⟩
    · rw [serveAll, List.foldlM_cons, served]
      exact all
    · rw [total, more]
      simp [sent]

/-- With nothing more to come, a receiver that can cut no frame has them all. -/
theorem Owes.done (owes : r.Owes last [] frames) (stuck : r.Stuck) (fits : ∀ f ∈ frames, f.Fits) :
    frames = [] ∧ r.inbuf.unread = [] ∧ r.pending = none ∧ r.keys = last := by
  cases owes with
  | headed f rest kept bytes keys =>
    rw [List.append_nil] at bytes
    rw [Stuck, kept] at stuck
    dsimp only at stuck
    rw [bytes, toNat_len_header (fits f (by simp)), List.length_append] at stuck
    omega
  | plain _ fresh bytes keys =>
    rw [List.append_nil] at bytes
    rw [Stuck, fresh] at stuck
    cases frames with
    | nil => exact ⟨rfl, bytes, fresh, keys⟩
    | cons f rest =>
      have four := f.header.length_encode r.keys
      rw [bytes, writeFrames, writeFrame, List.append_assoc, List.length_append, four] at stuck
      omega

end Receiving

section Read

/-- Every header that was read fits its fields. -/
structure HeadersFit (r : Receiver) : Prop where
  handled : ∀ e ∈ r.handled, e.1.len.toNat < 2 ^ 22 ∧ e.1.cmd.toNat < 32
  pending : ∀ h ∈ r.pending, h.len.toNat < 2 ^ 22 ∧ h.cmd.toNat < 32

variable {cap : Nat → Nat} {r r' : Receiver}

theorem HeadersFit.nextHeader {found : Option Header} (fit : r.HeadersFit)
    (read : r.nextHeader cap = .ok (found, r')) :
    r'.HeadersFit ∧ ∀ h ∈ found, h.len.toNat < 2 ^ 22 ∧ h.cmd.toNat < 32 := by
  unfold Receiver.nextHeader at read
  split at read
  · rename_i h kept
    cases read
    refine ⟨fit, ?_⟩
    intro h' same
    cases same
    exact fit.pending h kept
  · split at read
    · cases read
      exact ⟨fit, nofun⟩
    · split at read
      · cases read
      · rename_i h keys decoded
        split at read
        · cases read
        · cases read
          have small := Header.decode_fits (congrArg Prod.fst decoded)
          refine ⟨⟨fit.handled, ?_⟩, ?_⟩
          · intro h' same
            cases same
            exact small
          · intro h' same
            cases same
            exact small

theorem HeadersFit.cut {again : Bool} (fit : r.HeadersFit) (off : r.cut cap = .ok (again, r')) :
    r'.HeadersFit := by
  unfold Receiver.cut at off
  split at off
  · cases off
  · rename_i read
    cases off
    exact (fit.nextHeader read).1
  · rename_i h mid read
    obtain ⟨fit', small⟩ := fit.nextHeader read
    split at off
    · cases off
      exact fit'
    · cases off
      refine ⟨?_, nofun⟩
      intro e member
      rcases List.mem_append.mp member with before | here
      · exact fit'.handled e before
      · rw [List.mem_singleton.mp here]
        exact small h rfl

theorem HeadersFit.cutAll {count : Nat} (fit : r.HeadersFit) (all : r.cutAll cap count = .ok r') :
    r'.HeadersFit := by
  induction count generalizing r with
  | zero => cases all
  | succ count ih =>
    unfold Receiver.cutAll at all
    split at all
    · cases all
    · rename_i off
      cases all
      exact fit.cut off
    · rename_i off
      exact ih (fit.cut off) all

theorem HeadersFit.serveAll {turns : List Turn} (fit : r.HeadersFit) (all : r.serveAll cap turns = .ok r') :
    r'.HeadersFit := by
  induction turns generalizing r with
  | nil =>
    cases all
    exact fit
  | cons turn turns ih =>
    rw [Receiver.serveAll, List.foldlM_cons] at all
    cases served : r.serve cap turn with
    | error stop =>
      rw [served] at all
      cases all
    | ok mid =>
      rw [served] at all
      refine ih ?_ all
      cases turn with
      | other =>
        cases served
        exact ⟨fit.handled, fit.pending⟩
      | read first more =>
        have before : { r with inbuf := r.inbuf.makeRoom.readBuf (first :: more) }.HeadersFit :=
          ⟨fit.handled, fit.pending⟩
        exact before.cutAll served

end Read

end Receiver

/-- The receiver has every frame that was sent, whole and in order, has used every byte once, and its key
stream is where the sender's is. -/
def Received (frames : List Frame) (keys : KeyStream) (r : Receiver) : Prop :=
  r.handled = Receiver.sent frames ∧ r.inbuf.unread = [] ∧ r.pending = none ∧
    r.keys = (writeFrames frames keys).2

private theorem fits_of_received {keys : KeyStream} {frames : List Frame} {cap : Nat → Nat}
    (arrive : ∀ turns : List Receiver.Turn, turns.flatMap Receiver.Turn.chunk = (writeFrames frames keys).1 →
      ∃ r, Receiver.serveAll cap { keys } turns = .ok r ∧ Received frames keys r)
    (small : ∀ f ∈ frames, f.payload.length ≤ maxCmdLen) : ∀ f ∈ frames, f.Fits := by
  intro f member
  obtain ⟨turns, same⟩ :
      ∃ turns : List Receiver.Turn, turns.flatMap Receiver.Turn.chunk = (writeFrames frames keys).1 := by
    cases (writeFrames frames keys).1 with
    | nil => exact ⟨[], rfl⟩
    | cons first more => exact ⟨[.read first more], List.append_nil _⟩
  obtain ⟨r, all, handled, _⟩ := arrive turns same
  have fit : r.HeadersFit := Receiver.HeadersFit.serveAll ⟨by simp, by simp⟩ all
  have there : (f.header, f.payload) ∈ r.handled := by
    rw [handled]
    exact List.mem_map_of_mem member
  obtain ⟨len, cmd⟩ := fit.handled _ there
  refine ⟨?_, cmd⟩
  have most := small f member
  have size : f.header.len.toNat = f.payload.length := by
    change (UInt32.ofNat f.payload.length).toNat = _
    rw [UInt32.toNat_ofNat']
    rw [maxCmdLen] at most
    omega
  rwa [size] at len

/-- Frames within the limits arrive the same however their bytes are cut, exactly when each fits the fields of
its header. A payload of the largest length allowed does not. -/
theorem frames_arrive_iff (keys : KeyStream) (frames : List Frame) (cap : Nat → Nat)
    (caps : ∀ k, cap k ≤ maxCmdLen) (capped : ∀ k f, frames[k]? = some f → f.payload.length ≤ cap k) :
    (∀ turns : List Receiver.Turn, turns.flatMap Receiver.Turn.chunk = (writeFrames frames keys).1 →
        ∃ r, Receiver.serveAll cap { keys } turns = .ok r ∧ Received frames keys r) ↔
      ∀ f ∈ frames, f.payload.length < 2 ^ 22 ∧ f.cmd.toNat < 32 := by
  constructor
  · intro arrive
    refine fits_of_received arrive ?_
    intro f member
    obtain ⟨k, found⟩ := List.getElem?_of_mem member
    exact Nat.le_trans (capped k f found) (caps k)
  · intro fits turns same
    have owes : Receiver.Owes (writeFrames frames keys).2 (turns.flatMap Receiver.Turn.chunk ++ [])
        { keys } frames := by
      refine .plain frames rfl ?_ rfl
      rw [List.append_nil, same]
      rfl
    have start : Receiver.Stuck { keys } := Nat.succ_pos 3
    obtain ⟨done, rest, r, rfl, all, owes', handled, stuck⟩ :=
      Receiver.serveAll_spec turns start owes fits (by simpa [Receiver.Capped] using capped)
    obtain ⟨rfl, used, fresh, on⟩ := owes'.done stuck fun f member => fits f (by simp [member])
    exact ⟨r, all, by simpa using handled, used, fresh, on⟩

/-- A frame with a payload and one without, a byte at a time and with a pause. -/
theorem frames_arrive_byteByByte :
    let frames : List Frame :=
      [{ cmd := 5, channel := true, payload := [1, 2, 3] }, { cmd := 1, payload := [] }]
    let turns := .other :: (writeFrames frames 7).1.map fun b => Receiver.Turn.read b []
    ∃ r, Receiver.serveAll (fun _ => maxIdleFrame) { keys := 7 } turns = .ok r ∧ Received frames 7 r := by
  intro frames turns
  have short : ∀ f ∈ frames, f.payload.length ≤ maxIdleFrame := by decide
  have capped : ∀ (k : Nat) (f : Frame), frames[k]? = some f → f.payload.length ≤ maxIdleFrame :=
    fun k f found => short f (List.mem_of_getElem? found)
  refine (frames_arrive_iff 7 frames (fun _ => maxIdleFrame) (fun _ => by decide) capped).mpr ?_ turns ?_
  · decide
  · decide

/-- A payload of exactly the largest length allowed is sent with a length of zero. -/
theorem largest_payload_lost :
    let frames : List Frame := [{ cmd := 5, payload := List.replicate maxCmdLen 0 }]
    (∀ f ∈ frames, f.payload.length ≤ maxCmdLen) ∧
      ¬ ∀ turns : List Receiver.Turn, turns.flatMap Receiver.Turn.chunk = (writeFrames frames 7).1 →
        ∃ r, Receiver.serveAll (fun _ => maxCmdLen) { keys := 7 } turns = .ok r ∧ Received frames 7 r := by
  intro frames
  have small : ∀ f ∈ frames, f.payload.length ≤ maxCmdLen := by
    intro f member
    rw [List.mem_singleton.mp member, List.length_replicate]
  refine ⟨small, ?_⟩
  intro arrive
  have fits := (fits_of_received arrive small _ List.mem_cons_self).1
  rw [List.length_replicate] at fits
  exact Nat.lt_irrefl _ fits

end Lazarus.Primed
