import Lazarus.Lib.Utf8
import Lazarus.Wire.Mining
import Lazarus.Wire.Reader

/-! The mining messages of a gateway as bytes: a share with its sections, and the replies to job
validation. -/

namespace Lazarus.Wire

open Parse

/-- A share with every field it is sent with. -/
structure PowMessage extends PowSubmit where
  jobId : UInt8
  ntime32 : UInt32
  nonce32 : UInt32
  username : String
deriving DecidableEq

def subCoinbaserRequest : UInt8 := 0x10

def subPow : UInt8 := 0x27

def subJobValidation : UInt8 := 0x50

def endMark : UInt8 := 0xfe

def maxUsername : Nat := 384

def extranonceLen : Nat := 12

def powAlgoBlake2b : UInt8 := 1

/-- The time stands with the section, and not without it. -/
def Blake2bSection.encode (b : Blake2bSection) (timeOnWire : Option UInt32) : Bytes :=
  (0x03 :: ([powAlgoBlake2b] ++ (b.ntime.val ++ b.nonce.val))) ++
    timeOnWire.elim [] fun t => 0x04 :: LittleEndian.bytes 4 t.toNat

namespace JobSection

/-- The count of the branches is cut to a byte. -/
def body (j : JobSection) : Bytes :=
  (j.prevHash.val ++ (LittleEndian.bytes 2 j.targetByteIndex.toNat ++ (j.nbits.val ++ ([j.coinbaserId] ++
    (LittleEndian.bytes 4 j.height.toNat ++ (LittleEndian.bytes 8 j.coinbaseValue.toNat ++
    (LittleEndian.bytes 4 j.txnCount.toNat ++ (LittleEndian.bytes 4 j.txnTotalWeight.toNat ++
    (LittleEndian.bytes 4 j.txnTotalSize.toNat ++ (LittleEndian.bytes 4 j.txnTotalSigops.toNat ++
    ([UInt8.ofNat j.merkleBranches.length] ++ j.merkleBranches.flatMap Subtype.val)))))))))))

def encode (j : JobSection) : Bytes := 0x01 :: j.body

def decode : Parse JobSection := do
  let prevHash ← array 32
  let targetByteIndex ← u16
  let nbits ← array 4
  let coinbaserId ← u8
  let height ← u32
  let coinbaseValue ← u64
  let txnCount ← u32
  let txnTotalWeight ← u32
  let txnTotalSize ← u32
  let txnTotalSigops ← u32
  let n ← u8
  let merkleBranches ← many (array 32) n.toNat
  return { prevHash, targetByteIndex, nbits, coinbaserId, height, coinbaseValue, txnCount, txnTotalWeight,
           txnTotalSize, txnTotalSigops, merkleBranches }

end JobSection

namespace CoinbaseSection

/-- The lengths of the pieces are cut to two bytes each. -/
def body (c : CoinbaseSection) : Bytes :=
  [c.coinbaseId] ++ (LittleEndian.bytes 2 (UInt16.ofNat c.coinb1.length).toNat ++
    (LittleEndian.bytes 2 (UInt16.ofNat c.coinb2.length).toNat ++ (c.coinb1 ++ c.coinb2)))

def encode (c : CoinbaseSection) : Bytes := 0x02 :: c.body

def decode : Parse CoinbaseSection := do
  let id ← u8
  let l1 ← u16
  let l2 ← u16
  let coinb1 ← take l1.toNat
  let coinb2 ← take l2.toNat
  return { coinbaseId := id, coinb1, coinb2 }

end CoinbaseSection

namespace PowMessage

def sections (s : PowMessage) : Bytes :=
  s.blake2b.elim [] (·.encode s.timeOnWire) ++ (s.job.elim [] JobSection.encode ++
    (s.coinbase.elim [] CoinbaseSection.encode ++ [endMark]))

def body (s : PowMessage) : Bytes :=
  ([s.jobId] ++ ([s.coinbaseId] ++ ([s.flags] ++ ([s.targetPot] ++
    (LittleEndian.bytes 4 s.ntime32.toNat ++ (LittleEndian.bytes 4 s.nonce32.toNat ++
    (LittleEndian.bytes 4 s.version.toNat ++ ([UInt8.ofNat extranonceLen] ++ (s.extranonce.val ++
    (((Utf8.bytes s.username).take maxUsername ++ [0]) ++ (s.reserved.val ++ s.sections)))))))))))

/-- Serialize as a gateway would. -/
def encode (s : PowMessage) : Bytes := subPow :: s.body

/-- Read the section a tag announces into a share. A later section of a kind takes the place of an earlier
one. -/
def readSection (s : PowMessage) (tag : UInt8) : Parse PowMessage :=
  if tag = 0x03 then do
    if (← u8) ≠ powAlgoBlake2b then fail (.malformed "pow algorithm")
    else
      let ntime ← array 8
      let nonce ← array 8
      return { s with blake2b := some { ntime, nonce } }
  else if tag = 0x04 then do
    let t ← u32
    return { s with timeOnWire := some t }
  else if tag = 0x01 then do
    let j ← JobSection.decode
    return { s with job := some j }
  else if tag = 0x02 then do
    let c ← CoinbaseSection.decode
    return { s with coinbase := some c }
  else fail (.malformed "pow section")

/-- Read sections up to the end mark, at most so many. -/
def readSections : Nat → PowMessage → Parse PowMessage
  | 0, _ => panic
  | count + 1, s => do
    let tag ← u8
    if tag = endMark then return s
    else
      let s ← s.readSection tag
      readSections count s

def read (count : Nat) : Parse PowMessage := do
  let jobId ← u8
  let coinbaseId ← u8
  let flags ← u8
  let targetPot ← u8
  let ntime32 ← u32
  let nonce32 ← u32
  let version ← u32
  let size ← u8
  if size.toNat ≠ extranonceLen then fail (.malformed "extranonce size")
  else
    let extranonce ← array 12
    let name ← cstr maxUsername
    let reserved ← array 4
    readSections count
      { jobId, coinbaseId, flags, targetPot, ntime32, nonce32, version,
        extranonce, username := Utf8.lossy name, reserved }

/-- Parse the bytes after the sub-command. A section takes a byte at least, so there are no more sections
than bytes. -/
def decode (body : Bytes) : Except Fault PowMessage := Prod.fst <$> read (body.length + 1) ⟨body, 0⟩

end PowMessage

inductive ValidationStatus where
  | ok
  | error (code : UInt8)
deriving DecidableEq

inductive JobValidationReply where
  | shortIds (job : UInt8) (status : ValidationStatus) (ids : List Nat) (crosscheck : Option Hash)
  | transactions (job : UInt8) (status : ValidationStatus) (txns : List Bytes)
  | fullBlock (job : UInt8) (status : ValidationStatus) (txns : List Bytes)
deriving DecidableEq

def readStatus : Parse ValidationStatus := do
  let code ← u8
  return if code = 0x01 then .ok else .error code

def readTxnList : Parse (List Bytes) := do
  let n ← u16
  many (do
    let lo ← u16
    let hi ← u8
    take (lo.toNat ||| hi.toNat <<< 16)) n.toNat

namespace JobValidationReply

def read : Parse JobValidationReply := do
  let kind ← u8
  let job ← u8
  let status ← readStatus
  if kind = 0x90 then
    if status ≠ .ok then return .shortIds job status [] none
    else
      let n ← u16
      let ids ← many (do
        let lo ← u32
        let hi ← u16
        return lo.toNat ||| hi.toNat <<< 32) n.toNat
      if 0 < n.toNat then
        let crosscheck ← array 32
        return .shortIds job status ids (some crosscheck)
      else return .shortIds job status ids none
  else if kind = 0x91 then
    if status = .ok then
      let txns ← readTxnList
      return .transactions job status txns
    else return .transactions job status []
  else if kind = 0x92 then
    if status = .ok then
      let txns ← readTxnList
      return .fullBlock job status txns
    else return .fullBlock job status []
  else fail (.malformed "job validation kind")

def decode (body : Bytes) : Except Fault JobValidationReply := Prod.fst <$> read ⟨body, 0⟩

end JobValidationReply

inductive ClientMsg where
  | coinbaserRequest (value : UInt64) (prevHash : Hash)
  | pow (s : PowMessage)
  | jobValidation (reply : JobValidationReply)
  | unknown (sub : UInt8)
deriving DecidableEq

def readCoinbaserRequest : Parse ClientMsg := do
  let value ← u64
  let prevHash ← array 32
  let mark ← u8
  if mark ≠ endMark then fail (.malformed "coinbaser request") else return .coinbaserRequest value prevHash

/-- Parse a decrypted mining payload of a client. -/
def parseClient : Bytes → Except Fault ClientMsg
  | [] => .error (.error .short)
  | sub :: body =>
    if sub = subCoinbaserRequest then Prod.fst <$> readCoinbaserRequest ⟨body, 0⟩
    else if sub = subPow then ClientMsg.pow <$> PowMessage.decode body
    else if sub = subJobValidation then ClientMsg.jobValidation <$> JobValidationReply.decode body
    else .ok (.unknown sub)

section RoundTrip

private theorem reads_job {j : JobSection} (few : j.merkleBranches.length ≤ 255) :
    Reads JobSection.decode j.body j := by
  have count : (UInt8.ofNat j.merkleBranches.length).toNat = j.merkleBranches.length := by
    rw [UInt8.toNat_ofNat']
    exact Nat.mod_eq_of_lt (by omega)
  refine (reads_array j.prevHash).bind ((reads_u16 _).bind ((reads_array j.nbits).bind ((reads_u8 _).bind ?_)))
  refine (reads_u32 _).bind ((reads_u64 _).bind ((reads_u32 _).bind ((reads_u32 _).bind ?_)))
  refine (reads_u32 _).bind ((reads_u32 _).bind ((reads_u8 _).bind ?_))
  rw [count]
  exact (reads_many fun branch _ => reads_array branch).map _

private theorem reads_coinbase {c : CoinbaseSection} (one : c.coinb1.length ≤ 65535)
    (two : c.coinb2.length ≤ 65535) : Reads CoinbaseSection.decode c.body c := by
  have size : ∀ {n : Nat}, n ≤ 65535 → (UInt16.ofNat n).toNat = n := by
    intro n fits
    rw [UInt16.toNat_ofNat']
    exact Nat.mod_eq_of_lt (by omega)
  refine (reads_u8 _).bind ((reads_u16 _).bind ((reads_u16 _).bind ?_))
  rw [size one, size two]
  exact (reads_take c.coinb1).bind ((reads_take c.coinb2).map _)

namespace PowMessage

theorem reads_end (s : PowMessage) (count : Nat) (some : 1 ≤ count) : Reads
    (readSections count s) [endMark] s := by
  cases count with
  | zero => cases some
  | succ count => exact (reads_u8 endMark).bind (Reads.pure s)

variable {s s' out : PowMessage} {tag : UInt8} {first rest : Bytes} {k : Nat}

/-- A section in front of sections that are read. -/
theorem reads_section (other : tag ≠ endMark) (here : Reads (s.readSection tag) first s')
    (later : ∀ count, k ≤ count → Reads (readSections count s') rest out) (count : Nat) (more : k + 1 ≤ count) :
    Reads (readSections count s) ((tag :: first) ++ rest) out := by
  cases count with
  | zero => cases more
  | succ count =>
    change Reads (readSections (count + 1) s) ([tag] ++ (first ++ rest)) out
    refine (reads_u8 tag).bind ?_
    rw [if_neg other]
    exact here.bind (later count (by omega))

theorem reads_time {t : Option UInt32}
    (later : ∀ count, k ≤ count → Reads (readSections count { s with timeOnWire := t }) rest out)
    (untimed : s.timeOnWire = none) (count : Nat) (more : k + 1 ≤ count) :
    Reads (readSections count s) ((t.elim [] fun t => 0x04 :: LittleEndian.bytes 4 t.toNat) ++ rest) out := by
  cases t with
  | none =>
    rw [← untimed] at later
    exact later count (by omega)
  | some t =>
    have here : Reads (s.readSection 0x04) (LittleEndian.bytes 4 t.toNat) { s with timeOnWire := some t } :=
      (reads_u32 t).map _
    exact reads_section (by decide) here later count more

theorem reads_blake2b {b : Option Blake2bSection} {t : Option UInt32} (only : t.isSome = true → b.isSome = true)
    (later : ∀ count, k ≤ count → Reads (readSections count { s with blake2b := b, timeOnWire := t }) rest out)
    (bare : s.blake2b = none) (untimed : s.timeOnWire = none) (count : Nat) (more : k + 2 ≤ count) :
    Reads (readSections count s) (b.elim [] (·.encode t) ++ rest) out := by
  cases b with
  | none =>
    cases t with
    | none =>
      rw [← bare, ← untimed] at later
      exact later count (by omega)
    | some t => cases only rfl
  | some b =>
    have here : Reads (s.readSection 0x03) ([powAlgoBlake2b] ++ (b.ntime.val ++ b.nonce.val))
      { s with blake2b := some b } :=
      (reads_u8 powAlgoBlake2b).bind ((reads_array b.ntime).bind ((reads_array b.nonce).map _))
    have timed := reads_time (s := { s with blake2b := some b }) later untimed
    have both := reads_section (by decide) here timed count more
    rwa [← List.append_assoc] at both

theorem reads_jobSection {j : Option JobSection} (few : ∀ job ∈ j, job.merkleBranches.length ≤ 255)
    (later : ∀ count, k ≤ count → Reads (readSections count { s with job := j }) rest out)
    (bare : s.job = none) (count : Nat) (more : k + 1 ≤ count) :
    Reads (readSections count s) (j.elim [] JobSection.encode ++ rest) out := by
  cases j with
  | none =>
    rw [← bare] at later
    exact later count (by omega)
  | some job =>
    have here : Reads (s.readSection 0x01) job.body { s with job := some job } :=
      (reads_job (few job rfl)).map _
    exact reads_section (by decide) here later count more

theorem reads_coinbaseSection {c : Option CoinbaseSection}
    (small : ∀ cb ∈ c, cb.coinb1.length ≤ 65535 ∧ cb.coinb2.length ≤ 65535)
    (later : ∀ count, k ≤ count → Reads (readSections count { s with coinbase := c }) rest out)
    (bare : s.coinbase = none) (count : Nat) (more : k + 1 ≤ count) :
    Reads (readSections count s) (c.elim [] CoinbaseSection.encode ++ rest) out := by
  cases c with
  | none =>
    rw [← bare] at later
    exact later count (by omega)
  | some cb =>
    obtain ⟨one, two⟩ := small cb rfl
    have here : Reads (s.readSection 0x02) cb.body { s with coinbase := some cb } :=
      (reads_coinbase one two).map _
    exact reads_section (by decide) here later count more

/-- A share its gateway can send. -/
structure Sendable (s : PowMessage) : Prop where
  plain : 0 ∉ Utf8.bytes s.username
  short : (Utf8.bytes s.username).length ≤ maxUsername
  branches : ∀ j ∈ s.job, j.merkleBranches.length ≤ 255
  pieces : ∀ c ∈ s.coinbase, c.coinb1.length ≤ 65535 ∧ c.coinb2.length ≤ 65535
  timed : s.timeOnWire.isSome = true → s.blake2b.isSome = true

/-- The share before any of its sections is read. -/
def header (s : PowMessage) : PowMessage :=
  { s with blake2b := none, timeOnWire := none, job := none, coinbase := none }

theorem reads_sections (sendable : s.Sendable) (count : Nat) (enough : 5 ≤ count) :
    Reads (readSections count s.header) s.sections s := by
  refine reads_blake2b (k := 3) sendable.timed ?_ rfl rfl count enough
  refine reads_jobSection (k := 2) sendable.branches ?_ rfl
  refine reads_coinbaseSection (k := 1) sendable.pieces ?_ rfl
  exact reads_end s

theorem reads_body (sendable : s.Sendable) {count : Nat} (enough : 5 ≤ count) :
    Reads (read count) s.body s := by
  have name : (Utf8.bytes s.username).take maxUsername = Utf8.bytes s.username :=
    List.take_of_length_le sendable.short
  refine (reads_u8 _).bind ((reads_u8 _).bind ((reads_u8 _).bind ((reads_u8 _).bind ((reads_u32 _).bind ?_))))
  refine (reads_u32 _).bind ((reads_u32 _).bind ((reads_u8 _).bind ?_))
  refine (reads_array s.extranonce).bind ?_
  rw [name]
  refine (reads_cstr sendable.plain sendable.short).bind ((reads_array s.reserved).bind ?_)
  rw [Utf8.lossy_bytes]
  exact reads_sections sendable count enough

theorem decode_body (sendable : s.Sendable) (pad : Bytes) : decode (s.body ++ pad) = .ok s := by
  have enough : 5 ≤ (s.body ++ pad).length + 1 := by
    simp only [body, List.length_append, List.length_singleton]
    omega
  have whole := reads_body sendable enough [] pad
  rw [List.nil_append] at whole
  rw [decode]
  exact congrArg (Prod.fst <$> ·) whole

end PowMessage

end RoundTrip

section Total

variable {limit : Nat}

private theorem safe_job : Safe limit JobSection.decode := by
  refine (safe_array 32).bind fun _ => safe_u16.bind fun _ => (safe_array 4).bind fun _ =>
    safe_u8.bind fun _ => ?_
  refine safe_u32.bind fun _ => safe_u64.bind fun _ => safe_u32.bind fun _ => safe_u32.bind fun _ => ?_
  refine safe_u32.bind fun _ => safe_u32.bind fun _ => safe_u8.bind fun _ => ?_
  exact (safe_many (safe_array 32) _).bind fun _ => Safe.pure _

private theorem safe_coinbase : Safe limit CoinbaseSection.decode := by
  refine safe_u8.bind fun _ => safe_u16.bind fun _ => safe_u16.bind fun _ => ?_
  exact (safe_take _).bind fun _ => (safe_take _).bind fun _ => Safe.pure _

namespace PowMessage

theorem safe_readSection (s : PowMessage) (tag : UInt8) : Safe limit (s.readSection tag) := by
  unfold readSection
  refine Safe.ite ?_ (Safe.ite ?_ (Safe.ite ?_ (Safe.ite ?_ (Safe.fail _))))
  · refine safe_u8.bind fun _ => Safe.ite (Safe.fail _) ?_
    exact (safe_array 8).bind fun _ => (safe_array 8).bind fun _ => Safe.pure _
  · exact safe_u32.bind fun _ => Safe.pure _
  · exact safe_job.bind fun _ => Safe.pure _
  · exact safe_coinbase.bind fun _ => Safe.pure _

/-- Each section takes its tag at least, so the sections end before their number does. -/
theorem safeAt_readSections (count : Nat) (s : PowMessage) {c : Cursor} (inside : c.pos ≤ c.buf.length)
    (enough : c.buf.length - c.pos < count) : SafeAt c (readSections count s) := by
  induction count generalizing s c with
  | zero => cases enough
  | succ count ih =>
    apply (safe_u8 c (Nat.le_refl _) inside).bind
    intro tag mid read same _ inside'
    have moved : mid.pos = c.pos + 1 := by rw [(u8_ok read)]
    split
    · exact Safe.pure s mid (Nat.le_refl _) inside'
    · apply (safe_readSection s tag mid (Nat.le_refl _) inside').bind
      intro s' after _ same' forth inside''
      apply ih s' inside''
      rw [same', same]
      rw [same] at inside'
      omega

theorem safe_read : Safe limit (read (limit + 1)) := by
  refine safe_u8.bind fun _ => safe_u8.bind fun _ => safe_u8.bind fun _ => safe_u8.bind fun _ => ?_
  refine safe_u32.bind fun _ => safe_u32.bind fun _ => safe_u32.bind fun _ => safe_u8.bind fun _ => ?_
  refine Safe.ite (Safe.fail _) ?_
  refine (safe_array 12).bind fun _ => (safe_cstr _).bind fun _ => (safe_array 4).bind fun _ => ?_
  intro c small inside
  exact safeAt_readSections _ _ inside (by omega)

end PowMessage

private theorem safe_readTxnList : Safe limit readTxnList := by
  refine safe_u16.bind fun _ => safe_many ?_ _
  exact safe_u16.bind fun _ => safe_u8.bind fun _ => safe_take _

theorem JobValidationReply.safe_read : Safe limit JobValidationReply.read := by
  refine safe_u8.bind fun _ => safe_u8.bind fun _ => (safe_u8.bind fun _ => Safe.pure _).bind fun _ => ?_
  refine Safe.ite (Safe.ite (Safe.pure _) ?_)
    (Safe.ite (Safe.ite ?_ (Safe.pure _)) (Safe.ite (Safe.ite ?_ (Safe.pure _)) (Safe.fail _)))
  · refine safe_u16.bind fun _ => (safe_many ?_ _).bind fun _ => Safe.ite ?_ (Safe.pure _)
    · exact safe_u32.bind fun _ => safe_u16.bind fun _ => Safe.pure _
    · exact (safe_array 32).bind fun _ => Safe.pure _
  · exact safe_readTxnList.bind fun _ => Safe.pure _
  · exact safe_readTxnList.bind fun _ => Safe.pure _

private theorem returns {α : Type} {r : Parse α} {body : Bytes} (safe : Safe body.length r) :
    (∃ x, Prod.fst <$> r ⟨body, 0⟩ = .ok x) ∨ ∃ e, Prod.fst <$> r ⟨body, 0⟩ = .error (.error e) := by
  have quiet := (safe ⟨body, 0⟩ (Nat.le_refl _) (Nat.zero_le _)).1
  cases outcome : r ⟨body, 0⟩ with
  | ok out => exact .inl ⟨out.1, rfl⟩
  | error fault =>
    cases fault with
    | error e => exact .inr ⟨e, rfl⟩
    | panic => exact absurd outcome quiet

end Total

section Decoded

private theorem ensures_job : Ensures JobSection.decode fun j => j.merkleBranches.length ≤ 255 := by
  refine Ensures.skip fun _ => Ensures.skip fun _ => Ensures.skip fun _ =>
    Ensures.skip fun _ => Ensures.skip fun _ => ?_
  refine Ensures.skip fun _ => Ensures.skip fun _ => Ensures.skip fun _ =>
    Ensures.skip fun _ => Ensures.skip fun _ => ?_
  refine Ensures.skip fun n => (ensures_many _ _).bind fun branches size => Ensures.pure ?_
  have byte := n.toNat_lt
  dsimp only
  omega

private theorem ensures_coinbase : Ensures CoinbaseSection.decode fun c =>
    c.coinb1.length ≤ 65535 ∧ c.coinb2.length ≤ 65535 := by
  refine Ensures.skip fun _ => Ensures.skip fun l1 => Ensures.skip fun l2 => ?_
  refine (ensures_take _).bind fun coinb1 one => (ensures_take _).bind fun coinb2 two => Ensures.pure ?_
  have first := l1.toNat_lt
  have second := l2.toNat_lt
  dsimp only
  omega

namespace PowMessage

/-- The lengths that a share's sections give fit the fields they are given in. -/
structure Fits (name : String) (s : PowMessage) : Prop where
  username : s.username = name
  branches : ∀ j ∈ s.job, j.merkleBranches.length ≤ 255
  pieces : ∀ c ∈ s.coinbase, c.coinb1.length ≤ 65535 ∧ c.coinb2.length ≤ 65535

variable {name : String} {s : PowMessage}

theorem ensures_readSection (fits : s.Fits name) (tag : UInt8) : Ensures (s.readSection tag) (Fits name) := by
  unfold readSection
  split
  · refine Ensures.skip fun algorithm => ?_
    split
    · exact Ensures.fail _ _
    · exact Ensures.skip fun _ => Ensures.skip fun _ => Ensures.pure ⟨fits.username, fits.branches, fits.pieces⟩
  · split
    · exact Ensures.skip fun _ => Ensures.pure ⟨fits.username, fits.branches, fits.pieces⟩
    · split
      · refine ensures_job.bind fun job few => Ensures.pure ⟨fits.username, ?_, fits.pieces⟩
        intro j same
        cases same
        exact few
      · split
        · refine ensures_coinbase.bind fun cb small => Ensures.pure ⟨fits.username, fits.branches, ?_⟩
          intro c same
          cases same
          exact small
        · exact Ensures.fail _ _

theorem ensures_readSections (count : Nat) (fits : s.Fits name) : Ensures
    (readSections count s) (Fits name) := by
  induction count generalizing s with
  | zero => exact nofun
  | succ count ih =>
    refine Ensures.skip fun tag => ?_
    split
    · exact Ensures.pure fits
    · exact (ensures_readSection fits tag).bind fun s' fits' => ih fits'

/-- The username as it stands in a message: after the fields of fixed length, up to the zero. -/
def usernameOnWire (body : Bytes) : Bytes := (body.drop 29).takeWhile (· ≠ 0)

/-- What a decoded share is known to fit, with the username its message has. -/
theorem decode_fits {body : Bytes} (decoded : decode body = .ok s) :
    s.Fits (Utf8.lossy (usernameOnWire body)) ∧ (usernameOnWire body).length ≤ maxUsername := by
  obtain ⟨⟨s', c'⟩, through, rfl⟩ : ∃ out, read (body.length + 1) ⟨body, 0⟩ = .ok out ∧ out.1 = s := by
    rw [decode] at decoded
    cases outcome : read (body.length + 1) ⟨body, 0⟩ with
    | error fault =>
      rw [outcome] at decoded
      cases decoded
    | ok out =>
      rw [outcome] at decoded
      cases decoded
      exact ⟨out, rfl, rfl⟩
  obtain ⟨_, _, job, through⟩ := bind_ok through
  obtain ⟨_, _, coinbase, through⟩ := bind_ok through
  obtain ⟨_, _, flags, through⟩ := bind_ok through
  obtain ⟨_, _, pot, through⟩ := bind_ok through
  obtain ⟨_, _, ntime, through⟩ := bind_ok through
  obtain ⟨_, _, nonce, through⟩ := bind_ok through
  obtain ⟨_, _, version, through⟩ := bind_ok through
  obtain ⟨_, _, size, through⟩ := bind_ok through
  split at through
  · cases through
  · obtain ⟨_, _, extranonce, through⟩ := bind_ok through
    obtain ⟨wire, _, named, through⟩ := bind_ok through
    obtain ⟨_, _, reserved, through⟩ := bind_ok through
    rw [array_ok extranonce, u8_ok size, u32_ok version, u32_ok nonce, u32_ok ntime, u8_ok pot, u8_ok flags,
      u8_ok coinbase, u8_ok job] at named
    obtain ⟨same, short⟩ := cstr_ok named
    have wired : wire = usernameOnWire body := same
    rw [← wired]
    refine ⟨ensures_readSections _ ?_ _ _ _ through, short⟩
    exact ⟨rfl, nofun, nofun⟩

/-- A share read off the wire with a username in UTF-8 can be sent, but for a time without its section. -/
theorem sendable_of_decode {body : Bytes} (decoded : decode body = .ok s)
    (valid : ∃ text, usernameOnWire body = Utf8.bytes text)
    (timed : s.timeOnWire.isSome = true → s.blake2b.isSome = true) :
    s.Sendable := by
  obtain ⟨fits, short⟩ := decode_fits decoded
  obtain ⟨text, same⟩ := valid
  have name : Utf8.bytes s.username = usernameOnWire body := by rw [fits.username, same, Utf8.lossy_bytes]
  refine ⟨?_, by rw [name]; exact short, fits.branches, fits.pieces, timed⟩
  rw [name]
  intro zero
  have nonzero := List.mem_takeWhile_imp zero
  simp at nonzero

end PowMessage

end Decoded

private theorem parseClient_encode {s : PowMessage} (sendable : s.Sendable) (pad : Bytes) :
    parseClient (s.encode ++ pad) = .ok (.pow s) := by
  rw [PowMessage.encode, List.cons_append, parseClient, if_neg (by decide),
    if_pos rfl, PowMessage.decode_body sendable]
  rfl

/-- A share a gateway can send is read back from its bytes, whatever follows them. Any bytes are read as a
share or a reply to job validation, or refused, with nothing out of range. A share read with a username in
UTF-8, and a time only with its section, is read back from what it is sent as. -/
theorem share_survives_wire :
    (∀ s pad, PowMessage.Sendable s → parseClient (s.encode ++ pad) = .ok (.pow s)) ∧
      (∀ body, ((∃ s, PowMessage.decode body = .ok s) ∨ ∃ e, PowMessage.decode body = .error (.error e)) ∧
        ((∃ r, JobValidationReply.decode body = .ok r) ∨ ∃ e,
          JobValidationReply.decode body = .error (.error e))) ∧
      ∀ body s, PowMessage.decode body = .ok s → (∃ text, PowMessage.usernameOnWire body = Utf8.bytes text) →
        (s.timeOnWire.isSome = true → s.blake2b.isSome = true) → parseClient s.encode = .ok (.pow s) := by
  refine ⟨fun s pad sendable => parseClient_encode sendable pad, ?_, ?_⟩
  · intro body
    exact ⟨returns PowMessage.safe_read, returns JobValidationReply.safe_read⟩
  · intro body s decoded valid timed
    have whole := parseClient_encode (PowMessage.sendable_of_decode decoded valid timed) []
    rwa [List.append_nil] at whole

/-- A share as the tests send it: every section, and padding after the end. -/
theorem share_survives_wire_everySection :
    let s : PowMessage :=
      { jobId := 3, coinbaseId := 4, flags := 0x0c, targetPot := 13, ntime32 := 0x01020304,
        nonce32 := 0x0a0b0c0d
        version := 0xa0000000, extranonce := Fixed.ofNat 12 0xabaaa9a8a7a6a5a4a3a2a1a0,
        username := "bc1qexample.rig1"
        reserved := Fixed.ofNat 4 1,
        blake2b := some { ntime := Fixed.ofNat 8 0x0807060504030201, nonce := Fixed.zero 8 }
        timeOnWire := some 1788400000
        job := some
          { prevHash := Fixed.zero 32, targetByteIndex := 47, nbits := Fixed.ofNat 4 0x193c2d40,
            height := 966267, txnCount := 58, merkleBranches := [Fixed.ofNat 32 1, Fixed.ofNat 32 2] }
        coinbase := some { coinbaseId := 4, coinb1 := [1, 2, 3, 4, 5], coinb2 := [6, 7] } }
    parseClient (s.encode ++ List.replicate 40 0x55) = .ok (.pow s) ∧ parseClient s.encode = .ok (.pow s) := by
  intro s
  have sendable : s.Sendable := ⟨by decide, by decide, by decide, by decide, fun _ => rfl⟩
  have decoded : PowMessage.decode s.body = .ok s := by decide +kernel
  have named : PowMessage.usernameOnWire s.body = Utf8.bytes "bc1qexample.rig1" := by decide
  exact ⟨share_survives_wire.1 s _ sendable, share_survives_wire.2.2 s.body s decoded ⟨_, named⟩ fun _ => rfl⟩

/-- A share with a time and no section for it is decoded, but not from what it is sent as: the time is left
out. -/
theorem time_lost_without_section :
    ¬ ∀ body s, PowMessage.decode body = .ok s → (∃ text, PowMessage.usernameOnWire body = Utf8.bytes text) →
      parseClient s.encode = .ok (.pow s) := by
  intro every
  have decoded :
    PowMessage.decode (List.replicate 16 0 ++ [12] ++ List.replicate 12 0 ++ [0x61, 0] ++ List.replicate 4 0 ++
      [0x04, 1, 0, 0, 0] ++ [endMark]) =
      .ok { jobId := 0, coinbaseId := 0, flags := 0, targetPot := 0, ntime32 := 0, nonce32 := 0, version := 0,
            extranonce := Fixed.zero 12, username := "a", timeOnWire := some 1 } := by decide
  have again := every _ _ decoded ⟨"a", by decide⟩
  revert again
  decide

end Lazarus.Wire
