import Lazarus.Lib.Arrivals
import Lazarus.Wire.Cursor

/-! The gate a miner passes at its first subscribe. It holds the reply until the miner says who it is, then
serves the miner here, with the lines it has read, or relays it to another pool. -/

namespace Lazarus.Gateway

open Arrivals
open Wire (Bytes)

def relayMaxLine : Nat := 8 * 1024

def gateMaxLines : Nat := 6

def relayLinesPerSec : Nat := 400

def ended (line : Bytes) : Bool := line.getLast? == some newline

/-- Where the gate stops reading: the lines it has, the name in them, whether the miner hung
up, and what is to come. -/
structure GateRead where
  buf : List Bytes
  user : String := ""
  gone : Bool := false
  rest : List Arrival
deriving DecidableEq

/-- What the gate does not decide by what the miner sends: the pool's state, the other pool, and the clock. A
line of the relay and a write to the other pool are told by their number. -/
structure Course where
  considers : Bool
  relays : String → Bool
  allows : String → Bool
  newSecond : Nat → Bool
  writes : Nat → Bool

section Gate

-- The name in a line that authorizes, and whether there is time for one more line.
variable (authorizeUser : Bytes → Option String) (inTime : Nat → Bool)

/-- The rest of a line the wait ran out in, read at the normal timeout. -/
def finishLine (buf : List Bytes) (line : Bytes) (arrivals : List Arrival) : GateRead :=
  match readLine false (relayMaxLine + 1) line arrivals with
  | (line, some n, rest) =>
    if 0 < n ∧ line.length ≤ relayMaxLine ∧ ended line then
      { buf := buf ++ [line], user := (authorizeUser line).getD "", rest }
    else { buf, rest }
  | (_, none, rest) => { buf, rest }

/-- The gate's reads, of so many more lines at most. -/
def gateRead : Nat → List Bytes → List Arrival → GateRead
  | 0, buf, arrivals => { buf, rest := arrivals }
  | more + 1, buf, arrivals =>
    if !inTime buf.length then { buf, rest := arrivals }
    else
      match readLine true (relayMaxLine + 1) [] arrivals with
      | (line, some n, rest) =>
        if n = 0 then { buf, gone := true, rest }
        else if relayMaxLine < n ∨ !ended line then { buf, rest }
        else
          match authorizeUser line with
          | some user => { buf := buf ++ [line], user, rest }
          | none => gateRead more (buf ++ [line]) rest
      | (line, none, rest) =>
        -- the wait ran out mid-line, as far as the bytes that were read can tell
        if line ≠ [] ∧ !ended line then finishLine authorizeUser buf line rest else { buf, rest }

/-- The lines that reach the other pool before a write fails, and whether none did. -/
def writeAll (writes : Nat → Bool) : Nat → List Bytes → List Bytes × Bool
  | _, [] => ([], true)
  | count, line :: lines =>
    if writes count then
      let (written, well) := writeAll writes (count + 1) lines
      (line :: written, well)
    else ([], false)

/-- The miner's lines that the relay writes, from its `count`-th write on. -/
def pumpLines (c : Course) : Nat → Nat → Nat → List Arrival → List Bytes
  | 0, _, _, _ => []
  | rounds + 1, secLines, count, arrivals =>
    match readLine false (relayMaxLine + 1) [] arrivals with
    | (line, some n, rest) =>
      if n = 0 ∨ relayMaxLine < n ∨ !ended line then []
      else
        let secLines := (if c.newSecond count then 0 else secLines) + 1
        if relayLinesPerSec < secLines then []
        else if (authorizeUser line).any fun user => !c.allows user then []
        else if c.writes count then line :: pumpLines c rounds secLines (count + 1) rest
        else []
    | (_, none, _) => []

/-- What the relay writes: these lines first, then the miner's. Each takes a newline, so as many rounds as there
are arrivals are enough. -/
def pump (c : Course) (initial : List Bytes) (arrivals : List Arrival) : List Bytes :=
  match writeAll c.writes 0 initial with
  | (written, false) => written
  | (written, true) => written ++ pumpLines authorizeUser c arrivals.length 0 initial.length arrivals

/-- The miner's subscribe as a line. -/
def subscribeLine (first : Bytes) : Bytes := if ended first then first else first ++ [newline]

/-- How the gate ends: the miner is served here, the lines read so far first, or was relayed. -/
inductive Gated where
  | served (lines : List Bytes) (rest : List Arrival)
  | relayed (written : List Bytes)
deriving DecidableEq

def gate (c : Course) (first : Bytes) (arrivals : List Arrival) : Gated :=
  if !c.considers then .served [] arrivals
  else
    let r := gateRead authorizeUser inTime gateMaxLines [] arrivals
    if r.gone && r.user == "" then .served r.buf r.rest
    else if c.relays r.user then .relayed (pump authorizeUser c (subscribeLine first :: r.buf) r.rest)
    else .served r.buf r.rest

/-- The gate loses no line: those it read and what is to come are the miner's, and what a relay wrote is the
subscribe with a number of the miner's lines behind it, or nothing where its first write fails. -/
def Gated.Lossless (c : Course) (first : Bytes) (lines : List Bytes) : Gated → Prop
  | .served buf rest => ∃ n, buf = lines.take n ∧ bytes rest = (lines.drop n).flatten
  | .relayed written => ∃ n, written = (subscribeLine first :: lines).take n ∧ (c.writes 0 = true → 0 < n)

/-- The lines the gate reads if no wait runs out. -/
def wanted : Nat → Nat → List Bytes → List Bytes
  | more + 1, count, line :: lines =>
    if inTime count then line :: if (authorizeUser line).isSome then [] else
      wanted more (count + 1) lines else []
  | _, _, _ => []

/-- The bytes that come without a wait. -/
def lead : List Arrival → Bytes
  | .byte b :: rest => b :: lead rest
  | _ => []

/-- What follows the last newline. -/
def unended : Bytes → Bytes
  | [] => []
  | b :: rest => if newline ∈ b :: rest then unended rest else b :: rest

/-- The gate's wait runs out behind the lines it reads, or behind a line; or it is inside a line but not inside
a character, and the rest of that line comes before the normal timeout. -/
def Uncut (more count : Nat) (lines : List Bytes) (arrivals : List Arrival) : Prop :=
  (wanted authorizeUser inTime more count lines).flatten.length ≤ (lead arrivals).length ∨
    Utf8.valid (unended (lead arrivals)) = true ∧
      (unended (lead arrivals) = [] ∨ ¬ Broken (arrivals.drop (lead arrivals).length))

instance (more count : Nat) (lines : List Bytes) (arrivals : List Arrival) :
    Decidable (Uncut authorizeUser inTime more count lines arrivals) :=
  inferInstanceAs (Decidable (_ ∨ _ ∧ (_ ∨ ¬ _)))

end Gate

section Cut

private theorem lead_map_byte (data : Bytes) (rest : List Arrival) : lead
    (data.map .byte ++ rest) = data ++ lead rest := by
  induction data with
  | nil => rfl
  | cons b data ih => rw [List.map_cons, List.cons_append, lead, ih, List.cons_append]

private theorem lead_cut (part : Bytes) {event : Arrival} (rest : List Arrival)
    (waits : event = .pause ∨ event = .quiet) : lead (part.map .byte ++ event :: rest) = part := by
  rw [lead_map_byte]
  rcases waits with rfl | rfl <;> exact List.append_nil part

private theorem unended_line (body rest : Bytes) : unended (body ++ newline :: rest) = unended rest := by
  induction body with
  | nil => exact if_pos List.mem_cons_self
  | cons b body ih => rw [List.cons_append, unended, if_pos (by simp), ih]

private theorem unended_of_single {part : Bytes} (single : newline ∉ part) : unended part = part := by
  cases part with
  | nil => rfl
  | cons b rest => exact if_neg single

private theorem ended_append (body : Bytes) : ended (body ++ [newline]) = true := by
  simp [ended]

private theorem not_ended {part : Bytes} (single : newline ∉ part) : ended part = false := by
  rw [ended, beq_eq_false_iff_ne]
  exact fun last => single (List.mem_of_getLast? last)

end Cut

section Reads

variable {authorizeUser : Bytes → Option String} {inTime : Nat → Bool}
  {lines buf : List Bytes} {arrivals : List Arrival}

private theorem finishLine_buf (line : Bytes) :
    ∃ read, (finishLine authorizeUser buf line arrivals).buf = buf ++ read := by
  unfold finishLine
  split
  · split
    · exact ⟨_, rfl⟩
    · exact ⟨[], (List.append_nil _).symm⟩
  · exact ⟨[], (List.append_nil _).symm⟩

private theorem gateRead_buf (more : Nat) (buf : List Bytes) (arrivals : List Arrival) :
    ∃ read, (gateRead authorizeUser inTime more buf arrivals).buf = buf ++ read := by
  induction more generalizing buf arrivals with
  | zero => exact ⟨[], (List.append_nil _).symm⟩
  | succ more ih =>
    have same : ∃ read : List Bytes, buf = buf ++ read := ⟨[], (List.append_nil _).symm⟩
    unfold gateRead
    split
    · exact same
    · split
      · split
        · exact same
        · split
          · exact same
          · split
            · exact ⟨_, rfl⟩
            · rename_i line _ rest _ _ _ _ _
              obtain ⟨further, shape⟩ := ih (buf ++ [line]) rest
              exact ⟨[line] ++ further, by rw [shape, List.append_assoc]⟩
      · split
        · exact finishLine_buf _
        · exact same

/-- Some of the lines were read into the buffer, and the bytes of the others are to come. -/
def Retains (buf lines : List Bytes) (r : GateRead) : Prop :=
  ∃ n, r.buf = buf ++ lines.take n ∧ bytes r.rest = (lines.drop n).flatten

private theorem not_retains {r : GateRead} {line : Bytes} (same : r.buf = buf)
    (fewer : (bytes r.rest).length < (line :: lines).flatten.length) : ¬ Retains buf (line :: lines) r := by
  rintro ⟨n, read, coming⟩
  rw [same, List.self_eq_append_right, List.take_eq_nil_iff] at read
  obtain rfl : n = 0 := read.resolve_right (by simp)
  rw [coming, List.drop_zero] at fewer
  exact Nat.lt_irrefl _ fewer

private theorem retains_none {r : GateRead} (same : r.buf = buf) (coming : bytes r.rest = lines.flatten) :
    Retains buf lines r :=
  ⟨0, by rw [same, List.take_zero, List.append_nil], coming⟩

variable {line : Bytes} {rest : List Arrival}

private theorem retains_cons {r : GateRead} (read : ∃ more, r.buf = buf ++ [line] ++ more) :
    Retains buf (line :: lines) r ↔ Retains (buf ++ [line]) lines r := by
  constructor
  · rintro ⟨n, taken, coming⟩
    cases n with
    | zero =>
      obtain ⟨more, further⟩ := read
      have size := congrArg List.length (taken.symm.trans further)
      simp at size
    | succ n => exact ⟨n, by rw [taken, List.take_succ_cons, List.append_assoc]; rfl, coming⟩
  · rintro ⟨n, taken, coming⟩
    exact ⟨n + 1, by rw [taken, List.take_succ_cons, List.append_assoc]; rfl, coming⟩

private theorem gateRead_late (more : Nat) (late : inTime buf.length = false) :
    gateRead authorizeUser inTime (more + 1) buf arrivals = { buf, rest := arrivals } := by
  rw [gateRead, late]
  rfl

private theorem gateRead_line (more : Nat) (here : inTime buf.length = true) (is : TextLine relayMaxLine line)
    (read : readUntil true (relayMaxLine + 1) arrivals = (line, true, rest)) :
    gateRead authorizeUser inTime (more + 1) buf arrivals =
      match authorizeUser line with
      | some user => { buf := buf ++ [line], user, rest }
      | none => gateRead authorizeUser inTime more (buf ++ [line]) rest := by
  obtain ⟨⟨body, rfl, -⟩, text, short⟩ := is
  have some : ¬ (body ++ [newline]).length = 0 := by simp
  have whole : ¬ (relayMaxLine < (body ++ [newline]).length ∨ (!ended (body ++ [newline])) = true) := by
    rw [ended_append]
    exact fun either => either.elim (Nat.not_lt.mpr short) (by simp)
  rw [gateRead, here, readLine, read]
  simp only [Bool.not_true, Bool.false_eq_true, if_false, text, if_true, List.nil_append, some, whole]

private theorem gateRead_none (more : Nat) (here : inTime buf.length = true) (none : bytes arrivals = []) :
    ∃ r, gateRead authorizeUser inTime (more + 1) buf arrivals = r ∧ r.buf = buf ∧ bytes r.rest = [] := by
  obtain ⟨nothing, behind⟩ := readUntil_none true (relayMaxLine + 1) none
  rcases found : readUntil true (relayMaxLine + 1) arrivals with ⟨data, well, rest⟩
  rw [found] at nothing behind
  obtain rfl : data = [] := nothing
  rw [gateRead, here, readLine, found]
  cases well with
  | true => exact ⟨_, rfl, rfl, behind⟩
  | false => exact ⟨_, rfl, rfl, behind⟩

private theorem gateRead_cut (more : Nat) (here : inTime buf.length = true) {part : Bytes}
    (read : readUntil true (relayMaxLine + 1) arrivals = (part, false, rest))
    (dropped : part = [] ∨ Utf8.valid part = false) :
    gateRead authorizeUser inTime (more + 1) buf arrivals = { buf, rest } := by
  have line : readLine true (relayMaxLine + 1) [] arrivals = ([], none, rest) := by
    rw [readLine, read]
    rcases dropped with rfl | broken
    · rfl
    · simp only [broken, Bool.false_eq_true, if_false]
  rw [gateRead, here, line]
  rfl

private theorem gateRead_finish (more : Nat) (here : inTime buf.length = true) {part : Bytes} (some : part ≠ [])
    (single : newline ∉ part) (text : Utf8.valid part = true)
    (read : readUntil true (relayMaxLine + 1) arrivals = (part, false, rest)) :
    gateRead authorizeUser inTime (more + 1) buf arrivals = finishLine authorizeUser buf part rest := by
  have line : readLine true (relayMaxLine + 1) [] arrivals = (part, none, rest) := by
    rw [readLine, read]
    simp only [text, if_true, List.nil_append, Bool.false_eq_true, if_false]
  rw [gateRead, here, line]
  simp only [Bool.not_true, Bool.false_eq_true, if_false, ne_eq, some,
    not_false_eq_true, not_ended single, Bool.not_false, and_self, if_true]

private theorem finishLine_retains {part left : Bytes} (is : TextLine relayMaxLine line)
    (split : line = part ++ (left ++ [newline])) (some : part ≠ []) (single : newline ∉ part ++ left)
    (text : Utf8.valid part = true) (coming : bytes arrivals = left ++ newline :: lines.flatten) :
    Retains buf (line :: lines) (finishLine authorizeUser buf part arrivals) ↔ ¬ Broken arrivals := by
  have rest : Utf8.valid (left ++ [newline]) = true := Utf8.valid_of_append text (split ▸ is.text)
  have single : newline ∉ left := fun member => single (List.mem_append_right part member)
  have size : line.length = part.length + (left.length + 1) := by
    rw [split, List.length_append, List.length_append]
    rfl
  have room : left.length < relayMaxLine + 1 := by
    have short := is.short
    omega
  rcases readUntil_long coming single
    room with ⟨after, read, still, whole⟩ | ⟨piece, tail, after, read, parts, still, broken⟩
  · have ends : 0 < (left ++ [newline]).length ∧ line.length ≤ relayMaxLine ∧ ended line = true := by
      refine ⟨by simp, is.short, ?_⟩
      rw [split, ← List.append_assoc]
      exact ended_append _
    have finished : finishLine authorizeUser buf part arrivals =
        { buf := buf ++ [line], user := (authorizeUser line).getD "", rest := after } := by
      rw [finishLine, readLine, read]
      simp only [rest, if_true, ← split]
      exact if_pos ends
    rw [finished]
    exact iff_of_true ⟨1, rfl, still⟩ whole
  · have lost : ∃ kept : GateRead, finishLine authorizeUser buf part arrivals = kept ∧
        kept.buf = buf ∧ kept.rest = after := by
      rw [finishLine, readLine, read]
      by_cases valid : Utf8.valid piece = true
      · simp only [valid, if_true, Bool.false_eq_true, if_false]
        exact ⟨_, rfl, rfl, rfl⟩
      · simp only [valid, Bool.false_eq_true, if_false]
        exact ⟨_, rfl, rfl, rfl⟩
    obtain ⟨kept, shape, same, behind⟩ := lost
    rw [shape]
    refine iff_of_false (not_retains same ?_) (not_not.mpr broken)
    have fewer : tail.length ≤ left.length := by
      have count := congrArg List.length parts
      rw [List.length_append] at count
      omega
    have first : 0 < part.length := List.length_pos_iff.mpr some
    rw [behind, still, List.flatten_cons, List.length_append, List.length_append, List.length_cons, size]
    omega

private theorem gateRead_retains (more : Nat) (are : ∀ line ∈ lines, TextLine relayMaxLine line)
    (coming : bytes arrivals = lines.flatten) :
    Retains buf lines (gateRead authorizeUser inTime more buf arrivals) ↔
      Uncut authorizeUser inTime more buf.length lines arrivals := by
  induction more generalizing buf lines arrivals with
  | zero => exact iff_of_true (retains_none rfl coming) (.inl (by simp [wanted]))
  | succ more ih =>
    cases here : inTime buf.length with
    | false =>
      rw [gateRead_late more here]
      refine iff_of_true (retains_none rfl coming) (.inl ?_)
      cases lines with
      | nil => exact Nat.zero_le _
      | cons line lines => simp [wanted, here]
    | true =>
      cases lines with
      | nil =>
        obtain ⟨r, read, same, behind⟩ := gateRead_none more here coming
        rw [read]
        exact iff_of_true (retains_none same behind) (.inl (Nat.zero_le _))
      | cons line lines =>
        have is := are line List.mem_cons_self
        obtain ⟨body, shape, single⟩ := is.ended
        have others := fun other member => are other (List.mem_cons_of_mem line member)
        have first : bytes arrivals = body ++ newline :: lines.flatten := by
          rw [coming, List.flatten_cons, shape, List.append_assoc]
          rfl
        have room : body.length < relayMaxLine + 1 := by
          have short := is.short
          rw [shape, List.length_append] at short
          exact Nat.lt_succ_of_le (Nat.le_of_succ_le short)
        have size : line.length = body.length + 1 := by
          rw [shape, List.length_append]
          rfl
        have wants : wanted authorizeUser inTime (more + 1) buf.length (line :: lines) =
            line :: if (authorizeUser line).isSome then [] else
              wanted authorizeUser inTime more (buf.length + 1) lines := by
          rw [wanted, if_pos here]
        rcases readUntil_short first single room with ⟨rest, read, arrived⟩ |
          ⟨part, left, rest, read, parts, still, ⟨event, after, arrived, waits⟩, quiet⟩
        · rw [← shape] at read arrived
          have behind : bytes rest = lines.flatten := by
            rw [arrived, bytes_append, bytes_map_byte, List.flatten_cons] at coming
            exact List.append_cancel_left coming
          have leading : lead arrivals = line ++ lead rest := by rw [arrived, lead_map_byte]
          rw [gateRead_line more here is read]
          cases named : authorizeUser line with
          | some user =>
            refine iff_of_true ⟨1, rfl, behind⟩ (.inl ?_)
            rw [wants, named, leading]
            simp
          | none =>
            have next := @ih lines (buf ++ [line]) rest others behind
            have same : Uncut authorizeUser inTime (more + 1) buf.length (line :: lines) arrivals ↔
                Uncut authorizeUser inTime more (buf ++ [line]).length lines rest := by
              have tail : unended (line ++ lead rest) = unended (lead rest) := by
                rw [shape, List.append_assoc]
                exact unended_line body _
              have dropped : arrivals.drop (line ++ lead rest).length = rest.drop (lead rest).length := by
                rw [arrived, List.length_append, ← @List.length_map _ _ line Arrival.byte,
                  List.drop_length_add_append]
              unfold Uncut
              rw [wants, named, leading, tail, dropped, List.length_append,
                List.length_append, List.length_singleton]
              simp
            rw [same, ← next]
            exact retains_cons (gateRead_buf more (buf ++ [line]) rest)
        · have plain : newline ∉ part := fun member => single (parts ▸ List.mem_append_left left member)
          have leading : lead arrivals = part := by rw [arrived, lead_cut part after waits]
          have before : part.length ≤ body.length := by
            rw [← parts, List.length_append]
            exact Nat.le_add_right _ _
          have misses : ¬ (wanted authorizeUser inTime (more + 1) buf.length (line :: lines)).flatten.length ≤
              part.length := by
            rw [wants, List.flatten_cons, List.length_append, size]
            omega
          have cut : Uncut authorizeUser inTime (more + 1) buf.length (line :: lines) arrivals ↔
              Utf8.valid part = true ∧ (part = [] ∨ ¬ Broken rest) := by
            unfold Uncut
            rw [leading, unended_of_single plain, quiet, or_iff_right misses]
          rw [cut]
          by_cases none : part = []
          · subst none
            rw [gateRead_cut more here read (.inl rfl)]
            refine iff_of_true (retains_none rfl ?_) ⟨rfl, .inl rfl⟩
            rw [List.nil_append] at parts
            rw [still, parts, List.flatten_cons, shape, List.append_assoc]
            rfl
          · have count : 0 < part.length := List.length_pos_iff.mpr none
            cases text : Utf8.valid part with
            | false =>
              rw [gateRead_cut more here read (.inr text)]
              refine iff_of_false (not_retains rfl ?_) (fun both => Bool.false_ne_true both.1)
              have whole := congrArg List.length parts
              rw [List.length_append] at whole
              rw [still, List.length_append, List.length_cons, List.flatten_cons, List.length_append, size]
              omega
            | true =>
              rw [gateRead_finish more here none plain text read,
                finishLine_retains is (by rw [shape, ← parts, List.append_assoc])
                  none (parts ▸ single) text still]
              exact ⟨fun whole => ⟨rfl, .inr whole⟩, fun both => both.2.resolve_left none⟩

end Reads

section Relay

variable {authorizeUser : Bytes → Option String} {inTime : Nat → Bool}
  {lines : List Bytes} {arrivals : List Arrival} {c : Course} {first : Bytes}

private theorem writeAll_prefix (writes : Nat → Bool) (count : Nat) (lines : List Bytes) :
    ∃ n, (writeAll writes count lines).1 = lines.take n ∧ (writes count = true → lines ≠ [] → 0 < n) ∧
      ((writeAll writes count lines).2 = true → n = lines.length) := by
  induction lines generalizing count with
  | nil => exact ⟨0, rfl, fun _ some => absurd rfl some, fun _ => rfl⟩
  | cons line lines ih =>
    unfold writeAll
    split
    · obtain ⟨n, written, -, whole⟩ := ih (count + 1)
      exact ⟨n + 1, by rw [List.take_succ_cons, ← written], fun _ _ => Nat.succ_pos n,
        fun well => congrArg Nat.succ (whole well)⟩
    · rename_i fails
      exact ⟨0, rfl, fun goes => absurd goes fails, fun well => absurd well Bool.false_ne_true⟩

private theorem pumpLines_prefix (rounds secLines count : Nat)
    (are : ∀ line ∈ lines, TextLine relayMaxLine line)
    (coming : bytes arrivals = lines.flatten) :
    ∃ n, pumpLines authorizeUser c rounds secLines count arrivals = lines.take n := by
  induction rounds generalizing secLines count lines arrivals with
  | zero => exact ⟨0, rfl⟩
  | succ rounds ih =>
    have stop : ∃ n, ([] : List Bytes) = lines.take n := ⟨0, rfl⟩
    unfold pumpLines
    cases lines with
    | nil =>
      obtain ⟨nothing, -⟩ := readUntil_none false (relayMaxLine + 1) coming
      rcases found : readUntil false (relayMaxLine + 1) arrivals with ⟨data, well, rest⟩
      rw [found] at nothing
      obtain rfl : data = [] := nothing
      rw [readLine, found]
      cases well with
      | true => exact stop
      | false => exact stop
    | cons line lines =>
      have is := are line List.mem_cons_self
      obtain ⟨body, shape, single⟩ := is.ended
      have first : bytes arrivals = body ++ newline :: lines.flatten := by
        rw [coming, List.flatten_cons, shape, List.append_assoc]
        rfl
      have room : body.length < relayMaxLine + 1 := by
        have short := is.short
        rw [shape, List.length_append] at short
        exact Nat.lt_succ_of_le (Nat.le_of_succ_le short)
      rcases readUntil_long first single room with ⟨rest, read, behind, -⟩ | ⟨part, left, rest, read, -, -, -⟩
      · rw [readLine, read, ← shape]
        simp only [is.text, if_true, List.nil_append]
        generalize (if c.newSecond count = true then 0 else secLines) + 1 = seen
        obtain ⟨n, later⟩ :=
          ih seen (count + 1) (fun other member => are other (List.mem_cons_of_mem line member)) behind
        split
        · exact stop
        · split
          · exact stop
          · split
            · exact stop
            · split
              · exact ⟨n + 1, by rw [later, List.take_succ_cons]⟩
              · exact stop
      · rw [readLine, read]
        by_cases text : Utf8.valid part = true
        · simp only [text, if_true, Bool.false_eq_true, if_false]
          exact stop
        · simp only [text, Bool.false_eq_true, if_false]
          exact stop

private theorem pump_prefix {n : Nat} (are : ∀ line ∈ lines, TextLine relayMaxLine line)
    (coming : bytes arrivals = (lines.drop n).flatten) :
    ∃ m, pump authorizeUser c (first :: lines.take n) arrivals =
      (first :: lines).take m ∧ (c.writes 0 = true → 0 < m) := by
  obtain ⟨m, written, some, whole⟩ := writeAll_prefix c.writes 0 (first :: lines.take n)
  unfold pump
  rcases found : writeAll c.writes 0 (first :: lines.take n) with ⟨done, well⟩
  rw [found] at written whole
  cases well with
  | false =>
    refine ⟨min m (n + 1), ?_, fun goes => lt_min (some goes (List.cons_ne_nil _ _)) (Nat.succ_pos n)⟩
    show done = _
    rw [← List.take_take, List.take_succ_cons, ← written]
  | true =>
    obtain ⟨k, later⟩ :
      ∃ k, pumpLines authorizeUser c arrivals.length 0 (first :: lines.take n).length arrivals =
        (lines.drop n).take k :=
      pumpLines_prefix arrivals.length 0 _ (fun line member => are line (List.mem_of_mem_drop member)) coming
    refine ⟨n + k + 1, ?_, fun _ => Nat.succ_pos _⟩
    have all : done = first :: lines.take n := by
      rw [show done = _ from written, whole rfl, List.take_length]
    show done ++ _ = _
    rw [all, later, List.take_succ_cons, List.take_add, List.cons_append]

/-- The course in which the miner is served here, whatever it says. -/
def servedHere : Course where
  considers := true
  relays _ := false
  allows _ := true
  newSecond _ := true
  writes _ := true

private theorem lossless_servedHere :
    (gate authorizeUser inTime servedHere first arrivals).Lossless servedHere first lines ↔
    Retains [] lines (gateRead authorizeUser inTime gateMaxLines [] arrivals) := by
  unfold gate
  simp only [servedHere, Bool.not_true, Bool.false_eq_true, if_false, ite_self]
  exact Iff.rfl

end Relay

/-- A gate loses no line, whether it serves the miner or relays it, exactly if no line is cut by the end of the
gate's wait inside a character, and none that is cut at all waits for its end beyond the normal timeout. -/
theorem gate_lossless_iff (authorizeUser : Bytes → Option String) (inTime : Nat → Bool)
    {first : Bytes} {lines : List Bytes} {arrivals : List Arrival}
    (are : ∀ line ∈ lines, TextLine relayMaxLine line) (coming : bytes arrivals = lines.flatten) :
    (∀ c : Course, (gate authorizeUser inTime c first arrivals).Lossless c first lines) ↔
      Uncut authorizeUser inTime gateMaxLines 0 lines arrivals := by
  have kept : Retains [] lines (gateRead authorizeUser inTime gateMaxLines [] arrivals) ↔ _ :=
    gateRead_retains gateMaxLines are coming
  rw [← (show _ ↔ Uncut authorizeUser inTime gateMaxLines 0 lines arrivals from kept)]
  constructor
  · intro lossless
    exact lossless_servedHere.mp (lossless servedHere)
  · rintro ⟨n, read, rest⟩ c
    rw [List.nil_append] at read
    unfold gate
    split
    · exact ⟨0, rfl, coming⟩
    · simp only
      split
      · exact ⟨n, read, rest⟩
      · split
        · rw [read]
          exact pump_prefix are rest
        · exact ⟨n, read, rest⟩

/-- A line of two characters, the second of two bytes. The wait runs out behind so many of its bytes. -/
private def cutArrivals (pausedAfter : Nat) : List Arrival :=
  (([104, 0xc3, 0xa9, newline] : Bytes).take pausedAfter).map .byte ++ .pause ::
    (([104, 0xc3, 0xa9, newline] : Bytes).drop pausedAfter).map .byte

private theorem accented : TextLine relayMaxLine [104, 0xc3, 0xa9, newline] where
  ended := ⟨[104, 0xc3, 0xa9], rfl, by decide⟩
  text := Utf8.valid_iff.mpr ⟨['h', 'é', Char.ofNat 10], by decide⟩
  short := by decide

private theorem accentedOnly : ∀ line ∈ [([104, 0xc3, 0xa9, newline] : Bytes)], TextLine relayMaxLine line := by
  intro line member
  rw [List.mem_singleton.mp member]
  exact accented

theorem gate_lossless_iff_between :
    Uncut (fun _ => none) (fun _ => true) gateMaxLines 0 [[104, 0xc3, 0xa9, newline]]
      (cutArrivals 1) ∧ ∀ c : Course,
      (gate (fun _ => none) (fun _ => true) c [] (cutArrivals 1)).Lossless c [] [[104, 0xc3, 0xa9, newline]] :=
  ⟨by decide, (gate_lossless_iff (fun _ => none) (fun _ => true) accentedOnly rfl).mpr (by decide)⟩

/-- The wait that runs out inside a character: the bytes of the line so far are gone, and what is
served is not a line. -/
theorem gate_drops_cut_character : ¬ ∀ (lines : List Bytes) (arrivals : List Arrival),
    (∀ line ∈ lines, TextLine relayMaxLine line) → bytes arrivals = lines.flatten →
    ∀ c : Course, (gate (fun _ => none) (fun _ => true) c [] arrivals).Lossless c [] lines := by
  intro claim
  have lossless := lossless_servedHere.mp (claim _ (cutArrivals 2) accentedOnly rfl servedHere)
  have uncut := (gateRead_retains gateMaxLines accentedOnly rfl).mp lossless
  revert uncut
  decide

end Lazarus.Gateway
