import Lazarus.Tides.BlockLog

/-! The bytes of `blocks.jsonl`. A record is one line, written at the end of the file as it is found, so
a line that a crash cut short is still there when the next record is written. -/

namespace Lazarus.Tides

open Machine

section Order

private theorem map_hash_fileRecord (out : List BlockRecord) (r : BlockRecord) :
    (fileRecord out r).map BlockRecord.hash =
      if r.hash ∈ out.map BlockRecord.hash then out.map BlockRecord.hash else
        out.map BlockRecord.hash ++ [r.hash] := by
  unfold fileRecord
  cases found : out.find? (BlockRecord.isFor r.hash) with
  | none =>
    have absent : r.hash ∉ out.map BlockRecord.hash := by
      intro member
      obtain ⟨other, present, same⟩ := List.mem_map.mp member
      exact List.find?_eq_none.mp found other present (BlockRecord.isFor_iff.mpr same)
    have fails : ¬ out.any (BlockRecord.isFor r.hash) = true := by simpa using found
    rw [if_neg fails, if_neg absent, List.map_append, List.map_cons, List.map_nil]
  | some old =>
    obtain ⟨before, after, shape, _, here, replaced⟩ := Last.replaceFirst_split found r
    have same : old.hash = r.hash := BlockRecord.isFor_iff.mp here
    have holds : out.any (BlockRecord.isFor r.hash) = true := by
      simpa using ⟨old, List.mem_of_find?_eq_some found, same⟩
    have present : r.hash ∈ out.map BlockRecord.hash :=
      List.mem_map.mpr ⟨old, List.mem_of_find?_eq_some found, same⟩
    rw [if_pos holds, if_pos present, replaced, shape]
    simp [same]

private theorem map_hash_foldl_fileRecord (done : List BlockRecord) :
    (done.foldl fileRecord []).map BlockRecord.hash = (done.map BlockRecord.hash).eraseDups := by
  induction done using List.reverseRecOn with
  | nil => rfl
  | append_singleton done r ih =>
    rw [List.foldl_append, List.foldl_cons, List.foldl_nil, map_hash_fileRecord, ih, List.map_append,
      List.map_cons, List.map_nil, List.eraseDups_append]
    by_cases seen : r.hash ∈ done.map BlockRecord.hash
    · have kept : r.hash ∈ (done.map BlockRecord.hash).eraseDups := List.mem_eraseDups.mpr seen
      have nothing : [r.hash].removeAll (done.map BlockRecord.hash) = [] := by
        simp [List.removeAll, -List.mem_map, seen]
      rw [if_pos kept, nothing, List.eraseDups_nil, List.append_nil]
    · have fresh : r.hash ∉ (done.map BlockRecord.hash).eraseDups :=
        fun member => seen (List.mem_eraseDups.mp member)
      have one : [r.hash].removeAll (done.map BlockRecord.hash) = [r.hash] := by
        simp [List.removeAll, -List.mem_map, seen]
      rw [if_neg fresh, one]
      rfl

namespace BlockLog

/-- Lines that do not parse count for nothing. -/
theorem readAll_eq_foldl (log : BlockLog) : log.readAll = (log.filterMap id).foldl fileRecord [] := by
  rw [List.foldl_filterMap]
  unfold readAll
  congr 1
  funext out line
  cases line <;> rfl

/-- Records are read in the order their hashes were first written in. -/
theorem map_hash_readAll (log : BlockLog) :
    log.readAll.map BlockRecord.hash = ((log.filterMap id).map BlockRecord.hash).eraseDups := by
  rw [readAll_eq_foldl, map_hash_foldl_fileRecord]

end BlockLog

end Order

/-- The JSON of a record, as the serializer writes it and the parser reads it. -/
structure RecordJson where
  toVec : BlockRecord → List UInt8
  fromSlice : List UInt8 → Option BlockRecord

namespace RecordJson

/-- What the log asks of a record's JSON: it is read back, it is on one line that shows something, and
less than the whole of it is not a record. -/
structure Sound (json : RecordJson) (r : BlockRecord) : Prop where
  readBack : json.fromSlice (json.toVec r) = some r
  oneLine : (10 : UInt8) ∉ json.toVec r
  opened : ∃ b ∈ json.toVec r, b ∉ ([0x20, 0x09, 0x0a, 0x0c, 0x0d] : List UInt8)
  unfinished : ∀ reached < (json.toVec r).length, json.fromSlice ((json.toVec r).take reached) = none

end RecordJson

namespace BlockFile

def newline : UInt8 := 10

def isAsciiWhitespace (b : UInt8) : Bool := b ∈ ([0x20, 0x09, 0x0a, 0x0c, 0x0d] : List UInt8)

def isBlank (line : List UInt8) : Bool := line.all isAsciiWhitespace

variable (json : RecordJson)

/-- The line a record is written as. -/
def line (r : BlockRecord) : List UInt8 := json.toVec r ++ [newline]

/-- The lines of the file that are not blank, parsed. -/
def lines (bytes : List UInt8) : BlockLog :=
  ((bytes.splitOn newline).filter fun line => !isBlank line).map json.fromSlice

def readAll (bytes : List UInt8) : List BlockRecord := (lines json bytes).readAll

/-- A call of `append`, and how many bytes of its line reach the file before it returns or a crash ends it. -/
structure Append where
  record : BlockRecord
  reached : Nat

/-- The whole line is in the file. -/
def Append.completed (call : Append) : Bool := (line json call.record).length ≤ call.reached

/-- The file is opened at its end, wherever that is. -/
def append (bytes : List UInt8) (call : Append) : List UInt8 :=
  bytes ++ (line json call.record).take call.reached

/-- The records whose append completed, in order. -/
def completed (calls : List Append) : List BlockRecord :=
  (calls.filter (Append.completed json)).map Append.record

/-- The file is empty or ends with a line. -/
def AtLineEnd (bytes : List UInt8) : Prop := bytes = [] ∨ bytes.getLast? = some newline

/-- The call does not write behind a torn line, and does not leave its own record with only the line end
missing. -/
def Clear (bytes : List UInt8) (call : Append) : Prop :=
  (call.reached = 0 ∨ AtLineEnd bytes) ∧ call.reached ≠ (json.toVec call.record).length

section Lines

theorem lines_single {text : List UInt8} (single : newline ∉ text) :
    lines json text = if isBlank text then [] else [json.fromSlice text] := by
  have whole : text.splitOn newline = [text] := by
    rw [List.splitOn_eq_splitOnP]
    apply List.splitOnP_eq_singleton
    intro b member
    simpa using fun same : b = newline => single (same ▸ member)
  unfold lines
  rw [whole]
  cases blank : isBlank text with
  | true => simp [blank]
  | false => simp [blank]

theorem lines_nil : lines json [] = [] := by
  have blank : isBlank [] = true := rfl
  rw [lines_single json (by simp), if_pos blank]

/-- A line end separates what stands before it from what stands after it. -/
theorem lines_newline (before after : List UInt8) :
    lines json (before ++ newline :: after) = lines json before ++ lines json after := by
  have split :
      (before ++ newline :: after).splitOn newline = before.splitOn newline ++ after.splitOn newline := by
    simp only [List.splitOn_eq_splitOnP]
    exact List.splitOnP_append_cons before after (by simp)
  unfold lines
  rw [split, List.filter_append, List.map_append]

theorem lines_append {bytes : List UInt8} (ended : AtLineEnd bytes) (more : List UInt8) :
    lines json (bytes ++ more) = lines json bytes ++ lines json more := by
  rcases ended with rfl | last
  · rw [List.nil_append, lines_nil, List.nil_append]
  · obtain ⟨before, rfl⟩ := List.getLast?_eq_some_iff.mp last
    rw [List.append_assoc, List.singleton_append, lines_newline, lines_newline, lines_nil, List.append_nil]

end Lines

section Runs

variable {json}

theorem opened_not_blank {r : BlockRecord} (sound : json.Sound r) : isBlank (json.toVec r) = false := by
  obtain ⟨b, member, shown⟩ := sound.opened
  rw [isBlank, List.all_eq_false]
  exact ⟨b, member, by simpa [isAsciiWhitespace] using shown⟩

theorem lines_line {r : BlockRecord} (sound : json.Sound r) : lines json (line json r) = [some r] := by
  unfold line
  rw [lines_newline, lines_nil, List.append_nil, lines_single json sound.oneLine, opened_not_blank sound,
    sound.readBack]
  rfl

/-- What a torn line leaves is no record. -/
theorem lines_torn {r : BlockRecord} (sound : json.Sound r) {reached : Nat}
    (short : reached < (json.toVec r).length) :
    (lines json ((line json r).take reached)).filterMap id = [] := by
  have cut : (line json r).take reached = (json.toVec r).take reached :=
    List.take_append_of_le_length (Nat.le_of_lt short)
  have single : newline ∉ (json.toVec r).take reached :=
    fun member => sound.oneLine (List.mem_of_mem_take member)
  rw [cut, lines_single json single, sound.unfinished reached short]
  split <;> rfl

/-- A clear call adds its record if it completes, and nothing if it does not. -/
theorem lines_append_call {bytes : List UInt8} {call : Append} (sound : json.Sound call.record)
    (clear : Clear json bytes call) :
    (lines json (append json bytes call)).filterMap id =
      (lines json bytes).filterMap id ++ completed json [call] := by
  obtain ⟨place, ended⟩ := clear
  have length : (line json call.record).length = (json.toVec call.record).length + 1 := by simp [line]
  rcases place with nothing | atEnd
  · have pending : call.completed json = false := by simp [Append.completed, nothing, length]
    simp [append, completed, nothing, pending]
  · unfold append
    rw [lines_append json atEnd, List.filterMap_append]
    congr 1
    by_cases whole : (line json call.record).length ≤ call.reached
    · have done : call.completed json = true := by simpa [Append.completed] using whole
      rw [List.take_of_length_le whole, lines_line sound]
      simp [completed, done]
    · have pending : call.completed json = false := by simpa [Append.completed] using whole
      rw [lines_torn sound (by omega)]
      simp [completed, pending]

theorem lines_run {calls : List Append} {bytes : List UInt8} (sound : ∀ call ∈ calls, json.Sound call.record)
    (clear : Run.Along (Clear json) (append json) bytes calls) :
    (lines json (calls.foldl (append json) bytes)).filterMap id =
      (lines json bytes).filterMap id ++ completed json calls := by
  induction calls generalizing bytes with
  | nil => simp [completed]
  | cons call rest ih =>
    have here := lines_append_call (sound call (by simp)) clear.1
    have later := ih (fun other member => sound other (by simp [member])) clear.2
    have split : completed json (call :: rest) = completed json [call] ++ completed json rest := by
      simp only [completed, ← List.map_append, ← List.filter_append, List.singleton_append]
    rw [List.foldl_cons, later, here, split, List.append_assoc]

/-- When no call writes behind a torn line and none leaves its record whole without the line end, the log
reads for every hash the last record whose append completed, in the order the hashes first appeared in. -/
theorem completed_records_read {calls : List Append} (sound : ∀ call ∈ calls, json.Sound call.record)
    (clear : Run.Along (Clear json) (append json) [] calls) :
    (readAll json (calls.foldl (append json) [])).map BlockRecord.hash =
        ((completed json calls).map BlockRecord.hash).eraseDups ∧
      ∀ hash, (readAll json (calls.foldl (append json) [])).find? (BlockRecord.isFor hash) =
        (completed json calls).reverse.find? (BlockRecord.isFor hash) := by
  have records : (lines json (calls.foldl (append json) [])).filterMap id = completed json calls := by
    rw [lines_run sound clear, lines_nil]
    rfl
  constructor
  · unfold readAll
    rw [BlockLog.map_hash_readAll, records]
  · intro hash
    unfold readAll
    rw [BlockLog.find?_readAll, BlockLog.lastLine, records]

end Runs

section Torn

def sampleHead : List UInt8 := "\x7b\"ts\":0,\"height\":0,\"hash\":\"".toUTF8.data.toList

def sampleTail : List UInt8 :=
  ("\",\"finder\":null,\"coinbase_value\":0,\"kind\":\"split\",\"owed_sats\":0,\"split\":[],\"pool_sats\":0," ++
    "\"carry_paid\":0,\"carry_delta\":[],\"rebate_credited\":0,\"rebate_delta\":0,\"settled\":false," ++
    "\"submit\":\"pending\",\"gateway\":\"\"\x7d").toUTF8.data.toList

/-- The JSON of a record that only its hash tells apart. -/
def sampleText (hash : String) : List UInt8 := sampleHead ++ hash.toUTF8.data.toList ++ sampleTail

def sampleJson : RecordJson where
  toVec r := sampleText r.hash
  fromSlice bytes :=
    if bytes = sampleText "aa" then some { hash := "aa" }
    else if bytes = sampleText "bb" then some { hash := "bb" }
    else none

theorem sampleParts :
    (sampleHead.length = 27 ∧ newline ∉ sampleHead ∧ (0x7b : UInt8) ∈ sampleHead) ∧
      sampleTail.length = 206 ∧ newline ∉ sampleTail := by
  decide +kernel

theorem sampleText_length (hash : String) :
    (sampleText hash).length = 233 + hash.toUTF8.data.toList.length := by
  obtain ⟨⟨head, _⟩, tail, _⟩ := sampleParts
  rw [sampleText, List.length_append, List.length_append, head, tail]
  omega

theorem newline_not_mem_sampleText {hash : String} (single : newline ∉ hash.toUTF8.data.toList) :
    newline ∉ sampleText hash := by
  obtain ⟨⟨_, head, _⟩, _, tail⟩ := sampleParts
  simp only [sampleText, List.mem_append, not_or]
  exact ⟨⟨head, single⟩, tail⟩

theorem sampleJson_other {bytes : List UInt8} (other : bytes.length ≠ 235) :
    sampleJson.fromSlice bytes = none := by
  have size : ∀ hash : String, hash.toUTF8.data.toList.length = 2 → bytes ≠ sampleText hash := by
    intro hash short same
    rw [same, sampleText_length, short] at other
    exact other rfl
  simp only [sampleJson, if_neg (size "aa" (by decide)), if_neg (size "bb" (by decide))]

theorem sampleJson_sound {hash : String} (known : hash = "aa" ∨ hash = "bb") : sampleJson.Sound { hash } := by
  have short : hash.toUTF8.data.toList.length = 2 ∧ newline ∉ hash.toUTF8.data.toList := by
    rcases known with rfl | rfl
    · decide
    · decide
  constructor
  · have apart : sampleText "bb" ≠ sampleText "aa" := by
      intro same
      have middle := List.append_cancel_left (List.append_cancel_right same)
      revert middle
      decide
    rcases known with rfl | rfl
    · simp [sampleJson]
    · simp [sampleJson, apart]
  · exact newline_not_mem_sampleText short.2
  · exact ⟨0x7b, by simp [sampleJson, sampleText, sampleParts.1.2.2], by decide⟩
  · intro reached less
    have length : (sampleText hash).length = 235 := by rw [sampleText_length, short.1]
    apply sampleJson_other
    rw [List.length_take]
    change reached < (sampleText hash).length at less
    change min reached (sampleText hash).length ≠ 235
    omega

theorem sampleLine_length {hash : String} (known : hash = "aa" ∨ hash = "bb") :
    (line sampleJson { hash }).length = 236 := by
  rw [line, List.length_append, List.length_singleton]
  change (sampleText hash).length + 1 = 236
  rw [sampleText_length]
  rcases known with rfl | rfl
  · decide
  · decide

/-- A record is written whole, and the next one is torn after forty bytes. -/
def tornLast : List Append := [⟨{ hash := "aa" }, 236⟩, ⟨{ hash := "bb" }, 40⟩]

/-- A record is torn after forty bytes, and the next one is written whole. -/
def tornFirst : List Append := [⟨{ hash := "aa" }, 40⟩, ⟨{ hash := "bb" }, 236⟩]

theorem completed_records_read_tornLast :
    (readAll sampleJson (tornLast.foldl (append sampleJson) [])).map BlockRecord.hash = ["aa"] := by
  have first := sampleLine_length (.inl rfl : "aa" = "aa" ∨ "aa" = "bb")
  have second := sampleLine_length (.inr rfl : "bb" = "aa" ∨ "bb" = "bb")
  have sound : ∀ call ∈ tornLast, sampleJson.Sound call.record := by
    simp only [tornLast, List.forall_mem_cons]
    exact ⟨sampleJson_sound (.inl rfl), sampleJson_sound (.inr rfl), by simp⟩
  have clear : Run.Along (Clear sampleJson) (append sampleJson) [] tornLast := by
    simp only [tornLast, Run.along_cons, Run.along_nil, Clear]
    rw [line, List.length_append, List.length_singleton] at first second
    refine ⟨⟨.inr (.inl rfl), by omega⟩, ⟨.inr (.inr ?_), by omega⟩, trivial⟩
    rw [append, List.nil_append, List.take_of_length_le (Nat.le_of_eq (sampleLine_length (.inl rfl)))]
    exact List.getLast?_concat
  rw [(completed_records_read sound clear).1]
  simp [completed, tornLast, Append.completed, first, second, List.eraseDups_cons]

/-- The record written behind a torn line is lost with it. -/
theorem torn_line_takes_the_next :
    ¬ ∀ (json : RecordJson) (calls : List Append), (∀ call ∈ calls, json.Sound call.record) →
      ∀ hash, (readAll json (calls.foldl (append json) [])).find? (BlockRecord.isFor hash) =
        (completed json calls).reverse.find? (BlockRecord.isFor hash) := by
  intro kept
  have sound : ∀ call ∈ tornFirst, sampleJson.Sound call.record := by
    simp only [tornFirst, List.forall_mem_cons]
    exact ⟨sampleJson_sound (.inl rfl), sampleJson_sound (.inr rfl), by simp⟩
  have first := sampleLine_length (.inl rfl : "aa" = "aa" ∨ "aa" = "bb")
  have second := sampleLine_length (.inr rfl : "bb" = "aa" ∨ "bb" = "bb")
  -- both records are on the one line the file has
  have bytes : tornFirst.foldl (append sampleJson) [] =
      ((line sampleJson { hash := "aa" }).take 40 ++ sampleText "bb") ++ newline :: [] := by
    simp only [tornFirst, List.foldl_cons, List.foldl_nil, append, List.nil_append]
    rw [List.take_of_length_le (Nat.le_of_eq second), List.append_assoc]
    rfl
  have single : newline ∉ (line sampleJson { hash := "aa" }).take 40 ++ sampleText "bb" := by
    have cut : (line sampleJson { hash := "aa" }).take 40 = (sampleText "aa").take 40 := by
      apply List.take_append_of_le_length
      change 40 ≤ (sampleText "aa").length
      rw [sampleText_length]
      omega
    rw [cut, List.mem_append, not_or]
    exact ⟨fun member => (sampleJson_sound (.inl rfl)).oneLine (List.mem_of_mem_take member),
      (sampleJson_sound (.inr rfl)).oneLine⟩
  have lost : readAll sampleJson (tornFirst.foldl (append sampleJson) []) = [] := by
    rw [bytes, readAll, lines_newline, lines_nil, List.append_nil, lines_single sampleJson single]
    rw [sampleJson_other ?_]
    · split <;> rfl
    · rw [List.length_append, List.length_take, first, sampleText_length]
      decide
  have read := kept sampleJson tornFirst sound "bb"
  rw [lost] at read
  simp [completed, tornFirst, Append.completed, first, second, BlockRecord.isFor] at read

end Torn

end BlockFile

end Lazarus.Tides
