import Saad.Json.WriterStrings
import Saad.Std.Decimal
import Saad.Std.Io

/-! # Messages of the language server

JSON-RPC over the standard input and output: a message is a header and a body, and the length of the
body stands in the header. A body that isn't JSON is skipped.
-/

namespace Saad.Rpc

open Io Json General

section Reading

structure Message (F : Type) where
  name : Text
  /-- As it was written, and empty for a notification. -/
  id : Text
  params : Value F

def contentLength : Text := asciiBytes "content-length:"

/-- The number behind what is read of it. -/
def parseIntFrom (n : ℤ) : Text → ℤ
  | [] => n
  | ch :: rest =>
    if isDigit ch then parseIntFrom (int32 (n * 10 + digitNumber ch)) rest
    else if ch ≠ byteOf ' ' then n
    else parseIntFrom n rest

def parseInt (text : Text) : ℤ := parseIntFrom 0 text

/-- The length that the rest of a header gives. The inner option is none at the end of the input, and
the outer one where the reader gets lost in a line that is too long. -/
def readHeader (length : ℤ) (input : Input) : Option (Option ℤ × Input) :=
  match _ : readLine input with
  | none => none
  | some ((_, false), after) => some (none, after)
  | some ((line, true), after) =>
    if line = [] then some (some length, after)
    else if startsWith (line.map toLower) contentLength then
      readHeader (parseInt (line.drop 15)) after
    else readHeader length after
termination_by input.stream.length
decreasing_by
  · next reads _ _ => exact length_of_readLine reads
  · next reads _ _ => exact length_of_readLine reads

variable {F : Type} (strtod : Text → F)

/-- `json.encode` of a string. -/
def encodeString (s : Text) : Option Text := do
  let w ← newWriter {}
  let w ← w.writeString s
  return w.sb.text

/-- The message of a body, or none if it isn't JSON. The outer option is none if the parser or the
writer gets lost. -/
def messageOf (body : Text) : Option (Option (Message F)) :=
  match parse strtod body with
  | none => none
  | some (.error _) => some none
  | some (.ok value) =>
    let name := (value.get (asciiBytes "method")).asString
    let params := value.get (asciiBytes "params")
    match value.get (asciiBytes "id") with
    | .string text => (encodeString text).map fun id => some { name, id, params }
    | .number _ text => some (some { name, id := text, params })
    | _ => some (some { name, id := [], params })

theorem length_of_readHeader {length found : ℤ} {input after : Input}
    (reads : readHeader length input = some (some found, after)) :
    after.stream.length < input.stream.length := by
  fun_induction readHeader length input with
  | case1 => cases reads
  | case2 => cases reads
  | case3 length input behind line_reads =>
    obtain ⟨-, rfl⟩ := Prod.mk.inj (Option.some.inj reads)
    exact length_of_readLine line_reads
  | case4 length input line behind line_reads more is_length ih =>
    exact (ih reads).trans (length_of_readLine line_reads)
  | case5 length input line behind line_reads more other ih =>
    exact (ih reads).trans (length_of_readLine line_reads)

/-- The next message, and none at the end of the input. -/
def read (input : Input) : Option (Option (Message F) × Input) :=
  match _ : readHeader (-1) input with
  | none => none
  | some (none, after) => some (none, after)
  | some (some length, behind) =>
    if length < 0 then read behind
    else
      match _ : Io.read length.toNat behind with
      | ((_, false), after) => some (none, after)
      | ((body, true), after) =>
        match messageOf strtod body with
        | none => none
        | some none => read after
        | some (some message) => some (some message, after)
termination_by input.stream.length
decreasing_by
  · next reads _ => exact length_of_readHeader reads
  · next header_reads _ reads =>
    exact (length_of_read reads).trans_lt (length_of_readHeader header_reads)

end Reading

section Sending

/-- A line of a header other than Content-Length. -/
structure OtherHeader where
  line : Text
  nonempty : line ≠ []
  one : byteOf '\n' ∉ line
  other : startsWith (line.map toLower) contentLength = false
  fits : line.length + 1 < 2 ^ 30

/-- A message with its header. -/
structure Frame where
  before : List OtherHeader := []
  after : List OtherHeader := []
  body : Text

def crlf : Text := [byteOf '\r', byteOf '\n']

def lengthLine (body : Text) : Text := asciiBytes "Content-Length: " ++ decimalText body.length

def headerText (headers : List OtherHeader) : Text := headers.flatMap fun header => header.line ++ crlf

def Frame.text (frame : Frame) : Text :=
  headerText frame.before ++ lengthLine frame.body ++ crlf ++ headerText frame.after ++ crlf ++
    frame.body

/-- What `send` writes. -/
def send (body : Text) : Text := asciiBytes "Content-Length: " ++ decimalText body.length ++
  asciiBytes "\r\n\r\n" ++ body

theorem text_of_body (body : Text) : ({ body } : Frame).text = send body := by
  have lines : asciiBytes "\r\n\r\n" = crlf ++ crlf := by decide
  simp only [Frame.text, headerText, List.flatMap_nil, List.nil_append, List.append_nil, send,
    lengthLine, lines, List.append_assoc]

end Sending

section Header

variable {n : ℕ} {input : Input} {line rest body : Text} {length : ℤ}

theorem parseIntFrom_digits {digits : Text} (all : ∀ c ∈ digits, isDigit c = true) {start : ℕ}
    (lt : start * 10 ^ digits.length + digitsValue digits < 2 ^ 31) :
    parseIntFrom start digits = (start * 10 ^ digits.length + digitsValue digits : ℕ) := by
  induction digits generalizing start with
  | nil => simp [parseIntFrom]
  | cons c digits ih =>
    obtain ⟨digit, others⟩ := List.forall_mem_cons.mp all
    rw [digitsValue_cons, List.length_cons, pow_succ] at lt ⊢
    have same : start * (10 ^ digits.length * 10) +
        (digitNumber c * 10 ^ digits.length + digitsValue digits) =
        (start * 10 + digitNumber c) * 10 ^ digits.length + digitsValue digits := by ring
    rw [same] at lt ⊢
    have le : start * 10 + digitNumber c ≤ (start * 10 + digitNumber c) * 10 ^ digits.length :=
      Nat.le_mul_of_pos_right _ (by positivity)
    have next : int32 ((start : ℤ) * 10 + digitNumber c) = (start * 10 + digitNumber c : ℕ) := by
      rw [int32_of_fits (by omega) (by omega)]
      push_cast
      rfl
    rw [parseIntFrom, if_pos digit, next, ih others lt]

theorem parseInt_lengthLine (lt : n < 2 ^ 31) : parseInt (byteOf ' ' :: decimalText n) = n := by
  have digits := digitsValue_decimalText n
  have value := @parseIntFrom_digits (decimalText n) (fun c => isDigit_of_mem_decimalText) 0
    (by rw [digits]; omega)
  rw [digits, Nat.zero_mul, Nat.zero_add] at value
  rw [parseInt, parseIntFrom, if_neg (by decide), if_neg (by decide)]
  exact value

/-- A line with its line break is read without it. -/
theorem readLine_crlf (stream : input.stream = line ++ crlf ++ rest) (one : byteOf '\n' ∉ line)
    (fits : line.length + 1 < 2 ^ 30) :
    ∃ after, readLine input = some ((line, true), after) ∧ after.stream = rest := by
  have splits : line ++ crlf ++ rest = (line ++ [byteOf '\r']) ++ byteOf '\n' :: rest := by
    simp [crlf]
  obtain ⟨after, reads, behind⟩ := readLine_of_line (stream.trans splits)
    (by
      rw [List.mem_append, List.mem_singleton]
      exact not_or.mpr ⟨one, by decide⟩)
    (by rw [List.length_append]; exact fits)
  refine ⟨after, ?_, behind⟩
  rw [reads, withoutReturn, List.getLast?_append, if_pos (by rfl), List.dropLast_concat]

theorem readHeader_line {after : Input} (reads : readLine input = some ((line, true), after)) :
    readHeader length input =
      if line = [] then some (some length, after)
      else if startsWith (line.map toLower) contentLength then
        readHeader (parseInt (line.drop 15)) after
      else readHeader length after := by
  rw [readHeader]
  split
  · next lost =>
    rw [reads] at lost
    cases lost
  · next ended =>
    rw [reads] at ended
    cases ended
  · next other there line_reads =>
    rw [reads] at line_reads
    obtain ⟨same, rfl⟩ := Prod.mk.inj (Option.some.inj line_reads)
    obtain ⟨rfl, -⟩ := Prod.mk.inj same
    rfl

/-- Other headers do not change the length. -/
theorem readHeader_others (length : ℤ) {headers : List OtherHeader}
    (stream : input.stream = headerText headers ++ rest) :
    ∃ after, readHeader length input = readHeader length after ∧ after.stream = rest := by
  induction headers generalizing input with
  | nil => exact ⟨input, rfl, stream⟩
  | cons header headers ih =>
    rw [headerText, List.flatMap_cons, List.append_assoc] at stream
    obtain ⟨next, reads, behind⟩ := readLine_crlf stream header.one header.fits
    obtain ⟨after, others, last⟩ := ih behind
    refine ⟨after, ?_, last⟩
    rw [readHeader_line reads, if_neg header.nonempty, if_neg (by rw [header.other]; decide), others]

theorem newline_notMem_lengthLine (body : Text) : byteOf '\n' ∉ lengthLine body := by
  rw [lengthLine, List.mem_append]
  rintro (member | member)
  · revert member
    decide
  · have digit := isDigit_of_mem_decimalText member
    revert digit
    decide

theorem startsWith_lengthLine (body : Text) :
    startsWith ((lengthLine body).map toLower) contentLength = true := by
  have lowered : (asciiBytes "Content-Length: ").map toLower = contentLength ++ [byteOf ' '] := by
    decide
  rw [lengthLine, List.map_append, lowered, startsWith, List.isPrefixOf_iff_prefix, List.append_assoc]
  exact List.prefix_append _ _

/-- The header of a message gives the length of its body. -/
theorem readHeader_frame (length : ℤ) {frame : Frame} (fits : frame.body.length < 2 ^ 31)
    (stream : input.stream = frame.text ++ rest) :
    ∃ after, readHeader length input = some (some (frame.body.length : ℤ), after) ∧
      after.stream = frame.body ++ rest := by
  obtain ⟨before, after, body⟩ := frame
  dsimp only at fits
  simp only [Frame.text, List.append_assoc] at stream
  obtain ⟨first, others, stream⟩ := readHeader_others length stream
  have short : (lengthLine body).length + 1 < 2 ^ 30 := by
    have digits := @length_decimalText_le body.length 10 (by decide) (by omega)
    have start : (asciiBytes "Content-Length: ").length = 16 := by decide
    rw [lengthLine, List.length_append, start]
    omega
  rw [← List.append_assoc] at stream
  obtain ⟨second, reads, stream⟩ := readLine_crlf stream (newline_notMem_lengthLine body) short
  have start : asciiBytes "Content-Length: " =
      asciiBytes "Content-Length:" ++ [byteOf ' '] := by decide
  have number : (lengthLine body).drop 15 = byteOf ' ' :: decimalText body.length := by
    rw [lengthLine, start, List.append_assoc]
    rfl
  have nonempty : lengthLine body ≠ [] := by
    rw [lengthLine, start]
    simp [asciiBytes]
  obtain ⟨third, others_behind, stream⟩ := readHeader_others body.length stream
  rw [← List.nil_append (crlf ++ _), ← List.append_assoc] at stream
  obtain ⟨last, empty_line, stream⟩ := readLine_crlf stream List.not_mem_nil (by decide)
  refine ⟨last, ?_, stream⟩
  rw [others, readHeader_line reads, if_neg nonempty, if_pos (startsWith_lengthLine body), number,
    parseInt_lengthLine fits, others_behind, readHeader_line empty_line, if_pos rfl]

end Header

section Messages

variable {F : Type} {strtod : Text → F} {input : Input} {frame : Frame} {rest : Text}

theorem read_eq {behind after : Input} {body : Text} {n : ℕ}
    (header : readHeader (-1) input = some (some (n : ℤ), behind))
    (reads : Io.read n behind = ((body, true), after)) :
    read strtod input =
      match messageOf strtod body with
      | none => none
      | some none => read strtod after
      | some (some message) => some (some message, after) := by
  rw [read]
  split
  · next lost =>
    rw [header] at lost
    cases lost
  · next ended =>
    rw [header] at ended
    cases ended
  · next length there found =>
    rw [header] at found
    obtain ⟨same, rfl⟩ := Prod.mk.inj (Option.some.inj found)
    obtain rfl := Option.some.inj same
    rw [if_neg (by omega), Int.toNat_natCast]
    split
    · next ended =>
      rw [reads] at ended
      cases ended
    · next other there_after body_reads =>
      rw [reads] at body_reads
      obtain ⟨same, rfl⟩ := Prod.mk.inj body_reads
      obtain ⟨rfl, -⟩ := Prod.mk.inj same
      rfl

/-- The next message, however it comes. The bytes behind it are left. -/
theorem read_frame (fits : frame.body.length < 2 ^ 31)
    (stream : input.stream = frame.text ++ rest) :
    ∃ after, after.stream = rest ∧ read strtod input =
      match messageOf strtod frame.body with
      | none => none
      | some none => read strtod after
      | some (some message) => some (some message, after) := by
  obtain ⟨behind, header, stream⟩ := readHeader_frame (-1) fits stream
  obtain ⟨after, body, stream⟩ := read_of_stream stream
  exact ⟨after, stream, read_eq header body⟩

theorem read_of_ended (ended : input.stream = []) :
    ∃ after, read strtod input = some (none, after) := by
  obtain ⟨after, reads⟩ := readLine_of_ended ended
  refine ⟨after, ?_⟩
  have header : readHeader (-1) input = some (none, after) := by
    rw [readHeader]
    split
    · next lost =>
      rw [reads] at lost
      cases lost
    · next found =>
      rw [reads] at found
      obtain ⟨-, rfl⟩ := Prod.mk.inj (Option.some.inj found)
      rfl
    · next found =>
      rw [reads] at found
      cases found
  rw [read]
  split
  · next lost =>
    rw [header] at lost
    cases lost
  · next found =>
    rw [header] at found
    obtain ⟨-, rfl⟩ := Prod.mk.inj (Option.some.inj found)
    rfl
  · next found =>
    rw [header] at found
    cases found

end Messages

section Bodies

variable {F : Type} {strtod : Text → F} {body : Text}

/-- A field of an object is what a member was read as. -/
theorem lookup_readMembers {key : Text} {value : Value F} {members : List (List Part × Tree)}
    {fields : AssocList Text (Value F)}
    (found : AssocList.lookup key (readMembers strtod fields members) = some value) :
    AssocList.lookup key fields = some value ∨
      ∃ member ∈ members, value = member.2.read strtod := by
  induction members generalizing fields with
  | nil => exact .inl found
  | cons member members ih =>
    obtain ⟨name, tree⟩ := member
    obtain before | ⟨other, among, same⟩ := ih found
    · obtain same | before := AssocList.lookup_insert_cases before
      · exact .inr ⟨(name, tree), List.mem_cons_self, same⟩
      · exact .inl before
    · exact .inr ⟨other, List.mem_cons_of_mem _ among, same⟩

theorem read_eq_string {tree : Tree} {text : Text} (reads : .string text = tree.read strtod) :
    ∃ parts, tree = .string parts ∧ text = replaceUnits parts := by
  cases tree with
  | string parts => exact ⟨parts, rfl, Value.string.inj reads⟩
  | null | bool _ | number _ | array _ | object _ => cases reads

/-- The id of a message is written with no more bytes than its body has. -/
theorem length_id_le {value : Value F} {text : Text}
    (parses : parse strtod body = some (.ok value))
    (id : value.get (asciiBytes "id") = .string text) : (stringText text).length ≤ body.length := by
  obtain ⟨tree, json, height⟩ | ⟨error, fails⟩ := parse_cases strtod body
  · rw [parse_of_jsonText json height] at parses
    obtain rfl := Except.ok.inj (Option.some.inj parses)
    obtain ⟨start, rest, before, reads, -⟩ := json
    have le := before.length_le
    cases tree with
    | null | bool _ | number _ | string _ | array _ => cases id
    | object members =>
      change (AssocList.lookup (asciiBytes "id") (readMembers strtod [] members)).getD .null = _ at id
      cases found : AssocList.lookup (asciiBytes "id") (readMembers strtod [] members) with
      | none =>
        rw [found] at id
        cases id
      | some value =>
        rw [found, Option.getD_some] at id
        obtain nothing | ⟨⟨name, tree⟩, member, same⟩ := lookup_readMembers found
        · cases nothing
        · obtain ⟨parts, rfl, rfl⟩ := read_eq_string (id.symm.trans same)
          cases reads with
          | emptyObject text _ spaces => cases member
          | object text _ _ members_read =>
            have shorter := members_read.length_stringText_le member
            rw [List.length_cons] at le
            omega
  · rw [fails] at parses
    cases parses

theorem encodeString_isSome {s : Text} (fits : (stringText s).length < 2 ^ 30) :
    ∃ text, encodeString s = some text := by
  obtain ⟨sb, starts, valid, empty, -⟩ := @StringBuilder.reserve_empty 64 (by decide) (by decide)
  obtain ⟨after, writes, -⟩ := writes_writeString s ⟨sb, {}, 0⟩ valid (by rw [empty]; simpa using fits)
  refine ⟨after.sb.text, ?_⟩
  rw [encodeString, newWriter, newStringBuilder, starts, Option.map_some]
  simp only [bind, Option.bind_some, writes, pure]

/-- The parser and the writer never get lost in a body that fits. -/
theorem messageOf_isSome (short : FitsInt body) :
    ∃ message, messageOf strtod body = some message := by
  rw [messageOf]
  split
  · next lost =>
    obtain ⟨tree, json, height⟩ | ⟨error, fails⟩ := parse_cases strtod body
    · rw [parse_of_jsonText json height] at lost
      cases lost
    · rw [fails] at lost
      cases lost
  · exact ⟨none, rfl⟩
  · next value parses =>
    dsimp only
    split
    · next text id =>
      have le := length_id_le parses id
      obtain ⟨written, encodes⟩ := @encodeString_isSome text (by unfold FitsInt at short; omega)
      rw [encodes]
      exact ⟨_, rfl⟩
    · exact ⟨_, rfl⟩
    · exact ⟨_, rfl⟩

end Bodies

section Runs

variable {F : Type} (strtod : Text → F)

/-- A message is taken from the input, and with it at least one byte. -/
theorem length_of_read_message {input after : Input} {message : Message F}
    (reads : read strtod input = some (some message, after)) :
    after.stream.length < input.stream.length := by
  fun_induction read strtod input with
  | case1 => cases reads
  | case2 => cases reads
  | case3 input length behind header negative ih =>
    exact (ih reads).trans (length_of_readHeader header)
  | case4 => cases reads
  | case5 => cases reads
  | case6 input length behind header positive body next body_reads skipped ih =>
    exact (ih reads).trans ((length_of_read body_reads).trans_lt (length_of_readHeader header))
  | case7 input length behind header positive body next body_reads message found =>
    obtain ⟨-, rfl⟩ := Prod.mk.inj (Option.some.inj reads)
    exact (length_of_read body_reads).trans_lt (length_of_readHeader header)

/-- What the server is given until the input ends. -/
def readAll (input : Input) : Option (List (Message F)) :=
  match _ : read strtod input with
  | none => none
  | some (none, _) => some []
  | some (some message, after) => (readAll after).map (message :: ·)
termination_by input.stream.length
decreasing_by
  next reads => exact length_of_read_message strtod reads

/-- The next messages, as many as that. -/
def readMany : ℕ → Input → Option (List (Message F) × Input)
  | 0, input => some ([], input)
  | count + 1, input =>
    match read strtod input with
    | some (some message, after) =>
      (readMany count after).map fun (messages, last) => (message :: messages, last)
    | _ => none

/-- The messages of the bodies that are JSON. -/
def messagesOf (frames : List Frame) : List (Message F) :=
  frames.filterMap fun frame => (messageOf strtod frame.body).join

variable {strtod} {input : Input} {frames : List Frame} {rest : Text}

theorem readAll_eq (input : Input) : readAll strtod input =
    match read strtod input with
    | none => none
    | some (none, _) => some []
    | some (some message, after) => (readAll strtod after).map (message :: ·) := by
  rw [readAll]
  split
  · next lost => rw [lost]
  · next ended => rw [ended]
  · next found => rw [found]

theorem length_lt_of_fitsInt {body : Text} (fits : FitsInt body) : body.length < 2 ^ 31 :=
  Nat.lt_trans fits (by decide)

theorem messagesOf_cons (frame : Frame) (frames : List Frame) :
    messagesOf strtod (frame :: frames) =
      (messageOf strtod frame.body).join.toList ++ messagesOf strtod frames := by
  rw [messagesOf, List.filterMap_cons]
  cases (messageOf strtod frame.body).join <;> rfl

/-- The messages of the stream are given in order, and then the end. -/
theorem readAll_frames (fits : ∀ frame ∈ frames, FitsInt frame.body)
    (stream : input.stream = frames.flatMap Frame.text) :
    readAll strtod input = some (messagesOf strtod frames) := by
  induction frames generalizing input with
  | nil =>
    obtain ⟨after, ended⟩ := @read_of_ended _ strtod input stream
    rw [readAll_eq, ended]
    rfl
  | cons frame frames ih =>
    obtain ⟨here, others⟩ := List.forall_mem_cons.mp fits
    rw [List.flatMap_cons] at stream
    obtain ⟨after, behind, reads⟩ := @read_frame _ strtod _ _ _ (length_lt_of_fitsInt here) stream
    have given := ih others behind
    obtain ⟨found, is_found⟩ := @messageOf_isSome _ strtod _ here
    rw [is_found] at reads
    rw [messagesOf_cons, is_found]
    cases found with
    | none =>
      rw [readAll_eq] at given ⊢
      rw [reads]
      exact given
    | some message =>
      rw [readAll_eq, reads]
      dsimp only
      rw [given]
      rfl

/-- Behind the last message nothing is read. -/
theorem readMany_frames (fits : ∀ frame ∈ frames, FitsInt frame.body) {last : Frame}
    (last_fits : FitsInt last.body) {message : Message F}
    (last_message : messageOf strtod last.body = some (some message))
    (stream : input.stream = (frames ++ [last]).flatMap Frame.text ++ rest) :
    ∃ after, readMany strtod (messagesOf strtod (frames ++ [last])).length input =
      some (messagesOf strtod (frames ++ [last]), after) ∧ after.stream = rest := by
  induction frames generalizing input with
  | nil =>
    rw [List.nil_append, List.flatMap_singleton] at stream
    obtain ⟨after, behind, reads⟩ := @read_frame _ strtod _ _ _ (length_lt_of_fitsInt last_fits) stream
    rw [last_message] at reads
    refine ⟨after, ?_, behind⟩
    rw [List.nil_append, messagesOf_cons, last_message]
    simp only [Option.join_some, Option.toList_some, messagesOf, List.filterMap_nil,
      List.append_nil, List.length_singleton, readMany, reads, Option.map_some]
  | cons frame frames ih =>
    obtain ⟨here, others⟩ := List.forall_mem_cons.mp fits
    rw [List.cons_append, List.flatMap_cons, List.append_assoc] at stream
    obtain ⟨next, behind, reads⟩ := @read_frame _ strtod _ _ _ (length_lt_of_fitsInt here) stream
    obtain ⟨after, given, remains⟩ := ih others behind
    obtain ⟨found, is_found⟩ := @messageOf_isSome _ strtod _ here
    rw [is_found] at reads
    refine ⟨after, ?_, remains⟩
    rw [List.cons_append, messagesOf_cons, is_found]
    cases found with
    | none =>
      -- The last message is still to come, so the first read skips the body.
      have more : message ∈ messagesOf strtod (frames ++ [last]) := by
        apply List.mem_filterMap.mpr
        exact ⟨last, List.mem_append_right _ (List.mem_singleton_self _), by rw [last_message]; rfl⟩
      obtain ⟨count, positive⟩ := Nat.exists_eq_succ_of_ne_zero (List.length_pos_of_mem more).ne'
      change readMany strtod (messagesOf strtod (frames ++ [last])).length input = _
      rw [positive, readMany] at given ⊢
      rw [reads]
      exact given
    | some other =>
      simp only [Option.join_some, Option.toList_some, List.singleton_append, List.length_cons,
        readMany, reads, given, Option.map_some]

/-- A body that is a JSON object, as it comes from `send` in one read. -/
def emptyObject : Frame := { body := asciiBytes "\x7b\x7d" }

end Runs

end Saad.Rpc
