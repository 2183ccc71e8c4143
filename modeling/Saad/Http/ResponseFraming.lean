import Saad.Http.Responses

/-! # Responses are read as they are written

A client finds the headers, the body and the end of a response where the writer put them exactly if no
name or value of a header ends its line, the status has three digits, and the sizes are within the
limits of the client. An escaped value ends no line, whatever its bytes are.
-/

namespace Saad.Http

open General

section Names

variable {headers more : List Header} {name : Text} {h : Header}

theorem findHeader_eq_none_iff :
    findHeader headers name = none ↔ ∀ h ∈ headers, equalFold h.name name = false := by
  rw [findHeader, Option.map_eq_none_iff, List.find?_eq_none]
  simp

theorem findHeader_append_of_none (absent : findHeader headers name = none) :
    findHeader (headers ++ more) name = findHeader more name := by
  rw [findHeader, Option.map_eq_none_iff] at absent
  rw [findHeader, List.find?_append, absent, Option.none_or, findHeader]

theorem findHeader_trimmed :
    findHeader (headers.map Header.trimmed) name = (findHeader headers name).map trimSpaces := by
  induction headers with
  | nil => rfl
  | cons h headers ih =>
    rw [findHeader, findHeader] at *
    rw [List.map_cons, List.find?_cons, List.find?_cons]
    cases same : equalFold h.name name with
    | true =>
      rw [show equalFold h.trimmed.name name = true from same]
      rfl
    | false =>
      rw [show equalFold h.trimmed.name name = false from same]
      exact ih

theorem equalFold_trans {a b c : Text} (first : equalFold a b = true) (second : equalFold a c = true) :
    equalFold b c = true := by
  rw [equalFold, beq_iff_eq] at *
  exact first.symm.trans second

end Names

section Values

/-- Trimming takes no line break away. -/
theorem crlf_infix_trimSpaces {value : Text} (occurs : crlf <:+: value) :
    crlf <:+: trimSpaces value := by
  have blank_between : ∀ c : BitVec 8, isBlank c = true → c ∉ crlf := by decide
  have front : crlf <:+: value.dropWhile isBlank := by
    induction value with
    | nil => exact occurs
    | cons c value ih =>
      cases blank : isBlank c with
      | false => rwa [List.dropWhile_cons_of_neg (by simp [blank])]
      | true =>
        rw [List.dropWhile_cons_of_pos blank]
        apply ih
        obtain empty | behind :=
          (@infix_append_cons_iff _ _ _ [] _ (blank_between c blank)).mp occurs
        · cases List.infix_nil.mp empty
        · exact behind
  rw [trimSpaces]
  generalize value.dropWhile isBlank = text at front
  induction text using List.reverseRecOn with
  | nil => exact front
  | append_singleton text c ih =>
    cases blank : isBlank c with
    | false => rwa [List.rdropWhile_concat_neg _ _ _ (by simp [blank])]
    | true =>
      rw [List.rdropWhile_concat_pos _ _ _ blank]
      apply ih
      obtain before | empty := (@infix_append_cons_iff _ _ [] _ _ (blank_between c blank)).mp front
      · exact before
      · cases List.infix_nil.mp empty

theorem plainHeader_of_trimmed {h : Header} (plain : PlainHeader h.trimmed) : PlainHeader h where
  nonempty := plain.nonempty
  colon := plain.colon
  space := plain.space
  name := plain.name
  value occurs := plain.value (crlf_infix_trimSpaces occurs)

/-- A text without a line break at all. -/
theorem OneLine.no_crlf {text : Text} (one : OneLine text) : ¬crlf <:+: text :=
  isLine_iff.mp one.isLine

theorem oneLine_asciiBytes {text : String} (plain : text.toList.all (·.toNat % 256 != 13) = true) :
    OneLine (asciiBytes text) := by
  intro c member
  obtain ⟨ch, among, rfl⟩ := List.mem_map.mp member
  have other := List.all_eq_true.mp plain ch among
  rw [bne_iff_ne] at other
  intro same
  exact other (by simpa using congrArg BitVec.toNat same)

theorem oneLine_decimalText (n : ℕ) : OneLine (decimalText n) := by
  intro c member
  have bounds := digit_of_mem_decimalText member
  rintro rfl
  revert bounds
  decide

theorem oneLine_intText (n : ℤ) : OneLine (intText n) := by
  rw [intText]
  split
  · exact oneLine_cons.mpr ⟨by decide, oneLine_decimalText _⟩
  · exact oneLine_decimalText _

end Values

section StatusLine

theorem oneLine_statusText (status : ℤ) : OneLine (statusText status) := by
  unfold statusText
  split
  all_goals first
    | exact oneLine_nil
    | exact oneLine_asciiBytes (by decide)

theorem oneLine_statusLine (status : ℤ) : OneLine (statusLine status) := by
  simp only [statusLine, oneLine_append]
  exact ⟨⟨⟨oneLine_asciiBytes (by decide), oneLine_intText status⟩,
    oneLine_asciiBytes (by decide)⟩, oneLine_statusText status⟩

theorem parseCount_negative (n : ℕ) : parseCount (byteOf '-' :: decimalText n) = -1 := by
  have no_digit : isDigit (byteOf '-') = false := by decide
  rw [parseCount, if_pos]
  right
  right
  rw [List.all_cons, no_digit]
  simp

/-- A status has three digits exactly if it is between 100 and 999. -/
theorem status_digits_iff (status : ℤ) :
    ¬(int32 (parseCount (intText status)) < 100 ∨ (intText status).length ≠ 3) ↔
      100 ≤ status ∧ status ≤ 999 := by
  by_cases negative : status < 0
  · have count : int32 (parseCount (intText status)) = -1 := by
      rw [intText, if_pos negative, parseCount_negative]
      decide
    rw [count]
    omega
  · obtain ⟨n, rfl⟩ := Int.eq_ofNat_of_zero_le (Int.not_lt.mp negative)
    have text : intText n = decimalText n := by
      rw [intText, if_neg negative, Int.toNat_natCast]
    have length : (decimalText n).length = (Nat.toDigits 10 n).length := by
      rw [decimalText, asciiBytes, toList_toString, List.length_map]
    have three := Nat.length_toDigits_le_iff (b := 10) (n := n) (k := 3) (by decide) (by decide)
    have two := Nat.length_toDigits_le_iff (b := 10) (n := n) (k := 2) (by decide) (by decide)
    rw [text, length]
    by_cases small : n < 1000
    · have count : int32 (parseCount (decimalText n)) = n := by
        rw [parseCount_decimalText (by omega)]
        exact int32_of_fits (by omega) (by omega)
      rw [count]
      omega
    · omega

theorem space_notMem_intText (n : ℤ) : byteOf ' ' ∉ intText n := by
  have no_space : ∀ n, byteOf ' ' ∉ decimalText n := by
    intro n member
    have bounds := digit_of_mem_decimalText member
    revert bounds
    decide
  rw [intText]
  split
  · rw [List.mem_cons]
    rintro (same | member)
    · revert same
      decide
    · exact no_space _ member
  · exact no_space _

/-- The status line is read back. -/
theorem readStatusLine_statusLine (status : ℤ) :
    readStatusLine (statusLine status) =
      if 100 ≤ status ∧ status ≤ 999 then
        some { status, statusText := statusText status, version := asciiBytes "HTTP/1.1" }
      else none := by
  have line : statusLine status =
      asciiBytes "HTTP/1.1" ++ byteOf ' ' :: (intText status ++ byteOf ' ' :: statusText status) := by
    simp only [statusLine, List.append_assoc]
    rfl
  have space : indexOf (statusLine status) [byteOf ' '] = some 8 := by
    rw [line]
    exact indexOf_char (by decide)
  have starts : startsWith (statusLine status) (asciiBytes "HTTP/1.") = true := by
    rw [line]
    rfl
  have rest : (statusLine status).drop (8 + 1) = intText status ++ byteOf ' ' :: statusText status := by
    rw [line]
    rfl
  have version : (statusLine status).take 8 = asciiBytes "HTTP/1.1" := by
    rw [line]
    rfl
  have last : indexOf (intText status ++ byteOf ' ' :: statusText status) [byteOf ' '] =
      some (intText status).length := indexOf_char (space_notMem_intText status)
  have text : (intText status ++ byteOf ' ' :: statusText status).drop ((intText status).length + 1) =
      statusText status := by
    rw [← List.drop_drop, List.drop_left]
    rfl
  rw [readStatusLine, space]
  simp only [starts, Bool.not_true, Bool.false_eq_true, if_false, rest, last, List.take_left, text,
    version]
  by_cases three : 100 ≤ status ∧ status ≤ 999
  · have digits := (status_digits_iff status).mpr three
    have count : int32 (parseCount (intText status)) = status := by
      have nonneg : ¬status < 0 := by omega
      rw [intText, if_neg nonneg, parseCount_decimalText (by omega)]
      rw [int32_of_fits (by omega) (by omega)]
      omega
    rw [if_neg digits, if_pos three, count]
  · have digits := mt (status_digits_iff status).mp three
    rw [if_pos (not_not.mp digits), if_neg three]

end StatusLine

section Framing

variable {w : ResponseWriter} {method : Text}

/-- If a response with the status to a request with the method has a body. -/
def HasBody (method : Text) (status : ℤ) : Prop :=
  method ≠ asciiBytes "HEAD" ∧ status ≠ 204 ∧ status ≠ 304

instance (method : Text) (status : ℤ) : Decidable (HasBody method status) :=
  inferInstanceAs (Decidable (_ ∧ _))

namespace ResponseWriter

/-- A type for a body without one. -/
def typeHeader (w : ResponseWriter) : List Header :=
  if findHeader w.headers (asciiBytes "Content-Type") = none ∧ w.body.length > 0 then
    [⟨asciiBytes "Content-Type", asciiBytes "text/plain; charset=utf-8"⟩] else []

/-- The headers of the writer, whose length is not the one that counts. -/
def ownHeaders (w : ResponseWriter) : List Header :=
  w.headers.filter fun h => !equalFold h.name (asciiBytes "Content-Length")

def lengthHeader (w : ResponseWriter) : List Header :=
  if w.status ≠ 204 ∧ w.status ≠ 304 then
    [⟨asciiBytes "Content-Length", decimalText w.body.length⟩] else []

def sentHeaders (w : ResponseWriter) : List Header := w.typeHeader ++ w.ownHeaders ++ w.lengthHeader

def sentBody (w : ResponseWriter) (method : Text) : Text :=
  if HasBody method w.status then w.body else []

/-- What a client is meant to make of it. -/
def asRead (w : ResponseWriter) (method : Text) : Response where
  status := w.status
  statusText := statusText w.status
  version := asciiBytes "HTTP/1.1"
  headers := w.sentHeaders.map Header.trimmed
  body := w.sentBody method

end ResponseWriter

theorem linesText_own (headers : List Header) :
    linesText ((headers.filter fun h => !equalFold h.name (asciiBytes "Content-Length")).map
      headerLine) = headers.flatMap fun h =>
        if equalFold h.name (asciiBytes "Content-Length") then []
        else h.name ++ asciiBytes ": " ++ h.value ++ crlf := by
  induction headers with
  | nil => rfl
  | cons h headers ih =>
    rw [List.filter_cons, List.flatMap_cons, ← ih]
    cases equalFold h.name (asciiBytes "Content-Length") with
    | true => rfl
    | false => rfl

/-- The text of a response is a head and a body. -/
theorem writeResponse_eq (w : ResponseWriter) (method : Text) :
    writeResponse w method = headText (statusLine w.status) w.sentHeaders ++ w.sentBody method := by
  have typed : linesText (w.typeHeader.map headerLine) =
      if findHeader w.headers (asciiBytes "Content-Type") = none ∧ w.body.length > 0 then
        asciiBytes "Content-Type: text/plain; charset=utf-8" ++ crlf else [] := by
    rw [ResponseWriter.typeHeader]
    split
    · rfl
    · rfl
  have counted : linesText (w.lengthHeader.map headerLine) =
      if w.status ≠ 204 ∧ w.status ≠ 304 then
        asciiBytes "Content-Length: " ++ decimalText w.body.length ++ crlf else [] := by
    rw [ResponseWriter.lengthHeader]
    split
    · simp only [List.map_singleton, linesText, List.flatMap_singleton, headerLine]
      rfl
    · rfl
  have lines : ∀ first second : List Text,
      linesText (first ++ second) = linesText first ++ linesText second :=
    fun _ _ => List.flatMap_append
  rw [writeResponse, headText, ResponseWriter.sentHeaders, List.map_append, List.map_append, lines,
    lines, typed, counted, ResponseWriter.ownHeaders, linesText_own, ResponseWriter.sentBody]
  simp only [HasBody, List.append_assoc]
  rfl

theorem plain_lengthHeader : ∀ h ∈ w.lengthHeader, PlainHeader h := by
  intro h member
  rw [ResponseWriter.lengthHeader] at member
  split at member
  · obtain rfl := List.mem_singleton.mp member
    have name : asciiBytes "Content-Length" ≠ [] ∧ byteOf ':' ∉ asciiBytes "Content-Length" ∧
        byteOf ' ' ∉ asciiBytes "Content-Length" := by decide
    exact ⟨name.1, name.2.1, name.2.2, (oneLine_asciiBytes (by decide)).no_crlf,
      (oneLine_decimalText _).no_crlf⟩
  · cases member

theorem plain_typeHeader : ∀ h ∈ w.typeHeader, PlainHeader h := by
  intro h member
  rw [ResponseWriter.typeHeader] at member
  split at member
  · obtain rfl := List.mem_singleton.mp member
    exact ⟨by decide, by decide, by decide,
      (oneLine_asciiBytes (by decide)).no_crlf,
      (oneLine_asciiBytes (by decide)).no_crlf⟩
  · cases member

/-- The client finds no encoding exactly if the handler set none. -/
theorem findHeader_sent_encoding :
    findHeader (w.sentHeaders.map Header.trimmed) (asciiBytes "Transfer-Encoding") = none ↔
      findHeader w.headers (asciiBytes "Transfer-Encoding") = none := by
  rw [findHeader_trimmed, Option.map_eq_none_iff, findHeader_eq_none_iff, findHeader_eq_none_iff]
  constructor
  · intro absent h member
    cases counts : equalFold h.name (asciiBytes "Content-Length") with
    | false =>
      apply absent h
      apply List.mem_append_left
      apply List.mem_append_right
      exact List.mem_filter.mpr ⟨member, by simp [counts]⟩
    | true =>
      cases encodes : equalFold h.name (asciiBytes "Transfer-Encoding") with
      | false => rfl
      | true => exact absurd (equalFold_trans counts encodes) (by decide)
  · intro absent h member
    rw [ResponseWriter.sentHeaders, List.append_assoc, List.mem_append, List.mem_append] at member
    obtain member | member | member := member
    · rw [ResponseWriter.typeHeader] at member
      split at member
      · obtain rfl := List.mem_singleton.mp member
        decide
      · cases member
    · exact absent h (List.mem_filter.mp member).1
    · rw [ResponseWriter.lengthHeader] at member
      split at member
      · obtain rfl := List.mem_singleton.mp member
        change equalFold (asciiBytes "Content-Length") (asciiBytes "Transfer-Encoding") = false
        decide
      · cases member

/-- The length that the client finds is the one of the body. -/
theorem findHeader_sent_length (counted : w.status ≠ 204 ∧ w.status ≠ 304) :
    findHeader (w.sentHeaders.map Header.trimmed) (asciiBytes "Content-Length") =
      some (decimalText w.body.length) := by
  have absent : findHeader (w.typeHeader ++ w.ownHeaders) (asciiBytes "Content-Length") = none := by
    rw [findHeader_eq_none_iff]
    intro h member
    obtain member | member := List.mem_append.mp member
    · rw [ResponseWriter.typeHeader] at member
      split at member
      · obtain rfl := List.mem_singleton.mp member
        decide
      · cases member
    · simpa using (List.mem_filter.mp member).2
  have same : equalFold (asciiBytes "Content-Length") (asciiBytes "Content-Length") = true := by
    simp [equalFold]
  rw [findHeader_trimmed, ResponseWriter.sentHeaders, findHeader_append_of_none absent,
    ResponseWriter.lengthHeader, if_pos counted, findHeader, List.find?_cons, same]
  rw [Option.map_some, Option.map_some, (trimmed_decimalText _).trimSpaces]

theorem length_chunk_of_takeChunk {size : ℤ} {incoming after : Incoming} {chunk : Text}
    (takes : takeChunk size incoming = .ok (chunk, after)) :
    chunk.length + after.stream.length ≤ incoming.stream.length := by
  obtain ⟨there, fills, -, cut, rfl⟩ := takeChunk_ok takes
  have fits : chunk.length ≤ there.buffer.length := by
    rw [cut]
    split
    · exact Nat.zero_le _
    · exact List.length_take_le' _ _
  rw [Incoming.stream, Incoming.stream, ← (fill_eq_some fills).1, Incoming.stream]
  simp only [List.length_append, List.length_drop]
  omega

/-- Chunks take more bytes than they give. -/
theorem length_of_readChunks {limits : Limits} {body all : Text} {incoming after : Incoming}
    (reads : readChunks limits body incoming = .ok (all, after)) :
    all.length < body.length + incoming.stream.length := by
  generalize length : incoming.stream.length = bound
  induction bound using Nat.strong_induction_on generalizing body incoming with
  | _ bound ih =>
    cases line : readLine (some 1024) incoming with
    | error failure =>
      rw [readChunks_of_no_line line] at reads
      cases reads
    | ok read =>
      obtain ⟨text, behind⟩ := read
      have taken_line : behind.stream.length + 2 ≤ bound := by
        rw [← length, (readLine_ok line).1]
        simp only [crlf, List.length_append, List.length_cons, List.length_nil]
        omega
      rw [readChunks_of_line line] at reads
      split at reads
      · cases reads
      split at reads
      · cases reads
      split at reads
      · obtain ⟨end_, -, last⟩ := map_eq_ok_iff.mp reads
        cases last
        omega
      · obtain ⟨⟨chunk, later⟩, taken, more⟩ := bind_eq_ok_iff.mp reads
        have shorter := length_chunk_of_takeChunk taken
        dsimp only at more
        have now := ih _ (by omega) more rfl
        rw [List.length_append] at now
        omega

/-- A body that is read with a length is within the limit. -/
theorem length_of_readBody {limits : Limits} {headers : List Header} {untilClose : Bool}
    {incoming after : Incoming} {body text : Text}
    (not_encoded : findHeader headers (asciiBytes "Transfer-Encoding") = none)
    (given : findHeader headers (asciiBytes "Content-Length") = some text)
    (reads : readBody limits headers untilClose incoming = .ok (body, after)) :
    body.length ≤ limits.bodyBytes := by
  rw [readBody, not_encoded, given] at reads
  simp only [] at reads
  split at reads
  · cases reads
  · split at reads
    · cases reads
    · split at reads
      · cases reads
      · next not_negative within there fills =>
        obtain ⟨rfl, -⟩ := Prod.mk.inj (Except.ok.inj reads)
        have := List.length_take_le (parseCount text).toNat there.buffer
        omega

/-- The response is read back with its status, headers and body, in any pieces, and nothing else. -/
def ReadAsWritten (method : Text) (w : ResponseWriter) : Prop :=
  ∀ incoming : Incoming, incoming.stream = writeResponse w method →
    ∃ response after, readResponse method incoming = some (response, after) ∧
      response.status = w.status ∧ response.headers = w.sentHeaders.map Header.trimmed ∧
      response.body = w.sentBody method ∧ after.stream = []

/-- What the writer has to hold for that. -/
structure WellFramed (method : Text) (w : ResponseWriter) : Prop where
  status : 100 ≤ w.status ∧ w.status ≤ 999
  headers : ∀ h ∈ w.headers, equalFold h.name (asciiBytes "Content-Length") = false → PlainHeader h
  head : (headLines (statusLine w.status) w.sentHeaders).length + 3 ≤ ({} : Limits).headBytes
  body : HasBody method w.status →
    findHeader w.headers (asciiBytes "Transfer-Encoding") = none ∧
      w.body.length ≤ ({} : Limits).bodyBytes

theorem isLine_statusLine (status : ℤ) : IsLine (statusLine status) :=
  (oneLine_statusLine status).isLine

theorem readAsWritten_of_wellFramed (framed : WellFramed method w) : ReadAsWritten method w := by
  intro incoming stream_eq
  have plain : ∀ h ∈ w.sentHeaders, PlainHeader h := by
    intro h member
    rw [ResponseWriter.sentHeaders, List.append_assoc, List.mem_append, List.mem_append] at member
    obtain member | member | member := member
    · exact plain_typeHeader h member
    · obtain ⟨among, other⟩ := List.mem_filter.mp member
      exact framed.headers h among (by simpa using other)
    · exact plain_lengthHeader h member
  rw [writeResponse_eq] at stream_eq
  obtain ⟨behind, head, stream, -⟩ :=
    @readHead_headText {} _ _ _ _ (isLine_statusLine w.status) plain framed.head stream_eq
  have line := readStatusLine_statusLine w.status
  rw [if_pos framed.status] at line
  by_cases has_body : HasBody method w.status
  · obtain ⟨not_encoded, within⟩ := framed.body has_body
    have limit : ({} : Limits).bodyBytes = 10 * 1048576 := rfl
    rw [ResponseWriter.sentBody, if_pos has_body] at stream
    obtain ⟨after, body, rest, -⟩ := @readBody_of_length {} _ behind _ [] true _
      (findHeader_sent_encoding.mpr not_encoded)
      (findHeader_sent_length has_body.2) (parseCount_decimalText (by omega)) within
      (by rw [stream, List.append_nil])
    refine ⟨w.asRead method, after, ?_, rfl, rfl, rfl, rest⟩
    rw [readResponse, head]
    simp only [Except.toOption, bind, Option.bind, line]
    have holds : method ≠ asciiBytes "HEAD" ∧ w.status ≠ 204 ∧ w.status ≠ 304 := has_body
    rw [if_pos holds, body, ResponseWriter.asRead, ResponseWriter.sentBody, if_pos has_body]
    rfl
  · rw [ResponseWriter.sentBody, if_neg has_body] at stream
    refine ⟨w.asRead method, behind, ?_, rfl, rfl, rfl, stream⟩
    rw [readResponse, head]
    simp only [Except.toOption, bind, Option.bind, line]
    have fails : ¬(method ≠ asciiBytes "HEAD" ∧ w.status ≠ 204 ∧ w.status ≠ 304) := has_body
    rw [if_neg fails, ResponseWriter.asRead, ResponseWriter.sentBody, if_neg has_body]
    rfl

/-- What a client went through for a response. -/
theorem readResponse_eq_some {incoming after : Incoming} {response : Response}
    (reads : readResponse method incoming = some (response, after)) :
    ∃ first behind line, readHead {} incoming = .ok ((first, response.headers), behind) ∧
      readStatusLine first = some line ∧ line.status = response.status ∧
      (HasBody method response.status →
        readBody {} response.headers true behind = .ok (response.body, after)) := by
  rw [readResponse] at reads
  obtain ⟨⟨⟨first, headers⟩, behind⟩, head, later⟩ := Option.bind_eq_some_iff.mp reads
  obtain ⟨line, status, answer⟩ := Option.bind_eq_some_iff.mp later
  have head := toOption_eq_some_iff.mp head
  split at answer
  · obtain ⟨⟨bytes, rest⟩, body, last⟩ := Option.bind_eq_some_iff.mp answer
    obtain ⟨rfl, rfl⟩ := Prod.mk.inj (Option.some.inj last)
    exact ⟨first, behind, line, head, status, rfl, fun _ => toOption_eq_some_iff.mp body⟩
  · next no_body =>
    obtain ⟨rfl, rfl⟩ := Prod.mk.inj (Option.some.inj answer)
    exact ⟨first, behind, line, head, status, rfl, fun has_body => absurd has_body no_body⟩

theorem wellFramed_of_readAsWritten (written : ReadAsWritten method w) : WellFramed method w := by
  have stream_eq : ({ buffer := writeResponse w method } : Incoming).stream =
      headText (statusLine w.status) w.sentHeaders ++ w.sentBody method := by
    rw [← writeResponse_eq]
    exact List.append_nil _
  obtain ⟨response, after, reads, status, headers, body, -⟩ :=
    written { buffer := writeResponse w method } (List.append_nil _)
  obtain ⟨first, behind, line, head, line_eq, line_status, reads_body⟩ := readResponse_eq_some reads
  rw [headers] at head reads_body
  rw [status] at line_status reads_body
  rw [body] at reads_body
  have plain : ∀ h ∈ w.sentHeaders, PlainHeader h := fun h member =>
    plainHeader_of_trimmed (readHead_plain head _ (List.mem_map_of_mem member))
  have within :
      (headLines (statusLine w.status) w.sentHeaders).length + 3 ≤ ({} : Limits).headBytes := by
    by_contra beyond
    have late := @readHead_late {} _ _ (isLine_statusLine w.status) plain (Int.not_le.mp beyond)
      (w.sentBody method) .closed
    rw [← writeResponse_eq] at late
    obtain ⟨response, after, reads, -⟩ := written
      { buffer := (writeResponse w method).take
          ((headLines (statusLine w.status) w.sentHeaders).length + 3)
        reads := [(writeResponse w method).drop
          ((headLines (statusLine w.status) w.sentHeaders).length + 3)] }
      (by simp [Incoming.stream])
    obtain ⟨first, behind, line, head, -⟩ := readResponse_eq_some reads
    rw [late] at head
    cases head
  obtain ⟨there, head_there, stream, -⟩ :=
    @readHead_headText {} _ _ _ _ (isLine_statusLine w.status) plain within stream_eq
  obtain ⟨same, rfl⟩ := Prod.mk.inj (Except.ok.inj (head.symm.trans head_there))
  obtain ⟨rfl, -⟩ := Prod.mk.inj same
  refine ⟨?_, ?_, within, ?_⟩
  · rw [readStatusLine_statusLine] at line_eq
    split at line_eq
    · next three => exact three
    · cases line_eq
  · intro h member other
    apply plain h
    apply List.mem_append_left
    apply List.mem_append_right
    exact List.mem_filter.mpr ⟨member, by simp [other]⟩
  · intro has_body
    have reads_body := reads_body has_body
    rw [ResponseWriter.sentBody, if_pos has_body] at reads_body stream
    have not_encoded : findHeader (w.sentHeaders.map Header.trimmed)
        (asciiBytes "Transfer-Encoding") = none := by
      -- An encoded body has more bytes than what is decoded of it.
      cases encoded : findHeader (w.sentHeaders.map Header.trimmed)
          (asciiBytes "Transfer-Encoding") with
      | none => rfl
      | some encoding =>
        rw [readBody, encoded] at reads_body
        simp only [] at reads_body
        split at reads_body
        · cases reads_body
        · have shorter := length_of_readChunks reads_body
          rw [stream] at shorter
          simp only [List.length_nil] at shorter
          omega
    exact ⟨findHeader_sent_encoding.mp not_encoded,
      length_of_readBody not_encoded (findHeader_sent_length has_body.2) reads_body⟩

/-- Whatever a handler does with its writer. -/
theorem respond_readAsWritten_iff (operations : List Operation) (method : Text) :
    ReadAsWritten method (respond operations) ↔ WellFramed method (respond operations) :=
  ⟨wellFramed_of_readAsWritten, readAsWritten_of_wellFramed⟩

/-- A url with a line break brings a header of its own. -/
theorem splitRedirect_not_readAsWritten :
    ¬ReadAsWritten (asciiBytes "GET")
      (respond [.redirect (asciiBytes "/\r\nSet-Cookie: id=1") 303]) := by
  intro written
  obtain ⟨response, after, reads, -, headers, -⟩ := written
    { buffer := writeResponse (respond [.redirect (asciiBytes "/\r\nSet-Cookie: id=1") 303])
        (asciiBytes "GET") } (List.append_nil _)
  have count : (readResponse (asciiBytes "GET") { buffer := writeResponse (respond
      [.redirect (asciiBytes "/\r\nSet-Cookie: id=1") 303]) (asciiBytes "GET") }).map
        (·.1.headers.length) = some 3 := by decide +kernel
  have two : (respond [.redirect (asciiBytes "/\r\nSet-Cookie: id=1") 303]).sentHeaders.length = 2 := by
    decide +kernel
  rw [reads, Option.map_some, headers, List.length_map, two] at count
  cases count

end Framing

end Saad.Http
