import Saad.General.Outcomes
import Saad.Http.Message
import Saad.Std.Int32

/-! # Reading messages

A message is read from what is unread in the buffer of the connection, and from the connection when
more is needed. The network decides how much a read gives. An error ends the connection, so what is
left of it is not kept.
-/

namespace Saad.Http

open General

section Connection

/-- The end of a connection: the other side closed it, or nothing came in time. -/
inductive ReadError where
  | closed
  | timeout
deriving DecidableEq, Repr

/-- The unread bytes of the buffer, and what the next reads of the connection give. -/
structure Incoming where
  buffer : Text
  reads : List Text := []
  ended : ReadError := .closed
deriving DecidableEq, Repr

/-- All bytes that are there or come. -/
def Incoming.stream (incoming : Incoming) : Text := incoming.buffer ++ incoming.reads.flatten

/-- A status is given, or the code goes on with a text of a negative length and a read position that
moves backwards. -/
inductive ReadFailure where
  | status (code : ℤ)
  | outOfBounds
deriving DecidableEq, Repr

/-- `Gone` -/
def gone : ℤ := -1

structure Limits where
  headBytes : ℤ := 65536
  bodyBytes : ℤ := 10 * 1048576
  /-- The limit is an `int`. -/
  bodyBytes_lt : bodyBytes < 2 ^ 31 := by decide

def crlf : Text := [13, 10]

/-- `readUntil`: the bytes up to the separator, which is read as well. -/
def readUntil (buffer separator : Text) : Option (Text × Text) :=
  (indexOf buffer separator).map fun at_ =>
    (buffer.take at_, buffer.drop (at_ + separator.length))

/-- `fill`: reads until the buffer has at least `count` bytes. -/
def fill (count : ℤ) (ended : ReadError) : List Text → Text → Option Incoming
  | [], buffer => if count ≤ buffer.length then some { buffer, ended } else none
  | next :: reads, buffer =>
    if count ≤ buffer.length then some { buffer, reads := next :: reads, ended }
    else fill count ended reads (buffer ++ next)

/-- Filling only moves bytes from the connection to the buffer. -/
theorem fill_eq_some {count : ℤ} {ended : ReadError} {reads : List Text} {buffer : Text}
    {after : Incoming} (fills : fill count ended reads buffer = some after) :
    after.stream = buffer ++ reads.flatten ∧ after.ended = ended ∧ count ≤ after.buffer.length := by
  induction reads generalizing buffer with
  | nil =>
    rw [fill] at fills
    split at fills
    · next enough =>
      obtain rfl := Option.some.inj fills
      exact ⟨rfl, rfl, enough⟩
    · cases fills
  | cons next reads ih =>
    rw [fill] at fills
    split at fills
    · next enough =>
      obtain rfl := Option.some.inj fills
      exact ⟨rfl, rfl, enough⟩
    · obtain ⟨stream, same, enough⟩ := ih fills
      refine ⟨?_, same, enough⟩
      rw [stream, List.flatten_cons, List.append_assoc]

end Connection

section Head

/-- Reads until the buffer has the head. -/
def awaitHead (limits : Limits) (ended : ReadError) :
    List Text → Text → Except ReadFailure Incoming
  | reads, buffer =>
    if indexOf buffer (crlf ++ crlf) ≠ none then .ok { buffer, reads, ended }
    else if buffer.length > limits.headBytes then .error (.status 431)
    else
      match reads with
      | [] => .error (.status (if buffer ≠ [] ∧ ended ≠ .closed then 408 else gone))
      | next :: reads => awaitHead limits ended reads (buffer ++ next)

/-- A line of a header. -/
def readHeader (line : Text) : Except ReadFailure Header :=
  match indexOf line [byteOf ':'] with
  | none | some 0 => .error (.status 400)
  | some colon =>
    if indexOf (line.take colon) [byteOf ' '] ≠ none then .error (.status 400)
    else .ok ⟨line.take colon, trimSpaces (line.drop (colon + 1))⟩

/-- The lines behind the first one. -/
def readHeaders (rest : Text) : Except ReadFailure (List Header) :=
  if rest = [] then .ok []
  else
    match _ : indexOf rest crlf with
    | some last => do
      let header ← readHeader (rest.take last)
      let headers ← readHeaders (rest.drop (last + 2))
      return header :: headers
    | none => do
      let header ← readHeader rest
      return [header]
termination_by rest.length
decreasing_by
  next found =>
    have fits := (indexOf_fits found).2
    rw [List.length_drop]
    simp only [crlf, List.length_cons, List.length_nil] at fits
    omega

def readHead (limits : Limits) (incoming : Incoming) :
    Except ReadFailure ((Text × List Header) × Incoming) := do
  let incoming ← awaitHead limits incoming.ended incoming.reads incoming.buffer
  let (head, unread) := (readUntil incoming.buffer (crlf ++ crlf)).getD ([], incoming.buffer)
  if head.length > limits.headBytes then .error (.status 431)
  let (first, rest) := (readUntil head crlf).getD (head, [])
  let headers ← readHeaders rest
  return ((first, headers), { incoming with buffer := unread })

end Head

section Body

variable {bound : Option ℕ} {buffer separator chunk : Text} {after incoming : Incoming} {size : ℤ}

/-- A number of a header, or -1. -/
def parseCount (text : Text) : ℤ :=
  if text.length = 0 ∨ 18 < text.length ∨ ¬text.all isDigit then -1
  else text.foldl (fun n ch => n * 10 + digitValue ch) 0

/-- Reads until the buffer has a line. Not further than over the bound, if there is one. -/
def awaitLine (bound : Option ℕ) (ended : ReadError) :
    List Text → Text → Except ReadFailure Incoming
  | reads, buffer =>
    if indexOf buffer crlf ≠ none then .ok { buffer, reads, ended }
    else if bound.any (· < buffer.length) then .error (.status 400)
    else
      match reads with
      | [] => .error (.status 400)
      | next :: reads => awaitLine bound ended reads (buffer ++ next)

/-- The line that is there then, without its line break. -/
def readLine (bound : Option ℕ) (incoming : Incoming) :
    Except ReadFailure (Text × Incoming) := do
  let incoming ← awaitLine bound incoming.ended incoming.reads incoming.buffer
  let (line, unread) := (readUntil incoming.buffer crlf).getD ([], incoming.buffer)
  return (line, { incoming with buffer := unread })

/-- The size of a chunk: hex digits, with blanks around them and an extension behind. -/
def chunkSize (line : Text) : Except ReadFailure ℤ :=
  let line := ((indexOf line [byteOf ';']).map line.take).getD line
  let line := trimSpaces line
  if line.length = 0 ∨ 15 < line.length ∨ ¬line.all isHexDigit then .error (.status 400)
  else .ok (line.foldl (fun size ch => int32 (size * 16 + digitValue ch)) 0)

theorem awaitLine_ok {ended : ReadError} {reads : List Text}
    (awaits : awaitLine bound ended reads buffer = .ok after) :
    after.stream = buffer ++ reads.flatten ∧ after.ended = ended ∧
      indexOf after.buffer crlf ≠ none := by
  induction reads generalizing buffer with
  | nil =>
    rw [awaitLine] at awaits
    split at awaits
    · next found =>
      obtain rfl := Except.ok.inj awaits
      exact ⟨rfl, rfl, found⟩
    · split at awaits <;> cases awaits
  | cons next reads ih =>
    rw [awaitLine] at awaits
    split at awaits
    · next found =>
      obtain rfl := Except.ok.inj awaits
      exact ⟨rfl, rfl, found⟩
    · split at awaits
      · cases awaits
      · obtain ⟨stream, same, found⟩ := ih awaits
        refine ⟨?_, same, found⟩
        rw [stream, List.flatten_cons, List.append_assoc]

theorem readUntil_eq_some_iff {before behind : Text} (nonempty : separator ≠ []) :
    readUntil buffer separator = some (before, behind) ↔
      buffer = before ++ separator ++ behind ∧ FirstAt separator buffer before.length := by
  rw [readUntil, Option.map_eq_some_iff]
  constructor
  · rintro ⟨n, found, same⟩
    obtain ⟨rfl, rfl⟩ := Prod.mk.inj same
    have here := (indexOf_eq_some_iff nonempty).mp found
    have fits := here.length_le nonempty
    have length : (buffer.take n).length = n := by
      rw [List.length_take]
      omega
    rw [length]
    exact ⟨here.eq_append, here⟩
  · rintro ⟨rfl, here⟩
    refine ⟨before.length, (indexOf_eq_some_iff nonempty).mpr here, ?_⟩
    rw [List.append_assoc, List.take_left, ← List.drop_drop, List.drop_left, List.drop_left]

theorem readUntil_isSome (found : indexOf buffer separator ≠ none) :
    ∃ before behind, readUntil buffer separator = some (before, behind) := by
  obtain ⟨n, at_n⟩ := Option.ne_none_iff_exists'.mp found
  exact ⟨_, _, by rw [readUntil, at_n, Option.map_some]⟩

/-- A line is a line of the stream. -/
theorem readLine_ok {line : Text} (reads : readLine bound incoming = .ok (line, after)) :
    incoming.stream = line ++ crlf ++ after.stream ∧ after.ended = incoming.ended ∧
      FirstAt crlf (line ++ crlf) line.length := by
  rw [readLine] at reads
  obtain ⟨there, awaits, last⟩ := bind_eq_ok_iff.mp reads
  obtain ⟨stream, ended, found⟩ := awaitLine_ok awaits
  obtain ⟨before, behind, splits⟩ := readUntil_isSome found
  rw [splits] at last
  cases last
  obtain ⟨same, here⟩ := (readUntil_eq_some_iff (by decide)).mp splits
  refine ⟨?_, ended, ?_⟩
  · rw [Incoming.stream, ← stream, Incoming.stream, Incoming.stream, same, List.append_assoc]
  · rw [same] at here
    exact here.of_append (by rw [List.length_append])

/-- The lines of the trailer, up to an empty one. -/
def readTrailer (incoming : Incoming) : Except ReadFailure Incoming :=
  match _ : readLine none incoming with
  | .error failure => .error failure
  | .ok (trailer, after) => if trailer = [] then .ok after else readTrailer after
termination_by incoming.stream.length
decreasing_by
  next reads _ =>
    rw [(readLine_ok reads).1]
    simp only [crlf, List.length_append, List.length_cons]
    omega

/-- The bytes of a chunk. The two bytes behind them are skipped. -/
def takeChunk (size : ℤ) (incoming : Incoming) : Except ReadFailure (Text × Incoming) :=
  match fill (int32 (size + 2)) incoming.ended incoming.reads incoming.buffer with
  | none => .error (.status 400)
  | some incoming =>
    if size < 0 then .error .outOfBounds
    else
      let chunk := if incoming.buffer.length < size then [] else incoming.buffer.take size.toNat
      .ok (chunk, { incoming with buffer := (incoming.buffer.drop chunk.length).drop 2 })

theorem takeChunk_ok (takes : takeChunk size incoming = .ok (chunk, after)) :
    ∃ there, fill (int32 (size + 2)) incoming.ended incoming.reads incoming.buffer = some there ∧
      0 ≤ size ∧ chunk = (if there.buffer.length < size then [] else there.buffer.take size.toNat) ∧
      after = { there with buffer := (there.buffer.drop chunk.length).drop 2 } := by
  rw [takeChunk] at takes
  split at takes
  · cases takes
  · next there fills =>
    split at takes
    · cases takes
    · next not_negative =>
      simp only [Except.ok.injEq, Prod.mk.injEq] at takes
      obtain ⟨rfl, rfl⟩ := takes
      exact ⟨there, fills, by omega, rfl, rfl⟩

theorem length_of_takeChunk (takes : takeChunk size incoming = .ok (chunk, after)) :
    after.stream.length ≤ incoming.stream.length := by
  obtain ⟨there, fills, -, -, rfl⟩ := takeChunk_ok takes
  rw [Incoming.stream, Incoming.stream, ← (fill_eq_some fills).1, Incoming.stream]
  simp only [List.length_append, List.length_drop]
  omega

/-- The chunks behind those in `body`. -/
def readChunks (limits : Limits) (body : Text) (incoming : Incoming) :
    Except ReadFailure (Text × Incoming) :=
  match _ : readLine (some 1024) incoming with
  | .error failure => .error failure
  | .ok (line, behind) =>
    match chunkSize line with
    | .error failure => .error failure
    | .ok size =>
      if int32 (body.length + size) > limits.bodyBytes then .error (.status 413)
      else if size = 0 then (readTrailer behind).map (body, ·)
      else
        match _ : takeChunk size behind with
        | .error failure => .error failure
        | .ok (chunk, after) => readChunks limits (body ++ chunk) after
termination_by incoming.stream.length
decreasing_by
  next reads _ _ takes =>
    have shorter := length_of_takeChunk takes
    rw [(readLine_ok reads).1]
    simp only [crlf, List.length_append, List.length_cons]
    omega

/-- All that comes until the connection ends. -/
def readToEnd (limits : Limits) : List Text → Text → Except ReadFailure Text
  | [], buffer => .ok buffer
  | next :: reads, buffer =>
    if (buffer ++ next).length > limits.bodyBytes then .error (.status 413)
    else readToEnd limits reads (buffer ++ next)

def readBody (limits : Limits) (headers : List Header) (untilClose : Bool) (incoming : Incoming) :
    Except ReadFailure (Text × Incoming) :=
  match findHeader headers (asciiBytes "Transfer-Encoding") with
  | some encoding =>
    if !equalFold encoding (asciiBytes "chunked") then .error (.status 501)
    else readChunks limits [] incoming
  | none =>
    match findHeader headers (asciiBytes "Content-Length") with
    | some text =>
      let length := parseCount text
      if length < 0 then .error (.status 400)
      else if length > limits.bodyBytes then .error (.status 413)
      else
        match fill (int32 length) incoming.ended incoming.reads incoming.buffer with
        | none => .error (.status 400)
        | some incoming =>
          .ok (incoming.buffer.take length.toNat,
            { incoming with buffer := incoming.buffer.drop length.toNat })
    | none =>
      if !untilClose then .ok ([], incoming)
      else
        (readToEnd limits incoming.reads incoming.buffer).map fun body =>
          (body, { incoming with buffer := [], reads := [] })

/-- `METHOD target HTTP/1.1` -/
def readRequestLine (first : Text) : Except ReadFailure Request :=
  match indexOf first [byteOf ' '] with
  | none | some 0 => .error (.status 400)
  | some space =>
    let rest := first.drop (space + 1)
    match indexOf rest [byteOf ' '] with
    | none | some 0 => .error (.status 400)
    | some last =>
      let target := rest.take last
      let version := rest.drop (last + 1)
      if !startsWith version (asciiBytes "HTTP/1.") then .error (.status 505)
      else if !startsWith target [byteOf '/'] && target != [byteOf '*'] then .error (.status 400)
      else
        let (path, query) := match indexOf target [byteOf '?'] with
          | some question => (target.take question, target.drop (question + 1))
          | none => (target, [])
        .ok { method := first.take space, target, path, query, version }

/-- The answer to `Expect: 100-continue` is written in between, and reads nothing. -/
def readRequest (limits : Limits) (incoming : Incoming) :
    Except ReadFailure (Request × Incoming) := do
  let ((first, headers), incoming) ← readHead limits incoming
  let request ← readRequestLine first
  let (body, incoming) ← readBody limits headers false incoming
  return ({ request with headers, body }, incoming)

end Body

end Saad.Http
