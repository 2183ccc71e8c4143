import Saad.Http.Reading

/-! # Reading in one piece or in many

What is read of a stream that comes in pieces is what is read when all of it is in the buffer, as long
as no bound lies within the text that the reader looks for: a bound is only looked at while the end
of the text is missing.
-/

namespace Saad.Http

open General Relation

/-- All that comes has come. -/
def Incoming.whole (incoming : Incoming) : Incoming :=
  { buffer := incoming.stream, ended := incoming.ended }

@[simp] theorem Incoming.stream_whole (incoming : Incoming) :
    incoming.whole.stream = incoming.stream := List.append_nil _

theorem Incoming.whole_eq {incoming other : Incoming} (same_stream : incoming.stream = other.stream)
    (same_end : incoming.ended = other.ended) : incoming.whole = other.whole := by
  rw [Incoming.whole, Incoming.whole, same_stream, same_end]

/-- What was read, with the rest in one piece. -/
def asWhole {α : Type} (result : Except ReadFailure (α × Incoming)) :
    Except ReadFailure (α × Incoming) := result.map fun (value, incoming) => (value, incoming.whole)

section Pieces

variable {ended : ReadError} {reads : List Text} {buffer : Text}

theorem fill_of_enough {count : ℤ} (enough : count ≤ buffer.length) :
    fill count ended reads buffer = some { buffer, reads, ended } := by
  cases reads with
  | nil => rw [fill, if_pos enough]
  | cons next reads => rw [fill, if_pos enough]

theorem fill_nil_of_less {count : ℤ} (less : ¬count ≤ buffer.length) :
    fill count ended [] buffer = none := by
  rw [fill, if_neg less]

theorem fill_cons_of_less {count : ℤ} {next : Text} (less : ¬count ≤ buffer.length) :
    fill count ended (next :: reads) buffer = fill count ended reads (buffer ++ next) := by
  rw [fill, if_neg less]

theorem fill_whole (count : ℤ) (ended : ReadError) (reads : List Text) (buffer : Text) :
    (fill count ended reads buffer).map Incoming.whole =
      fill count ended [] (buffer ++ reads.flatten) := by
  by_cases enough : count ≤ buffer.length
  · have still_enough : count ≤ (buffer ++ reads.flatten).length := by
      rw [List.length_append]
      omega
    rw [fill_of_enough enough, fill_of_enough still_enough]
    rfl
  · induction reads generalizing buffer with
    | nil => rw [List.flatten_nil, List.append_nil, fill_nil_of_less enough, Option.map_none]
    | cons next reads ih =>
      rw [fill_cons_of_less enough, List.flatten_cons, ← List.append_assoc]
      by_cases enough_now : count ≤ (buffer ++ next).length
      · have still_enough : count ≤ (buffer ++ next ++ reads.flatten).length := by
          rw [List.length_append]
          omega
        rw [fill_of_enough enough_now, fill_of_enough still_enough]
        rfl
      · exact ih _ enough_now

theorem indexOf_append {s str : Text} {n : ℕ} (found : indexOf s str = some n) (more : Text) :
    indexOf (s ++ more) str = some n := by
  have nonempty : str ≠ [] := List.ne_nil_of_length_pos (indexOf_fits found).1
  exact (indexOf_eq_some_iff nonempty).mpr
    (((indexOf_eq_some_iff nonempty).mp found).append nonempty more)

/-- A separator that more text brings reaches over the end of what was there. -/
theorem length_lt_of_indexOf {s str more : Text} {n : ℕ} (missing : indexOf s str = none)
    (found : indexOf (s ++ more) str = some n) : s.length < n + str.length := by
  have nonempty : str ≠ [] := List.ne_nil_of_length_pos (indexOf_fits found).1
  exact ((indexOf_eq_some_iff nonempty).mp found).length_lt
    ((indexOf_eq_none_iff nonempty).mp missing)

section Lines

variable {bound : Option ℕ}

theorem awaitLine_of_found {n : ℕ} (found : indexOf buffer crlf = some n) :
    awaitLine bound ended reads buffer = .ok { buffer, reads, ended } := by
  cases reads with
  | nil => rw [awaitLine, if_pos (by simp [found])]
  | cons next reads => rw [awaitLine, if_pos (by simp [found])]

theorem awaitLine_of_over (missing : indexOf buffer crlf = none)
    (beyond : (bound.any (· < buffer.length)) = true) :
    awaitLine bound ended reads buffer = .error (.status 400) := by
  cases reads with
  | nil => rw [awaitLine, if_neg (by simp [missing]), if_pos beyond]
  | cons next reads => rw [awaitLine, if_neg (by simp [missing]), if_pos beyond]

theorem awaitLine_nil (missing : indexOf buffer crlf = none) :
    awaitLine bound ended [] buffer = .error (.status 400) := by
  rw [awaitLine, if_neg (by simp [missing])]
  split <;> rfl

theorem awaitLine_cons {next : Text} (missing : indexOf buffer crlf = none)
    (within : ¬(bound.any (· < buffer.length)) = true) :
    awaitLine bound ended (next :: reads) buffer = awaitLine bound ended reads (buffer ++ next) := by
  rw [awaitLine, if_neg (by simp [missing]), if_neg within]

/-- A line whose end is found before more than the bound is there. -/
def SteadyLine (bound : Option ℕ) (stream : Text) : Prop :=
  ∀ n, indexOf stream crlf = some n → bound.all (n < ·)

theorem awaitLine_whole (steady : SteadyLine bound (buffer ++ reads.flatten)) :
    (awaitLine bound ended reads buffer).map Incoming.whole =
      awaitLine bound ended [] (buffer ++ reads.flatten) := by
  induction reads generalizing buffer with
  | nil =>
    rw [List.flatten_nil, List.append_nil]
    cases found : indexOf buffer crlf with
    | none => rw [awaitLine_nil found, Except.map]
    | some n =>
      rw [awaitLine_of_found found, Except.map]
      simp [Incoming.whole, Incoming.stream]
  | cons next reads ih =>
    cases found : indexOf buffer crlf with
    | some n =>
      rw [awaitLine_of_found found, awaitLine_of_found (indexOf_append found _)]
      rfl
    | none =>
      by_cases beyond : (bound.any (· < buffer.length)) = true
      · have still_missing : indexOf (buffer ++ (next :: reads).flatten) crlf = none := by
          cases later : indexOf (buffer ++ (next :: reads).flatten) crlf with
          | none => rfl
          | some n =>
            have reaches := length_lt_of_indexOf found later
            have close := steady n later
            cases bound with
            | none => cases beyond
            | some most =>
              simp only [Option.any_some, Option.all_some, decide_eq_true_eq] at beyond close
              simp only [crlf, List.length_cons, List.length_nil] at reaches
              omega
        rw [awaitLine_of_over found beyond, awaitLine_nil still_missing, Except.map]
      · rw [awaitLine_cons found beyond, List.flatten_cons, ← List.append_assoc]
        apply ih
        rw [List.flatten_cons, ← List.append_assoc] at steady
        exact steady

theorem readUntil_of_found {s separator : Text} {n : ℕ} (found : indexOf s separator = some n) :
    readUntil s separator = some (s.take n, s.drop (n + separator.length)) := by
  rw [readUntil, found, Option.map_some]

/-- What is there behind a separator, and what comes. -/
theorem readUntil_append {s separator : Text} {n : ℕ} (found : indexOf s separator = some n)
    (more : Text) :
    readUntil (s ++ more) separator = some (s.take n, s.drop (n + separator.length) ++ more) := by
  have fits := (indexOf_fits found).2
  rw [readUntil_of_found (indexOf_append found more), List.take_append_of_le_length (by omega),
    List.drop_append_of_le_length fits]

/-- What a line is when all has come. -/
theorem readLine_whole {incoming : Incoming} (steady : SteadyLine bound incoming.stream) :
    asWhole (readLine bound incoming) = readLine bound incoming.whole := by
  have awaits := @awaitLine_whole incoming.ended _ _ _ steady
  change _ = awaitLine bound incoming.whole.ended incoming.whole.reads incoming.whole.buffer at awaits
  rw [readLine, readLine, ← awaits]
  cases there : awaitLine bound incoming.ended incoming.reads incoming.buffer with
  | error failure => rfl
  | ok there_now =>
    obtain ⟨-, -, found⟩ := awaitLine_ok there
    obtain ⟨n, found⟩ := Option.ne_none_iff_exists'.mp found
    have now := readUntil_of_found found
    have later := readUntil_append found there_now.reads.flatten
    simp only [asWhole, bind, Except.bind, pure, Except.pure, Except.map, now, Option.getD_some,
      Incoming.whole, Incoming.stream, later]

end Lines

end Pieces

section Trailer

theorem readTrailer_of_error {incoming : Incoming} {failure : ReadFailure}
    (fails : readLine none incoming = .error failure) : readTrailer incoming = .error failure := by
  rw [readTrailer]
  split
  · next other same =>
    rw [fails] at same
    cases same
    rfl
  · next trailer after same =>
    rw [fails] at same
    cases same

theorem readTrailer_of_ok {incoming after : Incoming} {trailer : Text}
    (reads : readLine none incoming = .ok (trailer, after)) :
    readTrailer incoming = if trailer = [] then .ok after else readTrailer after := by
  rw [readTrailer]
  split
  · next other same =>
    rw [reads] at same
    cases same
  · next trailer after same =>
    rw [reads] at same
    cases same
    rfl

theorem readTrailer_whole (incoming : Incoming) :
    (readTrailer incoming).map Incoming.whole = readTrailer incoming.whole := by
  have line : asWhole (readLine none incoming) = readLine none incoming.whole :=
    readLine_whole (by intro n _; rfl)
  fun_induction readTrailer incoming with
  | case1 incoming failure fails =>
    rw [fails] at line
    rw [readTrailer_of_error line.symm, Except.map]
  | case2 incoming after reads =>
    rw [reads] at line
    rw [readTrailer_of_ok line.symm, if_pos rfl, Except.map]
  | case3 incoming trailer after reads more ih =>
    rw [reads] at line
    rw [readTrailer_of_ok line.symm, if_neg more]
    exact ih (readLine_whole (by intro n _; rfl))

end Trailer

section Chunks

/-- No operation on the size of a chunk wraps. -/
def SizeFits (size : ℤ) : Prop := 0 ≤ size ∧ size + 2 < 2 ^ 31

theorem takeChunk_of_none {size : ℤ} (fits : SizeFits size) {incoming : Incoming}
    (ends : fill (size + 2) incoming.ended incoming.reads incoming.buffer = none) :
    takeChunk size incoming = .error (.status 400) := by
  rw [takeChunk, int32_of_fits (by have := fits.1; omega) fits.2, ends]

theorem takeChunk_of_some {size : ℤ} (fits : SizeFits size) {incoming there : Incoming}
    (fills : fill (size + 2) incoming.ended incoming.reads incoming.buffer = some there) :
    takeChunk size incoming = .ok (there.buffer.take size.toNat,
      { there with buffer := there.buffer.drop (size.toNat + 2) }) := by
  obtain ⟨-, -, enough⟩ := fill_eq_some fills
  obtain ⟨not_negative, high⟩ := fits
  have length : (there.buffer.take size.toNat).length = size.toNat := by
    rw [List.length_take]
    omega
  rw [takeChunk, int32_of_fits (by omega) high, fills]
  simp only [if_neg (Int.not_lt.mpr not_negative),
    if_neg (show ¬((there.buffer.length : ℤ) < size) by omega), length, List.drop_drop]

theorem takeChunk_whole {size : ℤ} (fits : SizeFits size) (incoming : Incoming) :
    asWhole (takeChunk size incoming) = takeChunk size incoming.whole := by
  have fills := fill_whole (size + 2) incoming.ended incoming.reads incoming.buffer
  cases there : fill (size + 2) incoming.ended incoming.reads incoming.buffer with
  | none =>
    rw [there] at fills
    rw [takeChunk_of_none fits there, takeChunk_of_none fits fills.symm]
    rfl
  | some there_now =>
    rw [there] at fills
    obtain ⟨-, -, enough⟩ := fill_eq_some there
    have enough_now : size.toNat + 2 ≤ there_now.buffer.length := by
      have := fits.1
      omega
    rw [takeChunk_of_some fits there, takeChunk_of_some fits fills.symm]
    simp only [asWhole, Except.map, Incoming.whole, Incoming.stream, List.take_append_of_le_length (show size.toNat ≤ there_now.buffer.length by omega),
      List.drop_append_of_le_length enough_now]

variable {limits : Limits} {body line chunk : Text} {incoming behind after : Incoming}
  {failure : ReadFailure} {size : ℤ}

theorem readChunks_of_no_line (fails : readLine (some 1024) incoming = .error failure) :
    readChunks limits body incoming = .error failure := by
  rw [readChunks]
  split
  · next other same =>
    rw [fails] at same
    cases same
    rfl
  · next line behind same =>
    rw [fails] at same
    cases same

theorem readChunks_of_line (reads : readLine (some 1024) incoming = .ok (line, behind)) :
    readChunks limits body incoming =
      match chunkSize line with
      | .error failure => .error failure
      | .ok size =>
        if int32 (body.length + size) > limits.bodyBytes then .error (.status 413)
        else if size = 0 then (readTrailer behind).map (body, ·)
        else (takeChunk size behind).bind fun read => readChunks limits (body ++ read.1) read.2 := by
  rw [readChunks]
  split
  · next other same =>
    rw [reads] at same
    cases same
  · next line behind same =>
    rw [reads] at same
    cases same
    cases chunkSize line with
    | error failure => rfl
    | ok size =>
      simp only []
      split
      · rfl
      · split
        · rfl
        · split
          · next failure takes => rw [takes, Except.bind]
          · next chunk after takes => rw [takes, Except.bind]

/-- One turn of the loop over the chunks, from what was read and what is there to what is read then. -/
inductive ChunkTurn (limits : Limits) : Text × Incoming → Text × Incoming → Prop
  | chunk (body line chunk : Text) (incoming behind after : Incoming) (size : ℤ)
      (reads : readLine (some 1024) incoming = .ok (line, behind))
      (sizes : chunkSize line = .ok size)
      (within : int32 (body.length + size) ≤ limits.bodyBytes) (more : size ≠ 0)
      (takes : takeChunk size behind = .ok (chunk, after)) :
      ChunkTurn limits (body, incoming) (body ++ chunk, after)

/-- The next chunk is read in the same way whatever the pieces it comes in. -/
structure SteadyChunk (limits : Limits) (body : Text) (incoming : Incoming) : Prop where
  line : SteadyLine (some 1024) incoming.stream
  size : ∀ line behind size, readLine (some 1024) incoming = .ok (line, behind) →
    chunkSize line = .ok size → int32 (body.length + size) ≤ limits.bodyBytes → SizeFits size

/-- So are all chunks. -/
def SteadyChunks (limits : Limits) (body : Text) (incoming : Incoming) : Prop :=
  ∀ read, ReflTransGen (ChunkTurn limits) (body, incoming) read → SteadyChunk limits read.1 read.2

theorem readChunks_whole (steady : SteadyChunks limits body incoming.whole) :
    asWhole (readChunks limits body incoming) = readChunks limits body incoming.whole := by
  generalize length : incoming.stream.length = bound
  induction bound using Nat.strong_induction_on generalizing body incoming with
  | _ bound ih =>
    have now := steady _ .refl
    have line := readLine_whole (incoming.stream_whole ▸ now.line)
    cases reads : readLine (some 1024) incoming with
    | error failure =>
      rw [reads] at line
      rw [readChunks_of_no_line reads, readChunks_of_no_line line.symm]
      rfl
    | ok read =>
      obtain ⟨text, behind⟩ := read
      rw [reads] at line
      rw [readChunks_of_line reads, readChunks_of_line line.symm]
      cases sizes : chunkSize text with
      | error failure => rfl
      | ok size =>
        simp only []
        split
        · rfl
        · next within =>
          split
          · rw [← readTrailer_whole]
            cases readTrailer behind <;> rfl
          · next more =>
            have fits := now.size _ _ _ line.symm sizes (Int.not_lt.mp within)
            have takes := takeChunk_whole fits behind
            cases taken : takeChunk size behind with
            | error failure =>
              rw [taken] at takes
              rw [← takes]
              rfl
            | ok got =>
              obtain ⟨chunk, after⟩ := got
              rw [taken] at takes
              rw [← takes]
              apply ih after.stream.length _ _ rfl
              · rw [← length, (readLine_ok reads).1]
                have shorter := length_of_takeChunk taken
                simp only [crlf, List.length_append, List.length_cons]
                omega
              · intro read turns
                apply steady read
                exact .head (.chunk _ _ _ _ _ _ _ line.symm sizes (Int.not_lt.mp within) more
                  takes.symm) turns

end Chunks

section Heads

variable {limits : Limits} {ended : ReadError} {reads : List Text} {buffer next : Text}

theorem awaitHead_of_found {n : ℕ} (found : indexOf buffer (crlf ++ crlf) = some n) :
    awaitHead limits ended reads buffer = .ok { buffer, reads, ended } := by
  cases reads with
  | nil => rw [awaitHead, if_pos (by simp [found])]
  | cons next reads => rw [awaitHead, if_pos (by simp [found])]

theorem awaitHead_of_over (missing : indexOf buffer (crlf ++ crlf) = none)
    (beyond : limits.headBytes < buffer.length) :
    awaitHead limits ended reads buffer = .error (.status 431) := by
  cases reads with
  | nil => rw [awaitHead, if_neg (by simp [missing]), if_pos beyond]
  | cons next reads => rw [awaitHead, if_neg (by simp [missing]), if_pos beyond]

theorem awaitHead_cons (missing : indexOf buffer (crlf ++ crlf) = none)
    (within : ¬limits.headBytes < buffer.length) :
    awaitHead limits ended (next :: reads) buffer =
      awaitHead limits ended reads (buffer ++ next) := by
  rw [awaitHead, if_neg (by simp [missing]), if_neg within]

theorem awaitHead_nil (missing : indexOf buffer (crlf ++ crlf) = none) :
    ∃ failure, awaitHead limits ended [] buffer = .error failure := by
  rw [awaitHead, if_neg (by simp [missing])]
  split
  · exact ⟨_, rfl⟩
  · exact ⟨_, rfl⟩

/-- No head comes: the end of the connection or the bound is met in any case. -/
theorem awaitHead_of_missing
    (missing : indexOf (buffer ++ reads.flatten) (crlf ++ crlf) = none) :
    awaitHead limits ended reads buffer = awaitHead limits ended [] (buffer ++ reads.flatten) := by
  induction reads generalizing buffer with
  | nil => rw [List.flatten_nil, List.append_nil]
  | cons next reads ih =>
    have missing_now : indexOf buffer (crlf ++ crlf) = none := by
      cases found : indexOf buffer (crlf ++ crlf) with
      | none => rfl
      | some n =>
        rw [indexOf_append found] at missing
        cases missing
    by_cases beyond : limits.headBytes < buffer.length
    · have still_over : limits.headBytes < (buffer ++ (next :: reads).flatten).length := by
        rw [List.length_append]
        omega
      rw [awaitHead_of_over missing_now beyond, awaitHead_of_over missing still_over]
    · rw [List.flatten_cons, ← List.append_assoc] at missing ⊢
      rw [awaitHead_cons missing_now beyond]
      exact ih missing

/-- A head that comes is there at some point, unless the bound is met before. -/
theorem awaitHead_of_indexOf {n : ℕ}
    (found : indexOf (buffer ++ reads.flatten) (crlf ++ crlf) = some n) :
    (∃ there, awaitHead limits ended reads buffer = .ok there ∧ there.ended = ended ∧
        there.stream = buffer ++ reads.flatten ∧ indexOf there.buffer (crlf ++ crlf) = some n) ∨
      awaitHead limits ended reads buffer = .error (.status 431) ∧ limits.headBytes < n + 3 := by
  induction reads generalizing buffer with
  | nil =>
    rw [List.flatten_nil, List.append_nil] at found
    rw [awaitHead_of_found found]
    exact .inl ⟨_, rfl, rfl, rfl, found⟩
  | cons next reads ih =>
    cases now : indexOf buffer (crlf ++ crlf) with
    | some m =>
      rw [indexOf_append now] at found
      obtain rfl := Option.some.inj found
      rw [awaitHead_of_found now]
      exact .inl ⟨_, rfl, rfl, rfl, now⟩
    | none =>
      by_cases beyond : limits.headBytes < buffer.length
      · have reaches := length_lt_of_indexOf now found
        simp only [crlf, List.cons_append, List.nil_append, List.length_cons, List.length_nil]
          at reaches
        rw [awaitHead_of_over now beyond]
        exact .inr ⟨rfl, by omega⟩
      · rw [List.flatten_cons, ← List.append_assoc] at found ⊢
        rw [awaitHead_cons now beyond]
        exact ih found

/-- A head that is not within three bytes of the bound. -/
def SteadyHead (limits : Limits) (stream : Text) : Prop :=
  ∀ n, indexOf stream (crlf ++ crlf) = some n → n + 3 ≤ limits.headBytes ∨ limits.headBytes < n

/-- What is read of the text in front of the empty line. -/
def parseHead (limits : Limits) (head : Text) : Except ReadFailure (Text × List Header) := do
  if head.length > limits.headBytes then .error (.status 431)
  let (first, rest) := (readUntil head crlf).getD (head, [])
  let headers ← readHeaders rest
  return (first, headers)

theorem readHead_of_ok {incoming there : Incoming} {n : ℕ}
    (awaits : awaitHead limits incoming.ended incoming.reads incoming.buffer = .ok there)
    (found : indexOf there.buffer (crlf ++ crlf) = some n) :
    readHead limits incoming = (parseHead limits (there.buffer.take n)).map
      fun head => (head, { there with buffer := there.buffer.drop (n + 4) }) := by
  rw [readHead, awaits]
  simp only [bind, Except.bind, readUntil_of_found found, Option.getD_some, parseHead]
  split
  · rfl
  · cases readHeaders ((readUntil (there.buffer.take n) crlf).getD (there.buffer.take n, [])).2 <;> rfl

theorem readHead_of_error {incoming : Incoming} {failure : ReadFailure}
    (awaits : awaitHead limits incoming.ended incoming.reads incoming.buffer = .error failure) :
    readHead limits incoming = .error failure := by
  rw [readHead, awaits]
  rfl

theorem parseHead_of_over {head : Text} (beyond : limits.headBytes < head.length) :
    parseHead limits head = .error (.status 431) := by
  rw [parseHead, if_pos beyond]
  rfl

theorem readHead_whole {incoming : Incoming} (steady : SteadyHead limits incoming.stream) :
    asWhole (readHead limits incoming) = readHead limits incoming.whole := by
  cases found : indexOf incoming.stream (crlf ++ crlf) with
  | none =>
    have same : awaitHead limits incoming.ended incoming.reads incoming.buffer =
        awaitHead limits incoming.whole.ended incoming.whole.reads incoming.whole.buffer :=
      awaitHead_of_missing found
    obtain ⟨failure, fails⟩ :=
      @awaitHead_nil limits incoming.whole.ended _ found
    rw [readHead_of_error (same.trans fails), readHead_of_error fails]
    rfl
  | some n =>
    have fits := (indexOf_fits found).2
    have whole := @readHead_of_ok limits incoming.whole _ _
      (awaitHead_of_found found) found
    obtain ⟨there, awaits, ended, stream, now⟩ | ⟨fails, near⟩ :=
      @awaitHead_of_indexOf limits incoming.ended _ _ _ found
    · have fits_now : n + 4 ≤ there.buffer.length := (indexOf_fits now).2
      have split : incoming.stream = there.buffer ++ there.reads.flatten := stream.symm
      have same_head : incoming.whole.buffer.take n = there.buffer.take n := by
        rw [Incoming.whole, split, List.take_append_of_le_length (by omega)]
      have same_rest : incoming.whole.buffer.drop (n + 4) =
          there.buffer.drop (n + 4) ++ there.reads.flatten := by
        rw [Incoming.whole, split, List.drop_append_of_le_length fits_now]
      rw [readHead_of_ok awaits now, whole, same_head, same_rest]
      cases parseHead limits (there.buffer.take n) with
      | error failure => rfl
      | ok head =>
        simp only [asWhole, Except.map, Incoming.whole, Incoming.stream, ended]
    · have beyond : limits.headBytes < n := by
        obtain within | beyond := steady n found
        · omega
        · exact beyond
      have length : (incoming.whole.buffer.take n).length = n := by
        rw [List.length_take]
        change min n incoming.stream.length = n
        omega
      rw [readHead_of_error fails, whole, parseHead_of_over (by rw [length]; exact beyond)]
      rfl

end Heads

section Requests

variable {limits : Limits} {incoming : Incoming}

theorem readBody_whole {headers : List Header}
    (steady : ∀ encoding, findHeader headers (asciiBytes "Transfer-Encoding") = some encoding →
      equalFold encoding (asciiBytes "chunked") = true → SteadyChunks limits [] incoming.whole) :
    asWhole (readBody limits headers false incoming) =
      readBody limits headers false incoming.whole := by
  rw [readBody, readBody]
  cases encoded : findHeader headers (asciiBytes "Transfer-Encoding") with
  | some encoding =>
    simp only []
    split
    · rfl
    · next chunked => exact readChunks_whole (steady encoding encoded (by simpa using chunked))
  | none =>
    cases findHeader headers (asciiBytes "Content-Length") with
    | none => rfl
    | some text =>
      simp only []
      split
      · rfl
      · next not_negative =>
        split
        · rfl
        · next within =>
          have below := limits.bodyBytes_lt
          rw [int32_of_fits (by omega) (by omega)]
          have fills := fill_whole (parseCount text) incoming.ended incoming.reads incoming.buffer
          change _ = fill _ incoming.whole.ended incoming.whole.reads incoming.whole.buffer at fills
          rw [← fills]
          cases there : fill (parseCount text) incoming.ended incoming.reads incoming.buffer with
          | none => rfl
          | some there_now =>
            obtain ⟨-, -, enough⟩ := fill_eq_some there
            have fits : (parseCount text).toNat ≤ there_now.buffer.length := by omega
            simp only [asWhole, Except.map, Option.map_some, Incoming.whole, Incoming.stream,
              List.take_append_of_le_length fits, List.drop_append_of_le_length fits]

/-- The next request is read in the same way whatever the pieces it comes in. -/
structure SteadyRequest (limits : Limits) (incoming : Incoming) : Prop where
  head : SteadyHead limits incoming.stream
  chunks : ∀ first headers behind request encoding,
    readHead limits incoming = .ok ((first, headers), behind) →
    readRequestLine first = .ok request →
    findHeader headers (asciiBytes "Transfer-Encoding") = some encoding →
    equalFold encoding (asciiBytes "chunked") = true → SteadyChunks limits [] behind

theorem readRequest_whole (steady : SteadyRequest limits incoming.whole) :
    asWhole (readRequest limits incoming) = readRequest limits incoming.whole := by
  have head : asWhole (readHead limits incoming) = readHead limits incoming.whole :=
    readHead_whole (incoming.stream_whole ▸ steady.head)
  rw [readRequest, readRequest]
  cases reads : readHead limits incoming with
  | error failure =>
    rw [reads] at head
    rw [← head]
    rfl
  | ok read =>
    obtain ⟨⟨first, headers⟩, behind⟩ := read
    rw [reads] at head
    rw [← head]
    simp only [asWhole, Except.map, bind, Except.bind]
    cases line : readRequestLine first with
    | error failure => rfl
    | ok request =>
      have body : asWhole (readBody limits headers false behind) =
          readBody limits headers false behind.whole :=
        readBody_whole fun encoding encoded chunked =>
          steady.chunks _ _ _ request encoding head.symm line encoded chunked
      simp only [asWhole, Except.map] at body
      rw [← body]
      cases readBody limits headers false behind <;> rfl

/-- The requests that are read one after the other, up to the first one that is refused. -/
def readRequests (limits : Limits) : ℕ → Incoming → List (Except ReadFailure Request)
  | 0, _ => []
  | count + 1, incoming =>
    match readRequest limits incoming with
    | .ok (request, behind) => .ok request :: readRequests limits count behind
    | .error failure => [.error failure]

/-- A request is read, and the next one is waited for. -/
def RequestTurn (limits : Limits) (incoming behind : Incoming) : Prop :=
  ∃ request, readRequest limits incoming = .ok (request, behind)

/-- So are all requests of the connection. -/
def SteadyRequests (limits : Limits) (incoming : Incoming) : Prop :=
  ∀ later, ReflTransGen (RequestTurn limits) incoming later → SteadyRequest limits later

theorem readRequests_whole (steady : SteadyRequests limits incoming.whole) (count : ℕ) :
    readRequests limits count incoming = readRequests limits count incoming.whole := by
  induction count generalizing incoming with
  | zero => rfl
  | succ count ih =>
    have request := readRequest_whole (steady _ .refl)
    rw [readRequests, readRequests]
    cases reads : readRequest limits incoming with
    | error failure =>
      rw [reads] at request
      rw [← request]
      rfl
    | ok read =>
      obtain ⟨read, behind⟩ := read
      rw [reads] at request
      rw [← request]
      simp only [asWhole, Except.map]
      congr 1
      apply ih
      intro later turns
      exact steady later (.head ⟨read, request.symm⟩ turns)

/-- The same bytes with the same end give the same requests and errors, in whatever pieces they come. -/
theorem readRequests_eq_of_same_stream {first second : Incoming}
    (same_stream : first.stream = second.stream) (same_end : first.ended = second.ended)
    (steady : SteadyRequests limits first.whole) (count : ℕ) :
    readRequests limits count first = readRequests limits count second := by
  have same : first.whole = second.whole := Incoming.whole_eq same_stream same_end
  rw [readRequests_whole steady, same]
  rw [same] at steady
  rw [readRequests_whole steady]

/-- A request without headers and without a body, in one piece. -/
def plainRequest : Incoming := { buffer := asciiBytes "GET / HTTP/1.1\r\n\r\n" }

/-- The same, with the last byte in a piece of its own. -/
def splitRequest : Incoming :=
  { buffer := asciiBytes "GET / HTTP/1.1\r\n\r", reads := [asciiBytes "\n"] }

theorem readRequest_plainRequest :
    readRequest {} plainRequest =
      .ok ({ method := asciiBytes "GET", target := asciiBytes "/", path := asciiBytes "/",
             version := asciiBytes "HTTP/1.1" }, { buffer := [] }) := by
  decide +kernel

theorem steady_plainRequest : SteadyRequests {} plainRequest := by
  intro later turns
  obtain rfl | ⟨next, ⟨request, reads⟩, turns⟩ := turns.cases_head
  · refine ⟨?_, ?_⟩
    · intro n found
      have here : indexOf plainRequest.stream (crlf ++ crlf) = some 14 := by decide
      obtain rfl := Option.some.inj (here.symm.trans found)
      decide
    · intro first headers behind request encoding reads _ encoded
      have here : readHead {} plainRequest =
          .ok ((asciiBytes "GET / HTTP/1.1", []), { buffer := [] }) := by decide +kernel
      obtain ⟨same, -⟩ := Prod.mk.inj (Except.ok.inj (here.symm.trans reads))
      obtain ⟨-, rfl⟩ := Prod.mk.inj same
      cases encoded
  · obtain ⟨-, rfl⟩ := Prod.mk.inj (Except.ok.inj (readRequest_plainRequest.symm.trans reads))
    have ends : readRequest {} { buffer := [] } = .error (.status gone) := by decide
    obtain rfl | ⟨next, ⟨request, reads⟩, -⟩ := turns.cases_head
    · refine ⟨?_, ?_⟩
      · intro n found
        cases found
      · intro first headers behind request encoding reads
        cases reads
    · rw [ends] at reads
      cases reads

theorem whole_splitRequest : splitRequest.whole = plainRequest := by decide

theorem readRequests_splitRequest :
    readRequests {} 2 splitRequest = readRequests {} 2 plainRequest := by
  apply readRequests_eq_of_same_stream (by decide) rfl _ 2
  rw [whole_splitRequest]
  exact steady_plainRequest

/-- A head of 14 bytes where 16 are allowed is refused when its last byte comes late. -/
theorem readRequests_depends_on_pieces :
    splitRequest.stream = plainRequest.stream ∧ splitRequest.ended = plainRequest.ended ∧
      readRequests { headBytes := 16 } 1 splitRequest = [.error (.status 431)] ∧
      readRequests { headBytes := 16 } 1 plainRequest ≠ [.error (.status 431)] := by
  refine ⟨by decide +kernel, rfl, by decide +kernel, by decide +kernel⟩

end Requests

end Saad.Http
