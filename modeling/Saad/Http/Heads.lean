import Saad.Http.Chunked
import Saad.Std.Decimal

/-! # Heads as they are written and read

The server and the client write a head in the same way: the first line, a line for each header, and an
empty line. It is read as it was written when no name or value ends its line early.
-/

namespace Saad.Http

open General

/-- The line of a header. -/
def headerLine (h : Header) : Text := h.name ++ asciiBytes ": " ++ h.value

def headText (first : Text) (headers : List Header) : Text :=
  first ++ crlf ++ linesText (headers.map headerLine) ++ crlf

/-- The header without the blanks around its value. -/
def Header.trimmed (h : Header) : Header := ⟨h.name, trimSpaces h.value⟩

/-- A header whose line is read as one header with the name. -/
structure PlainHeader (h : Header) : Prop where
  nonempty : h.name ≠ []
  colon : byteOf ':' ∉ h.name
  space : byteOf ' ' ∉ h.name
  name : ¬crlf <:+: h.name
  value : ¬crlf <:+: h.value

section Lines

variable {line first rest : Text} {lines : List Text} {h : Header}

theorem isLine_iff : IsLine line ↔ ¬crlf <:+: line := by
  constructor
  · intro one occurs
    obtain ⟨n, here⟩ := exists_firstAt occurs
    have fits := here.length_le (by decide)
    have same := (here.append (by decide) crlf).unique one
    simp only [crlf, List.length_cons, List.length_nil] at fits
    omega
  · intro absent
    have here := @firstAt_pair _ _ (13 : BitVec 8) 10 (by decide) absent []
    exact here

theorem headerLine_eq (h : Header) : headerLine h = h.name ++ byteOf ':' :: byteOf ' ' :: h.value := by
  rw [headerLine, List.append_assoc]
  rfl

theorem isLine_headerLine (plain : PlainHeader h) : IsLine (headerLine h) := by
  rw [isLine_iff, headerLine_eq, infix_append_cons_iff (by decide)]
  rintro (occurs | occurs)
  · exact plain.name occurs
  · have behind := (@infix_append_cons_iff _ _ _ [] _ (by decide)).mp occurs
    obtain empty | occurs := behind
    · cases List.infix_nil.mp empty
    · exact plain.value occurs

theorem headerLine_ne_nil (h : Header) : headerLine h ≠ [] := by
  rw [headerLine_eq]
  simp

theorem trimSpaces_space (value : Text) : trimSpaces (byteOf ' ' :: value) = trimSpaces value := rfl

/-- The lines with a line break between them. -/
def joinLines : List Text → Text
  | [] => []
  | [line] => line
  | line :: next :: lines => line ++ crlf ++ joinLines (next :: lines)

theorem linesText_eq (nonempty : lines ≠ []) : linesText lines = joinLines lines ++ crlf := by
  induction lines with
  | nil => exact absurd rfl nonempty
  | cons line lines ih =>
    cases lines with
    | nil => simp [linesText, joinLines]
    | cons next lines =>
      rw [joinLines, List.append_assoc, ← ih (by simp)]
      simp [linesText]

/-- An empty line in front of which there is only one line. -/
theorem firstAt_emptyLine (one : IsLine line) (rest : Text) :
    FirstAt (crlf ++ crlf) (line ++ (crlf ++ crlf) ++ rest) line.length := by
  refine ⟨?_, ?_⟩
  · rw [List.append_assoc, List.drop_left]
    exact List.prefix_append _ _
  · intro m lt stands
    have ends : crlf <+: (line ++ crlf ++ (crlf ++ rest)).drop m := by
      rw [show line ++ crlf ++ (crlf ++ rest) = line ++ (crlf ++ crlf) ++ rest by simp]
      exact (List.prefix_append crlf crlf).trans stands
    exact (one.append (by decide) (crlf ++ rest)).first m lt ends

/-- The empty line is behind the next line when something is in front of it. -/
theorem firstAt_emptyLine_behind {n : ℕ} (one : IsLine line)
    (no_empty : ¬crlf <+: rest) (behind : FirstAt (crlf ++ crlf) rest n) :
    FirstAt (crlf ++ crlf) (line ++ crlf ++ rest) (line.length + 2 + n) := by
  have length : (line ++ crlf).length = line.length + 2 := by simp [crlf]
  have drops : ∀ m, (line ++ crlf ++ rest).drop (line.length + 2 + m) = rest.drop m := by
    intro m
    rw [← List.drop_drop, ← length, List.drop_left]
  refine ⟨drops n ▸ behind.stands, ?_⟩
  intro m lt stands
  obtain near | rfl | rfl | far : m < line.length ∨ m = line.length ∨ m = line.length + 1 ∨
      line.length + 2 ≤ m := by omega
  · exact (one.append (by decide) rest).first m near ((List.prefix_append crlf crlf).trans stands)
  · rw [List.append_assoc, List.drop_left, List.prefix_append_right_inj] at stands
    exact no_empty stands
  · rw [List.append_assoc, ← List.drop_drop, List.drop_left] at stands
    obtain ⟨after, same⟩ := stands
    cases same
  · obtain ⟨k, rfl⟩ := Nat.exists_eq_add_of_le far
    rw [drops k] at stands
    exact behind.first k (by omega) stands

theorem not_crlf_prefix (one : IsLine line) (nonempty : line ≠ []) (rest : Text) :
    ¬crlf <+: line ++ crlf ++ rest := by
  intro stands
  have here : FirstAt crlf (line ++ crlf ++ rest) 0 := firstAt_zero stands
  have same := here.unique (one.append (by decide) rest)
  exact nonempty (List.length_eq_zero_iff.mp same.symm)

/-- The end of a head is where the lines end. -/
theorem firstAt_joinLines (one : IsLine first) (plain : ∀ line ∈ lines, IsLine line ∧ line ≠ [])
    (rest : Text) :
    FirstAt (crlf ++ crlf) (joinLines (first :: lines) ++ (crlf ++ crlf) ++ rest)
      (joinLines (first :: lines)).length := by
  induction lines generalizing first with
  | nil => exact firstAt_emptyLine one rest
  | cons next lines ih =>
    obtain ⟨one_next, nonempty⟩ := plain next List.mem_cons_self
    have behind := ih one_next fun line member => plain line (List.mem_cons_of_mem _ member)
    have no_empty : ¬crlf <+: joinLines (next :: lines) ++ (crlf ++ crlf) ++ rest := by
      cases lines with
      | nil =>
        rw [joinLines, show next ++ (crlf ++ crlf) ++ rest = next ++ crlf ++ (crlf ++ rest) by simp]
        exact not_crlf_prefix one_next nonempty _
      | cons after lines =>
        rw [joinLines, List.append_assoc, List.append_assoc]
        exact not_crlf_prefix one_next nonempty _
    have here := firstAt_emptyLine_behind one no_empty behind
    have length : (joinLines (first :: next :: lines)).length =
        first.length + 2 + (joinLines (next :: lines)).length := by
      rw [joinLines, List.length_append, List.length_append]
      rfl
    rw [length, joinLines]
    simpa only [List.append_assoc] using here

end Lines

section Headers

variable {headers : List Header} {h : Header}

theorem readHeader_headerLine (plain : PlainHeader h) : readHeader (headerLine h) = .ok h.trimmed := by
  have colon : indexOf (headerLine h) [byteOf ':'] = some h.name.length := by
    rw [headerLine_eq]
    exact indexOf_char plain.colon
  have no_space : indexOf h.name [byteOf ' '] = none := indexOf_char_eq_none_iff.mpr plain.space
  have name : (headerLine h).take h.name.length = h.name := by
    rw [headerLine_eq, List.take_left]
  have value : (headerLine h).drop (h.name.length + 1) = byteOf ' ' :: h.value := by
    rw [headerLine_eq, ← List.drop_drop, List.drop_left]
    rfl
  have positive := List.length_pos_of_ne_nil plain.nonempty
  rw [readHeader, colon]
  split
  · next none_ => cases none_
  · next zero =>
    have := Option.some.inj zero
    omega
  · next place _ same =>
    obtain rfl := Option.some.inj same
    rw [name, value, trimSpaces_space, no_space]
    rfl

theorem readHeaders_nil : readHeaders [] = .ok [] := by
  rw [readHeaders, if_pos rfl]

theorem readHeaders_last {rest : Text} (nonempty : rest ≠ []) (last : indexOf rest crlf = none) :
    readHeaders rest = (readHeader rest).map ([·]) := by
  rw [readHeaders, if_neg nonempty]
  split
  · next found =>
    rw [last] at found
    cases found
  · cases readHeader rest <;> rfl

theorem readHeaders_cons {rest : Text} {n : ℕ} (found : indexOf rest crlf = some n) :
    readHeaders rest = (readHeader (rest.take n)).bind fun header =>
      (readHeaders (rest.drop (n + 2))).map (header :: ·) := by
  have nonempty : rest ≠ [] := by
    rintro rfl
    cases found
  rw [readHeaders, if_neg nonempty]
  split
  · next last same =>
    obtain rfl := Option.some.inj (found.symm.trans same)
    cases readHeader (rest.take n) with
    | error failure => rfl
    | ok header => cases readHeaders (rest.drop (n + 2)) <;> rfl
  · next missing =>
    rw [found] at missing
    cases missing

theorem readHeaders_joinLines (plain : ∀ h ∈ headers, PlainHeader h) :
    readHeaders (joinLines (headers.map headerLine)) = .ok (headers.map Header.trimmed) := by
  induction headers with
  | nil => exact readHeaders_nil
  | cons h headers ih =>
    have now := plain h List.mem_cons_self
    have line := isLine_headerLine now
    have behind := ih fun other member => plain other (List.mem_cons_of_mem _ member)
    cases headers with
    | nil =>
      rw [List.map_singleton, joinLines, readHeaders_last (headerLine_ne_nil h)
        ((indexOf_eq_none_iff (by decide)).mpr (isLine_iff.mp line)), readHeader_headerLine now]
      rfl
    | cons next headers =>
      have found : indexOf (joinLines ((h :: next :: headers).map headerLine)) crlf =
          some (headerLine h).length :=
        (indexOf_eq_some_iff (by decide)).mpr (line.append (by decide) _)
      have head : (joinLines ((h :: next :: headers).map headerLine)).take (headerLine h).length =
          headerLine h := by
        rw [List.map_cons, List.map_cons, joinLines, List.append_assoc, List.take_left]
      have rest : (joinLines ((h :: next :: headers).map headerLine)).drop
          ((headerLine h).length + 2) = joinLines ((next :: headers).map headerLine) := by
        rw [List.map_cons, List.map_cons, joinLines,
          show (headerLine h).length + 2 = (headerLine h ++ crlf).length by simp [crlf], List.drop_left]
      rw [readHeaders_cons found, head, rest, readHeader_headerLine now, behind]
      rfl

/-- What the reader takes for a header has the form of one. -/
theorem readHeader_ok {line : Text} (one : ¬crlf <:+: line) (reads : readHeader line = .ok h) :
    PlainHeader h := by
  rw [readHeader] at reads
  split at reads
  · cases reads
  · cases reads
  · next colon positive found =>
    split at reads
    · cases reads
    · next no_space =>
      obtain rfl := Except.ok.inj reads
      have here := (indexOf_eq_some_iff (by simp)).mp found
      have fits := here.length_le (by simp)
      have nonempty : line.take colon ≠ [] := by
        intro empty
        have zero := congrArg List.length empty
        rw [List.length_take, List.length_nil] at zero
        have : colon ≠ 0 := positive
        simp only [List.length_singleton] at fits
        omega
      refine ⟨nonempty, ?_, ?_, ?_, ?_⟩
      · intro member
        obtain ⟨m, here_first⟩ := exists_firstAt (singleton_infix_iff.mpr member)
        have fits' := here_first.length_le (by simp)
        have again := here_first.append (by simp) (line.drop colon)
        rw [List.take_append_drop] at again
        have same := again.unique here
        rw [List.length_take] at fits'
        simp only [List.length_singleton] at fits'
        omega
      · exact indexOf_char_eq_none_iff.mp (by simpa using no_space)
      · exact fun occurs => one (occurs.trans (List.take_prefix _ _).isInfix)
      · intro occurs
        apply one
        apply occurs.trans
        apply List.IsInfix.trans _ (List.drop_suffix (colon + 1) line).isInfix
        exact (List.rdropWhile_prefix _ _).isInfix.trans (List.dropWhile_suffix _).isInfix

theorem readHeaders_ok {rest : Text} (reads : readHeaders rest = .ok headers) :
    ∀ h ∈ headers, PlainHeader h := by
  generalize length : rest.length = bound
  induction bound using Nat.strong_induction_on generalizing rest headers with
  | _ bound ih =>
    by_cases empty : rest = []
    · subst empty
      obtain rfl := Except.ok.inj (readHeaders_nil.symm.trans reads)
      simp
    cases found : indexOf rest crlf with
    | none =>
      have one : ¬crlf <:+: rest := (indexOf_eq_none_iff (by decide)).mp found
      rw [readHeaders_last empty found] at reads
      obtain ⟨h, header, rfl⟩ := map_eq_ok_iff.mp reads
      simpa using readHeader_ok one header
    | some n =>
      have here := (indexOf_eq_some_iff (by decide)).mp found
      have fits := here.length_le (by decide)
      simp only [crlf, List.length_cons, List.length_nil] at fits
      have one : ¬crlf <:+: rest.take n := by
        intro occurs
        obtain ⟨m, first⟩ := exists_firstAt occurs
        have fits' := first.length_le (by decide)
        have again := first.append (by decide) (rest.drop n)
        rw [List.take_append_drop] at again
        have same := again.unique here
        rw [List.length_take] at fits'
        simp only [crlf, List.length_cons, List.length_nil] at fits'
        omega
      rw [readHeaders_cons found] at reads
      obtain ⟨h, header, later⟩ := bind_eq_ok_iff.mp reads
      obtain ⟨others, more, rfl⟩ := map_eq_ok_iff.mp later
      intro other member
      obtain rfl | member := List.mem_cons.mp member
      · exact readHeader_ok one header
      · apply ih _ _ more rfl other member
        rw [← length, List.length_drop]
        omega

end Headers

section Heads

variable {limits : Limits} {first rest : Text} {headers : List Header} {incoming : Incoming}

/-- What is in front of the empty line. -/
def headLines (first : Text) (headers : List Header) : Text :=
  joinLines (first :: headers.map headerLine)

theorem headText_eq (first : Text) (headers : List Header) :
    headText first headers = headLines first headers ++ (crlf ++ crlf) := by
  rw [headText, headLines, ← List.append_assoc, ← linesText_eq (by simp)]
  simp [linesText]

theorem firstAt_headLines (one : IsLine first) (plain : ∀ h ∈ headers, PlainHeader h) (rest : Text) :
    FirstAt (crlf ++ crlf) (headText first headers ++ rest) (headLines first headers).length := by
  rw [headText_eq]
  apply firstAt_joinLines one
  intro line member
  obtain ⟨h, among, rfl⟩ := List.mem_map.mp member
  exact ⟨isLine_headerLine (plain h among), headerLine_ne_nil h⟩

theorem parseHead_headLines (one : IsLine first) (plain : ∀ h ∈ headers, PlainHeader h)
    (within : (headLines first headers).length ≤ limits.headBytes) :
    parseHead limits (headLines first headers) = .ok (first, headers.map Header.trimmed) := by
  have not_over : ¬((headLines first headers).length : ℤ) > limits.headBytes := by omega
  have splits : (readUntil (headLines first headers) crlf).getD (headLines first headers, []) =
      (first, joinLines (headers.map headerLine)) := by
    rw [headLines]
    cases headers with
    | nil =>
      change (readUntil first crlf).getD (first, []) = (first, [])
      rw [readUntil, (indexOf_eq_none_iff (by decide)).mpr (isLine_iff.mp one)]
      rfl
    | cons h headers =>
      rw [List.map_cons, joinLines,
        (readUntil_eq_some_iff (by decide)).mpr ⟨rfl, one.append (by decide) _⟩]
      rfl
  rw [parseHead, if_neg not_over]
  simp only [bind, Except.bind, splits, readHeaders_joinLines plain]
  rfl

/-- A head that was written is read in any pieces, and then what comes behind it. -/
theorem readHead_headText (one : IsLine first) (plain : ∀ h ∈ headers, PlainHeader h)
    (within : (headLines first headers).length + 3 ≤ limits.headBytes)
    (stream_eq : incoming.stream = headText first headers ++ rest) :
    ∃ after, readHead limits incoming = .ok ((first, headers.map Header.trimmed), after) ∧
      after.stream = rest ∧ after.ended = incoming.ended := by
  have here := firstAt_headLines one plain rest
  have found : indexOf incoming.whole.buffer (crlf ++ crlf) =
      some (headLines first headers).length :=
    (indexOf_eq_some_iff (by decide)).mpr (by rw [Incoming.whole, stream_eq]; exact here)
  have head : incoming.whole.buffer.take (headLines first headers).length = headLines first headers := by
    rw [Incoming.whole, stream_eq, headText_eq, List.append_assoc, List.take_left]
  have behind : incoming.whole.buffer.drop ((headLines first headers).length + 4) = rest := by
    have length : (headLines first headers).length + 4 = (headText first headers).length := by
      rw [headText_eq, List.length_append]
      rfl
    rw [Incoming.whole, stream_eq, length, List.drop_left]
  have whole := @readHead_of_ok limits incoming.whole _ _
    (awaitHead_of_found found) found
  rw [head, behind, parseHead_headLines one plain (by omega)] at whole
  have steady : SteadyHead limits incoming.stream := by
    intro n there
    obtain rfl := Option.some.inj (found.symm.trans there)
    exact .inl within
  rw [← readHead_whole steady] at whole
  obtain ⟨⟨head, after⟩, reads, is_whole⟩ := map_eq_ok_iff.mp whole
  obtain ⟨rfl, same⟩ := Prod.mk.inj is_whole
  refine ⟨after, reads, ?_, ?_⟩
  · rw [← after.stream_whole, same]
    exact List.append_nil _
  · change after.whole.ended = _
    rw [same]
    rfl

/-- A head that is longer is refused when the end of it comes late. -/
theorem readHead_late (one : IsLine first) (plain : ∀ h ∈ headers, PlainHeader h)
    (beyond : limits.headBytes < (headLines first headers).length + 3) (rest : Text)
    (ended : ReadError) :
    readHead limits
      { buffer := (headText first headers ++ rest).take ((headLines first headers).length + 3)
        reads := [(headText first headers ++ rest).drop ((headLines first headers).length + 3)]
        ended } = .error (.status 431) := by
  have here := firstAt_headLines one plain rest
  have fits := here.length_le (by decide)
  simp only [crlf, List.length_append, List.length_cons, List.length_nil] at fits
  apply readHead_of_error
  apply awaitHead_of_over
  · rw [indexOf_eq_none_iff (by decide)]
    intro occurs
    obtain ⟨n, there⟩ := exists_firstAt occurs
    have length := there.length_le (by decide)
    have again := there.append (by decide)
      ((headText first headers ++ rest).drop ((headLines first headers).length + 3))
    rw [List.take_append_drop] at again
    obtain rfl := again.unique here
    rw [List.length_take] at length
    simp only [crlf, List.length_append, List.length_cons, List.length_nil] at length
    omega
  · rw [List.length_take, List.length_append, Nat.min_eq_left (by omega)]
    push_cast
    exact beyond

/-- Every header that is read of a head has the form of one. -/
theorem readHead_plain {after : Incoming}
    (reads : readHead limits incoming = .ok ((first, headers), after)) :
    ∀ h ∈ headers, PlainHeader h := by
  rw [readHead] at reads
  obtain ⟨there, awaits, within⟩ := bind_eq_ok_iff.mp reads
  dsimp only at within
  split at within
  · cases within
  · obtain ⟨others, parsed, last⟩ := bind_eq_ok_iff.mp within
    cases last
    exact readHeaders_ok parsed

end Heads

section Bodies

variable {limits : Limits} {headers : List Header} {incoming : Incoming} {body rest : Text}

theorem foldl_digitValue {digits : Text} (all : ∀ c ∈ digits, isDigit c = true) (start : ℕ) :
    digits.foldl (fun (n : ℤ) ch => n * 10 + digitValue ch) start =
      (digits.foldl (fun n c => n * 10 + digitNumber c) start : ℕ) := by
  induction digits generalizing start with
  | nil => rfl
  | cons c digits ih =>
    obtain ⟨digit, others⟩ := List.forall_mem_cons.mp all
    rw [List.foldl_cons, List.foldl_cons, ← ih others, digitValue, if_pos digit]
    push_cast
    rfl

theorem parseCount_decimalText {n : ℕ} (lt : n < 10 ^ 18) : parseCount (decimalText n) = n := by
  have digits : ∀ c ∈ decimalText n, isDigit c = true := fun _ member => isDigit_of_mem_decimalText member
  have short := @length_decimalText_le _ 18 (by decide) lt
  have nonempty := List.length_pos_of_ne_nil (decimalText_ne_nil n)
  have readable : ¬((decimalText n).length = 0 ∨ 18 < (decimalText n).length ∨
      ¬(decimalText n).all isDigit = true) := by
    rintro (empty | long | other)
    · omega
    · omega
    · exact other (List.all_eq_true.mpr digits)
  rw [parseCount, if_neg readable]
  exact (foldl_digitValue digits 0).trans (congrArg _ (digitsValue_decimalText n))

/-- A body whose length is given is read in any pieces. -/
theorem readBody_of_length {untilClose : Bool} {text : Text}
    (not_encoded : findHeader headers (asciiBytes "Transfer-Encoding") = none)
    (given : findHeader headers (asciiBytes "Content-Length") = some text)
    (count : parseCount text = body.length) (within : body.length ≤ limits.bodyBytes)
    (stream_eq : incoming.stream = body ++ rest) :
    ∃ after, readBody limits headers untilClose incoming = .ok (body, after) ∧
      after.stream = rest ∧ after.ended = incoming.ended := by
  have below := limits.bodyBytes_lt
  have fills := fill_whole body.length incoming.ended incoming.reads incoming.buffer
  have enough : (body.length : ℤ) ≤ (incoming.buffer ++ incoming.reads.flatten).length := by
    change _ ≤ (incoming.stream.length : ℤ)
    rw [stream_eq, List.length_append]
    omega
  rw [fill_of_enough enough] at fills
  cases there : fill body.length incoming.ended incoming.reads incoming.buffer with
  | none =>
    rw [there] at fills
    cases fills
  | some now =>
    obtain ⟨stream, ended, length⟩ := fill_eq_some there
    have split : now.buffer ++ now.reads.flatten = body ++ rest := stream.trans stream_eq
    have front : now.buffer.take body.length = body := by
      rw [← @List.take_append_of_le_length _ _ now.reads.flatten _ (by omega), split, List.take_left]
    have behind : now.buffer.drop body.length ++ now.reads.flatten = rest := by
      rw [← List.drop_append_of_le_length (by omega), split, List.drop_left]
    refine ⟨{ now with buffer := now.buffer.drop body.length }, ?_, behind, ended⟩
    rw [readBody, not_encoded, given]
    simp only [count]
    rw [if_neg (by omega), if_neg (by omega), int32_of_fits (by omega) (by omega), there]
    simp only [Int.toNat_natCast, front]

end Bodies

end Saad.Http
