import Saad.Http.Fragmentation

/-! # Chunked bodies

The grammar of a body in chunks (RFC 9112, section 7.1) and what the reader makes of it. The reader
looks less closely than the grammar, and its sizes are numbers of 32 bits.
-/

namespace Saad.Http

open General Relation

section Grammar

/-- `tchar` -/
def isTokenChar (c : BitVec 8) : Bool :=
  isLetter c || isDigit c || (asciiBytes "!#$%&'*+-.^_|~").contains c || c == 0x60

def Token (text : Text) : Prop := text ≠ [] ∧ ∀ c ∈ text, isTokenChar c = true

/-- Blanks that are allowed where they are not needed. -/
def Blanks (text : Text) : Prop := ∀ c ∈ text, isBlank c = true

/-- Blanks, visible characters and the bytes above ASCII. -/
def isFieldChar (c : BitVec 8) : Bool := isBlank c || (0x21 ≤ c && c != 0x7F)

/-- What stands between the quotes: a backslash takes the next character as it is. -/
inductive QuotedText : Text → Prop
  | nil : QuotedText []
  | plain (c : BitVec 8) (rest : Text) : isFieldChar c = true → c ≠ byteOf '"' → c ≠ byteOf '\\' →
      QuotedText rest → QuotedText (c :: rest)
  | escaped (c : BitVec 8) (rest : Text) : isFieldChar c = true → QuotedText rest →
      QuotedText (byteOf '\\' :: c :: rest)

inductive ExtensionValue : Text → Prop
  | token (text : Text) : Token text → ExtensionValue text
  | quoted (text : Text) : QuotedText text →
      ExtensionValue (byteOf '"' :: text ++ [byteOf '"'])

/-- `chunk-ext` -/
inductive ChunkExtension : Text → Prop
  | nil : ChunkExtension []
  | name (before behind name rest : Text) : Blanks before → Blanks behind → Token name →
      ChunkExtension rest → ChunkExtension (before ++ byteOf ';' :: behind ++ name ++ rest)
  | value (before behind name left right value rest : Text) : Blanks before → Blanks behind →
      Token name → Blanks left → Blanks right → ExtensionValue value → ChunkExtension rest →
      ChunkExtension (before ++ byteOf ';' :: behind ++ name ++ left ++ byteOf '=' :: right ++ value ++
        rest)

/-- `field-line` -/
def FieldLine (line : Text) : Prop :=
  ∃ name value, line = name ++ byteOf ':' :: value ∧ Token name ∧ ∀ c ∈ value, isFieldChar c = true

/-- `trailer-section CRLF` -/
inductive Trailer : Text → Prop
  | last : Trailer crlf
  | field (line rest : Text) : FieldLine line → Trailer rest → Trailer (line ++ crlf ++ rest)

/-- `chunk-size` -/
def SizeDigits (digits : Text) : Prop := digits ≠ [] ∧ ∀ c ∈ digits, isHexDigit c = true

def hexValue (digits : Text) : ℕ := digits.foldl (fun n ch => n * 16 + (digitValue ch).toNat) 0

/-- The line of a chunk, with the size. -/
inductive SizeLine : Text → ℕ → Prop
  | mk (digits extension : Text) : SizeDigits digits → ChunkExtension extension →
      SizeLine (digits ++ extension) (hexValue digits)

/-- A stream that starts with a body in chunks, the body, and the rest of the stream. -/
inductive ChunkedBody : Text → Text → Text → Prop
  | last (line trailer rest : Text) : SizeLine line 0 → Trailer trailer →
      ChunkedBody (line ++ crlf ++ (trailer ++ rest)) [] rest
  | chunk (line chunk stream body rest : Text) : SizeLine line chunk.length → chunk ≠ [] →
      ChunkedBody stream body rest →
      ChunkedBody (line ++ crlf ++ (chunk ++ crlf ++ stream)) (chunk ++ body) rest

/-- A stream that starts with chunks and then a size with which the body gets over the limit. -/
inductive OverLimit (limit : ℤ) : ℕ → Text → Prop
  | here (read n : ℕ) (line rest : Text) : SizeLine line n → limit < read + n →
      OverLimit limit read (line ++ crlf ++ rest)
  | behind (read : ℕ) (line chunk stream : Text) : SizeLine line chunk.length → chunk ≠ [] →
      OverLimit limit (read + chunk.length) stream →
      OverLimit limit read (line ++ crlf ++ (chunk ++ crlf ++ stream))

end Grammar

section Lines

/-- No line break. -/
def OneLine (text : Text) : Prop := ∀ c ∈ text, c ≠ 13

instance (text : Text) : Decidable (OneLine text) :=
  inferInstanceAs (Decidable (∀ c ∈ text, c ≠ 13))

@[simp] theorem oneLine_nil : OneLine [] := by simp [OneLine]

@[simp] theorem oneLine_cons {c : BitVec 8} {text : Text} :
    OneLine (c :: text) ↔ c ≠ 13 ∧ OneLine text := by simp [OneLine]

@[simp] theorem oneLine_append {first second : Text} :
    OneLine (first ++ second) ↔ OneLine first ∧ OneLine second := by
  simp only [OneLine, List.mem_append]
  constructor
  · exact fun one => ⟨fun c member => one c (.inl member), fun c member => one c (.inr member)⟩
  · rintro ⟨one, two⟩ c (member | member)
    · exact one c member
    · exact two c member

theorem plain_chars : ∀ c : BitVec 8,
    (isTokenChar c = true → c ≠ 13) ∧ (isBlank c = true → c ≠ 13) ∧ (isFieldChar c = true → c ≠ 13) ∧
      (isHexDigit c = true → c ≠ 13 ∧ isBlank c = false ∧ c ≠ byteOf ';' ∧ 0 ≤ digitValue c) := by
  decide

theorem Token.oneLine {text : Text} (token : Token text) : OneLine text :=
  fun c member => (plain_chars c).1 (token.2 c member)

theorem Blanks.oneLine {text : Text} (blanks : Blanks text) : OneLine text :=
  fun c member => (plain_chars c).2.1 (blanks c member)

theorem SizeDigits.oneLine {text : Text} (digits : SizeDigits text) : OneLine text :=
  fun c member => ((plain_chars c).2.2.2 (digits.2 c member)).1

theorem QuotedText.oneLine {text : Text} (quoted : QuotedText text) : OneLine text := by
  induction quoted with
  | nil => exact oneLine_nil
  | plain c rest field _ _ _ ih => exact oneLine_cons.mpr ⟨(plain_chars c).2.2.1 field, ih⟩
  | escaped c rest field _ ih =>
    exact oneLine_cons.mpr ⟨by decide, oneLine_cons.mpr ⟨(plain_chars c).2.2.1 field, ih⟩⟩

theorem ExtensionValue.oneLine {text : Text} (value : ExtensionValue text) : OneLine text := by
  cases value with
  | token text token => exact token.oneLine
  | quoted text quoted =>
    rw [oneLine_append, oneLine_cons, oneLine_cons]
    exact ⟨⟨by decide, quoted.oneLine⟩, by decide, oneLine_nil⟩

theorem ChunkExtension.oneLine {text : Text} (extension : ChunkExtension text) : OneLine text := by
  induction extension with
  | nil => exact oneLine_nil
  | name before behind name rest blanks more token _ ih =>
    simp only [List.append_assoc, List.cons_append, oneLine_append, oneLine_cons]
    exact ⟨blanks.oneLine, by decide, more.oneLine, token.oneLine, ih⟩
  | value before behind name left right value rest blanks more token around next value _ ih =>
    simp only [List.append_assoc, List.cons_append, oneLine_append, oneLine_cons]
    exact ⟨blanks.oneLine, by decide, more.oneLine, token.oneLine, around.oneLine, by decide,
      next.oneLine, value.oneLine, ih⟩

theorem FieldLine.oneLine {line : Text} (field : FieldLine line) : OneLine line := by
  obtain ⟨name, value, rfl, token, plain⟩ := field
  rw [oneLine_append, oneLine_cons]
  exact ⟨token.oneLine, by decide, fun c member => (plain_chars c).2.2.1 (plain c member)⟩

/-- A text without a line break in front of one is the first line. -/
theorem firstAt_crlf {line : Text} (one : OneLine line) (rest : Text) :
    FirstAt crlf (line ++ crlf ++ rest) line.length := by
  have absent : ¬([13, 10] : Text) <:+: line := by
    intro occurs
    exact one 13 (occurs.subset List.mem_cons_self) rfl
  have here := firstAt_pair (by decide) absent rest
  simpa [crlf] using here

/-- An extension starts with a semicolon behind blanks. -/
theorem ChunkExtension.starts {text : Text} (extension : ChunkExtension text) :
    text = [] ∨ ∃ before rest, Blanks before ∧ text = before ++ byteOf ';' :: rest := by
  cases extension with
  | nil => exact .inl rfl
  | name before behind name rest blanks _ _ _ =>
    refine .inr ⟨before, behind ++ name ++ rest, blanks, ?_⟩
    simp only [List.append_assoc, List.cons_append]
  | value before behind name left right value rest blanks _ _ _ _ _ _ =>
    refine .inr ⟨before, behind ++ name ++ left ++ byteOf '=' :: right ++ value ++ rest, blanks, ?_⟩
    simp only [List.append_assoc, List.cons_append]

theorem SizeDigits.trimmed {digits : Text} (size : SizeDigits digits) : Trimmed digits where
  front c member := ((plain_chars c).2.2.2 (size.2 c (List.mem_of_mem_head? member))).2.1
  back c member := ((plain_chars c).2.2.2 (size.2 c (List.mem_of_getLast? member))).2.1

/-- The size text of a line without its extension. -/
theorem sizeText_eq {digits extension : Text} (size : SizeDigits digits)
    (extends_ : ChunkExtension extension) :
    trimSpaces (((indexOf (digits ++ extension) [byteOf ';']).map
      (digits ++ extension).take).getD (digits ++ extension)) = digits := by
  have no_semicolon : byteOf ';' ∉ digits :=
    fun member => ((plain_chars _).2.2.2 (size.2 _ member)).2.2.1 rfl
  obtain rfl | ⟨before, rest, blanks, rfl⟩ := extends_.starts
  · rw [List.append_nil, indexOf_char_eq_none_iff.mpr no_semicolon, Option.map_none, Option.getD_none]
    exact size.trimmed.trimSpaces
  · have absent : byteOf ';' ∉ digits ++ before := by
      intro member
      obtain member | member := List.mem_append.mp member
      · exact no_semicolon member
      · exact absurd (blanks _ member) (by decide)
    rw [← List.append_assoc, indexOf_char absent, Option.map_some, Option.getD_some, List.take_left]
    simpa using @trimSpaces_append [] _ _ (by simp) size.trimmed blanks

theorem int32_digit (size : ℤ) (digit : ℤ) :
    int32 (int32 size * 16 + digit) = int32 (size * 16 + digit) := by
  rw [int32, int32, int32, ← Int.bmod_add_bmod, Int.bmod_mul_bmod, Int.bmod_add_bmod]

/-- The value is taken modulo 2^32. -/
theorem foldl_digits {digits : Text} (hex : ∀ c ∈ digits, isHexDigit c = true) (start : ℕ) :
    digits.foldl (fun size ch => int32 (size * 16 + digitValue ch)) (int32 start) =
      int32 (digits.foldl (fun n ch => n * 16 + (digitValue ch).toNat) start : ℕ) := by
  induction digits generalizing start with
  | nil => rw [List.foldl_nil, List.foldl_nil]
  | cons c rest ih =>
    have digit : digitValue c = ((digitValue c).toNat : ℤ) := by
      have := ((plain_chars c).2.2.2 (hex c List.mem_cons_self)).2.2.2
      omega
    rw [List.foldl_cons, List.foldl_cons, ← ih (fun d member => hex d (List.mem_cons_of_mem _ member)),
      int32_digit, digit]
    push_cast
    rfl

theorem chunkSize_eq {digits extension : Text} (size : SizeDigits digits)
    (short : digits.length ≤ 15) (extends_ : ChunkExtension extension) :
    chunkSize (digits ++ extension) = .ok (int32 (hexValue digits)) := by
  have positive := List.length_pos_of_ne_nil size.1
  have all : digits.all isHexDigit = true := List.all_eq_true.mpr size.2
  have zero : int32 ((0 : ℕ) : ℤ) = 0 := by decide
  have readable : ¬(digits.length = 0 ∨ 15 < digits.length ∨ ¬digits.all isHexDigit = true) := by
    rintro (empty | long | other)
    · omega
    · omega
    · exact other all
  rw [chunkSize, sizeText_eq size extends_, if_neg readable, hexValue, ← foldl_digits size.2, zero]

theorem SizeLine.unique {line : Text} {n m : ℕ} (first : SizeLine line n) (second : SizeLine line m) :
    n = m := by
  obtain ⟨digits, extension, size, extends_⟩ := first
  generalize same : digits ++ extension = line at second
  obtain ⟨digits', extension', size', extends'⟩ := second
  rw [← sizeText_eq size extends_, same, sizeText_eq size' extends']

theorem SizeLine.oneLine {line : Text} {n : ℕ} (size : SizeLine line n) : OneLine line := by
  obtain ⟨digits, extension, digits_size, extends_⟩ := size
  exact oneLine_append.mpr ⟨digits_size.oneLine, extends_.oneLine⟩

/-- The first line break behind the text is at its end. -/
def IsLine (line : Text) : Prop := FirstAt crlf (line ++ crlf) line.length

theorem OneLine.isLine {line : Text} (one : OneLine line) : IsLine line := by
  simpa [IsLine] using firstAt_crlf one []

/-- A stream has one first line. -/
theorem IsLine.unique {first second rest behind : Text} (one : IsLine first) (two : IsLine second)
    (same : first ++ crlf ++ rest = second ++ crlf ++ behind) : first = second ∧ rest = behind := by
  have length : first.length = second.length :=
    (one.append (by decide) rest).unique (same ▸ two.append (by decide) behind)
  have lines := List.append_inj same (by rw [List.length_append, List.length_append, length])
  exact ⟨List.append_cancel_right lines.1, lines.2⟩

section Whole

variable {bound : Option ℕ} {ended : ReadError} {line rest stream : Text}

theorem readLine_of_isLine (one : IsLine line) :
    readLine bound { buffer := line ++ crlf ++ rest, ended } = .ok (line, { buffer := rest, ended }) := by
  have here : FirstAt crlf (line ++ crlf ++ rest) line.length := one.append (by decide) rest
  have found : indexOf (line ++ crlf ++ rest) crlf = some line.length :=
    (indexOf_eq_some_iff (by decide)).mpr here
  have splits : readUntil (line ++ crlf ++ rest) crlf = some (line, rest) :=
    (readUntil_eq_some_iff (by decide)).mpr ⟨rfl, here⟩
  rw [readLine, awaitLine_of_found found]
  simp only [bind, Except.bind, splits, Option.getD_some]
  rfl

theorem readLine_of_missing (missing : indexOf stream crlf = none) :
    readLine bound { buffer := stream, ended } = .error (.status 400) := by
  rw [readLine, awaitLine_nil missing]
  rfl

/-- A stream in one piece has a first line or none. -/
theorem readLine_cases (bound : Option ℕ) (stream : Text) (ended : ReadError) :
    (indexOf stream crlf = none ∧ readLine bound { buffer := stream, ended } = .error (.status 400)) ∨
      ∃ line rest, stream = line ++ crlf ++ rest ∧ IsLine line ∧
        readLine bound { buffer := stream, ended } = .ok (line, { buffer := rest, ended }) := by
  cases found : indexOf stream crlf with
  | none => exact .inl ⟨rfl, readLine_of_missing found⟩
  | some n =>
    have there : indexOf stream crlf ≠ none := by simp [found]
    obtain ⟨line, rest, splits⟩ := readUntil_isSome there
    obtain ⟨rfl, here⟩ := (readUntil_eq_some_iff (by decide)).mp splits
    have one : IsLine line := here.of_append (by rw [List.length_append])
    exact .inr ⟨line, rest, rfl, one, readLine_of_isLine one⟩

end Whole

end Lines

section Trailers

variable {ended : ReadError} {rest stream : Text}

/-- The lines, each with its line break. -/
def linesText (lines : List Text) : Text := lines.flatMap (· ++ crlf)

theorem Trailer.lines {trailer : Text} (reads : Trailer trailer) :
    ∃ lines, trailer = linesText lines ++ crlf ∧ ∀ line ∈ lines, FieldLine line := by
  induction reads with
  | last => exact ⟨[], rfl, by simp⟩
  | field line rest field _ ih =>
    obtain ⟨lines, rfl, fields⟩ := ih
    refine ⟨line :: lines, by simp [linesText], ?_⟩
    intro other member
    obtain rfl | member := List.mem_cons.mp member
    · exact field
    · exact fields other member

theorem trailer_of_lines {lines : List Text} (fields : ∀ line ∈ lines, FieldLine line) :
    Trailer (linesText lines ++ crlf) := by
  induction lines with
  | nil => exact .last
  | cons line lines ih =>
    have behind := ih fun other member => fields other (List.mem_cons_of_mem _ member)
    have unfolded : linesText (line :: lines) ++ crlf = line ++ crlf ++ (linesText lines ++ crlf) := by
      simp [linesText]
    rw [unfolded]
    exact .field _ _ (fields line List.mem_cons_self) behind

theorem FieldLine.ne_nil {line : Text} (field : FieldLine line) : line ≠ [] := by
  obtain ⟨name, value, rfl, -⟩ := field
  simp

/-- A stream starts with one trailer at most. -/
theorem Trailer.unique {first second behind : Text} (one : Trailer first) (two : Trailer second)
    (same : first ++ rest = second ++ behind) : rest = behind := by
  have empty : IsLine [] := OneLine.isLine oneLine_nil
  induction one generalizing second with
  | last =>
    cases two with
    | last => exact List.append_cancel_left same
    | field line more field _ =>
      rw [List.append_assoc] at same
      obtain ⟨none_, -⟩ := empty.unique field.oneLine.isLine same
      exact absurd none_.symm field.ne_nil
  | field line more field _ ih =>
    cases two with
    | last =>
      rw [List.append_assoc] at same
      obtain ⟨none_, -⟩ := field.oneLine.isLine.unique empty same
      exact absurd none_ field.ne_nil
    | field line' more' field' two =>
      rw [List.append_assoc (line ++ crlf), List.append_assoc (line' ++ crlf)] at same
      obtain ⟨-, same⟩ := field.oneLine.isLine.unique field'.oneLine.isLine same
      exact ih two same

theorem readTrailer_of_lines {lines : List Text} (fields : ∀ line ∈ lines, IsLine line ∧ line ≠ []) :
    readTrailer { buffer := linesText lines ++ crlf ++ rest, ended } = .ok { buffer := rest, ended } := by
  induction lines with
  | nil =>
    have empty : IsLine [] := OneLine.isLine oneLine_nil
    change readTrailer { buffer := [] ++ crlf ++ rest, ended } = _
    rw [readTrailer_of_ok (readLine_of_isLine empty), if_pos rfl]
  | cons line lines ih =>
    obtain ⟨one, nonempty⟩ := fields line List.mem_cons_self
    have unfolded : linesText (line :: lines) ++ crlf ++ rest =
        line ++ crlf ++ (linesText lines ++ crlf ++ rest) := by
      simp [linesText]
    rw [unfolded, readTrailer_of_ok (readLine_of_isLine one), if_neg nonempty]
    exact ih fun other member => fields other (List.mem_cons_of_mem _ member)

/-- What the reader takes for a trailer. -/
theorem readTrailer_cases (stream : Text) (ended : ReadError) :
    readTrailer { buffer := stream, ended } = .error (.status 400) ∨
      ∃ lines rest, stream = linesText lines ++ crlf ++ rest ∧
        (∀ line ∈ lines, IsLine line ∧ line ≠ []) ∧
        readTrailer { buffer := stream, ended } = .ok { buffer := rest, ended } := by
  generalize length : stream.length = bound
  induction bound using Nat.strong_induction_on generalizing stream with
  | _ bound ih =>
    obtain ⟨-, fails⟩ | ⟨line, rest, rfl, one, reads⟩ := readLine_cases none stream ended
    · exact .inl (readTrailer_of_error fails)
    · rw [readTrailer_of_ok reads]
      by_cases empty : line = []
      · subst empty
        rw [if_pos rfl]
        exact .inr ⟨[], rest, by simp [linesText], by simp, rfl⟩
      · rw [if_neg empty]
        have shorter : rest.length < bound := by
          rw [← length]
          simp only [crlf, List.length_append, List.length_cons]
          omega
        obtain fails | ⟨lines, behind, rfl, fields, goes⟩ := ih rest.length shorter rest rfl
        · exact .inl fails
        · refine .inr ⟨line :: lines, behind, by simp [linesText], ?_, goes⟩
          intro other member
          obtain rfl | member := List.mem_cons.mp member
          · exact ⟨one, empty⟩
          · exact fields other member

end Trailers

section Chunks

variable {behind : Text} {incoming : Incoming}

/-- Of the next chunk, nothing is there that the reader doesn't look at or that wraps. -/
structure PlainChunk (limits : Limits) (body : Text) (incoming : Incoming) : Prop where
  line : SteadyLine (some 1024) incoming.stream
  digits : ∀ digits extension rest, incoming.stream = digits ++ extension ++ crlf ++ rest →
    SizeDigits digits → ChunkExtension extension →
      digits.length ≤ 15 ∧ body.length + hexValue digits < 2 ^ 31 ∧
        (body.length + hexValue digits ≤ limits.bodyBytes → hexValue digits + 2 < 2 ^ 31)
  extension : ∀ line rest size, incoming.stream = line ++ crlf ++ rest → IsLine line →
    chunkSize line = .ok size → ∃ n, SizeLine line n
  delimiter : ∀ line chunk rest, incoming.stream = line ++ crlf ++ (chunk ++ rest) →
    SizeLine line chunk.length → chunk ≠ [] → body.length + chunk.length ≤ limits.bodyBytes →
      2 ≤ rest.length → rest.take 2 = crlf
  trailer : ∀ line lines rest, incoming.stream = line ++ crlf ++ (linesText lines ++ crlf ++ rest) →
    SizeLine line 0 → (∀ line ∈ lines, IsLine line ∧ line ≠ []) → ∀ line ∈ lines, FieldLine line

/-- So of all chunks that are reached. -/
def PlainChunks (limits : Limits) (body : Text) (incoming : Incoming) : Prop :=
  ∀ read, ReflTransGen (ChunkTurn limits) (body, incoming) read → PlainChunk limits read.1 read.2

/-- The result of a run is the one of the grammar. -/
inductive Decoded (limits : Limits) (body stream : Text) :
    Except ReadFailure (Text × Incoming) → Prop
  | ok (more : Text) (after : Incoming) : ChunkedBody stream more after.stream →
      (body ++ more).length ≤ limits.bodyBytes → Decoded limits body stream (.ok (body ++ more, after))
  | beyond : OverLimit limits.bodyBytes body.length stream →
      Decoded limits body stream (.error (.status 413))
  | refused : ¬OverLimit limits.bodyBytes body.length stream →
      (∀ more rest, ChunkedBody stream more rest → limits.bodyBytes < (body ++ more).length) →
      Decoded limits body stream (.error (.status 400))

variable {limits : Limits} {body stream line rest : Text} {ended : ReadError} {n : ℕ}

/-- A stream whose first line has no size has no chunk. -/
theorem no_chunk (no_size : ∀ line rest n, stream = line ++ crlf ++ rest → ¬SizeLine line n) :
    Decoded limits body stream (.error (.status 400)) := by
  refine .refused ?_ ?_
  · intro beyond
    cases beyond with
    | here read n line rest size _ => exact no_size _ _ _ rfl size
    | behind read line chunk stream size _ _ => exact no_size _ _ _ rfl size
  · intro more rest chunked
    cases chunked with
    | last line trailer rest size _ => exact (no_size _ _ _ rfl size).elim
    | chunk line chunk stream body rest size _ _ => exact (no_size _ _ _ rfl size).elim

/-- The parts of a chunk whose size is known. -/
theorem SizeLine.split (size : SizeLine line n) {other behind : Text} {m : ℕ}
    (same : line ++ crlf ++ rest = other ++ crlf ++ behind) (size' : SizeLine other m) :
    line = other ∧ rest = behind ∧ n = m := by
  obtain ⟨rfl, rfl⟩ := size.oneLine.isLine.unique size'.oneLine.isLine same
  exact ⟨rfl, rfl, size.unique size'⟩

theorem ChunkedBody.behind_size {more : Text} (size : SizeLine line n)
    (chunked : ChunkedBody (line ++ crlf ++ rest) more behind) :
    (n = 0 ∧ more = [] ∧ ∃ trailer, Trailer trailer ∧ rest = trailer ++ behind) ∨
      ∃ chunk stream body, n = chunk.length ∧ chunk ≠ [] ∧ rest = chunk ++ crlf ++ stream ∧
        more = chunk ++ body ∧ ChunkedBody stream body behind := by
  generalize same : line ++ crlf ++ rest = whole at chunked
  cases chunked with
  | last line' trailer _ size' trails =>
    obtain ⟨-, rfl, rfl⟩ := size.split same size'
    exact .inl ⟨rfl, rfl, trailer, trails, rfl⟩
  | chunk line' chunk stream body _ size' nonempty chunked =>
    obtain ⟨-, rfl, rfl⟩ := size.split same size'
    exact .inr ⟨chunk, stream, body, rfl, nonempty, rfl, rfl, chunked⟩

theorem OverLimit.behind_size {limit : ℤ} {read : ℕ} (size : SizeLine line n)
    (beyond : OverLimit limit read (line ++ crlf ++ rest)) :
    limit < read + n ∨
      ∃ chunk stream, n = chunk.length ∧ chunk ≠ [] ∧ rest = chunk ++ crlf ++ stream ∧
        OverLimit limit (read + chunk.length) stream := by
  generalize same : line ++ crlf ++ rest = whole at beyond
  cases beyond with
  | here _ m line' _ size' beyond =>
    obtain ⟨-, -, rfl⟩ := size.split same size'
    exact .inl beyond
  | behind _ line' chunk stream size' nonempty beyond =>
    obtain ⟨-, rfl, rfl⟩ := size.split same size'
    exact .inr ⟨chunk, stream, rfl, nonempty, rfl, beyond⟩

theorem decoded_over (size : SizeLine line n) (beyond : limits.bodyBytes < body.length + n) :
    Decoded limits body (line ++ crlf ++ rest) (.error (.status 413)) :=
  .beyond (.here _ _ _ _ size beyond)

theorem decoded_last {trailer : Text} (size : SizeLine line 0) (trails : Trailer trailer)
    (within : body.length ≤ limits.bodyBytes) :
    Decoded limits body (line ++ crlf ++ (trailer ++ behind))
      (.ok (body, { buffer := behind, ended })) := by
  have read := @Decoded.ok limits body (line ++ crlf ++ (trailer ++ behind)) [] { buffer := behind, ended }
    (by simpa [Incoming.stream] using ChunkedBody.last _ _ behind size trails)
    (by simpa using within)
  simpa using read

/-- Behind a size of 0, only the trailer matters. -/
theorem decoded_last_failed (size : SizeLine line 0) (within : body.length ≤ limits.bodyBytes)
    (no_trailer : ∀ trailer behind, rest = trailer ++ behind → ¬Trailer trailer) :
    Decoded limits body (line ++ crlf ++ rest) (.error (.status 400)) := by
  refine .refused ?_ ?_
  · intro beyond
    obtain beyond | ⟨chunk, stream, empty, nonempty, -⟩ := beyond.behind_size size
    · omega
    · exact nonempty (List.length_eq_zero_iff.mp empty.symm)
  · intro more behind chunked
    obtain ⟨-, -, trailer, trails, same⟩ | ⟨chunk, stream, all, empty, nonempty, -⟩ :=
      chunked.behind_size size
    · exact absurd trails (no_trailer trailer behind same)
    · exact absurd (List.length_eq_zero_iff.mp empty.symm) nonempty

theorem decoded_chunk_failed (size : SizeLine line n) (positive : 0 < n)
    (within : body.length + n ≤ limits.bodyBytes) (few : rest.length < n + 2) :
    Decoded limits body (line ++ crlf ++ rest) (.error (.status 400)) := by
  have too_short : ∀ chunk stream : Text, n = chunk.length → rest ≠ chunk ++ crlf ++ stream := by
    rintro chunk stream rfl rfl
    simp only [crlf, List.length_append, List.length_cons] at few
    omega
  refine .refused ?_ ?_
  · intro beyond
    obtain beyond | ⟨chunk, stream, length, -, same, -⟩ := beyond.behind_size size
    · omega
    · exact too_short chunk stream length same
  · intro more behind chunked
    obtain ⟨zero, -⟩ | ⟨chunk, stream, all, length, -, same, -⟩ := chunked.behind_size size
    · omega
    · exact absurd same (too_short chunk stream length)

/-- Behind a chunk, the rest of the stream matters. -/
theorem Decoded.chunk {chunk : Text} (size : SizeLine line chunk.length) (nonempty : chunk ≠ [])
    (within : body.length + chunk.length ≤ limits.bodyBytes)
    {result : Except ReadFailure (Text × Incoming)}
    (decoded : Decoded limits (body ++ chunk) rest result) :
    Decoded limits body (line ++ crlf ++ (chunk ++ crlf ++ rest)) result := by
  have over_iff : OverLimit limits.bodyBytes body.length (line ++ crlf ++ (chunk ++ crlf ++ rest)) ↔
      OverLimit limits.bodyBytes (body ++ chunk).length rest := by
    rw [List.length_append]
    constructor
    · intro beyond
      obtain beyond | ⟨chunk', stream, length, -, same, beyond⟩ := beyond.behind_size size
      · omega
      · obtain ⟨same_chunk, rfl⟩ := List.append_inj same (by simp [length])
        obtain rfl : chunk = chunk' := List.append_cancel_right same_chunk
        exact beyond
    · exact .behind _ _ _ _ size nonempty
  cases decoded with
  | ok more after chunked fits =>
    rw [List.append_assoc body chunk more] at fits ⊢
    exact .ok _ _ (.chunk _ _ _ _ _ size nonempty chunked) fits
  | beyond beyond => exact .beyond (over_iff.mpr beyond)
  | refused within_limit none_fits =>
    refine .refused (fun beyond => within_limit (over_iff.mp beyond)) ?_
    intro more behind chunked
    obtain ⟨empty, -⟩ | ⟨chunk', stream, all, length, -, same, rfl, all_chunked⟩ :=
      chunked.behind_size size
    · exact absurd (List.length_eq_zero_iff.mp empty) nonempty
    · obtain ⟨same_chunk, rfl⟩ := List.append_inj same (by simp [length])
      obtain rfl : chunk = chunk' := List.append_cancel_right same_chunk
      rw [← List.append_assoc]
      exact none_fits _ _ all_chunked

/-- Of a size line, the reader takes the value as long as it is short and doesn't wrap. -/
theorem chunkSize_of_plain (plain : PlainChunk limits body incoming)
    (stream_eq : incoming.stream = line ++ crlf ++ rest) (size : SizeLine line n) :
    chunkSize line = .ok n ∧ int32 (body.length + n) = body.length + n ∧
      (body.length + n ≤ limits.bodyBytes → SizeFits n) := by
  obtain ⟨digits, extension, size, extends_⟩ := size
  obtain ⟨short, low, fits⟩ := plain.digits digits extension rest stream_eq size extends_
  refine ⟨?_, int32_of_fits (by omega) (by omega), fun within => ⟨by omega, by have := fits within; omega⟩⟩
  rw [chunkSize_eq size short extends_, int32_of_fits (by omega) (by omega)]

theorem chunkSize_error {failure : ReadFailure} (fails : chunkSize line = .error failure) :
    failure = .status 400 := by
  rw [chunkSize] at fails
  split at fails
  · exact (Except.error.inj fails).symm
  · cases fails

/-- A chunk that is there as a whole, with a line break behind it. -/
theorem takeChunk_of_delimited {chunk : Text} (fits : SizeFits chunk.length) :
    takeChunk chunk.length { buffer := chunk ++ crlf ++ rest, ended } =
      .ok (chunk, { buffer := rest, ended }) := by
  have enough : (chunk.length + 2 : ℤ) ≤ (chunk ++ crlf ++ rest).length := by
    simp only [crlf, List.length_append, List.length_cons]
    omega
  have taken : (chunk ++ crlf ++ rest).take chunk.length = chunk := by
    rw [List.append_assoc, List.take_left]
  have behind : (chunk ++ crlf ++ rest).drop (chunk.length + 2) = rest := by
    have length : chunk.length + 2 = (chunk ++ crlf).length := by simp [crlf]
    rw [length, List.drop_left]
  rw [takeChunk_of_some fits (fill_of_enough enough)]
  simp only [Int.toNat_natCast, taken, behind]

/-- The bytes of a chunk that is there, and the line break behind them. -/
theorem delimited_of_plain (plain : PlainChunk limits body incoming)
    (stream_eq : incoming.stream = line ++ crlf ++ rest) (size : SizeLine line n) (positive : 0 < n)
    (within : body.length + n ≤ limits.bodyBytes) (enough : n + 2 ≤ rest.length) :
    ∃ chunk behind, n = chunk.length ∧ rest = chunk ++ crlf ++ behind := by
  have length : (rest.take n).length = n := by
    rw [List.length_take]
    omega
  have delimited : (rest.drop n).take 2 = crlf := by
    apply plain.delimiter line (rest.take n) (rest.drop n)
    · rw [List.take_append_drop, stream_eq]
    · rw [length]
      exact size
    · apply List.ne_nil_of_length_pos
      omega
    · rw [length]
      exact within
    · rw [List.length_drop]
      omega
  refine ⟨rest.take n, (rest.drop n).drop 2, length.symm, ?_⟩
  rw [List.append_assoc, ← delimited, List.take_append_drop, List.take_append_drop]

/-- A chunk with bytes, when the rest of the stream is read as the grammar says. -/
theorem decoded_positive (plain : PlainChunk limits body incoming)
    (stream_eq : incoming.stream = line ++ crlf ++ rest) (size : SizeLine line n) (positive : 0 < n)
    (within : body.length + n ≤ limits.bodyBytes) (fits : SizeFits n)
    (goes_on : ∀ chunk behind, rest = chunk ++ crlf ++ behind →
      takeChunk n { buffer := rest, ended } = .ok (chunk, { buffer := behind, ended }) →
      Decoded limits (body ++ chunk) behind
        (readChunks limits (body ++ chunk) { buffer := behind, ended })) :
    Decoded limits body (line ++ crlf ++ rest)
      ((takeChunk n { buffer := rest, ended }).bind
        fun read => readChunks limits (body ++ read.1) read.2) := by
  by_cases enough : n + 2 ≤ rest.length
  · -- The two bytes behind the chunk are what the grammar asks for.
    obtain ⟨chunk, behind, rfl, rfl⟩ :=
      delimited_of_plain plain stream_eq size positive within enough
    have takes := @takeChunk_of_delimited behind ended _ fits
    rw [takes]
    exact Decoded.chunk size (List.ne_nil_of_length_pos positive) within (goes_on chunk behind rfl takes)
  · have less : ¬(n + 2 : ℤ) ≤ rest.length := by omega
    have ends : takeChunk n { buffer := rest, ended } = .error (.status 400) :=
      takeChunk_of_none fits (fill_nil_of_less less)
    rw [ends]
    exact decoded_chunk_failed size positive within (by omega)

/-- A stream in one piece is read as the grammar says. -/
theorem readChunks_decoded (plain : PlainChunks limits body { buffer := stream, ended }) :
    Decoded limits body stream (readChunks limits body { buffer := stream, ended }) := by
  generalize length : stream.length = bound
  induction bound using Nat.strong_induction_on generalizing body stream with
  | _ bound ih =>
    have now : PlainChunk limits body { buffer := stream, ended } := plain _ .refl
    have whole : ({ buffer := stream, ended } : Incoming).stream = stream := List.append_nil _
    obtain ⟨missing, fails⟩ | ⟨line, rest, rfl, one, reads⟩ :=
      readLine_cases (some 1024) stream ended
    · rw [readChunks_of_no_line fails]
      apply no_chunk
      rintro line rest n rfl -
      exact (indexOf_eq_none_iff (by decide)).mp missing ⟨line, rest, rfl⟩
    rw [readChunks_of_line reads]
    cases sized : chunkSize line with
    | error failure =>
      rw [chunkSize_error sized]
      apply no_chunk
      intro other behind n same' size
      obtain ⟨rfl, -⟩ := one.unique size.oneLine.isLine same'
      rw [(chunkSize_of_plain now (whole.trans same') size).1] at sized
      cases sized
    | ok size =>
      obtain ⟨n, size_line⟩ := now.extension line rest size whole one sized
      obtain ⟨reads_n, sum, fits⟩ := chunkSize_of_plain now whole size_line
      obtain rfl : (n : ℤ) = size := Except.ok.inj (reads_n.symm.trans sized)
      simp only [sum]
      split
      · next beyond => exact decoded_over size_line beyond
      next within =>
      have within : body.length + (n : ℤ) ≤ limits.bodyBytes := Int.not_lt.mp within
      split
      · next zero =>
        obtain rfl : n = 0 := by omega
        obtain fails | ⟨lines, behind, rfl, fields, goes⟩ := readTrailer_cases rest ended
        · rw [fails]
          apply decoded_last_failed size_line (by omega)
          rintro trailer behind rfl trails
          obtain ⟨lines, rfl, fields⟩ := trails.lines
          rw [readTrailer_of_lines fun line member =>
            ⟨(fields line member).oneLine.isLine, (fields line member).ne_nil⟩] at fails
          cases fails
        · rw [goes]
          apply decoded_last size_line _ (by omega)
          exact trailer_of_lines
            (now.trailer line lines behind whole size_line fields)
      · next positive =>
        apply decoded_positive now whole size_line (by omega) within (fits within)
        rintro chunk behind rfl takes
        apply ih behind.length _ _ rfl
        · rw [← length]
          simp only [List.length_append]
          simp only [crlf, List.length_cons]
          omega
        · intro read turns
          apply plain read
          exact .head (.chunk _ _ _ _ _ _ _ reads sized (by rw [sum]; exact within) positive takes)
            turns

/-- Plain chunks are read in the same way whatever the pieces they come in. -/
theorem PlainChunk.steady (plain : PlainChunk limits body incoming) :
    SteadyChunk limits body incoming where
  line := plain.line
  size line behind size reads sizes within := by
    obtain ⟨stream_eq, -, one⟩ := readLine_ok reads
    obtain ⟨n, size_line⟩ := plain.extension line behind.stream size stream_eq one sizes
    obtain ⟨sizes_n, sum, fits⟩ := chunkSize_of_plain plain stream_eq size_line
    obtain rfl : (n : ℤ) = size := Except.ok.inj (sizes_n.symm.trans sizes)
    exact fits (sum ▸ within)

theorem PlainChunks.steady (plain : PlainChunks limits body incoming) :
    SteadyChunks limits body incoming := fun read turns => (plain read turns).steady

end Chunks

section Reading

variable {limits : Limits} {stream body rest : Text}

/-- A stream starts with one body at most. -/
theorem ChunkedBody.unique {other behind : Text} (first : ChunkedBody stream body rest)
    (second : ChunkedBody stream other behind) : body = other ∧ rest = behind := by
  induction first generalizing other with
  | last line trailer rest size trails =>
    obtain ⟨-, rfl, trailer', trails', same⟩ | ⟨chunk, stream, more, empty, nonempty, -⟩ :=
      second.behind_size size
    · exact ⟨rfl, trails.unique trails' same⟩
    · exact absurd (List.length_eq_zero_iff.mp empty.symm) nonempty
  | chunk line chunk stream body rest size nonempty _ ih =>
    obtain ⟨empty, -⟩ | ⟨chunk', stream', more, length, -, same, rfl, behind_chunk⟩ :=
      second.behind_size size
    · exact absurd (List.length_eq_zero_iff.mp empty) nonempty
    · obtain ⟨same_chunk, rfl⟩ := List.append_inj same (by simp [length])
      obtain rfl : chunk = chunk' := List.append_cancel_right same_chunk
      obtain ⟨rfl, rfl⟩ := ih behind_chunk
      exact ⟨rfl, rfl⟩

/-- The whole body is above the limit when a part of it is. -/
theorem ChunkedBody.beyond {limit : ℤ} {read : ℕ} (chunked : ChunkedBody stream body rest)
    (beyond : OverLimit limit read stream) : limit < read + body.length := by
  induction chunked generalizing read with
  | last line trailer rest size trails =>
    obtain beyond | ⟨chunk, stream, empty, nonempty, -⟩ := beyond.behind_size size
    · simpa using beyond
    · exact absurd (List.length_eq_zero_iff.mp empty.symm) nonempty
  | chunk line chunk stream body rest size nonempty _ ih =>
    rw [List.length_append]
    obtain beyond | ⟨chunk', stream', length, -, same, beyond⟩ := beyond.behind_size size
    · omega
    · obtain ⟨same_chunk, rfl⟩ := List.append_inj same (by simp [length])
      obtain rfl : chunk = chunk' := List.append_cancel_right same_chunk
      have behind := ih beyond
      omega

/-- A body is read exactly if the stream starts with one that is within the limit; then the next byte
is the one behind the trailer. A size above the limit gives 413 and anything else 400, so no length
is negative and no read position moves backwards. -/
structure ReadsChunks (limits : Limits) (incoming : Incoming) : Prop where
  body_iff : ∀ body rest, (∃ after, readChunks limits [] incoming = .ok (body, after) ∧
      after.stream = rest) ↔
    ChunkedBody incoming.stream body rest ∧ body.length ≤ limits.bodyBytes
  over_iff : readChunks limits [] incoming = .error (.status 413) ↔
    OverLimit limits.bodyBytes 0 incoming.stream
  other : ∀ failure, readChunks limits [] incoming = .error failure →
    failure = .status 413 ∨ failure = .status 400

theorem readsChunks_of_decoded {incoming : Incoming}
    (decoded : Decoded limits [] incoming.stream (readChunks limits [] incoming)) :
    ReadsChunks limits incoming := by
  generalize read : readChunks limits [] incoming = result at decoded
  cases decoded with
  | ok body after chunked fits =>
    refine ⟨?_, ?_, ?_⟩
    · intro other rest
      rw [read]
      constructor
      · rintro ⟨after', same, rfl⟩
        obtain ⟨rfl, rfl⟩ := Prod.mk.inj (Except.ok.inj same)
        exact ⟨chunked, fits⟩
      · rintro ⟨chunked', -⟩
        obtain ⟨rfl, rfl⟩ := chunked.unique chunked'
        exact ⟨after, rfl, rfl⟩
    · rw [read]
      constructor
      · rintro ⟨⟩
      · intro beyond
        have above := chunked.beyond beyond
        rw [List.nil_append] at fits
        omega
    · rw [read]
      rintro failure ⟨⟩
  | beyond beyond =>
    refine ⟨?_, ?_, ?_⟩
    · intro other rest
      rw [read]
      constructor
      · rintro ⟨after, ⟨⟩, -⟩
      · rintro ⟨chunked, fits⟩
        have above := chunked.beyond beyond
        simp only [List.length_nil] at above
        omega
    · rw [read]
      exact ⟨fun _ => beyond, fun _ => rfl⟩
    · rw [read]
      rintro failure ⟨⟩
      exact .inl rfl
  | refused within none_fits =>
    refine ⟨?_, ?_, ?_⟩
    · intro other rest
      rw [read]
      constructor
      · rintro ⟨after, ⟨⟩, -⟩
      · rintro ⟨chunked, fits⟩
        have above := none_fits other rest chunked
        rw [List.nil_append] at above
        omega
    · rw [read]
      constructor
      · rintro ⟨⟩
      · exact fun beyond => absurd beyond within
    · rw [read]
      rintro failure ⟨⟩
      exact .inr rfl

theorem Decoded.of_asWhole {result : Except ReadFailure (Text × Incoming)}
    (decoded : Decoded limits body stream (asWhole result)) : Decoded limits body stream result := by
  cases result with
  | error failure => exact decoded
  | ok read =>
    obtain ⟨all, after⟩ := read
    generalize same : asWhole (.ok (all, after)) = result at decoded
    cases decoded with
    | ok more after' chunked fits =>
      obtain ⟨rfl, rfl⟩ := Prod.mk.inj (Except.ok.inj same)
      rw [Incoming.stream_whole] at chunked
      exact .ok more after chunked fits
    | beyond _ => cases same
    | refused _ _ => cases same

/-- A chunk of three bytes and the last one, in two pieces. -/
def abcBody : Incoming := { buffer := asciiBytes "3\r\nabc\r\n", reads := [asciiBytes "0\r\n\r\n"] }

theorem sizeLine_digit (c : BitVec 8) (hex : isHexDigit c = true) :
    SizeLine [c] (hexValue [c]) :=
  .mk [c] [] ⟨by simp, by simpa using hex⟩ .nil

/-- A first line with one digit is plain when what comes behind it is. -/
theorem plainChunk_of_digit {incoming : Incoming} {c : BitVec 8} (hex : isHexDigit c = true)
    (stream_eq : incoming.stream = [c] ++ crlf ++ rest)
    (sum : body.length + hexValue [c] + 2 < 2 ^ 31)
    (delimiter : ∀ chunk behind, rest = chunk ++ behind → hexValue [c] = chunk.length →
      2 ≤ behind.length → behind.take 2 = crlf)
    (trailer : hexValue [c] = 0 → ∀ lines behind, rest = linesText lines ++ crlf ++ behind →
      (∀ line ∈ lines, IsLine line ∧ line ≠ []) → lines = []) :
    PlainChunk limits body incoming := by
  have size := sizeLine_digit c hex
  refine ⟨?_, ?_, ?_, ?_, ?_⟩
  · intro n found
    have here : FirstAt crlf incoming.stream 1 := by
      rw [stream_eq]
      exact firstAt_crlf size.oneLine rest
    obtain rfl := here.unique ((indexOf_eq_some_iff (by decide)).mp found)
    decide
  · intro digits extension behind same digits_size extends_
    obtain ⟨line_eq, -, value⟩ := size.split (stream_eq.symm.trans same) (.mk _ _ digits_size extends_)
    have length := congrArg List.length line_eq
    rw [List.length_append, List.length_singleton] at length
    rw [← value]
    exact ⟨by omega, by omega, fun _ => by omega⟩
  · intro line behind n same one _
    obtain ⟨rfl, -⟩ := size.oneLine.isLine.unique one (stream_eq.symm.trans same)
    exact ⟨_, size⟩
  · intro line chunk behind same size' _ _ enough
    obtain ⟨-, split, value⟩ := size.split (stream_eq.symm.trans same) size'
    exact delimiter chunk behind split value enough
  · intro line lines behind same size' fields line' member
    obtain ⟨-, split, value⟩ := size.split (stream_eq.symm.trans same) size'
    obtain rfl := trailer value lines behind split fields
    cases member

theorem plainChunks_abcBody : PlainChunks {} [] abcBody.whole := by
  intro read turns
  obtain rfl | ⟨next, turn, turns⟩ := turns.cases_head
  · apply @plainChunk_of_digit _ _ (asciiBytes "abc\r\n0\r\n\r\n") _ (byteOf '3') (by decide)
      (by decide) (by decide)
    · intro chunk behind same length _
      have three : chunk.length = 3 := length.symm.trans (by decide)
      have split := congrArg (List.drop chunk.length) same
      rw [List.drop_left, three] at split
      rw [← split]
      decide
    · intro zero
      exact absurd zero (by decide)
  · cases turn with
    | chunk body line chunk incoming behind after size reads sizes within more takes =>
      have first : readLine (some 1024) abcBody.whole =
          .ok (asciiBytes "3", { buffer := asciiBytes "abc\r\n0\r\n\r\n" }) := by decide
      obtain ⟨rfl, rfl⟩ := Prod.mk.inj (Except.ok.inj (first.symm.trans reads))
      obtain rfl : 3 = size := Except.ok.inj ((by decide :
        chunkSize (asciiBytes "3") = .ok 3).symm.trans sizes)
      have taken : takeChunk 3 { buffer := asciiBytes "abc\r\n0\r\n\r\n" } =
          .ok (asciiBytes "abc", { buffer := asciiBytes "0\r\n\r\n" }) := by decide
      obtain ⟨rfl, rfl⟩ := Prod.mk.inj (Except.ok.inj (taken.symm.trans takes))
      obtain rfl | ⟨next, turn, -⟩ := turns.cases_head
      · apply @plainChunk_of_digit _ _ crlf _ (byteOf '0') (by decide) (by decide) (by decide)
        · intro chunk behind same length enough
          obtain rfl := List.length_eq_zero_iff.mp (length.symm.trans (by decide))
          rw [List.nil_append] at same
          rw [← same]
          rfl
        · intro _ lines behind same fields
          have length := congrArg List.length same
          rw [List.length_append, List.length_append] at length
          have none_ : (linesText lines).length = 0 := by omega
          cases lines with
          | nil => rfl
          | cons line lines =>
            simp only [linesText, List.flatMap_cons, List.length_append, crlf, List.length_cons]
              at none_
            omega
      · cases turn with
        | chunk body line chunk incoming behind after size reads sizes within more takes =>
          have last : readLine (some 1024) { buffer := asciiBytes "0\r\n\r\n" } =
              .ok (asciiBytes "0", { buffer := crlf }) := by decide
          obtain ⟨rfl, rfl⟩ := Prod.mk.inj (Except.ok.inj (last.symm.trans reads))
          exact absurd (Except.ok.inj (sizes.symm.trans (by decide :
            chunkSize (asciiBytes "0") = .ok 0))) more

end Reading

end Saad.Http
