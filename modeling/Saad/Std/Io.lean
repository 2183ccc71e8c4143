import Saad.Std.StringBuilder

/-! # Reading the standard input

The input is read through a buffer of `BufferSize` bytes. The system decides how many bytes a read
gives, and a read that gives none is the end.
-/

namespace Saad.Io

open General

section Input

def bufferSize : ℕ := 65536

/-- What `ReadFile` puts into the buffer. -/
structure Chunk where
  bytes : Text
  nonempty : bytes ≠ []
  fits : bytes.length ≤ bufferSize

/-- The bytes from `start` to `end` of the buffer, and what the next reads give. The input has ended
when there are no more. -/
structure Input where
  buffer : Text := []
  reads : List Chunk

/-- All bytes that are there or come. -/
def Input.stream (input : Input) : Text := input.buffer ++ input.reads.flatMap Chunk.bytes

end Input

section Reading

/-- A line without the `\r` in front of its line break. -/
def withoutReturn (line : Text) : Text :=
  if line.getLast? = some (byteOf '\r') then line.dropLast else line

/-- What the buffer has of the line. -/
def lineOf (buffer : Text) : Text := buffer.takeWhile (· != byteOf '\n')

/-- The rest of a line behind what is in the builder. -/
def takeLine (sb : StringBuilder) (buffer : Text) :
    List Chunk → Option ((Text × Bool) × Input)
  | [] => (sb.addString (lineOf buffer)).map fun sb =>
    if (lineOf buffer).length < buffer.length then
      ((withoutReturn sb.text, true), ⟨buffer.drop ((lineOf buffer).length + 1), []⟩)
    else ((sb.text, decide (sb.text ≠ [])), ⟨[], []⟩)
  | next :: reads => (sb.addString (lineOf buffer)).bind fun sb =>
    if (lineOf buffer).length < buffer.length then
      some ((withoutReturn sb.text, true),
        ⟨buffer.drop ((lineOf buffer).length + 1), next :: reads⟩)
    else takeLine sb next.bytes reads

/-- A line without its line break, and false when the input ended and nothing was left. None is a
builder that can't grow to the length of the line. -/
def readLine (input : Input) : Option ((Text × Bool) × Input) :=
  (newStringBuilder 64).bind fun sb => takeLine sb input.buffer input.reads

/-- The rest of `count` bytes behind those in `text`. -/
def takeBytes (count : ℕ) (text buffer : Text) (reads : List Chunk) : (Text × Bool) × Input :=
  let n := min buffer.length (count - text.length)
  let text := text ++ buffer.take n
  if count ≤ text.length then ((text, true), ⟨buffer.drop n, reads⟩)
  else
    match reads with
    | [] => ((text, false), ⟨[], []⟩)
    | next :: reads => takeBytes count text next.bytes reads

/-- Exactly `count` bytes, or what there is before the end of the input. -/
def read (count : ℕ) (input : Input) : (Text × Bool) × Input :=
  takeBytes count [] input.buffer input.reads

end Reading

section Lines

variable {sb : StringBuilder} {input after : Input} {line rest buffer coming : Text}
  {reads : List Chunk}

theorem length_addString_le {grown : StringBuilder} {s : Text} (adds : sb.addString s = some grown) :
    grown.text.length ≤ sb.text.length + s.length := by
  rw [StringBuilder.addString] at adds
  split at adds
  · obtain rfl := Option.some.inj adds
    omega
  · obtain ⟨next, reserves, writes⟩ := Option.bind_eq_some_iff.mp adds
    rw [StringBuilder.write] at writes
    split at writes
    · obtain rfl := Option.some.inj writes
      rw [List.length_append, StringBuilder.reserve_text reserves, List.length_take]
      omega
    · cases writes

theorem length_lineOf_le (buffer : Text) : (lineOf buffer).length ≤ buffer.length :=
  (List.takeWhile_prefix _).length_le

/-- A line is taken from the input, and with it at least one byte. -/
theorem length_of_takeLine (takes : takeLine sb buffer reads = some ((line, true), after)) :
    after.stream.length < sb.text.length + (buffer ++ reads.flatMap Chunk.bytes).length := by
  have le_buffer := length_lineOf_le buffer
  induction reads generalizing sb buffer with
  | nil =>
    obtain ⟨grown, adds, takes⟩ := Option.map_eq_some_iff.mp takes
    have le := length_addString_le adds
    split at takes
    · simp only [Prod.mk.injEq, and_true] at takes
      obtain ⟨-, rfl⟩ := takes
      simp only [Input.stream, List.length_append, List.length_drop]
      omega
    · simp only [Prod.mk.injEq, decide_eq_true_eq] at takes
      obtain ⟨⟨-, nonempty⟩, rfl⟩ := takes
      have positive := List.length_pos_of_ne_nil nonempty
      simp only [Input.stream, List.flatMap_nil, List.append_nil, List.length_nil]
      omega
  | cons next reads ih =>
    obtain ⟨grown, adds, takes⟩ := Option.bind_eq_some_iff.mp takes
    have le := length_addString_le adds
    split at takes
    · simp only [Option.some.injEq, Prod.mk.injEq, and_true] at takes
      obtain ⟨-, rfl⟩ := takes
      simp only [Input.stream, List.length_append, List.length_drop]
      omega
    · have behind := ih takes (length_lineOf_le _)
      simp only [List.length_append, List.flatMap_cons] at behind ⊢
      omega

theorem length_of_readLine (reads : readLine input = some ((line, true), after)) :
    after.stream.length < input.stream.length := by
  obtain ⟨sb, starts, takes⟩ := Option.bind_eq_some_iff.mp reads
  have shorter := length_of_takeLine takes
  rw [StringBuilder.reserve_text starts] at shorter
  rw [Input.stream, Input.stream] at *
  simp only [List.length_append, List.length_nil] at shorter ⊢
  omega

theorem ne_of_absent (absent : byteOf '\n' ∉ line) :
    ∀ c ∈ line, (c != byteOf '\n') = true :=
  fun _ member => bne_iff_ne.mpr fun same => absent (same ▸ member)

theorem lineOf_eq_self (absent : byteOf '\n' ∉ line) : lineOf line = line := by
  have all : (line ++ []).takeWhile (· != byteOf '\n') = line ++ List.takeWhile _ [] :=
    List.takeWhile_append_of_pos (ne_of_absent absent)
  rwa [List.append_nil, List.takeWhile_nil, List.append_nil] at all

/-- The buffer ends in the line, or has all of it. -/
theorem lineOf_cases (stream : buffer ++ coming = line ++ byteOf '\n' :: rest)
    (one : byteOf '\n' ∉ line) :
    (∃ more, lineOf buffer = buffer ∧ line = buffer ++ more ∧
      coming = more ++ byteOf '\n' :: rest) ∨
    (∃ behind, lineOf buffer = line ∧ buffer = line ++ byteOf '\n' :: behind ∧
      behind ++ coming = rest) := by
  obtain ⟨more, rfl, coming_eq⟩ | ⟨behind, rfl, same⟩ := List.append_eq_append_iff.mp stream
  · left
    exact ⟨more, lineOf_eq_self fun member => one (List.mem_append_left _ member), rfl, coming_eq⟩
  · cases behind with
    | nil =>
      left
      rw [List.append_nil]
      exact ⟨[], lineOf_eq_self one, (List.append_nil _).symm, same.symm⟩
    | cons c behind =>
      right
      obtain ⟨rfl, rest_eq⟩ := List.cons.inj same
      refine ⟨behind, ?_, rfl, rest_eq.symm⟩
      rw [lineOf, List.takeWhile_append_of_pos (ne_of_absent one),
        List.takeWhile_cons_of_neg (by simp), List.append_nil]

theorem takeLine_of_line (valid : sb.Valid)
    (stream : buffer ++ reads.flatMap Chunk.bytes = line ++ byteOf '\n' :: rest)
    (one : byteOf '\n' ∉ line) (fits : sb.text.length + line.length < 2 ^ 30) :
    ∃ after, takeLine sb buffer reads = some ((withoutReturn (sb.text ++ line), true), after) ∧
      after.stream = rest := by
  have drops : ∀ behind, (line ++ byteOf '\n' :: behind).drop (line.length + 1) = behind := by
    intro behind
    rw [← List.drop_drop, List.drop_left]
    rfl
  induction reads generalizing sb buffer line with
  | nil =>
    obtain ⟨more, -, -, absurd_⟩ | ⟨behind, same, rfl, rfl⟩ := lineOf_cases stream one
    · simp at absurd_
    · obtain ⟨grown, adds, -, text⟩ := (valid.addString (by omega)).1 fits
      refine ⟨⟨behind, []⟩, ?_, rfl⟩
      rw [takeLine, same, adds, Option.map_some, if_pos (by simp), text, drops]
  | cons next reads ih =>
    obtain ⟨more, same, rfl, coming⟩ | ⟨behind, same, rfl, rfl⟩ := lineOf_cases stream one
    · rw [List.length_append] at fits
      obtain ⟨grown, adds, grown_valid, text⟩ :=
        (valid.addString (show buffer.length < 2 ^ 30 by omega)).1 (by omega)
      obtain ⟨after, takes, behind⟩ := ih grown_valid coming
        (fun member => one (List.mem_append_right _ member))
        (by rw [text, List.length_append]; omega)
        (fun behind => by rw [← List.drop_drop, List.drop_left]; rfl)
      refine ⟨after, ?_, behind⟩
      rw [takeLine, same, adds, Option.bind_some, if_neg (by omega), takes, text,
        List.append_assoc]
    · obtain ⟨grown, adds, -, text⟩ := (valid.addString (by omega)).1 fits
      refine ⟨⟨behind, next :: reads⟩, ?_, rfl⟩
      rw [takeLine, same, adds, Option.bind_some, if_pos (by simp), text, drops]

/-- The next line of the input, however it comes. -/
theorem readLine_of_line (stream : input.stream = line ++ byteOf '\n' :: rest)
    (one : byteOf '\n' ∉ line) (fits : line.length < 2 ^ 30) :
    ∃ after, readLine input = some ((withoutReturn line, true), after) ∧ after.stream = rest := by
  obtain ⟨sb, starts, valid, text, -⟩ :=
    @StringBuilder.reserve_empty 64 (by decide) (by decide)
  obtain ⟨after, takes, behind⟩ := takeLine_of_line valid stream one (by rw [text]; simpa using fits)
  refine ⟨after, ?_, behind⟩
  rw [readLine, newStringBuilder, starts, Option.bind_some, takes, text, List.nil_append]

theorem readLine_of_ended (ended : input.stream = []) :
    ∃ after, readLine input = some (([], false), after) := by
  obtain ⟨buffer, reads⟩ := input
  obtain ⟨rfl, no_reads⟩ := List.append_eq_nil_iff.mp ended
  have none : reads = [] := by
    cases reads with
    | nil => rfl
    | cons next reads =>
      rw [List.flatMap_cons] at no_reads
      exact absurd (List.append_eq_nil_iff.mp no_reads).1 next.nonempty
  subst none
  obtain ⟨sb, starts, -, text, -⟩ :=
    @StringBuilder.reserve_empty 64 (by decide) (by decide)
  refine ⟨⟨[], []⟩, ?_⟩
  rw [readLine, newStringBuilder, starts, Option.bind_some, takeLine]
  have empty : sb.addString (lineOf []) = some sb := rfl
  rw [empty, Option.map_some, if_neg (by decide), text]
  rfl

end Lines

section Bytes

variable {count : ℕ} {text buffer body rest : Text} {reads : List Chunk} {input : Input}

theorem length_of_takeBytes {after : Input} {taken : Text} {ok : Bool}
    (takes : takeBytes count text buffer reads = ((taken, ok), after)) :
    after.stream.length ≤ (buffer ++ reads.flatMap Chunk.bytes).length := by
  induction reads generalizing text buffer with
  | nil =>
    rw [takeBytes] at takes
    split at takes
    · obtain ⟨-, rfl⟩ := Prod.mk.inj takes
      simp only [Input.stream, List.length_append, List.length_drop]
      omega
    · obtain ⟨-, rfl⟩ := Prod.mk.inj takes
      exact Nat.zero_le _
  | cons next reads ih =>
    rw [takeBytes] at takes
    split at takes
    · obtain ⟨-, rfl⟩ := Prod.mk.inj takes
      simp only [Input.stream, List.length_append, List.length_drop]
      omega
    · have le := ih takes
      simp only [List.length_append, List.flatMap_cons] at le ⊢
      omega

theorem length_of_read {after : Input} {taken : Text} {ok : Bool}
    (reads : read count input = ((taken, ok), after)) :
    after.stream.length ≤ input.stream.length :=
  length_of_takeBytes reads

theorem takeBytes_of_stream (stream : buffer ++ reads.flatMap Chunk.bytes = body ++ rest)
    (length : text.length + body.length = count) :
    ∃ after, takeBytes count text buffer reads = ((text ++ body, true), after) ∧
      after.stream = rest := by
  induction reads generalizing text buffer body with
  | nil =>
    rw [List.flatMap_nil, List.append_nil] at stream
    subst stream
    have all : min (body ++ rest).length (count - text.length) = body.length := by
      rw [List.length_append]
      omega
    refine ⟨⟨rest, []⟩, ?_, List.append_nil _⟩
    rw [takeBytes, all, List.take_left, List.drop_left, if_pos (by rw [List.length_append, length])]
  | cons next reads ih =>
    obtain ⟨more, same, coming⟩ | ⟨behind, rfl, same⟩ := List.append_eq_append_iff.mp stream
    · subst same
      rw [List.length_append] at length
      have whole : min buffer.length (count - text.length) = buffer.length := by omega
      rw [takeBytes, whole, List.take_length, List.drop_length]
      by_cases last : more = []
      · subst last
        refine ⟨⟨[], next :: reads⟩, ?_, coming⟩
        rw [List.append_nil, if_pos (by rw [List.length_append]; simp at length; omega)]
      · have positive := List.length_pos_of_ne_nil last
        obtain ⟨after, takes, behind⟩ := ih coming
          (show (text ++ buffer).length + more.length = count by rw [List.length_append]; omega)
        refine ⟨after, ?_, behind⟩
        rw [if_neg (by rw [List.length_append]; omega), takes, List.append_assoc]
    · have all : min (body ++ behind).length (count - text.length) = body.length := by
        rw [List.length_append]
        omega
      refine ⟨⟨behind, next :: reads⟩, ?_, same.symm⟩
      rw [takeBytes, all, List.take_left, List.drop_left, if_pos (by rw [List.length_append, length])]

/-- The next bytes of the input, however they come. -/
theorem read_of_stream (stream : input.stream = body ++ rest) :
    ∃ after, read body.length input = ((body, true), after) ∧ after.stream = rest :=
  takeBytes_of_stream stream (by simp)

end Bytes

end Saad.Io
