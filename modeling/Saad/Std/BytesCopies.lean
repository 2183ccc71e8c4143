import Saad.Std.Memory
import Saad.Std.SplitJoin

/-! # A buffer of bytes

The functions of `bytes.Buffer` on its memory. Each gives none when it reads or writes outside of the
memory, when an assertion fails, or when a loop doesn't end. The copies inside of the memory are collected.
-/

namespace Saad

/-- A copy of bytes to a place of the memory, from a place of the same memory or from elsewhere. -/
structure ByteCopy where
  target : ℤ
  source : Option ℤ
  count : ℤ
deriving DecidableEq

/-- The two ranges of a copy don't overlap. -/
def ByteCopy.Apart (copy : ByteCopy) : Prop :=
  ∀ place ∈ copy.source, copy.count ≤ 0 ∨ place + copy.count ≤ copy.target ∨ copy.target + copy.count ≤ place

/-- `Buffer`, with the bytes of its memory, which is none when it is null. -/
structure ByteBuffer where
  data : Option Text := none
  length : ℤ := 0
  capacity : ℤ := 0
  position : ℤ := 0
deriving DecidableEq

/-- Where a text that is written comes from: from elsewhere, or from a view of the bytes of the buffer. -/
inductive ByteSource where
  | text (bytes : Text)
  | view (place count : ℤ)

def ByteSource.count : ByteSource → ℤ
  | .text bytes => bytes.length
  | .view _ count => count

namespace ByteBuffer

section Definitions

variable (fresh : FreshMemory)

/-- The bytes of the memory from a place on. -/
def bytesAt (b : ByteBuffer) (place count : ℤ) : Option Text := do
  let data ← b.data
  if 0 ≤ place ∧ 0 ≤ count ∧ place + count ≤ data.length then
    some ((data.drop place.toNat).take count.toNat)
  else none

def storeAt (b : ByteBuffer) (place : ℤ) (bytes : Text) : Option ByteBuffer := do
  let data ← b.data
  let data ← store data place bytes
  some { b with data := some data }

/-- `unread`, which is empty when there is no memory. -/
def unread (b : ByteBuffer) : Option Text :=
  match b.data with
  | none => some []
  | some _ => b.bytesAt b.position (int32 (b.length - b.position))

/-- How many bytes aren't read yet. -/
def available (b : ByteBuffer) : ℤ := int32 (b.length - b.position)

/-- Moves the bytes that aren't read to the front. -/
def compact (b : ByteBuffer) : Option (ByteBuffer × List ByteCopy) :=
  if b.position = 0 then some (b, [])
  else
    let left := int32 (b.length - b.position)
    if left > 0 then do
      let bytes ← b.bytesAt b.position left
      let b' ← b.storeAt 0 bytes
      some ({ b' with length := left, position := 0 }, [⟨0, some b.position, left⟩])
    else some ({ b with length := left, position := 0 }, [])

/-- Makes room for at least `extra` more bytes at the end. -/
def reserve (b : ByteBuffer) (extra : ℤ) : Option (ByteBuffer × List ByteCopy) :=
  if int32 (b.length + extra) ≤ b.capacity then some (b, [])
  else if b.position > 0 ∧ int32 (int32 (b.length - b.position) + extra) ≤ b.capacity then b.compact
  else do
    let capacity := int32 (b.capacity * 2)
    let capacity ← StringBuilder.growUntil (int32 (b.length + extra)) (if capacity < 64 then 64 else capacity)
    some ({ b with data := some (resizedBlock fresh (b.data.getD []) capacity.toNat), capacity }, [])

/-- The bytes of a source, and the place of it in the memory. A view of memory that was given back, as it
grew, is unknown. -/
def sourceBytes (b reserved : ByteBuffer) : ByteSource → Option (Text × Option ℤ)
  | .text bytes => some (bytes, none)
  | .view place count =>
    if reserved.capacity = b.capacity then (reserved.bytesAt place count).map (·, some place)
    else some ((List.range count.toNat).map (fresh 0), none)

def write (b : ByteBuffer) (source : ByteSource) : Option (ByteBuffer × List ByteCopy) :=
  if source.count = 0 then some (b, [])
  else do
    let (reserved, copies) ← b.reserve fresh (int32 source.count)
    let (bytes, place) ← sourceBytes fresh b reserved source
    let written ← reserved.storeAt reserved.length bytes
    some ({ written with length := int32 (reserved.length + int32 source.count) },
      copies ++ [⟨reserved.length, place, source.count⟩])

def writeByte (b : ByteBuffer) (byte : BitVec 8) : Option (ByteBuffer × List ByteCopy) := do
  let (reserved, copies) ← b.reserve fresh 1
  let written ← reserved.storeAt reserved.length [byte]
  some ({ written with length := int32 (reserved.length + 1) }, copies)

/-- `space` of a size and `wrote`: the bytes of the source are written into the room, as many as fit. -/
def fill (b : ByteBuffer) (size : ℤ) (source : Text) : Option (ByteBuffer × ℤ × List ByteCopy) := do
  let (reserved, copies) ← b.reserve fresh size
  let count := int32 (reserved.capacity - reserved.length)
  let bytes := source.take count.toNat
  if bytes = [] then some (reserved, count, copies)
  else do
    let written ← reserved.storeAt reserved.length bytes
    if int32 (written.length + bytes.length) ≤ written.capacity then
      some ({ written with length := int32 (written.length + bytes.length) }, count, copies)
    else none

/-- The next `n` bytes, and none when they aren't all there. -/
def read (b : ByteBuffer) (n : ℤ) : Option (ByteBuffer × Option Text) :=
  if b.available < n then some (b, none)
  else do
    let left ← b.unread
    let result ← sliceText left 0 n
    some ({ b with position := int32 (b.position + n) }, some result)

/-- The bytes up to the separator. -/
def readUntil (b : ByteBuffer) (separator : Text) : Option (ByteBuffer × Option Text) := do
  let left ← b.unread
  let place ← indexOfInt left separator 0
  if place < 0 then some (b, none)
  else do
    let result ← sliceText left 0 place
    some ({ b with position := int32 (b.position + int32 (place + int32 separator.length)) }, some result)

/-- A line without the `\r` at its end. -/
def withoutReturn (line : Text) : Text := if line.getLast? = some 13 then line.dropLast else line

def readLine (b : ByteBuffer) : Option (ByteBuffer × Option Text) :=
  (b.readUntil [10]).map fun (b, line) => (b, line.map withoutReturn)

def peekByte (b : ByteBuffer) : Option (Option (BitVec 8)) :=
  if b.available = 0 then some none
  else do
    let data ← b.data
    let byte ← byteAt data b.position
    some (some byte)

def readByte (b : ByteBuffer) : Option (ByteBuffer × Option (BitVec 8)) := do
  let byte ← b.peekByte
  match byte with
  | none => some (b, none)
  | some byte => some ({ b with position := int32 (b.position + 1) }, some byte)

def skip (b : ByteBuffer) (n : ℤ) : ByteBuffer :=
  let n := if n > b.available then b.available else n
  { b with position := int32 (b.position + n) }

def clear (b : ByteBuffer) : ByteBuffer := { b with length := 0, position := 0 }

end Definitions

section Operations

inductive Operation where
  | reserve (extra : ℤ)
  | compact
  | write (source : ByteSource)
  | writeByte (byte : BitVec 8)
  | fill (size : ℤ) (source : Text)
  | read (n : ℤ)
  | readUntil (separator : Text)
  | readLine
  | readByte
  | peekByte
  | skip (n : ℤ)
  | clear
  | free

/-- What an operation gives. -/
inductive Result where
  | done
  | text (found : Option Text)
  | byte (found : Option (BitVec 8))
  | room (count : ℤ)
deriving DecidableEq

/-- An operation, with what it gives and the copies it makes. -/
def step (fresh : FreshMemory) (b : ByteBuffer) : Operation → Option (ByteBuffer × Result × List ByteCopy)
  | .reserve extra => (b.reserve fresh extra).map fun (b, copies) => (b, .done, copies)
  | .compact => b.compact.map fun (b, copies) => (b, .done, copies)
  | .write source => (b.write fresh source).map fun (b, copies) => (b, .done, copies)
  | .writeByte byte => (b.writeByte fresh byte).map fun (b, copies) => (b, .done, copies)
  | .fill size source => (b.fill fresh size source).map fun (b, count, copies) => (b, .room count, copies)
  | .read n => (b.read n).map fun (b, found) => (b, .text found, [])
  | .readUntil separator => (b.readUntil separator).map fun (b, found) => (b, .text found, [])
  | .readLine => b.readLine.map fun (b, found) => (b, .text found, [])
  | .readByte => b.readByte.map fun (b, found) => (b, .byte found, [])
  | .peekByte => b.peekByte.map fun found => (b, .byte found, [])
  | .skip n => some (b.skip n, .done, [])
  | .clear => some (b.clear, .done, [])
  | .free => some ({}, .done, [])

end Operations

end ByteBuffer

end Saad

/-! # The copies of a buffer of bytes

`memcpy` wants two ranges that don't overlap. A compaction copies the bytes that aren't read to the front,
onto themselves when there are more of them than bytes that are read.
-/

namespace Saad.ByteBuffer

section Condition

/-- `reserve` drops the bytes that are read. -/
def Drops (b : ByteBuffer) (extra : ℤ) : Prop :=
  ¬int32 (b.length + extra) ≤ b.capacity ∧ b.position > 0 ∧
    int32 (int32 (b.length - b.position) + extra) ≤ b.capacity

/-- The bytes that aren't read are at most as many as those that are. -/
def FewLeft (b : ByteBuffer) : Prop := b.position = 0 ∨ b.available ≤ 0 ∨ b.available ≤ b.position

/-- Where the bytes end behind `reserve`, when they stay in the same memory. -/
def lastKept (b : ByteBuffer) (extra : ℤ) : Option ℤ :=
  if int32 (b.length + extra) ≤ b.capacity then some b.length
  else if b.position > 0 ∧ int32 (int32 (b.length - b.position) + extra) ≤ b.capacity then some b.available
  else none

/-- The bytes that are read may only be dropped when few are left, and a view that is written has to lie
apart from the room behind the bytes. -/
def CopiesWell (b : ByteBuffer) : Operation → Prop
  | .reserve extra => b.Drops extra → b.FewLeft
  | .compact => b.FewLeft
  | .write source => source.count ≠ 0 → (b.Drops (int32 source.count) → b.FewLeft) ∧
      match source with
      | .text _ => True
      | .view place count => ∀ last ∈ b.lastKept (int32 count), count ≤ 0 ∨ place + count ≤ last ∨ last + count ≤ place
  | .writeByte _ => b.Drops 1 → b.FewLeft
  | .fill size _ => b.Drops size → b.FewLeft
  | _ => True

/-- In a run, each operation copies well in the state it finds, until one fails. -/
def CopiesWellThroughout (b : ByteBuffer) : List (FreshMemory × Operation) → Prop
  | [] => True
  | (fresh, op) :: ops =>
    match b.step fresh op with
    | some (next, _, _) => b.CopiesWell op ∧ next.CopiesWellThroughout ops
    | none => True

/-- The copies of a run are made between ranges that don't overlap. -/
def AllApart (b : ByteBuffer) : List (FreshMemory × Operation) → Prop
  | [] => True
  | (fresh, op) :: ops =>
    match b.step fresh op with
    | some (next, _, copies) => (∀ copy ∈ copies, copy.Apart) ∧ next.AllApart ops
    | none => True

end Condition

section Copies

variable {fresh : FreshMemory} {b next : ByteBuffer} {copies : List ByteCopy} {extra : ℤ}

theorem compact_apart_iff (compacts : b.compact = some (next, copies)) :
    (∀ copy ∈ copies, copy.Apart) ↔ b.FewLeft := by
  unfold ByteBuffer.compact at compacts
  unfold FewLeft available
  split at compacts
  · next front =>
    cases compacts
    simp [front]
  · next behind =>
    dsimp only at compacts
    split at compacts
    · next some_left =>
      obtain ⟨bytes, reads, compacts⟩ := Option.bind_eq_some_iff.mp compacts
      obtain ⟨written, stores, compacts⟩ := Option.bind_eq_some_iff.mp compacts
      cases compacts
      have inside : 0 ≤ b.position := by
        obtain ⟨data, -, reads⟩ := Option.bind_eq_some_iff.mp reads
        split at reads
        · next place => exact place.1
        · cases reads
      simp only [List.mem_singleton, forall_eq, ByteCopy.Apart, Option.mem_def, Option.some.injEq, forall_eq',
        behind, false_or]
      omega
    · next none_left =>
      cases compacts
      simp only [List.not_mem_nil, false_implies, implies_true, true_iff]
      exact .inr (.inl (by omega))

/-- What a compaction leaves. -/
theorem length_of_compact (compacts : b.compact = some (next, copies)) (behind : b.position > 0) :
    next.length = b.available ∧ next.capacity = b.capacity := by
  unfold ByteBuffer.compact at compacts
  rw [if_neg (by omega)] at compacts
  dsimp only at compacts
  split at compacts
  · obtain ⟨bytes, reads, compacts⟩ := Option.bind_eq_some_iff.mp compacts
    obtain ⟨written, stores, compacts⟩ := Option.bind_eq_some_iff.mp compacts
    cases compacts
    obtain ⟨data, -, stores⟩ := Option.bind_eq_some_iff.mp stores
    obtain ⟨stored, -, stores⟩ := Option.bind_eq_some_iff.mp stores
    cases stores
    exact ⟨rfl, rfl⟩
  · cases compacts
    exact ⟨rfl, rfl⟩

/-- `reserve` leaves the bytes, drops those that are read, or grows the memory. -/
theorem reserve_cases (reserves : b.reserve fresh extra = some (next, copies)) :
    (¬b.Drops extra ∧ b.lastKept extra = some b.length ∧ copies = [] ∧ next = b) ∨
      (b.Drops extra ∧ b.lastKept extra = some b.available ∧ b.compact = some (next, copies)) ∨
      (¬b.Drops extra ∧ b.lastKept extra = none ∧ copies = [] ∧ next.capacity ≠ b.capacity) := by
  unfold ByteBuffer.reserve at reserves
  unfold lastKept
  split at reserves
  · next enough =>
    cases reserves
    exact .inl ⟨fun drops => drops.1 enough, if_pos enough, rfl, rfl⟩
  · next short =>
    rw [if_neg short]
    split at reserves
    · next dropped => exact .inr (.inl ⟨⟨short, dropped⟩, if_pos dropped, reserves⟩)
    · next kept =>
      obtain ⟨capacity, grows, reserves⟩ := Option.bind_eq_some_iff.mp reserves
      cases reserves
      have large := StringBuilder.le_of_growUntil grows
      refine .inr (.inr ⟨fun drops => kept drops.2, if_neg kept, rfl, ?_⟩)
      dsimp only
      omega

theorem reserve_apart_iff (reserves : b.reserve fresh extra = some (next, copies)) :
    (∀ copy ∈ copies, copy.Apart) ↔ (b.Drops extra → b.FewLeft) := by
  obtain ⟨keeps, -, rfl, -⟩ | ⟨drops, -, compacts⟩ | ⟨keeps, -, rfl, -⟩ := reserve_cases reserves
  · simp [keeps]
  · rw [compact_apart_iff compacts]
    exact ⟨fun few _ => few, fun few => few drops⟩
  · simp [keeps]

/-- The copy of a view is apart when it doesn't reach into the room behind the bytes. -/
theorem view_apart_iff {reserved : ByteBuffer} {moved : List ByteCopy} {start count : ℤ} {bytes : Text}
    {place : Option ℤ} (reserves : b.reserve fresh extra = some (reserved, moved))
    (sources : sourceBytes fresh b reserved (.view start count) = some (bytes, place)) :
    ByteCopy.Apart ⟨reserved.length, place, count⟩ ↔
      ∀ last ∈ b.lastKept extra, count ≤ 0 ∨ start + count ≤ last ∨ last + count ≤ start := by
  have same_memory (capacity : reserved.capacity = b.capacity) : place = some start := by
    unfold sourceBytes at sources
    dsimp only at sources
    rw [if_pos capacity] at sources
    obtain ⟨read, -, is⟩ := Option.map_eq_some_iff.mp sources
    cases is
    rfl
  unfold ByteCopy.Apart
  obtain ⟨-, last, -, same⟩ | ⟨drops, last, compacts⟩ | ⟨-, last, -, grown⟩ := reserve_cases reserves
  · rw [same_memory (by rw [same]), last, same]
    simp
  · obtain ⟨length, capacity⟩ := length_of_compact compacts drops.2.1
    rw [same_memory capacity, last, length]
    simp
  · have elsewhere : place = none := by
      unfold sourceBytes at sources
      dsimp only at sources
      rw [if_neg grown] at sources
      cases sources
      rfl
    rw [elsewhere, last]
    simp

/-- The copy of the text behind the bytes, from a view or from elsewhere. -/
theorem write_apart_iff {source : ByteSource} (writes : b.write fresh source = some (next, copies)) :
    (∀ copy ∈ copies, copy.Apart) ↔ b.CopiesWell (.write source) := by
  unfold ByteBuffer.write at writes
  unfold CopiesWell
  split at writes
  · next none =>
    cases writes
    simp [none]
  · next some_bytes =>
    obtain ⟨⟨reserved, moved⟩, reserves, writes⟩ := Option.bind_eq_some_iff.mp writes
    obtain ⟨⟨bytes, place⟩, sources, writes⟩ := Option.bind_eq_some_iff.mp writes
    obtain ⟨written, stores, writes⟩ := Option.bind_eq_some_iff.mp writes
    cases writes
    have before := reserve_apart_iff reserves
    simp only [List.forall_mem_append, List.mem_singleton, forall_eq, before, some_bytes, ne_eq, not_false_eq_true,
      true_implies]
    cases source with
    | text text =>
      cases sources
      simp [ByteCopy.Apart]
    | view start count =>
      have view := view_apart_iff reserves sources
      exact and_congr_right fun _ => view

end Copies

section Running

variable {fresh : FreshMemory} {b next : ByteBuffer} {copies : List ByteCopy} {op : Operation} {result : Result}

/-- The copies of an operation are apart exactly when it copies well in the state it finds. -/
theorem step_apart_iff (steps : b.step fresh op = some (next, result, copies)) :
    (∀ copy ∈ copies, copy.Apart) ↔ b.CopiesWell op := by
  cases op with
  | reserve extra =>
    obtain ⟨⟨reserved, moved⟩, reserves, is⟩ := Option.map_eq_some_iff.mp steps
    cases is
    exact reserve_apart_iff reserves
  | compact =>
    obtain ⟨⟨compacted, moved⟩, compacts, is⟩ := Option.map_eq_some_iff.mp steps
    cases is
    exact compact_apart_iff compacts
  | write source =>
    obtain ⟨⟨written, moved⟩, writes, is⟩ := Option.map_eq_some_iff.mp steps
    cases is
    exact write_apart_iff writes
  | writeByte byte =>
    obtain ⟨⟨written, moved⟩, writes, is⟩ := Option.map_eq_some_iff.mp steps
    cases is
    obtain ⟨⟨reserved, moved'⟩, reserves, writes⟩ := Option.bind_eq_some_iff.mp writes
    obtain ⟨stored, -, writes⟩ := Option.bind_eq_some_iff.mp writes
    cases writes
    exact reserve_apart_iff reserves
  | fill size source =>
    obtain ⟨⟨filled, count, moved⟩, fills, is⟩ := Option.map_eq_some_iff.mp steps
    cases is
    obtain ⟨⟨reserved, moved'⟩, reserves, fills⟩ := Option.bind_eq_some_iff.mp fills
    dsimp only at fills
    split at fills
    · cases fills
      exact reserve_apart_iff reserves
    · obtain ⟨stored, -, fills⟩ := Option.bind_eq_some_iff.mp fills
      split at fills
      · cases fills
        exact reserve_apart_iff reserves
      · cases fills
  | read n =>
    obtain ⟨read, -, is⟩ := Option.map_eq_some_iff.mp steps
    cases is
    simp [CopiesWell]
  | readUntil separator =>
    obtain ⟨read, -, is⟩ := Option.map_eq_some_iff.mp steps
    cases is
    simp [CopiesWell]
  | readLine =>
    obtain ⟨read, -, is⟩ := Option.map_eq_some_iff.mp steps
    cases is
    simp [CopiesWell]
  | readByte =>
    obtain ⟨read, -, is⟩ := Option.map_eq_some_iff.mp steps
    cases is
    simp [CopiesWell]
  | peekByte =>
    obtain ⟨read, -, is⟩ := Option.map_eq_some_iff.mp steps
    cases is
    simp [CopiesWell]
  | skip n =>
    cases steps
    simp [CopiesWell]
  | clear =>
    cases steps
    simp [CopiesWell]
  | free =>
    cases steps
    simp [CopiesWell]

/-- From any state on, the copies of a run are apart exactly when each operation copies well. -/
theorem allApart_iff {ops : List (FreshMemory × Operation)} : b.AllApart ops ↔ b.CopiesWellThroughout ops := by
  induction ops generalizing b with
  | nil => exact Iff.rfl
  | cons op ops ih =>
    obtain ⟨fresh, op⟩ := op
    rw [AllApart, CopiesWellThroughout]
    cases steps : b.step fresh op with
    | none => exact Iff.rfl
    | some found =>
      obtain ⟨next, result, copies⟩ := found
      exact and_congr (step_apart_iff steps) ih

end Running

/-- The copies that a buffer makes in a run are apart exactly when it drops bytes only where few are left. -/
theorem run_apart_iff (ops : List (FreshMemory × Operation)) : AllApart {} ops ↔ CopiesWellThroughout {} ops :=
  allApart_iff

/-- One of three bytes is read, and the other two are copied one place to the front. -/
theorem run_not_apart : ¬∀ ops : List (FreshMemory × Operation), AllApart {} ops := by
  intro all
  have run := all [(fun _ _ => 0, .write (.text [97, 98, 99])), (fun _ _ => 0, .readByte), (fun _ _ => 0, .compact)]
  have copy := run.2.2.1 ⟨0, some 1, 2⟩ (by decide) 1 rfl
  revert copy
  decide

end Saad.ByteBuffer
