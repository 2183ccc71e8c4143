import Saad.Std.Arena
import Mathlib.Algebra.Order.BigOperators.Group.List
import Mathlib.Data.List.Pairwise

/-! # The blocks of an arena

The blocks that an arena gave since it was cleared lie in its chunks, apart from each other, and hold what was
written to them. That is so in every run whose blocks find room in the current chunk or in one that some
doubling of its capacity makes.
-/

namespace Saad.Arena

open General

section Blocks

/-- The smallest multiple of 8 that is not below a number. -/
def up8 (n : ℤ) : ℤ := (n + 7) / 8 * 8

/-- Bytes in a row, from a place of the heap on. -/
structure Range where
  start : Pointer
  size : ℕ

/-- The bytes that a range takes of its chunk. -/
def Range.extent (range : Range) : ℤ := up8 range.size

def Range.Apart (r s : Range) : Prop := Heap.Apart r.start r.extent s.start s.extent

/-- A block that was given: its bytes, and whether its size stands in front of them. -/
structure Block where
  start : Pointer
  sized : Bool
  bytes : Text
deriving DecidableEq

namespace Block

def front (b : Block) : Text := if b.sized then littleEndian 8 b.bytes.length else []

/-- The bytes with the size in front of them. -/
def whole (b : Block) : Text := b.front ++ b.bytes

/-- What the program is given of the block. -/
def place (b : Block) : Pointer := b.start.add b.front.length

def range (b : Block) : Range := ⟨b.start, b.whole.length⟩

/-- A range of bytes is within the bytes of the block. -/
def Contains (b : Block) (place : Pointer) (count : ℕ) : Prop :=
  place.block = b.start.block ∧ b.place.offset ≤ place.offset ∧ place.offset + count ≤ b.place.offset + b.bytes.length

instance (b : Block) (place : Pointer) (count : ℕ) : Decidable (b.Contains place count) :=
  inferInstanceAs (Decidable (_ ∧ _))

/-- The block with bytes that are written to a place of it. -/
def write (place : Pointer) (bytes : Text) (b : Block) : Block :=
  if b.Contains place bytes.length then
    let before := (place.offset - b.place.offset).toNat
    { b with bytes := b.bytes.take before ++ (bytes ++ b.bytes.drop (before + bytes.length)) }
  else b

end Block

/-- The bytes of a block of the allocator, which are none without one. -/
def oldBytes (given : List Block) : Option Pointer → Text
  | none => []
  | some memory => ((given.find? fun b => b.sized ∧ b.place = memory).map (·.bytes)).getD []

/-- The bytes of a resized block: those that fit of the old one, and zeros. -/
def resizedBytes (old : Text) (size : ℕ) : Text := old.take size ++ List.replicate (size - old.length) 0

/-- The blocks that are given behind an operation. -/
def after (given : List Block) : Operation → Result → List Block
  | .allocate size, .place (some memory) => ⟨memory, false, List.replicate size.toNat 0⟩ :: given
  | .resize memory size, .place (some result) =>
    ⟨result.add (-8), true, resizedBytes (oldBytes given memory) size.toNat⟩ :: given
  | .write place bytes, _ => given.map (Block.write place bytes)
  | .clear, _ => []
  | .free, _ => []
  | _, _ => given

/-- The bytes that are in use, each block as a multiple of 8. -/
def usedBytes (given : List Block) : ℤ := (given.map fun b => b.range.extent).sum

/-- What an operation gives. -/
def Gives (given : List Block) : Operation → Result → Prop
  | .allocate _, result => ∃ memory, result = .place (some memory)
  | .resize _ size, result => if size = 0 then result = .place none else ∃ memory, result = .place (some memory)
  | .used, result => result = .count (usedBytes given)
  | _, result => result = .done

end Blocks

section Invariant

/-- The ranges lie in the chunks, apart from each other and at multiples of 8. -/
structure Placed (arena : Arena) (ranges : List Range) : Prop where
  names : (arena.chunks.map (·.data)).Nodup
  sizes : ∀ chunk ∈ arena.chunks, arena.heap.sizeAt chunk.data = some chunk.capacity.toNat
  cursors : ∀ chunk ∈ arena.chunks, 0 ≤ chunk.cursor ∧ chunk.cursor ≤ chunk.capacity ∧ chunk.capacity < 2 ^ 31 ∧
    8 ∣ chunk.cursor
  inside : ∀ r ∈ ranges, ∃ chunk ∈ arena.chunks, r.start.block = chunk.data ∧ 0 ≤ r.start.offset ∧
    8 ∣ r.start.offset ∧ r.start.offset + r.extent ≤ chunk.cursor
  apart : ranges.Pairwise Range.Apart
  used : (arena.chunks.map (·.cursor)).sum = (ranges.map Range.extent).sum

/-- The blocks that were given are placed, and hold their bytes. -/
structure Holds (arena : Arena) (given : List Block) : Prop where
  placed : arena.Placed (given.map Block.range)
  has : ∀ b ∈ given, arena.heap.Has b.start b.whole

/-- There is room for a block in the current chunk, or some doubling of its capacity makes it. -/
def Room (arena : Arena) (size : ℤ) : Prop :=
  size ≤ 2 ^ 31 - 8 ∧
    match arena.chunks with
    | [] => size ≤ 2 ^ 30
    | chunk :: _ => chunk.cursor + up8 size ≤ chunk.capacity ∨
      (chunk.cursor + up8 size < 2 ^ 31 ∧ ∃ doublings : ℕ, up8 size ≤ int32 (chunk.capacity * 2 ^ (doublings + 1)))

/-- Sizes aren't negative, and what is resized or written to is a block that was given. -/
def Proper (given : List Block) : Operation → Prop
  | .allocate size => 0 ≤ size ∧ size < 2 ^ 31
  | .resize memory size => 0 ≤ size ∧ size < 2 ^ 63 ∧ ∀ old ∈ memory, ∃ b ∈ given, b.sized ∧ b.place = old
  | .write place bytes => bytes ≠ [] ∧ ∃ b ∈ given, b.Contains place bytes.length
  | _ => True

/-- An operation finds the room it needs, and the bytes that are counted are below 2 GiB. -/
def HasRoom (arena : Arena) (given : List Block) : Operation → Prop
  | .allocate size => arena.Room size
  | .resize _ size => size ≠ 0 → arena.Room (size + 8)
  | .used => usedBytes given < 2 ^ 31
  | _ => True

end Invariant

section Rounding

variable {size n : ℤ}

theorem up8_spec (n : ℤ) : n ≤ up8 n ∧ up8 n < n + 8 ∧ 8 ∣ up8 n := by
  unfold up8
  omega

theorem up8_of_dvd (dvd : 8 ∣ n) : up8 n = n := by
  unfold up8
  omega

theorem up8_mono {m : ℤ} (le : n ≤ m) : up8 n ≤ up8 m := by
  unfold up8
  omega

theorem roundedSize_eq (low : 0 ≤ size) (high : size ≤ 2 ^ 31 - 8) : roundedSize size = up8 size := by
  unfold roundedSize up8
  rw [int32_of_fits (by omega) (by omega), Int.tdiv_eq_ediv_of_nonneg (by omega)]

theorem Range.extent_spec (r : Range) : r.size ≤ r.extent ∧ 0 ≤ r.extent ∧ 8 ∣ r.extent := by
  obtain ⟨le, -, dvd⟩ := up8_spec r.size
  exact ⟨le, by unfold Range.extent; omega, dvd⟩

theorem Range.Apart.symm {r s : Range} (apart : r.Apart s) : s.Apart r := Heap.Apart.symm apart

/-- Ranges that are apart stay so when less of them is taken. -/
theorem apart_of_le {p q : Pointer} {n m a b : ℤ} (apart : Heap.Apart p n q m) (left : a ≤ n) (right : b ≤ m) :
    Heap.Apart p a q b := by
  unfold Heap.Apart at *
  omega

end Rounding

section Growing

/-- The capacity that is reached by doublings. -/
theorem double_iterate (capacity : ℤ) (turn : ℕ) :
    (fun capacity => int32 (capacity * 2))^[turn] (int32 (capacity * 2)) = int32 (capacity * 2 ^ (turn + 1)) := by
  induction turn with
  | zero => simp
  | succ turn ih => rw [Function.iterate_succ_apply', ih, int32_mul_int32, Int.mul_assoc, ← pow_succ]

theorem int32_mul_pow_of_large (capacity : ℤ) {exponent : ℕ} (large : 32 ≤ exponent) :
    int32 (capacity * 2 ^ exponent) = 0 := by
  obtain ⟨more, rfl⟩ := Nat.exists_eq_add_of_le large
  have whole : capacity * 2 ^ (32 + more) = 2 ^ 32 * (capacity * 2 ^ more) := by
    rw [pow_add]
    ring
  rw [whole, int32]
  exact Int.mul_bmod_right _ _

/-- The loop ends when some doubling is enough. -/
theorem grows_of_doublings {needed capacity : ℤ} {doublings : ℕ}
    (enough : needed ≤ int32 (capacity * 2 ^ (doublings + 1))) :
    ∃ grown, StringBuilder.growUntil needed (int32 (capacity * 2)) = some grown ∧ needed ≤ grown ∧ grown < 2 ^ 31 := by
  cases grows : StringBuilder.growUntil needed (int32 (capacity * 2)) with
  | none =>
    have stays := loopUntil_eq_none_iff.mp grows
    obtain early | late := Nat.lt_or_ge doublings 64
    · have at_turn := stays doublings early
      rw [double_iterate, if_neg (by omega)] at at_turn
      cases at_turn
    · have at_turn := stays 31 (by decide)
      rw [int32_mul_pow_of_large capacity (by omega)] at enough
      rw [double_iterate, int32_mul_pow_of_large capacity (by decide), if_neg (by omega)] at at_turn
      cases at_turn
  | some grown =>
    refine ⟨grown, rfl, StringBuilder.le_of_growUntil grows, ?_⟩
    obtain ⟨turn, -, exits, -⟩ := exists_turn_of_loopUntil_eq_some grows
    rw [double_iterate] at exits
    split at exits
    · cases exits
    · cases exits
      exact (int32_range _).2

end Growing

section Placing

variable {arena : Arena} {heap : Heap} {ranges : List Range} {chunk : Chunk} {previous : List Chunk}
  {fresh : FreshMemory} {size : ℕ} {capacity : ℤ}

/-- A store keeps the sizes of the chunks. -/
theorem Placed.store (placed : arena.Placed ranges) (same : ∀ name, heap.sizeAt name = arena.heap.sizeAt name) :
    Placed ⟨heap, arena.chunks⟩ ranges where
  names := placed.names
  sizes chunk mem := (same _).trans (placed.sizes chunk mem)
  cursors := placed.cursors
  inside := placed.inside
  apart := placed.apart
  used := placed.used

theorem Placed.newChunk (placed : arena.Placed ranges) (low : 0 ≤ capacity) (high : capacity < 2 ^ 31) :
    Placed ⟨arena.heap.malloc fresh capacity.toNat, ⟨arena.heap.length, 0, capacity⟩ :: arena.chunks⟩ ranges where
  names := by
    rw [List.map_cons, List.nodup_cons]
    refine ⟨?_, placed.names⟩
    intro mem
    obtain ⟨chunk, mem, is⟩ := List.mem_map.mp mem
    have lt := Heap.lt_of_sizeAt (placed.sizes chunk mem)
    exact lt.ne is
  sizes chunk mem := by
    obtain rfl | mem := List.mem_cons.mp mem
    · exact Heap.sizeAt_malloc_new
    · exact Heap.sizeAt_malloc (placed.sizes chunk mem)
  cursors chunk mem := by
    obtain rfl | mem := List.mem_cons.mp mem
    · exact ⟨le_rfl, low, high, dvd_zero 8⟩
    · exact placed.cursors chunk mem
  inside r mem := by
    obtain ⟨chunk, mem, is⟩ := placed.inside r mem
    exact ⟨chunk, List.mem_cons_of_mem _ mem, is⟩
  apart := placed.apart
  used := by
    rw [List.map_cons, List.sum_cons, Int.zero_add]
    exact placed.used

/-- A range of the current chunk begins at its cursor, behind the others. -/
theorem Placed.apart_of_cursor (placed : Placed ⟨heap, chunk :: previous⟩ ranges) {r : Range} (mem : r ∈ ranges)
    (n : ℤ) : Heap.Apart ⟨chunk.data, chunk.cursor⟩ n r.start r.extent := by
  obtain ⟨inside, mem, block, low, -, high⟩ := placed.inside r mem
  obtain rfl | mem := List.mem_cons.mp mem
  · exact .inr (.inr high)
  · refine .inl fun same => ?_
    have fresh := (List.nodup_cons.mp placed.names).1
    apply fresh
    exact List.mem_map.mpr ⟨inside, mem, by rw [← block]; exact same.symm⟩

theorem Placed.take (placed : Placed ⟨heap, chunk :: previous⟩ ranges) {heap' : Heap}
    (same : ∀ name, heap'.sizeAt name = heap.sizeAt name) (fits : chunk.cursor + up8 size ≤ chunk.capacity) :
    Placed ⟨heap', { chunk with cursor := chunk.cursor + up8 size } :: previous⟩
      (⟨⟨chunk.data, chunk.cursor⟩, size⟩ :: ranges) := by
  obtain ⟨cursor, -, capacity, dvd⟩ := placed.cursors chunk List.mem_cons_self
  obtain ⟨enough, -, dvd_size⟩ := up8_spec size
  refine ⟨placed.names, ?_, ?_, ?_, ?_, ?_⟩
  · intro other mem
    rw [same]
    obtain rfl | mem := List.mem_cons.mp mem
    · exact placed.sizes chunk List.mem_cons_self
    · exact placed.sizes other (List.mem_cons_of_mem _ mem)
  · intro other mem
    obtain rfl | mem := List.mem_cons.mp mem
    · exact ⟨by dsimp only; omega, fits, capacity, Int.dvd_add dvd dvd_size⟩
    · exact placed.cursors other (List.mem_cons_of_mem _ mem)
  · intro r mem
    obtain rfl | mem := List.mem_cons.mp mem
    · exact ⟨_, List.mem_cons_self, rfl, cursor, dvd, le_rfl⟩
    · obtain ⟨other, mem, block, low, aligned, high⟩ := placed.inside r mem
      obtain rfl | mem := List.mem_cons.mp mem
      · exact ⟨_, List.mem_cons_self, block, low, aligned, by dsimp only; omega⟩
      · exact ⟨other, List.mem_cons_of_mem _ mem, block, low, aligned, high⟩
  · apply List.Pairwise.cons
    · intro r mem
      exact placed.apart_of_cursor mem _
    · exact placed.apart
  · have used := placed.used
    rw [List.map_cons, List.sum_cons] at used
    rw [List.map_cons, List.sum_cons, List.map_cons, List.sum_cons, ← used]
    change chunk.cursor + up8 size + _ = up8 size + _
    omega

/-- Freeing other blocks keeps the size of one. -/
theorem sizeAt_freed (chunks : List Chunk) {name : ℕ} (others : name ∉ chunks.map (·.data)) :
    (chunks.foldl (fun heap chunk => heap.free chunk.data) heap).sizeAt name = heap.sizeAt name := by
  induction chunks generalizing heap with
  | nil => rfl
  | cons chunk chunks ih =>
    rw [List.map_cons, List.mem_cons, not_or] at others
    rw [List.foldl_cons, ih others.2, Heap.sizeAt_free others.1]

theorem Placed.clear (placed : arena.Placed ranges) : arena.clear.Placed [] := by
  unfold Arena.clear
  cases chunks : arena.chunks with
  | nil => exact ⟨placed.names, placed.sizes, placed.cursors, by simp, .nil, by simp [chunks]⟩
  | cons chunk previous =>
    have names := placed.names
    rw [chunks, List.map_cons, List.nodup_cons] at names
    have current : chunk ∈ arena.chunks := by
      rw [chunks]
      exact List.mem_cons_self
    obtain ⟨low, le, high, -⟩ := placed.cursors chunk current
    refine ⟨by simp, ?_, ?_, by simp, .nil, by simp⟩
    · intro other mem
      rw [List.mem_singleton] at mem
      subst mem
      rw [sizeAt_freed previous names.1]
      exact placed.sizes chunk current
    · intro other mem
      rw [List.mem_singleton] at mem
      subst mem
      exact ⟨le_rfl, low.trans le, high, dvd_zero 8⟩

theorem usedFrom_eq (chunks : List Chunk) {total : ℤ} (low : 0 ≤ total) (cursors : ∀ chunk ∈ chunks, 0 ≤ chunk.cursor)
    (high : total + (chunks.map (·.cursor)).sum < 2 ^ 31) :
    chunks.foldl (fun total chunk => int32 (total + chunk.cursor)) total = total + (chunks.map (·.cursor)).sum := by
  induction chunks generalizing total with
  | nil => simp
  | cons chunk chunks ih =>
    rw [List.map_cons, List.sum_cons] at high ⊢
    have cursor := cursors chunk List.mem_cons_self
    have others : 0 ≤ (chunks.map (·.cursor)).sum := by
      apply List.sum_nonneg
      intro n mem
      obtain ⟨other, is, rfl⟩ := List.mem_map.mp mem
      exact cursors other (List.mem_cons_of_mem _ is)
    rw [List.foldl_cons, int32_of_fits (by omega) (by omega), ih (by omega) ?_ (by omega)]
    · omega
    · intro other mem
      exact cursors other (List.mem_cons_of_mem _ mem)

theorem Placed.used_eq (placed : arena.Placed ranges) (high : (ranges.map Range.extent).sum < 2 ^ 31) :
    arena.used = (ranges.map Range.extent).sum := by
  rw [← placed.used] at high ⊢
  unfold Arena.used
  rw [usedFrom_eq arena.chunks le_rfl (fun chunk mem => (placed.cursors chunk mem).1) (by omega), Int.zero_add]

end Placing

section Allocating

variable {arena : Arena} {heap : Heap} {given : List Block} {chunk : Chunk} {previous : List Chunk}
  {fresh : FreshMemory} {size : ℤ} {capacity : ℤ}

/-- A block at the cursor of the current chunk. -/
theorem Holds.take (holds : Holds ⟨heap, chunk :: previous⟩ given) (low : 0 ≤ size)
    (fits : chunk.cursor + up8 size ≤ chunk.capacity) :
    ∃ next, takeBlock heap chunk previous (up8 size) = some (next, ⟨chunk.data, chunk.cursor⟩) ∧
      next.Holds (⟨⟨chunk.data, chunk.cursor⟩, false, List.replicate size.toNat 0⟩ :: given) := by
  obtain ⟨cursor, -, capacity, -⟩ := holds.placed.cursors chunk List.mem_cons_self
  obtain ⟨enough, -, -⟩ := up8_spec size
  have natural : (size.toNat : ℤ) = size := Int.toNat_of_nonneg low
  obtain ⟨heap', stores, has⟩ := @Heap.exists_storeAt heap ⟨chunk.data, chunk.cursor⟩
    (List.replicate (up8 size).toNat 0) _ (holds.placed.sizes chunk List.mem_cons_self) cursor
    (by rw [List.length_replicate]; dsimp only; omega)
  refine ⟨⟨heap', { chunk with cursor := chunk.cursor + up8 size } :: previous⟩, ?_, ?_, ?_⟩
  · unfold takeBlock
    dsimp only
    rw [if_pos (by omega), stores, Option.bind_eq_bind, Option.bind_some, int32_of_fits (by omega) (by omega)]
  · have taken := @Placed.take heap _ chunk previous size.toNat holds.placed heap' (Heap.sizeAt_storeAt stores)
      (by rwa [natural])
    rw [natural] at taken
    rw [List.map_cons]
    have range : Block.range ⟨⟨chunk.data, chunk.cursor⟩, false, List.replicate size.toNat 0⟩ =
        ⟨⟨chunk.data, chunk.cursor⟩, size.toNat⟩ := by
      simp [Block.range, Block.whole, Block.front]
    rwa [range]
  · intro b mem
    obtain rfl | mem := List.mem_cons.mp mem
    · have parts : List.replicate (up8 size).toNat (0 : BitVec 8) =
          List.replicate size.toNat 0 ++ List.replicate ((up8 size).toNat - size.toNat) 0 := by
        rw [List.replicate_append_replicate]
        congr 1
        omega
      rw [parts] at has
      exact has.front
    · apply (holds.has b mem).of_apart stores
      have apart := holds.placed.apart_of_cursor (List.mem_map_of_mem mem) (up8 size)
      apply apart_of_le apart.symm (Range.extent_spec b.range).1
      rw [List.length_replicate]
      omega

/-- A call that finds room doesn't make a chunk. -/
theorem allocateWithin_of_fits (fuel : ℕ) (low : 0 ≤ size) (high : size ≤ 2 ^ 31 - 8) (cursor : 0 ≤ chunk.cursor)
    (fits : chunk.cursor + up8 size ≤ chunk.capacity) (small : chunk.capacity < 2 ^ 31) :
    allocateWithin fresh (fuel + 1) ⟨heap, chunk :: previous⟩ size = takeBlock heap chunk previous (up8 size) := by
  obtain ⟨enough, -, -⟩ := up8_spec size
  rw [allocateWithin, roundedSize_eq low high]
  dsimp only
  rw [int32_of_fits (by omega) (by omega), if_pos fits]

/-- The second call takes the block from the new chunk. -/
theorem Holds.takeNew (holds : arena.Holds given) (low : 0 ≤ size) (high : size ≤ 2 ^ 31 - 8)
    (enough : up8 size ≤ capacity) (small : capacity < 2 ^ 31) :
    ∃ next memory, (newChunk fresh arena capacity).bind (allocateWithin fresh 1 · (up8 size)) = some (next, memory) ∧
      next.Holds (⟨memory, false, List.replicate size.toNat 0⟩ :: given) := by
  obtain ⟨above, -, dvd⟩ := up8_spec size
  have bound : up8 size ≤ 2 ^ 31 - 8 := by
    rw [← up8_of_dvd (show (8 : ℤ) ∣ 2 ^ 31 - 8 by decide)]
    exact up8_mono high
  have made : Holds ⟨arena.heap.malloc fresh capacity.toNat, ⟨arena.heap.length, 0, capacity⟩ :: arena.chunks⟩ given :=
    ⟨holds.placed.newChunk (by omega) small, fun b mem => (holds.has b mem).malloc⟩
  obtain ⟨next, takes, kept⟩ := made.take low (by dsimp only; omega)
  refine ⟨next, _, ?_, kept⟩
  rw [newChunk, if_pos (by omega), Option.bind_some, allocateWithin_of_fits 0 (by omega) bound le_rfl ?_ small]
  · rw [up8_of_dvd dvd]
    exact takes
  · rw [up8_of_dvd dvd]
    dsimp only
    omega

theorem defaultCapacity_grows (high : size ≤ 2 ^ 30) : ∃ grown,
    StringBuilder.growUntil (up8 size) defaultCapacity = some grown ∧ up8 size ≤ grown ∧ grown < 2 ^ 31 := by
  have bound : up8 size ≤ 2 ^ 30 := by
    rw [← up8_of_dvd (show (8 : ℤ) ∣ 2 ^ 30 by decide)]
    exact up8_mono high
  obtain ⟨grown, grows, enough, small⟩ := @grows_of_doublings (up8 size) 2048 18 (bound.trans (by decide))
  exact ⟨grown, grows, enough, small⟩

/-- A call that finds room gives a block of zeros. -/
theorem Holds.allocate (holds : arena.Holds given) (low : 0 ≤ size) (room : arena.Room size) :
    ∃ next memory, arena.allocate fresh size = some (next, memory) ∧
      next.Holds (⟨memory, false, List.replicate size.toNat 0⟩ :: given) := by
  obtain ⟨high, room⟩ := room
  obtain ⟨heap, chunks⟩ := arena
  unfold Arena.allocate
  cases chunks with
  | nil =>
    obtain ⟨grown, grows, enough, small⟩ := defaultCapacity_grows room
    obtain ⟨next, memory, takes, kept⟩ := holds.takeNew low high enough small
    refine ⟨next, memory, ?_, kept⟩
    rw [allocateWithin, roundedSize_eq low high]
    dsimp only
    rw [grows]
    exact takes
  | cons chunk previous =>
    obtain ⟨cursor, -, small, -⟩ := holds.placed.cursors chunk List.mem_cons_self
    by_cases fits : chunk.cursor + up8 size ≤ chunk.capacity
    · obtain ⟨next, takes, kept⟩ := holds.take low fits
      refine ⟨next, _, ?_, kept⟩
      rw [allocateWithin_of_fits 1 low high cursor fits small]
      exact takes
    · obtain fits' | ⟨sum, doublings, enough⟩ := room
      · exact absurd fits' fits
      · obtain ⟨above, -, -⟩ := up8_spec size
        obtain ⟨grown, grows, enough, small'⟩ := grows_of_doublings enough
        obtain ⟨next, memory, takes, kept⟩ := holds.takeNew low high enough small'
        refine ⟨next, memory, ?_, kept⟩
        rw [allocateWithin, roundedSize_eq low high]
        dsimp only
        rw [int32_of_fits (n := chunk.cursor + up8 size) (by omega) (by omega), if_neg fits, grows]
        exact takes

end Allocating

section Storing

variable {arena : Arena} {heap : Heap} {given : List Block} {b : Block} {a old c new : Text} {fresh : FreshMemory}

theorem Block.write_cases (place : Pointer) (bytes : Text) (b : Block) :
    (¬b.Contains place bytes.length ∧ b.write place bytes = b) ∨
      (b.Contains place bytes.length ∧ ∃ before bytes' behind, b.bytes = before ++ (bytes' ++ behind) ∧
        bytes'.length = bytes.length ∧ place = b.place.add before.length ∧
        b.write place bytes = { b with bytes := before ++ (bytes ++ behind) }) := by
  unfold Block.write
  by_cases contains : b.Contains place bytes.length
  · refine .inr ⟨contains, b.bytes.take (place.offset - b.place.offset).toNat,
      (b.bytes.drop (place.offset - b.place.offset).toNat).take bytes.length,
      b.bytes.drop ((place.offset - b.place.offset).toNat + bytes.length), ?_, ?_, ?_, if_pos contains⟩
    · rw [← List.drop_drop, List.take_append_drop, List.take_append_drop]
    · obtain ⟨-, low, high⟩ := contains
      rw [List.length_take, List.length_drop]
      omega
    · obtain ⟨block, low, high⟩ := contains
      obtain ⟨name, offset⟩ := place
      rw [List.length_take]
      unfold Block.place Pointer.add at *
      dsimp only at *
      rw [block]
      congr 1
      omega
  · exact .inl ⟨contains, if_neg contains⟩

/-- A store into a block that was given changes that block and leaves the others. -/
theorem Holds.store (holds : arena.Holds given) (mem : b ∈ given) (parts : b.whole = a ++ (old ++ c))
    (same : new.length = old.length) :
    ∃ heap', arena.heap.storeAt (b.start.add a.length) new = some heap' ∧
      heap'.Has b.start (a ++ (new ++ c)) ∧ (∀ name, heap'.sizeAt name = arena.heap.sizeAt name) ∧
      ∀ d : Block, arena.heap.Has d.start d.whole → d.range.Apart b.range → heap'.Has d.start d.whole := by
  have has := holds.has b mem
  rw [parts] at has
  obtain ⟨heap', stores, stored⟩ := has.stored same
  refine ⟨heap', stores, stored, Heap.sizeAt_storeAt stores, ?_⟩
  intro d has apart
  apply has.of_apart stores
  have room := (Range.extent_spec d.range).1
  have room' := (Range.extent_spec b.range).1
  change (d.whole.length : ℤ) ≤ _ at room
  change (b.whole.length : ℤ) ≤ _ at room'
  rw [parts] at room'
  simp only [List.length_append] at room'
  unfold Range.Apart Heap.Apart at apart
  unfold Heap.Apart
  change d.start.block ≠ b.start.block ∨ d.start.offset + d.range.extent ≤ b.start.offset ∨
    b.start.offset + b.range.extent ≤ d.start.offset at apart
  unfold Pointer.add
  dsimp only
  omega

/-- The ranges of the blocks are apart. -/
theorem Holds.apart (holds : arena.Holds given) {b c : Block} (left : b ∈ given) (right : c ∈ given) (ne : b ≠ c) :
    b.range.Apart c.range := by
  have pairs := List.pairwise_map.mp holds.placed.apart
  have symmetric : Std.Symm fun b c : Block => b.range.Apart c.range := ⟨fun _ _ apart => Range.Apart.symm apart⟩
  exact pairs.forall left right ne

/-- The bytes of a block lie in its range. -/
theorem Block.Contains.within {place : Pointer} {count : ℕ} (contains : b.Contains place count) :
    place.block = b.start.block ∧ b.start.offset ≤ place.offset ∧
      place.offset + count ≤ b.start.offset + b.range.extent := by
  obtain ⟨block, low, high⟩ := contains
  have room := (Range.extent_spec b.range).1
  change (b.whole.length : ℤ) ≤ _ at room
  rw [Block.whole, List.length_append] at room
  unfold Block.place Pointer.add at low high
  dsimp only at low high
  omega

/-- A place of a block is in no other one. -/
theorem Holds.contains_unique (holds : arena.Holds given) {b c : Block} (left : b ∈ given) (right : c ∈ given)
    {place : Pointer} {count : ℕ} (positive : 0 < count) (in_left : b.Contains place count)
    (in_right : c.Contains place count) : b = c := by
  by_contra ne
  have apart := holds.apart left right ne
  have within := in_left.within
  have within' := in_right.within
  change b.start.block ≠ c.start.block ∨ b.start.offset + b.range.extent ≤ c.start.offset ∨
    c.start.offset + c.range.extent ≤ b.start.offset at apart
  omega

/-- What the program writes into a block is what the block holds then. -/
theorem Holds.write (holds : arena.Holds given) {place : Pointer} {bytes : Text} (some_bytes : bytes ≠ [])
    (mem : b ∈ given) (contains : b.Contains place bytes.length) :
    ∃ heap', arena.heap.storeAt place bytes = some heap' ∧
      Holds ⟨heap', arena.chunks⟩ (given.map (Block.write place bytes)) := by
  obtain ⟨outside, -⟩ | ⟨-, before, old, behind, parts, same, is_place, is_written⟩ := Block.write_cases place bytes b
  · exact absurd contains outside
  · have whole : b.whole = (b.front ++ before) ++ (old ++ behind) := by
      rw [Block.whole, parts]
      simp only [List.append_assoc]
    obtain ⟨heap', stores, stored, sizes, others⟩ := holds.store mem whole same.symm
    have start : b.start.add (b.front ++ before).length = place := by
      rw [is_place, Block.place, Pointer.add, Pointer.add, Pointer.add, List.length_append]
      push_cast
      simp only [Int.add_assoc]
    have length : (before ++ (bytes ++ behind)).length = b.bytes.length := by
      rw [parts]
      simp only [List.length_append]
      omega
    have written : (b.write place bytes).whole = b.front ++ before ++ (bytes ++ behind) := by
      rw [is_written, Block.whole, Block.front, Block.front, length]
      simp only [List.append_assoc]
    have unchanged (d : Block) (is : d ∈ given) (ne : d ≠ b) : d.write place bytes = d := by
      obtain ⟨-, keeps⟩ | ⟨in_other, -⟩ := Block.write_cases place bytes d
      · exact keeps
      · exact absurd (holds.contains_unique is mem (List.length_pos_of_ne_nil some_bytes) in_other contains) ne
    have ranges : (given.map (Block.write place bytes)).map Block.range = given.map Block.range := by
      rw [List.map_map]
      apply List.map_congr_left
      intro d is
      by_cases self : d = b
      · subst self
        have start_same : (d.write place bytes).start = d.start := by rw [is_written]
        change Range.mk _ _ = Range.mk _ _
        rw [written, start_same, whole]
        simp only [List.length_append]
        rw [same]
      · exact congrArg Block.range (unchanged d is self)
    rw [start] at stores
    refine ⟨heap', stores, ?_, ?_⟩
    · rw [ranges]
      exact holds.placed.store sizes
    · intro d is
      obtain ⟨d, is', rfl⟩ := List.mem_map.mp is
      by_cases self : d = b
      · subst self
        have start_same : (d.write place bytes).start = d.start := by rw [is_written]
        rw [written, start_same]
        exact stored
      · rw [unchanged d is' self]
        exact others d (holds.has d is') (holds.apart is' mem self)

end Storing

section Resizing

variable {arena : Arena} {given : List Block} {b b' : Block} {a old c new : Text} {fresh : FreshMemory} {size : ℤ}

@[simp] theorem add_zero_pointer (p : Pointer) : p.add 0 = p := by
  rw [Pointer.add, Int.add_zero]

@[simp] theorem add_add_pointer (p : Pointer) (n m : ℤ) : (p.add n).add m = p.add (n + m) := by
  rw [Pointer.add, Pointer.add, Pointer.add, Int.add_assoc]

/-- The newest block is changed. -/
theorem Holds.storeNewest (holds : arena.Holds (b :: given)) (parts : b.whole = a ++ (old ++ c))
    (same : new.length = old.length) (start : b'.start = b.start) (changed : b'.whole = a ++ (new ++ c)) :
    ∃ heap', arena.heap.storeAt (b.start.add a.length) new = some heap' ∧
      Holds ⟨heap', arena.chunks⟩ (b' :: given) := by
  obtain ⟨heap', stores, stored, sizes, others⟩ := holds.store List.mem_cons_self parts same
  have ranges : (b' :: given).map Block.range = (b :: given).map Block.range := by
    rw [List.map_cons, List.map_cons]
    congr 1
    rw [Block.range, Block.range, start, changed, parts]
    simp only [List.length_append, same]
  refine ⟨heap', stores, ?_, ?_⟩
  · rw [ranges]
    exact holds.placed.store sizes
  · intro d mem
    obtain rfl | mem := List.mem_cons.mp mem
    · rw [start, changed]
      exact stored
    · have pairs := holds.placed.apart
      rw [List.map_cons, List.pairwise_cons] at pairs
      exact others d (holds.has d (List.mem_cons_of_mem _ mem)) (pairs.1 _ (List.mem_map_of_mem mem)).symm

/-- Blocks are smaller than 2 GiB. -/
theorem Holds.small (holds : arena.Holds given) (mem : b ∈ given) : (b.bytes.length : ℤ) < 2 ^ 31 := by
  obtain ⟨chunk, is_chunk, -, low, -, high⟩ := holds.placed.inside _ (List.mem_map_of_mem mem)
  obtain ⟨-, le, small, -⟩ := holds.placed.cursors chunk is_chunk
  have room := (Range.extent_spec b.range).1
  change (b.whole.length : ℤ) ≤ _ at room
  rw [Block.whole, List.length_append] at room
  omega

theorem Block.place_of_sized (sized : b.sized = true) : b.place = b.start.add 8 := by
  rw [Block.place, Block.front, if_pos sized, length_littleEndian]
  rfl

/-- The size in front of a block is that of its bytes. -/
theorem Holds.header (holds : arena.Holds given) (mem : b ∈ given) (sized : b.sized = true) :
    header arena.heap b.place = some (b.bytes.length : ℤ) := by
  have has := (holds.has b mem).front.load
  have small := holds.small mem
  rw [Block.front, if_pos sized, length_littleEndian] at has
  have fits : (b.bytes.length : ℤ).bmod (256 ^ 8) = b.bytes.length := by
    rw [Int.bmod_eq_of_le (by omega) (by omega)]
  unfold Arena.header
  rw [Block.place_of_sized sized, add_add_pointer]
  change (arena.heap.load (b.start.add 0) 8).map readSigned = _
  rw [add_zero_pointer]
  change arena.heap.load b.start 8 = _ at has
  rw [has, Option.map_some, readSigned_littleEndian, fits]

theorem Holds.load (holds : arena.Holds given) (mem : b ∈ given) (count : ℕ) :
    arena.heap.load b.place (b.bytes.take count).length = some (b.bytes.take count) := by
  have has := (holds.has b mem).back
  rw [← List.take_append_drop count b.bytes] at has
  exact has.front.load

/-- The block that is resized is one that was given. -/
theorem oldBytes_some {memory : Pointer} (is : ∃ b ∈ given, b.sized ∧ b.place = memory) :
    ∃ b ∈ given, b.sized = true ∧ b.place = memory ∧ oldBytes given (some memory) = b.bytes := by
  obtain ⟨b, mem, sized, place⟩ := is
  unfold oldBytes
  cases found : given.find? fun b => b.sized ∧ b.place = memory with
  | none =>
    have no := List.find?_eq_none.mp found b mem
    simp [sized, place] at no
  | some d =>
    have is := List.find?_some found
    rw [decide_eq_true_eq] at is
    refine ⟨d, List.mem_of_find?_eq_some found, is.1, is.2, ?_⟩
    dsimp only
    rw [found]
    rfl

/-- A resized block holds what fits of the old one, and zeros. -/
theorem Holds.resize (holds : arena.Holds given) {memory : Option Pointer} (positive : 0 < size)
    (room : arena.Room (size + 8)) (is : ∀ old ∈ memory, ∃ b ∈ given, b.sized ∧ b.place = old) :
    ∃ next result, arena.arenaResize fresh memory size = some (next, some result) ∧
      next.Holds (⟨result.add (-8), true, resizedBytes (oldBytes given memory) size.toNat⟩ :: given) := by
  have high := room.1
  have natural : (size.toNat : ℤ) = size := Int.toNat_of_nonneg (by omega)
  have asked : int32 (int32 size + 8) = size + 8 := by
    rw [int32_add_int32, int32_of_fits (by omega) (by omega)]
  obtain ⟨next, block, allocates, kept⟩ := @Holds.allocate arena given fresh (size + 8) holds (by omega) room
  obtain ⟨heap, stores, headed⟩ := @Holds.storeNewest next given
    ⟨block, false, List.replicate (size + 8).toNat 0⟩ ⟨block, true, List.replicate size.toNat 0⟩ []
    (List.replicate 8 0) (List.replicate size.toNat 0) (littleEndian 8 size) kept
    (by
      rw [Block.whole, Block.front, if_neg (by simp), List.nil_append, List.nil_append,
        List.replicate_append_replicate]
      change List.replicate (size + 8).toNat (0 : BitVec 8) = _
      congr 1
      omega)
    (by rw [length_littleEndian, List.length_replicate]) rfl
    (by rw [Block.whole, Block.front, if_pos rfl, List.length_replicate, natural, List.nil_append])
  rw [List.length_nil, Nat.cast_zero, add_zero_pointer] at stores
  unfold arenaResize
  rw [if_neg (by omega), asked, allocates]
  change ∃ next' result, (next.heap.storeAt block (littleEndian 8 size)).bind _ = _ ∧ _
  rw [stores, Option.bind_some]
  cases memory with
  | none =>
    refine ⟨_, _, rfl, ?_⟩
    rw [add_add_pointer]
    change Holds _ (⟨block.add 0, true, _⟩ :: given)
    rw [add_zero_pointer]
    simpa [resizedBytes, oldBytes] using headed
  | some memory =>
    obtain ⟨b, mem, sized, place, bytes⟩ := oldBytes_some (is memory rfl)
    have reads := headed.header (List.mem_cons_of_mem _ mem) sized
    have loads := headed.load (List.mem_cons_of_mem _ mem) size.toNat
    have small := headed.small (List.mem_cons_of_mem _ mem)
    have count : int32 (min (b.bytes.length : ℤ) size) = (b.bytes.take size.toNat).length := by
      rw [List.length_take, int32_of_fits (by omega) (by omega)]
      omega
    have total : (b.bytes.take size.toNat).length + (size.toNat - b.bytes.length) = size.toNat := by
      rw [List.length_take]
      omega
    obtain ⟨heap', copies, final⟩ := @Holds.storeNewest ⟨heap, next.chunks⟩ given
      ⟨block, true, List.replicate size.toNat 0⟩ ⟨block, true, resizedBytes b.bytes size.toNat⟩ (littleEndian 8 size)
      (List.replicate (b.bytes.take size.toNat).length 0) (List.replicate (size.toNat - b.bytes.length) 0)
      (b.bytes.take size.toNat) headed
      (by
        rw [Block.whole, Block.front, if_pos rfl, List.length_replicate, natural, List.replicate_append_replicate,
          total])
      (by rw [List.length_replicate]) rfl
      (by
        have length : (resizedBytes b.bytes size.toNat).length = size.toNat := by
          rw [resizedBytes, List.length_append, List.length_take, List.length_replicate]
          omega
        rw [Block.whole, Block.front, if_pos rfl, length, natural, resizedBytes])
    refine ⟨⟨heap', next.chunks⟩, block.add 8, ?_, ?_⟩
    · dsimp only
      rw [← place, reads, Option.bind_eq_bind, Option.bind_some, count, loads]
      rw [length_littleEndian] at copies
      change (heap.storeAt (block.add 8) (b.bytes.take size.toNat)).bind _ = _
      rw [show heap.storeAt (block.add 8) (b.bytes.take size.toNat) = some heap' from copies, Option.bind_some]
    · rw [add_add_pointer, bytes]
      change Holds _ (⟨block.add 0, true, _⟩ :: given)
      rw [add_zero_pointer]
      exact final

end Resizing

section Running

variable {arena : Arena} {given : List Block} {fresh : FreshMemory}

theorem usedBytes_eq (given : List Block) : ((given.map Block.range).map Range.extent).sum = usedBytes given := by
  rw [List.map_map]
  rfl

/-- An operation that finds its room ends, and gives what it has to. -/
theorem Holds.step (holds : arena.Holds given) {op : Operation} (proper : Proper given op)
    (room : arena.HasRoom given op) :
    ∃ next result, arena.step fresh op = some (next, result) ∧ Gives given op result ∧
      next.Holds (after given op result) := by
  cases op with
  | allocate size =>
    obtain ⟨next, memory, allocates, kept⟩ := @Holds.allocate arena given fresh size holds proper.1 room
    exact ⟨next, _, by rw [Arena.step, allocates]; rfl, ⟨memory, rfl⟩, kept⟩
  | resize memory size =>
    obtain ⟨low, -, is⟩ := proper
    by_cases zero : size = 0
    · refine ⟨arena, .place none, by rw [Arena.step, arenaResize, if_pos zero]; rfl, ?_, holds⟩
      rw [Gives, if_pos zero]
    · obtain ⟨next, result, resizes, kept⟩ := @Holds.resize arena given fresh size holds memory (by omega) (room zero) is
      refine ⟨next, .place (some result), by rw [Arena.step, resizes]; rfl, ?_, kept⟩
      rw [Gives, if_neg zero]
      exact ⟨result, rfl⟩
  | write place bytes =>
    obtain ⟨some_bytes, b, mem, contains⟩ := proper
    obtain ⟨heap', stores, kept⟩ := holds.write some_bytes mem contains
    exact ⟨_, _, by rw [Arena.step, stores]; rfl, rfl, kept⟩
  | clear => exact ⟨arena.clear, _, rfl, rfl, holds.placed.clear, by simp [after]⟩
  | free => exact ⟨arena.free, _, rfl, rfl, ⟨by simp [Arena.free], by simp [Arena.free], by simp [Arena.free],
      by simp [after], .nil, by simp [Arena.free, after]⟩, by simp [after]⟩
  | used =>
    have used := holds.placed.used_eq ((usedBytes_eq given).trans_lt room)
    rw [usedBytes_eq] at used
    exact ⟨arena, _, rfl, congrArg Result.count used, holds⟩

/-- A condition on each operation of a run, in the state that it finds. -/
def Throughout (condition : Arena → List Block → Operation → Prop) (arena : Arena) (given : List Block) :
    List (FreshMemory × Operation) → Prop
  | [] => True
  | (fresh, op) :: ops => condition arena given op ∧
    match arena.step fresh op with
    | some (next, result) => next.Throughout condition (after given op result) ops
    | none => True

/-- In a run, each operation ends and gives what it has to, and the blocks that were given hold their bytes. -/
def KeepsBlocks (arena : Arena) (given : List Block) : List (FreshMemory × Operation) → Prop
  | [] => True
  | (fresh, op) :: ops => ∃ next result, arena.step fresh op = some (next, result) ∧ Gives given op result ∧
    next.Holds (after given op result) ∧ next.KeepsBlocks (after given op result) ops

/-- An operation meets the condition. -/
def Meets (arena : Arena) (given : List Block) (op : Operation) : Prop := Proper given op ∧ arena.HasRoom given op

/-- The bytes that were asked for since the arena was cleared are below 2 GiB. -/
def AsksLittle (_ : Arena) (given : List Block) (op : Operation) : Prop :=
  Proper given op ∧
    (given.map fun b => (b.bytes.length : ℤ)).sum +
      (match op with | .allocate size => size | .resize _ size => size | _ => 0) < 2 ^ 31

theorem Holds.keepsBlocks (holds : arena.Holds given) {ops : List (FreshMemory × Operation)}
    (meets : arena.Throughout Meets given ops) : arena.KeepsBlocks given ops := by
  induction ops generalizing arena given with
  | nil => trivial
  | cons op ops ih =>
    obtain ⟨fresh, op⟩ := op
    obtain ⟨⟨proper, room⟩, others⟩ := meets
    obtain ⟨next, result, steps, gives, kept⟩ := @Holds.step arena given fresh holds op proper room
    rw [steps] at others
    exact ⟨next, result, steps, gives, kept, ih kept others⟩

/-- The zero value, or `newArena` of a capacity. -/
def start (fresh : FreshMemory) (heap : Heap) : Option ℤ → Option Arena
  | none => some ⟨heap, []⟩
  | some capacity => newArena fresh heap capacity

theorem holds_of_start {heap : Heap} {capacity : Option ℤ} (ints : ∀ n ∈ capacity, 0 ≤ n ∧ n < 2 ^ 31)
    (starts : start fresh heap capacity = some arena) : arena.Holds [] := by
  have empty : Placed ⟨heap, []⟩ [] := ⟨.nil, by simp, by simp, by simp, .nil, rfl⟩
  cases capacity with
  | none =>
    cases starts
    exact ⟨empty, by simp⟩
  | some capacity =>
    obtain ⟨low, high⟩ := ints capacity rfl
    rw [start, newArena, newChunk, if_pos low] at starts
    cases starts
    exact ⟨empty.newChunk low high, by simp⟩

end Running

/-- In a run whose blocks find room, every operation ends and the blocks are kept. -/
theorem run_keepsBlocks {fresh : FreshMemory} {heap : Heap} {capacity : Option ℤ} {arena : Arena}
    (ints : ∀ n ∈ capacity, 0 ≤ n ∧ n < 2 ^ 31) (starts : start fresh heap capacity = some arena)
    (ops : List (FreshMemory × Operation)) (meets : arena.Throughout Meets [] ops) : arena.KeepsBlocks [] ops :=
  (holds_of_start ints starts).keepsBlocks meets

/-- A block of five bytes in a chunk of 32, of which two are written. -/
theorem run_keepsBlocks_of_five : (⟨[some (List.replicate 32 7)], [⟨0, 0, 32⟩]⟩ : Arena).KeepsBlocks []
    [(fun _ _ => 7, .allocate 5), (fun _ _ => 7, .write ⟨0, 1⟩ [1, 2]), (fun _ _ => 7, .used)] :=
  @run_keepsBlocks (fun _ _ => 7) [] (some 32) _ (by simp) rfl _
    ⟨⟨⟨by decide, by decide⟩, ⟨by decide, .inl (by decide)⟩⟩,
      ⟨⟨by decide, ⟨_, List.mem_cons_self, by decide⟩⟩, trivial⟩, ⟨trivial, by unfold HasRoom; decide⟩, trivial⟩

/-- An arena of no bytes: its capacity stays 0 when it is doubled. -/
theorem run_not_keepsBlocks : ¬∀ (fresh : FreshMemory) (heap : Heap) (capacity : Option ℤ) (arena : Arena)
    (ops : List (FreshMemory × Operation)), (∀ n ∈ capacity, 0 ≤ n ∧ n < 2 ^ 31) →
    start fresh heap capacity = some arena → arena.Throughout AsksLittle [] ops → arena.KeepsBlocks [] ops := by
  intro all
  have never : Arena.step (fun _ _ => 0) ⟨[some []], [⟨0, 0, 0⟩]⟩ (.allocate 1) = none := by decide
  have run := all (fun _ _ => 0) [] (some 0) ⟨[some []], [⟨0, 0, 0⟩]⟩ [(fun _ _ => 0, .allocate 1)] (by simp) rfl
  obtain ⟨next, result, steps, -⟩ := run
    ⟨⟨⟨by decide, by decide⟩, by decide⟩, by rw [never]; trivial⟩
  rw [never] at steps
  cases steps

end Saad.Arena
