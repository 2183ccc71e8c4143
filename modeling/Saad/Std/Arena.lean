import Saad.General.Memory
import Saad.Std.Memory
import Saad.Std.StringBuilder

/-! # The heap

Blocks of memory under names that are never used twice. `Has` says which bytes a place of the heap holds;
its rules say what a new block, a store and a freed block leave of that.
-/

namespace Saad

/-- A place in a block of the heap. -/
structure Pointer where
  block : ℕ
  offset : ℤ
deriving DecidableEq

def Pointer.add (p : Pointer) (n : ℤ) : Pointer := { p with offset := p.offset + n }

/-- The blocks that were made, which are none when they are freed. -/
abbrev Heap := List (Option Text)

namespace Heap

section Definitions

def blockAt (heap : Heap) (name : ℕ) : Option Text := heap[name]?.join

def sizeAt (heap : Heap) (name : ℕ) : Option ℕ := (heap.blockAt name).map List.length

def malloc (fresh : FreshMemory) (heap : Heap) (size : ℕ) : Heap :=
  heap ++ [some ((List.range size).map (fresh size))]

def free (heap : Heap) (name : ℕ) : Heap := heap.set name none

def load (heap : Heap) (p : Pointer) (count : ℤ) : Option Text := do
  let block ← heap.blockAt p.block
  if 0 ≤ p.offset ∧ 0 ≤ count ∧ p.offset + count ≤ block.length then
    some ((block.drop p.offset.toNat).take count.toNat)
  else none

def storeAt (heap : Heap) (p : Pointer) (bytes : Text) : Option Heap := do
  let block ← heap.blockAt p.block
  let stored ← store block p.offset bytes
  some (heap.set p.block (some stored))

/-- The heap has the bytes at a place. -/
def Has (heap : Heap) (p : Pointer) (bytes : Text) : Prop :=
  ∃ before behind, heap.blockAt p.block = some (before ++ (bytes ++ behind)) ∧ p.offset = before.length

/-- Two ranges of the heap have no byte in common. -/
def Apart (p : Pointer) (n : ℤ) (q : Pointer) (m : ℤ) : Prop :=
  p.block ≠ q.block ∨ p.offset + n ≤ q.offset ∨ q.offset + m ≤ p.offset

end Definitions

section Blocks

variable {heap heap' : Heap} {name other size : ℕ} {fresh : FreshMemory}

theorem lt_of_blockAt {block : Text} (is : heap.blockAt name = some block) : name < heap.length := by
  by_contra outside
  rw [blockAt, List.getElem?_eq_none (by omega)] at is
  cases is

theorem lt_of_sizeAt (sizes : heap.sizeAt name = some size) : name < heap.length := by
  obtain ⟨block, is, -⟩ := Option.map_eq_some_iff.mp sizes
  exact lt_of_blockAt is

theorem blockAt_malloc (lt : name < heap.length) : (heap.malloc fresh size).blockAt name = heap.blockAt name := by
  rw [blockAt, blockAt, malloc, List.getElem?_append_left lt]

theorem blockAt_malloc_new : (heap.malloc fresh size).blockAt heap.length =
    some ((List.range size).map (fresh size)) := by
  rw [blockAt, malloc, List.getElem?_concat_length]
  rfl

theorem sizeAt_malloc_new : (heap.malloc fresh size).sizeAt heap.length = some size := by
  rw [sizeAt, blockAt_malloc_new]
  simp

theorem sizeAt_malloc {count : ℕ} (sizes : heap.sizeAt name = some count) :
    (heap.malloc fresh size).sizeAt name = some count := by
  rw [sizeAt, blockAt_malloc (lt_of_sizeAt sizes)]
  exact sizes

theorem blockAt_free (ne : name ≠ other) : (heap.free other).blockAt name = heap.blockAt name := by
  rw [blockAt, blockAt, free, List.getElem?_set_ne (Ne.symm ne)]

theorem sizeAt_free (ne : name ≠ other) : (heap.free other).sizeAt name = heap.sizeAt name := by
  rw [sizeAt, sizeAt, blockAt_free ne]

end Blocks

section Places

variable {heap heap' : Heap} {p q : Pointer} {a b c bytes new : Text} {n m : ℤ} {size : ℕ}
  {fresh : FreshMemory}

theorem Apart.symm (apart : Apart p n q m) : Apart q m p n := by
  unfold Apart at *
  omega

/-- What a store changes: one block, which keeps its size. -/
theorem storeAt_cases (stores : heap.storeAt p new = some heap') : ∃ block stored, heap.blockAt p.block = some block ∧
    store block p.offset new = some stored ∧ heap'.blockAt p.block = some stored ∧
    ∀ name ≠ p.block, heap'.blockAt name = heap.blockAt name := by
  obtain ⟨block, is_block, stores⟩ := Option.bind_eq_some_iff.mp stores
  obtain ⟨stored, is_stored, stores⟩ := Option.bind_eq_some_iff.mp stores
  cases stores
  have lt : p.block < heap.length := by
    apply lt_of_blockAt is_block
  refine ⟨block, stored, is_block, is_stored, ?_, ?_⟩
  · rw [blockAt, List.getElem?_set_self lt]
    rfl
  · intro name ne
    rw [blockAt, blockAt, List.getElem?_set_ne (Ne.symm ne)]

theorem sizeAt_storeAt (stores : heap.storeAt p new = some heap') (name : ℕ) : heap'.sizeAt name = heap.sizeAt name := by
  obtain ⟨block, stored, is_block, is_stored, same, others⟩ := storeAt_cases stores
  by_cases is : name = p.block
  · rw [is, sizeAt, sizeAt, is_block, same]
    exact congrArg some (length_of_store is_stored)
  · rw [sizeAt, sizeAt, others name is]

/-- There is room for a store inside of a block. -/
theorem exists_storeAt (sizes : heap.sizeAt p.block = some size) (low : 0 ≤ p.offset)
    (inside : p.offset + new.length ≤ size) : ∃ heap', heap.storeAt p new = some heap' ∧ heap'.Has p new := by
  obtain ⟨block, is_block, length⟩ := Option.map_eq_some_iff.mp sizes
  have stores : heap.storeAt p new = some (heap.set p.block
      (some (block.take p.offset.toNat ++ (new ++ block.drop (p.offset.toNat + new.length))))) := by
    rw [storeAt, is_block, Option.bind_eq_bind, Option.bind_some, store, if_pos (by omega)]
    rfl
  refine ⟨_, stores, block.take p.offset.toNat, block.drop (p.offset.toNat + new.length), ?_, ?_⟩
  · rw [blockAt, List.getElem?_set_self (lt_of_sizeAt sizes)]
    rfl
  · rw [List.length_take]
    omega

theorem Has.load (has : heap.Has p bytes) : heap.load p bytes.length = some bytes := by
  obtain ⟨before, behind, block, offset⟩ := has
  rw [Heap.load, block, Option.bind_eq_bind, Option.bind_some, if_pos]
  · rw [offset, Int.toNat_natCast, Int.toNat_natCast, List.drop_left, List.take_left]
  · simp only [List.length_append]
    omega

/-- A part of the bytes. -/
theorem Has.part (has : heap.Has p (a ++ (b ++ c))) : heap.Has (p.add a.length) b := by
  obtain ⟨before, behind, block, offset⟩ := has
  refine ⟨before ++ a, c ++ behind, ?_, ?_⟩
  · rw [Pointer.add, block]
    simp only [List.append_assoc]
  · rw [Pointer.add, offset, List.length_append]
    push_cast
    rfl

theorem Has.front (has : heap.Has p (a ++ b)) : heap.Has p a := by
  obtain ⟨before, behind, block, offset⟩ := has
  exact ⟨before, b ++ behind, by rw [block, List.append_assoc], offset⟩

theorem Has.back (has : heap.Has p (a ++ b)) : heap.Has (p.add a.length) b := by
  apply @Has.part heap p a b []
  rwa [List.append_nil]

/-- A store changes the part of the bytes that it is made to. -/
theorem Has.stored (has : heap.Has p (a ++ (b ++ c))) (same : new.length = b.length) :
    ∃ heap', heap.storeAt (p.add a.length) new = some heap' ∧ heap'.Has p (a ++ (new ++ c)) := by
  obtain ⟨before, behind, block, offset⟩ := has
  have place : (p.add a.length).offset = ((before ++ a).length : ℕ) := by
    rw [Pointer.add, offset, List.length_append]
    push_cast
    rfl
  have parts : before ++ (a ++ (b ++ c) ++ behind) = before ++ a ++ (b ++ (c ++ behind)) := by
    simp only [List.append_assoc]
  have lt : p.block < heap.length := by
    apply lt_of_blockAt block
  have is_stored := @store_append (before ++ a) (b ++ (c ++ behind)) new (by rw [List.length_append]; omega)
  refine ⟨heap.set p.block (some (before ++ a ++ (new ++ (b ++ (c ++ behind)).drop new.length))), ?_, before, behind,
    ?_, offset⟩
  · rw [storeAt, place]
    change (heap.blockAt p.block).bind _ = _
    rw [block, Option.bind_some, parts, is_stored]
    rfl
  · rw [blockAt, List.getElem?_set_self lt, same, List.drop_left]
    simp only [List.append_assoc]
    rfl

/-- A store elsewhere leaves the bytes. -/
theorem Has.of_apart (has : heap.Has p bytes) (stores : heap.storeAt q new = some heap')
    (apart : Apart p bytes.length q new.length) : heap'.Has p bytes := by
  obtain ⟨old, stored, is_block, is_stored, same, others⟩ := storeAt_cases stores
  obtain ⟨before, behind, block, offset⟩ := has
  by_cases ne : p.block = q.block
  · have parts : old = before ++ (bytes ++ behind) := by
      rw [ne, is_block] at block
      exact Option.some.inj block
    unfold store at is_stored
    split at is_stored
    · next inside =>
      cases is_stored
      rw [parts] at same inside
      obtain off | left | right := apart
      · exact absurd ne off
      · refine ⟨before, behind.take (q.offset.toNat - before.length - bytes.length) ++
          (new ++ (before ++ (bytes ++ behind)).drop (q.offset.toNat + new.length)), ?_, offset⟩
        rw [ne, same, List.take_append, List.take_append, List.take_of_length_le (by omega),
          List.take_of_length_le (l := bytes) (by omega)]
        simp only [List.append_assoc]
      · refine ⟨before.take q.offset.toNat ++ (new ++ before.drop (q.offset.toNat + new.length)), behind, ?_, ?_⟩
        · rw [ne, same, List.take_append_of_le_length (by omega), List.drop_append_of_le_length (by omega)]
          simp only [List.append_assoc]
        · simp only [List.length_append, List.length_take, List.length_drop]
          omega
    · cases is_stored
  · exact ⟨before, behind, by rw [others _ ne, block], offset⟩

theorem Has.malloc (has : heap.Has p bytes) : (heap.malloc fresh size).Has p bytes := by
  obtain ⟨before, behind, block, offset⟩ := has
  have lt : p.block < heap.length := by
    apply lt_of_blockAt block
  exact ⟨before, behind, by rw [blockAt_malloc lt, block], offset⟩

end Places

end Heap

end Saad

/-! # Arenas

The functions of `mem.Arena` on the heap that it takes its chunks from. Each gives none when it reads or
writes outside of a block, when an assertion fails, or when a loop doesn't end.
-/

namespace Saad

open General

/-- `Chunk`, with the name of its memory. -/
structure Chunk where
  data : ℕ
  cursor : ℤ
  capacity : ℤ
deriving DecidableEq

/-- `Arena` with the heap: the current chunk, and behind it those before it. -/
structure Arena where
  heap : Heap := []
  chunks : List Chunk := []
deriving DecidableEq

namespace Arena

section Definitions

variable (fresh : FreshMemory)

def defaultCapacity : ℤ := 4096

/-- Puts a new chunk in front of the others. -/
def newChunk (arena : Arena) (capacity : ℤ) : Option Arena :=
  if 0 ≤ capacity then
    some ⟨arena.heap.malloc fresh capacity.toNat, ⟨arena.heap.length, 0, capacity⟩ :: arena.chunks⟩
  else none

def newArena (heap : Heap) (capacity : ℤ) : Option Arena := newChunk fresh ⟨heap, []⟩ capacity

/-- The size as a multiple of 8 bytes. -/
def roundedSize (size : ℤ) : ℤ := (int32 (size + 7)).tdiv 8 * 8

/-- The block at the cursor of the chunk, which is zeroed. -/
def takeBlock (heap : Heap) (chunk : Chunk) (previous : List Chunk) (size : ℤ) : Option (Arena × Pointer) := do
  let place : Pointer := ⟨chunk.data, chunk.cursor⟩
  if 0 ≤ size then
    let heap ← heap.storeAt place (List.replicate size.toNat 0)
    some (⟨heap, { chunk with cursor := int32 (chunk.cursor + size) } :: previous⟩, place)
  else none

/-- `allocate`, which calls itself again as long as it makes a new chunk. -/
def allocateWithin : ℕ → Arena → ℤ → Option (Arena × Pointer)
  | 0, _, _ => none
  | fuel + 1, arena, asked => do
    let size := roundedSize asked
    match arena.chunks with
    | [] =>
      let capacity ← StringBuilder.growUntil size defaultCapacity
      let arena ← newChunk fresh arena capacity
      allocateWithin fuel arena size
    | chunk :: previous =>
      if int32 (chunk.cursor + size) ≤ chunk.capacity then takeBlock arena.heap chunk previous size
      else
        let capacity ← StringBuilder.growUntil size (int32 (chunk.capacity * 2))
        let arena ← newChunk fresh arena capacity
        allocateWithin fuel arena size

/-- A new chunk has room for the block, so there are never more than two calls. -/
def allocate (arena : Arena) (size : ℤ) : Option (Arena × Pointer) := allocateWithin fresh 2 arena size

/-- The number in the 8 bytes in front of a block of the allocator. -/
def header (heap : Heap) (memory : Pointer) : Option ℤ := (heap.load (memory.add (-8)) 8).map readSigned

/-- `arenaResize`: a block with its size in front, which starts with what the old one holds. -/
def arenaResize (arena : Arena) (memory : Option Pointer) (size : ℤ) : Option (Arena × Option Pointer) :=
  if size = 0 then some (arena, none)
  else do
    let (arena, block) ← arena.allocate fresh (int32 (int32 size + 8))
    let heap ← arena.heap.storeAt block (littleEndian 8 size)
    let result := block.add 8
    match memory with
    | none => some (⟨heap, arena.chunks⟩, some result)
    | some memory =>
      let oldSize ← header heap memory
      let bytes ← heap.load memory (int32 (min oldSize size))
      let heap ← heap.storeAt result bytes
      some (⟨heap, arena.chunks⟩, some result)

/-- Keeps the newest chunk only, with all of its memory free to use. -/
def clear (arena : Arena) : Arena :=
  match arena.chunks with
  | [] => arena
  | chunk :: previous =>
    ⟨previous.foldl (fun heap chunk => heap.free chunk.data) arena.heap, [{ chunk with cursor := 0 }]⟩

def free (arena : Arena) : Arena := ⟨arena.chunks.foldl (fun heap chunk => heap.free chunk.data) arena.heap, []⟩

def used (arena : Arena) : ℤ := arena.chunks.foldl (fun total chunk => int32 (total + chunk.cursor)) 0

end Definitions

section Operations

/-- What is done with an arena, and with the blocks that it gave. -/
inductive Operation where
  | allocate (size : ℤ)
  | resize (memory : Option Pointer) (size : ℤ)
  | write (place : Pointer) (bytes : Text)
  | clear
  | free
  | used

inductive Result where
  | done
  | place (memory : Option Pointer)
  | count (bytes : ℤ)
deriving DecidableEq

def step (fresh : FreshMemory) (arena : Arena) : Operation → Option (Arena × Result)
  | .allocate size => (arena.allocate fresh size).map fun (arena, memory) => (arena, .place (some memory))
  | .resize memory size => (arena.arenaResize fresh memory size).map fun (arena, memory) => (arena, .place memory)
  | .write place bytes => (arena.heap.storeAt place bytes).map fun heap => (⟨heap, arena.chunks⟩, .done)
  | .clear => some (arena.clear, .done)
  | .free => some (arena.free, .done)
  | .used => some (arena, .count arena.used)

end Operations

end Arena

end Saad
