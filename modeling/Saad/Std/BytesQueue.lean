import Saad.Std.BytesCopies

/-! # A buffer of bytes is a queue

The memory is the bytes that are read, those that aren't, and room. Whatever is done with the buffer, it
gives what a queue gives, as long as it finds its room in 1 GiB.
-/

namespace Saad.ByteBuffer

open General

section Queue

/-- What an operation gives on a queue, and the queue behind it. The room is what the buffer gives. -/
def queueStep (count : ℤ) (queue : Text) : Operation → Result × Text
  | .reserve _ => (.done, queue)
  | .compact => (.done, queue)
  | .write (.text bytes) => (.done, queue ++ bytes)
  | .write (.view _ _) => (.done, queue)
  | .writeByte byte => (.done, queue ++ [byte])
  | .fill _ source => (.room count, queue ++ source.take count.toNat)
  | .read n => if n ≤ queue.length then (.text (some (queue.take n.toNat)), queue.drop n.toNat) else (.text none, queue)
  | .readUntil separator =>
    match indexOf queue separator with
    | some place => (.text (some (queue.take place)), queue.drop (place + separator.length))
    | none => (.text none, queue)
  | .readLine =>
    match indexOf queue [10] with
    | some place => (.text (some (withoutReturn (queue.take place))), queue.drop (place + 1))
    | none => (.text none, queue)
  | .readByte => (.byte queue.head?, queue.tail)
  | .peekByte => (.byte queue.head?, queue)
  | .skip n => (.done, queue.drop n.toNat)
  | .clear => (.done, [])
  | .free => (.done, [])

/-- The bytes that an operation asks room for. -/
def Operation.extra : Operation → ℤ
  | reserve extra => extra
  | write source => source.count
  | writeByte _ => 1
  | fill size _ => size
  | _ => 0

/-- The numbers are ints, no view of the buffer is written, no separator is empty and nothing is skipped
backwards. -/
def Operation.Proper : Operation → Prop
  | reserve extra => -2 ^ 31 ≤ extra ∧ extra < 2 ^ 31
  | write (.text _) => True
  | write (.view _ _) => False
  | fill size _ => -2 ^ 31 ≤ size ∧ size < 2 ^ 31
  | read n => -2 ^ 31 ≤ n ∧ n < 2 ^ 31
  | readUntil separator => separator ≠ []
  | skip n => 0 ≤ n ∧ n < 2 ^ 31
  | _ => True

/-- No negative number of bytes is read. -/
def Operation.Forward : Operation → Prop
  | read n => 0 ≤ n
  | _ => True

/-- There is room for the bytes, behind the others or when the bytes that are read are dropped, or the
memory grows up to 1 GiB. -/
def Fits (b : ByteBuffer) (extra : ℤ) : Prop :=
  b.length + extra ≤ b.capacity ∨
    (0 < b.position ∧ b.length - b.position + extra ≤ b.capacity ∧ b.length + extra < 2 ^ 31) ∨
    b.length + extra ≤ 2 ^ 30

instance (b : ByteBuffer) (extra : ℤ) : Decidable (b.Fits extra) := inferInstanceAs (Decidable (_ ∨ _))

/-- The parts of the memory of a buffer. -/
structure Block (b : ByteBuffer) (before queue rest : Text) : Prop where
  data : b.data = some (before ++ (queue ++ rest))
  length : b.length = (before.length + queue.length : ℕ)
  position : b.position = before.length
  capacity : b.capacity = (before.length + queue.length + rest.length : ℕ)
  power : ∃ exponent, 6 ≤ exponent ∧ exponent ≤ 30 ∧ b.capacity = 2 ^ exponent

/-- The bytes of a buffer that aren't read are those of the queue. -/
def Represents (b : ByteBuffer) (queue : Text) : Prop :=
  (b = {} ∧ queue = []) ∨ ∃ before rest, b.Block before queue rest

end Queue

section Making

variable {fresh : FreshMemory} {b : ByteBuffer} {before queue rest bytes : Text} {extra : ℤ}

theorem Block.capacity_le (block : b.Block before queue rest) : b.capacity ≤ 2 ^ 30 := by
  obtain ⟨exponent, -, le, is⟩ := block.power
  rw [is]
  exact pow_le_pow_right₀ (by decide) le

/-- The lengths of the parts are small numbers. -/
theorem Block.small (block : b.Block before queue rest) : before.length + queue.length + rest.length ≤ 2 ^ 30 := by
  have le := block.capacity_le
  rw [block.capacity] at le
  exact_mod_cast le

theorem Block.bytesAt (block : b.Block before queue rest) : b.bytesAt before.length queue.length = some queue := by
  rw [ByteBuffer.bytesAt, block.data, Option.bind_eq_bind, Option.bind_some, if_pos]
  · simp
  · simp only [List.length_append]
    omega

theorem Block.left (block : b.Block before queue rest) : int32 (b.length - b.position) = queue.length := by
  have small := block.small
  rw [block.length, block.position]
  push_cast
  rw [int32_of_fits (by omega) (by omega)]
  omega

theorem Block.compact (block : b.Block before queue rest) : ∃ next copies rest',
    b.compact = some (next, copies) ∧ next.Block [] queue rest' ∧ next.capacity = b.capacity := by
  have left := block.left
  unfold ByteBuffer.compact
  by_cases front : b.position = 0
  · have none : before = [] := by
      rw [block.position] at front
      exact List.length_eq_zero_iff.mp (by omega)
    subst none
    exact ⟨b, [], rest, if_pos front, block, rfl⟩
  · rw [if_neg front, left]
    by_cases some_left : (queue.length : ℤ) > 0
    · have stores : b.storeAt 0 queue =
          some { b with data := some (queue ++ (before ++ (queue ++ rest)).drop queue.length) } := by
        have stored := @store_append [] (before ++ (queue ++ rest)) queue (by simp; omega)
        simp only [List.nil_append, List.length_nil, Nat.cast_zero] at stored
        rw [storeAt, block.data, Option.bind_eq_bind, Option.bind_some, stored]
        rfl
      have total : queue.length + ((before ++ (queue ++ rest)).drop queue.length).length =
          before.length + queue.length + rest.length := by
        simp only [List.length_drop, List.length_append]
        omega
      rw [if_pos some_left, block.position, block.bytesAt, Option.bind_eq_bind, Option.bind_some, stores]
      refine ⟨_, _, (before ++ (queue ++ rest)).drop queue.length, rfl, ⟨rfl, ?_, rfl, ?_, block.power⟩, rfl⟩
      · simp
      · simp only [List.length_nil, Nat.zero_add, total]
        exact block.capacity
    · have none : queue = [] := List.length_eq_zero_iff.mp (by omega)
      subst none
      rw [if_neg some_left]
      refine ⟨_, _, before ++ rest, rfl, ⟨block.data, rfl, rfl, ?_, block.power⟩, rfl⟩
      rw [block.capacity]
      simp

theorem first_capacity {exponent : ℕ} (ge : 6 ≤ exponent) (small : exponent < 30) :
    (if int32 ((2 : ℤ) ^ exponent * 2) < 64 then 64 else int32 ((2 : ℤ) ^ exponent * 2)) = 2 ^ (exponent + 1) := by
  have above : (64 : ℤ) ≤ 2 ^ (exponent + 1) :=
    (by decide : (64 : ℤ) = 2 ^ 6).le.trans (pow_le_pow_right₀ (by decide) (by omega))
  rw [StringBuilder.double_power small, if_neg (Int.not_lt.mpr above)]

theorem toNat_power (exponent : ℕ) : ((2 : ℤ) ^ exponent).toNat = 2 ^ exponent := by
  have cast : (2 : ℤ) ^ exponent = (2 ^ exponent : ℕ) := by
    push_cast
    rfl
  rw [cast, Int.toNat_natCast]

/-- Room is made behind the bytes. -/
theorem Represents.reserve (represents : b.Represents queue) (low : -2 ^ 31 ≤ extra)
    (fits : b.Fits extra) : ∃ next copies, b.reserve fresh extra = some (next, copies) ∧ next.Represents queue ∧
      extra ≤ next.capacity - next.length ∧ (0 < extra → next.data ≠ none) := by
  obtain ⟨rfl, rfl⟩ | ⟨before, rest, block⟩ := represents
  · have small : extra ≤ 2 ^ 30 := by
      change 0 + extra ≤ 0 ∨ ((0 : ℤ) < 0 ∧ (0 : ℤ) - 0 + extra ≤ 0 ∧ 0 + extra < 2 ^ 31) ∨ 0 + extra ≤ 2 ^ 30 at fits
      omega
    have sum : int32 (0 + extra) = extra := by
      rw [zero_add]
      exact int32_of_fits low (by omega)
    unfold ByteBuffer.reserve
    dsimp only
    rw [sum]
    split
    · next enough =>
      exact ⟨_, _, rfl, .inl ⟨rfl, rfl⟩, by simpa using enough, fun positive => absurd enough (by omega)⟩
    · next grows =>
      obtain ⟨last, ge, le, runs, enough⟩ := @StringBuilder.growUntil_of_fits 6 extra (by decide) (by omega)
      have first : (if int32 ((0 : ℤ) * 2) < 64 then 64 else int32 ((0 : ℤ) * 2)) = 2 ^ 6 := by decide
      rw [if_neg (by simp), first, runs]
      refine ⟨_, _, rfl, .inr ⟨[], resizedBlock fresh [] (2 ^ last), ⟨?_, rfl, rfl, ?_, last, ge, le, rfl⟩⟩, ?_, ?_⟩
      · rw [toNat_power]
        rfl
      · simp
      · simpa using enough
      · simp
  · have small := block.small
    have capacity_le := block.capacity_le
    have length := block.length
    have position := block.position
    have capacity := block.capacity
    unfold Fits at fits
    have sum : int32 (b.length + extra) = b.length + extra := int32_of_fits (by omega) (by omega)
    unfold ByteBuffer.reserve
    rw [sum]
    by_cases behind : b.length + extra ≤ b.capacity
    · rw [if_pos behind]
      exact ⟨b, [], rfl, .inr ⟨before, rest, block⟩, by omega, fun _ => by simp [block.data]⟩
    · have left : int32 (int32 (b.length - b.position) + extra) = queue.length + extra := by
        rw [block.left]
        exact int32_of_fits (by omega) (by omega)
      rw [if_neg behind, left]
      by_cases dropped : b.position > 0 ∧ queue.length + extra ≤ b.capacity
      · obtain ⟨next, copies, rest', compacts, moved, same⟩ := block.compact
        have moved_length := moved.length
        rw [if_pos dropped, compacts]
        refine ⟨next, copies, rfl, .inr ⟨[], rest', moved⟩, ?_, fun _ => by simp [moved.data]⟩
        rw [same, moved_length]
        simp only [List.length_nil, Nat.zero_add]
        omega
      · obtain ⟨exponent, ge, le, power⟩ := block.power
        have grow_small : exponent < 30 := by
          by_contra large
          obtain rfl : exponent = 30 := by omega
          omega
        obtain ⟨last, first_le, last_le, runs, enough⟩ :=
          @StringBuilder.growUntil_of_fits (exponent + 1) (b.length + extra) (by omega) (by omega)
        have powers : (2 : ℤ) ^ exponent ≤ 2 ^ last := pow_le_pow_right₀ (by decide) (by omega)
        have natural : (2 ^ exponent : ℕ) ≤ 2 ^ last := Nat.pow_le_pow_right (by decide) (by omega)
        have size : (before ++ (queue ++ rest)).length = 2 ^ exponent := by
          have both : ((before.length + queue.length + rest.length : ℕ) : ℤ) = (2 ^ exponent : ℕ) := by
            rw [← capacity, power]
            push_cast
            rfl
          simp only [List.length_append]
          omega
        obtain ⟨more, resized, more_length⟩ :=
          resizedBlock_of_le fresh (show (before ++ (queue ++ rest)).length ≤ 2 ^ last by omega)
        rw [if_neg dropped, power]
        dsimp only
        rw [first_capacity ge grow_small, runs]
        refine ⟨_, _, rfl, .inr ⟨before, rest ++ more, ⟨?_, length, position, ?_, last, by omega, last_le, rfl⟩⟩, ?_, ?_⟩
        · rw [toNat_power, block.data, Option.getD_some, resized]
          simp
        · simp only [List.length_append] at size more_length ⊢
          rw [more_length]
          have total : before.length + queue.length + (rest.length + (2 ^ last - (before.length + (queue.length +
              rest.length)))) = 2 ^ last := by omega
          rw [total]
          push_cast
          rfl
        · dsimp only
          omega
        · simp

/-- Bytes that there is room for become the last ones of the queue. -/
theorem Block.storeAt (block : b.Block before queue rest) (room : bytes.length ≤ rest.length) :
    ∃ next, b.storeAt b.length bytes = some next ∧ next.capacity = b.capacity ∧ next.length = b.length ∧
      ({ next with length := int32 (b.length + bytes.length) } : ByteBuffer).Block before (queue ++ bytes)
        (rest.drop bytes.length) := by
  have small := block.small
  have stored := @store_append (before ++ queue) rest bytes room
  rw [List.length_append, ← block.length] at stored
  refine ⟨{ b with data := some ((before ++ queue) ++ (bytes ++ rest.drop bytes.length)) }, ?_, rfl, rfl,
    ⟨by simp, ?_, block.position, ?_, block.power⟩⟩
  · rw [ByteBuffer.storeAt, block.data, Option.bind_eq_bind, Option.bind_some, ← List.append_assoc, stored]
    rfl
  · dsimp only
    rw [block.length, List.length_append]
    push_cast
    rw [int32_of_fits (by omega) (by omega)]
    omega
  · dsimp only
    rw [block.capacity, List.length_append, List.length_drop]
    omega

theorem Represents.block (represents : b.Represents queue) (memory : b.data ≠ none) :
    ∃ before rest, b.Block before queue rest := by
  obtain ⟨rfl, rfl⟩ | block := represents
  · exact absurd rfl memory
  · exact block

/-- What is written into the room is added to the queue. -/
theorem Represents.added {room : ℤ} (represents : b.Represents queue) (memory : b.data ≠ none)
    (enough : room ≤ b.capacity - b.length) (fits : bytes.length ≤ room) :
    ∃ next, b.storeAt b.length bytes = some next ∧ next.capacity = b.capacity ∧ next.length = b.length ∧
      b.length + bytes.length ≤ b.capacity ∧
      ({ next with length := int32 (b.length + bytes.length) } : ByteBuffer).Represents (queue ++ bytes) := by
  obtain ⟨before, rest, block⟩ := represents.block memory
  have length := block.length
  have capacity := block.capacity
  obtain ⟨next, stores, same, same_length, added⟩ := @Block.storeAt b before queue rest bytes block (by omega)
  exact ⟨next, stores, same, same_length, by omega, .inr ⟨before, _, added⟩⟩

end Making

section Reading

variable {fresh : FreshMemory} {b : ByteBuffer} {before queue rest separator : Text}

theorem Represents.length_le (represents : b.Represents queue) : queue.length ≤ 2 ^ 30 := by
  obtain ⟨rfl, rfl⟩ | ⟨before, rest, block⟩ := represents
  · decide
  · have small := block.small
    omega

theorem Represents.unread (represents : b.Represents queue) : b.unread = some queue := by
  obtain ⟨rfl, rfl⟩ | ⟨before, rest, block⟩ := represents
  · rfl
  · unfold ByteBuffer.unread
    rw [block.data]
    dsimp only
    rw [block.left, block.position, block.bytesAt]

theorem Represents.available (represents : b.Represents queue) : b.available = queue.length := by
  obtain ⟨rfl, rfl⟩ | ⟨before, rest, block⟩ := represents
  · rfl
  · exact block.left

/-- Bytes at the front of the queue are read. -/
theorem Represents.advance (represents : b.Represents queue) {n : ℕ} (le : n ≤ queue.length) {amount : ℤ}
    (is : amount = n) : ({ b with position := int32 (b.position + amount) } : ByteBuffer).Represents (queue.drop n) := by
  subst is
  obtain ⟨rfl, rfl⟩ | ⟨before, rest, block⟩ := represents
  · obtain rfl : n = 0 := by simpa using le
    exact .inl ⟨rfl, rfl⟩
  · have small := block.small
    refine .inr ⟨before ++ queue.take n, rest, ⟨?_, ?_, ?_, ?_, block.power⟩⟩
    · rw [block.data, List.append_assoc]
      congr 2
      rw [← List.append_assoc, List.take_append_drop]
    · dsimp only
      rw [block.length, List.length_append, List.length_take, List.length_drop]
      omega
    · dsimp only
      rw [block.position, List.length_append, List.length_take, int32_of_fits (by omega) (by omega)]
      omega
    · dsimp only
      rw [block.capacity, List.length_append, List.length_take, List.length_drop]
      omega

/-- The first bytes of a text. -/
theorem sliceText_front {s : Text} {n : ℕ} (le : n ≤ s.length) : sliceText s 0 n = some (s.take n) := by
  have slices := @sliceText_take s 0 n (Nat.zero_le _) le
  rwa [List.drop_zero, Nat.sub_zero] at slices

theorem Represents.read (represents : b.Represents queue) {n : ℤ} (not_negative : 0 ≤ n) :
    ∃ next, b.read n = some (next, if n ≤ queue.length then some (queue.take n.toNat) else none) ∧
      next.Represents (if n ≤ queue.length then queue.drop n.toNat else queue) := by
  unfold ByteBuffer.read
  rw [represents.available]
  by_cases all : n ≤ queue.length
  · obtain ⟨count, rfl⟩ := Int.eq_ofNat_of_zero_le not_negative
    have le : count ≤ queue.length := by omega
    rw [if_neg (by omega), if_pos all, if_pos all, represents.unread, Option.bind_eq_bind, Option.bind_some,
      sliceText_front le]
    exact ⟨_, rfl, represents.advance le rfl⟩
  · rw [if_pos (by omega), if_neg all, if_neg all]
    exact ⟨b, rfl, represents⟩

theorem Represents.readUntil (represents : b.Represents queue) (nonempty : separator ≠ []) :
    ∃ next found, b.readUntil separator = some (next, found) ∧
      match indexOf queue separator with
      | some place => found = some (queue.take place) ∧ next.Represents (queue.drop (place + separator.length))
      | none => found = none ∧ next.Represents queue := by
  have small := represents.length_le
  have searches := @indexOfInt_eq queue separator 0 nonempty (by omega)
  rw [List.drop_zero, ← indexOf_eq_scanFor nonempty] at searches
  unfold ByteBuffer.readUntil
  rw [represents.unread, Option.bind_eq_bind, Option.bind_some]
  change ∃ next found, (indexOfInt queue separator (0 : ℕ)).bind _ = some (next, found) ∧ _
  rw [searches, Option.bind_some]
  cases found : indexOf queue separator with
  | none => exact ⟨b, none, rfl, rfl, represents⟩
  | some place =>
    obtain ⟨-, fits⟩ := indexOf_fits found
    have sum : int32 (((0 + place : ℕ) : ℤ) + int32 separator.length) = (place + separator.length : ℕ) := by
      rw [int32_of_fits (n := (separator.length : ℤ)) (by omega) (by omega)]
      rw [int32_of_fits (by omega) (by omega)]
      omega
    dsimp only
    rw [if_neg (show ¬((0 + place : ℕ) : ℤ) < 0 by omega), sum, Nat.zero_add, sliceText_front (by omega),
      Option.bind_some]
    exact ⟨_, _, rfl, rfl, represents.advance fits rfl⟩

theorem Represents.peekByte (represents : b.Represents queue) : b.peekByte = some queue.head? := by
  unfold ByteBuffer.peekByte
  rw [represents.available]
  cases queue with
  | nil => rfl
  | cons byte queue =>
    obtain ⟨-, none⟩ | ⟨before, rest, block⟩ := represents
    · cases none
    · rw [if_neg (by rw [List.length_cons]; omega), block.data, block.position, Option.bind_eq_bind, Option.bind_some,
        List.cons_append, byteAt_append]
      rfl

theorem Represents.readByte (represents : b.Represents queue) :
    ∃ next, b.readByte = some (next, queue.head?) ∧ next.Represents queue.tail := by
  unfold ByteBuffer.readByte
  rw [represents.peekByte, Option.bind_eq_bind, Option.bind_some]
  cases queue with
  | nil => exact ⟨b, rfl, represents⟩
  | cons byte queue => exact ⟨_, rfl, represents.advance (n := 1) (by simp) rfl⟩

theorem Represents.skip (represents : b.Represents queue) {n : ℤ} (not_negative : 0 ≤ n) :
    (b.skip n).Represents (queue.drop n.toNat) := by
  unfold ByteBuffer.skip
  rw [represents.available]
  by_cases all : n > queue.length
  · rw [if_pos all, List.drop_of_length_le (by omega)]
    have last := represents.advance le_rfl rfl
    rwa [List.drop_length] at last
  · rw [if_neg all]
    exact represents.advance (by omega) (by omega)

theorem Represents.clear (represents : b.Represents queue) : b.clear.Represents [] := by
  obtain ⟨rfl, rfl⟩ | ⟨before, rest, block⟩ := represents
  · exact .inl ⟨rfl, rfl⟩
  · refine .inr ⟨[], before ++ (queue ++ rest), ⟨block.data, rfl, rfl, ?_, block.power⟩⟩
    unfold ByteBuffer.clear
    dsimp only
    rw [block.capacity]
    simp only [List.length_nil, List.length_append]
    omega

end Reading

section Running

variable {fresh : FreshMemory} {b : ByteBuffer} {queue bytes : Text}

/-- What is true of a buffer behind an operation. -/
structure Holds (b : ByteBuffer) (queue : Text) : Prop where
  unread : b.unread = some queue
  position : 0 ≤ b.position ∧ b.position ≤ b.length
  length : b.length ≤ b.capacity

theorem Represents.holds (represents : b.Represents queue) : b.Holds queue := by
  have bounds : (0 ≤ b.position ∧ b.position ≤ b.length) ∧ b.length ≤ b.capacity := by
    obtain ⟨rfl, rfl⟩ | ⟨before, rest, block⟩ := represents
    · exact ⟨⟨le_rfl, le_rfl⟩, le_rfl⟩
    · have length := block.length
      have position := block.position
      have capacity := block.capacity
      omega
  exact ⟨represents.unread, bounds.1, bounds.2⟩

/-- The room that was asked for is there. -/
def Asked (next : ByteBuffer) (count : ℤ) : Operation → Prop
  | .reserve extra => extra ≤ next.capacity - next.length
  | .fill size _ => size ≤ count
  | _ => True

theorem Represents.write (represents : b.Represents queue) (fits : b.Fits bytes.length) :
    ∃ next copies, b.write fresh (.text bytes) = some (next, copies) ∧ next.Represents (queue ++ bytes) := by
  unfold ByteBuffer.write ByteSource.count
  dsimp only
  by_cases none : bytes = []
  · subst none
    exact ⟨b, [], if_pos rfl, by rwa [List.append_nil]⟩
  · have positive := List.length_pos_of_ne_nil none
    have position := represents.holds.position
    have size : int32 bytes.length = bytes.length := by
      have capacity : b.capacity ≤ 2 ^ 30 := by
        obtain ⟨rfl, -⟩ | ⟨before, rest, block⟩ := represents
        · decide
        · exact block.capacity_le
      unfold Fits at fits
      exact int32_of_fits (by omega) (by omega)
    obtain ⟨reserved, copies, reserves, moved, enough, memory⟩ :=
      @Represents.reserve fresh b queue bytes.length represents (by omega) fits
    obtain ⟨next, stores, -, -, -, added⟩ := moved.added (memory (by omega)) enough le_rfl
    refine ⟨{ next with length := int32 (reserved.length + bytes.length) },
      copies ++ [⟨reserved.length, .none, bytes.length⟩], ?_, added⟩
    rw [if_neg (by omega), size, reserves]
    simp only [Option.bind_eq_bind, Option.bind_some, sourceBytes, stores]

theorem Represents.writeByte (represents : b.Represents queue) (byte : BitVec 8) (fits : b.Fits 1) :
    ∃ next copies, b.writeByte fresh byte = some (next, copies) ∧ next.Represents (queue ++ [byte]) := by
  obtain ⟨reserved, copies, reserves, moved, enough, memory⟩ :=
    @Represents.reserve fresh b queue 1 represents (by decide) fits
  obtain ⟨next, stores, -, -, -, added⟩ := @Represents.added reserved queue [byte] 1 moved (memory (by decide)) enough
    le_rfl
  refine ⟨{ next with length := int32 (reserved.length + 1) }, copies, ?_, added⟩
  unfold ByteBuffer.writeByte
  rw [reserves]
  simp only [Option.bind_eq_bind, Option.bind_some, stores]

theorem Represents.fill (represents : b.Represents queue) {size : ℤ} {source : Text} (low : -2 ^ 31 ≤ size)
    (fits : b.Fits size) : ∃ next count copies, b.fill fresh size source = some (next, count, copies) ∧
      size ≤ count ∧ next.Represents (queue ++ source.take count.toNat) := by
  obtain ⟨reserved, copies, reserves, moved, enough, memory⟩ :=
    @Represents.reserve fresh b queue size represents low fits
  have holds := moved.holds
  have capacity : reserved.capacity ≤ 2 ^ 30 := by
    obtain ⟨rfl, -⟩ | ⟨before, rest, block⟩ := moved
    · decide
    · exact block.capacity_le
  have count : int32 (reserved.capacity - reserved.length) = reserved.capacity - reserved.length := by
    obtain ⟨-, position, length⟩ := holds
    exact int32_of_fits (by omega) (by omega)
  unfold ByteBuffer.fill
  rw [reserves]
  simp only [Option.bind_eq_bind, Option.bind_some, count]
  by_cases none : source.take (reserved.capacity - reserved.length).toNat = []
  · refine ⟨reserved, _, copies, if_pos none, enough, ?_⟩
    rwa [none, List.append_nil]
  · have some_memory : reserved.data ≠ .none := by
      obtain ⟨rfl, -⟩ | ⟨before, rest, block⟩ := moved
      · exact absurd rfl none
      · simp [block.data]
    have shorter : ((source.take (reserved.capacity - reserved.length).toNat).length : ℤ) ≤
        reserved.capacity - reserved.length := by
      obtain ⟨-, position, length⟩ := holds
      rw [List.length_take]
      omega
    obtain ⟨next, stores, same, same_length, inside, added⟩ := moved.added some_memory le_rfl shorter
    have sum : int32 (reserved.length + (source.take (reserved.capacity - reserved.length).toNat).length) =
        reserved.length + (source.take (reserved.capacity - reserved.length).toNat).length := by
      obtain ⟨-, position, length⟩ := holds
      exact int32_of_fits (by omega) (by omega)
    refine ⟨_, _, copies, ?_, enough, added⟩
    rw [if_neg none, stores]
    simp only [Option.bind_some, same, same_length]
    rw [if_pos (by rw [sum]; exact inside)]

/-- An operation gives what it gives on the queue. -/
theorem Represents.step (represents : b.Represents queue) {op : Operation} (proper : op.Proper)
    (forward : op.Forward) (fits : b.Fits op.extra) :
    ∃ next result copies count, b.step fresh op = some (next, result, copies) ∧
      (queueStep count queue op).1 = result ∧ next.Represents (queueStep count queue op).2 ∧ next.Asked count op := by
  cases op with
  | reserve extra =>
    obtain ⟨next, copies, reserves, moved, enough, -⟩ :=
      @Represents.reserve fresh b queue extra represents proper.1 fits
    exact ⟨next, _, copies, 0, by rw [ByteBuffer.step, reserves]; rfl, rfl, moved, enough⟩
  | compact =>
    obtain ⟨rfl, rfl⟩ | ⟨before, rest, block⟩ := represents
    · exact ⟨{}, _, [], 0, rfl, rfl, .inl ⟨rfl, rfl⟩, trivial⟩
    · obtain ⟨next, copies, rest', compacts, moved, -⟩ := block.compact
      exact ⟨next, _, copies, 0, by rw [ByteBuffer.step, compacts]; rfl, rfl, .inr ⟨[], rest', moved⟩, trivial⟩
  | write source =>
    cases source with
    | text bytes =>
      obtain ⟨next, copies, writes, added⟩ := represents.write fits
      exact ⟨next, _, copies, 0, by rw [ByteBuffer.step, writes]; rfl, rfl, added, trivial⟩
    | view place count => exact absurd proper not_false
  | writeByte byte =>
    obtain ⟨next, copies, writes, added⟩ := represents.writeByte byte fits
    exact ⟨next, _, copies, 0, by rw [ByteBuffer.step, writes]; rfl, rfl, added, trivial⟩
  | fill size source =>
    obtain ⟨next, count, copies, fills, enough, added⟩ := represents.fill proper.1 fits
    exact ⟨next, _, copies, count, by rw [ByteBuffer.step, fills]; rfl, rfl, added, enough⟩
  | read n =>
    obtain ⟨next, reads, advanced⟩ := represents.read forward
    refine ⟨next, _, [], 0, by rw [ByteBuffer.step, reads]; rfl, ?_, ?_, trivial⟩
    · unfold queueStep
      dsimp only
      split <;> rfl
    · unfold queueStep
      dsimp only
      by_cases all : n ≤ queue.length
      · rwa [if_pos all] at advanced ⊢
      · rwa [if_neg all] at advanced ⊢
  | readUntil separator =>
    obtain ⟨next, found, reads, gives⟩ := represents.readUntil proper
    refine ⟨next, .text found, [], 0, by rw [ByteBuffer.step, reads]; rfl, ?_, ?_, trivial⟩
    · unfold queueStep
      dsimp only
      cases place : indexOf queue separator <;> simp_all
    · unfold queueStep
      dsimp only
      cases place : indexOf queue separator <;> simp_all
  | readLine =>
    obtain ⟨next, found, reads, gives⟩ := @Represents.readUntil b queue [10] represents (by simp)
    refine ⟨next, .text (found.map withoutReturn), [], 0, by rw [ByteBuffer.step, ByteBuffer.readLine, reads]; rfl,
      ?_, ?_, trivial⟩
    · unfold queueStep
      dsimp only
      cases place : indexOf queue [10] <;> simp_all
    · unfold queueStep
      dsimp only
      cases place : indexOf queue [10] <;> simp_all
  | readByte =>
    obtain ⟨next, reads, advanced⟩ := represents.readByte
    exact ⟨next, _, [], 0, by rw [ByteBuffer.step, reads]; rfl, rfl, advanced, trivial⟩
  | peekByte => exact ⟨b, _, [], 0, by rw [ByteBuffer.step, represents.peekByte]; rfl, rfl, represents, trivial⟩
  | skip n => exact ⟨b.skip n, _, [], 0, rfl, rfl, represents.skip proper.1, trivial⟩
  | clear => exact ⟨b.clear, _, [], 0, rfl, rfl, represents.clear, trivial⟩
  | free => exact ⟨{}, _, [], 0, rfl, rfl, .inl ⟨rfl, rfl⟩, trivial⟩

/-- In a run, each operation meets the condition in the state it finds. -/
def Meets (b : ByteBuffer) : List (FreshMemory × Operation) → Prop
  | [] => True
  | (fresh, op) :: ops => (op.Proper ∧ op.Forward ∧ b.Fits op.extra) ∧
    match b.step fresh op with
    | some (next, _, _) => next.Meets ops
    | none => True

/-- In a run, the buffer is a queue: each operation ends and gives what it gives on the queue. -/
def IsQueue (b : ByteBuffer) (queue : Text) : List (FreshMemory × Operation) → Prop
  | [] => True
  | (fresh, op) :: ops => ∃ next result copies count, b.step fresh op = some (next, result, copies) ∧
    (queueStep count queue op).1 = result ∧ next.Holds (queueStep count queue op).2 ∧ next.Asked count op ∧
    next.IsQueue (queueStep count queue op).2 ops

theorem Represents.isQueue (represents : b.Represents queue) {ops : List (FreshMemory × Operation)}
    (meets : b.Meets ops) : b.IsQueue queue ops := by
  induction ops generalizing b queue with
  | nil => trivial
  | cons op ops ih =>
    obtain ⟨⟨proper, forward, fits⟩, others⟩ := meets
    obtain ⟨next, result, copies, count, steps, gives, moved, asked⟩ :=
      @Represents.step op.1 b queue represents op.2 proper forward fits
    rw [steps] at others
    exact ⟨next, result, copies, count, steps, gives, moved.holds, asked, ih moved others⟩

/-- The contents stay small: the bytes of the memory, read or not, in each state of a run. -/
def StaysSmall (b : ByteBuffer) : List (FreshMemory × Operation) → Prop
  | [] => b.length < 2 ^ 30
  | (fresh, op) :: ops => (b.length < 2 ^ 30 ∧ op.Proper) ∧
    match b.step fresh op with
    | some (next, _, _) => next.StaysSmall ops
    | none => True

end Running

/-- From an empty buffer on, a run that finds its room is that of a queue. -/
theorem run_isQueue (ops : List (FreshMemory × Operation)) (meets : Meets {} ops) : IsQueue {} [] ops :=
  Represents.isQueue (.inl ⟨rfl, rfl⟩) meets

/-- A line and the bytes behind it, which are moved to the front. -/
theorem run_isQueue_line : IsQueue {} [] [(fun _ _ => 7, .write (.text [97, 13, 10, 98])), (fun _ _ => 7, .readLine),
    (fun _ _ => 7, .compact)] :=
  run_isQueue _ ⟨⟨trivial, trivial, by decide⟩, ⟨⟨trivial, trivial, by decide⟩, ⟨⟨trivial, trivial, by decide⟩, trivial⟩⟩⟩

/-- The loop that doubles the capacity doesn't end for more room than 1 GiB, and no contents at all. -/
theorem run_not_isQueue : ¬∀ ops : List (FreshMemory × Operation), StaysSmall {} ops → IsQueue {} [] ops := by
  intro all
  have wrapped : int32 (0 + (2 ^ 30 + 1)) = 2 ^ 30 + 1 := int32_of_fits (by decide) (by decide)
  have never : StringBuilder.growUntil (2 ^ 30 + 1) (2 ^ 6) = none :=
    StringBuilder.growUntil_of_not_fits (by decide) (by decide)
  have first : (if int32 ((0 : ℤ) * 2) < 64 then 64 else int32 ((0 : ℤ) * 2)) = 2 ^ 6 := by decide
  have none : ByteBuffer.step (fun _ _ => 0) {} (.reserve (2 ^ 30 + 1)) = none := by
    unfold ByteBuffer.step ByteBuffer.reserve
    dsimp only
    rw [wrapped, if_neg (by decide), if_neg (by decide), first, never]
    rfl
  have small : StaysSmall {} [(fun _ _ => 0, .reserve (2 ^ 30 + 1))] := by
    refine ⟨⟨by decide, by decide, by decide⟩, ?_⟩
    rw [none]
    trivial
  obtain ⟨next, result, copies, count, steps, -⟩ := all _ small
  rw [none] at steps
  cases steps

end Saad.ByteBuffer
