import Saad.Std.Base64

/-! # What base64 is decoded to

`decode` takes the values of the characters in front of the padding, of either alphabet, and gives their bytes.
It counts the characters of the padding up to two, whatever there was in front of them.
-/

namespace Saad.Base64

open General

section Bits

variable {bits : BitVec 32} {value : ℤ}

/-- Six more bits. -/
theorem toNat_push (small : bits.toNat < 2 ^ 26) (low : 0 ≤ value) (high : value < 64) :
    ((bits <<< 6) ||| BitVec.ofInt 32 value).toNat = bits.toNat * 64 + value.toNat := by
  have word : (BitVec.ofInt 32 value).toNat = value.toNat := by
    rw [BitVec.toNat_ofInt]
    omega
  have front : (bits <<< 6).toNat = bits.toNat <<< 6 := by
    rw [BitVec.toNat_shiftLeft, Nat.mod_eq_of_lt (by rw [Nat.shiftLeft_eq]; omega)]
  rw [BitVec.toNat_or, word, front, ← Nat.shiftLeft_add_eq_or_of_lt (by omega), Nat.shiftLeft_eq]

theorem byteAtShift_eq (shift : ℕ) : byteAtShift bits shift = BitVec.ofNat 8 (bits.toNat / 2 ^ shift) := by
  apply BitVec.eq_of_toNat_eq
  rw [byteAtShift, BitVec.toNat_setWidth, BitVec.toNat_and, BitVec.toNat_ushiftRight, Nat.shiftRight_eq_div_pow,
    BitVec.toNat_ofNat]
  rw [show (255 : BitVec 32).toNat = 2 ^ 8 - 1 from rfl, Nat.and_two_pow_sub_one_eq_mod, Nat.mod_mod]

theorem sextet_lt (ch : BitVec 8) : sextet ch < 64 := by
  revert ch
  decide

theorem sextet_pad : sextet (byteOf '=') = -1 := by decide

end Bits

section Shapes

/-- The values of the characters in front of the padding, and the length of the padding. There are none for a text
with another character, or with something behind the padding. -/
def shapeOf : Text → Option (List ℕ × ℕ)
  | [] => some ([], 0)
  | ch :: rest =>
    if ch = byteOf '=' then if ∀ c ∈ rest, c = byteOf '=' then some ([], rest.length + 1) else none
    else if sextet ch < 0 then none
    else (shapeOf rest).map fun shape => ((sextet ch).toNat :: shape.1, shape.2)

theorem shapeOf_nil : shapeOf [] = some ([], 0) := rfl

theorem shapeOf_cons (ch : BitVec 8) (rest : Text) : shapeOf (ch :: rest) =
    if ch = byteOf '=' then if ∀ c ∈ rest, c = byteOf '=' then some ([], rest.length + 1) else none
    else if sextet ch < 0 then none
    else (shapeOf rest).map fun shape => ((sextet ch).toNat :: shape.1, shape.2) := rfl

/-- What is decoded when it fits. -/
def bytesOf (front : Text) (values : List ℕ) (pads : ℕ) : Text × Bool :=
  if values.length % 4 = 1 ∨ 2 < pads then ([], false) else (front ++ (bytesOfSextets values).getD [], true)

end Shapes

section Decoding

variable {state : DecodeState} {values : List ℕ} {rest : Text}

/-- The loop and what follows it. -/
def decodeRest (text : Text) (state : DecodeState) : Option (Text × Bool) := do
  match ← decodeFrom text state with
  | some state => decodeEnd state
  | none => some ([], false)

/-- The values that are read since the last group of four. -/
structure Pending (state : DecodeState) (values : List ℕ) : Prop where
  count : state.count = values.length
  bits : state.bits.toNat = values.foldl (fun n v => n * 64 + v) 0
  few : values.length < 4
  small : ∀ v ∈ values, v < 64

/-- Up to three bytes at the end. -/
theorem decodeEnd_eq {pads : ℕ} (pending : Pending state values) (sound : state.sb.Sound)
    (fits : state.sb.text.length + values.length * 3 / 4 < 2 ^ 30) (padding : state.padding = pads) :
    decodeEnd state = some (bytesOf state.sb.text values pads) := by
  have length := pending.count
  have few := pending.few
  have bits := pending.bits
  rw [decodeEnd, bytesOf, padding, length, Nat.mod_eq_of_lt few]
  by_cases refused : values.length = 1 ∨ 2 < pads
  · rw [if_pos (by omega), if_pos refused]
  · rw [if_neg (by omega), if_neg refused]
    obtain _ | ⟨p, _ | ⟨q, _ | ⟨r, _ | ⟨s, others⟩⟩⟩⟩ := values
    all_goals simp only [List.length_cons, List.length_nil] at fits
    · rw [if_neg (by decide), if_neg (by decide), bytesOfSextets, Option.getD_some, List.append_nil]
    · exact absurd (.inl rfl) refused
    · obtain ⟨grown, adds, -, text⟩ := sound.addChar_of_fits (c := byteAtShift state.bits 4) (by omega)
      rw [if_pos (by simp), adds, Option.bind_eq_bind, Option.bind_some, text, byteAtShift_eq, bits]
      simp [bytesOfSextets]
    · obtain ⟨middle, first, middleSound, middleText⟩ :=
        sound.addChar_of_fits (c := byteAtShift state.bits 10) (by omega)
      obtain ⟨grown, second, -, text⟩ := middleSound.addChar_of_fits (c := byteAtShift state.bits 2) (by
        rw [middleText, List.length_append, List.length_singleton]
        omega)
      rw [if_neg (by simp), if_pos (by simp), first, Option.bind_eq_bind, Option.bind_some, second, Option.bind_some,
        text, middleText, byteAtShift_eq, byteAtShift_eq, bits, List.append_assoc]
      simp [bytesOfSextets]
    · exact absurd few (by simp)

/-- Nothing but padding may follow padding. -/
theorem decodeRest_pads {pads : ℕ} (padding : state.padding = pads) (some_pad : 0 < pads)
    (few : pads + rest.length < 2 ^ 31) :
    decodeRest rest state = if ∀ c ∈ rest, c = byteOf '=' then
      decodeEnd { state with padding := (pads + rest.length : ℕ) } else some ([], false) := by
  induction rest generalizing state pads with
  | nil =>
    rw [if_pos (by simp), decodeRest, decodeFrom, Option.bind_eq_bind, Option.bind_some, List.length_nil,
      Nat.add_zero, ← padding]
  | cons c rest ih =>
    rw [List.length_cons] at few
    rw [decodeRest, decodeFrom]
    by_cases pad : c = byteOf '='
    · rw [if_pos pad]
      have more := @ih { state with padding := int32 (state.padding + 1) } (pads + 1) (by
        rw [padding, int32_of_fits (by omega) (by omega)]
        push_cast
        rfl) (by omega) (by omega)
      rw [decodeRest] at more
      rw [more]
      simp only [List.mem_cons, forall_eq_or_imp, pad, true_and, List.length_cons]
      rw [show pads + 1 + rest.length = pads + (rest.length + 1) by omega]
    · rw [if_neg pad, if_pos (by omega), if_neg (fun all => pad (all c (by simp)))]
      rfl

theorem Pending.bits_lt (pending : Pending state values) : state.bits.toNat < 2 ^ 18 := by
  have small := pending.small
  have few := pending.few
  rw [pending.bits]
  obtain _ | ⟨p, _ | ⟨q, _ | ⟨r, _ | ⟨s, others⟩⟩⟩⟩ := values
  · decide
  all_goals simp only [List.foldl_cons, List.foldl_nil, List.mem_cons, List.not_mem_nil, or_false, forall_eq_or_imp,
    forall_eq, List.length_cons] at small few ⊢
  all_goals omega

/-- A value that doesn't complete a group is kept. -/
theorem Pending.add {value : ℤ} (pending : Pending state values) (few : values.length < 3) (low : 0 ≤ value)
    (high : value < 64) :
    ∃ bits count, state.add value = some { state with bits := bits, count := count } ∧
      Pending { state with bits := bits, count := count } (values ++ [value.toNat]) := by
  have below := pending.bits_lt
  have count := pending.count
  refine ⟨_, _, if_neg (by omega), ⟨?_, ?_, ?_, ?_⟩⟩
  · rw [List.length_append, List.length_singleton, ← count]
  · rw [List.foldl_append, ← pending.bits]
    exact toNat_push (by omega) low high
  · rw [List.length_append, List.length_singleton]
    omega
  · intro v member
    obtain member | member := List.mem_append.mp member
    · exact pending.small v member
    · rw [List.mem_singleton.mp member]
      omega

/-- A fourth value gives three bytes. -/
theorem Pending.complete {value : ℤ} {p q r : ℕ} (pending : Pending state [p, q, r]) (low : 0 ≤ value)
    (high : value < 64) (sound : state.sb.Sound) (fits : state.sb.text.length + 3 < 2 ^ 30) :
    ∃ sb, state.add value = some { state with sb := sb, bits := 0, count := 0 } ∧ sb.Sound ∧
      sb.text = state.sb.text ++ (bytesOfSextets [p, q, r, value.toNat]).getD [] := by
  have below := pending.bits_lt
  have count := pending.count
  have whole := @toNat_push state.bits value (by omega) low high
  rw [pending.bits] at whole
  obtain ⟨sb, adds⟩ := @StringBuilder.Sound.addChars_of_fits _
    [byteAtShift (state.bits <<< 6 ||| BitVec.ofInt 32 value) 16,
      byteAtShift (state.bits <<< 6 ||| BitVec.ofInt 32 value) 8,
      byteAtShift (state.bits <<< 6 ||| BitVec.ofInt 32 value) 0] sound fits
  obtain ⟨grownSound, text⟩ := sound.addChars adds
  refine ⟨sb, ?_, grownSound, ?_⟩
  · rw [DecodeState.add, if_pos (by rw [count]; rfl)]
    simp only [List.foldlM_cons, List.foldlM_nil] at adds
    obtain ⟨first, writes, adds⟩ := Option.bind_eq_some_iff.mp adds
    obtain ⟨second, writesAgain, adds⟩ := Option.bind_eq_some_iff.mp adds
    obtain ⟨third, writesLast, same⟩ := Option.bind_eq_some_iff.mp adds
    cases same
    rw [writes, Option.bind_eq_bind, Option.bind_some, writesAgain, Option.bind_some, writesLast, Option.bind_some]
  · rw [text]
    simp only [byteAtShift_eq, whole]
    simp [bytesOfSextets]

theorem bytesOf_group {front : Text} {p q r s : ℕ} {values : List ℕ} {pads : ℕ} :
    bytesOf front (p :: q :: r :: s :: values) pads =
      bytesOf (front ++ (bytesOfSextets [p, q, r, s]).getD []) values pads := by
  unfold bytesOf
  simp only [List.length_cons, Nat.add_assoc, Nat.reduceAdd, Nat.add_mod_right]
  by_cases refused : values.length % 4 = 1 ∨ 2 < pads
  · rw [if_pos refused, if_pos refused]
  · rw [if_neg refused, if_neg refused]
    obtain ⟨bytes, decodes⟩ := Option.isSome_iff_exists.mp ((bytesOfSextets_isSome values).mpr fun one => refused (.inl one))
    simp [bytesOfSextets, decodes]

theorem decodeRest_value {ch : BitVec 8} (pad : ch ≠ byteOf '=') (padding : state.padding = 0)
    (value : ¬sextet ch < 0) :
    decodeRest (ch :: rest) state = state.add (sextet ch) >>= decodeRest rest := by
  rw [decodeRest, decodeFrom, if_neg pad, if_neg (by omega), if_neg value, bind_assoc]
  rfl

/-- What the rest of a text is decoded to, behind the bytes and values that are there. -/
theorem decodeRest_eq (pending : Pending state values) (sound : state.sb.Sound) (padding : state.padding = 0)
    (fits : state.sb.text.length + (values.length + rest.length) * 3 / 4 < 2 ^ 30) :
    decodeRest rest state = some (((shapeOf rest).map fun shape =>
      bytesOf state.sb.text (values ++ shape.1) shape.2).getD ([], false)) := by
  induction rest generalizing state values with
  | nil =>
    rw [decodeRest, decodeFrom, Option.bind_eq_bind, Option.bind_some, shapeOf_nil, Option.map_some, Option.getD_some,
      List.append_nil]
    exact decodeEnd_eq pending sound (by omega) padding
  | cons ch rest ih =>
    rw [List.length_cons] at fits
    by_cases pad : ch = byteOf '='
    · have pads := @decodeRest_pads { state with padding := (1 : ℕ) } rest _ rfl (by decide)
        (by omega)
      rw [decodeRest, decodeFrom, if_pos pad, shapeOf_cons, if_pos pad, padding]
      rw [decodeRest] at pads
      rw [show int32 (0 + 1) = (1 : ℕ) by decide, pads]
      by_cases all : ∀ c ∈ rest, c = byteOf '='
      · rw [if_pos all, if_pos all, Option.map_some, Option.getD_some, List.append_nil, Nat.add_comm]
        exact decodeEnd_eq ⟨pending.count, pending.bits, pending.few, pending.small⟩ sound (by dsimp only; omega) rfl
      · rw [if_neg all, if_neg all]
        rfl
    · by_cases other : sextet ch < 0
      · rw [shapeOf_cons, if_neg pad, if_pos other, decodeRest, decodeFrom, if_neg pad, if_neg (by omega), if_pos other]
        rfl
      · have high := sextet_lt ch
        rw [decodeRest_value pad padding other, shapeOf_cons, if_neg pad, if_neg other, Option.map_map]
        by_cases group : values.length < 3
        · obtain ⟨bits, count, adds, next⟩ := pending.add group (by omega) high
          have others := ih next sound padding (by
            rw [List.length_append, List.length_singleton]
            dsimp only
            omega)
          rw [adds, Option.bind_eq_bind, Option.bind_some, others]
          simp only [List.append_assoc]
          rfl
        · have few := pending.few
          obtain ⟨p, q, r, rfl⟩ := List.length_eq_three.mp (show values.length = 3 by omega)
          rw [List.length_cons, List.length_cons, List.length_singleton] at fits
          obtain ⟨sb, adds, grownSound, text⟩ := pending.complete (by omega) high sound (by omega)
          have bytes : ((bytesOfSextets [p, q, r, (sextet ch).toNat]).getD []).length = 3 := rfl
          have others := @ih { state with sb := sb, bits := 0, count := 0 } []
            ⟨rfl, rfl, by decide, by simp⟩ grownSound padding (by
              dsimp only
              rw [text, List.length_append, bytes, List.length_nil]
              omega)
          rw [adds, Option.bind_eq_bind, Option.bind_some, others, text]
          congr 2
          apply congrArg (Option.map · (shapeOf rest))
          funext shape
          exact bytesOf_group.symm

theorem decode_room {text : Text} (small : text.length < 2 ^ 31) :
    int32 ((int32 text.length).tdiv 4 * 3 + 3) = (text.length / 4 * 3 + 3 : ℕ) := by
  rw [int32_of_fits (n := text.length) (by omega) (by omega),
    show (text.length : ℤ).tdiv 4 = (text.length / 4 : ℕ) by
      rw [Int.tdiv_eq_ediv_of_nonneg (by omega)]
      omega,
    int32_of_fits (by omega) (by omega)]
  push_cast
  rfl

/-- A text of less than 1431655764 bytes has room for what it is decoded to. -/
theorem decode_eq {text : Text} (small : text.length < 1431655764) :
    decode text = some (((shapeOf text).map fun shape => bytesOf [] shape.1 shape.2).getD ([], false)) := by
  obtain ⟨sb, makes⟩ := StringBuilder.exists_newStringBuilder (n := (text.length / 4 * 3 + 3 : ℕ)) (by omega)
    (by omega)
  obtain ⟨sound, empty⟩ := StringBuilder.sound_newStringBuilder makes
  have decodes := @decodeRest_eq { sb := sb } [] text ⟨rfl, rfl, by decide, by simp⟩
    sound rfl (by
      rw [empty, List.length_nil, List.length_nil]
      omega)
  rw [decode, decode_room (by omega), makes, Option.bind_eq_bind, Option.bind_some]
  rw [empty] at decodes
  exact decodes

/-- For a longer one the builder is not made. -/
theorem decode_eq_none {text : Text} (large : 1431655764 ≤ text.length) (small : text.length < 2 ^ 31) :
    decode text = none := by
  rw [decode, decode_room small, StringBuilder.newStringBuilder_eq_none (by omega) (by omega)]
  rfl

end Decoding

end Saad.Base64
