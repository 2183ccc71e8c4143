import Saad.Std.BuilderMemory
import Saad.Std.Decimal

/-! # The text of a StringBuilder

Each operation keeps the buffer a text with a 0 byte behind it, whose size is a power of two. This holds
as long as the text stays below 1 GiB: behind it, the loop that doubles the capacity doesn't end.
-/

namespace Saad.BuilderMemory

section Representing

/-- No buffer and no text, or a buffer with the text and the 0 byte in front of other bytes. -/
inductive Represents : BuilderMemory → Text → Prop where
  | empty : Represents {} []
  | block (text rest : Text) {exponent : ℕ} (ge : 4 ≤ exponent) (le : exponent ≤ 30)
      (length : (text ++ 0 :: rest).length = 2 ^ exponent) :
      Represents ⟨some (text ++ 0 :: rest), text.length, 2 ^ exponent⟩ text

variable {fresh : FreshMemory} {sb : BuilderMemory} {text bytes rest : Text} {extra : ℤ} {exponent : ℕ}

theorem Represents.holds (represents : Represents sb text) : sb.Holds text := by
  cases represents with
  | empty =>
    refine ⟨rfl, rfl, ?_, ?_⟩
    · rintro buffer ⟨⟩
    · rintro buffer ⟨⟩
  | block text rest ge le length =>
    refine ⟨by simp [BuilderMemory.toString], rfl, ?_, ?_⟩
    · rintro buffer ⟨⟩
      rw [length]
      simp only [List.length_append, List.length_cons] at length
      zify at length
      constructor
      · push_cast
        omega
      · push_cast
        rfl
    · rintro buffer ⟨⟩
      simp

theorem power_le (le : exponent ≤ 30) : 2 ^ exponent ≤ 2 ^ 30 := Nat.pow_le_pow_right (by decide) le

/-- The part of `reserve` behind its check. -/
def grown (fresh : FreshMemory) (sb : BuilderMemory) (needed first : ℤ) : Option BuilderMemory := do
  let capacity ← StringBuilder.growUntil needed first
  let buffer ← store (resizedBlock fresh (sb.buffer.getD []) capacity.toNat) sb.cursor [0]
  some { sb with buffer := some buffer, capacity }

theorem reserve_eq : sb.reserve fresh extra =
    if int32 (sb.cursor + extra + 1) ≤ sb.capacity then some sb
    else grown fresh sb (int32 (sb.cursor + extra + 1))
      (if int32 (sb.capacity * 2) < 16 then 16 else int32 (sb.capacity * 2)) := rfl

/-- Growing keeps the text, with enough room behind it. -/
theorem grown_spec {behind : Text} {capacity needed : ℤ} (ge : 4 ≤ exponent) (le : exponent ≤ 30)
    (old : (text ++ behind).length ≤ 2 ^ exponent) (more : text.length < 2 ^ exponent) (fits : needed ≤ 2 ^ 30)
    {buffer : Option Text} (is : buffer.getD [] = text ++ behind) :
    ∃ (rest : Text) (last : ℕ), 4 ≤ last ∧ last ≤ 30 ∧ (text ++ 0 :: rest).length = 2 ^ last ∧ needed ≤ 2 ^ last ∧
      grown fresh ⟨buffer, text.length, capacity⟩ needed (2 ^ exponent) =
        some ⟨some (text ++ 0 :: rest), text.length, 2 ^ last⟩ := by
  obtain ⟨last, first_le, last_le, runs, enough⟩ := StringBuilder.growUntil_of_fits le fits
  have powers : 2 ^ exponent ≤ 2 ^ last := Nat.pow_le_pow_right (by decide) first_le
  have natural : ((2 : ℤ) ^ last).toNat = 2 ^ last := by
    have cast : (2 : ℤ) ^ last = (2 ^ last : ℕ) := by push_cast; rfl
    rw [cast, Int.toNat_natCast]
  obtain ⟨more_bytes, resized, length⟩ := resizedBlock_of_le fresh (show (text ++ behind).length ≤ 2 ^ last by omega)
  rw [List.length_append] at length old
  obtain ⟨first, rest, is_cons⟩ : ∃ first rest, behind ++ more_bytes = first :: rest := by
    apply List.exists_cons_of_ne_nil
    rw [← List.length_pos_iff, List.length_append]
    omega
  have stores : store (text ++ (behind ++ more_bytes)) text.length [0] = some (text ++ 0 :: rest) := by
    rw [store_append (by rw [is_cons]; simp), is_cons]
    rfl
  refine ⟨rest, last, by omega, last_le, ?_, enough, ?_⟩
  · have total := congrArg List.length is_cons
    rw [List.length_append, List.length_cons] at total ⊢
    omega
  · unfold grown
    rw [runs, is, Option.bind_eq_bind, Option.bind_some, natural, resized, List.append_assoc, stores]
    rfl

/-- A power of two below the largest one is doubled. -/
theorem first_capacity (ge : 4 ≤ exponent) (small : exponent < 30) :
    (if int32 ((2 : ℤ) ^ exponent * 2) < 16 then 16 else int32 ((2 : ℤ) ^ exponent * 2)) = 2 ^ (exponent + 1) := by
  have above : (16 : ℤ) ≤ 2 ^ (exponent + 1) :=
    (by decide : (16 : ℤ) = 2 ^ 4).le.trans (pow_le_pow_right₀ (by decide) (by omega))
  rw [StringBuilder.double_power small, if_neg (Int.not_lt.mpr above)]

theorem Represents.reserve (represents : Represents sb text) (low : -2 ^ 31 ≤ extra)
    (fits : text.length + extra < 2 ^ 30) : ∃ next, sb.reserve fresh extra = some next ∧ Represents next text ∧
      (0 ≤ extra → ∃ rest, next.buffer = some (text ++ 0 :: rest) ∧ extra ≤ rest.length) := by
  cases represents with
  | empty =>
    have needed : int32 (0 + extra + 1) = extra + 1 := by
      rw [zero_add]
      simp only [List.length_nil, Nat.cast_zero] at fits
      exact int32_of_fits (by omega) (by omega)
    rw [reserve_eq]
    dsimp only
    rw [needed]
    split
    · next enough => exact ⟨_, rfl, .empty, fun positive => by omega⟩
    · simp only [List.length_nil, Nat.cast_zero] at fits
      obtain ⟨rest, last, ge, le, length, enough, grows⟩ := @grown_spec fresh [] 4 [] 0 (extra + 1) le_rfl (by decide)
        (by decide) (by decide) (by omega) none rfl
      rw [if_pos (by decide)]
      refine ⟨_, grows, .block [] rest ge le length, fun _ => ⟨rest, rfl, ?_⟩⟩
      simp only [List.nil_append, List.length_cons] at length
      zify at length
      omega
  | @block text rest exponent ge le length =>
    have needed : int32 (text.length + extra + 1) = text.length + extra + 1 :=
      int32_of_fits (by omega) (by omega)
    have total := length
    simp only [List.length_append, List.length_cons] at total
    zify at total
    rw [reserve_eq]
    dsimp only
    rw [needed]
    split
    · next enough => exact ⟨_, rfl, .block text rest ge le length, fun _ => ⟨rest, rfl, by omega⟩⟩
    · next grows =>
      have small : exponent < 30 := by
        by_contra large
        obtain rfl : exponent = 30 := by omega
        omega
      have double := pow_succ 2 exponent
      obtain ⟨rest', last, ge', le', length', enough, grows⟩ := @grown_spec fresh text (exponent + 1) (0 :: rest)
        (2 ^ exponent) (text.length + extra + 1) (by omega) (by omega) (by omega) (by zify at double ⊢; omega)
        (by omega) (some (text ++ 0 :: rest)) rfl
      rw [first_capacity ge small]
      refine ⟨_, grows, .block text rest' ge' le' length', fun _ => ⟨rest', rfl, ?_⟩⟩
      simp only [List.length_append, List.length_cons] at length'
      zify at length'
      omega

/-- Bytes that there is room for are added to the text. -/
theorem Represents.put (represents : Represents sb text) (is : sb.buffer = some (text ++ 0 :: rest))
    (room : bytes.length ≤ rest.length) : ∃ next, sb.put bytes = some next ∧ Represents next (text ++ bytes) := by
  cases represents with
  | empty => cases is
  | @block text rest' exponent ge le length =>
    obtain rfl : rest' = rest := by simpa using is
    have below := power_le le
    have stores : store (text ++ 0 :: rest') text.length bytes =
        some ((text ++ bytes) ++ (0 :: rest').drop bytes.length) := by
      rw [store_append (by rw [List.length_cons]; omega), List.append_assoc]
    have cursor : int32 (text.length + bytes.length) = (text ++ bytes).length := by
      simp only [List.length_append, List.length_cons] at length ⊢
      push_cast
      exact int32_of_fits (by omega) (by omega)
    obtain ⟨first, behind, is_cons⟩ : ∃ first behind, (0 :: rest').drop bytes.length = first :: behind := by
      apply List.exists_cons_of_ne_nil
      rw [← List.length_pos_iff, List.length_drop, List.length_cons]
      omega
    have ends : store ((text ++ bytes) ++ first :: behind) (text ++ bytes).length [0] =
        some ((text ++ bytes) ++ 0 :: behind) := by
      rw [store_append (by simp)]
      rfl
    refine ⟨⟨some ((text ++ bytes) ++ 0 :: behind), (text ++ bytes).length, 2 ^ exponent⟩, ?_, ?_⟩
    · unfold BuilderMemory.put
      simp only [Option.bind_eq_bind, Option.bind_some, stores, cursor, is_cons, ends]
    · apply Represents.block (text ++ bytes) behind ge le
      have total := congrArg List.length is_cons
      simp only [List.length_append, List.length_cons, List.length_drop] at length total ⊢
      omega

end Representing

section Adding

variable {fresh : FreshMemory} {sb : BuilderMemory} {text bytes s : Text}

theorem Represents.addBytes {count : ℤ} (represents : Represents sb text) (is : count = bytes.length)
    (small : (text ++ bytes).length < 2 ^ 30) {behind : Text} :
    ∃ next, sb.addBytes fresh (bytes ++ behind) count = some next ∧ Represents next (text ++ bytes) := by
  subst is
  rw [List.length_append] at small
  unfold BuilderMemory.addBytes
  split
  · next none =>
    obtain rfl : bytes = [] := List.length_eq_zero_iff.mp (by omega)
    exact ⟨sb, rfl, by rwa [List.append_nil]⟩
  · obtain ⟨next, reserves, holds, room⟩ := @Represents.reserve fresh sb text bytes.length represents (by omega) (by omega)
    obtain ⟨rest, buffer, enough⟩ := room (by omega)
    obtain ⟨last, puts, holds⟩ := @Represents.put next text bytes rest holds buffer (by omega)
    refine ⟨last, ?_, holds⟩
    rw [reserves, Int.toNat_natCast, List.take_left]
    exact puts

theorem Represents.addChar (represents : Represents sb text) (c : BitVec 8) (small : text.length + 1 < 2 ^ 30) :
    ∃ next, sb.addChar fresh c = some next ∧ Represents next (text ++ [c]) := by
  obtain ⟨next, reserves, holds, room⟩ := @Represents.reserve fresh sb text 1 represents (by decide) (by omega)
  obtain ⟨rest, buffer, enough⟩ := room (by decide)
  obtain ⟨last, puts, holds⟩ := @Represents.put next text [c] rest holds buffer (by simp; omega)
  exact ⟨last, by rw [BuilderMemory.addChar, reserves]; exact puts, holds⟩

theorem Represents.addChars (represents : Represents sb text) (small : text.length + bytes.length < 2 ^ 30) :
    ∃ next, bytes.foldlM (fun sb c => sb.addChar fresh c) sb = some next ∧ Represents next (text ++ bytes) := by
  induction bytes generalizing sb text with
  | nil => exact ⟨sb, rfl, by rwa [List.append_nil]⟩
  | cons c bytes ih =>
    rw [List.length_cons] at small
    obtain ⟨next, adds, holds⟩ := @Represents.addChar fresh sb text represents c (by omega)
    obtain ⟨last, others, holds⟩ := ih holds (by simp; omega)
    refine ⟨last, ?_, ?_⟩
    · rw [List.foldlM_cons, adds]
      exact others
    · rwa [List.append_assoc] at holds

theorem digits_eq {room n : ℕ} (enough : n < 10 ^ (room + 1)) : digits (room + 1) n = some (decimalText n) := by
  induction room generalizing n with
  | zero =>
    have small : n < 10 := by simpa using enough
    rw [digits, if_pos (by omega), decimalText_of_small small, Nat.mod_eq_of_lt small]
  | succ room ih =>
    rw [digits]
    by_cases small : n < 10
    · rw [if_pos (by omega), decimalText_of_small small, Nat.mod_eq_of_lt small]
    · have shorter : n / 10 < 10 ^ (room + 1) := Nat.div_lt_of_lt_mul (by rwa [← pow_succ'])
      rw [if_neg (by omega), ih shorter, @decimalText_of_big n (by omega)]
      rfl

theorem Represents.addUInt64 (represents : Represents sb text) (v : BitVec 64)
    (small : (text ++ decimalText v.toNat).length < 2 ^ 30) :
    ∃ next, sb.addUInt64 fresh v = some next ∧ Represents next (text ++ decimalText v.toNat) := by
  rw [List.length_append] at small
  have written : digits 20 v.toNat = some (decimalText v.toNat) := digits_eq (by have := v.isLt; omega)
  obtain ⟨next, reserves, holds, -⟩ :=
    @Represents.reserve fresh sb text (decimalText v.toNat).length represents (by omega) (by omega)
  obtain ⟨last, adds, holds⟩ := @Represents.addChars fresh next text (decimalText v.toNat) holds small
  refine ⟨last, ?_, holds⟩
  unfold BuilderMemory.addUInt64
  rw [written, Option.bind_eq_bind, Option.bind_some, reserves]
  exact adds

/-- The smallest number is as large as its opposite in an unsigned number. -/
theorem intText_of_slt {v : BitVec 64} (negative : v.slt 0 = true) :
    intText v.toInt = byteOf '-' :: decimalText (-(v + 1) + 1).toNat := by
  have below : v.toInt < 0 := by simpa [BitVec.slt_iff_toInt_lt] using negative
  have opposite : -(v + 1) + 1 = -v := by
    rw [BitVec.neg_add]
    exact BitVec.sub_add_cancel _ _
  have value : (-v).toNat = v.toInt.natAbs := by
    have range := v.isLt
    rw [BitVec.toInt_eq_toNat_cond] at below ⊢
    rw [BitVec.toNat_neg]
    split at below <;> omega
  rw [intText, if_pos below, opposite, value]

theorem Represents.addInt64 (represents : Represents sb text) (v : BitVec 64)
    (small : (text ++ intText v.toInt).length < 2 ^ 30) :
    ∃ next, sb.addInt64 fresh v = some next ∧ Represents next (text ++ intText v.toInt) := by
  unfold BuilderMemory.addInt64
  split
  · next negative =>
    rw [intText_of_slt negative] at small ⊢
    simp only [List.length_append, List.length_cons] at small
    obtain ⟨next, adds, holds⟩ := @Represents.addChar fresh sb text represents (byteOf '-') (by omega)
    obtain ⟨last, digits, holds⟩ := @Represents.addUInt64 fresh next (text ++ [byteOf '-']) holds (-(v + 1) + 1)
      (by simp only [List.length_append, List.length_singleton]; omega)
    refine ⟨last, ?_, ?_⟩
    · rw [adds]
      exact digits
    · rwa [List.append_assoc] at holds
  · next positive =>
    have above : ¬v.toInt < 0 := by simpa [BitVec.slt_iff_toInt_lt] using positive
    have value : v.toInt.toNat = v.toNat := by
      rw [BitVec.toInt_eq_toNat_cond] at above ⊢
      have range := v.isLt
      split at above <;> omega
    rw [intText, if_neg above, value] at small ⊢
    exact represents.addUInt64 v small

end Adding

section Running

variable {fresh : FreshMemory} {sb : BuilderMemory} {text s : Text}

theorem Represents.addString (represents : Represents sb text) (small : (text ++ s).length < 2 ^ 30) :
    ∃ next, sb.addString fresh s = some next ∧ Represents next (text ++ s) := by
  have total := small
  rw [List.length_append] at total
  have count : int32 s.length = s.length := int32_of_fits (by omega) (by omega)
  have adds := @Represents.addBytes fresh sb text s (int32 s.length) represents count small []
  rwa [List.append_nil] at adds

theorem Represents.addStringSlice {start last : ℤ} (represents : Represents sb text)
    (inside : 0 ≤ start ∧ start ≤ last ∧ last ≤ s.length)
    (small : (text ++ (s.take last.toNat).drop start.toNat).length < 2 ^ 30) :
    ∃ next, sb.addStringSlice fresh s start last = some next ∧
      Represents next (text ++ (s.take last.toNat).drop start.toNat) := by
  have length : ((s.take last.toNat).drop start.toNat).length = last - start := by
    rw [List.length_drop, List.length_take]
    omega
  have total := small
  rw [List.length_append] at total
  have count : int32 (last - start) = ((s.take last.toNat).drop start.toNat).length := by
    rw [length]
    exact int32_of_fits (by omega) (by omega)
  have whole : s.drop start.toNat = (s.take last.toNat).drop start.toNat ++ s.drop last.toNat := by
    conv_lhs => rw [← List.take_append_drop last.toNat s]
    rw [List.drop_append_of_le_length]
    rw [List.length_take]
    omega
  unfold BuilderMemory.addStringSlice
  rw [whole]
  exact represents.addBytes count small

theorem Represents.addRepeated {count : ℤ} (c : BitVec 8) (represents : Represents sb text)
    (small : (text ++ List.replicate count.toNat c).length < 2 ^ 30) :
    ∃ next, sb.addRepeated fresh c count = some next ∧
      Represents next (text ++ List.replicate count.toNat c) := by
  rw [List.length_append, List.length_replicate] at small
  unfold BuilderMemory.addRepeated
  split
  · next none =>
    rw [Int.toNat_of_nonpos none, List.replicate_zero, List.append_nil]
    exact ⟨sb, rfl, represents⟩
  · obtain ⟨next, reserves, holds, room⟩ := @Represents.reserve fresh sb text count represents (by omega) (by omega)
    obtain ⟨rest, buffer, enough⟩ := room (by omega)
    obtain ⟨last, puts, holds⟩ := @Represents.put next text (List.replicate count.toNat c) rest holds buffer
      (by rw [List.length_replicate]; omega)
    exact ⟨last, by rw [reserves]; exact puts, holds⟩

/-- The text is cut where the cursor is set. -/
theorem Represents.cut (represents : Represents sb text) {length : ℕ} (shorter : length ≤ text.length)
    (cursor : ℤ) (is : cursor = length) :
    ∃ next, (match sb.buffer with
      | none => some { sb with cursor }
      | some buffer => (store buffer cursor [0]).map fun buffer => { sb with buffer := some buffer, cursor }) =
        some next ∧ Represents next (text.take length) := by
  subst is
  cases represents with
  | empty =>
    obtain rfl : length = 0 := by simpa using shorter
    exact ⟨_, rfl, .empty⟩
  | @block text rest exponent ge le total =>
    obtain ⟨first, behind, is_cons⟩ : ∃ first behind, text.drop length ++ 0 :: rest = first :: behind := by
      apply List.exists_cons_of_ne_nil
      simp
    have split : text ++ 0 :: rest = text.take length ++ first :: behind := by
      rw [← is_cons, ← List.append_assoc, List.take_append_drop]
    have cut : (text.take length).length = length := List.length_take_of_le shorter
    have stores := @store_append (text.take length) (first :: behind) [0] (by simp)
    rw [cut, ← split] at stores
    have same : (text.take length ++ 0 :: behind).length = 2 ^ exponent := by
      rw [← total, split]
      simp
    have next := Represents.block (text.take length) behind ge le same
    rw [cut] at next
    refine ⟨_, ?_, next⟩
    dsimp only
    rw [stores]
    rfl

/-- An operation describes the text of the builder behind it. -/
theorem Represents.step (represents : Represents sb text) {op : Operation} (proper : op.Proper)
    (small : op.Small text) : ∃ next, sb.step fresh op = some next ∧ Represents next (op.describe text) := by
  have length : sb.cursor = text.length := represents.holds.length
  cases op with
  | reserve extra =>
    obtain ⟨next, reserves, holds, -⟩ := @Represents.reserve fresh sb text extra represents proper.1 small
    exact ⟨next, reserves, holds⟩
  | addString s => exact represents.addString small
  | addStringSlice s start last => exact represents.addStringSlice proper small
  | addChar c => exact represents.addChar c (by simpa [Operation.Small, Operation.describe] using small)
  | addRepeated c count => exact represents.addRepeated c small
  | addInt64 v => exact represents.addInt64 v small
  | addUInt64 v => exact represents.addUInt64 v small
  | removeLast count =>
    have bound : text.length < 2 ^ 31 := by
      cases represents with
      | empty => decide
      | block text rest ge le total =>
        have below := power_le le
        rw [List.length_append] at total
        omega
    have not_negative : 0 ≤ count := small
    apply represents.cut (Nat.sub_le _ _)
    rw [length]
    split
    · rw [int32_of_fits (by omega) (by omega)]
      omega
    · rw [int32_of_fits (by omega) (by omega)]
      omega
  | clear => exact represents.cut (Nat.zero_le _) 0 rfl
  | free => exact ⟨_, rfl, .empty⟩

theorem Represents.run (represents : Represents sb text) {ops : List (FreshMemory × Operation)}
    (meets : Throughout (fun text op => op.Proper ∧ op.Small text) text ops) :
    ∃ last, run ops sb = some last ∧ Represents last (describeAll text ops) := by
  induction ops generalizing sb text with
  | nil => exact ⟨sb, rfl, represents⟩
  | cons op ops ih =>
    obtain ⟨⟨proper, small⟩, others⟩ := meets
    obtain ⟨next, steps, holds⟩ := @Represents.step op.1 sb text represents op.2 proper small
    obtain ⟨last, runs, holds⟩ := ih holds others
    refine ⟨last, ?_, holds⟩
    rw [BuilderMemory.run, steps]
    exact runs

end Running

/-- In a run of operations that stay below 1 GiB, the builder has the text that they describe. -/
theorem run_holds (ops : List (FreshMemory × Operation))
    (meets : Throughout (fun text op => op.Proper ∧ op.Small text) [] ops) :
    ∃ sb, run ops {} = some sb ∧ sb.Holds (describeAll [] ops) := by
  obtain ⟨sb, runs, represents⟩ := Represents.empty.run meets
  exact ⟨sb, runs, represents.holds⟩

/-- The smallest number behind a letter, without its last digit. -/
theorem run_holds_smallest : ∃ sb, run [(fun _ _ => 7, .addChar (byteOf 'n')), (fun _ _ => 7, .addInt64 (1 <<< 63)),
      (fun _ _ => 7, .removeLast 1)] {} = some sb ∧
    sb.Holds (describeAll [] [(fun _ _ => 7, .addChar (byteOf 'n')), (fun _ _ => 7, .addInt64 (1 <<< 63)),
      (fun _ _ => 7, .removeLast 1)]) :=
  run_holds _ ⟨⟨trivial, (by decide : 1 < 2 ^ 30)⟩,
    ⟨trivial, (by decide : ([byteOf 'n'] ++ intText (BitVec.toInt (1 <<< 63))).length < 2 ^ 30)⟩,
    ⟨(by decide : (-2 ^ 31 : ℤ) ≤ 1 ∧ (1 : ℤ) < 2 ^ 31), (by decide : (0 : ℤ) ≤ 1)⟩, trivial⟩

/-- The loop that doubles the capacity doesn't end for room of 1 GiB, which an empty text asks for. -/
theorem run_not_holds :
    ¬∀ ops : List (FreshMemory × Operation),
      Throughout (fun text op => op.Proper ∧ (op.describe text).length < 2 ^ 31 - 1) [] ops →
      ∃ sb, run ops {} = some sb ∧ sb.Holds (describeAll [] ops) := by
  intro all
  obtain ⟨sb, runs, -⟩ := all [(fun _ _ => 0, .reserve (2 ^ 30))]
    ⟨⟨(by decide : (-2 ^ 31 : ℤ) ≤ 2 ^ 30 ∧ (2 ^ 30 : ℤ) < 2 ^ 31), (by decide : 0 < 2 ^ 31 - 1)⟩, trivial⟩
  have needed : int32 (0 + 2 ^ 30 + 1) = 2 ^ 30 + 1 := int32_of_fits (by decide) (by decide)
  have never : StringBuilder.growUntil (2 ^ 30 + 1) (2 ^ 4) = none :=
    StringBuilder.growUntil_of_not_fits (by decide) (by decide)
  have none : reserve (fun _ _ => 0) {} (2 ^ 30) = none := by
    rw [reserve_eq]
    dsimp only
    rw [needed, if_neg (by decide), if_pos (by decide), grown, show (16 : ℤ) = 2 ^ 4 by decide, never]
    rfl
  rw [run, step, none] at runs
  cases runs

end Saad.BuilderMemory
