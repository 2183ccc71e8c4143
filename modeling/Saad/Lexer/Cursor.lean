import Mathlib.Data.List.DropRight
import Saad.Std.Text

/-! # The cursor of the lexer

The lexer reads a text that ends at its NUL with one cursor. The line and the column are kept beside
the place, and each character that is eaten changes all three.
-/

namespace Saad.Lexer

/-- A place in the text, with its line and column. -/
structure Pos where
  inputIdx : ℕ
  line : ℕ
  col : ℕ
deriving DecidableEq, Repr

/-- The bytes up to the NUL, and where they begin. -/
structure Cursor where
  rest : Text
  pos : Pos
deriving DecidableEq, Repr

/-- The position behind a character. -/
def Pos.eat (pos : Pos) (c : BitVec 8) : Pos :=
  if c = byteOf '\n' then { inputIdx := pos.inputIdx + 1, line := pos.line + 1, col := 1 }
  else { pos with inputIdx := pos.inputIdx + 1, col := pos.col + 1 }

/-- The place in a text, its line and its column. -/
def Pos.of (text : Text) (idx : ℕ) : Pos where
  inputIdx := idx
  line := 1 + (text.take idx).count (byteOf '\n')
  col := 1 + ((text.take idx).rtakeWhile fun c => c != byteOf '\n').length

namespace Cursor

variable (cur : Cursor)

/-- The character at a distance. Behind the end it is the NUL. -/
def peekChar (lookahead : ℕ) : BitVec 8 := cur.rest[lookahead]?.getD 0

def peekNextChar : BitVec 8 := cur.peekChar 0

/-- None at the NUL: the next read would be behind it. -/
def eatCharacter : Option Cursor :=
  match cur.rest with
  | [] => none
  | c :: rest => some ⟨rest, cur.pos.eat c⟩

def eatCharacters : ℕ → Cursor → Option Cursor
  | 0, cur => some cur
  | n + 1, cur => cur.eatCharacter.bind (eatCharacters n)

/-- Eat as long as the condition holds. None when the fuel is not enough. -/
def eatWhile (more : Cursor → Bool) : ℕ → Cursor → Option Cursor
  | 0, _ => none
  | fuel + 1, cur => if more cur then cur.eatCharacter.bind (eatWhile more fuel) else some cur

/-- The cursor some characters further. -/
def skip (n : ℕ) : Cursor := ⟨cur.rest.drop n, (cur.rest.take n).foldl Pos.eat cur.pos⟩

section Lemmas

variable {cur : Cursor} {more : Cursor → Bool} {n fuel : ℕ}

@[simp] theorem rest_skip (cur : Cursor) (n : ℕ) : (cur.skip n).rest = cur.rest.drop n := rfl

theorem skip_skip (cur : Cursor) (m n : ℕ) : (cur.skip m).skip n = cur.skip (m + n) := by
  unfold skip
  simp only [List.drop_drop, ← List.foldl_append, ← List.take_add]

@[simp] theorem peekChar_skip (cur : Cursor) (m n : ℕ) : (cur.skip m).peekChar n = cur.peekChar (m + n) := by
  rw [peekChar, peekChar, rest_skip, List.getElem?_drop]

@[simp] theorem peekNextChar_skip (cur : Cursor) (m : ℕ) : (cur.skip m).peekNextChar = cur.peekChar m :=
  peekChar_skip cur m 0

@[simp] theorem inputIdx_eat (pos : Pos) (c : BitVec 8) : (pos.eat c).inputIdx = pos.inputIdx + 1 := by
  unfold Pos.eat
  split <;> rfl

theorem inputIdx_skip (inside : n ≤ cur.rest.length) : (cur.skip n).pos.inputIdx = cur.pos.inputIdx + n := by
  have eats (taken : Text) (pos : Pos) : (taken.foldl Pos.eat pos).inputIdx = pos.inputIdx + taken.length := by
    induction taken generalizing pos with
    | nil => rfl
    | cons c taken ih =>
      rw [List.foldl_cons, ih, inputIdx_eat, List.length_cons]
      omega
  rw [skip, eats, List.length_take, Nat.min_eq_left inside]

/-- A character that isn't the NUL is in the text. -/
theorem lt_of_peekChar_ne (some_char : cur.peekChar n ≠ 0) : n < cur.rest.length := by
  by_contra behind
  apply some_char
  rw [peekChar, List.getElem?_eq_none (by omega), Option.getD_none]

/-- In front of a character that isn't the NUL, the text goes on with it. -/
theorem exists_cons (cur : Cursor) (some_char : cur.peekNextChar ≠ 0) : ∃ c tail, cur.rest = c :: tail :=
  List.exists_cons_of_length_pos (lt_of_peekChar_ne some_char)

theorem peekNextChar_cons (cur : Cursor) {c : BitVec 8} {tail : Text} (rest : cur.rest = c :: tail) :
    cur.peekNextChar = c := by
  rw [peekNextChar, peekChar, rest]
  rfl

theorem eatCharacter_eq (inside : 0 < cur.rest.length) : cur.eatCharacter = some (cur.skip 1) := by
  obtain ⟨c, rest, split⟩ := List.exists_cons_of_length_pos inside
  rw [eatCharacter, skip, split]
  rfl

theorem eatCharacters_eq (inside : n ≤ cur.rest.length) : eatCharacters n cur = some (cur.skip n) := by
  induction n generalizing cur with
  | zero => rfl
  | succ n ih =>
    have behind : n ≤ (cur.skip 1).rest.length := by
      rw [rest_skip, List.length_drop]
      omega
    rw [eatCharacters, eatCharacter_eq (by omega), Option.bind_some, ih behind, skip_skip, Nat.add_comm]

/-- A loop that only goes on in the text ends at the first place where its condition fails. -/
theorem eatWhile_spec (inside : ∀ n, more (cur.skip n) = true → n < cur.rest.length)
    (enough : cur.rest.length < fuel) :
    ∃ n ≤ cur.rest.length, eatWhile more fuel cur = some (cur.skip n) ∧
      (∀ k < n, more (cur.skip k) = true) ∧ more (cur.skip n) = false := by
  induction fuel generalizing cur with
  | zero => omega
  | succ fuel ih =>
    cases goes : more cur with
    | false =>
      refine ⟨0, Nat.zero_le _, ?_, fun k lt => absurd lt (Nat.not_lt_zero k), goes⟩
      rw [eatWhile, goes]
      rfl
    | true =>
      have positive := inside 0 goes
      have length : (cur.skip 1).rest.length + 1 = cur.rest.length := by
        rw [rest_skip, List.length_drop]
        omega
      have inside_next : ∀ n, more ((cur.skip 1).skip n) = true → n < (cur.skip 1).rest.length := by
        intro n more_there
        rw [skip_skip] at more_there
        have lt := inside (1 + n) more_there
        omega
      obtain ⟨n, le, ends, before, stops⟩ := ih inside_next (by omega)
      refine ⟨1 + n, by omega, ?_, fun k lt => ?_, ?_⟩
      · rw [eatWhile, goes, if_pos rfl, eatCharacter_eq positive, Option.bind_some, ends, skip_skip]
      · cases k with
        | zero => exact goes
        | succ k =>
          rw [Nat.add_comm k 1, ← skip_skip]
          exact before k (by omega)
      · rw [← skip_skip]
        exact stops

end Lemmas

end Cursor

section Positions

variable {text : Text}

/-- The position behind a character is that of the next place. -/
theorem Pos.of_succ {idx : ℕ} {c : BitVec 8} (here : text[idx]? = some c) :
    (Pos.of text idx).eat c = Pos.of text (idx + 1) := by
  have taken : text.take (idx + 1) = text.take idx ++ [c] := by
    rw [List.take_add_one, here]
    rfl
  unfold Pos.eat Pos.of
  rw [taken, List.count_append]
  split
  · next newline =>
    rw [newline, List.rtakeWhile_concat_neg _ _ _ (by simp)]
    simp [Nat.add_assoc]
  · next other =>
    rw [List.rtakeWhile_concat_pos _ _ _ (by simpa using other), List.count_singleton, if_neg (by simpa using other)]
    simp [Nat.add_assoc]

/-- The cursor at a place of the text. -/
def Cursor.of (text : Text) (idx : ℕ) : Cursor := ⟨text.drop idx, Pos.of text idx⟩

theorem Cursor.skip_of {idx n : ℕ} (inside : idx + n ≤ text.length) :
    (Cursor.of text idx).skip n = Cursor.of text (idx + n) := by
  induction n with
  | zero => rfl
  | succ n ih =>
    have here : text[idx + n]? = some text[idx + n] := List.getElem?_eq_getElem (by omega)
    rw [← Cursor.skip_skip, ih (by omega)]
    unfold Cursor.skip Cursor.of
    rw [List.drop_drop, List.drop_eq_getElem_cons (show idx + n < text.length by omega)]
    exact congrArg (Cursor.mk _) (Pos.of_succ here)

end Positions

end Saad.Lexer
