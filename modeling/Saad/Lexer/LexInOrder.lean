import Saad.Lexer.LexFile

/-! # The tokens are in order

Each turn of the lexer goes on in the text by at least one character and never over its NUL. So it ends, the
tokens lie in the text one behind the other, with their lines and columns, and what is between them is skipped.
-/

namespace Saad.Lexer

namespace Cursor

section Moving

variable {start middle stop : Cursor} {n fuel : ℕ}

/-- A cursor that is further in the text, or at the same place. -/
def Within (start stop : Cursor) : Prop := ∃ n ≤ start.rest.length, stop = start.skip n

/-- A cursor that is further in the text. -/
def Behind (start stop : Cursor) : Prop := ∃ n, 0 < n ∧ n ≤ start.rest.length ∧ stop = start.skip n

theorem Within.refl (start : Cursor) : start.Within start := ⟨0, Nat.zero_le _, rfl⟩

theorem Within.trans (left : start.Within middle) (right : middle.Within stop) : start.Within stop := by
  obtain ⟨n, le, rfl⟩ := left
  obtain ⟨m, le', rfl⟩ := right
  rw [rest_skip, List.length_drop] at le'
  exact ⟨n + m, by omega, skip_skip _ _ _⟩

theorem Behind.within (behind : start.Behind stop) : start.Within stop := by
  obtain ⟨n, -, le, is⟩ := behind
  exact ⟨n, le, is⟩

theorem Behind.trans (left : start.Behind middle) (right : middle.Within stop) : start.Behind stop := by
  obtain ⟨n, positive, le, rfl⟩ := left
  obtain ⟨m, le', rfl⟩ := right
  rw [rest_skip, List.length_drop] at le'
  exact ⟨n + m, by omega, by omega, skip_skip _ _ _⟩

/-- A character that isn't the NUL can be eaten. -/
theorem eat_behind (some_char : start.peekNextChar ≠ 0) : ∃ stop, start.eatCharacter = some stop ∧ start.Behind stop := by
  have inside := lt_of_peekChar_ne some_char
  exact ⟨start.skip 1, eatCharacter_eq inside, 1, Nat.one_pos, inside, rfl⟩

/-- Characters in front of one that isn't the NUL, and that one. -/
theorem eatCharacters_behind (some_char : start.peekChar n ≠ 0) :
    ∃ stop, eatCharacters (n + 1) start = some stop ∧ start.Behind stop := by
  have inside := lt_of_peekChar_ne some_char
  exact ⟨start.skip (n + 1), eatCharacters_eq inside, n + 1, n.succ_pos, inside, rfl⟩

end Moving

end Cursor

section Loops

variable {start cur : Cursor} {fuel : ℕ}

/-- A loop over characters ends in front of the first that isn't one of them. -/
theorem eatCharactersWhile_spec (more : BitVec 8 → Bool) (start : Cursor) :
    ∃ n ≤ start.rest.length, eatCharactersWhile more start = some (start.skip n) ∧
      (∀ k < n, more (start.peekChar k) = true) ∧
      (start.peekChar n = 0 ∨ more (start.peekChar n) = false) := by
  have inside (n : ℕ) (goes : ((start.skip n).peekNextChar != 0 && more (start.skip n).peekNextChar) = true) :
      n < start.rest.length := by
    rw [Cursor.peekNextChar_skip, Bool.and_eq_true, bne_iff_ne] at goes
    exact Cursor.lt_of_peekChar_ne goes.1
  obtain ⟨n, le, ends, before, stops⟩ := @Cursor.eatWhile_spec start
    (fun cur => cur.peekNextChar != 0 && more cur.peekNextChar) _ inside start.rest.length.lt_succ_self
  refine ⟨n, le, ends, fun k lt => ?_, ?_⟩
  · have goes := before k lt
    rw [Cursor.peekNextChar_skip, Bool.and_eq_true] at goes
    exact goes.2
  · rw [Cursor.peekNextChar_skip, Bool.and_eq_false_iff, bne_eq_false_iff_eq] at stops
    exact stops

theorem isAlphanumeric_ne_nul : ∀ c : BitVec 8, (isDigit c ∨ isLetter c) → c ≠ 0 := by decide

theorem isDigit_ne_nul : ∀ c : BitVec 8, isDigit c = true → c ≠ 0 := by decide

/-- The digits of a number are digits, and `_` in front of one. -/
theorem eatDigits_spec (start : Cursor) :
    ∃ n ≤ start.rest.length, eatDigits start = some (start.skip n) ∧
      ∀ k < n, isDigit (start.peekChar k) = true ∨ start.peekChar k = byteOf '_' := by
  have inside (n : ℕ) (goes : (isDigit (start.skip n).peekNextChar ||
      ((start.skip n).peekNextChar == byteOf '_' && isDigit ((start.skip n).peekChar 1))) = true) :
      n < start.rest.length := by
    rw [Cursor.peekNextChar_skip, Bool.or_eq_true, Bool.and_eq_true, beq_iff_eq] at goes
    apply Cursor.lt_of_peekChar_ne
    obtain digit | underscore := goes
    · exact isDigit_ne_nul _ digit
    · rw [underscore.1]
      decide
  obtain ⟨n, le, ends, before, -⟩ := @Cursor.eatWhile_spec start
    (fun cur => isDigit cur.peekNextChar || (cur.peekNextChar == byteOf '_' && isDigit (cur.peekChar 1))) _ inside
    start.rest.length.lt_succ_self
  refine ⟨n, le, ends, fun k lt => ?_⟩
  have goes := before k lt
  rw [Cursor.peekNextChar_skip, Bool.or_eq_true, Bool.and_eq_true, beq_iff_eq] at goes
  exact goes.imp_right And.left

/-- A string ends at its quote or at the end of the text. -/
theorem eatString_within (enough : start.rest.length < fuel) : ∃ stop, eatString fuel start = some stop ∧
    start.Within stop ∧ (stop.peekNextChar = byteOf '"' ∨ stop.peekNextChar = 0) := by
  induction fuel generalizing start with
  | zero => omega
  | succ fuel ih =>
    rw [eatString]
    split_ifs with ends escape
    · exact ⟨start, rfl, .refl start, ends⟩
    · obtain ⟨middle, eats, n, positive, le, rfl⟩ := Cursor.eatCharacters_behind escape.2
      have shorter : (start.skip n).rest.length < fuel := by
        rw [Cursor.rest_skip, List.length_drop]
        omega
      obtain ⟨stop, others, within, last⟩ := ih shorter
      rw [eats]
      exact ⟨stop, others, .trans ⟨n, le, rfl⟩ within, last⟩
    · obtain ⟨middle, eats, n, positive, le, rfl⟩ := Cursor.eat_behind (not_or.mp ends).2
      have shorter : (start.skip n).rest.length < fuel := by
        rw [Cursor.rest_skip, List.length_drop]
        omega
      obtain ⟨stop, others, within, last⟩ := ih shorter
      rw [eats]
      exact ⟨stop, others, .trans ⟨n, le, rfl⟩ within, last⟩

/-- The digits and letters of a number in base 16, 2 or 8. -/
theorem readBasedDigits_spec (base : ℕ) {number : BasedNumber} (enough : start.rest.length < fuel) :
    ∃ n ≤ start.rest.length, readBasedDigits base fuel start number = some (start.skip n,
        ((start.rest.take n).filter (· != byteOf '_')).foldl (fun number c => number.add base (letterNumber c)) number) ∧
      ∀ c ∈ start.rest.take n, c = byteOf '_' ∨ isDigit c ∨ isLetter c := by
  induction fuel generalizing start number with
  | zero => omega
  | succ fuel ih =>
    rw [readBasedDigits]
    split_ifs with underscore digit
    · obtain ⟨c, tail, rest⟩ := start.exists_cons (by rw [underscore]; decide)
      have first := start.peekNextChar_cons rest
      rw [underscore] at first
      have eats := @Cursor.eatCharacter_eq start (by rw [rest]; exact Nat.succ_pos _)
      have next : (start.skip 1).rest = tail := by
        rw [Cursor.rest_skip, rest]
        rfl
      rw [rest, List.length_cons] at enough
      obtain ⟨n, le, reads, chars⟩ := @ih (start.skip 1) number (by rw [next]; omega)
      rw [next] at le reads chars
      refine ⟨n + 1, by rw [rest, List.length_cons]; omega, ?_, ?_⟩
      · rw [eats, Option.bind_eq_bind, Option.bind_some, reads, Cursor.skip_skip, rest, List.take_succ_cons, ← first,
          Nat.add_comm 1 n, List.filter_cons_of_neg (by simp)]
      · intro d mem
        rw [rest, List.take_succ_cons, List.mem_cons] at mem
        obtain rfl | mem := mem
        · exact .inl first.symm
        · exact chars d mem
    · obtain ⟨c, tail, rest⟩ := start.exists_cons (isAlphanumeric_ne_nul _ digit)
      have first := start.peekNextChar_cons rest
      rw [first] at underscore digit ⊢
      have eats := @Cursor.eatCharacter_eq start (by rw [rest]; exact Nat.succ_pos _)
      have next : (start.skip 1).rest = tail := by
        rw [Cursor.rest_skip, rest]
        rfl
      rw [rest, List.length_cons] at enough
      obtain ⟨n, le, reads, chars⟩ := @ih (start.skip 1) (number.add base (letterNumber c)) (by rw [next]; omega)
      rw [next] at le reads chars
      refine ⟨n + 1, by rw [rest, List.length_cons]; omega, ?_, ?_⟩
      · rw [eats, Option.bind_eq_bind, Option.bind_some, reads, Cursor.skip_skip, rest, List.take_succ_cons,
          Nat.add_comm 1 n, List.filter_cons_of_pos (by simpa using underscore), List.foldl_cons]
      · intro d mem
        rw [rest, List.take_succ_cons, List.mem_cons] at mem
        obtain rfl | mem := mem
        · exact .inr digit
        · exact chars d mem
    · exact ⟨0, Nat.zero_le _, rfl, by simp⟩

end Loops

section Quotes

variable {cur : Cursor}

theorem isHexDigit_ne_nul : ∀ c : BitVec 8, isHexDigit c = true → c ≠ 0 := by decide

theorem lexEscape_within (cur : Cursor) : ∃ stop value, lexEscape cur = some (stop, value) ∧ cur.Within stop := by
  unfold lexEscape
  dsimp only
  split_ifs with hex
  · have inside := Cursor.lt_of_peekChar_ne (isHexDigit_ne_nul _ hex.2.2)
    rw [Cursor.eatCharacters_eq (by omega)]
    exact ⟨_, _, rfl, 2, by omega, rfl⟩
  · exact ⟨_, _, rfl, .refl cur⟩

theorem lexQuoted_within (cur : Cursor) :
    ∃ stop value errors, lexQuoted cur = some (stop, value, errors) ∧ cur.Within stop := by
  unfold lexQuoted
  dsimp only
  split_ifs with escape empty wide
  · obtain ⟨middle, eats, behind⟩ := @Cursor.eat_behind cur (by rw [escape]; decide)
    obtain ⟨inner, value, reads, within⟩ := lexEscape_within middle
    rw [eats, Option.bind_eq_bind, Option.bind_some]
    change ∃ stop value errors, (lexEscape middle).bind _ = _ ∧ _
    rw [reads, Option.bind_some]
    dsimp only
    split_ifs with more unknown unknown
    · obtain ⟨stop, eats, last⟩ := Cursor.eat_behind more
      rw [eats]
      exact ⟨stop, _, _, rfl, behind.within.trans (within.trans last.within)⟩
    · obtain ⟨stop, eats, last⟩ := Cursor.eat_behind more
      rw [eats]
      exact ⟨stop, _, _, rfl, behind.within.trans (within.trans last.within)⟩
    · exact ⟨inner, _, _, rfl, behind.within.trans within⟩
    · exact ⟨inner, _, _, rfl, behind.within.trans within⟩
  · exact ⟨_, _, _, rfl, .refl cur⟩
  · obtain ⟨n, le, eats, -⟩ := eatCharactersWhile_spec (fun c => 0x80 ≤ c.toNat) cur
    rw [eats]
    exact ⟨_, _, _, rfl, n, le, rfl⟩
  · obtain ⟨stop, eats, behind⟩ := Cursor.eat_behind (fun nul => empty (.inr (.inr nul)))
    rw [eats]
    exact ⟨stop, _, _, rfl, behind.within⟩

theorem lexClosing_within (cur : Cursor) :
    ∃ stop errors, lexClosing cur = some (stop, errors) ∧ cur.Within stop := by
  unfold lexClosing
  dsimp only
  split_ifs with quote later
  · obtain ⟨stop, eats, behind⟩ := @Cursor.eat_behind cur (by rw [quote]; decide)
    rw [eats]
    exact ⟨stop, _, rfl, behind.within⟩
  · obtain ⟨stop, eats, behind⟩ := @Cursor.eatCharacters_behind cur _ (by rw [later]; decide)
    rw [eats]
    exact ⟨stop, _, rfl, behind.within⟩
  · exact ⟨cur, _, rfl, .refl cur⟩

end Quotes

section Turns

variable {cur : Cursor} {afterDot : Bool}

/-- A turn that pushes a token goes on to its end. -/
structure Pushes (cur : Cursor) (step : Step) : Prop where
  behind : cur.Behind step.cursor
  token : ∃ token ∈ step.token, token.type ≠ .tokenEnd ∧ token.start = cur.pos ∧ token.stop = step.cursor.pos

theorem lexCharacter_pushes (some_char : cur.peekNextChar ≠ 0) : ∃ step, lexCharacter cur = some step ∧ Pushes cur step := by
  obtain ⟨opened, eats, behind⟩ := Cursor.eat_behind some_char
  obtain ⟨inner, value, errors, reads, within⟩ := lexQuoted_within opened
  obtain ⟨stop, closing, closes, within'⟩ := lexClosing_within inner
  refine ⟨⟨stop, some ⟨.integer, cur.pos, stop.pos, .character value⟩, errors ++ closing⟩, ?_,
    behind.trans (within.trans within'), _, rfl, by simp, rfl, rfl⟩
  unfold lexCharacter
  rw [eats]
  change (lexQuoted opened).bind _ = _
  rw [reads]
  change (lexClosing inner).bind _ = _
  rw [closes]
  rfl

theorem lexString_pushes (some_char : cur.peekNextChar ≠ 0) : ∃ step, lexString cur = some step ∧ Pushes cur step := by
  obtain ⟨opened, eats, behind⟩ := Cursor.eat_behind some_char
  obtain ⟨inner, reads, within, last⟩ := @eatString_within opened _ opened.rest.length.lt_succ_self
  unfold lexString
  rw [eats, Option.bind_eq_bind, Option.bind_some, reads, Option.bind_some]
  split_ifs with ends
  · exact ⟨_, rfl, behind.trans within, _, rfl, by simp, rfl, rfl⟩
  · obtain ⟨stop, closes, behind'⟩ := Cursor.eat_behind ends
    rw [closes]
    exact ⟨_, rfl, behind.trans (within.trans behind'.within), _, rfl, by simp, rfl, rfl⟩

theorem lexBased_pushes (letter : cur.peekChar 1 ≠ 0) : ∃ step, lexBased cur = some step ∧ Pushes cur step := by
  obtain ⟨opened, eats, behind⟩ := Cursor.eatCharacters_behind letter
  unfold lexBased
  dsimp only
  obtain ⟨n, le, reads, -⟩ := @readBasedDigits_spec opened (opened.rest.length + 1)
    (if toLower (cur.peekChar 1) = byteOf 'x' then 16 else if toLower (cur.peekChar 1) = byteOf 'b' then 2 else 8) {}
    opened.rest.length.lt_succ_self
  rw [eats, Option.bind_eq_bind, Option.bind_some, reads]
  exact ⟨_, rfl, behind.trans ⟨n, le, rfl⟩, _, rfl, by simp, rfl, rfl⟩

theorem lexNumber_pushes (some_char : cur.peekNextChar ≠ 0) : ∃ step, lexNumber cur = some step ∧ Pushes cur step := by
  obtain ⟨first, eats, behind⟩ := Cursor.eat_behind some_char
  obtain ⟨n, le, digits, -⟩ := eatDigits_spec first
  unfold lexNumber
  rw [eats, Option.bind_eq_bind, Option.bind_some, digits, Option.bind_some]
  split_ifs with fraction
  · obtain ⟨point, eats', behind'⟩ := @Cursor.eat_behind (first.skip n) (by rw [fraction.1]; decide)
    obtain ⟨m, le', digits', -⟩ := eatDigits_spec point
    rw [eats', Option.bind_some, digits', Option.bind_some]
    exact ⟨_, rfl, behind.trans (.trans ⟨n, le, rfl⟩ (behind'.within.trans ⟨m, le', rfl⟩)), _, rfl, by simp, rfl, rfl⟩
  · exact ⟨_, rfl, behind.trans ⟨n, le, rfl⟩, _, rfl, by simp, rfl, rfl⟩

theorem lexIdentifier_pushes (some_char : cur.peekNextChar ≠ 0) :
    ∃ step, lexIdentifier cur = some step ∧ Pushes cur step := by
  obtain ⟨first, eats, behind⟩ := Cursor.eat_behind some_char
  obtain ⟨n, le, others, -⟩ := eatCharactersWhile_spec proceedsIdentifier first
  unfold lexIdentifier
  rw [eats, Option.bind_eq_bind, Option.bind_some, others, Option.bind_some]
  exact ⟨_, rfl, behind.trans ⟨n, le, rfl⟩, _, rfl, by simp, rfl, rfl⟩

theorem lexSingle_pushes (some_char : cur.peekNextChar ≠ 0) (one_line : cur.peekNextChar ≠ byteOf '\n') :
    ∃ step, lexSingle cur = some step ∧ Pushes cur step := by
  obtain ⟨c, tail, rest⟩ := cur.exists_cons some_char
  rw [cur.peekNextChar_cons rest] at one_line
  have eats := @Cursor.eatCharacter_eq cur (by rw [rest]; exact Nat.succ_pos _)
  have pos : (cur.skip 1).pos = { cur.pos with inputIdx := cur.pos.inputIdx + 1, col := cur.pos.col + 1 } := by
    rw [Cursor.skip, rest]
    exact if_neg one_line
  unfold lexSingle
  rw [eats, Option.bind_eq_bind, Option.bind_some, pos]
  exact ⟨_, rfl, ⟨1, Nat.one_pos, by rw [rest]; exact Nat.succ_pos _, rfl⟩, _, rfl, by simp, rfl, pos.symm⟩

end Turns

section Skipping

/-- A character that no token and no blank begins with. -/
def IsUnknown (c : BitVec 8) : Prop :=
  ¬(c = byteOf ' ' ∨ c = byteOf '\t' ∨ c = byteOf '\n') ∧ ¬isDigit c ∧ c ≠ byteOf '\'' ∧ c ≠ byteOf '"' ∧
    ¬startsIdentifier c ∧ ¬isSingleCharacterToken c

instance (c : BitVec 8) : Decidable (IsUnknown c) := inferInstanceAs (Decidable (_ ∧ _))

/-- A byte of UTF-8 behind the first of a character. -/
def IsContinuation (c : BitVec 8) : Prop := 0x80 ≤ c.toNat ∧ c.toNat < 0xC0

/-- What may be between two tokens: a blank, a comment up to the end of its line or the NUL, or an unknown
character with all of its bytes. -/
inductive Skippable : Text → Text → Prop
  | blank {c : BitVec 8} {behind : Text} (is : c = byteOf ' ' ∨ c = byteOf '\t' ∨ c = byteOf '\n') :
      Skippable [c] behind
  | comment {line behind : Text} (one_line : ∀ c ∈ line, c ≠ byteOf '\n')
      (ends : ∀ c ∈ behind.head?, c = 0 ∨ c = byteOf '\n') : Skippable (byteOf '/' :: byteOf '/' :: line) behind
  | unknown {c : BitVec 8} {more behind : Text} (is : IsUnknown c) (short : more.length ≤ unknownLength c)
      (continues : ∀ d ∈ more, IsContinuation d) : Skippable (c :: more) behind

/-- The bytes that an unknown first one announces are those of its character, as far as the text goes. -/
def WholeAt (cur : Cursor) : Prop :=
  IsUnknown cur.peekNextChar → ∀ d ∈ cur.rest.tail.take (unknownLength cur.peekNextChar), IsContinuation d

variable {cur : Cursor} {afterDot : Bool}

/-- A turn that pushes no token goes on over what it skips. -/
structure Skips (cur : Cursor) (step : Step) (n : ℕ) : Prop where
  token : step.token = none
  positive : 0 < n
  inside : n ≤ cur.rest.length
  cursor : step.cursor = cur.skip n
  skippable : Skippable (cur.rest.take n) (cur.rest.drop n) ↔ WholeAt cur

theorem lexComment_skips (slash : cur.peekNextChar = byteOf '/') (slashes : cur.peekChar 1 = byteOf '/') :
    ∃ step n, lexComment cur = some step ∧ Skips cur step n := by
  obtain ⟨c, tail, rest⟩ := cur.exists_cons (by rw [slash]; decide)
  obtain rfl : c = byteOf '/' := (cur.peekNextChar_cons rest).symm.trans slash
  obtain ⟨line, rfl⟩ : ∃ line, tail = byteOf '/' :: line := by
    have inside := @Cursor.lt_of_peekChar_ne cur 1 (by rw [slashes]; decide)
    rw [rest, List.length_cons] at inside
    obtain ⟨d, line, is⟩ := List.exists_cons_of_length_pos (show 0 < tail.length by omega)
    rw [Cursor.peekChar, rest, is] at slashes
    obtain rfl : d = byteOf '/' := slashes
    exact ⟨line, is⟩
  have next : (cur.skip 2).rest = line := by
    rw [Cursor.rest_skip, rest]
    rfl
  obtain ⟨n, le, eats, before, stops⟩ := eatCharactersWhile_spec (fun c => c != byteOf '\n') (cur.skip 2)
  rw [next] at le
  have taken : cur.rest.take (2 + n) = byteOf '/' :: byteOf '/' :: line.take n := by
    rw [rest, Nat.add_comm]
    rfl
  have left : cur.rest.drop (2 + n) = line.drop n := by
    rw [rest, Nat.add_comm]
    rfl
  refine ⟨{ cursor := cur.skip (2 + n) }, 2 + n, ?_, rfl, by omega, ?_, rfl, ?_⟩
  · unfold lexComment
    rw [Cursor.eatCharacters_eq (by rw [rest]; simp), Option.bind_eq_bind, Option.bind_some, eats, Option.bind_some,
      Cursor.skip_skip]
  · rw [rest, List.length_cons, List.length_cons]
    omega
  · have known : ¬IsUnknown cur.peekNextChar := by
      rw [slash]
      decide
    refine ⟨fun _ unknown => absurd unknown known, fun _ => ?_⟩
    rw [taken, left]
    apply Skippable.comment
    · intro c mem
      obtain ⟨k, lt, rfl⟩ := List.mem_iff_getElem.mp mem
      rw [List.length_take] at lt
      have goes := before k (by omega)
      rw [Cursor.peekChar, next, List.getElem?_eq_getElem (by omega), Option.getD_some, bne_iff_ne] at goes
      rwa [List.getElem_take]
    · intro c head
      rw [List.head?_drop] at head
      rw [Cursor.peekChar, next, head, Option.getD_some, bne_eq_false_iff_eq] at stops
      exact stops

theorem lexUnknown_skips (some_char : cur.peekNextChar ≠ 0) (unknown : IsUnknown cur.peekNextChar) :
    ∃ step n, lexUnknown cur = some step ∧ Skips cur step n := by
  obtain ⟨c, tail, rest⟩ := cur.exists_cons some_char
  have first := cur.peekNextChar_cons rest
  have length : (cur.rest.take (1 + unknownLength cur.peekNextChar)).length ≤ cur.rest.length := List.length_take_le' _ _
  refine ⟨⟨cur.skip (cur.rest.take (1 + unknownLength cur.peekNextChar)).length, none,
    [(cur.pos, .unknownCharacter (cur.rest.take (1 + unknownLength cur.peekNextChar)))]⟩,
    (cur.rest.take (1 + unknownLength cur.peekNextChar)).length, ?_, rfl, ?_, length, rfl, ?_⟩
  · unfold lexUnknown
    dsimp only
    rw [Cursor.eatCharacters_eq length]
    rfl
  · rw [rest, Nat.add_comm, List.take_succ_cons]
    exact Nat.succ_pos _
  · have taken : cur.rest.take (cur.rest.take (1 + unknownLength cur.peekNextChar)).length =
        c :: tail.take (unknownLength c) := by
      rw [← List.prefix_iff_eq_take.mp (List.take_prefix _ _), rest, first, Nat.add_comm, List.take_succ_cons]
    rw [taken]
    unfold WholeAt
    rw [rest, List.tail_cons, first]
    rw [first] at unknown
    constructor
    · intro skippable _
      generalize tail.take (unknownLength c) = more at skippable ⊢
      cases skippable with
      | blank is => exact absurd is unknown.1
      | comment _ _ => exact absurd unknown (by decide)
      | unknown _ _ continues => exact continues
    · intro whole
      exact .unknown unknown (List.length_take_le _ _) (whole unknown)

/-- An operator begins with a token of one character. -/
theorem single_of_double {first second : BitVec 8} (double : isDoubleCharacterToken first second) :
    isSingleCharacterToken first ∧ second ≠ 0 := by
  obtain ⟨token, mem, is⟩ := List.any_eq_true.mp double
  have all : ∀ token ∈ ["<<", ">>", "&&", "||", "<=", ">=", "==", "!=", ":=", "::", "->", "=>", "..", "??", "?.", "+=",
      "-=", "*=", "/=", "%=", "^=", "|=", "&="], isSingleCharacterToken ((asciiBytes token)[0]?.getD 0) = true ∧
        (asciiBytes token)[1]?.getD 0 ≠ 0 := by decide
  have holds := all token mem
  rw [beq_iff_eq.mp is] at holds
  exact holds

theorem single_of_triple {first second third : BitVec 8} (triple : isTripleCharacterToken first second third) :
    isSingleCharacterToken first ∧ third ≠ 0 := by
  unfold isTripleCharacterToken at triple
  simp only [Bool.or_eq_true, Bool.and_eq_true, beq_iff_eq] at triple
  obtain (⟨⟨rfl, rfl⟩, rfl⟩ | ⟨⟨rfl, rfl⟩, rfl⟩) | ⟨⟨rfl, rfl⟩, rfl⟩ := triple
  all_goals decide

theorem lexOperator_spec (some_char : cur.peekNextChar ≠ 0) (blank : ¬(cur.peekNextChar = byteOf ' ' ∨
    cur.peekNextChar = byteOf '\t' ∨ cur.peekNextChar = byteOf '\n')) (digit : ¬isDigit cur.peekNextChar)
    (quote : cur.peekNextChar ≠ byteOf '\'') (quotes : cur.peekNextChar ≠ byteOf '"')
    (letter : ¬startsIdentifier cur.peekNextChar) : ∃ step, lexOperator cur = some step ∧
      ((Pushes cur step ∧ ¬IsUnknown cur.peekNextChar) ∨ ∃ n, Skips cur step n) := by
  unfold lexOperator
  dsimp only
  split_ifs with triple double single
  · obtain ⟨single, some_third⟩ := single_of_triple triple
    obtain ⟨stop, eats, behind⟩ := Cursor.eatCharacters_behind some_third
    rw [eats]
    exact ⟨_, rfl, .inl ⟨⟨behind, _, rfl, by simp, rfl, rfl⟩, fun unknown => unknown.2.2.2.2.2 single⟩⟩
  · obtain ⟨single, some_second⟩ := single_of_double double
    obtain ⟨stop, eats, behind⟩ := Cursor.eatCharacters_behind some_second
    rw [eats]
    exact ⟨_, rfl, .inl ⟨⟨behind, _, rfl, by simp, rfl, rfl⟩, fun unknown => unknown.2.2.2.2.2 single⟩⟩
  · obtain ⟨step, steps, pushes⟩ := lexSingle_pushes some_char fun newline => blank (.inr (.inr newline))
    exact ⟨step, steps, .inl ⟨pushes, fun unknown => unknown.2.2.2.2.2 single⟩⟩
  · obtain ⟨step, n, steps, skips⟩ := lexUnknown_skips some_char ⟨blank, digit, quote, quotes, letter, single⟩
    exact ⟨step, steps, .inr ⟨n, skips⟩⟩

/-- A keyword begins with a letter and lies in the text. -/
theorem keywordAt_cases {word : Text} (some_char : cur.peekNextChar ≠ 0)
    (known : keywordAt afterDot cur.peekNextChar cur.rest.tail = some word) :
    0 < word.length ∧ word.length ≤ cur.rest.length ∧
      (startsIdentifier cur.peekNextChar ∨ isDigit cur.peekNextChar) := by
  obtain ⟨c, tail, rest⟩ := cur.exists_cons some_char
  rw [cur.peekNextChar_cons rest, rest, List.tail_cons] at known
  unfold keywordAt at known
  dsimp only at known
  split at known
  · next is =>
    cases known
    have nonempty : wordAt c tail ≠ [] := by
      intro empty
      rw [empty] at is
      exact absurd is.1 (by decide)
    have first : (startsIdentifier c || isDigit c) = true := by
      by_contra not_first
      apply nonempty
      exact List.takeWhile_cons_of_neg not_first
    rw [cur.peekNextChar_cons rest, rest]
    exact ⟨List.length_pos_of_ne_nil nonempty, (List.takeWhile_prefix _).length_le, Bool.or_eq_true _ _ |>.mp first⟩
  · cases known

theorem lexKeyword_pushes {word : Text} (positive : 0 < word.length) (inside : word.length ≤ cur.rest.length) :
    ∃ step, lexKeyword cur word = some step ∧ Pushes cur step := by
  unfold lexKeyword
  rw [Cursor.eatCharacters_eq inside, Option.bind_eq_bind, Option.bind_some]
  split_ifs
  · exact ⟨_, rfl, ⟨_, positive, inside, rfl⟩, _, rfl, by simp, rfl, rfl⟩
  · exact ⟨_, rfl, ⟨_, positive, inside, rfl⟩, _, rfl, by simp, rfl, rfl⟩

/-- A turn goes on to the end of a token, or over what it skips. -/
theorem lexStep_spec (afterDot : Bool) (some_char : cur.peekNextChar ≠ 0) : ∃ step, lexStep afterDot cur = some step ∧
    ((Pushes cur step ∧ ¬IsUnknown cur.peekNextChar) ∨ ∃ n, Skips cur step n) := by
  have keyword (word : Text) (known : keywordAt afterDot cur.peekNextChar cur.rest.tail = some word) :
      ∃ step, lexKeyword cur word = some step ∧ Pushes cur step := by
    obtain ⟨positive, inside, -⟩ := keywordAt_cases some_char known
    exact lexKeyword_pushes positive inside
  unfold lexStep
  dsimp only
  split_ifs with blank comment based digit quote quotes letter
  · have inside := Cursor.lt_of_peekChar_ne some_char
    obtain ⟨c, tail, rest⟩ := cur.exists_cons some_char
    rw [Cursor.eatCharacter_eq inside]
    refine ⟨_, rfl, .inr ⟨1, rfl, Nat.one_pos, inside, rfl, fun _ unknown => absurd blank unknown.1, fun _ => ?_⟩⟩
    rw [rest]
    exact .blank (by rwa [← cur.peekNextChar_cons rest])
  · obtain ⟨step, n, steps, skips⟩ := lexComment_skips comment.1 comment.2
    exact ⟨step, steps, .inr ⟨n, skips⟩⟩
  · have letter : cur.peekChar 1 ≠ 0 := by
      intro nul
      rw [nul] at based
      exact absurd based.2 (by decide)
    obtain ⟨step, steps, pushes⟩ := lexBased_pushes letter
    exact ⟨step, steps, .inl ⟨pushes, by rw [based.1]; decide⟩⟩
  · obtain ⟨step, steps, pushes⟩ := lexNumber_pushes some_char
    exact ⟨step, steps, .inl ⟨pushes, fun unknown => unknown.2.1 digit⟩⟩
  · obtain ⟨step, steps, pushes⟩ := lexCharacter_pushes some_char
    exact ⟨step, steps, .inl ⟨pushes, fun unknown => unknown.2.2.1 quote⟩⟩
  · obtain ⟨step, steps, pushes⟩ := lexString_pushes some_char
    exact ⟨step, steps, .inl ⟨pushes, fun unknown => unknown.2.2.2.1 quotes⟩⟩
  · cases known : keywordAt afterDot cur.peekNextChar cur.rest.tail with
    | some word =>
      obtain ⟨step, steps, pushes⟩ := keyword word known
      exact ⟨step, steps, .inl ⟨pushes, fun unknown => unknown.2.2.2.2.1 letter⟩⟩
    | none =>
      obtain ⟨step, steps, pushes⟩ := lexIdentifier_pushes some_char
      exact ⟨step, steps, .inl ⟨pushes, fun unknown => unknown.2.2.2.2.1 letter⟩⟩
  · cases known : keywordAt afterDot cur.peekNextChar cur.rest.tail with
    | some word => exact absurd ((keywordAt_cases some_char known).2.2.resolve_right digit) letter
    | none => exact lexOperator_spec some_char blank digit quote quotes letter

end Skipping

section Files

/-- The turns lie in a text one behind the other, from a place to the end: each pushes a token that starts and
ends there, or skips what isn't one. -/
def Laid (text : Text) (idx : ℕ) : List Step → Prop
  | [] => idx = text.length
  | step :: steps => ∃ next, idx < next ∧ next ≤ text.length ∧ step.cursor = Cursor.of text next ∧
      (match step.token with
        | some token => token.type ≠ .tokenEnd ∧ token.start = Pos.of text idx ∧ token.stop = Pos.of text next
        | none => Skippable ((text.drop idx).take (next - idx)) (text.drop next)) ∧
      Laid text next steps

/-- `lex_file` ends, with its tokens in order. -/
def LexesInOrder (text : Text) : Prop := ∃ steps,
  lexTurns text = some (steps, Cursor.of text text.length) ∧
    lexFile text = some (steps.filterMap (·.token) ++
      [⟨.tokenEnd, Pos.of text text.length, Pos.of text text.length, .none⟩], steps.flatMap (·.errors)) ∧
    Laid text 0 steps

/-- In each turn, an unknown character has all of the bytes that its first one announces. -/
def WholeCharacters : ℕ → Bool → Cursor → Prop
  | 0, _, _ => True
  | fuel + 1, afterDot, cur => cur.peekNextChar ≠ 0 → WholeAt cur ∧
      ∀ step ∈ lexStep afterDot cur, WholeCharacters fuel (isAfterDot afterDot step.token) step.cursor

/-- The text of a file in memory, which ends at its first NUL. -/
def sourceText (memory : Text) : Text := memory.takeWhile (· != 0)

variable {text : Text} {idx fuel : ℕ} {afterDot : Bool}

/-- From a place on, the turns go to the end of the text. -/
theorem lexSteps_laid (no_nul : 0 ∉ text) (inside : idx ≤ text.length) (enough : text.length - idx < fuel) :
    ∃ steps, lexSteps fuel afterDot (Cursor.of text idx) = some (steps, Cursor.of text text.length) ∧
      (Laid text idx steps ↔ WholeCharacters fuel afterDot (Cursor.of text idx)) := by
  induction fuel generalizing idx afterDot with
  | zero => omega
  | succ fuel ih =>
    rw [lexSteps, WholeCharacters]
    by_cases ends : (Cursor.of text idx).peekNextChar = 0
    · have last : idx = text.length := by
        by_contra more
        have lt : idx < text.length := by omega
        rw [Cursor.peekNextChar, Cursor.peekChar, Cursor.of, List.getElem?_drop, Nat.add_zero,
          List.getElem?_eq_getElem lt, Option.getD_some] at ends
        exact no_nul (ends ▸ List.getElem_mem lt)
      subst last
      rw [if_pos ends]
      exact ⟨[], rfl, fun _ more => absurd ends more, fun _ => rfl⟩
    · obtain ⟨step, steps, spec⟩ := lexStep_spec afterDot ends
      have length : (Cursor.of text idx).rest.length = text.length - idx := List.length_drop
      obtain ⟨n, positive, le, moved⟩ : (Cursor.of text idx).Behind step.cursor := by
        obtain ⟨pushes, -⟩ | ⟨n, skips⟩ := spec
        · exact pushes.behind
        · exact ⟨n, skips.positive, skips.inside, skips.cursor⟩
      rw [length] at le
      have next : step.cursor = Cursor.of text (idx + n) := moved.trans (Cursor.skip_of (by omega))
      obtain ⟨others, runs, laid⟩ := @ih (idx + n) (isAfterDot afterDot step.token) (by omega) (by omega)
      have unique (place : ℕ) (is : step.cursor = Cursor.of text place) : place = idx + n := by
        rw [next] at is
        exact (congrArg (fun cur => cur.pos.inputIdx) is).symm
      rw [if_neg ends, steps, Option.bind_eq_bind, Option.bind_some, next, runs]
      refine ⟨step :: others, rfl, ?_⟩
      have here : Laid text idx (step :: others) ↔ (match step.token with
          | some token => token.type ≠ .tokenEnd ∧ token.start = Pos.of text idx ∧ token.stop = Pos.of text (idx + n)
          | none => Skippable ((text.drop idx).take n) (text.drop (idx + n))) ∧ Laid text (idx + n) others := by
        constructor
        · rintro ⟨place, -, -, is, piece, rest⟩
          obtain rfl := unique place is
          rw [Nat.add_sub_cancel_left] at piece
          exact ⟨piece, rest⟩
        · rintro ⟨piece, rest⟩
          refine ⟨idx + n, by omega, by omega, next, ?_, rest⟩
          rwa [Nat.add_sub_cancel_left]
      rw [here, laid]
      have whole : (match step.token with
          | some token => token.type ≠ .tokenEnd ∧ token.start = Pos.of text idx ∧ token.stop = Pos.of text (idx + n)
          | none => Skippable ((text.drop idx).take n) (text.drop (idx + n))) ↔ WholeAt (Cursor.of text idx) := by
        obtain ⟨⟨-, token, is, kind, start, stop⟩, known⟩ | ⟨m, skips⟩ := spec
        · rw [is]
          rw [next] at stop
          exact ⟨fun _ unknown => absurd unknown known, fun _ => ⟨kind, start, stop⟩⟩
        · have same : m = n := by
            have places := congrArg (fun cur => cur.pos.inputIdx) (skips.cursor.symm.trans moved)
            rw [Cursor.inputIdx_skip skips.inside, Cursor.inputIdx_skip (by omega)] at places
            omega
          subst same
          rw [skips.token, ← skips.skippable, Cursor.of, List.drop_drop]
      rw [whole]
      constructor
      · rintro ⟨here, others⟩ -
        refine ⟨here, fun other is => ?_⟩
        cases is
        rwa [next]
      · intro all
        obtain ⟨here, others⟩ := all ends
        have last := others step rfl
        rw [next] at last
        exact ⟨here, last⟩

/-- The turns of a whole file. -/
theorem lexesInOrder_iff (memory : Text) : LexesInOrder (sourceText memory) ↔
    WholeCharacters ((sourceText memory).length + 1) false (Cursor.of (sourceText memory) 0) := by
  have no_nul : 0 ∉ sourceText memory := by
    intro mem
    exact absurd (List.mem_takeWhile_imp mem) (by decide)
  obtain ⟨steps, runs, laid⟩ := @lexSteps_laid (sourceText memory) 0 ((sourceText memory).length + 1) false no_nul
    (Nat.zero_le _) (by omega)
  rw [← laid]
  have turns : lexTurns (sourceText memory) =
      some (steps, Cursor.of (sourceText memory) (sourceText memory).length) := runs
  constructor
  · rintro ⟨others, same, -, laid⟩
    rw [turns] at same
    cases same
    exact laid
  · intro laid
    refine ⟨steps, turns, ?_, laid⟩
    rw [lexFile, turns]
    rfl

end Files

/-- The lexer ends with its tokens in order exactly when each unknown character has all of its bytes. -/
theorem lexFile_inOrder_iff (memory : Text) : LexesInOrder (sourceText memory) ↔
    WholeCharacters ((sourceText memory).length + 1) false (Cursor.of (sourceText memory) 0) :=
  lexesInOrder_iff memory

/-- The first byte of a letter takes the letter behind it with it. -/
theorem lexFile_not_inOrder : ¬∀ memory : Text, LexesInOrder (sourceText memory) := by
  intro all
  have whole := (lexesInOrder_iff [0xC3, 97]).mp (all [0xC3, 97])
  have first := (whole (by decide)).1 (by decide) 97 (by decide)
  exact absurd first.1 (by decide)

end Saad.Lexer
