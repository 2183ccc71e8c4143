import Saad.Json.Writer
import Saad.Std.Quoted

/-! # Words of names

A name is its words, and a style writes their letters. Separated and in lower case they are found again, so a name that
is written in snake case or kebab case first has the same words.
-/

namespace Saad.Json

section Words

/-- The characters that are no separators, and which of them start a word. -/
def marksFrom : Option (BitVec 8) → Bool → Text → List (Bool × BitVec 8)
  | _, _, [] => []
  | previous, inWord, ch :: rest =>
    if isSeparator ch then marksFrom (some ch) false rest
    else (startsWord inWord previous ch rest, ch) :: marksFrom (some ch) true rest

theorem marksFrom_separator {previous : Option (BitVec 8)} {inWord : Bool} {ch : BitVec 8} {rest : Text}
    (separator : isSeparator ch = true) : marksFrom previous inWord (ch :: rest) = marksFrom (some ch) false rest :=
  if_pos separator

theorem marksFrom_letter {previous : Option (BitVec 8)} {inWord : Bool} {ch : BitVec 8} {rest : Text}
    (letter : isSeparator ch = false) : marksFrom previous inWord (ch :: rest) =
      (startsWord inWord previous ch rest, ch) :: marksFrom (some ch) true rest :=
  if_neg (by simp [letter])

def marks (name : Text) : List (Bool × BitVec 8) := marksFrom none false name

variable (style : NameStyle)

/-- The characters for one of the name. -/
def rendered (word : ℕ) (mark : Bool × BitVec 8) : Text :=
  if mark.1 then
    (if word > 0 then style.separator.toList else []) ++
      [if style.capital (word + 1) then toUpper mark.2 else toLower mark.2]
  else [if style = .upperSnake then toUpper mark.2 else toLower mark.2]

/-- The words in a style. -/
def render : ℕ → List (Bool × BitVec 8) → Text
  | _, [] => []
  | word, mark :: rest => rendered style word mark ++ render (if mark.1 then word + 1 else word) rest

/-- The name in a style. -/
def styled (name : Text) : Text := if style = .asWritten then name else render style 0 (marks name)

end Words

section Written

variable {style : NameStyle} {previous : Option (BitVec 8)} {word : ℕ} {inWord : Bool} {name : Text}
  {sb grown : StringBuilder}

theorem addStyledFrom_cons {ch : BitVec 8} {rest : Text} (letter : isSeparator ch = false) :
    addStyledFrom style previous word inWord (ch :: rest) sb =
      (rendered style word (startsWord inWord previous ch rest, ch)).foldlM StringBuilder.addChar sb >>=
        addStyledFrom style (some ch) (if startsWord inWord previous ch rest then word + 1 else word) true rest := by
  rw [addStyledFrom, if_neg (by simp [letter]), rendered]
  by_cases starts : startsWord inWord previous ch rest = true
  · simp only [starts, if_true, List.foldlM_append, List.foldlM_cons, List.foldlM_nil, bind_assoc, pure_bind]
    cases style.separator with
    | none => simp
    | some separator =>
      by_cases first : word > 0
      · simp [first]
      · simp [first]
  · simp only [starts, if_false, Bool.false_eq_true, List.foldlM_cons, List.foldlM_nil, bind_assoc, pure_bind]

/-- The loop adds the words, as far as there is room for them. -/
theorem addStyledFrom_text (sound : sb.Sound)
    (adds : addStyledFrom style previous word inWord name sb = some grown) :
    grown.Sound ∧ grown.text = sb.text ++ render style word (marksFrom previous inWord name) := by
  induction name generalizing previous word inWord sb with
  | nil =>
    cases adds
    exact ⟨sound, (List.append_nil _).symm⟩
  | cons ch rest ih =>
    cases letter : isSeparator ch with
    | true =>
      rw [addStyledFrom, if_pos letter] at adds
      rw [marksFrom_separator letter]
      exact ih sound adds
    | false =>
      rw [addStyledFrom_cons letter] at adds
      obtain ⟨middle, first, others⟩ := Option.bind_eq_some_iff.mp adds
      obtain ⟨middleSound, middleText⟩ := sound.addChars first
      obtain ⟨grownSound, text⟩ := ih middleSound others
      refine ⟨grownSound, ?_⟩
      rw [text, middleText, marksFrom_letter letter, render, List.append_assoc]

theorem addStyledFrom_of_fits (sound : sb.Sound)
    (fits : sb.text.length + (render style word (marksFrom previous inWord name)).length < 2 ^ 30) :
    ∃ grown, addStyledFrom style previous word inWord name sb = some grown := by
  induction name generalizing previous word inWord sb with
  | nil => exact ⟨sb, rfl⟩
  | cons ch rest ih =>
    cases letter : isSeparator ch with
    | true =>
      rw [marksFrom_separator letter] at fits
      rw [addStyledFrom, if_pos letter]
      exact ih sound fits
    | false =>
      rw [marksFrom_letter letter, render, List.length_append] at fits
      obtain ⟨middle, first⟩ := @StringBuilder.Sound.addChars_of_fits sb
        (rendered style word (startsWord inWord previous ch rest, ch)) sound (by omega)
      obtain ⟨middleSound, middleText⟩ := sound.addChars first
      rw [addStyledFrom_cons letter, first]
      exact ih middleSound (by
        rw [middleText, List.length_append]
        dsimp only at fits
        omega)

/-- There is room for the name, and for what is written of it. -/
def HasRoom (name : Text) (style : NameStyle) : Prop :=
  style ≠ .asWritten → name.length + 9 ≤ 2 ^ 30 ∧ (styled style name).length < 2 ^ 30

theorem styleName_eq (room : HasRoom name style) : styleName name style = some (styled style name) := by
  unfold styleName
  by_cases same : style = .asWritten
  · rw [if_pos same, styled, if_pos same]
  · obtain ⟨long, fits⟩ := room same
    have size : int32 (int32 name.length + 8) = name.length + 8 := by
      rw [int32_of_fits (n := name.length) (by omega) (by omega), int32_of_fits (by omega) (by omega)]
    obtain ⟨sb, makes⟩ := StringBuilder.exists_newStringBuilder (n := name.length + 8) (by omega) (by omega)
    obtain ⟨sound, text⟩ := StringBuilder.sound_newStringBuilder makes
    rw [styled, if_neg same] at fits
    obtain ⟨grown, adds⟩ := @addStyledFrom_of_fits style none 0 false name _ sound (by
        rw [text, List.length_nil, Nat.zero_add]
        exact fits)
    obtain ⟨-, grownText⟩ := addStyledFrom_text sound adds
    rw [if_neg same, size, makes, Option.bind_eq_bind, Option.bind_some, addStyledName, if_neg same, adds,
      Option.bind_some, grownText, text, styled, if_neg same]
    rfl

end Written

section Again

variable {style : NameStyle} {word : ℕ} {name : Text} {found : List (Bool × BitVec 8)}

theorem toLower_toLower (c : BitVec 8) : toLower (toLower c) = toLower c := by
  revert c
  decide

theorem toUpper_toLower (c : BitVec 8) : toUpper (toLower c) = toUpper c := by
  revert c
  decide

theorem toLower_toUpper (c : BitVec 8) : toLower (toUpper c) = toLower c := by
  revert c
  decide

theorem isUpper_toLower (c : BitVec 8) : isUpper (toLower c) = false := by
  revert c
  decide

theorem isSeparator_toLower (c : BitVec 8) : isSeparator (toLower c) = isSeparator c := by
  revert c
  decide

theorem isSeparator_toUpper (c : BitVec 8) : isSeparator (toUpper c) = isSeparator c := by
  revert c
  decide

/-- In lower case. -/
def lowered (mark : Bool × BitVec 8) : Bool × BitVec 8 := (mark.1, toLower mark.2)

theorem rendered_lowered (style : NameStyle) (word : ℕ) (mark : Bool × BitVec 8) :
    rendered style word (lowered mark) = rendered style word mark := by
  simp only [rendered, lowered, toLower_toLower, toUpper_toLower]

theorem render_lowered (style : NameStyle) : render style word (found.map lowered) = render style word found := by
  induction found generalizing word with
  | nil => rfl
  | cons mark rest ih =>
    rw [List.map_cons, render, render, rendered_lowered, ih]
    rfl

/-- The styles that write all words in lower case with a separator between them. -/
def Separated (style : NameStyle) : Prop := style = .snakeCase ∨ style = .kebabCase

theorem Separated.rendered (separated : Separated style) (mark : Bool × BitVec 8) :
    ∃ separator, isSeparator separator = true ∧
      rendered style word mark = (if mark.1 = true ∧ word > 0 then [separator] else []) ++ [toLower mark.2] := by
  obtain rfl | rfl := separated
  · refine ⟨byteOf '_', rfl, ?_⟩
    obtain ⟨starts, ch⟩ := mark
    cases starts <;> by_cases first : word > 0 <;> simp [Json.rendered, first, NameStyle.separator, NameStyle.capital]
  · refine ⟨byteOf '-', rfl, ?_⟩
    obtain ⟨starts, ch⟩ := mark
    cases starts <;> by_cases first : word > 0 <;> simp [Json.rendered, first, NameStyle.separator, NameStyle.capital]

/-- No separator is kept, and the first character starts a word. -/
def WellMarked (inWord : Bool) (found : List (Bool × BitVec 8)) : Prop :=
  (∀ mark ∈ found, isSeparator mark.2 = false) ∧ (inWord = false → ∀ mark ∈ found.head?, mark.1 = true)

theorem wellMarked_marksFrom (previous : Option (BitVec 8)) (inWord : Bool) (name : Text) :
    WellMarked inWord (marksFrom previous inWord name) := by
  induction name generalizing previous inWord with
  | nil => exact ⟨by simp [marksFrom], by simp [marksFrom]⟩
  | cons ch rest ih =>
    cases letter : isSeparator ch with
    | true =>
      rw [marksFrom_separator letter]
      obtain ⟨letters, first⟩ := ih (some ch) false
      exact ⟨letters, fun _ => first rfl⟩
    | false =>
      rw [marksFrom_letter letter]
      constructor
      · rw [List.forall_mem_cons]
        exact ⟨letter, (ih (some ch) true).1⟩
      · rintro rfl mark member
        cases member
        rfl

/-- The words are found again in lower case. -/
theorem marksFrom_render (separated : Separated style) (previous : Option (BitVec 8)) {inWord : Bool}
    (marked : WellMarked inWord found) (same : inWord = decide (0 < word)) :
    marksFrom previous inWord (render style word found) = found.map lowered := by
  induction found generalizing previous inWord word with
  | nil => rfl
  | cons mark rest ih =>
    obtain ⟨letters, first⟩ := marked
    rw [List.forall_mem_cons] at letters
    obtain ⟨separator, isSep, writes⟩ := @separated.rendered _ word mark
    have letter : isSeparator (toLower mark.2) = false := by rw [isSeparator_toLower, letters.1]
    have starts : ∀ (inWord : Bool) (previous : Option (BitVec 8)) (rest : Text),
        startsWord inWord previous (toLower mark.2) rest = !inWord := by
      intro inWord previous rest
      rw [startsWord, isUpper_toLower, Bool.false_and, Bool.or_false]
    rw [render, writes, List.map_cons, lowered]
    cases isStart : mark.1 with
    | true =>
      have others := @ih (word + 1) (some (toLower mark.2)) true ⟨letters.2, by simp⟩ (by simp)
      by_cases later : word > 0
      · rw [if_pos ⟨rfl, later⟩, if_pos rfl, List.append_assoc, List.singleton_append, List.singleton_append,
          marksFrom_separator isSep, marksFrom_letter letter, starts, others]
        rfl
      · rw [if_neg (fun both => later both.2), if_pos rfl, List.nil_append, List.singleton_append,
          marksFrom_letter letter, starts, others, same, decide_eq_false later]
        rfl
    | false =>
      obtain rfl : inWord = true := by
        by_contra outside
        have start := first (Bool.eq_false_iff.mpr outside) mark rfl
        rw [isStart] at start
        cases start
      have others := @ih word (some (toLower mark.2)) true ⟨letters.2, by simp⟩ same
      rw [if_neg (by simp), if_neg (by simp), List.nil_append, List.singleton_append, marksFrom_letter letter, starts,
        others]
      rfl

/-- A name that is written in snake case or kebab case has the same words as before. -/
theorem styled_styled {other : NameStyle} (separated : Separated style) (written : other ≠ .asWritten) (name : Text) :
    styled other (styled style name) = styled other name := by
  have notWritten : style ≠ .asWritten := by
    obtain rfl | rfl := separated <;> decide
  rw [styled, if_neg written, styled, if_neg notWritten, styled, if_neg written, marks,
    marksFrom_render separated none (show WellMarked false (marks name) from wellMarked_marksFrom none false name) rfl,
    render_lowered]

/-- The letters of a name in lower case, without the separators. -/
def letters (name : Text) : Text := (name.filter fun ch => !isSeparator ch).map toLower

theorem letters_append (front rest : Text) : letters (front ++ rest) = letters front ++ letters rest := by
  rw [letters, List.filter_append, List.map_append, letters, letters]

theorem letters_rendered (style : NameStyle) (word : ℕ) {mark : Bool × BitVec 8}
    (letter : isSeparator mark.2 = false) : letters (rendered style word mark) = [toLower mark.2] := by
  have separators : letters (if word > 0 then style.separator.toList else []) = [] := by
    split
    · cases style <;> decide
    · rfl
  have one : ∀ c, c = toUpper mark.2 ∨ c = toLower mark.2 → letters [c] = [toLower mark.2] := by
    rintro c (rfl | rfl)
    · simp [letters, isSeparator_toUpper, letter, toLower_toUpper]
    · simp [letters, isSeparator_toLower, letter, toLower_toLower]
  unfold rendered
  split
  · rw [letters_append, separators, List.nil_append]
    exact one _ (by split <;> simp)
  · exact one _ (by split <;> simp)

/-- A style changes the case of the letters and the separators only. -/
theorem letters_render (style : NameStyle) (previous : Option (BitVec 8)) (inWord : Bool) (name : Text) :
    letters (render style word (marksFrom previous inWord name)) = letters name := by
  induction name generalizing previous inWord word with
  | nil => rfl
  | cons ch rest ih =>
    cases letter : isSeparator ch with
    | true =>
      rw [marksFrom_separator letter, ih]
      simp [letters, letter]
    | false =>
      rw [marksFrom_letter letter, render, letters_append, letters_rendered style word letter, ih]
      simp [letters, letter]

theorem letters_styled (style : NameStyle) (name : Text) : letters (styled style name) = letters name := by
  unfold styled
  split
  · rfl
  · exact letters_render style none false name

end Again

section Claims

/-- An identifier of the language. -/
def IsIdentifier (name : Text) : Prop :=
  (∀ ch ∈ name, isLetter ch || isDigit ch || ch = byteOf '_') ∧ ∃ ch ∈ name.head?, isDigit ch = false

/-- A name in snake case or kebab case is written in every other style like the name itself, and a style changes the
case of letters and the separators only. Written as it is, it stays in that style. -/
theorem styleName_right (name : Text) (first second : NameStyle) (separated : Separated first)
    (room : HasRoom name first) (roomAgain : HasRoom (styled first name) second) (roomOnce : HasRoom name second) :
    (∃ once twice, styleName name first = some once ∧ styleName once second = some twice ∧
      if second = .asWritten then twice = once else styleName name second = some twice) ∧
    ∃ text, styleName name second = some text ∧ letters text = letters name := by
  refine ⟨⟨_, _, styleName_eq room, styleName_eq roomAgain, ?_⟩, _, styleName_eq roomOnce, letters_styled second name⟩
  split
  · next same => rw [styled, if_pos same]
  · next written => rw [styled_styled separated written, styleName_eq roomOnce]

theorem styleName_right_userID :
    (∃ once twice, styleName (asciiBytes "userID") .snakeCase = some once ∧ styleName once .camelCase = some twice ∧
      if NameStyle.camelCase = .asWritten then twice = once
      else styleName (asciiBytes "userID") .camelCase = some twice) ∧
    ∃ text, styleName (asciiBytes "userID") .camelCase = some text ∧ letters text = letters (asciiBytes "userID") :=
  styleName_right (asciiBytes "userID") .snakeCase .camelCase (.inl rfl) (fun _ => ⟨by decide, by decide⟩)
    (fun _ => ⟨by decide, by decide⟩) (fun _ => ⟨by decide, by decide⟩)

/-- A name that is written as it is isn't the one in snake case. -/
theorem not_styleName_asWritten : ¬∀ name first second, IsIdentifier name → Separated first →
    ∃ once text, styleName name first = some once ∧ styleName once second = some text ∧
      styleName name second = some text := by
  intro all
  have identifier : IsIdentifier (asciiBytes "userID") := ⟨by decide, byteOf 'u', rfl, by decide⟩
  obtain ⟨once, text, styles, again, same⟩ := all (asciiBytes "userID") .snakeCase .asWritten identifier (.inl rfl)
  rw [styleName_eq (fun _ => ⟨by decide, by decide⟩)] at styles
  cases styles
  rw [styleName, if_pos rfl] at again same
  cases again
  revert same
  decide

end Claims

end Saad.Json
