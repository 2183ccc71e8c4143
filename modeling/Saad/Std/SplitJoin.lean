import Saad.Std.BuilderSound

/-! # Splitting a text and joining it again

`indexOf`, `split` and `join` with their numbers, which are ints. None is an index outside of a text, or a
loop that doesn't end. Below 1 GiB, the parts that are joined again are the text.
-/

namespace Saad

open General

section Definitions

/-- The byte at an index. -/
def byteAt (s : Text) (index : ℤ) : Option (BitVec 8) := if index < 0 then none else s[index.toNat]?

/-- The part of a text, up to its end when `last` is -1. -/
def sliceText (s : Text) (first last : ℤ) : Option Text :=
  let last := if last = -1 then (s.length : ℤ) else last
  if 0 ≤ first ∧ first ≤ last ∧ last ≤ s.length then some ((s.take last.toNat).drop first.toNat) else none

/-- How the source compares with a text from an index on. -/
inductive Compared where
  | whole
  | differs
  | ends
deriving DecidableEq

/-- The loop over the characters of the text that is looked for, from the index `j` of it on. -/
def compareFrom (src : Text) (i : ℤ) : ℤ → Text → Option Compared
  | _, [] => some .whole
  | j, c :: str =>
    if int32 (i + j) ≥ src.length then some .ends
    else do
      let here ← byteAt src (int32 (i + j))
      if c ≠ here then some .differs else compareFrom src i (int32 (j + 1)) str

/-- The loop over the source, of which a part is left at the index `i`. -/
def searchFrom (src str : Text) (fromIndex : ℤ) : Text → ℤ → Option ℤ
  | [], _ => some (-1)
  | _ :: rest, i => do
    let here ← byteAt src i
    let first ← byteAt str 0
    if here = first then
      match ← compareFrom src i 0 str with
      | .ends => some (-1)
      | .whole => some (int32 (i + fromIndex))
      | .differs => searchFrom src str fromIndex rest (int32 (i + 1))
    else searchFrom src str fromIndex rest (int32 (i + 1))

/-- `indexOf` with the index of an int, or -1. -/
def indexOfInt (s str : Text) (fromIndex : ℤ) : Option ℤ :=
  if s.length = 0 ∨ str.length = 0 then some (-1)
  else if fromIndex ≥ s.length then some (-1)
  else do
    let src ← sliceText s fromIndex (-1)
    searchFrom src str fromIndex src 0

/-- The turns of the loop of `split`, with that many left. -/
def splitFrom (s sep : Text) : ℕ → ℤ → Option (List Text)
  | 0, _ => none
  | turns + 1, cursor => do
    let i ← indexOfInt s sep cursor
    if i = -1 then
      let tail ← sliceText s cursor (-1)
      some [tail]
    else do
      let segment ← sliceText s cursor i
      let parts ← splitFrom s sep turns (int32 (i + int32 sep.length))
      some (segment :: parts)

/-- `split`, which is done after a turn for each byte and one more. -/
def splitText (s sep : Text) : Option (List Text) := splitFrom s sep (s.length + 1) 0

/-- The separator stands in front of every part but the first. -/
def addSeparator (separator : Text) (i : ℤ) (sb : StringBuilder) : Option StringBuilder :=
  if i > 0 then sb.addString separator else some sb

/-- The parts behind the index `i`, added to a builder. -/
def joinFrom (separator : Text) : ℤ → List Text → StringBuilder → Option StringBuilder
  | _, [], sb => some sb
  | i, part :: parts, sb => do
    let sb ← addSeparator separator i sb
    let sb ← sb.addString part
    joinFrom separator (int32 (i + 1)) parts sb

/-- `join` -/
def joinTexts (parts : List Text) (separator : Text) : Option Text :=
  (joinFrom separator 0 parts ⟨[], 0⟩).map StringBuilder.text

end Definitions

section Searching

variable {s str src before : Text} {i : ℤ}

theorem byteAt_append (before : Text) (c : BitVec 8) (rest : Text) :
    byteAt (before ++ c :: rest) before.length = some c := by
  rw [byteAt, if_neg (by omega), Int.toNat_natCast]
  simp

/-- The comparison at an index is that of the text behind it. -/
theorem compareFrom_eq {matched rest : Text} (is : src = before ++ (matched ++ rest)) (small : src.length < 2 ^ 31) :
    compareFrom src before.length matched.length str =
      some (match matchesHere rest str with | some true => .whole | some false => .differs | none => .ends) := by
  have length := congrArg List.length is
  simp only [List.length_append] at length
  have place : int32 ((before.length : ℤ) + matched.length) = (before ++ matched).length := by
    rw [List.length_append]
    push_cast
    exact int32_of_fits (by omega) (by omega)
  induction str generalizing matched rest with
  | nil => simp [compareFrom, matchesHere]
  | cons c str ih =>
    rw [compareFrom, place]
    cases rest with
    | nil =>
      rw [if_pos (by rw [List.length_append]; simp only [List.length_nil] at length; omega)]
      rfl
    | cons here rest =>
      simp only [List.length_cons] at length
      have byte : byteAt src (before ++ matched).length = some here := by
        rw [is, ← List.append_assoc]
        exact byteAt_append _ _ _
      rw [if_neg (by rw [List.length_append]; omega), byte]
      rw [Option.bind_eq_bind, Option.bind_some, matchesHere]
      by_cases same : here = c
      · subst same
        have next : int32 ((matched.length : ℤ) + 1) = (matched ++ [here]).length := by
          rw [List.length_append, List.length_singleton]
          push_cast
          exact int32_of_fits (by omega) (by omega)
        rw [if_neg (by simp), if_pos rfl, next]
        apply ih
        · simp [is]
        · simp only [List.length_append, List.length_singleton]
          omega
        · simp only [List.length_append, List.length_singleton]
          push_cast
          exact int32_of_fits (by omega) (by omega)
      · rw [if_pos (Ne.symm same), if_neg same]

/-- The loop over the source finds what stands behind it first. -/
theorem searchFrom_eq {fromIndex : ℤ} {rest : Text} (nonempty : str ≠ []) (is : src = before ++ rest)
    (not_negative : 0 ≤ fromIndex) (small : fromIndex + src.length < 2 ^ 31) :
    searchFrom src str fromIndex rest before.length =
      some (match scanFor str rest with | some n => fromIndex + before.length + n | none => -1) := by
  obtain ⟨first, others, rfl⟩ := List.exists_cons_of_ne_nil nonempty
  have length := congrArg List.length is
  rw [List.length_append] at length
  induction rest generalizing before with
  | nil => rfl
  | cons here rest ih =>
    have byte : byteAt src before.length = some here := by
      rw [is]
      exact byteAt_append _ _ _
    have start : byteAt (first :: others) 0 = some first := byteAt_append [] first others
    have compares := @compareFrom_eq (first :: others) src before [] (here :: rest) is (by omega)
    rw [List.length_cons] at length
    have next : int32 ((before.length : ℤ) + 1) = (before ++ [here]).length := by
      rw [List.length_append, List.length_singleton]
      push_cast
      exact int32_of_fits (by omega) (by omega)
    have found : int32 ((before.length : ℤ) + fromIndex) = fromIndex + before.length := by
      rw [int32_of_fits (by omega) (by omega)]
      omega
    have behind := @ih (before ++ [here]) (by simp [is]) (by simp only [List.length_append, List.length_singleton]; omega)
    have shifted : (match scanFor (first :: others) rest with
          | some n => fromIndex + ((before ++ [here]).length : ℤ) + (n : ℤ)
          | none => -1) =
        (match (scanFor (first :: others) rest).map (fun n : ℕ => n + 1) with
          | some n => fromIndex + (before.length : ℤ) + (n : ℤ)
          | none => -1) := by
      cases scanFor (first :: others) rest with
      | none => rfl
      | some n =>
        rw [List.length_append, List.length_singleton]
        dsimp only [Option.map_some]
        push_cast
        ring
    rw [shifted] at behind
    rw [searchFrom, byte, start, scanFor]
    simp only [Option.bind_eq_bind, Option.bind_some]
    by_cases same : here = first
    · subst same
      rw [if_pos rfl, show (0 : ℤ) = ([] : Text).length by rfl, compares]
      rw [Option.bind_some]
      cases result : matchesHere (here :: rest) (here :: others) with
      | none => rfl
      | some whole =>
        cases whole
        · dsimp only
          rw [next, behind]
        · dsimp only
          rw [found]
          simp
    · have differs : matchesHere (here :: rest) (first :: others) = some false := by
        rw [matchesHere, if_neg same]
      rw [if_neg same, next, behind, differs]

theorem sliceText_drop {first : ℕ} (inside : first ≤ s.length) : sliceText s first (-1) = some (s.drop first) := by
  rw [sliceText]
  rw [if_pos rfl, if_pos (by omega)]
  simp

theorem sliceText_take {first last : ℕ} (le : first ≤ last) (inside : last ≤ s.length) :
    sliceText s first last = some ((s.drop first).take (last - first)) := by
  have other : (if (last : ℤ) = -1 then (s.length : ℤ) else last) = last := if_neg (by omega)
  rw [sliceText, other, if_pos (by omega), Int.toNat_natCast, Int.toNat_natCast, List.drop_take]

/-- The text behind an index is searched. -/
theorem indexOfInt_eq {fromIndex : ℕ} (nonempty : str ≠ []) (small : s.length < 2 ^ 31) :
    indexOfInt s str fromIndex =
      some (match scanFor str (s.drop fromIndex) with | some n => ((fromIndex + n : ℕ) : ℤ) | none => -1) := by
  have some_bytes : str.length ≠ 0 := by simpa using nonempty
  unfold indexOfInt
  by_cases empty : s.length = 0
  · obtain rfl := List.length_eq_zero_iff.mp empty
    rw [if_pos (.inl rfl), List.drop_nil]
    rfl
  · rw [if_neg (by simp [empty, some_bytes])]
    by_cases behind : fromIndex ≥ s.length
    · rw [if_pos (by omega), List.drop_of_length_le behind]
      rfl
    · have searches := @searchFrom_eq str (s.drop fromIndex) [] fromIndex (s.drop fromIndex) nonempty rfl (by omega)
        (by rw [List.length_drop]; omega)
      rw [if_neg (by omega), sliceText_drop (by omega), Option.bind_eq_bind, Option.bind_some]
      change searchFrom (s.drop fromIndex) str fromIndex (s.drop fromIndex) ([] : Text).length = _
      rw [searches]
      cases scanFor str (s.drop fromIndex) with
      | none => rfl
      | some n => simp

/-- What `indexOf` is to give: the smallest index from a place on at which the text occurs, or -1. -/
def IndexRight (s str : Text) (fromIndex : ℕ) : Prop :=
  ∃ result, indexOfInt s str fromIndex = some result ∧
    ((result = -1 ∧ ∀ i, fromIndex ≤ i → ¬str <+: s.drop i) ∨
      ∃ n : ℕ, result = n ∧ fromIndex ≤ n ∧ str <+: s.drop n ∧ ∀ m, fromIndex ≤ m → m < n → ¬str <+: s.drop m)

theorem indexRight {fromIndex : ℕ} (nonempty : str ≠ []) (small : s.length < 2 ^ 31) :
    IndexRight s str fromIndex := by
  refine ⟨_, indexOfInt_eq nonempty small, ?_⟩
  have shift {i : ℕ} (le : fromIndex ≤ i) : s.drop i = (s.drop fromIndex).drop (i - fromIndex) := by
    rw [List.drop_drop, Nat.add_sub_cancel' le]
  cases found : scanFor str (s.drop fromIndex) with
  | none =>
    refine .inl ⟨rfl, fun i le stands => ?_⟩
    obtain ⟨n, here⟩ := exists_firstAt (infix_iff_exists_drop.mpr ⟨_, shift le ▸ stands⟩)
    rw [(scanFor_eq_some_iff nonempty).mpr here] at found
    cases found
  | some n =>
    have here := (scanFor_eq_some_iff nonempty).mp found
    refine .inr ⟨fromIndex + n, rfl, by omega, ?_, fun m le lt stands => ?_⟩
    · rw [← List.drop_drop]
      exact here.stands
    · exact here.first (m - fromIndex) (by omega) (shift le ▸ stands)

end Searching

section Splitting

variable {s sep part : Text}

theorem indexOf_eq_scanFor (nonempty : sep ≠ []) : indexOf s sep = scanFor sep s := by
  unfold indexOf
  split
  · next empty =>
    obtain rfl | none := empty
    · rfl
    · exact absurd none nonempty
  · rfl

theorem split_of_none (absent : indexOf s sep = none) : split s sep = [s] := by
  rw [split]
  split
  · rfl
  · next found =>
    rw [absent] at found
    cases found

theorem split_of_some {n : ℕ} (found : indexOf s sep = some n) :
    split s sep = s.take n :: split (s.drop (n + sep.length)) sep := by
  rw [split]
  split
  · next absent =>
    rw [found] at absent
    cases absent
  · next m here =>
    rw [found] at here
    cases here
    rfl

theorem split_ne_nil (s sep : Text) : split s sep ≠ [] := by
  rw [split]
  split
  · simp
  · simp

/-- The parts with the separator between them are the text. -/
theorem intercalate_split (nonempty : sep ≠ []) : sep.intercalate (split s sep) = s := by
  fun_induction split s sep with
  | case1 s absent => simp
  | case2 s n found ih =>
    have here := (indexOf_eq_some_iff nonempty).mp found
    rw [List.intercalate_cons_of_ne_nil (split_ne_nil _ _), ih]
    exact here.eq_append.symm

theorem not_infix_of_mem_split (nonempty : sep ≠ []) (member : part ∈ split s sep) : ¬sep <:+: part := by
  fun_induction split s sep with
  | case1 s absent =>
    rw [List.mem_singleton.mp member]
    exact (indexOf_eq_none_iff nonempty).mp absent
  | case2 s n found ih =>
    obtain rfl | later := List.mem_cons.mp member
    · exact ((indexOf_eq_some_iff nonempty).mp found).not_infix_take nonempty
    · exact ih later

theorem length_split (nonempty : sep ≠ []) : (split s sep).length = leftCount sep 0 s + 1 := by
  fun_induction split s sep with
  | case1 s absent =>
    rw [leftCount_eq_zero ((indexOf_eq_none_iff nonempty).mp absent)]
    rfl
  | case2 s n found ih =>
    rw [((indexOf_eq_some_iff nonempty).mp found).leftCount_eq nonempty, List.length_cons, ih]

theorem leftCount_le (nonempty : sep ≠ []) : leftCount sep 0 s ≤ s.length := by
  have positive := List.length_pos_of_ne_nil nonempty
  have parts := length_split (s := s) nonempty
  fun_induction split s sep with
  | case1 s absent =>
    simp only [List.length_singleton] at parts
    omega
  | case2 s n found ih =>
    have fits := indexOf_fits found
    have behind := ih (length_split nonempty)
    rw [((indexOf_eq_some_iff nonempty).mp found).leftCount_eq nonempty]
    rw [List.length_drop] at behind
    omega

/-- The cursor goes through the text as the parts do. -/
theorem splitFrom_eq {turns cursor : ℕ} (nonempty : sep ≠ []) (small : s.length < 2 ^ 31) (inside : cursor ≤ s.length)
    (enough : s.length - cursor < turns) : splitFrom s sep turns cursor = some (split (s.drop cursor) sep) := by
  induction turns generalizing cursor with
  | zero => omega
  | succ turns ih =>
    rw [splitFrom, indexOfInt_eq nonempty small]
    cases found : scanFor sep (s.drop cursor) with
    | none =>
      rw [split_of_none ((indexOf_eq_scanFor nonempty).trans found)]
      simp only [Option.bind_eq_bind, Option.bind_some, if_true, sliceText_drop inside]
    | some n =>
      have fits := indexOf_fits ((indexOf_eq_scanFor nonempty).trans found)
      rw [List.length_drop] at fits
      have next : int32 (((cursor + n : ℕ) : ℤ) + int32 sep.length) = (cursor + n + sep.length : ℕ) := by
        rw [int32_of_fits (n := (sep.length : ℤ)) (by omega) (by omega)]
        push_cast
        exact int32_of_fits (by omega) (by omega)
      rw [split_of_some ((indexOf_eq_scanFor nonempty).trans found)]
      simp only [Option.bind_eq_bind, Option.bind_some]
      rw [if_neg (by omega), sliceText_take (by omega) (by omega), Option.bind_some, next, ih (by omega) (by omega),
        Option.bind_some, Nat.add_sub_cancel_left, List.drop_drop, Nat.add_assoc]

theorem splitText_eq (nonempty : sep ≠ []) (small : s.length < 2 ^ 31) : splitText s sep = some (split s sep) := by
  have splits := @splitFrom_eq s sep (s.length + 1) 0 nonempty small (Nat.zero_le _) (by omega)
  rwa [List.drop_zero] at splits

end Splitting

section Joining

variable {sb grown : StringBuilder} {s separator : Text} {parts : List Text}

theorem joinFrom_sound {i : ℤ} (sound : sb.Sound) (joins : joinFrom separator i parts sb = some grown) :
    grown.Sound := by
  induction parts generalizing sb i with
  | nil =>
    cases joins
    exact sound
  | cons part parts ih =>
    rw [joinFrom] at joins
    obtain ⟨separated, first, joins⟩ := Option.bind_eq_some_iff.mp joins
    obtain ⟨added, second, joins⟩ := Option.bind_eq_some_iff.mp joins
    have separated_sound : separated.Sound := by
      unfold addSeparator at first
      split at first
      · exact sound.addString first
      · cases first
        exact sound
    exact ih (separated_sound.addString second) joins

/-- What is joined is never 1 GiB. -/
theorem length_of_joinTexts (joins : joinTexts parts separator = some s) : s.length < 2 ^ 30 := by
  obtain ⟨sb, joined, rfl⟩ := Option.map_eq_some_iff.mp joins
  exact (joinFrom_sound (.inl rfl) joined).length_lt

/-- Behind the first part, each part has the separator in front of it. -/
theorem joinFrom_eq {i : ℤ} (sound : sb.Sound) (positive : 0 < i) (counts : i + parts.length < 2 ^ 31)
    (fits : (sb.text ++ parts.flatMap (separator ++ ·)).length < 2 ^ 30) :
    ∃ grown, joinFrom separator i parts sb = some grown ∧ grown.text = sb.text ++ parts.flatMap (separator ++ ·) := by
  induction parts generalizing sb i with
  | nil => exact ⟨sb, rfl, by simp⟩
  | cons part parts ih =>
    rw [List.length_cons] at counts
    simp only [List.length_append, List.flatMap_cons] at fits
    obtain ⟨separated, first, firstSound, firstText⟩ := @StringBuilder.Sound.addString_of_fits sb separator sound (by omega)
    obtain ⟨added, second, secondSound, secondText⟩ := @StringBuilder.Sound.addString_of_fits separated part firstSound
      (by rw [firstText, List.length_append]; omega)
    have text : added.text ++ parts.flatMap (separator ++ ·) = sb.text ++ (part :: parts).flatMap (separator ++ ·) := by
      rw [secondText, firstText]
      simp
    have next : int32 (i + 1) = i + 1 := int32_of_fits (by omega) (by omega)
    obtain ⟨grown, joins, grownText⟩ := @ih added (i + 1) secondSound (by omega) (by omega) (by
      rw [text, List.flatMap_cons, List.length_append, List.length_append, List.length_append]
      exact fits)
    refine ⟨grown, ?_, grownText.trans text⟩
    rw [joinFrom, addSeparator, if_pos positive, first, Option.bind_eq_bind, Option.bind_some, second,
      Option.bind_some, next]
    exact joins

theorem intercalate_eq_flatMap (separator part : Text) (parts : List Text) :
    separator.intercalate (part :: parts) = part ++ parts.flatMap (separator ++ ·) := by
  induction parts generalizing part with
  | nil => simp
  | cons next parts ih => rw [List.intercalate_cons_cons, ih, List.flatMap_cons]; simp

theorem joinTexts_eq (counts : parts.length < 2 ^ 31) (fits : (separator.intercalate parts).length < 2 ^ 30) :
    joinTexts parts separator = some (separator.intercalate parts) := by
  cases parts with
  | nil => rfl
  | cons part parts =>
    rw [intercalate_eq_flatMap] at fits ⊢
    rw [List.length_cons] at counts
    have short := fits
    rw [List.length_append] at short
    obtain ⟨first, adds, sound, text⟩ := @StringBuilder.Sound.addString_of_fits ⟨[], 0⟩ part (.inl rfl) (by simp; omega)
    have text' : first.text = part := text
    obtain ⟨grown, joins, grownText⟩ := @joinFrom_eq first separator parts 1 sound (by decide) (by omega) (by rwa [text'])
    have one : int32 (0 + 1) = 1 := by decide
    unfold joinTexts
    rw [joinFrom, addSeparator, if_neg (by decide), Option.bind_eq_bind, Option.bind_some, adds, Option.bind_some, one, joins, Option.map_some, grownText, text']

end Joining

section Right

variable {s sep : Text}

/-- What `split` and `join` are to give for a text and a separator. -/
def SplitsRight (s sep : Text) : Prop :=
  ∃ parts, splitText s sep = some parts ∧ joinTexts parts sep = some s ∧ (∀ part ∈ parts, ¬sep <:+: part) ∧
    parts.length = leftCount sep 0 s + 1

theorem splitsRight (nonempty : sep ≠ []) (small : s.length < 2 ^ 30) : SplitsRight s sep := by
  have whole := intercalate_split (s := s) nonempty
  have count := length_split (s := s) nonempty
  have few := leftCount_le (s := s) nonempty
  refine ⟨split s sep, splitText_eq nonempty (by omega), ?_, fun part member => not_infix_of_mem_split nonempty member,
    count⟩
  rw [joinTexts_eq (by omega) (by rwa [whole]), whole]

/-- Texts are split, joined and searched right, but for those of 1 GiB or more. -/
theorem texts_right_iff (s : Text) :
    ((∀ sep, sep ≠ [] → SplitsRight s sep) ∧
      ∀ str, str ≠ [] → ∀ fromIndex : ℕ, fromIndex < 2 ^ 31 → IndexRight s str fromIndex) ↔ s.length < 2 ^ 30 := by
  constructor
  · rintro ⟨splits, -⟩
    obtain ⟨parts, -, joins, -⟩ := splits [0] (by simp)
    exact length_of_joinTexts joins
  · intro small
    exact ⟨fun sep nonempty => splitsRight nonempty small,
      fun str nonempty fromIndex _ => indexRight nonempty (by omega)⟩

theorem texts_not_right : ¬∀ s sep : Text, sep ≠ [] → SplitsRight s sep := by
  intro all
  obtain ⟨parts, -, joins, -⟩ := all (List.replicate (2 ^ 30) 0) [0] (by simp)
  have short := length_of_joinTexts joins
  rw [List.length_replicate] at short
  exact lt_irrefl _ short

/-- Where the separator is not over the end of a part, the parts that were joined are split again. -/
theorem split_intercalate (nonempty : sep ≠ []) {parts : List Text} (some_ : parts ≠ [])
    (clear : ∀ part ∈ parts, ¬sep <:+: part ++ sep.dropLast) : split (sep.intercalate parts) sep = parts := by
  induction parts with
  | nil => exact absurd rfl some_
  | cons part parts ih =>
    have apart := clear part List.mem_cons_self
    cases parts with
    | nil =>
      rw [List.intercalate_singleton]
      apply split_of_none
      exact (indexOf_eq_none_iff nonempty).mpr fun occurs => apart (occurs.trans (List.prefix_append _ _).isInfix)
    | cons next parts =>
      have here := firstAt_append nonempty apart (sep.intercalate (next :: parts))
      rw [List.intercalate_cons_cons, split_of_some ((indexOf_eq_some_iff nonempty).mpr here), ← List.length_append,
        List.drop_left, List.append_assoc, List.take_left,
        ih (List.cons_ne_nil _ _) fun other member => clear other (List.mem_cons_of_mem _ member)]

/-- `split` gives the parts that `join` was given. -/
theorem splitText_joinTexts {parts : List Text} (nonempty : sep ≠ []) (some_ : parts ≠ [])
    (clear : ∀ part ∈ parts, ¬sep <:+: part ++ sep.dropLast) (fits : (sep.intercalate parts).length < 2 ^ 30) :
    ∃ s, joinTexts parts sep = some s ∧ splitText s sep = some parts := by
  have same := split_intercalate nonempty some_ clear
  have count := length_split (s := sep.intercalate parts) nonempty
  have few := leftCount_le (s := sep.intercalate parts) nonempty
  rw [same] at count
  exact ⟨_, joinTexts_eq (by omega) fits, by rw [splitText_eq nonempty (by omega), same]⟩

theorem splitText_joinTexts_comma : ∃ s, joinTexts [[97], [], [98]] [44, 32] = some s ∧
    splitText s [44, 32] = some [[97], [], [98]] :=
  splitText_joinTexts (by decide) (by decide) (by decide) (by decide)

end Right

end Saad
