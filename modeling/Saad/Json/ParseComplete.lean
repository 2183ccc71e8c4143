import Saad.Json.ParseSound

/-! # The parser accepts every JSON text

Each call is on a shorter text or on the elements of the same one, so the bound is never reached.
-/

namespace Saad.Json

open General

section Lengths

variable {text rest : Text}

theorem StringText.length_lt {parts : List Part} (reads : StringText text parts rest) :
    rest.length < text.length := by
  induction reads with
  | close rest => exact Nat.lt_succ_self _
  | plain ch text parts rest printed no_quote no_escape reads ih => exact Nat.lt_succ_of_lt ih
  | escape e ch text parts rest known reads ih =>
    simp only [List.length_cons]
    omega
  | unit a b c d text parts rest hex reads ih =>
    simp only [List.length_cons]
    omega

/-- What a value can start with. -/
def Starts (ch : BitVec 8) : Prop :=
  ch ∈ [byteOf 'n', byteOf 't', byteOf 'f', byteOf '-', byteOf '"', byteOf '[', byteOf '{'] ∨
    isDigit ch = true

theorem Starts.no_space {ch : BitVec 8} (starts : Starts ch) :
    isSpace ch = false ∧ ch ≠ byteOf ']' := by
  revert ch
  unfold Starts
  decide

theorem Number.start (number : Number text) :
    ∃ ch more, text = ch :: more ∧ (ch = byteOf '-' ∨ isDigit ch = true) := by
  cases number with
  | mk sign integer fraction exponent signed is_integer is_fraction is_exponent =>
    obtain rfl | rfl := signed
    · cases is_integer with
      | zero => exact ⟨byteOf '0', _, rfl, .inr rfl⟩
      | digits ch more digit no_zero digits => exact ⟨ch, _, rfl, .inr digit⟩
    · exact ⟨byteOf '-', _, rfl, .inl rfl⟩

theorem ValueText.start {tree : Tree} (reads : ValueText text tree rest) :
    ∃ ch more, text = ch :: more ∧ Starts ch := by
  cases reads with
  | null => exact ⟨byteOf 'n', _, rfl, .inl (by decide)⟩
  | isTrue => exact ⟨byteOf 't', _, rfl, .inl (by decide)⟩
  | isFalse => exact ⟨byteOf 'f', _, rfl, .inl (by decide)⟩
  | number text _ number =>
    obtain ⟨ch, more, rfl, starts⟩ := number.start
    refine ⟨ch, more ++ rest, rfl, ?_⟩
    obtain rfl | digit := starts
    · exact .inl (by decide)
    · exact .inr digit
  | string => exact ⟨byteOf '"', _, rfl, .inl (by decide)⟩
  | emptyArray => exact ⟨byteOf '[', _, rfl, .inl (by decide)⟩
  | array => exact ⟨byteOf '[', _, rfl, .inl (by decide)⟩
  | emptyObject => exact ⟨byteOf '{', _, rfl, .inl (by decide)⟩
  | object => exact ⟨byteOf '{', _, rfl, .inl (by decide)⟩

theorem ValueText.skipSpace_eq {tree : Tree} (reads : ValueText text tree rest) {before : Text}
    (spaces : Spaces before text) : skipSpace before = text := by
  obtain ⟨ch, more, rfl, starts⟩ := reads.start
  rw [spaces.skipSpace_eq, skipSpace_cons starts.no_space.1]

/-- The value of a member is behind its name. -/
theorem length_of_name {before between value_text : Text} {name : List Part}
    (open_ : Spaces text (byteOf '"' :: rest)) (name_reads : StringText rest name before)
    (colon : Spaces before (byteOf ':' :: between)) (gap : Spaces between value_text) :
    value_text.length + 2 < text.length := by
  have first := open_.length_le
  have second := name_reads.length_lt
  have third := colon.length_le
  have fourth := gap.length_le
  simp only [List.length_cons] at first third
  omega

mutual

theorem ValueText.length_lt {text rest : Text} {tree : Tree} :
    ValueText text tree rest → rest.length < text.length
  | .null rest => by
    simp only [asciiBytes, List.length_append]
    exact Nat.lt_add_of_pos_left (by decide)
  | .isTrue rest => by
    simp only [asciiBytes, List.length_append]
    exact Nat.lt_add_of_pos_left (by decide)
  | .isFalse rest => by
    simp only [asciiBytes, List.length_append]
    exact Nat.lt_add_of_pos_left (by decide)
  | .number text rest number => by
    obtain ⟨ch, more, rfl, -⟩ := number.start
    simp only [List.length_append, List.length_cons]
    omega
  | .string text parts rest reads => Nat.lt_succ_of_lt reads.length_lt
  | .emptyArray text rest spaces => Nat.lt_succ_of_lt spaces.length_le
  | .array text items rest reads => Nat.lt_succ_of_lt reads.length_lt
  | .emptyObject text rest spaces => Nat.lt_succ_of_lt spaces.length_le
  | .object text members rest reads => Nat.lt_succ_of_lt reads.length_lt

theorem ItemsText.length_lt {text rest : Text} {items : List Tree} :
    ItemsText text items rest → rest.length < text.length
  | .last text item_text behind item rest before reads after => by
    have first := before.length_le
    have second := reads.length_lt
    have third := after.length_le
    simp only [List.length_cons] at third
    omega
  | .cons text item_text behind more item items rest before reads after items_read => by
    have first := before.length_le
    have second := reads.length_lt
    have third := after.length_le
    have fourth := items_read.length_lt
    simp only [List.length_cons] at third
    omega

theorem MembersText.length_lt {text rest : Text} {members : List (List Part × Tree)} :
    MembersText text members rest → rest.length < text.length
  | .last text name_text before between value_text behind name value rest open_ name_reads colon gap
      reads after => by
    have before_value := length_of_name open_ name_reads colon gap
    have value_length := reads.length_lt
    have behind_length := after.length_le
    simp only [List.length_cons] at behind_length
    omega
  | .cons text name_text before between value_text behind more name value members rest open_
      name_reads colon gap reads after members_read => by
    have before_value := length_of_name open_ name_reads colon gap
    have value_length := reads.length_lt
    have behind_length := after.length_le
    have others := members_read.length_lt
    simp only [List.length_cons] at behind_length
    omega

end

end Lengths

section Complete

variable {F : Type} {strtod : Text → F} {bound depth : ℕ} {text rest : Text}

theorem NumberEnds.of_spaces {behind : Text} (spaces : Spaces behind rest) (ends : NumberEnds rest) :
    NumberEnds behind := by
  cases spaces with
  | nil => exact ends
  | cons ch text _ space spaces =>
    have not_number : ∀ c, isSpace c = true → isDigit c = false ∧ c ≠ byteOf '.' ∧ c ≠ byteOf 'e' ∧
        c ≠ byteOf 'E' := by decide
    exact not_number ch space

/-- An element is followed by a comma or by the end of its container. -/
theorem numberEnds_of_mem {ch : BitVec 8} (mark : ch ∈ [byteOf ',', byteOf ']', byteOf '}'])
    (rest : Text) : NumberEnds (ch :: rest) := by
  have not_number : ∀ c ∈ [byteOf ',', byteOf ']', byteOf '}'],
      isDigit c = false ∧ c ≠ byteOf '.' ∧ c ≠ byteOf 'e' ∧ c ≠ byteOf 'E' := by decide
  exact not_number ch mark

theorem numberEnds_nil : NumberEnds [] := by
  unfold NumberEnds
  decide

theorem parseValue_cons (within : depth ≤ maxDepth) (ch : BitVec 8) (more : Text) :
    parseValue strtod (bound + 1) depth (ch :: more) =
      if ch = byteOf '{' then parseObject (parseMembers strtod bound depth []) more
      else if ch = byteOf '[' then parseArray (parseItems strtod bound depth []) more
      else if ch = byteOf '"' then
        (parseString [] more).map fun (text, rest) => (.string text, rest)
      else if ch = byteOf '-' ∨ isDigit ch = true then parseNumber strtod (ch :: more)
      else parseWord (ch :: more) := by
  rw [parseValue, if_neg (Nat.not_lt.mpr within)]
  rfl

theorem parseWord_true (rest : Text) :
    parseWord (asciiBytes "true" ++ rest) = .ok (.bool (F := F) true, rest) := by
  rw [parseWord, eatWord_append]

theorem parseWord_false (rest : Text) :
    parseWord (asciiBytes "false" ++ rest) = .ok (.bool (F := F) false, rest) := by
  have no_true : eatWord (asciiBytes "false" ++ rest) "true" = none := rfl
  rw [parseWord, no_true, eatWord_append]

theorem parseWord_null (rest : Text) :
    parseWord (asciiBytes "null" ++ rest) = .ok (.null (F := F), rest) := by
  have no_true : eatWord (asciiBytes "null" ++ rest) "true" = none := rfl
  have no_false : eatWord (asciiBytes "null" ++ rest) "false" = none := rfl
  rw [parseWord, no_true, no_false, eatWord_append]

def ValueComplete (strtod : Text → F) (bound : ℕ) : Prop :=
  ∀ depth text tree rest, ValueText text tree rest → NumberEnds rest →
    depth + tree.height ≤ maxDepth → 2 * text.length + 1 ≤ bound →
      parseValue strtod bound depth text = .ok (tree.read strtod, rest)

def ItemsComplete (strtod : Text → F) (bound : ℕ) : Prop :=
  ∀ depth items text trees rest, ItemsText text trees rest →
    depth + highestItem trees ≤ maxDepth → 2 * text.length + 2 ≤ bound →
      parseItems strtod bound depth items text =
        .ok (.array (items ++ readItems strtod trees), rest)

def MembersComplete (strtod : Text → F) (bound : ℕ) : Prop :=
  ∀ depth fields text members rest, MembersText text members rest →
    depth + highestMember members ≤ maxDepth → 2 * text.length + 2 ≤ bound →
      parseMembers strtod bound depth fields text =
        .ok (.object (readMembers strtod fields members), rest)

theorem ItemsText.skip {trees : List Tree} (reads : ItemsText text trees rest) :
    peek (skipSpace text) ≠ byteOf ']' ∧ ItemsText (skipSpace text) trees rest := by
  cases reads with
  | last _ item_text behind item _ before reads after =>
    obtain ⟨ch, more, rfl, starts⟩ := reads.start
    rw [reads.skipSpace_eq before]
    exact ⟨starts.no_space.2, .last _ _ behind item rest (.nil _) reads after⟩
  | cons _ item_text behind tail item items _ before reads after items_read =>
    obtain ⟨ch, more, rfl, starts⟩ := reads.start
    rw [reads.skipSpace_eq before]
    exact ⟨starts.no_space.2, .cons _ _ behind tail item items rest (.nil _) reads after items_read⟩

theorem Spaces.skipSpace_mark {ch : BitVec 8} {more : Text} (spaces : Spaces text (ch :: more))
    (mark : isSpace ch = false) : skipSpace text = ch :: more := by
  rw [spaces.skipSpace_eq, skipSpace_cons mark]

theorem MembersText.skip {members : List (List Part × Tree)} (reads : MembersText text members rest) :
    peek (skipSpace text) = byteOf '"' ∧ MembersText (skipSpace text) members rest := by
  cases reads with
  | last _ name_text before between value_text behind name value _ open_ name_reads colon gap reads
      after =>
    rw [open_.skipSpace_mark (by decide)]
    exact ⟨rfl, .last _ _ _ _ _ _ name value rest (.nil _) name_reads colon gap reads after⟩
  | cons _ name_text before between value_text behind tail name value members _ open_ name_reads
      colon gap reads after members_read =>
    rw [open_.skipSpace_mark (by decide)]
    exact ⟨rfl, .cons _ _ _ _ _ _ tail name value members rest (.nil _) name_reads colon gap reads
      after members_read⟩

theorem valueComplete_succ (items : ItemsComplete strtod bound)
    (members : MembersComplete strtod bound) : ValueComplete strtod (bound + 1) := by
  intro depth text tree rest reads ends depths enough
  have within : depth ≤ maxDepth := by omega
  cases reads with
  | null =>
    have dispatch : parseValue strtod (bound + 1) depth
        (byteOf 'n' :: [byteOf 'u', byteOf 'l', byteOf 'l'] ++ rest) = _ :=
      parseValue_cons within _ _
    exact dispatch.trans (parseWord_null rest)
  | isTrue =>
    have dispatch : parseValue strtod (bound + 1) depth
        (byteOf 't' :: [byteOf 'r', byteOf 'u', byteOf 'e'] ++ rest) = _ :=
      parseValue_cons within _ _
    exact dispatch.trans (parseWord_true rest)
  | isFalse =>
    have dispatch : parseValue strtod (bound + 1) depth
        (byteOf 'f' :: [byteOf 'a', byteOf 'l', byteOf 's', byteOf 'e'] ++ rest) = _ :=
      parseValue_cons within _ _
    exact dispatch.trans (parseWord_false rest)
  | number text _ number =>
    obtain ⟨ch, more, rfl, starts⟩ := number.start
    have no_mark : ∀ c, c = byteOf '-' ∨ isDigit c = true →
        c ≠ byteOf '{' ∧ c ≠ byteOf '[' ∧ c ≠ byteOf '"' := by decide
    obtain ⟨no_brace, no_bracket, no_quote⟩ := no_mark ch starts
    rw [List.cons_append, parseValue_cons within, if_neg no_brace, if_neg no_bracket,
      if_neg no_quote, if_pos starts]
    exact parseNumber_of_number number ends
  | string text parts _ reads =>
    rw [parseValue_cons within, if_neg (by decide), if_neg (by decide), if_pos rfl,
      parseString_of_reads reads []]
    rfl
  | emptyArray text _ spaces =>
    rw [parseValue_cons within, if_neg (by decide), if_pos rfl, parseArray,
      spaces.skipSpace_mark (by decide)]
    rfl
  | array text trees _ reads =>
    obtain ⟨no_end, reads⟩ := reads.skip
    have shorter := length_skipSpace_le text
    rw [List.length_cons] at enough
    rw [parseValue_cons within, if_neg (by decide), if_pos rfl, parseArray]
    rw [if_neg no_end, items depth [] _ trees rest reads depths (by omega)]
    rfl
  | emptyObject text _ spaces =>
    rw [parseValue_cons within, if_pos rfl, parseObject, spaces.skipSpace_mark (by decide)]
    rfl
  | object text trees _ reads =>
    obtain ⟨quote, reads⟩ := reads.skip
    have shorter := length_skipSpace_le text
    rw [List.length_cons] at enough
    rw [parseValue_cons within, if_pos rfl, parseObject]
    rw [if_neg (by rw [quote]; decide), members depth [] _ trees rest reads depths (by omega)]
    rfl

theorem itemsComplete_succ (value : ValueComplete strtod bound) (more : ItemsComplete strtod bound) :
    ItemsComplete strtod (bound + 1) := by
  intro depth items text trees rest reads depths enough
  cases reads with
  | last _ item_text behind item _ before reads after =>
    have shorter := before.length_le
    rw [highestItem, highestItem] at depths
    have ends := (numberEnds_of_mem (by decide) rest).of_spaces after
    rw [parseItems, reads.skipSpace_eq before,
      value (depth + 1) item_text item behind reads ends (by omega) (by omega)]
    simp only [bind, Except.bind]
    rw [after.skipSpace_mark (by decide), peek_cons, if_neg (by decide)]
    rfl
  | cons _ item_text behind tail item trees _ before reads after items_read =>
    have shorter := before.length_le
    have consumed := reads.length_lt
    have next := after.length_le
    rw [List.length_cons] at next
    rw [highestItem] at depths
    have ends := (numberEnds_of_mem (by decide) tail).of_spaces after
    rw [parseItems, reads.skipSpace_eq before,
      value (depth + 1) item_text item behind reads ends (by omega) (by omega)]
    simp only [bind, Except.bind]
    rw [after.skipSpace_mark (by decide), peek_cons, if_pos rfl, List.drop_one, List.tail_cons,
      more depth _ tail trees rest items_read (by omega) (by omega), readItems, List.append_assoc,
      List.singleton_append]

theorem membersComplete_succ (value : ValueComplete strtod bound)
    (more : MembersComplete strtod bound) : MembersComplete strtod (bound + 1) := by
  intro depth fields text members rest reads depths enough
  cases reads with
  | last _ name_text before between value_text behind name member _ open_ name_reads colon gap reads
      after =>
    have before_value := length_of_name open_ name_reads colon gap
    rw [highestMember, highestMember] at depths
    have ends := (numberEnds_of_mem (by decide) rest).of_spaces after
    rw [parseMembers, open_.skipSpace_mark (by decide)]
    simp only [bind, Except.bind]
    rw [peek_cons, if_neg (not_not.mpr rfl), List.drop_one, List.tail_cons,
      parseString_of_reads name_reads []]
    dsimp only
    rw [colon.skipSpace_mark (by decide), peek_cons, if_neg (not_not.mpr rfl), List.drop_one,
      List.tail_cons, reads.skipSpace_eq gap,
      value (depth + 1) value_text member behind reads ends (by omega) (by omega)]
    dsimp only
    rw [after.skipSpace_mark (by decide), peek_cons, if_neg (by decide)]
    rfl
  | cons _ name_text before between value_text behind tail name member members _ open_ name_reads
      colon gap reads after members_read =>
    have before_value := length_of_name open_ name_reads colon gap
    have value_length := reads.length_lt
    have behind_length := after.length_le
    simp only [List.length_cons] at behind_length
    rw [highestMember] at depths
    have ends := (numberEnds_of_mem (by decide) tail).of_spaces after
    rw [parseMembers, open_.skipSpace_mark (by decide)]
    simp only [bind, Except.bind]
    rw [peek_cons, if_neg (not_not.mpr rfl), List.drop_one, List.tail_cons,
      parseString_of_reads name_reads []]
    dsimp only
    rw [colon.skipSpace_mark (by decide), peek_cons, if_neg (not_not.mpr rfl), List.drop_one,
      List.tail_cons, reads.skipSpace_eq gap,
      value (depth + 1) value_text member behind reads ends (by omega) (by omega)]
    dsimp only
    rw [after.skipSpace_mark (by decide), peek_cons, if_pos rfl, List.drop_one, List.tail_cons,
      more depth _ tail members rest members_read (by omega) (by omega)]
    rfl

theorem parse_complete (strtod : Text → F) (bound : ℕ) :
    ValueComplete strtod bound ∧ ItemsComplete strtod bound ∧ MembersComplete strtod bound := by
  induction bound with
  | zero =>
    refine ⟨?_, ?_, ?_⟩
    · intro depth text tree rest reads ends depths enough
      cases enough
    · intro depth items text trees rest reads depths enough
      cases enough
    · intro depth fields text members rest reads depths enough
      cases enough
  | succ bound ih =>
    obtain ⟨value, items, members⟩ := ih
    exact ⟨valueComplete_succ items members, itemsComplete_succ value items,
      membersComplete_succ value members⟩

end Complete

section Bound

variable {F : Type} {strtod : Text → F} {bound : ℕ}

theorem ok_ne_bound {α : Type} (result : α) : (.ok result : Except Failure α) ≠ .error .bound := by
  intro reached
  cases reached

theorem fail_ne_bound {α : Type} (message : String) (rest : Text) :
    (fail message rest : Except Failure α) ≠ .error .bound := by
  intro reached
  cases reached

theorem parseHexDigits_ne_bound (count value : ℕ) (rest : Text) :
    parseHexDigits count value rest ≠ .error .bound := by
  induction count generalizing value rest with
  | zero => exact ok_ne_bound _
  | succ count ih =>
    cases rest with
    | nil => exact fail_ne_bound _ _
    | cons ch behind =>
      rw [parseHexDigits]
      split
      · exact fail_ne_bound _ _
      · exact ih _ _

theorem parseHex4_ne_bound (rest : Text) : parseHex4 rest ≠ .error .bound := by
  rw [parseHex4]
  split
  · exact fail_ne_bound _ _
  · exact parseHexDigits_ne_bound 4 0 rest

theorem parseUnit_ne_bound (rest : Text) : parseUnit rest ≠ .error .bound := by
  intro reached
  rw [parseUnit] at reached
  cases first : parseHex4 rest with
  | error failure =>
    rw [first] at reached
    obtain rfl := Except.error.inj reached
    exact parseHex4_ne_bound rest first
  | ok read =>
    obtain ⟨code, more⟩ := read
    rw [first] at reached
    simp only [bind, Except.bind] at reached
    split at reached
    · split at reached
      · next word eaten =>
        cases second : parseHex4 word with
        | error failure =>
          rw [second] at reached
          obtain rfl := Except.error.inj reached
          exact parseHex4_ne_bound word second
        | ok read =>
          rw [second] at reached
          dsimp only at reached
          split at reached <;> cases reached
      · cases reached
    · cases reached

theorem parseString_ne_bound (sb rest : Text) : parseString sb rest ≠ .error .bound := by
  fun_induction parseString sb rest with
  | case1 | case2 | case3 | case13 =>
    intro reached
    cases reached
  | case11 sb ch behind _ _ _ escape _ _ _ _ _ _ _ failure unit_ =>
    intro reached
    obtain rfl := Except.error.inj reached
    exact parseUnit_ne_bound _ unit_
  | case4 | case5 | case6 | case7 | case8 | case9 | case10 | case12 => assumption

theorem skipInteger_ne_bound (rest : Text) : skipInteger rest ≠ .error .bound := by
  rw [skipInteger]
  split
  · exact ok_ne_bound _
  · split
    · exact ok_ne_bound _
    · exact fail_ne_bound _ _

theorem skipFraction_ne_bound (rest : Text) : skipFraction rest ≠ .error .bound := by
  rw [skipFraction]
  split
  · split
    · exact fail_ne_bound _ _
    · exact ok_ne_bound _
  · exact ok_ne_bound _

theorem skipExponent_ne_bound (rest : Text) : skipExponent rest ≠ .error .bound := by
  rw [skipExponent]
  split
  · dsimp only
    split
    · split
      · exact fail_ne_bound _ _
      · exact ok_ne_bound _
    · split
      · exact fail_ne_bound _ _
      · exact ok_ne_bound _
  · exact ok_ne_bound _

theorem parseNumber_ne_bound (rest : Text) : parseNumber strtod rest ≠ .error .bound := by
  intro reached
  rw [parseNumber, skipNumber] at reached
  simp only [bind, Except.bind] at reached
  split at reached
  · next failure skips =>
    obtain rfl := Except.error.inj reached
    split at skips
    · next failure first =>
      obtain rfl := Except.error.inj skips
      exact skipInteger_ne_bound _ first
    · split at skips
      · next failure second =>
        obtain rfl := Except.error.inj skips
        exact skipFraction_ne_bound _ second
      · exact skipExponent_ne_bound _ skips
  · cases reached

theorem parseWord_ne_bound (rest : Text) : parseWord (F := F) rest ≠ .error .bound := by
  rw [parseWord]
  split
  · exact ok_ne_bound _
  · exact ok_ne_bound _
  · exact ok_ne_bound _
  · split
    · exact fail_ne_bound _ _
    · exact fail_ne_bound _ _

def ValueBounded (strtod : Text → F) (bound : ℕ) : Prop :=
  ∀ depth rest, 2 * rest.length + 1 ≤ bound → parseValue strtod bound depth rest ≠ .error .bound

def ItemsBounded (strtod : Text → F) (bound : ℕ) : Prop :=
  ∀ depth items rest, 2 * rest.length + 2 ≤ bound →
    parseItems strtod bound depth items rest ≠ .error .bound

def MembersBounded (strtod : Text → F) (bound : ℕ) : Prop :=
  ∀ depth fields rest, 2 * rest.length + 2 ≤ bound →
    parseMembers strtod bound depth fields rest ≠ .error .bound

theorem valueBounded_succ (items : ItemsBounded strtod bound) (members : MembersBounded strtod bound) :
    ValueBounded strtod (bound + 1) := by
  intro depth rest enough
  rw [parseValue]
  split
  · exact fail_ne_bound _ _
  split
  · next brace =>
    obtain ⟨more, rfl⟩ := (peek_eq_iff (by decide)).mp brace
    have shorter := length_skipSpace_le more
    rw [List.length_cons] at enough
    rw [List.drop_one, List.tail_cons, parseObject]
    split
    · exact ok_ne_bound _
    · exact members _ _ _ (by omega)
  split
  · next bracket =>
    obtain ⟨more, rfl⟩ := (peek_eq_iff (by decide)).mp bracket
    have shorter := length_skipSpace_le more
    rw [List.length_cons] at enough
    rw [List.drop_one, List.tail_cons, parseArray]
    split
    · exact ok_ne_bound _
    · exact items _ _ _ (by omega)
  split
  · intro reached
    cases read : parseString [] (rest.drop 1) with
    | error failure =>
      rw [read] at reached
      obtain rfl := Except.error.inj reached
      exact parseString_ne_bound _ _ read
    | ok read_ =>
      rw [read] at reached
      cases reached
  split
  · exact parseNumber_ne_bound rest
  · exact parseWord_ne_bound rest

theorem itemsBounded_succ (value : ValueBounded strtod bound) (more : ItemsBounded strtod bound) :
    ItemsBounded strtod (bound + 1) := by
  intro depth items rest enough reached
  have shorter := length_skipSpace_le rest
  rw [parseItems] at reached
  cases first : parseValue strtod bound (depth + 1) (skipSpace rest) with
  | error failure =>
    rw [first] at reached
    obtain rfl := Except.error.inj reached
    exact value _ _ (by omega) first
  | ok read =>
    obtain ⟨element, after⟩ := read
    obtain ⟨tree, reads, -, -⟩ := (parse_sound strtod bound).1 _ _ _ _ first
    have consumed := reads.length_lt
    have skipped := length_skipSpace_le after
    rw [first] at reached
    simp only [bind, Except.bind] at reached
    split at reached
    · apply more _ _ _ _ reached
      rw [List.length_drop]
      omega
    · split at reached <;> cases reached

theorem membersBounded_succ (value : ValueBounded strtod bound) (more : MembersBounded strtod bound) :
    MembersBounded strtod (bound + 1) := by
  intro depth fields rest enough reached
  have skipped := length_skipSpace_le rest
  rw [parseMembers] at reached
  simp only [bind, Except.bind] at reached
  split at reached
  · cases reached
  next quote =>
  obtain ⟨name_text, same⟩ := (peek_eq_iff (by decide)).mp (not_not.mp quote)
  rw [same] at reached skipped
  rw [List.length_cons] at skipped
  rw [List.drop_one, List.tail_cons] at reached
  cases read : parseString [] name_text with
  | error failure =>
    rw [read] at reached
    obtain rfl := Except.error.inj reached
    exact parseString_ne_bound _ _ read
  | ok read_ =>
  obtain ⟨key, behind_name⟩ := read_
  obtain ⟨name, name_reads, -⟩ := parseString_ok read
  have name_length := name_reads.length_lt
  have to_colon := length_skipSpace_le behind_name
  rw [read] at reached
  dsimp only at reached
  split at reached
  · cases reached
  have gap := length_skipSpace_le ((skipSpace behind_name).drop 1)
  rw [List.length_drop] at gap
  cases first : parseValue strtod bound (depth + 1) (skipSpace ((skipSpace behind_name).drop 1)) with
  | error failure =>
    rw [first] at reached
    obtain rfl := Except.error.inj reached
    exact value _ _ (by omega) first
  | ok read =>
  obtain ⟨member, after⟩ := read
  obtain ⟨tree, reads, -, -⟩ := (parse_sound strtod bound).1 _ _ _ _ first
  have consumed := reads.length_lt
  have to_comma := length_skipSpace_le after
  rw [first] at reached
  dsimp only at reached
  split at reached
  · apply more _ _ _ _ reached
    rw [List.length_drop]
    omega
  · split at reached <;> cases reached

theorem parse_bounded (strtod : Text → F) (bound : ℕ) :
    ValueBounded strtod bound ∧ ItemsBounded strtod bound ∧ MembersBounded strtod bound := by
  induction bound with
  | zero =>
    refine ⟨?_, ?_, ?_⟩
    · intro depth rest enough
      cases enough
    · intro depth items rest enough
      cases enough
    · intro depth fields rest enough
      cases enough
  | succ bound ih =>
    obtain ⟨value, items, members⟩ := ih
    exact ⟨valueBounded_succ items members, itemsBounded_succ value items,
      membersBounded_succ value members⟩

end Bound

end Saad.Json
