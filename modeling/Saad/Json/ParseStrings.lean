import Saad.Json.Parse

/-! # Strings are parsed as the grammar says

The parser replaces the escapes while it reads. It looks for the second unit of a pair behind every
high surrogate, and takes what it finds there as it is.
-/

namespace Saad.Json

section Characters

variable {rest behind text sb : Text} {parts : List Part}

theorem or_eq_add {b i : ℕ} (lt : b < 2 ^ i) (a : ℕ) : 2 ^ i * a ||| b = 2 ^ i * a + b :=
  (Nat.two_pow_add_eq_or_of_lt lt a).symm

theorem addUtf8_eq {code : ℕ} (lt : code < 2 ^ 22) : addUtf8 code = utf8 code := by
  have low : ∀ n, 128 ||| n &&& 63 = 0x80 + n % 0x40 := by
    intro n
    rw [Nat.and_two_pow_sub_one_eq_mod n 6]
    exact or_eq_add (i := 7) (by omega) 1
  rw [addUtf8, utf8]
  simp only [low, Nat.shiftRight_eq_div_pow]
  split
  · rfl
  · split
    · have first : 192 ||| code / 2 ^ 6 = 0xC0 + code / 0x40 := or_eq_add (i := 6) (by omega) 3
      rw [first]
    · split
      · have first : 224 ||| code / 2 ^ 12 = 0xE0 + code / 0x1000 :=
          or_eq_add (i := 5) (by omega) 7
        rw [first]
      · have first : 240 ||| code / 2 ^ 18 = 0xF0 + code / 0x40000 :=
          or_eq_add (i := 4) (by omega) 15
        rw [first]

theorem hexDigit_eq : ∀ ch, hexDigit ch =
    if isHexDigit ch then some (digitValue ch).toNat else none := by decide

theorem digitValue_lt : ∀ ch, (digitValue ch).toNat < 16 := by decide

theorem hexUnit_lt (a b c d : BitVec 8) : hexUnit a b c d < 0x10000 := by
  have := digitValue_lt a
  have := digitValue_lt b
  have := digitValue_lt c
  have := digitValue_lt d
  simp only [hexUnit, List.foldl_cons, List.foldl_nil]
  omega

theorem pairCode_lt {high low : ℕ} (is_high : IsHigh high) (is_low : IsLow low) :
    pairCode high low < 2 ^ 22 := by
  obtain ⟨_, _⟩ := is_high
  obtain ⟨_, _⟩ := is_low
  unfold pairCode
  omega

theorem parseHexDigits_cons {count value : ℕ} {ch : BitVec 8} (hex : isHexDigit ch = true) :
    parseHexDigits (count + 1) value (ch :: rest) =
      parseHexDigits count (value * 16 + (digitValue ch).toNat) rest := by
  rw [parseHexDigits]
  simp only [hexDigit_eq, hex, if_true]

theorem parseHex4_of_hex {a b c d : BitVec 8} (hex : ∀ ch ∈ [a, b, c, d], isHexDigit ch = true) :
    parseHex4 (a :: b :: c :: d :: rest) = .ok (hexUnit a b c d, rest) := by
  have enough : ¬(a :: b :: c :: d :: rest).length < 4 := by
    simp only [List.length_cons]
    omega
  rw [parseHex4, if_neg enough, parseHexDigits_cons (hex a (by simp)),
    parseHexDigits_cons (hex b (by simp)), parseHexDigits_cons (hex c (by simp)),
    parseHexDigits_cons (hex d (by simp))]
  rfl

theorem parseHexDigits_ok {count value n : ℕ} (parses : parseHexDigits (count + 1) value rest =
    .ok (n, behind)) : ∃ ch more, rest = ch :: more ∧ isHexDigit ch = true ∧
      parseHexDigits count (value * 16 + (digitValue ch).toNat) more = .ok (n, behind) := by
  cases rest with
  | nil => cases parses
  | cons ch more =>
    cases hex : isHexDigit ch with
    | true => exact ⟨ch, more, rfl, hex, (parseHexDigits_cons hex).symm.trans parses⟩
    | false =>
      rw [parseHexDigits] at parses
      simp only [hexDigit_eq, hex, Bool.false_eq_true, if_false] at parses
      cases parses

theorem parseHex4_ok {n : ℕ} (parses : parseHex4 rest = .ok (n, behind)) :
    ∃ a b c d, (∀ ch ∈ [a, b, c, d], isHexDigit ch = true) ∧ rest = a :: b :: c :: d :: behind ∧
      n = hexUnit a b c d := by
  rw [parseHex4] at parses
  split at parses
  · cases parses
  · obtain ⟨a, more, rfl, hex_a, parses⟩ := parseHexDigits_ok parses
    obtain ⟨b, more, rfl, hex_b, parses⟩ := parseHexDigits_ok parses
    obtain ⟨c, more, rfl, hex_c, parses⟩ := parseHexDigits_ok parses
    obtain ⟨d, more, rfl, hex_d, parses⟩ := parseHexDigits_ok parses
    obtain ⟨rfl, rfl⟩ := Prod.mk.inj (Except.ok.inj parses)
    refine ⟨a, b, c, d, ?_, rfl, rfl⟩
    simp only [List.mem_cons, List.not_mem_nil, or_false]
    rintro ch (rfl | rfl | rfl | rfl) <;> assumption

theorem eatWord_eq_some {word : String} (eaten : eatWord rest word = some behind) :
    rest = asciiBytes word ++ behind := by
  rw [eatWord] at eaten
  split at eaten
  · next starts =>
    obtain ⟨after, rfl⟩ := List.isPrefixOf_iff_prefix.mp starts
    obtain rfl := Option.some.inj eaten
    rw [List.drop_left]
  · cases eaten

theorem eatWord_append (word : String) (behind : Text) :
    eatWord (asciiBytes word ++ behind) word = some behind := by
  have starts : startsWith (asciiBytes word ++ behind) (asciiBytes word) = true :=
    List.isPrefixOf_iff_prefix.mpr (List.prefix_append _ _)
  rw [eatWord, if_pos starts, List.drop_left]

theorem unitWord : asciiBytes "\\u" = [byteOf '\\', byteOf 'u'] := by decide

/-- What the parser makes of the parts of a string. -/
def replaceUnits : List Part → Text
  | [] => []
  | .byte b :: parts => b :: replaceUnits parts
  | .unit high :: .unit low :: parts =>
    if IsHigh high then
      if IsLow low then utf8 (pairCode high low) ++ replaceUnits parts
      else utf8 0xFFFD ++ utf8 low ++ replaceUnits parts
    else utf8 high ++ replaceUnits (.unit low :: parts)
  | .unit n :: parts => utf8 n ++ replaceUnits parts

theorem replaceUnits_byte (b : BitVec 8) (parts : List Part) :
    replaceUnits (.byte b :: parts) = b :: replaceUnits parts := by
  rw [replaceUnits]

theorem replaceUnits_unit {n : ℕ} (no_pair : IsHigh n → ∀ m ∈ parts.head?, ∃ b, m = .byte b) :
    replaceUnits (.unit n :: parts) = utf8 n ++ replaceUnits parts := by
  cases parts with
  | nil => rfl
  | cons part parts =>
    cases part with
    | byte b => rfl
    | unit low =>
      have not_high : ¬IsHigh n := by
        intro high
        obtain ⟨b, same⟩ := no_pair high (.unit low) rfl
        cases same
      rw [replaceUnits, if_neg not_high]

/-- Behind what isn't the start of an escape of a unit, the next part is a byte. -/
theorem StringText.head_byte (reads : StringText text parts rest) (none_ : eatWord text "\\u" = none) :
    ∀ m ∈ parts.head?, ∃ b, m = .byte b := by
  cases reads with
  | close => simp
  | plain ch => simp
  | escape e ch => simp
  | unit a b c d text =>
    have eaten := eatWord_append "\\u" (a :: b :: c :: d :: text)
    rw [unitWord] at eaten
    cases none_.symm.trans eaten

end Characters

section Units

variable {rest behind text : Text} {a b c d : BitVec 8}

/-- What is added for a unit, by what is behind it. -/
theorem parseUnit_eq (hex : ∀ ch ∈ [a, b, c, d], isHexDigit ch = true) :
    parseUnit (a :: b :: c :: d :: rest) =
      if IsHigh (hexUnit a b c d) then
        match eatWord rest "\\u" with
        | some more => (parseHex4 more).map fun (low, behind) =>
          (if IsLow low then utf8 (pairCode (hexUnit a b c d) low) else utf8 0xFFFD ++ utf8 low, behind)
        | none => .ok (utf8 (hexUnit a b c d), rest)
      else .ok (utf8 (hexUnit a b c d), rest) := by
  have bound := hexUnit_lt a b c d
  have high_iff : (hexUnit a b c d ≥ 55296 ∧ hexUnit a b c d ≤ 56319) ↔ IsHigh (hexUnit a b c d) := by
    rw [IsHigh]
    omega
  rw [parseUnit, parseHex4_of_hex hex]
  simp only [bind, Except.bind, high_iff]
  by_cases high : IsHigh (hexUnit a b c d)
  · rw [if_pos high, if_pos high]
    cases eaten : eatWord rest "\\u" with
    | none => simp only [addUtf8_eq (show hexUnit a b c d < 2 ^ 22 by omega), pure, Except.pure]
    | some more =>
      simp only []
      cases second : parseHex4 more with
      | error failure => rfl
      | ok read =>
        obtain ⟨low, behind⟩ := read
        obtain ⟨a', b', c', d', -, -, rfl⟩ := parseHex4_ok second
        have low_bound := hexUnit_lt a' b' c' d'
        have low_iff : (hexUnit a' b' c' d' ≥ 56320 ∧ hexUnit a' b' c' d' ≤ 57343) ↔
            IsLow (hexUnit a' b' c' d') := by
          rw [IsLow]
          omega
        simp only [Except.map, low_iff]
        by_cases low : IsLow (hexUnit a' b' c' d')
        · have code : 65536 + ((hexUnit a b c d - 55296) <<< 10) + (hexUnit a' b' c' d' - 56320) =
              pairCode (hexUnit a b c d) (hexUnit a' b' c' d') := by
            rw [Nat.shiftLeft_eq]
            rfl
          rw [if_pos low, if_pos low, code, addUtf8_eq (pairCode_lt high low)]
          rfl
        · rw [if_neg low, if_neg low, addUtf8_eq (by decide),
            addUtf8_eq (show hexUnit a' b' c' d' < 2 ^ 22 by omega)]
          rfl
  · rw [if_neg high, if_neg high]
    simp only [addUtf8_eq (show hexUnit a b c d < 2 ^ 22 by omega), pure, Except.pure]

end Units

section Strings

variable {rest behind text sb out : Text} {parts : List Part}

theorem parseString_close (sb rest : Text) :
    parseString sb (byteOf '"' :: rest) = .ok (sb, rest) := by
  rw [parseString, if_pos rfl]

theorem parseString_plain {ch : BitVec 8} (printed : byteOf ' ' ≤ ch) (no_quote : ch ≠ byteOf '"')
    (no_escape : ch ≠ byteOf '\\') (sb rest : Text) :
    parseString sb (ch :: rest) = parseString (sb ++ [ch]) rest := by
  rw [parseString, if_neg no_quote, if_neg (BitVec.not_lt.mpr printed), if_pos no_escape]

theorem parseString_escape {e ch : BitVec 8} (known : (e, ch) ∈ escapes) (sb rest : Text) :
    parseString sb (byteOf '\\' :: e :: rest) = parseString (sb ++ [ch]) rest := by
  rw [parseString, if_neg (by decide), if_neg (by decide), if_neg (by simp)]
  simp only [escapes, List.mem_cons, Prod.mk.injEq, List.not_mem_nil, or_false] at known
  rcases known with ⟨rfl, rfl⟩ | ⟨rfl, rfl⟩ | ⟨rfl, rfl⟩ | ⟨rfl, rfl⟩ | ⟨rfl, rfl⟩ | ⟨rfl, rfl⟩ |
    ⟨rfl, rfl⟩ | ⟨rfl, rfl⟩ <;> rfl

theorem parseString_unit (sb rest : Text) :
    parseString sb (byteOf '\\' :: byteOf 'u' :: rest) =
      match parseUnit rest with
      | .error failure => .error failure
      | .ok (text, more) => parseString (sb ++ text) more := by
  rw [parseString, if_neg (by decide), if_neg (by decide), if_neg (by simp)]
  have no_other : ∀ c ∈ [byteOf '"', byteOf '\\', byteOf '/', byteOf 'b', byteOf 'f', byteOf 'n',
      byteOf 'r', byteOf 't'], byteOf 'u' ≠ c := by decide
  simp only [List.mem_cons, List.not_mem_nil, or_false, forall_eq_or_imp, forall_eq] at no_other
  simp only [peek, List.headD_cons, no_other, or_self, if_false, if_true, List.drop_one,
    List.tail_cons]
  split
  · next failure parses =>
    rw [List.drop_one, List.tail_cons] at parses
    rw [parses]
  · next text more parses =>
    rw [List.drop_one, List.tail_cons] at parses
    rw [parses]

/-- An escape of a unit is read as one part, or as the two parts of which the parser looks for
the second one. -/
theorem parseUnit_ok (parses : parseUnit rest = .ok (text, behind)) :
    ∃ units, ∀ parts last, StringText behind parts last →
      StringText (byteOf '\\' :: byteOf 'u' :: rest) (units ++ parts) last ∧
        replaceUnits (units ++ parts) = text ++ replaceUnits parts := by
  obtain ⟨⟨n, more⟩, first, -⟩ := General.bind_eq_ok_iff.mp parses
  obtain ⟨a, b, c, d, hex, rfl, rfl⟩ := parseHex4_ok first
  rw [parseUnit_eq hex] at parses
  by_cases high : IsHigh (hexUnit a b c d)
  · rw [if_pos high] at parses
    cases eaten : eatWord more "\\u" with
    | none =>
      simp only [eaten] at parses
      obtain ⟨rfl, rfl⟩ := Prod.mk.inj (Except.ok.inj parses)
      refine ⟨[.unit (hexUnit a b c d)], fun parts last reads => ⟨?_, ?_⟩⟩
      · exact .unit a b c d more parts last hex reads
      · exact replaceUnits_unit fun _ => reads.head_byte eaten
    | some word =>
      simp only [eaten] at parses
      obtain ⟨⟨low, after⟩, second, last_unit⟩ := General.bind_eq_ok_iff.mp parses
      obtain ⟨a', b', c', d', hex', rfl, rfl⟩ := parseHex4_ok second
      obtain ⟨rfl, rfl⟩ := Prod.mk.inj (Except.ok.inj last_unit)
      rw [eatWord_eq_some eaten, unitWord]
      refine ⟨[.unit (hexUnit a b c d), .unit (hexUnit a' b' c' d')],
        fun parts last reads => ⟨?_, ?_⟩⟩
      · exact .unit a b c d _ _ last hex (.unit a' b' c' d' after parts last hex' reads)
      · simp only [List.cons_append, List.nil_append]
        rw [replaceUnits, if_pos high]
        split <;> simp only [List.append_assoc]
  · rw [if_neg high] at parses
    obtain ⟨rfl, rfl⟩ := Prod.mk.inj (Except.ok.inj parses)
    refine ⟨[.unit (hexUnit a b c d)], fun parts last reads => ⟨?_, ?_⟩⟩
    · exact .unit a b c d more parts last hex reads
    · exact replaceUnits_unit fun is_high => absurd is_high high

/-- What the parser can take next. -/
theorem parseString_cases (parses : parseString sb rest = .ok (out, behind)) :
    (rest = byteOf '"' :: behind ∧ out = sb) ∨
    (∃ ch more, rest = ch :: more ∧ byteOf ' ' ≤ ch ∧ ch ≠ byteOf '"' ∧ ch ≠ byteOf '\\' ∧
      parseString (sb ++ [ch]) more = .ok (out, behind)) ∨
    (∃ e ch more, rest = byteOf '\\' :: e :: more ∧ (e, ch) ∈ escapes ∧
      parseString (sb ++ [ch]) more = .ok (out, behind)) ∨
    (∃ more text last, rest = byteOf '\\' :: byteOf 'u' :: more ∧ parseUnit more = .ok (text, last) ∧
      parseString (sb ++ text) last = .ok (out, behind)) := by
  cases rest with
  | nil =>
    rw [parseString] at parses
    cases parses
  | cons ch more =>
    by_cases quote : ch = byteOf '"'
    · obtain rfl := quote
      rw [parseString_close] at parses
      obtain ⟨rfl, rfl⟩ := Prod.mk.inj (Except.ok.inj parses)
      exact .inl ⟨rfl, rfl⟩
    by_cases control : ch < byteOf ' '
    · rw [parseString, if_neg quote, if_pos control] at parses
      cases parses
    by_cases backslash : ch = byteOf '\\'
    · obtain rfl := backslash
      right; right
      cases more with
      | nil =>
        rw [parseString, if_neg (by decide), if_neg (by decide), if_neg (by simp)] at parses
        cases parses
      | cons e more =>
        by_cases known : ∃ ch, (e, ch) ∈ escapes
        · obtain ⟨ch, known⟩ := known
          rw [parseString_escape known] at parses
          exact .inl ⟨e, ch, more, rfl, known, parses⟩
        by_cases unit_ : e = byteOf 'u'
        · obtain rfl := unit_
          rw [parseString_unit] at parses
          cases read : parseUnit more with
          | error failure =>
            rw [read] at parses
            cases parses
          | ok read_ =>
            obtain ⟨text, last⟩ := read_
            rw [read] at parses
            exact .inr ⟨more, text, last, rfl, read, parses⟩
        · simp only [escapes, List.mem_cons, Prod.mk.injEq, List.not_mem_nil, or_false, exists_or,
            exists_and_left, exists_eq, and_true, not_or] at known
          rw [parseString, if_neg (by decide), if_neg (by decide), if_neg (by simp)] at parses
          simp only [peek, List.headD_cons, known, unit_, or_self, if_false] at parses
          cases parses
    · rw [parseString_plain (BitVec.not_lt.mp control) quote backslash] at parses
      exact .inr (.inl ⟨ch, more, rfl, BitVec.not_lt.mp control, quote, backslash, parses⟩)

/-- What the parser takes as a string is one, with its parts replaced. -/
theorem parseString_ok (parses : parseString sb rest = .ok (out, behind)) :
    ∃ parts, StringText rest parts behind ∧ out = sb ++ replaceUnits parts := by
  induction n : rest.length using Nat.strong_induction_on generalizing rest sb with
  | _ n ih =>
    obtain ⟨rfl, rfl⟩ | ⟨ch, more, rfl, printed, no_quote, no_escape, parses⟩ |
      ⟨e, ch, more, rfl, known, parses⟩ | ⟨more, text, last, rfl, unit_, parses⟩ :=
      parseString_cases parses
    · exact ⟨[], .close behind, (List.append_nil _).symm⟩
    · obtain ⟨parts, reads, rfl⟩ := ih more.length (by simp [← n]) parses rfl
      refine ⟨.byte ch :: parts, .plain ch more parts behind printed no_quote no_escape reads, ?_⟩
      rw [replaceUnits_byte, List.append_assoc, List.singleton_append]
    · obtain ⟨parts, reads, rfl⟩ := ih more.length (by simp only [← n, List.length_cons]; omega) parses rfl
      refine ⟨.byte ch :: parts, .escape e ch more parts behind known reads, ?_⟩
      rw [replaceUnits_byte, List.append_assoc, List.singleton_append]
    · have shorter := length_of_parseUnit unit_
      obtain ⟨parts, reads, rfl⟩ := ih last.length (by simp only [← n, List.length_cons]; omega) parses rfl
      obtain ⟨units, whole⟩ := parseUnit_ok unit_
      obtain ⟨reads, replaced⟩ := whole parts behind reads
      exact ⟨units ++ parts, reads, by rw [replaced, List.append_assoc]⟩

theorem StringText.unit_inv
    (reads : StringText ([byteOf '\\', byteOf 'u'] ++ text) parts rest) :
    ∃ a b c d more tail, text = a :: b :: c :: d :: more ∧ parts = .unit (hexUnit a b c d) :: tail ∧
      (∀ ch ∈ [a, b, c, d], isHexDigit ch = true) ∧ StringText more tail rest := by
  cases reads with
  | plain ch text parts rest printed no_quote no_escape => exact absurd rfl no_escape
  | escape e ch text parts rest known => exact absurd known (by revert ch; decide)
  | unit a b c d text parts rest hex reads => exact ⟨a, b, c, d, text, parts, rfl, rfl, hex, reads⟩

theorem parseString_of_reads (reads : StringText text parts rest) (sb : Text) :
    parseString sb text = .ok (sb ++ replaceUnits parts, rest) := by
  induction n : parts.length using Nat.strong_induction_on generalizing text parts sb with
  | _ n ih =>
    cases reads with
    | close => rw [parseString_close, replaceUnits, List.append_nil]
    | plain ch text parts _ printed no_quote no_escape reads =>
      rw [parseString_plain printed no_quote no_escape, ih _ (by simp [← n]) reads _ rfl,
        replaceUnits_byte, List.append_assoc, List.singleton_append]
    | escape e ch text parts _ known reads =>
      rw [parseString_escape known, ih _ (by simp [← n]) reads _ rfl, replaceUnits_byte,
        List.append_assoc, List.singleton_append]
    | unit a b c d text parts _ hex reads =>
      rw [parseString_unit, parseUnit_eq hex]
      by_cases high : IsHigh (hexUnit a b c d)
      · rw [if_pos high]
        cases eaten : eatWord text "\\u" with
        | none =>
          simp only []
          rw [ih _ (by simp [← n]) reads _ rfl, replaceUnits_unit fun _ => reads.head_byte eaten,
            List.append_assoc]
        | some word =>
          obtain rfl := eatWord_eq_some eaten
          rw [unitWord] at reads
          obtain ⟨a', b', c', d', text, parts, rfl, rfl, hex', reads⟩ := reads.unit_inv
          simp only [parseHex4_of_hex hex', Except.map]
          rw [ih _ (by simp only [← n, List.length_cons]; omega) reads _ rfl, replaceUnits, if_pos high]
          split <;> simp only [List.append_assoc]
      · rw [if_neg high]
        simp only []
        rw [ih _ (by simp [← n]) reads _ rfl, replaceUnits_unit fun is_high => absurd is_high high,
          List.append_assoc]

end Strings

end Saad.Json
