import Saad.Json.ParsesRight
import Saad.Json.Writer

/-! # Writing strings

A string that was parsed is written with no more bytes than it was read from.
-/

namespace Saad.Json

section Written

/-- The text of a character in a string. -/
def charText (ch : BitVec 8) : Text :=
  (Writer.escaped ch).getD <|
    if ch < byteOf ' ' then
      asciiBytes "\\u00" ++ [Writer.hexChar (ch.toNat >>> 4), Writer.hexChar (ch.toNat &&& 15)]
    else [ch]

def stringText (s : Text) : Text := byteOf '"' :: s.flatMap charText ++ [byteOf '"']

/-- The writer writes the text, if the builder has room for it. -/
def Writes (write : Writer → Option Writer) (text : Text) : Prop :=
  ∀ w : Writer, w.sb.Valid → w.sb.text.length + text.length < 2 ^ 30 →
    ∃ after, write w = some after ∧ after.sb.Valid ∧ after.sb.text = w.sb.text ++ text ∧
      after.options = w.options ∧ after.depth = w.depth

variable {first second : Writer → Option Writer} {text more s : Text}

theorem writes_addChar (c : BitVec 8) : Writes (Writer.addChar c) [c] := by
  intro w valid fits
  obtain ⟨grown, adds, grown_valid, same⟩ := (valid.addChar c).1 fits
  exact ⟨{ w with sb := grown }, by rw [Writer.addChar, adds, Option.map_some], grown_valid, same,
    rfl, rfl⟩

theorem writes_addString (s : Text) : Writes (Writer.addString s) s := by
  intro w valid fits
  obtain ⟨grown, adds, grown_valid, same⟩ := (valid.addString (by omega)).1 fits
  exact ⟨{ w with sb := grown }, by rw [Writer.addString, adds, Option.map_some], grown_valid, same,
    rfl, rfl⟩

theorem writes_nothing : Writes some [] :=
  fun w valid _ => ⟨w, rfl, valid, (List.append_nil _).symm, rfl, rfl⟩

theorem Writes.bind (writes : Writes first text) (writes_more : Writes second more) :
    Writes (fun w => first w >>= second) (text ++ more) := by
  intro w valid fits
  rw [List.length_append] at fits
  obtain ⟨next, runs, next_valid, same, options, depth⟩ := writes w valid (by omega)
  obtain ⟨after, runs_more, after_valid, same_more, options_more, depth_more⟩ :=
    writes_more next next_valid (by rw [same, List.length_append]; omega)
  refine ⟨after, ?_, after_valid, by rw [same_more, same, List.append_assoc],
    options_more.trans options, depth_more.trans depth⟩
  dsimp only
  rw [runs]
  exact runs_more

theorem writes_writeChar (ch : BitVec 8) : Writes (Writer.writeChar ch) (charText ch) := by
  intro w
  rw [Writer.writeChar, charText]
  cases Writer.escaped ch with
  | some text => exact writes_addString text w
  | none =>
    rw [Option.getD_none]
    split
    · exact ((writes_addString (asciiBytes "\\u00")).bind
        ((writes_addChar _).bind (writes_addChar _))) w
    · exact writes_addChar ch w

theorem writes_writeChars (s : Text) : Writes (Writer.writeChars s) (s.flatMap charText) := by
  induction s with
  | nil => exact writes_nothing
  | cons ch s ih => exact (writes_writeChar ch).bind ih

theorem writes_writeString (s : Text) : Writes (Writer.writeString s) (stringText s) :=
  (writes_addChar _).bind ((writes_writeChars s).bind (writes_addChar _))

end Written

section Lengths

variable {text rest : Text} {parts : List Part}

/-- The most bytes that a part is written with. -/
def Part.weight : Part → ℕ
  | .byte b => (charText b).length
  | .unit _ => 6

theorem length_charText_le (ch : BitVec 8) : (charText ch).length ≤ 6 := by
  revert ch
  decide

theorem length_charText_high {ch : BitVec 8} (high : 128 ≤ ch.toNat) :
    (charText ch).length = 1 := by
  revert ch
  decide

theorem length_charText_plain {ch : BitVec 8} (low : byteOf ' ' ≤ ch) (quote : ch ≠ byteOf '"')
    (backslash : ch ≠ byteOf '\\') : (charText ch).length = 1 := by
  revert ch
  decide

theorem length_charText_escape {e ch : BitVec 8} (member : (e, ch) ∈ escapes) :
    (charText ch).length ≤ 2 := by
  have all : (escapes.all fun entry => (charText entry.2).length ≤ 2) = true := by decide
  exact of_decide_eq_true (List.all_eq_true.mp all _ member)

theorem length_utf8_le {n : ℕ} (lt : n < 2 ^ 22) : ((utf8 n).flatMap charText).length ≤ 6 := by
  have byte : ∀ k, 128 ≤ k → k < 256 → (charText (BitVec.ofNat 8 k)).length = 1 := by
    intro k low high
    apply length_charText_high
    rw [BitVec.toNat_ofNat, Nat.mod_eq_of_lt (by omega)]
    exact low
  rw [utf8]
  split
  · rw [List.flatMap_singleton]
    exact length_charText_le _
  · split
    · simp only [List.flatMap_cons, List.flatMap_nil, List.append_nil, List.length_append]
      rw [byte _ (by omega) (by omega), byte _ (by omega) (by omega)]
      decide
    · split
      · simp only [List.flatMap_cons, List.flatMap_nil, List.append_nil, List.length_append]
        rw [byte _ (by omega) (by omega), byte _ (by omega) (by omega), byte _ (by omega) (by omega)]
        decide
      · simp only [List.flatMap_cons, List.flatMap_nil, List.append_nil, List.length_append]
        rw [byte _ (by omega) (by omega), byte _ (by omega) (by omega),
          byte _ (by omega) (by omega), byte _ (by omega) (by omega)]
        decide

/-- What a string is read as is written with at most the weight of its parts. -/
theorem length_replaceUnits_le (units : ∀ n, Part.unit n ∈ parts → n < 0x10000) :
    ((replaceUnits parts).flatMap charText).length ≤ (parts.map Part.weight).sum := by
  fun_induction replaceUnits parts with
  | case1 => exact Nat.le_refl _
  | case2 b parts ih =>
    have behind := ih fun n member => units n (List.mem_cons_of_mem _ member)
    simp only [List.flatMap_cons, List.length_append, List.map_cons, List.sum_cons, Part.weight]
    omega
  | case3 high low parts is_high is_low ih =>
    have behind := ih fun n member =>
      units n (List.mem_cons_of_mem _ (List.mem_cons_of_mem _ member))
    have here := length_utf8_le (pairCode_lt is_high is_low)
    simp only [List.flatMap_append, List.length_append, List.map_cons, List.sum_cons, Part.weight]
    omega
  | case4 high low parts is_high not_low ih =>
    have behind := ih fun n member =>
      units n (List.mem_cons_of_mem _ (List.mem_cons_of_mem _ member))
    have low_lt := units low (List.mem_cons_of_mem _ List.mem_cons_self)
    have first := @length_utf8_le 0xFFFD (by decide)
    have second := @length_utf8_le low (by omega)
    simp only [List.flatMap_append, List.length_append, List.map_cons, List.sum_cons, Part.weight]
    omega
  | case5 high low parts not_high ih =>
    have behind := ih fun n member => units n (List.mem_cons_of_mem _ member)
    have high_lt := units high List.mem_cons_self
    have here := @length_utf8_le high (by omega)
    simp only [List.flatMap_append, List.length_append, List.map_cons, List.sum_cons,
      Part.weight] at behind ⊢
    omega
  | case6 n parts no_unit ih =>
    have behind := ih fun m member => units m (List.mem_cons_of_mem _ member)
    have n_lt := units n List.mem_cons_self
    have here := @length_utf8_le n (by omega)
    simp only [List.flatMap_append, List.length_append, List.map_cons, List.sum_cons, Part.weight]
    omega

/-- A string is at least as long in the text as the weight of its parts, with its second quote. -/
theorem StringText.weight_lt (reads : StringText text parts rest) :
    (parts.map Part.weight).sum + rest.length < text.length ∧
      ∀ n, Part.unit n ∈ parts → n < 0x10000 := by
  induction reads with
  | close rest => simp
  | plain ch text parts rest printed no_quote no_escape reads ih =>
    have one := length_charText_plain printed no_quote no_escape
    simp only [List.map_cons, List.sum_cons, Part.weight, List.length_cons, List.mem_cons,
      reduceCtorEq, false_or]
    exact ⟨by omega, ih.2⟩
  | escape e ch text parts rest known reads ih =>
    have two := length_charText_escape known
    simp only [List.map_cons, List.sum_cons, Part.weight, List.length_cons, List.mem_cons,
      reduceCtorEq, false_or]
    exact ⟨by omega, ih.2⟩
  | unit a b c d text parts rest hex reads ih =>
    simp only [List.map_cons, List.sum_cons, Part.weight, List.length_cons, List.mem_cons,
      Part.unit.injEq]
    refine ⟨by omega, ?_⟩
    rintro n (rfl | member)
    · exact hexUnit_lt a b c d
    · exact ih.2 n member

/-- A string was read from at least as many bytes as it is written with. -/
theorem ValueText.length_stringText_le (reads : ValueText text (.string parts) rest) :
    (stringText (replaceUnits parts)).length ≤ text.length := by
  cases reads with
  | string text _ _ reads =>
    obtain ⟨lt, units⟩ := reads.weight_lt
    have le := length_replaceUnits_le units
    simp only [stringText, List.length_append, List.length_cons, List.length_nil]
    omega

theorem MembersText.length_stringText_le {text rest : Text} {members : List (List Part × Tree)}
    {name parts : List Part} (reads : MembersText text members rest)
    (member : (name, .string parts) ∈ members) : (stringText (replaceUnits parts)).length ≤ text.length := by
  induction members generalizing text with
  | nil => exact absurd member List.not_mem_nil
  | cons entry members ih =>
    cases reads with
    | last text name_text before between value_text behind name value rest open_ name_reads colon gap reads after =>
      have before_value := length_of_name open_ name_reads colon gap
      obtain ⟨rfl, rfl⟩ := Prod.mk.inj (List.mem_singleton.mp member)
      have le := reads.length_stringText_le
      omega
    | cons text name_text before between value_text behind more name value members rest open_ name_reads colon gap
        reads after members_read =>
      have before_value := length_of_name open_ name_reads colon gap
      have value_length := reads.length_lt
      have behind_length := after.length_le
      simp only [List.length_cons] at behind_length
      obtain same | member := List.mem_cons.mp member
      · obtain ⟨rfl, rfl⟩ := Prod.mk.inj same
        have le := reads.length_stringText_le
        omega
      · have le := ih members_read member
        omega

end Lengths

section ReadsBack

/-- The characters of a string up to the quote, which the parser makes the string of. -/
theorem exists_stringText (s rest : Text) :
    ∃ parts, StringText (s.flatMap charText ++ byteOf '"' :: rest) parts rest ∧ replaceUnits parts = s := by
  induction s with
  | nil => exact ⟨[], .close rest, rfl⟩
  | cons ch s ih =>
    obtain ⟨parts, reads, same⟩ := ih
    rw [List.flatMap_cons, List.append_assoc, charText]
    cases escape : Writer.escaped ch with
    | some written =>
      obtain ⟨e, member, rfl⟩ : ∃ e, (e, ch) ∈ escapes ∧ written = [byteOf '\\', e] := by
        unfold Writer.escaped at escape
        split_ifs at escape <;> subst ch <;> exact ⟨_, by decide, (Option.some.inj escape).symm⟩
      exact ⟨_, .escape e ch _ parts rest member reads, by rw [replaceUnits_byte, same]⟩
    | none =>
      rw [Option.getD_none]
      split
      · next control =>
        have hex : ∀ n < 32,
            ([byteOf '0', byteOf '0', Writer.hexChar (n >>> 4), Writer.hexChar (n &&& 15)].all isHexDigit) = true ∧
            hexUnit (byteOf '0') (byteOf '0') (Writer.hexChar (n >>> 4)) (Writer.hexChar (n &&& 15)) = n ∧
            ¬IsHigh n ∧ utf8 n = [BitVec.ofNat 8 n] := by decide
        obtain ⟨digits, is, no_high, unit⟩ := hex ch.toNat (BitVec.lt_def.mp control)
        have reads_unit := StringText.unit _ _ _ _ _ parts rest (List.all_eq_true.mp digits) reads
        rw [is] at reads_unit
        refine ⟨_, reads_unit, ?_⟩
        rw [replaceUnits_unit fun high => absurd high no_high, unit, same, BitVec.ofNat_toNat, BitVec.setWidth_eq,
          List.singleton_append]
      · next printed =>
        have plain : ∀ ch, Writer.escaped ch = none → ch ≠ byteOf '"' ∧ ch ≠ byteOf '\\' := by decide
        obtain ⟨no_quote, no_escape⟩ := plain ch escape
        exact ⟨_, .plain ch _ parts rest (BitVec.not_lt.mp printed) no_quote no_escape reads,
          by rw [replaceUnits_byte, same]⟩

/-- Whatever bytes a string has, its JSON text is read as that string. -/
theorem parse_toJson_string {F : Type} (floats : Floats F) (options : Options) (s : Text)
    (fits : (stringText s).length < 2 ^ 30) :
    ∃ text, toJson floats (.string s) options = some text ∧ parse floats.strtod text = some (.ok (.string s)) := by
  have valid : (⟨[], 128⟩ : StringBuilder).Valid := ⟨⟨7, by decide⟩, by decide⟩
  obtain ⟨w, writes, -, is, -⟩ := writes_writeString s ⟨⟨[], 128⟩, options, 0⟩ valid (by simpa using fits)
  obtain ⟨parts, reads, same⟩ := exists_stringText s []
  refine ⟨stringText s, ?_, ?_⟩
  · have made : newWriter options = some ⟨⟨[], 128⟩, options, 0⟩ := rfl
    simp only [toJson, made, writeValue, Option.bind_eq_bind, Option.bind_some, writes]
    exact congrArg some is
  · have json : JsonText (stringText s) (.string parts) := ⟨_, [], .nil _, .string _ parts [] reads, .nil _⟩
    rw [parse_of_jsonText json (Nat.zero_le _), Tree.read, same]

theorem parse_toJson_string_quote : ∃ text,
    toJson ⟨fun _ => (0 : BitVec 64), fun _ _ => [byteOf '0'], fun _ => true, fun a b => a == b⟩
      (.string (asciiBytes "\"\n")) {} = some text ∧
    parse (fun _ => (0 : BitVec 64)) text = some (.ok (.string (asciiBytes "\"\n"))) :=
  parse_toJson_string _ _ _ (by decide)

end ReadsBack

end Saad.Json
