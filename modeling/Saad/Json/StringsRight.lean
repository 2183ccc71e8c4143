import Saad.Json.StringsUtf8

/-! # The strings of what the parser returns

The value that a text should give has all of its strings decoded. A member that a later one with the same
name replaces is not in it, so nothing is said about the strings of that value.
-/

namespace Saad.Json

open General

section Decoded

variable {F : Type}

mutual

/-- The value that a text should give. -/
def Tree.decode (strtod : Text → F) : Tree → Value F
  | .null => .null
  | .bool b => .bool b
  | .number text => .number (strtod text) text
  | .string parts => .string (decoded parts)
  | .array items => .array (decodeItems strtod items)
  | .object members => .object (decodeMembers strtod [] members)

def decodeItems (strtod : Text → F) : List Tree → List (Value F)
  | [] => []
  | item :: items => item.decode strtod :: decodeItems strtod items

def decodeMembers (strtod : Text → F) (fields : AssocList Text (Value F)) :
    List (List Part × Tree) → AssocList Text (Value F)
  | [] => fields
  | (name, member) :: members =>
    decodeMembers strtod (fields.insert (decoded name) (member.decode strtod)) members

end

mutual

/-- The strings and the member names of a value. -/
def Value.texts : Value F → List Text
  | .string text => [text]
  | .array items => textsOfItems items
  | .object fields => textsOfFields fields
  | _ => []

def textsOfItems : List (Value F) → List Text
  | [] => []
  | item :: items => item.texts ++ textsOfItems items

def textsOfFields : List (Text × Value F) → List Text
  | [] => []
  | (name, value) :: fields => name :: (value.texts ++ textsOfFields fields)

end

mutual

/-- The surrogates of all strings are in order, but for the values that a later member replaces. -/
def Tree.Ordered : Tree → Prop
  | .string parts => SurrogatesOrdered parts
  | .array items => itemsOrdered items
  | .object members => membersOrdered members
  | _ => True

def itemsOrdered : List Tree → Prop
  | [] => True
  | item :: items => item.Ordered ∧ itemsOrdered items

def membersOrdered : List (List Part × Tree) → Prop
  | [] => True
  | (name, value) :: members =>
    SurrogatesOrdered name ∧
      (decoded name ∈ members.map (fun member => decoded member.1) ∨ value.Ordered) ∧
      membersOrdered members

end

def namesOf (members : List (List Part × Tree)) : List Text := members.map fun member => decoded member.1

/-- A string is UTF-8 as it is written. -/
def RawUtf8 (parts : List Part) : Prop :=
  UnitsSmall parts ∧ Utf8.run .first (parts.map Part.mark) = some .first

mutual

def Tree.Raw : Tree → Prop
  | .string parts => RawUtf8 parts
  | .array items => itemsRaw items
  | .object members => membersRaw members
  | _ => True

def itemsRaw : List Tree → Prop
  | [] => True
  | item :: items => item.Raw ∧ itemsRaw items

def membersRaw : List (List Part × Tree) → Prop
  | [] => True
  | (name, value) :: members => RawUtf8 name ∧ value.Raw ∧ membersRaw members

end

end Decoded

section Written

variable {text rest : Text} {state : Utf8.State}

/-- A character of ASCII is between two characters. -/
theorem run_ascii_cons {ch : BitVec 8} (ascii : ch.toNat < 0x80)
    (run : Utf8.run state (ch :: rest) = some .first) :
    state = .first ∧ Utf8.run .first rest = some .first := by
  rw [Utf8.run_cons, Utf8.step_ascii ascii] at run
  by_cases between : state = .first
  · rw [if_pos between, Option.bind_some] at run
    exact ⟨between, run⟩
  · rw [if_neg between, Option.bind_none] at run
    cases run

theorem run_ascii {front : Text} (ascii : ∀ ch ∈ front, ch.toNat < 0x80)
    (run : Utf8.run .first (front ++ rest) = some .first) : Utf8.run .first rest = some .first := by
  induction front with
  | nil => exact run
  | cons ch front ih =>
    have behind := (run_ascii_cons (ascii ch List.mem_cons_self) run).2
    exact ih (fun c inside => ascii c (List.mem_cons_of_mem _ inside)) behind

theorem Spaces.run (spaces : Spaces text rest) (run : Utf8.run .first text = some .first) :
    Utf8.run .first rest = some .first := by
  have ascii : ∀ ch, isSpace ch = true → ch.toNat < 0x80 := by decide
  induction spaces with
  | nil => exact run
  | cons ch text rest space spaces ih => exact ih (run_ascii_cons (ascii ch space) run).2

theorem Spaces.run_mark {ch : BitVec 8} (spaces : Spaces text (ch :: rest)) (ascii : ch.toNat < 0x80)
    (run : Utf8.run .first text = some .first) : Utf8.run .first rest = some .first :=
  (run_ascii_cons ascii (spaces.run run)).2

theorem Number.ascii (number : Number text) : ∀ ch ∈ text, ch.toNat < 0x80 := by
  have digit_ascii : ∀ ch, isDigit ch = true → ch.toNat < 0x80 := by decide
  have sign_ascii : ∀ sign : Text, sign = [] ∨ sign = [byteOf '+'] ∨ sign = [byteOf '-'] →
      ∀ ch ∈ sign, ch.toNat < 0x80 := by
    rintro sign (rfl | rfl | rfl) <;> decide
  cases number with
  | mk sign integer fraction exponent signed is_integer is_fraction is_exponent =>
    have first : ∀ ch ∈ integer, ch.toNat < 0x80 := by
      cases is_integer with
      | zero => decide
      | digits ch more digit no_zero digits =>
        exact List.forall_mem_cons.mpr ⟨digit_ascii ch digit, fun c inside => digit_ascii c (digits c inside)⟩
    have second : ∀ ch ∈ fraction, ch.toNat < 0x80 := by
      cases is_fraction with
      | none => exact List.forall_mem_nil _
      | digits digits is_digits =>
        exact List.forall_mem_cons.mpr ⟨by decide, fun c inside => digit_ascii c (is_digits.2 c inside)⟩
    have third : ∀ ch ∈ exponent, ch.toNat < 0x80 := by
      cases is_exponent with
      | none => exact List.forall_mem_nil _
      | digits e sign digits mark signed is_digits =>
        have e_ascii : e.toNat < 0x80 := by
          obtain rfl | rfl := mark <;> decide
        rw [List.cons_append, List.forall_mem_cons, List.forall_mem_append]
        exact ⟨e_ascii, sign_ascii sign signed, fun c inside => digit_ascii c (is_digits.2 c inside)⟩
    have front : ∀ ch ∈ sign, ch.toNat < 0x80 := sign_ascii sign (signed.imp_right .inr)
    simp only [List.forall_mem_append]
    exact ⟨⟨⟨front, first⟩, second⟩, third⟩

theorem StringText.run {parts : List Part} (reads : StringText text parts rest)
    (run : Utf8.run state text = some .first) :
    UnitsSmall parts ∧ Utf8.run state (parts.map Part.mark) = some .first ∧
      Utf8.run .first rest = some .first := by
  induction reads generalizing state with
  | close rest =>
    obtain ⟨rfl, behind⟩ := run_ascii_cons (by decide) run
    exact ⟨fun n inside => (List.not_mem_nil inside).elim, rfl, behind⟩
  | plain ch text parts rest printed no_quote no_escape reads ih =>
    rw [Utf8.run_cons] at run
    cases next : Utf8.step state ch with
    | none =>
      rw [next] at run
      cases run
    | some after =>
      rw [next, Option.bind_some] at run
      obtain ⟨small, marks, behind⟩ := ih run
      refine ⟨fun n inside => ?_, ?_, behind⟩
      · obtain same | inside := List.mem_cons.mp inside
        · cases same
        · exact small n inside
      · rw [List.map_cons, Utf8.run_cons, Part.mark, next]
        exact marks
  | escape e ch text parts rest known reads ih =>
    have ascii : ∀ pair ∈ escapes, pair.1.toNat < 0x80 ∧ pair.2.toNat < 0x80 := by
      simp [escapes, byteOf]
    obtain ⟨rfl, behind⟩ := run_ascii_cons (by decide) run
    obtain ⟨-, behind⟩ := run_ascii_cons (ascii _ known).1 behind
    obtain ⟨small, marks, behind⟩ := ih behind
    refine ⟨fun n inside => ?_, ?_, behind⟩
    · obtain same | inside := List.mem_cons.mp inside
      · cases same
      · exact small n inside
    · rw [List.map_cons, Utf8.run_cons, Part.mark, Utf8.step_ascii (ascii _ known).2, if_pos rfl]
      exact marks
  | unit a b c d text parts rest hex reads ih =>
    have ascii : ∀ ch, isHexDigit ch = true → ch.toNat < 0x80 := by decide
    obtain ⟨rfl, behind⟩ := run_ascii_cons (by decide) run
    obtain ⟨-, behind⟩ := run_ascii_cons (by decide) behind
    have behind := @run_ascii text [a, b, c, d] (fun ch inside => ascii ch (hex ch inside)) behind
    obtain ⟨small, marks, behind⟩ := ih behind
    refine ⟨fun n inside => ?_, ?_, behind⟩
    · obtain same | inside := List.mem_cons.mp inside
      · cases same
        exact hexUnit_lt a b c d
      · exact small n inside
    · rw [run_mark, if_pos rfl]
      exact marks

mutual

theorem ValueText.run {text rest : Text} {tree : Tree} : ValueText text tree rest →
    Utf8.run .first text = some .first → tree.Raw ∧ Utf8.run .first rest = some .first
  | .null rest, run => ⟨trivial, run_ascii (by decide) run⟩
  | .isTrue rest, run => ⟨trivial, run_ascii (by decide) run⟩
  | .isFalse rest, run => ⟨trivial, run_ascii (by decide) run⟩
  | .number text rest number, run => ⟨trivial, run_ascii number.ascii run⟩
  | .string text parts rest reads, run => by
    obtain ⟨small, marks, behind⟩ := reads.run (run_ascii_cons (by decide) run).2
    exact ⟨⟨small, marks⟩, behind⟩
  | .emptyArray text rest spaces, run =>
    ⟨trivial, spaces.run_mark (by decide) (run_ascii_cons (by decide) run).2⟩
  | .array text items rest reads, run => reads.run (run_ascii_cons (by decide) run).2
  | .emptyObject text rest spaces, run =>
    ⟨trivial, spaces.run_mark (by decide) (run_ascii_cons (by decide) run).2⟩
  | .object text members rest reads, run => reads.run (run_ascii_cons (by decide) run).2

theorem ItemsText.run {text rest : Text} {items : List Tree} : ItemsText text items rest →
    Utf8.run .first text = some .first → itemsRaw items ∧ Utf8.run .first rest = some .first
  | .last text item_text behind item rest before reads after, run => by
    obtain ⟨raw, run⟩ := reads.run (before.run run)
    exact ⟨⟨raw, trivial⟩, after.run_mark (by decide) run⟩
  | .cons text item_text behind more item items rest before reads after items_read, run => by
    obtain ⟨raw, run⟩ := reads.run (before.run run)
    obtain ⟨raws, run⟩ := items_read.run (after.run_mark (by decide) run)
    exact ⟨⟨raw, raws⟩, run⟩

theorem MembersText.run {text rest : Text} {members : List (List Part × Tree)} :
    MembersText text members rest → Utf8.run .first text = some .first →
      membersRaw members ∧ Utf8.run .first rest = some .first
  | .last text name_text before between value_text behind name value rest open_ name_reads colon gap
      reads after, run => by
    obtain ⟨small, marks, run⟩ := name_reads.run (open_.run_mark (by decide) run)
    obtain ⟨raw, run⟩ := reads.run (gap.run (colon.run_mark (by decide) run))
    exact ⟨⟨⟨small, marks⟩, raw, trivial⟩, after.run_mark (by decide) run⟩
  | .cons text name_text before between value_text behind more name value members rest open_
      name_reads colon gap reads after members_read, run => by
    obtain ⟨small, marks, run⟩ := name_reads.run (open_.run_mark (by decide) run)
    obtain ⟨raw, run⟩ := reads.run (gap.run (colon.run_mark (by decide) run))
    obtain ⟨raws, run⟩ := members_read.run (after.run_mark (by decide) run)
    exact ⟨⟨⟨small, marks⟩, raw, raws⟩, run⟩

end

theorem JsonText.raw {tree : Tree} (json : JsonText text tree) (utf8 : Utf8.WellFormed text) :
    tree.Raw := by
  obtain ⟨start, rest, before, reads, after⟩ := json
  exact (reads.run (before.run utf8)).1

end Written

section Replaced

variable {F : Type} {strtod : Text → F} {key : Text} {fields others : AssocList Text (Value F)}

/-- Two lists that differ at most in the value of the first entry with the key. -/
inductive DifferAt (key : Text) : AssocList Text (Value F) → AssocList Text (Value F) → Prop
  | here (v w : Value F) (rest : AssocList Text (Value F)) :
      DifferAt key ((key, v) :: rest) ((key, w) :: rest)
  | there (other : Text) (v : Value F) (fields others : AssocList Text (Value F)) : other ≠ key →
      DifferAt key fields others → DifferAt key ((other, v) :: fields) ((other, v) :: others)

theorem differAt_insert (key : Text) (v w : Value F) (fields : AssocList Text (Value F)) :
    DifferAt key (fields.insert key v) (fields.insert key w) := by
  induction fields with
  | nil => exact .here v w []
  | cons entry fields ih =>
    obtain ⟨other, value⟩ := entry
    simp only [AssocList.insert, AssocList.upsert, beq_iff_eq] at ih ⊢
    by_cases same : other = key
    · rw [if_pos same, if_pos same, same]
      exact .here v w fields
    · rw [if_neg same, if_neg same]
      exact .there other value _ _ same ih

theorem DifferAt.insert_same (differ : DifferAt key fields others) (value : Value F) :
    fields.insert key value = others.insert key value := by
  induction differ with
  | here v w rest => simp only [AssocList.insert, AssocList.upsert, beq_self_eq_true, if_true]
  | there other v fields others apart differ ih =>
    simp only [AssocList.insert, AssocList.upsert, beq_iff_eq, if_neg apart] at ih ⊢
    rw [ih]

theorem DifferAt.insert_other {other : Text} (differ : DifferAt key fields others) (apart : other ≠ key)
    (value : Value F) : DifferAt key (fields.insert other value) (others.insert other value) := by
  induction differ with
  | here v w rest =>
    simp only [AssocList.insert, AssocList.upsert, beq_iff_eq, if_neg apart.symm]
    exact .here v w _
  | there name v fields others no_key differ ih =>
    simp only [AssocList.insert, AssocList.upsert, beq_iff_eq] at ih ⊢
    by_cases same : name = other
    · rw [if_pos same, if_pos same]
      exact .there name value _ _ no_key differ
    · rw [if_neg same, if_neg same]
      exact .there name v _ _ no_key ih

/-- The value of a member is of no use if a later one has its name. -/
theorem DifferAt.decodeMembers_eq {members : List (List Part × Tree)} (differ : DifferAt key fields others)
    (later : key ∈ namesOf members) :
    decodeMembers strtod fields members = decodeMembers strtod others members := by
  induction members generalizing fields others with
  | nil => exact (List.not_mem_nil later).elim
  | cons member members ih =>
    obtain ⟨name, value⟩ := member
    rw [decodeMembers, decodeMembers]
    by_cases same : decoded name = key
    · rw [same, differ.insert_same]
    · have later : key ∈ namesOf members := by
        obtain here | later := List.mem_cons.mp later
        · exact absurd here.symm same
        · exact later
      exact ih (differ.insert_other same _) later

end Replaced

section Read

variable {F : Type} (strtod : Text → F)

mutual

/-- If the surrogates are in order the value is the one that the text should give. -/
theorem read_eq_decode : ∀ tree : Tree, tree.Ordered → tree.read strtod = tree.decode strtod
  | .null, _ => rfl
  | .bool _, _ => rfl
  | .number _, _ => rfl
  | .string _, ordered => congrArg Value.string (replaceUnits_eq_decoded ordered)
  | .array items, ordered => congrArg Value.array (readItems_eq_decode items ordered)
  | .object members, ordered => congrArg Value.object (readMembers_eq_decode members [] ordered)

theorem readItems_eq_decode : ∀ items : List Tree, itemsOrdered items →
    readItems strtod items = decodeItems strtod items
  | [], _ => rfl
  | item :: items, ordered =>
    congrArg₂ List.cons (read_eq_decode item ordered.1) (readItems_eq_decode items ordered.2)

theorem readMembers_eq_decode : ∀ (members : List (List Part × Tree)) (fields : AssocList Text (Value F)),
    membersOrdered members → readMembers strtod fields members = decodeMembers strtod fields members
  | [], _, _ => rfl
  | (name, value) :: members, fields, ordered => by
    rw [readMembers, decodeMembers, readMembers_eq_decode members _ ordered.2.2,
      replaceUnits_eq_decoded ordered.1]
    obtain later | value_ordered := ordered.2.1
    · exact (differAt_insert _ _ _ fields).decodeMembers_eq later
    · rw [read_eq_decode value value_ordered]

end

theorem textsOfFields_insert {key text : Text} {value : Value F} {fields : AssocList Text (Value F)}
    (inside : text ∈ textsOfFields (fields.insert key value)) :
    text = key ∨ text ∈ value.texts ∨ text ∈ textsOfFields fields := by
  induction fields with
  | nil =>
    simp only [AssocList.insert, AssocList.upsert, textsOfFields, List.append_nil, List.mem_cons] at inside
    exact inside.imp_right .inl
  | cons entry fields ih =>
    obtain ⟨other, old⟩ := entry
    simp only [AssocList.insert, AssocList.upsert, beq_iff_eq] at inside ih
    by_cases same : other = key
    · simp only [if_pos same, textsOfFields, List.mem_cons, List.mem_append] at inside
      obtain rfl | inside | inside := inside
      · exact .inl same
      · exact .inr (.inl inside)
      · exact .inr (.inr (List.mem_cons_of_mem _ (List.mem_append_right _ inside)))
    · simp only [if_neg same, textsOfFields, List.mem_cons, List.mem_append] at inside ⊢
      obtain rfl | inside | inside := inside
      · exact .inr (.inr (.inl rfl))
      · exact .inr (.inr (.inr (.inl inside)))
      · obtain here | inside | inside := ih inside
        · exact .inl here
        · exact .inr (.inl inside)
        · exact .inr (.inr (.inr (.inr inside)))

theorem RawUtf8.decoded {parts : List Part} (raw : RawUtf8 parts) : Utf8.WellFormed (decoded parts) :=
  run_decoded raw.1 raw.2

mutual

theorem decode_utf8 : ∀ tree : Tree, tree.Raw → ∀ text ∈ (tree.decode strtod).texts, Utf8.WellFormed text
  | .null, _, _, inside => (List.not_mem_nil inside).elim
  | .bool _, _, _, inside => (List.not_mem_nil inside).elim
  | .number _, _, _, inside => (List.not_mem_nil inside).elim
  | .string _, raw, text, inside => by
    rw [List.mem_singleton.mp inside]
    exact RawUtf8.decoded raw
  | .array items, raw, text, inside => decodeItems_utf8 items raw text inside
  | .object members, raw, text, inside =>
    decodeMembers_utf8 members [] raw (fun _ inside => (List.not_mem_nil inside).elim) text inside

theorem decodeItems_utf8 : ∀ items : List Tree, itemsRaw items →
    ∀ text ∈ textsOfItems (decodeItems strtod items), Utf8.WellFormed text
  | [], _, _, inside => (List.not_mem_nil inside).elim
  | item :: items, raw, text, inside => by
    obtain here | there := List.mem_append.mp inside
    · exact decode_utf8 item raw.1 text here
    · exact decodeItems_utf8 items raw.2 text there

theorem decodeMembers_utf8 : ∀ (members : List (List Part × Tree)) (fields : AssocList Text (Value F)),
    membersRaw members → (∀ text ∈ textsOfFields fields, Utf8.WellFormed text) →
      ∀ text ∈ textsOfFields (decodeMembers strtod fields members), Utf8.WellFormed text
  | [], _, _, known, text, inside => known text inside
  | (name, value) :: members, fields, raw, known, text, inside => by
    apply decodeMembers_utf8 members _ raw.2.2 _ text inside
    intro written here
    obtain rfl | here | here := textsOfFields_insert here
    · exact raw.1.decoded
    · exact decode_utf8 value raw.2.1 written here
    · exact known written here

end

end Read

section Needed

variable {F : Type} {strtod : Text → F} {key : Text} {value : Value F}
  {fields : AssocList Text (Value F)} {members : List (List Part × Tree)}

theorem texts_of_mem (inside : (key, value) ∈ fields) :
    key ∈ textsOfFields fields ∧ ∀ text ∈ value.texts, text ∈ textsOfFields fields := by
  induction fields with
  | nil => exact (List.not_mem_nil inside).elim
  | cons entry fields ih =>
    obtain ⟨other, old⟩ := entry
    simp only [textsOfFields, List.mem_cons, List.mem_append]
    obtain same | inside := List.mem_cons.mp inside
    · obtain ⟨rfl, rfl⟩ := Prod.mk.inj same
      exact ⟨.inl rfl, fun text here => .inr (.inl here)⟩
    · exact ⟨.inr (.inr (ih inside).1), fun text here => .inr (.inr ((ih inside).2 text here))⟩

theorem mem_insert_self : (key, value) ∈ fields.insert key value := by
  induction fields with
  | nil => exact List.mem_singleton.mpr rfl
  | cons entry fields ih =>
    obtain ⟨other, old⟩ := entry
    simp only [AssocList.insert, AssocList.upsert, beq_iff_eq] at ih ⊢
    by_cases same : other = key
    · rw [if_pos same, same]
      exact List.mem_cons_self
    · rw [if_neg same]
      exact List.mem_cons_of_mem _ ih

/-- An entry stays, or it gets the new value. -/
theorem mem_insert_other (other : Text) (new_ : Value F) (inside : (key, value) ∈ fields) :
    (key, value) ∈ fields.insert other new_ ∨ key = other ∧ (key, new_) ∈ fields.insert other new_ := by
  induction fields with
  | nil => exact (List.not_mem_nil inside).elim
  | cons entry fields ih =>
    obtain ⟨name, old⟩ := entry
    simp only [AssocList.insert, AssocList.upsert, beq_iff_eq] at ih ⊢
    by_cases same : name = other
    · rw [if_pos same]
      obtain here | inside := List.mem_cons.mp inside
      · obtain ⟨rfl, rfl⟩ := Prod.mk.inj here
        exact .inr ⟨same, List.mem_cons_self⟩
      · exact .inl (List.mem_cons_of_mem _ inside)
    · rw [if_neg same]
      obtain here | inside := List.mem_cons.mp inside
      · rw [here]
        exact .inl List.mem_cons_self
      · exact (ih inside).imp (List.mem_cons_of_mem _) fun there =>
          ⟨there.1, List.mem_cons_of_mem _ there.2⟩

/-- A name that came in stays, and its value does if no later member has the name. -/
theorem mem_readMembers (inside : (key, value) ∈ fields) :
    (∃ last, (key, last) ∈ readMembers strtod fields members) ∧
      (key ∉ (members.map fun member => replaceUnits member.1) →
        (key, value) ∈ readMembers strtod fields members) := by
  induction members generalizing fields value with
  | nil => exact ⟨⟨value, inside⟩, fun _ => inside⟩
  | cons member members ih =>
    obtain ⟨name, tree⟩ := member
    rw [readMembers]
    obtain stays | ⟨same, replaced⟩ := mem_insert_other (replaceUnits name) (tree.read strtod) inside
    · refine ⟨(ih stays).1, fun apart => (ih stays).2 fun later => apart ?_⟩
      exact List.mem_cons_of_mem _ later
    · refine ⟨(ih replaced).1, fun apart => absurd ?_ apart⟩
      rw [same]
      exact List.mem_cons_self

theorem namesOf_eq (ordered : membersOrdered members) :
    (members.map fun member => replaceUnits member.1) = namesOf members := by
  induction members with
  | nil => rfl
  | cons member members ih =>
    rw [List.map_cons, replaceUnits_eq_decoded ordered.1, ih ordered.2.2]
    rfl

mutual

theorem ordered_of_utf8 : ∀ tree : Tree, tree.Raw →
    (∀ text ∈ (tree.read strtod).texts, Utf8.WellFormed text) → tree.Ordered
  | .null, _, _ => trivial
  | .bool _, _, _ => trivial
  | .number _, _, _ => trivial
  | .string _, raw, utf8 => (run_replaceUnits_iff raw.1 raw.2).mp (utf8 _ List.mem_cons_self)
  | .array items, raw, utf8 => itemsOrdered_of_utf8 items raw utf8
  | .object members, raw, utf8 => membersOrdered_of_utf8 members [] raw utf8

theorem itemsOrdered_of_utf8 : ∀ items : List Tree, itemsRaw items →
    (∀ text ∈ textsOfItems (readItems strtod items), Utf8.WellFormed text) → itemsOrdered items
  | [], _, _ => trivial
  | item :: items, raw, utf8 =>
    ⟨ordered_of_utf8 item raw.1 fun text here => utf8 text (List.mem_append_left _ here),
      itemsOrdered_of_utf8 items raw.2 fun text there => utf8 text (List.mem_append_right _ there)⟩

theorem membersOrdered_of_utf8 : ∀ (members : List (List Part × Tree)) (fields : AssocList Text (Value F)),
    membersRaw members →
      (∀ text ∈ textsOfFields (readMembers strtod fields members), Utf8.WellFormed text) →
        membersOrdered members
  | [], _, _, _ => trivial
  | (name, value) :: members, fields, raw, utf8 => by
    rw [readMembers] at utf8
    have entry : (replaceUnits name, value.read strtod) ∈ fields.insert (replaceUnits name)
        (value.read strtod) := mem_insert_self
    have stays := @mem_readMembers F strtod _ _ _ members entry
    have behind := membersOrdered_of_utf8 members _ raw.2.2 utf8
    have name_ordered : SurrogatesOrdered name := by
      obtain ⟨last, inside⟩ := stays.1
      exact (run_replaceUnits_iff raw.1.1 raw.1.2).mp (utf8 _ (texts_of_mem inside).1)
    refine ⟨name_ordered, ?_, behind⟩
    by_cases later : decoded name ∈ namesOf members
    · exact .inl later
    · right
      rw [namesOf_eq behind, replaceUnits_eq_decoded name_ordered] at stays
      rw [replaceUnits_eq_decoded name_ordered] at utf8
      apply ordered_of_utf8 value raw.2.1
      intro text here
      exact utf8 text ((texts_of_mem (stays.2 later)).2 text here)

end

end Needed

/-- The parser gives the value that the text should give, and all of its strings are UTF-8. -/
structure StringsRight {F : Type} (strtod : Text → F) (text : Text) (tree : Tree) : Prop where
  parses : parse strtod text = some (.ok (tree.decode strtod))
  utf8 : ∀ written ∈ (tree.decode strtod).texts, Utf8.WellFormed written

section Right

variable {F : Type}

/-- The strings of a text are right if and only if the surrogates of those that stay are in order. -/
theorem stringsRight_iff_ordered (strtod : Text → F) (text : Text) (tree : Tree) (_ : FitsInt text)
    (json : JsonText text tree) (height : tree.height ≤ maxDepth) (utf8 : Utf8.WellFormed text) :
    StringsRight strtod text tree ↔ tree.Ordered := by
  have raw := json.raw utf8
  have parsed : parse strtod text = some (.ok (tree.read strtod)) := parse_of_jsonText json height
  constructor
  · intro right
    have same := Except.ok.inj (Option.some.inj (parsed.symm.trans right.parses))
    have written := right.utf8
    rw [← same] at written
    exact ordered_of_utf8 tree raw written
  · intro ordered
    rw [read_eq_decode strtod tree ordered] at parsed
    exact ⟨parsed, decode_utf8 strtod tree raw⟩

/-- A high surrogate in front of an escape that isn't one, and a pair. -/
def orderedText : Text := asciiBytes "\"\\uD800\\u0041\\uD83D\\uDE00\""

def orderedParts : List Part := [.unit 0xD800, .unit 0x41, .unit 0xD83D, .unit 0xDE00]

theorem orderedText_json : JsonText orderedText (.string orderedParts) := by
  have reads : StringText (orderedText.drop 1) orderedParts [] := by
    apply StringText.unit (byteOf 'D') (byteOf '8') (byteOf '0') (byteOf '0') _ _ _ (by decide)
    apply StringText.unit (byteOf '0') (byteOf '0') (byteOf '4') (byteOf '1') _ _ _ (by decide)
    apply StringText.unit (byteOf 'D') (byteOf '8') (byteOf '3') (byteOf 'D') _ _ _ (by decide)
    apply StringText.unit (byteOf 'D') (byteOf 'E') (byteOf '0') (byteOf '0') _ _ _ (by decide)
    exact .close []
  exact ⟨orderedText, [], .nil _, .string _ orderedParts [] reads, .nil _⟩

theorem stringsRight_orderedText :
    StringsRight (fun _ => (0 : BitVec 64)) orderedText (.string orderedParts) := by
  apply (stringsRight_iff_ordered _ _ _ (by decide) orderedText_json (by decide) (by decide)).mpr
  simp [orderedParts, Tree.Ordered, SurrogatesOrdered, IsHigh]

/-- A high surrogate that is alone is written as its own three bytes. -/
theorem splitPair_not_stringsRight :
    JsonText splitPair (.string splitParts) ∧ Utf8.WellFormed splitPair ∧
      ¬StringsRight (fun _ => (0 : BitVec 64)) splitPair (.string splitParts) := by
  refine ⟨splitPair_json, by decide, fun right => ?_⟩
  have parsed : parse (fun _ => (0 : BitVec 64)) splitPair = _ :=
    parse_of_jsonText splitPair_json (by decide)
  have same := Except.ok.inj (Option.some.inj (parsed.symm.trans right.parses))
  have written := right.utf8 (replaceUnits splitParts) (by rw [← same]; exact List.mem_cons_self)
  revert written
  decide

end Right

end Saad.Json
