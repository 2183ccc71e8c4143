import Mathlib.Data.List.Forall2
import Saad.Json.ParseComplete
import Saad.Json.Surrogates

/-! # What the parser returns is what the text means

A text is accepted if and only if it is JSON and not nested too deep. Its value is the right one if the
parser keeps the surrogate pairs of all strings. Where no name of an object is repeated every string is
in the value, so that this is needed as well.
-/

namespace Saad.Json

open General

mutual

def Tree.PairsKept : Tree → Prop
  | .string parts => Json.PairsKept 0 parts
  | .array items => itemsKept items
  | .object members => membersKept members
  | _ => True

def itemsKept : List Tree → Prop
  | [] => True
  | item :: items => item.PairsKept ∧ itemsKept items

def membersKept : List (List Part × Tree) → Prop
  | [] => True
  | (name, value) :: members => Json.PairsKept 0 name ∧ value.PairsKept ∧ membersKept members

end

mutual

/-- No object has two members whose names are read as the same text. -/
def Tree.NamesDiffer : Tree → Prop
  | .array items => itemsDiffer items
  | .object members =>
    (members.map fun member => replaceUnits member.1).Nodup ∧ membersDiffer members
  | _ => True

def itemsDiffer : List Tree → Prop
  | [] => True
  | item :: items => item.NamesDiffer ∧ itemsDiffer items

def membersDiffer : List (List Part × Tree) → Prop
  | [] => True
  | (_, value) :: members => value.NamesDiffer ∧ membersDiffer members

end

section Kept

variable {F : Type} (strtod : Text → F)

mutual

theorem means_read : ∀ tree : Tree, tree.PairsKept → Means strtod tree (tree.read strtod)
  | .null, _ => .null
  | .bool b, _ => .bool b
  | .number text, _ => .number text
  | .string parts, kept => .string parts _ (replaced_replaceUnits_iff.mpr kept)
  | .array items, kept => .array items _ (meanItems_read items kept)
  | .object members, kept => .object members _ (meanMembers_read members [] kept)

theorem meanItems_read : ∀ items : List Tree, itemsKept items →
    MeanItems strtod items (readItems strtod items)
  | [], _ => .nil
  | item :: items, kept => .cons item _ items _ (means_read item kept.1) (meanItems_read items kept.2)

theorem meanMembers_read : ∀ (members : List (List Part × Tree)) (fields : AssocList Text (Value F)),
    membersKept members → MeanMembers strtod fields members (readMembers strtod fields members)
  | [], fields, _ => .nil fields
  | (name, value) :: members, fields, kept =>
    .cons fields name _ value _ members _ (replaced_replaceUnits_iff.mpr kept.1)
      (means_read value kept.2.1) (meanMembers_read members _ kept.2.2)

end

end Kept

section Whole

variable {F : Type} {strtod : Text → F} {text : Text} {tree : Tree} {value : Value F}

theorem parse_of_jsonText (json : JsonText text tree) (height : tree.height ≤ maxDepth) :
    parse strtod text = some (.ok (tree.read strtod)) := by
  obtain ⟨start, rest, before, reads, after⟩ := json
  have shorter := before.length_le
  have ends := numberEnds_nil.of_spaces after
  have parsed := (parse_complete strtod (2 * text.length + 1)).1 0 start tree rest reads ends
    (by omega) (by omega)
  have whole : skipSpace rest = [] := after.skipSpace_eq
  rw [parse, reads.skipSpace_eq before, parsed]
  simp only [bind, Except.bind, whole, ne_eq, not_true_eq_false, if_false]
  rfl

/-- The bound is large enough, and what is accepted is JSON. -/
theorem parse_cases (strtod : Text → F) (text : Text) :
    (∃ tree, JsonText text tree ∧ tree.height ≤ maxDepth) ∨
      ∃ error, parse strtod text = some (.error error) := by
  have shorter := length_skipSpace_le text
  have bounded := (parse_bounded strtod (2 * text.length + 1)).1 0 (skipSpace text) (by omega)
  cases first : parseValue strtod (2 * text.length + 1) 0 (skipSpace text) with
  | error failure =>
    cases failure with
    | bound => exact absurd first bounded
    | message message rest =>
      right
      rw [parse, first]
      exact ⟨_, rfl⟩
  | ok read =>
    obtain ⟨value, rest⟩ := read
    obtain ⟨tree, reads, -, depths⟩ := (parse_sound strtod _).1 _ _ _ _ first
    by_cases ends : skipSpace rest = []
    · left
      have after := spaces_skipSpace rest
      rw [ends] at after
      exact ⟨tree, ⟨_, rest, spaces_skipSpace text, reads, after⟩, by omega⟩
    · right
      rw [parse, first]
      simp only [bind, Except.bind, ends, ne_eq, not_false_eq_true, if_true]
      exact ⟨_, rfl⟩

end Whole

section Needed

variable {F : Type} {strtod : Text → F}

/-- Names that differ are read as the keys of the object, in order. -/
theorem readMembers_eq {members : List (List Part × Tree)} {fields : AssocList Text (Value F)}
    (differ : (fields.keys ++ members.map fun member => replaceUnits member.1).Nodup) :
    readMembers strtod fields members =
      fields ++ members.map fun member => (replaceUnits member.1, member.2.read strtod) := by
  induction members generalizing fields with
  | nil => rw [readMembers, List.map_nil, List.append_nil]
  | cons member members ih =>
    obtain ⟨name, tree⟩ := member
    have absent : replaceUnits name ∉ fields.keys := by
      intro present
      rw [List.nodup_append] at differ
      exact differ.2.2 _ present _ List.mem_cons_self rfl
    rw [readMembers, AssocList.insert_of_notMem _ absent, ih, List.append_assoc]
    · rfl
    · rw [AssocList.keys, List.map_append, List.append_assoc]
      exact differ

/-- If nothing is repeated, each member is one of the object. -/
theorem MeanMembers.each {members : List (List Part × Tree)} {fields last : AssocList Text (Value F)}
    (means : MeanMembers strtod fields members last) :
    last.length ≤ fields.length + members.length ∧
      (last.length = fields.length + members.length → ∃ tail, last = fields ++ tail ∧
        List.Forall₂ (fun member entry => Replaced member.1 entry.1 ∧ Means strtod member.2 entry.2)
          members tail) := by
  induction members generalizing fields with
  | nil =>
    cases means with
    | nil => exact ⟨Nat.le_refl _, fun _ => ⟨[], (List.append_nil _).symm, .nil⟩⟩
  | cons member members ih =>
    cases means with
    | cons _ name key tree value _ _ replaced member_means means =>
      obtain ⟨le, each⟩ := ih means
      obtain same | new_ := AssocList.insert_cases key value fields
      · rw [List.length_cons]
        exact ⟨by omega, fun full => by omega⟩
      · rw [new_, List.length_append, List.length_singleton] at le each
        rw [List.length_cons]
        refine ⟨by omega, fun full => ?_⟩
        obtain ⟨tail, rfl, pairs⟩ := each (by omega)
        exact ⟨(key, value) :: tail, by rw [List.append_assoc]; rfl,
          .cons ⟨replaced, member_means⟩ pairs⟩

mutual

theorem pairsKept_of_means : ∀ tree : Tree, tree.NamesDiffer → Means strtod tree (tree.read strtod) →
    tree.PairsKept
  | .null, _, _ => trivial
  | .bool _, _, _ => trivial
  | .number _, _, _ => trivial
  | .string parts, _, means => by
    cases means with
    | string _ _ replaced => exact replaced_replaceUnits_iff.mp replaced
  | .array items, differ, means => by
    cases means with
    | array _ _ means => exact itemsKept_of_means items differ means
  | .object members, differ, means => by
    cases means with
    | object _ _ means =>
      have fields_eq : readMembers strtod [] members = _ := readMembers_eq differ.1
      rw [fields_eq, List.nil_append] at means
      obtain ⟨tail, same, pairs⟩ := means.each.2 (by simp)
      rw [List.nil_append] at same
      rw [← same, List.forall₂_map_right_iff, List.forall₂_same] at pairs
      exact membersKept_of_means members differ.2 pairs

theorem itemsKept_of_means : ∀ items : List Tree, itemsDiffer items →
    MeanItems strtod items (readItems strtod items) → itemsKept items
  | [], _, _ => trivial
  | item :: items, differ, means => by
    cases means with
    | cons _ _ _ _ first rest =>
      exact ⟨pairsKept_of_means item differ.1 first, itemsKept_of_means items differ.2 rest⟩

theorem membersKept_of_means : ∀ members : List (List Part × Tree), membersDiffer members →
    (∀ member ∈ members, Replaced member.1 (replaceUnits member.1) ∧
      Means strtod member.2 (member.2.read strtod)) → membersKept members
  | [], _, _ => trivial
  | (_, tree) :: members, differ, each =>
    ⟨replaced_replaceUnits_iff.mp (each _ List.mem_cons_self).1,
      pairsKept_of_means tree differ.1 (each _ List.mem_cons_self).2,
      membersKept_of_means members differ.2 fun member inside =>
        each member (List.mem_cons_of_mem _ inside)⟩

end

end Needed

/-- The text is taken if and only if it is JSON that is not nested too deep, and then the value is what
it means. -/
structure ParsesRight {F : Type} (strtod : Text → F) (text : Text) : Prop where
  terminates : parse strtod text ≠ none
  accepts : (∃ value, parse strtod text = some (.ok value)) ↔
    ∃ tree, JsonText text tree ∧ tree.height ≤ maxDepth
  means : ∀ value, parse strtod text = some (.ok value) → ∀ tree, JsonText text tree →
    tree.height ≤ maxDepth → Means strtod tree value

section Right

variable {F : Type}

/-- Whatever the strings are, exactly the JSON texts are taken. -/
theorem parse_accepts (strtod : Text → F) (text : Text) :
    parse strtod text ≠ none ∧ ((∃ value, parse strtod text = some (.ok value)) ↔
      ∃ tree, JsonText text tree ∧ tree.height ≤ maxDepth) := by
  obtain ⟨tree, json, height⟩ | ⟨error, refused⟩ := parse_cases strtod text
  · have parsed : parse strtod text = some (.ok (tree.read strtod)) := parse_of_jsonText json height
    refine ⟨?_, fun _ => ⟨tree, json, height⟩, fun _ => ⟨_, parsed⟩⟩
    rw [parsed]
    nofun
  · constructor
    · rw [refused]
      nofun
    · constructor
      · rintro ⟨value, parsed⟩
        cases refused.symm.trans parsed
      · rintro ⟨tree, json, height⟩
        cases refused.symm.trans (parse_of_jsonText json height)

/-- A high surrogate that is alone in front of a pair. -/
def splitPair : Text := asciiBytes "\"\\uD800\\uD83D\\uDE00\""

def splitParts : List Part := [.unit 0xD800, .unit 0xD83D, .unit 0xDE00]

theorem splitPair_json : JsonText splitPair (.string splitParts) := by
  have reads : StringText (splitPair.drop 1) splitParts [] := by
    apply StringText.unit (byteOf 'D') (byteOf '8') (byteOf '0') (byteOf '0') _ _ _ (by decide)
    apply StringText.unit (byteOf 'D') (byteOf '8') (byteOf '3') (byteOf 'D') _ _ _ (by decide)
    apply StringText.unit (byteOf 'D') (byteOf 'E') (byteOf '0') (byteOf '0') _ _ _ (by decide)
    exact .close []
  exact ⟨splitPair, [], .nil _, .string _ splitParts [] reads, .nil _⟩

end Right

end Saad.Json
