import Saad.Json.ParseNumbers
import Saad.Json.ParseStrings

/-! # The parser accepts JSON texts only

What a parse returns is what the tree of the text is read as, with the escapes as the parser replaces
them.
-/

namespace Saad.Json

open General

section Leaves

variable {F : Type} {strtod : Text → F} {rest behind text : Text} {tree : Tree} {value : Value F}

mutual

/-- The value that the parser makes of a tree. -/
def Tree.read (strtod : Text → F) : Tree → Value F
  | .null => .null
  | .bool b => .bool b
  | .number text => .number (strtod text) text
  | .string parts => .string (replaceUnits parts)
  | .array items => .array (readItems strtod items)
  | .object members => .object (readMembers strtod [] members)

def readItems (strtod : Text → F) : List Tree → List (Value F)
  | [] => []
  | item :: items => item.read strtod :: readItems strtod items

def readMembers (strtod : Text → F) (fields : AssocList Text (Value F)) :
    List (List Part × Tree) → AssocList Text (Value F)
  | [] => fields
  | (name, member) :: members =>
    readMembers strtod (fields.insert (replaceUnits name) (member.read strtod)) members

end

theorem ItemsText.behind_spaces {items : List Tree} (reads : ItemsText text items behind)
    (spaces : Spaces rest text) : ItemsText rest items behind := by
  cases reads with
  | last _ item_text after item _ more item_reads ends =>
    exact .last rest item_text after item behind (spaces.trans more) item_reads ends
  | cons _ item_text after tail item items _ more item_reads comma items_read =>
    exact .cons rest item_text after tail item items behind (spaces.trans more) item_reads comma
      items_read

theorem MembersText.behind_spaces {members : List (List Part × Tree)}
    (reads : MembersText text members behind) (spaces : Spaces rest text) :
    MembersText rest members behind := by
  cases reads with
  | last _ name_text before between value_text after name value _ more name_reads colon gap
      value_reads ends =>
    exact .last rest name_text before between value_text after name value behind
      (spaces.trans more) name_reads colon gap value_reads ends
  | cons _ name_text before between value_text after tail name value members _ more name_reads
      colon gap value_reads comma members_read =>
    exact .cons rest name_text before between value_text after tail name value members behind
      (spaces.trans more) name_reads colon gap value_reads comma members_read

theorem parseNumber_ok (parses : parseNumber strtod rest = .ok (value, behind)) :
    ∃ text, Number text ∧ rest = text ++ behind ∧ value = .number (strtod text) text := by
  rw [parseNumber] at parses
  obtain ⟨more, skips, taken⟩ := bind_eq_ok_iff.mp parses
  obtain ⟨text, number, rfl⟩ := skipNumber_ok skips
  obtain ⟨rfl, rfl⟩ := Prod.mk.inj (Except.ok.inj taken)
  refine ⟨text, number, rfl, ?_⟩
  rw [List.length_append, Nat.add_sub_cancel, List.take_left]

theorem parseNumber_of_number (number : Number text) (ends : NumberEnds rest) :
    parseNumber strtod (text ++ rest) = .ok (.number (strtod text) text, rest) := by
  rw [parseNumber, skipNumber_of_number number ends]
  simp only [bind, Except.bind, pure, Except.pure, List.length_append, Nat.add_sub_cancel,
    List.take_left]

theorem parseWord_ok (parses : parseWord (F := F) rest = .ok (value, behind)) :
    ∃ tree, ValueText rest tree behind ∧ value = tree.read strtod ∧ tree.height = 0 := by
  rw [parseWord] at parses
  split at parses
  · next more eaten =>
    obtain ⟨rfl, rfl⟩ := Prod.mk.inj (Except.ok.inj parses)
    rw [eatWord_eq_some eaten]
    exact ⟨.bool true, .isTrue more, rfl, rfl⟩
  · next more eaten _ =>
    obtain ⟨rfl, rfl⟩ := Prod.mk.inj (Except.ok.inj parses)
    rw [eatWord_eq_some eaten]
    exact ⟨.bool false, .isFalse more, rfl, rfl⟩
  · next more eaten _ _ =>
    obtain ⟨rfl, rfl⟩ := Prod.mk.inj (Except.ok.inj parses)
    rw [eatWord_eq_some eaten]
    exact ⟨.null, .null more, rfl, rfl⟩
  · split at parses <;> cases parses

end Leaves

section Sound

variable {F : Type} {strtod : Text → F} {bound depth : ℕ} {rest behind : Text} {value : Value F}

def ValueSound (strtod : Text → F) (bound : ℕ) : Prop :=
  ∀ depth rest value behind, parseValue strtod bound depth rest = .ok (value, behind) →
    ∃ tree, ValueText rest tree behind ∧ value = tree.read strtod ∧ depth + tree.height ≤ maxDepth

def ItemsSound (strtod : Text → F) (bound : ℕ) : Prop :=
  ∀ depth items rest value behind, parseItems strtod bound depth items rest = .ok (value, behind) →
    ∃ trees, ItemsText rest trees behind ∧ value = .array (items ++ readItems strtod trees) ∧
      depth + highestItem trees ≤ maxDepth

def MembersSound (strtod : Text → F) (bound : ℕ) : Prop :=
  ∀ depth fields rest value behind,
    parseMembers strtod bound depth fields rest = .ok (value, behind) →
      ∃ members, MembersText rest members behind ∧
        value = .object (readMembers strtod fields members) ∧
        depth + highestMember members ≤ maxDepth

theorem valueSound_succ (items : ItemsSound strtod bound) (members : MembersSound strtod bound) :
    ValueSound strtod (bound + 1) := by
  intro depth rest value behind parses
  rw [parseValue] at parses
  split at parses
  · cases parses
  next shallow =>
  have within : depth ≤ maxDepth := Nat.le_of_not_lt shallow
  split at parses
  · next brace =>
    obtain ⟨more, rfl⟩ := (peek_eq_iff (by decide)).mp brace
    rw [List.drop_one, List.tail_cons, parseObject] at parses
    have spaces := spaces_skipSpace more
    split at parses
    · next closed =>
      obtain ⟨last, same⟩ := (peek_eq_iff (by decide)).mp closed
      rw [same] at spaces parses
      obtain ⟨rfl, rfl⟩ := Prod.mk.inj (Except.ok.inj parses)
      exact ⟨.object [], .emptyObject more last spaces, rfl, within⟩
    · obtain ⟨trees, reads, rfl, depths⟩ := members _ _ _ _ _ parses
      exact ⟨.object trees, .object more trees behind (reads.behind_spaces spaces), rfl, depths⟩
  split at parses
  · next bracket =>
    obtain ⟨more, rfl⟩ := (peek_eq_iff (by decide)).mp bracket
    rw [List.drop_one, List.tail_cons, parseArray] at parses
    have spaces := spaces_skipSpace more
    split at parses
    · next closed =>
      obtain ⟨last, same⟩ := (peek_eq_iff (by decide)).mp closed
      rw [same] at spaces parses
      obtain ⟨rfl, rfl⟩ := Prod.mk.inj (Except.ok.inj parses)
      exact ⟨.array [], .emptyArray more last spaces, rfl, within⟩
    · obtain ⟨trees, reads, rfl, depths⟩ := items _ _ _ _ _ parses
      exact ⟨.array trees, .array more trees behind (reads.behind_spaces spaces), rfl, depths⟩
  split at parses
  · next quote =>
    obtain ⟨more, rfl⟩ := (peek_eq_iff (by decide)).mp quote
    rw [List.drop_one, List.tail_cons] at parses
    obtain ⟨⟨text, last⟩, read, taken⟩ := bind_eq_ok_iff.mp parses
    obtain ⟨rfl, rfl⟩ := Prod.mk.inj (Except.ok.inj taken)
    obtain ⟨parts, reads, rfl⟩ := parseString_ok read
    exact ⟨.string parts, .string more parts last reads, rfl, within⟩
  split at parses
  · obtain ⟨text, number, rfl, rfl⟩ := parseNumber_ok parses
    exact ⟨.number text, .number text behind number, rfl, within⟩
  · obtain ⟨tree, reads, same, flat⟩ := parseWord_ok parses
    exact ⟨tree, reads, same, by rw [flat]; exact within⟩

theorem itemsSound_succ (value : ValueSound strtod bound) (more : ItemsSound strtod bound) :
    ItemsSound strtod (bound + 1) := by
  intro depth items rest whole behind parses
  rw [parseItems] at parses
  obtain ⟨⟨element, after⟩, first, later⟩ := bind_eq_ok_iff.mp parses
  obtain ⟨tree, reads, rfl, depths⟩ := value _ _ _ _ first
  have before := spaces_skipSpace rest
  have spaces := spaces_skipSpace after
  dsimp only at later
  split at later
  · next comma =>
    obtain ⟨tail, same⟩ := (peek_eq_iff (by decide)).mp comma
    rw [same] at spaces later
    obtain ⟨trees, items_read, rfl, more_depths⟩ := more _ _ _ _ _ later
    refine ⟨tree :: trees, .cons rest _ after tail tree trees behind before reads spaces items_read,
      ?_, ?_⟩
    · rw [readItems, List.append_assoc, List.singleton_append]
    · rw [highestItem]
      omega
  · split at later
    · next closed =>
      obtain ⟨tail, same⟩ := (peek_eq_iff (by decide)).mp closed
      rw [same] at spaces later
      obtain ⟨rfl, rfl⟩ := Prod.mk.inj (Except.ok.inj later)
      refine ⟨[tree], .last rest _ after tree tail before reads spaces, rfl, ?_⟩
      simp only [highestItem]
      omega
    · cases later

theorem membersSound_succ (value : ValueSound strtod bound) (more : MembersSound strtod bound) :
    MembersSound strtod (bound + 1) := by
  intro depth fields rest whole behind parses
  have before := spaces_skipSpace rest
  rw [parseMembers] at parses
  dsimp only at parses
  split at parses
  · cases parses
  next quote =>
  obtain ⟨name_text, same⟩ := (peek_eq_iff (by decide)).mp (not_not.mp quote)
  rw [same] at before parses
  rw [List.drop_one, List.tail_cons] at parses
  obtain ⟨⟨key, behind_name⟩, read, behind_key⟩ := bind_eq_ok_iff.mp parses
  obtain ⟨name, name_reads, rfl⟩ := parseString_ok read
  have to_colon := spaces_skipSpace behind_name
  dsimp only at behind_key
  split at behind_key
  · cases behind_key
  next colon =>
  obtain ⟨between, same⟩ := (peek_eq_iff (by decide)).mp (not_not.mp colon)
  rw [same] at to_colon behind_key
  rw [List.drop_one, List.tail_cons] at behind_key
  obtain ⟨⟨member, after⟩, first, later⟩ := bind_eq_ok_iff.mp behind_key
  obtain ⟨tree, reads, rfl, depths⟩ := value _ _ _ _ first
  have gap := spaces_skipSpace between
  have spaces := spaces_skipSpace after
  dsimp only at later
  split at later
  · next comma =>
    obtain ⟨tail, same⟩ := (peek_eq_iff (by decide)).mp comma
    rw [same] at spaces later
    obtain ⟨members, members_read, rfl, more_depths⟩ := more _ _ _ _ _ later
    refine ⟨(name, tree) :: members, .cons rest name_text behind_name between _ after tail name tree
      members behind before name_reads to_colon gap reads spaces members_read, rfl, ?_⟩
    rw [highestMember]
    omega
  · split at later
    · next closed =>
      obtain ⟨tail, same⟩ := (peek_eq_iff (by decide)).mp closed
      rw [same] at spaces later
      obtain ⟨rfl, rfl⟩ := Prod.mk.inj (Except.ok.inj later)
      refine ⟨[(name, tree)], .last rest name_text behind_name between _ after name tree tail
        before name_reads to_colon gap reads spaces, rfl, ?_⟩
      simp only [highestMember]
      omega
    · cases later

theorem parse_sound (strtod : Text → F) (bound : ℕ) :
    ValueSound strtod bound ∧ ItemsSound strtod bound ∧ MembersSound strtod bound := by
  induction bound with
  | zero => exact ⟨nofun, nofun, nofun⟩
  | succ bound ih =>
    obtain ⟨value, items, members⟩ := ih
    exact ⟨valueSound_succ items members, itemsSound_succ value items,
      membersSound_succ value members⟩

end Sound

end Saad.Json
