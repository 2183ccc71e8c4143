import Saad.Parser.RoundTrip
import Saad.Parser.TypesStanding

/-! # When types are read back

The parser gives a printed type, and stops where its print ends, exactly under the condition on its parts. By
induction on the type: each part that is parsed to what was printed stops where its print ends.
-/

namespace Saad.TypeSyntax

open General
open Parsing (DottedName getOperatorPrecedence)

section Settling

/-- Under the condition there is a result, and with the result the condition holds and the rest is next. -/
structure Settles (parses : Parser → Prop) (condition : Prop) (rest : List Printed) : Prop where
  reads : condition → ∃ after, parses after
  back : ∀ after, parses after → condition ∧ Stands rest after

variable {parses other : Parser → Prop} {first : Parser → Prop}
  {condition condition' : Prop} {rest rest' : List Printed}

theorem Settles.congr (settles : Settles other condition' rest) (same : ∀ after, parses after ↔ other after)
    (conditions : condition ↔ condition') : Settles parses condition rest := by
  constructor
  · intro holds
    obtain ⟨after, gives⟩ := settles.reads (conditions.mp holds)
    exact ⟨after, (same after).mpr gives⟩
  · intro after gives
    obtain ⟨holds, stands⟩ := settles.back after ((same after).mp gives)
    exact ⟨conditions.mpr holds, stands⟩

/-- The second part starts where the first one stops. -/
theorem Settles.then (settles : Settles first condition rest) (second : Parser → Parser → Prop)
    (next : ∀ middle, Stands rest middle → Settles (second middle) condition' rest') :
    Settles (fun after => ∃ middle, first middle ∧ second middle after) (condition ∧ condition') rest' := by
  constructor
  · rintro ⟨holds, holdsNext⟩
    obtain ⟨middle, gives⟩ := settles.reads holds
    obtain ⟨after, givesNext⟩ := (next middle (settles.back middle gives).2).reads holdsNext
    exact ⟨after, middle, gives, givesNext⟩
  · rintro after ⟨middle, gives, givesNext⟩
    obtain ⟨holds, stands⟩ := settles.back middle gives
    obtain ⟨holdsNext, standsNext⟩ := (next middle stands).back after givesNext
    exact ⟨⟨holds, holdsNext⟩, standsNext⟩

/-- Nothing is left to be decided. -/
theorem settles_of_unique {after : Parser} (stands : Stands rest after) :
    Settles (fun found => found = after) True rest :=
  ⟨fun _ => ⟨after, rfl⟩, fun _ equal => ⟨trivial, equal ▸ stands⟩⟩

theorem settles_of_never (never : ∀ after, ¬ parses after) (fails : ¬ condition) : Settles parses condition rest :=
  ⟨fun holds => absurd holds fails, fun after gives => absurd gives (never after)⟩

end Settling

section Lists

variable {inside : Bool} {p after : Parser} {rest : List Printed} {tokens : List Token}
variable {ends : Parser → Parser → Prop} {last : Printed} {head : Ty}

/-- A list of types with commas between them, and how it ends. -/
structure ListRule (inside : Bool) (parses : Parser → TyList → Parser → Prop) (ends : Parser → Parser → Prop)
    (last : Printed) : Prop where
  cons_iff : ∀ p head tail after, parses p (.cons head tail) after ↔
    ∃ middle, ParsesType inside p head middle ∧
      ((middle.peek = some (.plain .comma) ∧ parses middle.eatToken tail after) ∨
        (middle.peek ≠ some (.plain .comma) ∧ tail = .nil ∧ ends middle after))
  notComma : last ≠ plain .comma
  ends_exists : ∀ rest middle, Stands (last :: rest) middle → ∃ after, ends middle after
  stands : ∀ rest middle after, Stands (last :: rest) middle → ends middle after → Stands rest after

theorem listRule_typeArguments :
    ListRule inside (fun p types after => ParsesTypeArgumentList inside p types after)
      (fun middle after => closeTypeArguments middle = some after) .closing := by
  refine ⟨fun p head tail after => ?_, by simp [plain], fun rest middle stands => ?_, fun rest middle after stands close => ?_⟩
  · rw [parsesTypeArgumentList_iff]
    constructor
    · rintro ⟨arg, middle, gives, ⟨comma, args, equal, others⟩ | ⟨equal, close⟩⟩
      · obtain ⟨rfl, rfl⟩ := TyList.cons.inj equal
        exact ⟨middle, gives, .inl ⟨comma, others⟩⟩
      · obtain ⟨rfl, rfl⟩ := TyList.cons.inj equal
        refine ⟨middle, gives, .inr ⟨fun comma => ?_, rfl, close⟩⟩
        rw [closeTypeArguments, comma] at close
        cases close
    · rintro ⟨middle, gives, ⟨comma, others⟩ | ⟨_, rfl, close⟩⟩
      · exact ⟨head, middle, gives, .inl ⟨comma, tail, rfl, others⟩⟩
      · exact ⟨head, middle, gives, .inr ⟨rfl, close⟩⟩
  · obtain ⟨after, close, _⟩ := stands.close
    exact ⟨after, close⟩
  · obtain ⟨other, found, standsAfter⟩ := stands.close
    obtain rfl := Option.some.inj (found.symm.trans close)
    exact standsAfter

theorem listRule_unnamedParameters :
    ListRule inside (fun p types after => ParsesUnnamedParameter inside p types after)
      (fun middle after => middle.peek = some (.plain .closeParen) ∧ after = middle.eatToken) (plain .closeParen) := by
  refine ⟨fun p head tail after => ?_, by simp [plain], fun rest middle stands => ?_, fun rest middle after stands close => ?_⟩
  · rw [parsesUnnamedParameter_iff]
    constructor
    · rintro ⟨type, middle, gives, ⟨comma, others, equal, more⟩ | ⟨close, equal, rfl⟩⟩
      · obtain ⟨rfl, rfl⟩ := TyList.cons.inj equal
        exact ⟨middle, gives, .inl ⟨comma, more⟩⟩
      · obtain ⟨rfl, rfl⟩ := TyList.cons.inj equal
        exact ⟨middle, gives, .inr ⟨by simp [close], rfl, close, rfl⟩⟩
    · rintro ⟨middle, gives, ⟨comma, more⟩ | ⟨_, rfl, close, rfl⟩⟩
      · exact ⟨head, middle, gives, .inl ⟨comma, tail, rfl, more⟩⟩
      · exact ⟨head, middle, gives, .inr ⟨close, rfl, rfl⟩⟩
  · exact ⟨_, stands.at_.eat.1, rfl⟩
  · obtain ⟨_, rfl⟩ := close
    exact .inl stands.at_.eat.2

theorem goesOn_iff {wrapped : Bool} :
    GoesOn inside wrapped p ↔ p.peek = some (.plain .comma) ∧ (inside = true → wrapped = true) := by
  rw [GoesOn, not_and, Bool.not_eq_false]

theorem listRule_returnTypes :
    ListRule inside (fun p types after => ParsesReturnType inside p true types after)
      (fun middle after => after = if middle.peek = some (.plain .closeParen) then middle.eatToken else middle)
      (plain .closeParen) := by
  have same middle tail after : ParsesReturnTypes inside middle true tail after ↔
      ParsesReturnType inside middle true tail after := by
    rw [parsesReturnTypes_iff, if_neg fun both => Bool.noConfusion both.2]
  have goesOn middle : GoesOn inside true middle ↔ middle.peek = some (.plain .comma) := by
    rw [goesOn_iff, and_iff_left fun _ => rfl]
  refine ⟨fun p head tail after => ?_, by simp [plain], fun rest middle _ => ⟨_, rfl⟩, fun rest middle after stands ends => ?_⟩
  · rw [parsesReturnType_iff]
    simp only [goesOn, same, and_true]
    constructor
    · rintro ⟨type, middle, gives, ⟨comma, others, equal, more⟩ | ⟨notComma, equal, ends⟩⟩
      · obtain ⟨rfl, rfl⟩ := TyList.cons.inj equal
        exact ⟨middle, gives, .inl ⟨comma, more⟩⟩
      · obtain ⟨rfl, rfl⟩ := TyList.cons.inj equal
        exact ⟨middle, gives, .inr ⟨notComma, rfl, ends⟩⟩
    · rintro ⟨middle, gives, ⟨comma, more⟩ | ⟨notComma, rfl, ends⟩⟩
      · exact ⟨head, middle, gives, .inl ⟨comma, tail, rfl, more⟩⟩
      · exact ⟨head, middle, gives, .inr ⟨notComma, rfl, ends⟩⟩
  · rw [ends, if_pos stands.at_.eat.1]
    exact .inl stands.at_.eat.2

/-- Each list of types is read back when each of its types is. -/
theorem ListRule.settles_cons {parses : Parser → TyList → Parser → Prop}
    (rule : ListRule inside parses ends last)
    (settles : Settles (ParsesType inside p head) (head.ReadsBack inside (last :: rest)) (last :: rest)) :
    Settles (parses p (.cons head .nil)) (head.ReadsBack inside (last :: rest)) rest := by
  have notComma middle (stands : Stands (last :: rest) middle) : middle.peek ≠ some (.plain .comma) := by
    intro comma
    have equal := (stands.peek_iff (by decide) (by decide)).mp comma
    exact rule.notComma (Option.some.inj equal)
  constructor
  · intro holds
    obtain ⟨middle, gives⟩ := settles.reads holds
    have stands := (settles.back middle gives).2
    obtain ⟨after, ended⟩ := rule.ends_exists rest middle stands
    exact ⟨after, (rule.cons_iff ..).mpr ⟨middle, gives, .inr ⟨notComma middle stands, rfl, ended⟩⟩⟩
  · intro after gives
    obtain ⟨middle, gives, ⟨comma, _⟩ | ⟨_, _, ended⟩⟩ := (rule.cons_iff ..).mp gives
    · exact absurd comma (notComma middle (settles.back middle gives).2)
    · obtain ⟨holds, stands⟩ := settles.back middle gives
      exact ⟨holds, rule.stands rest middle after stands ended⟩

theorem ListRule.settles_comma {parses : Parser → TyList → Parser → Prop} {tail : TyList}
    {printed : List Printed} {condition : Prop} (rule : ListRule inside parses ends last)
    (settles : Settles (ParsesType inside p head) (head.ReadsBack inside (plain .comma :: printed))
      (plain .comma :: printed))
    (others : ∀ middle, At printed middle → Settles (parses middle tail) condition rest) :
    Settles (parses p (.cons head tail)) (head.ReadsBack inside (plain .comma :: printed) ∧ condition) rest := by
  have next := settles.then (fun middle after => parses middle.eatToken tail after)
    fun middle stands => others _ stands.at_.eat.2
  refine ⟨fun holds => ?_, fun after gives => ?_⟩
  · obtain ⟨after, middle, gives, more⟩ := next.reads holds
    have comma := (settles.back middle gives).2.at_.eat.1
    exact ⟨after, (rule.cons_iff ..).mpr ⟨middle, gives, .inl ⟨comma, more⟩⟩⟩
  · obtain ⟨middle, gives, rest'⟩ := (rule.cons_iff ..).mp gives
    have comma := (settles.back middle gives).2.at_.eat.1
    rcases rest' with ⟨_, more⟩ | ⟨notComma, _⟩
    · exact next.back after ⟨middle, gives, more⟩
    · exact absurd comma notComma

end Lists

section Functions

variable {inside : Bool} {p after : Parser} {rest : List Printed} {tokens : List Token}
variable {type : Ty} {parameters returnTypes : TyList} {last : List Printed}

theorem startsDeclaration_type (notName : ∀ name, type ≠ .name ⟨name, []⟩)
    (written : WrittenAs (type.print ++ rest) tokens) : startsDeclaration tokens = false := by
  cases type with
  | name name =>
    obtain ⟨first, parts⟩ := name
    cases parts with
    | nil => exact absurd rfl (notName first)
    | cons part parts =>
      rw [Ty.print, print_map_plain, List.flatMap_cons] at written
      obtain ⟨_, rfl, written₁⟩ := writtenAs_token_iff.mp written
      obtain ⟨_, rfl, _⟩ := writtenAs_token_iff.mp written₁
      rfl
  | genericInstance name args =>
    obtain ⟨first, parts⟩ := name
    rw [Ty.print, print_map_plain] at written
    obtain ⟨_, rfl, written₁⟩ := writtenAs_token_iff.mp written
    cases parts with
    | nil =>
      obtain ⟨_, rfl, _⟩ := writtenAs_token_iff.mp written₁
      rfl
    | cons part parts =>
      rw [List.flatMap_cons] at written₁
      obtain ⟨_, rfl, _⟩ := writtenAs_token_iff.mp written₁
      rfl
  | _ =>
    rw [Ty.print] at written
    obtain ⟨_, rfl, _⟩ := writtenAs_token_iff.mp written
    rfl

/-- Types without names are not taken for declarations. -/
theorem startsDeclaration_types (types : TyList) (tokens : List Token)
    (written : WrittenAs (types.print ++ plain .closeParen :: rest) tokens) : startsDeclaration tokens = false := by
  match types with
  | .nil =>
    obtain ⟨_, rfl, _⟩ := writtenAs_token_iff.mp written
    rfl
  | .cons head tail =>
    by_cases bare : ∃ name, head = .name ⟨name, []⟩
    · obtain ⟨name, rfl⟩ := bare
      cases tail with
      | nil =>
        obtain ⟨_, rfl, written₁⟩ := writtenAs_token_iff.mp written
        obtain ⟨_, rfl, _⟩ := writtenAs_token_iff.mp written₁
        rfl
      | cons next others =>
        obtain ⟨_, rfl, written₁⟩ := writtenAs_token_iff.mp written
        obtain ⟨_, rfl, written₂⟩ := writtenAs_token_iff.mp written₁
        have ih := startsDeclaration_types (.cons next others) _ written₂
        exact ih
    · have notName name : head ≠ .name ⟨name, []⟩ := fun equal => bare ⟨name, equal⟩
      cases tail with
      | nil =>
        rw [TyList.print] at written
        exact startsDeclaration_type notName written
      | cons next others =>
        rw [TyList.print, List.append_assoc] at written
        · exact startsDeclaration_type notName written
        · exact fun equal => TyList.noConfusion equal

theorem parsesType_function
    (at_ : At (plain .openParen :: (parameters.print ++ plain .closeParen :: last)) p) :
    ParsesType inside p (.function parameters returnTypes) after ↔
      ∃ middle, ParsesUnnamedParameters inside p.eatToken parameters middle ∧
        Gives (fun fuel => parseFunctionReturnTypes inside fuel middle) (returnTypes, after) := by
  have unnamed := startsDeclaration_types parameters _ at_.eat.2.written
  rw [parsesType_openParen at_.tokens_eq, unnamed, if_neg Bool.false_ne_true]
  constructor
  · rintro ⟨types, returns, middle, equal, gives, givesReturns⟩
    obtain ⟨rfl, rfl⟩ := Ty.function.inj equal
    exact ⟨middle, gives, givesReturns⟩
  · rintro ⟨middle, gives, givesReturns⟩
    exact ⟨parameters, returnTypes, middle, rfl, gives, givesReturns⟩

theorem parsesType_namedFunction {parameters : Fields} (some_ : parameters ≠ .nil)
    (at_ : At (plain .openParen :: (parameters.printParameters ++ last)) p) :
    ParsesType inside p (.namedFunction parameters returnTypes) after ↔
      ∃ middle, ParsesParameters inside p.eatToken [] parameters middle ∧
        Gives (fun fuel => parseFunctionReturnTypes inside fuel middle) (returnTypes, after) := by
  have named : startsDeclaration p.eatToken.tokens = true := by
    have written := at_.eat.2.written
    generalize p.eatToken.tokens = tokens at written
    cases parameters with
    | nil => exact absurd rfl some_
    | cons name type tail =>
      cases tail with
      | nil =>
        obtain ⟨_, rfl, written₁⟩ := writtenAs_token_iff.mp written
        obtain ⟨_, rfl, _⟩ := writtenAs_token_iff.mp written₁
        rfl
      | cons next nextType others =>
        obtain ⟨_, rfl, written₁⟩ := writtenAs_token_iff.mp written
        obtain ⟨_, rfl, _⟩ := writtenAs_token_iff.mp written₁
        rfl
  rw [parsesType_openParen at_.tokens_eq, if_pos named]
  constructor
  · rintro ⟨fields, returns, middle, equal, gives, givesReturns⟩
    obtain ⟨rfl, rfl⟩ := Ty.namedFunction.inj equal
    exact ⟨middle, gives, givesReturns⟩
  · rintro ⟨middle, gives, givesReturns⟩
    exact ⟨parameters, returnTypes, middle, rfl, gives, givesReturns⟩

/-- A function type is not read without its first parenthesis. The first parameter would have to be a function
type that is read without its own. -/
theorem Ty.not_parsesType_eatToken : (type : Ty) → ∀ {p after rest}, type.isFunction = true → At (type.print ++ rest) p →
    ¬ ParsesType inside p.eatToken type after
  | .function .nil returnTypes, p, after, rest, _, at_, gives => by
    rw [Ty.print, TyList.print, List.cons_append, List.nil_append, List.cons_append] at at_
    have peeked := peek_of_parsesType gives rfl
    rw [at_.eat.2.eat.1] at peeked
    cases peeked
  | .function (.cons head tail) returnTypes, p, after, rest, _, at_, gives => by
    have peeked := peek_of_parsesType gives rfl
    rw [Ty.print, List.cons_append, List.append_assoc] at at_
    have atHead : ∃ more, At (head.print ++ more) p.eatToken := by
      have next := at_.eat.2
      cases tail with
      | nil => exact ⟨_, next⟩
      | cons second others =>
        rw [TyList.print, List.append_assoc] at next
        · exact ⟨_, next⟩
        · exact fun equal => TyList.noConfusion equal
    obtain ⟨more, atHead⟩ := atHead
    have function := atHead.peek_eq_openParen_iff.mp peeked
    have start : p.eatToken.tokens = .plain .openParen :: p.eatToken.eatToken.tokens := by
      obtain ⟨others, equal⟩ := List.head?_eq_some_iff.mp peeked
      rw [equal, Parser.eatToken, equal, List.tail_cons]
    rw [parsesType_openParen start] at gives
    split at gives
    · obtain ⟨_, _, _, equal, _⟩ := gives
      cases equal
    · obtain ⟨types, _, middle, equal, parameters, _⟩ := gives
      obtain ⟨rfl, rfl⟩ := Ty.function.inj equal
      rw [parsesUnnamedParameters_iff] at parameters
      split at parameters
      · cases parameters.1
      · obtain ⟨_, _, first, ⟨_, _, same, _⟩ | ⟨_, same, _⟩⟩ := parsesUnnamedParameter_iff.mp parameters
        · obtain ⟨rfl, rfl⟩ := TyList.cons.inj same
          exact head.not_parsesType_eatToken function atHead first
        · obtain ⟨rfl, rfl⟩ := TyList.cons.inj same
          exact head.not_parsesType_eatToken function atHead first
  | .namedFunction parameters returnTypes, p, after, rest, _, at_, gives => by
    have peeked := peek_of_parsesType gives rfl
    rw [Ty.print, List.cons_append, List.append_assoc] at at_
    have next := at_.eat.2
    cases parameters with
    | nil =>
      rw [Fields.printParameters, List.nil_append, List.cons_append] at next
      rw [next.eat.1] at peeked
      cases peeked
    | cons name type tail =>
      cases tail with
      | nil =>
        rw [next.eat.1] at peeked
        cases peeked
      | cons second secondType others =>
        rw [next.eat.1] at peeked
        cases peeked

theorem not_parsesReturnTypes_nil {wrapped : Bool} : ¬ ParsesReturnTypes inside p wrapped .nil after := by
  rw [parsesReturnTypes_iff]
  split <;>
  · rw [parsesReturnType_iff]
    rintro ⟨_, _, _, ⟨_, _, equal, _⟩ | ⟨_, equal, _⟩⟩ <;> cases equal

/-- One return type without parentheses. -/
theorem settles_returnsAlone (at_ : At (type.print ++ rest) p)
    (settles : Settles (ParsesType inside p type) (type.ReadsBack inside rest) rest) :
    Settles (ParsesReturnTypes inside p false (.cons type .nil))
      (type.ReadsBack inside rest ∧ ReturnsAlone inside (.cons type .nil) rest) rest := by
  cases function : type.isFunction with
  | true =>
    refine settles_of_never (fun after gives => ?_) fun both => ?_
    · rw [parsesReturnTypes_iff, if_pos ⟨at_.peek_eq_openParen_iff.mpr function, rfl⟩] at gives
      obtain ⟨_, _, first, ⟨_, _, equal, _⟩ | ⟨_, equal, _⟩⟩ := parsesReturnType_iff.mp gives
      · obtain ⟨rfl, rfl⟩ := TyList.cons.inj equal
        exact type.not_parsesType_eatToken function at_ first
      · obtain ⟨rfl, _⟩ := TyList.cons.inj equal
        exact type.not_parsesType_eatToken function at_ first
    · have notFunction := both.2.1
      rw [function] at notFunction
      cases notFunction
  | false =>
    have bare : ¬ (p.peek = some (.plain .openParen) ∧ false = false) := fun both => by
      rw [at_.peek_eq_openParen_iff, function] at both
      exact Bool.noConfusion both.1
    have goesOn middle (stands : Stands rest middle) :
        GoesOn inside false middle ↔ ¬ (inside = true ∨ rest.head? ≠ some (plain .comma)) := by
      rw [goesOn_iff, stands.peek_iff (by decide) (by decide)]
      cases inside <;> simp [plain]
    have alone : ReturnsAlone inside (.cons type .nil) rest ↔ inside = true ∨ rest.head? ≠ some (plain .comma) :=
      and_iff_right function
    constructor
    · rintro ⟨holds, last⟩
      obtain ⟨middle, gives⟩ := settles.reads holds
      have stands := (settles.back middle gives).2
      refine ⟨middle, ?_⟩
      rw [parsesReturnTypes_iff, if_neg bare, parsesReturnType_iff]
      refine ⟨type, middle, gives, .inr ⟨?_, rfl, by simp⟩⟩
      rw [goesOn middle stands, not_not]
      exact alone.mp last
    · intro after gives
      rw [parsesReturnTypes_iff, if_neg bare, parsesReturnType_iff] at gives
      obtain ⟨_, middle, first, ⟨_, others, equal, more⟩ | ⟨stops, equal, rfl⟩⟩ := gives
      · obtain ⟨rfl, rfl⟩ := TyList.cons.inj equal
        exact absurd more not_parsesReturnTypes_nil
      · obtain ⟨rfl, _⟩ := TyList.cons.inj equal
        obtain ⟨holds, stands⟩ := settles.back middle first
        rw [goesOn middle stands, not_not] at stops
        refine ⟨⟨holds, alone.mpr stops⟩, ?_⟩
        rwa [if_neg fun both => Bool.noConfusion both.2]

/-- The closing parenthesis, the arrow and the return types. -/
theorem settles_returnTypes (some_ : returnTypes ≠ .nil)
    (at_ : At (.token .rightArrow :: (returnTypesOf returnTypes returnTypes.print ++ rest)) p)
    (list : ∀ q, At (returnTypes.print ++ plain .closeParen :: rest) q →
      Settles (ParsesReturnType inside q true returnTypes)
        (returnTypes.ReadBack inside (plain .closeParen :: rest)) rest)
    (alone : ∀ type q, returnTypes = .cons type .nil → At (type.print ++ rest) q →
      Settles (ParsesType inside q type) (type.ReadsBack inside rest) rest) :
    Settles (fun after => Gives (fun fuel => parseFunctionReturnTypes inside fuel p) (returnTypes, after))
      (returnTypes.ReadBack inside (behindReturnTypes returnTypes rest) ∧ ReturnsAlone inside returnTypes rest) rest := by
  obtain ⟨arrow, next⟩ := at_.eat
  have same after : Gives (fun fuel => parseFunctionReturnTypes inside fuel p) (returnTypes, after) ↔
      ParsesReturnTypes inside p.eatToken false returnTypes after := givesFunctionReturnTypes_iff arrow
  match returnTypes with
  | .nil => exact absurd rfl some_
  | .cons type .nil =>
    have single := settles_returnsAlone next (alone type _ rfl next)
    exact single.congr same Iff.rfl
  | .cons type (.cons second others) =>
    rw [returnTypesOf, List.cons_append, List.append_assoc] at next
    · have wrapped := list _ next.eat.2
      refine wrapped.congr (fun after => ?_) (and_iff_left trivial)
      rw [same, parsesReturnTypes_iff, if_pos ⟨next.eat.1, rfl⟩]
    · exact fun _ equal => TyList.noConfusion (TyList.cons.inj equal).2

theorem settles_unnamedParameters (at_ : At (parameters.print ++ plain .closeParen :: rest) p)
    (list : parameters ≠ .nil → Settles (ParsesUnnamedParameter inside p parameters)
      (parameters.ReadBack inside (plain .closeParen :: rest)) rest) :
    Settles (ParsesUnnamedParameters inside p parameters)
      (parameters.ReadBack inside (plain .closeParen :: rest)) rest := by
  cases parameters with
  | nil =>
    obtain ⟨close, next⟩ := At.eat at_
    refine (settles_of_unique (.inl next)).congr (fun after => ?_) (by rw [TyList.ReadBack])
    rw [parsesUnnamedParameters_iff, if_pos close, and_iff_right rfl]
  | cons head tail =>
    have open_ : p.peek ≠ some (.plain .closeParen) := by
      cases tail with
      | nil => exact At.peek_ne_closeParen at_
      | cons second others =>
        rw [TyList.print, List.append_assoc] at at_
        · exact at_.peek_ne_closeParen
        · exact fun equal => TyList.noConfusion equal
    refine (list fun equal => TyList.noConfusion equal).congr (fun after => ?_) Iff.rfl
    rw [parsesUnnamedParameters_iff, if_neg open_]

end Functions

section Declarations

variable {scope names : List String} {name : String}

theorem Fresh.declare (fresh : Fresh scope (name :: names)) :
    ∃ grown, addDeclarationToScope scope [name] = some grown ∧ Fresh grown names := by
  obtain ⟨distinct, apart⟩ := fresh
  have others : (names.filter (· ≠ "_")).Nodup := by
    rw [List.filter_cons] at distinct
    split at distinct
    · exact distinct.of_cons
    · exact distinct
  have apartOthers other (member : other ∈ names) (named : other ≠ "_") : other ∉ scope :=
    apart other (List.mem_cons_of_mem _ member) named
  rw [addDeclarationToScope]
  split
  · exact ⟨scope, rfl, others, apartOthers⟩
  · next notBoth =>
    have new : name ∉ scope := by
      by_cases underscore : name = "_"
      · exact fun member => notBoth ⟨underscore, member⟩
      · exact apart name (List.mem_cons_self ..) underscore
    rw [if_neg new, addDeclarationToScope]
    refine ⟨scope ++ [name], rfl, others, fun other member named => ?_⟩
    rw [List.mem_append, List.mem_singleton, not_or]
    refine ⟨apartOthers other member named, ?_⟩
    rintro rfl
    rw [List.filter_cons_of_pos (by simpa using named)] at distinct
    exact (List.nodup_cons.mp distinct).1 (List.mem_filter.mpr ⟨member, by simpa using named⟩)

end Declarations

section Types

variable {inside : Bool}

theorem settles_name {name : DottedName} {rest : List Printed} {p : Parser}
    (at_ : At ((Ty.name name).print ++ rest) p) :
    Settles (ParsesType inside p (.name name)) ((Ty.name name).ReadsBack inside rest) rest := by
  rw [Ty.print] at at_
  obtain ⟨q, atRest, rule⟩ := parsesType_printedName inside at_
  by_cases ends : ∀ name more, rest ≠ plain .dot :: plain (.identifier name) :: more
  · simp only [parseDottedRest_ends atRest ends, List.append_nil] at rule
    by_cases starts : StartsTypeArguments rest
    · simp only [if_pos (atRest.startsTypeArguments_iff.mpr starts)] at rule
      refine settles_of_never (fun after gives => ?_) fun both => both.2 starts
      obtain ⟨_, equal, _⟩ := (rule _ after).mp gives
      cases equal
    · simp only [if_neg (mt atRest.startsTypeArguments_iff.mp starts)] at rule
      refine (settles_of_unique (.inl atRest)).congr (fun after => ?_) (iff_of_true ⟨ends, starts⟩ trivial)
      rw [rule, and_iff_right rfl]
  · refine settles_of_never (fun after gives => ?_) fun both => ends both.1
    have found := (rule _ after).mp gives
    split at found
    · obtain ⟨_, equal, _⟩ := found
      cases equal
    · have parts := congrArg DottedName.rest (Ty.name.inj found.1)
      push Not at ends
      obtain ⟨next, more, rfl⟩ := ends
      exact parseDottedRest_goesOn atRest (List.self_eq_append_right.mp parts)

theorem settles_genericInstance {name : DottedName} {args : TyList} {rest : List Printed} {p : Parser}
    (at_ : At ((Ty.genericInstance name args).print ++ rest) p)
    (list : ∀ q, At (args.print ++ .closing :: rest) q →
      Settles (ParsesTypeArgumentList inside q args) (args.ReadBack inside (.closing :: rest)) rest) :
    Settles (ParsesType inside p (.genericInstance name args)) ((Ty.genericInstance name args).ReadsBack inside rest)
      rest := by
  rw [Ty.print, List.append_assoc, List.cons_append, List.append_assoc, List.singleton_append] at at_
  obtain ⟨q, atRest, rule⟩ := parsesType_printedName inside at_
  have ends name more : plain (.operator .lessThan) :: (args.print ++ .closing :: rest) ≠
      plain .dot :: plain (.identifier name) :: more := by simp [plain]
  simp only [parseDottedRest_ends atRest ends, List.append_nil] at rule
  by_cases starts : StartsTypeArguments (plain (.operator .lessThan) :: (args.print ++ .closing :: rest))
  · simp only [if_pos (atRest.startsTypeArguments_iff.mpr starts)] at rule
    refine (list _ atRest.eat.2).congr (fun after => ?_) (and_iff_right starts)
    rw [rule, ← parsesTypeArguments_iff atRest.eat.1]
    constructor
    · rintro ⟨found, equal, gives⟩
      obtain ⟨-, rfl⟩ := Ty.genericInstance.inj equal
      exact gives
    · intro gives
      exact ⟨args, rfl, gives⟩
  · simp only [if_neg (mt atRest.startsTypeArguments_iff.mp starts)] at rule
    refine settles_of_never (fun after gives => ?_) fun both => starts both.1
    have found := ((rule _ after).mp gives).1
    cases found

theorem settles_fixedArray {capacity : Parsing.Expr} {elem : Ty} {rest : List Printed} {p : Parser}
    (reads : SizeReads capacity) (at_ : At ((Ty.fixedArray capacity elem).print ++ rest) p)
    (settles : ∀ q, At (elem.print ++ rest) q → Settles (ParsesType inside q elem) (elem.ReadsBack inside rest) rest) :
    Settles (ParsesType inside p (.fixedArray capacity elem)) (elem.ReadsBack inside rest) rest := by
  rw [Ty.print, List.cons_append, List.append_assoc, List.cons_append] at at_
  have next := at_.eat.2
  obtain ⟨q, atBracket, gives⟩ := givesCapacity reads next
  obtain ⟨others, start, written⟩ := next.written.exists_of_plain
  have head token (bracket : token = .closeBracket ∨ token = .doubleDot) :
      p.eatToken.tokens.head? ≠ some (.plain token) := by
    have apart := reads.head?_ne bracket []
    obtain ⟨more, rfl, _⟩ := writtenAs_token_iff.mp written
    rw [start]
    cases print : capacity.print (getOperatorPrecedence .dot) with
    | nil =>
      rw [print] at apart
      simpa using apart
    | cons first others =>
      rw [print] at apart
      simpa using apart
  refine (settles _ atBracket.eat.2).congr (fun after => ?_) Iff.rfl
  rw [parsesType_fixedArray at_.tokens_eq (head _ (.inl rfl)) (head _ (.inr rfl)) gives atBracket.eat.1,
    and_iff_right rfl]

end Types

section All

variable {inside : Bool}

mutual

theorem Ty.settles (type : Ty) {rest : List Printed} {p : Parser} (formed : type.Formed)
    (at_ : At (type.print ++ rest) p) : Settles (ParsesType inside p type) (type.ReadsBack inside rest) rest := by
  match type with
  | .primitive _ | .string | .any =>
    rw [Ty.print] at at_
    exact (settles_of_unique (.inl at_.eat.2)).congr
      (fun after => parsesType_leaf fun fuel => by rw [parseType, at_.tokens_eq]) Iff.rfl
  | .name name => exact settles_name at_
  | .genericInstance name args =>
    exact settles_genericInstance at_ fun q atArgs => args.settles listRule_typeArguments formed.1 formed.2 atArgs
  | .optional inner =>
    rw [Ty.print] at at_
    exact (inner.settles formed at_.eat.2).congr
      (fun after => parsesType_map (fun _ _ => Ty.optional.inj) fun fuel => by rw [parseType, at_.tokens_eq]) Iff.rfl
  | .pointer pointee =>
    rw [Ty.print] at at_
    exact (pointee.settles formed at_.eat.2).congr
      (fun after => parsesType_map (fun _ _ => Ty.pointer.inj) fun fuel => by rw [parseType, at_.tokens_eq]) Iff.rfl
  | .slice elem =>
    rw [Ty.print] at at_
    exact (elem.settles formed at_.eat.2.eat.2).congr
      (fun after => parsesType_map (fun _ _ => Ty.slice.inj) fun fuel => by
        rw [parseType, at_.tokens_eq, at_.eat.2.tokens_eq]) Iff.rfl
  | .dynamicArray elem =>
    rw [Ty.print] at at_
    exact (elem.settles formed at_.eat.2.eat.2.eat.2).congr
      (fun after => parsesType_map (fun _ _ => Ty.dynamicArray.inj) fun fuel => by
        rw [parseType, at_.tokens_eq, at_.eat.2.tokens_eq, at_.eat.2.eat.2.tokens_eq]) Iff.rfl
  | .fixedArray capacity elem =>
    exact settles_fixedArray formed.1 at_ fun q atElem => elem.settles formed.2 atElem
  | .function parameters returnTypes =>
    rw [Ty.print, List.cons_append, List.append_assoc] at at_
    have params := settles_unnamedParameters at_.eat.2 fun some_ =>
      parameters.settles listRule_unnamedParameters some_ formed.1 at_.eat.2
    refine (params.then _ fun middle stands => settles_returnTypes formed.2.1 stands.at_
      (fun q atTypes => returnTypes.settles listRule_returnTypes formed.2.1 formed.2.2 atTypes)
      fun type q equal atType => ?_).congr (fun after => parsesType_function at_) Iff.rfl
    match returnTypes, equal with
    | .cons single .nil, rfl => exact single.settles formed.2.2.1 atType
  | .namedFunction parameters returnTypes =>
    rw [Ty.print, List.cons_append, List.append_assoc] at at_
    have params := parameters.settlesParameters formed.1 formed.2.1 formed.2.2.1 at_.eat.2
    refine (params.then _ fun middle stands => settles_returnTypes formed.2.2.2.1 stands.at_
      (fun q atTypes => returnTypes.settles listRule_returnTypes formed.2.2.2.1 formed.2.2.2.2 atTypes)
      fun type q equal atType => ?_).congr (fun after => parsesType_namedFunction formed.1 at_) Iff.rfl
    match returnTypes, equal with
    | .cons single .nil, rfl => exact single.settles formed.2.2.2.2.1 atType
  | .anonymousStruct members =>
    rw [Ty.print, List.cons_append, List.cons_append, List.append_assoc] at at_
    have start : p.tokens = .struct_ :: .openBrace :: p.eatToken.eatToken.tokens := by
      rw [at_.tokens_eq, at_.eat.2.tokens_eq]
    refine (members.settlesMembers formed.1 formed.2 at_.eat.2.eat.2).congr (fun after => ?_) Iff.rfl
    rw [parsesType_struct start]
    constructor
    · rintro ⟨found, equal, gives⟩
      obtain rfl := Ty.anonymousStruct.inj equal
      exact gives
    · intro gives
      exact ⟨members, rfl, gives⟩

theorem TyList.settles (types : TyList) {parses : Parser → TyList → Parser → Prop} {ends : Parser → Parser → Prop}
    {last : Printed} {rest : List Printed} {p : Parser} (rule : ListRule inside parses ends last)
    (some_ : types ≠ .nil) (formed : types.Formed) (at_ : At (types.print ++ last :: rest) p) :
    Settles (parses p types) (types.ReadBack inside (last :: rest)) rest := by
  match types with
  | .nil => exact absurd rfl some_
  | .cons head .nil => exact rule.settles_cons (head.settles formed.1 at_)
  | .cons head (.cons second others) =>
    rw [TyList.print, List.append_assoc] at at_
    · exact rule.settles_comma (head.settles formed.1 at_) fun middle atTail =>
        (TyList.cons second others).settles rule (fun equal => TyList.noConfusion equal) formed.2 atTail
    · exact fun equal => TyList.noConfusion equal

theorem Fields.settlesParameters (fields : Fields) {scope : List String} {rest : List Printed} {p : Parser}
    (some_ : fields ≠ .nil) (fresh : Fresh scope fields.names) (formed : fields.Formed)
    (at_ : At (fields.printParameters ++ plain .closeParen :: rest) p) :
    Settles (ParsesParameters inside p scope fields) (fields.ParametersReadBack inside (plain .closeParen :: rest))
      rest := by
  match fields with
  | .nil => exact absurd rfl some_
  | .cons name type .nil =>
    obtain ⟨grown, added, _⟩ := fresh.declare
    have settles := type.settles formed.1 (At.eat (At.eat at_).2).2
    refine ⟨fun holds => ?_, fun after gives => ?_⟩
    · obtain ⟨middle, gives⟩ := settles.reads holds
      have close := (settles.back middle gives).2.at_.eat.1
      exact ⟨_, (parsesParameters_iff (At.tokens_eq₂ at_)).mpr ⟨type, middle, grown, added, gives, .inr ⟨close, rfl, rfl⟩⟩⟩
    · obtain ⟨_, middle, _, _, gives, ⟨comma, _, equal, _⟩ | ⟨_, equal, rfl⟩⟩ :=
        (parsesParameters_iff (At.tokens_eq₂ at_)).mp gives
      · obtain ⟨-, rfl, -⟩ := Fields.cons.inj equal
        rw [(settles.back middle gives).2.at_.eat.1] at comma
        cases comma
      · obtain ⟨-, rfl, -⟩ := Fields.cons.inj equal
        obtain ⟨holds, stands⟩ := settles.back middle gives
        exact ⟨holds, .inl stands.at_.eat.2⟩
  | .cons name type (.cons second secondType others) =>
    obtain ⟨grown, added, freshTail⟩ := fresh.declare
    rw [Fields.printParameters, List.cons_append, List.cons_append, List.append_assoc] at at_
    · have settles := type.settles formed.1 (At.eat (At.eat at_).2).2
      have next := settles.then (fun middle after =>
          ParsesParameters inside middle.eatToken grown (.cons second secondType others) after)
        fun middle stands => (Fields.cons second secondType others).settlesParameters
          (fun equal => Fields.noConfusion equal) freshTail formed.2 stands.at_.eat.2
      refine next.congr (fun after => ?_) Iff.rfl
      rw [parsesParameters_iff (At.tokens_eq₂ at_)]
      constructor
      · rintro ⟨_, middle, _, addedAgain, gives, ⟨_, _, equal, more⟩ | ⟨_, equal, _⟩⟩
        · obtain ⟨-, rfl, rfl⟩ := Fields.cons.inj equal
          obtain rfl := Option.some.inj (added.symm.trans addedAgain)
          exact ⟨middle, gives, more⟩
        · cases (Fields.cons.inj equal).2.2
      · rintro ⟨middle, gives, more⟩
        have comma := (settles.back middle gives).2.at_.eat.1
        exact ⟨type, middle, grown, added, gives, .inl ⟨comma, _, rfl, more⟩⟩
    · exact fun equal => Fields.noConfusion equal

theorem Fields.settlesMembers (fields : Fields) {scope : List String} {rest : List Printed} {p : Parser}
    (fresh : Fresh scope fields.names) (formed : fields.Formed)
    (at_ : At (fields.printMembers ++ .token .closeBrace :: rest) p) :
    Settles (ParsesMembers inside p scope fields) (fields.MembersReadBack inside (.token .closeBrace :: rest)) rest := by
  match fields with
  | .nil =>
    obtain ⟨close, next⟩ := At.eat at_
    exact (settles_of_unique (.inl next)).congr
      (fun after => (parsesMembers_closed close).trans (and_iff_right rfl)) Iff.rfl
  | .cons name type tail =>
    obtain ⟨grown, added, freshTail⟩ := fresh.declare
    rw [Fields.printMembers, List.cons_append, List.cons_append, List.append_assoc] at at_
    have settles := type.settles formed.1 (At.eat (At.eat at_).2).2
    have next := settles.then (fun middle after => ParsesMembers inside middle.eatToken grown tail after)
      fun middle stands => tail.settlesMembers freshTail formed.2 stands.at_.eat.2
    refine next.congr (fun after => ?_) Iff.rfl
    rw [parsesMembers_iff (At.tokens_eq₂ at_)]
    constructor
    · rintro ⟨_, middle, _, _, addedAgain, gives, _, equal, more⟩
      obtain ⟨-, rfl, rfl⟩ := Fields.cons.inj equal
      obtain rfl := Option.some.inj (added.symm.trans addedAgain)
      exact ⟨middle, gives, more⟩
    · rintro ⟨middle, gives, more⟩
      have semicolon := (settles.back middle gives).2.at_.eat.1
      exact ⟨type, middle, grown, tail, added, gives, semicolon, rfl, more⟩

end

end All

section Right

variable {inside : Bool} {type : Ty} {written rest : List Token} {p : Parser}

/-- What is behind the place of the parser, which in the middle of a '>>' is what follows it. -/
def Parser.behind (p : Parser) : List Token :=
  if p.splitShiftRightToken = p.currentTokenIndex + 1 then p.tokens.tail else p.tokens

/-- The tokens of the type are parsed to it, and just these. -/
def IsReadBack (inside : Bool) (type : Ty) (written rest : List Token) : Prop :=
  ∀ p, p.tokens = written ++ rest → p.splitShiftRightToken ≤ p.currentTokenIndex →
    ∃ after, ParsesType inside p type after ∧ after.tokens = rest ∧
      after.splitShiftRightToken ≤ after.currentTokenIndex

/-- A list of type arguments is parsed from the current '<' on, up to what is left. -/
def EndsTypeArguments (inside : Bool) (p : Parser) (left : List Token) : Prop :=
  ∃ args after, ParsesTypeArguments inside p args after ∧ after.behind = left

/-- A printed type is read back, and where type arguments can be parsed, the scan ends where the parser does. -/
structure TypesRight (inside : Bool) (type : Ty) (written rest : List Token) (p : Parser) : Prop where
  readBack : IsReadBack inside type written rest
  scanned : ∀ left, EndsTypeArguments inside p left → scanTypeArguments p.tokens = some left

theorem writtenAs_map_token_iff {tokens : List Token} : WrittenAs (rest.map .token) tokens ↔ tokens = rest := by
  constructor
  · intro written
    induction rest generalizing tokens with
    | nil =>
      cases written
      rfl
    | cons token rest ih =>
      obtain ⟨more, rfl, others⟩ := writtenAs_token_iff.mp written
      rw [ih others]
  · rintro rfl
    exact writtenAs_map_token _

theorem Stands.of_map_token (stands : Stands (rest.map .token) p) : At (rest.map .token) p := by
  rcases stands with at_ | half
  · exact at_
  · obtain ⟨_, _, equal, _⟩ := half.written
    cases rest <;> cases equal

theorem isReadBack_iff (formed : type.Formed) (print : WrittenAs type.print written) :
    IsReadBack inside type written rest ↔ type.ReadsBack inside (rest.map .token) := by
  have settles p (tokens : p.tokens = written ++ rest) (whole : p.splitShiftRightToken ≤ p.currentTokenIndex) :
      Settles (ParsesType inside p type) (type.ReadsBack inside (rest.map .token)) (rest.map .token) :=
    type.settles formed ⟨tokens ▸ print.append (writtenAs_map_token rest), whole⟩
  constructor
  · intro readBack
    obtain ⟨after, gives, _⟩ := readBack ⟨written ++ rest, 0, 0⟩ rfl (Nat.le_refl _)
    exact ((settles ⟨written ++ rest, 0, 0⟩ rfl (Nat.le_refl _)).back after gives).1
  · intro holds p tokens whole
    obtain ⟨after, gives⟩ := (settles p tokens whole).reads holds
    have at_ := ((settles p tokens whole).back after gives).2.of_map_token
    exact ⟨after, gives, writtenAs_map_token_iff.mp at_.written, at_.whole⟩

/-- The scan ends where the parser does when the tokens in between are those it knows, and its depth comes down to
nought just at their end. -/
theorem scanTypeArguments_eq_some_iff {tokens left : List Token} :
    scanTypeArguments tokens = some left ↔ ∃ list, tokens = list ++ left ∧ Walks Token.depthChange 0 list := by
  constructor
  · exact exists_of_walk
  · rintro ⟨list, rfl, walks⟩
    exact walk_append walks

/-- `Map<string, List<int>>`, with its last two closings as one token. -/
def mapOfLists : Ty :=
  .genericInstance ⟨"Map", []⟩ (.cons .string (.cons (.genericInstance ⟨"List", []⟩ (.cons (.primitive .int) .nil)) .nil))

def mapOfListsTokens : List Token :=
  [.plain (.identifier "Map"), .plain (.operator .lessThan), .plain .string, .plain .comma, .plain (.identifier "List"),
    .plain (.operator .lessThan), .plain (.primitive .int), .plain (.operator .bitwiseShiftRight)]

theorem mapOfLists_formed : mapOfLists.Formed := by simp [mapOfLists, Ty.Formed, TyList.Formed]

theorem mapOfLists_written : WrittenAs mapOfLists.print mapOfListsTokens :=
  .token (.token (.token (.token (.token (.token (.token (.shiftRight .nil)))))))

def listOfStruct : Ty :=
  .genericInstance ⟨"List", []⟩ (.cons (.anonymousStruct (.cons "x" (.primitive .int) .nil)) .nil)

def listOfStructTokens : List Token :=
  [.plain (.identifier "List"), .plain (.operator .lessThan), .struct_, .openBrace, .plain (.identifier "x"), .colon,
    .plain (.primitive .int), .semicolon, .closeBrace, .plain (.operator .greaterThan)]

theorem listOfStruct_formed : listOfStruct.Formed := by
  simp [listOfStruct, Ty.Formed, TyList.Formed, Fields.Formed, Fields.names, Fresh]

theorem listOfStruct_written : WrittenAs listOfStruct.print listOfStructTokens :=
  .token (.token (.token (.token (.token (.token (.token (.token (.token (.greaterThan .nil)))))))))

/-- A size of the shape that is read back in front of a closing bracket. -/
theorem sizeReads_of_wellFormed {capacity : Parsing.Expr}
    (wellFormed : capacity.wellFormed (getOperatorPrecedence .dot) = true)
    (clear : ∀ tokens, capacity.clear (getOperatorPrecedence .dot) (.closeBracket :: tokens) = true) :
    SizeReads capacity := by
  intro tokens index split whole
  have spans := capacity.spans (by decide) wellFormed (.closeBracket :: tokens) (clear tokens)
    fun _ => Parsing.stops_of_ends rfl
  obtain ⟨after, atAfter, gives⟩ := spans.gives_ends Parsing.minPrecedence_lt_reach
    (p := ⟨capacity.print (getOperatorPrecedence .dot) ++ .closeBracket :: tokens, index, split⟩) ⟨rfl, whole⟩ rfl
  exact ⟨after, atAfter.1, atAfter.2, gives⟩

end Right

end Saad.TypeSyntax
