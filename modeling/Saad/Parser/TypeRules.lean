import Saad.Parser.MoreFuel

/-! # What the parser of types gives

With enough fuel, each function gives a result exactly when its parts give theirs. The rules are for one shape
of the result each.
-/

namespace Saad.TypeSyntax

open General

section Parses

variable (inside : Bool) (p : Parser)

def ParsesType (type : Ty) (after : Parser) : Prop := Gives (fun fuel => parseType inside fuel p) (type, after)

def ParsesTypeArguments (args : TyList) (after : Parser) : Prop :=
  Gives (fun fuel => parseTypeArguments inside fuel p) (args, after)

def ParsesTypeArgumentList (args : TyList) (after : Parser) : Prop :=
  Gives (fun fuel => parseTypeArgumentList inside fuel p) (args, after)

def ParsesUnnamedParameters (types : TyList) (after : Parser) : Prop :=
  Gives (fun fuel => parseUnnamedParameters inside fuel p) (types, after)

def ParsesUnnamedParameter (types : TyList) (after : Parser) : Prop :=
  Gives (fun fuel => parseUnnamedParameter inside fuel p) (types, after)

def ParsesParameters (scope : List String) (fields : Fields) (after : Parser) : Prop :=
  Gives (fun fuel => parseParameters inside fuel scope p) (fields, after)

def ParsesMembers (scope : List String) (fields : Fields) (after : Parser) : Prop :=
  Gives (fun fuel => parseMembers inside fuel scope p) (fields, after)

def ParsesReturnTypes (wrapped : Bool) (types : TyList) (after : Parser) : Prop :=
  Gives (fun fuel => parseReturnTypes inside fuel wrapped p) (types, after)

def ParsesReturnType (wrapped : Bool) (types : TyList) (after : Parser) : Prop :=
  Gives (fun fuel => parseReturnType inside fuel wrapped p) (types, after)

end Parses

section Types

variable {inside : Bool} {p q after : Parser} {type inner : Ty} {tokens : List Token}

theorem rises_parseType : Rises fun fuel => parseType inside fuel p :=
  fun fuel => (keepsResults inside fuel).type p

/-- A type of one token. -/
theorem parsesType_leaf (same : ∀ fuel, parseType inside (fuel + 1) p = some (type, q)) :
    ParsesType inside p type after ↔ after = q := by
  rw [ParsesType, gives_succ_iff same, gives_some_iff, Prod.mk.injEq, and_iff_right rfl]

/-- A type that is tokens in front of another type. -/
theorem parsesType_map {f : Ty → Ty} (injective : ∀ a b, f a = f b → a = b)
    (same : ∀ fuel, parseType inside (fuel + 1) p =
      (parseType inside fuel q).map fun result => (f result.1, result.2)) :
    ParsesType inside p (f inner) after ↔ ParsesType inside q inner after := by
  rw [ParsesType, gives_succ_iff same, gives_map_iff rises_parseType]
  constructor
  · rintro ⟨⟨found, place⟩, gives, equal⟩
    obtain ⟨types, rfl⟩ := Prod.mk.inj equal
    rwa [injective _ _ types]
  · intro gives
    exact ⟨_, gives, rfl⟩

theorem parsesType_name {name : String} (start : p.tokens = .plain (.identifier name) :: tokens) :
    ParsesType inside p type after ↔
      if startsTypeArguments (parseDottedRest tokens p.eatToken).2.tokens then
        ∃ args, type = .genericInstance ⟨name, (parseDottedRest tokens p.eatToken).1⟩ args ∧
          ParsesTypeArguments inside (parseDottedRest tokens p.eatToken).2 args after
      else type = .name ⟨name, (parseDottedRest tokens p.eatToken).1⟩ ∧
        after = (parseDottedRest tokens p.eatToken).2 := by
  split
  · next starts =>
    have same fuel : parseType inside (fuel + 1) p =
        (parseTypeArguments inside fuel (parseDottedRest tokens p.eatToken).2).map fun result =>
          (.genericInstance ⟨name, (parseDottedRest tokens p.eatToken).1⟩ result.1, result.2) := by
      simp [parseType, start, starts]
    rw [ParsesType, gives_succ_iff same,
      gives_map_iff fun fuel => (keepsResults inside fuel).typeArguments _]
    constructor
    · rintro ⟨⟨args, place⟩, gives, equal⟩
      obtain ⟨rfl, rfl⟩ := Prod.mk.inj equal
      exact ⟨args, rfl, gives⟩
    · rintro ⟨args, rfl, gives⟩
      exact ⟨_, gives, rfl⟩
  · next stays =>
    have same fuel : parseType inside (fuel + 1) p =
        some (.name ⟨name, (parseDottedRest tokens p.eatToken).1⟩, (parseDottedRest tokens p.eatToken).2) := by
      simp [parseType, start, stays]
    rw [ParsesType, gives_succ_iff same, gives_some_iff, Prod.mk.injEq]

theorem parsesType_fixedArray {capacity wanted : Parsing.Expr}
    (start : p.tokens = .plain .openBracket :: tokens) (notSlice : tokens.head? ≠ some (.plain .closeBracket))
    (notList : tokens.head? ≠ some (.plain .doubleDot))
    (read : Gives (fun fuel => parseCapacity fuel p.eatToken) (capacity, q))
    (closed : q.peek = some (.plain .closeBracket)) :
    ParsesType inside p (.fixedArray wanted inner) after ↔ wanted = capacity ∧ ParsesType inside q.eatToken inner after := by
  have same fuel : parseType inside (fuel + 1) p = (parseCapacity fuel p.eatToken).bind fun found =>
      if found.2.peek = some (.plain .closeBracket) then
        (parseType inside fuel found.2.eatToken).map fun result => (.fixedArray found.1 result.1, result.2)
      else none := by
    rw [parseType, start]
    cases tokens with
    | nil => rfl
    | cons token tokens =>
      simp only [List.head?_cons, ne_eq, Option.some.injEq] at notSlice notList
      simp [notSlice, notList]
  have risesAfter (found : Parsing.Expr × Parser) : Rises fun fuel =>
      if found.2.peek = some (.plain .closeBracket) then
        (parseType inside fuel found.2.eatToken).map fun result => (Ty.fixedArray found.1 result.1, result.2)
      else none := by
    intro fuel
    dsimp only
    split
    · exact keeps_map ((keepsResults inside fuel).type _)
    · exact fun _ => id
  rw [ParsesType, gives_succ_iff same, gives_bind_iff (rises_parseCapacity _) risesAfter]
  constructor
  · rintro ⟨found, readAgain, gives⟩
    obtain rfl := readAgain.unique read
    simp only [closed, if_true] at gives
    obtain ⟨⟨elem, place⟩, gives, equal⟩ := (gives_map_iff rises_parseType).mp gives
    obtain ⟨types, rfl⟩ := Prod.mk.inj equal
    obtain ⟨rfl, rfl⟩ := Ty.fixedArray.inj types
    exact ⟨rfl, gives⟩
  · rintro ⟨rfl, gives⟩
    refine ⟨_, read, ?_⟩
    simp only [closed, if_true]
    exact (gives_map_iff rises_parseType).mpr ⟨_, gives, rfl⟩

end Types

section Functions

variable {inside : Bool} {p after : Parser} {tokens : List Token} {types returnTypes : TyList} {fields : Fields}
  {type : Ty} {scope : List String}

theorem rises_functionReturnTypes : Rises fun fuel => parseFunctionReturnTypes inside fuel p :=
  fun fuel => (keepsResults inside fuel).functionReturnTypes p

theorem parsesType_openParen (start : p.tokens = .plain .openParen :: tokens) :
    ParsesType inside p type after ↔
      if startsDeclaration tokens then
        ∃ fields returnTypes middle, type = .namedFunction fields returnTypes ∧
          ParsesParameters inside p.eatToken [] fields middle ∧
          Gives (fun fuel => parseFunctionReturnTypes inside fuel middle) (returnTypes, after)
      else
        ∃ types returnTypes middle, type = .function types returnTypes ∧
          ParsesUnnamedParameters inside p.eatToken types middle ∧
          Gives (fun fuel => parseFunctionReturnTypes inside fuel middle) (returnTypes, after) := by
  split
  · next named =>
    have same fuel : parseType inside (fuel + 1) p =
        (parseParameters inside fuel [] p.eatToken).bind fun found =>
          (parseFunctionReturnTypes inside fuel found.2).map fun result =>
            (.namedFunction found.1 result.1, result.2) := by
      simp [parseType, start, named]
    rw [ParsesType, gives_succ_iff same]
    refine (gives_bind_map_iff (fun fuel => (keepsResults inside fuel).parameters _ _)
      fun found => (rises_functionReturnTypes : Rises fun fuel => parseFunctionReturnTypes inside fuel found.2)).trans ?_
    constructor
    · rintro ⟨⟨fields, middle⟩, ⟨returnTypes, place⟩, gives, givesReturns, equal⟩
      obtain ⟨rfl, rfl⟩ := Prod.mk.inj equal
      exact ⟨fields, returnTypes, middle, rfl, gives, givesReturns⟩
    · rintro ⟨fields, returnTypes, middle, rfl, gives, givesReturns⟩
      exact ⟨_, _, gives, givesReturns, rfl⟩
  · next unnamed =>
    have same fuel : parseType inside (fuel + 1) p =
        (parseUnnamedParameters inside fuel p.eatToken).bind fun found =>
          (parseFunctionReturnTypes inside fuel found.2).map fun result =>
            (.function found.1 result.1, result.2) := by
      simp [parseType, start, unnamed]
    rw [ParsesType, gives_succ_iff same]
    refine (gives_bind_map_iff (fun fuel => (keepsResults inside fuel).unnamedParameters _)
      fun found => (rises_functionReturnTypes : Rises fun fuel => parseFunctionReturnTypes inside fuel found.2)).trans ?_
    constructor
    · rintro ⟨⟨types, middle⟩, ⟨returnTypes, place⟩, gives, givesReturns, equal⟩
      obtain ⟨rfl, rfl⟩ := Prod.mk.inj equal
      exact ⟨types, returnTypes, middle, rfl, gives, givesReturns⟩
    · rintro ⟨types, returnTypes, middle, rfl, gives, givesReturns⟩
      exact ⟨_, _, gives, givesReturns, rfl⟩

theorem parsesType_struct (start : p.tokens = .struct_ :: .openBrace :: tokens) :
    ParsesType inside p type after ↔
      ∃ members, type = .anonymousStruct members ∧ ParsesMembers inside p.eatToken.eatToken [] members after := by
  have same fuel : parseType inside (fuel + 1) p =
      (parseMembers inside fuel [] p.eatToken.eatToken).map fun result => (.anonymousStruct result.1, result.2) := by
    simp [parseType, start]
  rw [ParsesType, gives_succ_iff same, gives_map_iff fun fuel => (keepsResults inside fuel).members _ _]
  constructor
  · rintro ⟨⟨members, place⟩, gives, equal⟩
    obtain ⟨rfl, rfl⟩ := Prod.mk.inj equal
    exact ⟨members, rfl, gives⟩
  · rintro ⟨members, rfl, gives⟩
    exact ⟨_, gives, rfl⟩

end Functions

section Lists

variable {inside wrapped : Bool} {p after : Parser} {tokens : List Token} {types : TyList} {fields : Fields}
  {scope : List String}

/-- Behind the '>', which may be the first half of a '>>' or the second. -/
def closeTypeArguments (p : Parser) : Option Parser :=
  match p.peek with
  | some (.plain (.operator .greaterThan)) => some p.eatToken
  | some (.plain (.operator .bitwiseShiftRight)) =>
    if p.splitShiftRightToken = p.currentTokenIndex + 1 then some { p.eatToken with splitShiftRightToken := 0 }
    else some { p with splitShiftRightToken := p.currentTokenIndex + 1 }
  | _ => none

theorem parsesTypeArguments_iff (start : p.peek = some (.plain (.operator .lessThan))) :
    ParsesTypeArguments inside p types after ↔ ParsesTypeArgumentList inside p.eatToken types after := by
  refine gives_succ_iff fun fuel => ?_
  rw [parseTypeArguments, if_pos start]

theorem parsesTypeArgumentList_iff :
    ParsesTypeArgumentList inside p types after ↔
      ∃ arg middle, ParsesType inside p arg middle ∧
        ((middle.peek = some (.plain .comma) ∧
            ∃ args, types = .cons arg args ∧ ParsesTypeArgumentList inside middle.eatToken args after) ∨
          (types = .cons arg .nil ∧ closeTypeArguments middle = some after)) := by
  constructor
  · intro gives
    obtain ⟨fuel, found⟩ := gives.exists_succ
    obtain ⟨⟨arg, middle⟩, first, found⟩ := Option.bind_eq_some_iff.mp found
    refine ⟨arg, middle, rises_parseType.gives first, ?_⟩
    dsimp only at found
    split at found
    · next comma =>
      obtain ⟨⟨args, place⟩, others, equal⟩ := Option.map_eq_some_iff.mp found
      obtain ⟨rfl, rfl⟩ := Prod.mk.inj equal
      exact .inl ⟨comma, args, rfl, Rises.gives (fun fuel => (keepsResults inside fuel).typeArgumentList _) others⟩
    · next close =>
      obtain ⟨rfl, rfl⟩ := Prod.mk.inj (Option.some.inj found)
      exact .inr ⟨rfl, by rw [closeTypeArguments, close]⟩
    · next close =>
      by_cases half : middle.splitShiftRightToken = middle.currentTokenIndex + 1
      · rw [if_pos half] at found
        obtain ⟨rfl, rfl⟩ := Prod.mk.inj (Option.some.inj found)
        refine .inr ⟨rfl, ?_⟩
        rw [closeTypeArguments, close]
        exact if_pos half
      · rw [if_neg half] at found
        obtain ⟨rfl, rfl⟩ := Prod.mk.inj (Option.some.inj found)
        refine .inr ⟨rfl, ?_⟩
        rw [closeTypeArguments, close]
        exact if_neg half
    · cases found
  · rintro ⟨arg, middle, first, rest⟩
    refine Gives.step (first.bind _ ?_) fun fuel => rfl
    rcases rest with ⟨comma, args, rfl, others⟩ | ⟨rfl, close⟩
    · simp only [comma]
      exact others.map fun result => (TyList.cons arg result.1, result.2)
    · rw [closeTypeArguments] at close
      split at close
      · next peeked =>
        obtain rfl := Option.some.inj close
        simp only [peeked]
        exact Gives.of_eq fun _ => rfl
      · next peeked =>
        simp only [peeked]
        split at close <;> obtain rfl := Option.some.inj close
        · next half => exact Gives.of_eq fun _ => if_pos half
        · next whole => exact Gives.of_eq fun _ => if_neg whole
      · cases close

theorem parsesUnnamedParameters_iff :
    ParsesUnnamedParameters inside p types after ↔
      if p.peek = some (.plain .closeParen) then types = .nil ∧ after = p.eatToken
      else ParsesUnnamedParameter inside p types after := by
  split
  · next closed =>
    have same fuel : parseUnnamedParameters inside (fuel + 1) p = some (.nil, p.eatToken) := by
      rw [parseUnnamedParameters, if_pos closed]
    rw [ParsesUnnamedParameters, gives_succ_iff same, gives_some_iff, Prod.mk.injEq]
  · next more =>
    refine gives_succ_iff fun fuel => ?_
    rw [parseUnnamedParameters, if_neg more]

theorem parsesUnnamedParameter_iff :
    ParsesUnnamedParameter inside p types after ↔
      ∃ type middle, ParsesType inside p type middle ∧
        ((middle.peek = some (.plain .comma) ∧
            ∃ others, types = .cons type others ∧ ParsesUnnamedParameter inside middle.eatToken others after) ∨
          (middle.peek = some (.plain .closeParen) ∧ types = .cons type .nil ∧ after = middle.eatToken)) := by
  constructor
  · intro gives
    obtain ⟨fuel, found⟩ := gives.exists_succ
    obtain ⟨⟨type, middle⟩, first, found⟩ := Option.bind_eq_some_iff.mp found
    refine ⟨type, middle, rises_parseType.gives first, ?_⟩
    dsimp only at found
    split at found
    · next close =>
      obtain ⟨rfl, rfl⟩ := Prod.mk.inj (Option.some.inj found)
      exact .inr ⟨close, rfl, rfl⟩
    · next comma =>
      obtain ⟨⟨others, place⟩, more, equal⟩ := Option.map_eq_some_iff.mp found
      obtain ⟨rfl, rfl⟩ := Prod.mk.inj equal
      exact .inl ⟨comma, others, rfl, Rises.gives (fun fuel => (keepsResults inside fuel).unnamedParameter _) more⟩
    · cases found
  · rintro ⟨type, middle, first, rest⟩
    refine Gives.step (first.bind _ ?_) fun fuel => rfl
    rcases rest with ⟨comma, others, rfl, more⟩ | ⟨close, rfl, rfl⟩
    · simp only [comma]
      exact more.map fun result => (TyList.cons type result.1, result.2)
    · simp only [close]
      exact Gives.of_eq fun _ => rfl

/-- A declaration of one name, as it is printed. -/
theorem parsesDeclaration_iff {name : String} {declared : List String × Ty} {grown : List String}
    (start : p.tokens = .plain (.identifier name) :: .colon :: tokens) :
    Gives (fun fuel => parseDeclaration inside fuel scope p) (declared, grown, after) ↔
      ∃ type, declared = ([name], type) ∧ addDeclarationToScope scope [name] = some grown ∧
        ParsesType inside p.eatToken.eatToken type after := by
  have colon : p.eatToken.peek = some .colon := by rw [Parser.eatToken, Parser.peek, start]; rfl
  have same fuel : parseDeclaration inside (fuel + 1) scope p =
      (parseType inside fuel p.eatToken.eatToken).bind fun found =>
        (addDeclarationToScope scope [name]).map fun scope => (([name], found.1), scope, found.2) := by
    rw [parseDeclaration, start, parseIdentifiers, Option.bind_some]
    · exact if_pos colon
    · exact fun _ equal => absurd (List.cons.inj equal).1 (by decide)
  constructor
  · intro gives
    obtain ⟨fuel, found⟩ := ((gives_succ_iff same).mp gives).exists_fuel
    obtain ⟨⟨type, middle⟩, first, found⟩ := Option.bind_eq_some_iff.mp found
    obtain ⟨scope', added, equal⟩ := Option.map_eq_some_iff.mp found
    obtain ⟨rfl, places⟩ := Prod.mk.inj equal
    obtain ⟨rfl, rfl⟩ := Prod.mk.inj places
    exact ⟨type, rfl, added, rises_parseType.gives first⟩
  · rintro ⟨type, rfl, added, gives⟩
    refine Gives.step (gives.bind _ ?_) same
    simp only [added, Option.map_some]
    exact Gives.of_eq fun _ => rfl

theorem parsesParameters_iff {name : String} (start : p.tokens = .plain (.identifier name) :: .colon :: tokens) :
    ParsesParameters inside p scope fields after ↔
      ∃ type middle grown, addDeclarationToScope scope [name] = some grown ∧
        ParsesType inside p.eatToken.eatToken type middle ∧
        ((middle.peek = some (.plain .comma) ∧
            ∃ others, fields = .cons name type others ∧
              ParsesParameters inside middle.eatToken grown others after) ∨
          (middle.peek = some (.plain .closeParen) ∧ fields = .cons name type .nil ∧ after = middle.eatToken)) := by
  constructor
  · intro gives
    obtain ⟨fuel, found⟩ := gives.exists_succ
    obtain ⟨⟨declared, grown, middle⟩, first, found⟩ := Option.bind_eq_some_iff.mp found
    have first := Rises.gives (fun fuel => (keepsResults inside fuel).declaration _ _) first
    obtain ⟨type, rfl, added, gives⟩ := (parsesDeclaration_iff start).mp first
    refine ⟨type, middle, grown, added, gives, ?_⟩
    dsimp only at found
    split at found
    · next close =>
      obtain ⟨rfl, rfl⟩ := Prod.mk.inj (Option.some.inj found)
      exact .inr ⟨close, rfl, rfl⟩
    · next comma =>
      obtain ⟨⟨others, place⟩, more, equal⟩ := Option.map_eq_some_iff.mp found
      obtain ⟨rfl, rfl⟩ := Prod.mk.inj equal
      exact .inl ⟨comma, others, rfl, Rises.gives (fun fuel => (keepsResults inside fuel).parameters _ _) more⟩
    · cases found
  · rintro ⟨type, middle, grown, added, gives, rest⟩
    have first := (parsesDeclaration_iff start).mpr ⟨type, rfl, added, gives⟩
    refine Gives.step (first.bind _ ?_) fun fuel => rfl
    rcases rest with ⟨comma, others, rfl, more⟩ | ⟨close, rfl, rfl⟩
    · simp only [comma]
      exact more.map fun result => (Fields.declared [name] type result.1, result.2)
    · simp only [close]
      exact Gives.of_eq fun _ => rfl

theorem parsesMembers_iff {name : String} (start : p.tokens = .plain (.identifier name) :: .colon :: tokens) :
    ParsesMembers inside p scope fields after ↔
      ∃ type middle grown others, addDeclarationToScope scope [name] = some grown ∧
        ParsesType inside p.eatToken.eatToken type middle ∧ middle.peek = some .semicolon ∧
        fields = .cons name type others ∧ ParsesMembers inside middle.eatToken grown others after := by
  have notClosed : p.peek ≠ some .closeBrace := by simp [Parser.peek, start]
  have declares : startsDeclaration p.tokens := by rw [start]; rfl
  constructor
  · intro gives
    obtain ⟨fuel, found⟩ := gives.exists_succ
    rw [parseMembers, if_neg notClosed, if_pos declares] at found
    obtain ⟨⟨declared, grown, middle⟩, first, found⟩ := Option.bind_eq_some_iff.mp found
    have first := Rises.gives (fun fuel => (keepsResults inside fuel).declaration _ _) first
    obtain ⟨type, rfl, added, typeGives⟩ := (parsesDeclaration_iff start).mp first
    dsimp only at found
    split at found
    · next semicolon =>
      obtain ⟨⟨others, place⟩, more, equal⟩ := Option.map_eq_some_iff.mp found
      obtain ⟨rfl, rfl⟩ := Prod.mk.inj equal
      exact ⟨type, middle, grown, others, added, typeGives, semicolon, rfl,
        Rises.gives (fun fuel => (keepsResults inside fuel).members _ _) more⟩
    · cases found
  · rintro ⟨type, middle, grown, others, added, gives, semicolon, rfl, more⟩
    have first := (parsesDeclaration_iff start).mpr ⟨type, rfl, added, gives⟩
    refine Gives.step (first.bind (fun fuel found => if found.2.2.peek = some .semicolon then
      (parseMembers inside fuel found.2.1 found.2.2.eatToken).map fun result =>
        (Fields.declared found.1.1 found.1.2 result.1, result.2) else none) ?_) fun fuel => ?_
    · simp only [semicolon, if_true]
      exact more.map fun result => (Fields.declared [name] type result.1, result.2)
    · rw [parseMembers, if_neg notClosed, if_pos declares]

theorem parsesMembers_closed (closed : p.peek = some .closeBrace) :
    ParsesMembers inside p scope fields after ↔ fields = .nil ∧ after = p.eatToken := by
  have same fuel : parseMembers inside (fuel + 1) scope p = some (.nil, p.eatToken) := by
    rw [parseMembers, if_pos closed]
  rw [ParsesMembers, gives_succ_iff same, gives_some_iff, Prod.mk.injEq]

theorem givesFunctionReturnTypes_iff (arrow : p.peek = some .rightArrow) :
    Gives (fun fuel => parseFunctionReturnTypes inside fuel p) (types, after) ↔
      ParsesReturnTypes inside p.eatToken false types after := by
  refine gives_succ_iff fun fuel => ?_
  rw [parseFunctionReturnTypes, if_pos arrow]

theorem parsesReturnTypes_iff :
    ParsesReturnTypes inside p wrapped types after ↔
      if p.peek = some (.plain .openParen) ∧ wrapped = false then ParsesReturnType inside p.eatToken true types after
      else ParsesReturnType inside p wrapped types after := by
  split
  · next opened =>
    refine gives_succ_iff fun fuel => ?_
    rw [parseReturnTypes, if_pos opened]
  · next bare =>
    refine gives_succ_iff fun fuel => ?_
    rw [parseReturnTypes, if_neg bare]

/-- Another return type follows. -/
def GoesOn (inside wrapped : Bool) (p : Parser) : Prop :=
  p.peek = some (.plain .comma) ∧ ¬ (inside = true ∧ wrapped = false)

theorem parsesReturnType_iff :
    ParsesReturnType inside p wrapped types after ↔
      ∃ type middle, ParsesType inside p type middle ∧
        ((GoesOn inside wrapped middle ∧
            ∃ others, types = .cons type others ∧ ParsesReturnTypes inside middle.eatToken wrapped others after) ∨
          (¬ GoesOn inside wrapped middle ∧ types = .cons type .nil ∧
            after = if middle.peek = some (.plain .closeParen) ∧ wrapped then middle.eatToken else middle)) := by
  constructor
  · intro gives
    obtain ⟨fuel, found⟩ := gives.exists_succ
    obtain ⟨⟨type, middle⟩, first, found⟩ := Option.bind_eq_some_iff.mp found
    refine ⟨type, middle, rises_parseType.gives first, ?_⟩
    dsimp only at found
    split at found
    · next comma =>
      split at found
      · next stays =>
        obtain ⟨rfl, rfl⟩ := Prod.mk.inj (Option.some.inj found)
        exact .inr ⟨fun goes => goes.2 stays, rfl, by simp [comma]⟩
      · next goes =>
        obtain ⟨⟨others, place⟩, more, equal⟩ := Option.map_eq_some_iff.mp found
        obtain ⟨rfl, rfl⟩ := Prod.mk.inj equal
        exact .inl ⟨⟨comma, goes⟩, others, rfl,
          Rises.gives (fun fuel => (keepsResults inside fuel).returnTypes _ _) more⟩
    · next close =>
      obtain ⟨rfl, rfl⟩ := Prod.mk.inj (Option.some.inj found)
      exact .inr ⟨by simp [GoesOn, close], rfl, by simp [close]⟩
    · next notComma notClose =>
      obtain ⟨rfl, rfl⟩ := Prod.mk.inj (Option.some.inj found)
      exact .inr ⟨fun goes => notComma goes.1, rfl, by rw [if_neg fun both => notClose both.1]⟩
  · rintro ⟨type, middle, first, rest⟩
    refine Gives.step (first.bind _ ?_) fun fuel => rfl
    rcases rest with ⟨⟨comma, goes⟩, others, rfl, more⟩ | ⟨ends, rfl, rfl⟩
    · simp only [comma, goes, if_false]
      exact more.map fun result => (TyList.cons type result.1, result.2)
    · refine Gives.of_eq fun fuel => ?_
      dsimp only
      split
      · next comma => rw [if_pos (not_not.mp fun goes => ends ⟨comma, goes⟩)]; simp [comma]
      · next close => simp [close]
      · next notComma notClose => rw [if_neg fun both => notClose both.1]

end Lists

end Saad.TypeSyntax
