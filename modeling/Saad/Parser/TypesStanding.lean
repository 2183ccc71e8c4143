import Saad.Parser.TypeRules

/-! # Standing at printed types

A printed type is read back exactly when nothing behind it goes on with it, its lists of type arguments pass the
scan, and its function types are not cut short.
-/

namespace Saad.TypeSyntax

open General
open Parsing (DottedName minPrecedence getOperatorPrecedence)

section Conditions

/-- The scan finds a list of type arguments. -/
def StartsTypeArguments (printed : List Printed) : Prop :=
  printed.head? = some (plain (.operator .lessThan)) ∧ (walk Printed.depthChange 0 printed).isSome

/-- Its print starts with a parenthesis. -/
def Ty.isFunction : Ty → Bool
  | .function .. | .namedFunction .. => true
  | _ => false

/-- What follows the return types of a function type. -/
def behindReturnTypes : TyList → List Printed → List Printed
  | .cons _ .nil, rest => rest
  | _, rest => plain .closeParen :: rest

/-- One return type stands without parentheses. It is not a function type, as that starts with one, and no
comma follows it, but where a parameter list says that commas are its own. -/
def ReturnsAlone (inside : Bool) : TyList → List Printed → Prop
  | .cons type .nil, rest => type.isFunction = false ∧ (inside = true ∨ rest.head? ≠ some (plain .comma))
  | _, _ => True

mutual

/-- The print of the type is read back in front of the rest. -/
def Ty.ReadsBack (inside : Bool) : Ty → List Printed → Prop
  | .name _, rest =>
    (∀ name more, rest ≠ plain .dot :: plain (.identifier name) :: more) ∧ ¬ StartsTypeArguments rest
  | .genericInstance _ args, rest =>
    StartsTypeArguments (plain (.operator .lessThan) :: (args.print ++ .closing :: rest)) ∧
      args.ReadBack inside (.closing :: rest)
  | .optional inner, rest => inner.ReadsBack inside rest
  | .pointer pointee, rest => pointee.ReadsBack inside rest
  | .slice elem, rest => elem.ReadsBack inside rest
  | .dynamicArray elem, rest => elem.ReadsBack inside rest
  | .fixedArray _ elem, rest => elem.ReadsBack inside rest
  | .function parameters returnTypes, rest =>
    parameters.ReadBack inside
        (plain .closeParen :: .token .rightArrow :: (returnTypesOf returnTypes returnTypes.print ++ rest)) ∧
      returnTypes.ReadBack inside (behindReturnTypes returnTypes rest) ∧ ReturnsAlone inside returnTypes rest
  | .namedFunction parameters returnTypes, rest =>
    parameters.ParametersReadBack inside
        (plain .closeParen :: .token .rightArrow :: (returnTypesOf returnTypes returnTypes.print ++ rest)) ∧
      returnTypes.ReadBack inside (behindReturnTypes returnTypes rest) ∧ ReturnsAlone inside returnTypes rest
  | .anonymousStruct members, rest => members.MembersReadBack inside (.token .closeBrace :: rest)
  | _, _ => True

def TyList.ReadBack (inside : Bool) : TyList → List Printed → Prop
  | .nil, _ => True
  | .cons head .nil, rest => head.ReadsBack inside rest
  | .cons head tail, rest =>
    head.ReadsBack inside (plain .comma :: (tail.print ++ rest)) ∧ tail.ReadBack inside rest

def Fields.ParametersReadBack (inside : Bool) : Fields → List Printed → Prop
  | .nil, _ => True
  | .cons _ type .nil, rest => type.ReadsBack inside rest
  | .cons _ type tail, rest =>
    type.ReadsBack inside (plain .comma :: (tail.printParameters ++ rest)) ∧ tail.ParametersReadBack inside rest

def Fields.MembersReadBack (inside : Bool) : Fields → List Printed → Prop
  | .nil, _ => True
  | .cons _ type tail, rest =>
    type.ReadsBack inside (.token .semicolon :: (tail.printMembers ++ rest)) ∧ tail.MembersReadBack inside rest

end

/-- No name is declared twice, but '_'. -/
def Fresh (scope names : List String) : Prop :=
  (names.filter (· ≠ "_")).Nodup ∧ ∀ name ∈ names, name ≠ "_" → name ∉ scope

/-- The size is an expression that is read back in front of the closing bracket. -/
def SizeReads (capacity : Parsing.Expr) : Prop :=
  ∀ tokens index split, split ≤ index →
    ∃ after, after.tokens = .closeBracket :: tokens ∧ after.splitShiftRightToken ≤ after.currentTokenIndex ∧
      Gives (fun fuel => Parsing.parseExpression fuel minPrecedence
        ⟨capacity.print (getOperatorPrecedence .dot) ++ .closeBracket :: tokens, index, split⟩) (capacity, after)

mutual

/-- Lists of type arguments, return types and named parameters have something in them. -/
def Ty.Formed : Ty → Prop
  | .genericInstance _ args => args ≠ .nil ∧ args.Formed
  | .optional inner => inner.Formed
  | .pointer pointee => pointee.Formed
  | .slice elem => elem.Formed
  | .dynamicArray elem => elem.Formed
  | .fixedArray capacity elem => SizeReads capacity ∧ elem.Formed
  | .function parameters returnTypes => parameters.Formed ∧ returnTypes ≠ .nil ∧ returnTypes.Formed
  | .namedFunction parameters returnTypes =>
    parameters ≠ .nil ∧ Fresh [] parameters.names ∧ parameters.Formed ∧ returnTypes ≠ .nil ∧ returnTypes.Formed
  | .anonymousStruct members => Fresh [] members.names ∧ members.Formed
  | _ => True

def TyList.Formed : TyList → Prop
  | .nil => True
  | .cons head tail => head.Formed ∧ tail.Formed

def Fields.Formed : Fields → Prop
  | .nil => True
  | .cons _ type tail => type.Formed ∧ tail.Formed

end

end Conditions

section Standing

/-- The tokens from the current one on are the printed ones, with no '>>' half eaten. -/
structure At (printed : List Printed) (p : Parser) : Prop where
  written : WrittenAs printed p.tokens
  whole : p.splitShiftRightToken ≤ p.currentTokenIndex

/-- The first '>' of the current '>>' is eaten. -/
structure Half (printed : List Printed) (p : Parser) : Prop where
  half : p.splitShiftRightToken = p.currentTokenIndex + 1
  written : ∃ rest tokens, printed = .closing :: rest ∧
    p.tokens = .plain (.operator .bitwiseShiftRight) :: tokens ∧ WrittenAs rest tokens

def Stands (printed : List Printed) (p : Parser) : Prop := At printed p ∨ Half printed p

variable {rest printed : List Printed} {p after : Parser} {token : Token} {tokens : List Token}

theorem writtenAs_token_iff : WrittenAs (.token token :: rest) tokens ↔
    ∃ more, tokens = token :: more ∧ WrittenAs rest more := by
  constructor
  · intro written
    cases written with
    | token written => exact ⟨_, rfl, written⟩
  · rintro ⟨more, rfl, written⟩
    exact .token written

theorem WrittenAs.append {more : List Printed} {others : List Token} (written : WrittenAs printed tokens)
    (after : WrittenAs more others) : WrittenAs (printed ++ more) (tokens ++ others) := by
  induction written with
  | nil => exact after
  | token _ ih => exact .token ih
  | greaterThan _ ih => exact .greaterThan ih
  | shiftRight _ ih => exact .shiftRight ih

theorem writtenAs_map_token (tokens : List Token) : WrittenAs (tokens.map .token) tokens := by
  induction tokens with
  | nil => exact .nil
  | cons token tokens ih => exact .token ih

theorem At.eat (at_ : At (.token token :: rest) p) : p.peek = some token ∧ At rest p.eatToken := by
  obtain ⟨more, tokens, written⟩ := writtenAs_token_iff.mp at_.written
  refine ⟨by rw [Parser.peek, tokens, List.head?_cons], ?_, ?_⟩
  · rwa [Parser.eatToken, tokens]
  · exact Nat.le_succ_of_le at_.whole

theorem At.tokens_eq (at_ : At (.token token :: rest) p) : p.tokens = token :: p.eatToken.tokens := by
  obtain ⟨more, tokens, _⟩ := writtenAs_token_iff.mp at_.written
  rw [Parser.eatToken, tokens, List.tail_cons]

theorem At.tokens_eq₂ {next : Token} (at_ : At (.token token :: .token next :: rest) p) :
    p.tokens = token :: next :: p.eatToken.eatToken.tokens := by
  rw [at_.tokens_eq, at_.eat.2.tokens_eq]

theorem Stands.at_ (stands : Stands (.token token :: rest) p) : At (.token token :: rest) p := by
  rcases stands with at_ | half
  · exact at_
  · obtain ⟨_, _, equal, _⟩ := half.written
    cases equal

theorem Stands.peek_iff (stands : Stands printed p) (notGreater : token ≠ .plain (.operator .greaterThan))
    (notShift : token ≠ .plain (.operator .bitwiseShiftRight)) :
    p.peek = some token ↔ printed.head? = some (.token token) := by
  rcases stands with at_ | half
  · have written := at_.written
    rw [Parser.peek]
    generalize p.tokens = tokens at written
    cases written <;> simp [notGreater.symm, notShift.symm]
  · obtain ⟨more, tokens, rfl, start, _⟩ := half.written
    simp [Parser.peek, start, notShift.symm]

/-- The end of a list of type arguments is eaten, as one token or as half of one. -/
theorem Stands.close (stands : Stands (.closing :: rest) p) :
    ∃ after, closeTypeArguments p = some after ∧ Stands rest after := by
  rcases stands with at_ | half
  · have whole := at_.whole
    obtain ⟨tokens, written⟩ : ∃ tokens, p.tokens = tokens ∧ WrittenAs (.closing :: rest) tokens :=
      ⟨_, rfl, at_.written⟩
    cases written.2 with
    | @greaterThan _ more written' =>
      have peeked : p.peek = some (.plain (.operator .greaterThan)) := by rw [Parser.peek, written.1, List.head?_cons]
      refine ⟨p.eatToken, by rw [closeTypeArguments, peeked], .inl ⟨?_, Nat.le_succ_of_le whole⟩⟩
      rwa [Parser.eatToken, written.1]
    | @shiftRight more tokens written' =>
      have peeked : p.peek = some (.plain (.operator .bitwiseShiftRight)) := by
        rw [Parser.peek, written.1, List.head?_cons]
      have notHalf : p.splitShiftRightToken ≠ p.currentTokenIndex + 1 := by omega
      refine ⟨{ p with splitShiftRightToken := p.currentTokenIndex + 1 }, ?_, .inr ⟨rfl, _, _, rfl, written.1, written'⟩⟩
      rw [closeTypeArguments, peeked]
      exact if_neg notHalf
  · obtain ⟨more, tokens, equal, start, written⟩ := half.written
    obtain ⟨-, rfl⟩ := List.cons.inj equal
    have peeked : p.peek = some (.plain (.operator .bitwiseShiftRight)) := by rw [Parser.peek, start, List.head?_cons]
    refine ⟨{ p.eatToken with splitShiftRightToken := 0 }, ?_, .inl ⟨?_, Nat.zero_le _⟩⟩
    · rw [closeTypeArguments, peeked]
      exact if_pos half.half
    · rwa [Parser.eatToken, start]

theorem closing_depthChange : Printed.closing.depthChange = some (-1) := rfl

theorem greaterThan_depthChange : (Token.plain (.operator .greaterThan)).depthChange = some (-1) := rfl

theorem shiftRight_depthChange : (Token.plain (.operator .bitwiseShiftRight)).depthChange = some (-2) := rfl

/-- A '>>' ends the walk over the tokens where its first half or its second ends the one over what is printed. -/
theorem walk_isSome_of_writtenAs (written : WrittenAs printed tokens) (sum : ℤ) :
    (walk Token.depthChange sum tokens).isSome ↔ (walk Printed.depthChange sum printed).isSome := by
  induction written generalizing sum with
  | nil => exact Iff.rfl
  | @token token printed tokens _ ih =>
    rw [walk, walk, Printed.depthChange]
    cases token.depthChange with
    | none => exact Iff.rfl
    | some by_ =>
      simp only [Option.bind_some]
      split
      · exact Iff.rfl
      · exact ih _
  | @greaterThan printed tokens _ ih =>
    rw [walk_cons greaterThan_depthChange, walk_cons closing_depthChange]
    split
    · exact Iff.rfl
    · exact ih _
  | @shiftRight printed tokens _ ih =>
    rw [walk_cons shiftRight_depthChange, walk_cons closing_depthChange, walk_cons closing_depthChange]
    by_cases first : sum + -1 ≤ 0
    · rw [if_pos first, if_pos (by omega)]
      exact Iff.rfl
    · rw [if_neg first]
      have same : sum + -1 + -1 = sum + -2 := by omega
      rw [same]
      split
      · exact Iff.rfl
      · exact ih _

theorem At.startsTypeArguments_iff (at_ : At printed p) :
    startsTypeArguments p.tokens = true ↔ StartsTypeArguments printed := by
  have peeked : p.peek = some (.plain (.operator .lessThan)) ↔ printed.head? = some (plain (.operator .lessThan)) :=
    Stands.peek_iff (.inl at_) (by decide) (by decide)
  rw [startsTypeArguments, StartsTypeArguments, Bool.and_eq_true, scanTypeArguments,
    walk_isSome_of_writtenAs at_.written, beq_iff_eq]
  exact and_congr_left fun _ => peeked

theorem WrittenAs.exists_of_cons (written : WrittenAs printed (token :: tokens))
    (notGreater : token ≠ .plain (.operator .greaterThan)) (notShift : token ≠ .plain (.operator .bitwiseShiftRight)) :
    ∃ more, printed = .token token :: more ∧ WrittenAs more tokens := by
  cases written with
  | token written => exact ⟨_, rfl, written⟩
  | greaterThan => exact absurd rfl notGreater
  | shiftRight => exact absurd rfl notShift

end Standing

section Parts

variable {inside : Bool} {rest : List Printed} {p after : Parser} {tokens : List Token} {type : Ty}

/-- Nothing that follows goes on with the name. -/
theorem parseDottedRest_ends (at_ : At rest p)
    (ends : ∀ name more, rest ≠ plain .dot :: plain (.identifier name) :: more) :
    parseDottedRest p.tokens p = ([], p) := by
  rw [parseDottedRest.eq_def]
  split
  · next _ name _ start =>
    have written := at_.written
    rw [start] at written
    obtain ⟨more, rfl, written'⟩ := written.exists_of_cons (by decide) (by decide)
    obtain ⟨others, rfl, _⟩ := written'.exists_of_cons (by simp) (by simp)
    exact absurd rfl (ends name others)
  · rfl

theorem parseDottedRest_goesOn {name : String} {more : List Printed}
    (at_ : At (plain .dot :: plain (.identifier name) :: more) p) : (parseDottedRest p.tokens p).1 ≠ [] := by
  rw [at_.tokens_eq, at_.eat.2.tokens_eq, parseDottedRest]
  simp

theorem parseDottedRest_names (names : List String) {p : Parser}
    (at_ : At ((names.flatMap fun name => [plain .dot, plain (.identifier name)]) ++ rest) p) :
    ∃ q, At rest q ∧
      parseDottedRest p.tokens p = (names ++ (parseDottedRest q.tokens q).1, (parseDottedRest q.tokens q).2) := by
  induction names generalizing p with
  | nil => exact ⟨p, at_, rfl⟩
  | cons name names ih =>
    rw [List.flatMap_cons, List.append_assoc, List.cons_append, List.singleton_append] at at_
    obtain ⟨q, atRest, same⟩ := ih at_.eat.2.eat.2
    refine ⟨q, atRest, ?_⟩
    rw [at_.tokens_eq, at_.eat.2.tokens_eq, parseDottedRest, same]
    rfl

theorem print_map_plain (name : DottedName) : name.print.map plain =
    plain (.identifier name.first) :: name.rest.flatMap fun part => [plain .dot, plain (.identifier part)] := by
  rw [DottedName.print, List.map_cons, List.map_flatMap]
  rfl

/-- The name is parsed up to where the rest starts, or on into the rest. -/
theorem parsesType_printedName (inside : Bool) {name : DottedName} (at_ : At (name.print.map plain ++ rest) p) :
    ∃ q, At rest q ∧ ∀ type after, ParsesType inside p type after ↔
      if startsTypeArguments (parseDottedRest q.tokens q).2.tokens then
        ∃ args, type = .genericInstance ⟨name.first, name.rest ++ (parseDottedRest q.tokens q).1⟩ args ∧
          ParsesTypeArguments inside (parseDottedRest q.tokens q).2 args after
      else type = .name ⟨name.first, name.rest ++ (parseDottedRest q.tokens q).1⟩ ∧
        after = (parseDottedRest q.tokens q).2 := by
  rw [print_map_plain, List.cons_append] at at_
  obtain ⟨q, atRest, same⟩ := parseDottedRest_names name.rest at_.eat.2
  refine ⟨q, atRest, fun type after => ?_⟩
  rw [parsesType_name at_.tokens_eq, same]

theorem parseExpression_eq_none {tokens : List Parsing.Token} {token : Parsing.Token} (start : tokens.head? = some token)
    (bracket : token = .closeBracket ∨ token = .doubleDot) (fuel index split : ℕ) :
    Parsing.parseExpression fuel minPrecedence ⟨tokens, index, split⟩ = none := by
  obtain ⟨others, rfl⟩ := List.head?_eq_some_iff.mp start
  cases fuel with
  | zero => rfl
  | succ fuel =>
    have leaf : Parsing.parseLeaf fuel ⟨token :: others, index, split⟩ = none := by
      cases fuel with
      | zero => rfl
      | succ fuel => rcases bracket with rfl | rfl <;> rfl
    rw [Parsing.parseExpression, leaf, Option.bind_none]

theorem SizeReads.head?_ne {capacity : Parsing.Expr} (reads : SizeReads capacity) {token : Parsing.Token}
    (bracket : token = .closeBracket ∨ token = .doubleDot) (others : List Parsing.Token) :
    (capacity.print (getOperatorPrecedence .dot) ++ .closeBracket :: others).head? ≠ some token := by
  intro start
  obtain ⟨after, _, _, gives⟩ := reads others 0 0 (Nat.le_refl _)
  obtain ⟨fuel, found⟩ := gives.exists_fuel
  rw [parseExpression_eq_none start bracket] at found
  cases found

theorem plainPrefix_map_append (plains : List Parsing.Token) (tokens : List Token) :
    plainPrefix (plains.map .plain ++ tokens) = plains ++ plainPrefix tokens := by
  induction plains with
  | nil => rfl
  | cons token plains ih => rw [List.map_cons, List.cons_append, plainPrefix, ih, List.cons_append]

theorem WrittenAs.exists_of_plain {plains : List Parsing.Token} (written : WrittenAs (plains.map plain ++ rest) tokens) :
    ∃ others, tokens = plains.map .plain ++ others ∧ WrittenAs rest others := by
  induction plains generalizing tokens with
  | nil => exact ⟨tokens, rfl, written⟩
  | cons token plains ih =>
    obtain ⟨more, rfl, inner⟩ := writtenAs_token_iff.mp written
    obtain ⟨others, rfl, behind⟩ := ih inner
    exact ⟨others, rfl, behind⟩

/-- The size is read, and the closing bracket is next. -/
theorem givesCapacity {capacity : Parsing.Expr} (reads : SizeReads capacity)
    (at_ : At ((capacity.print (getOperatorPrecedence .dot)).map plain ++ plain .closeBracket :: rest) p) :
    ∃ q, At (plain .closeBracket :: rest) q ∧ Gives (fun fuel => parseCapacity fuel p) (capacity, q) := by
  obtain ⟨others, start, written⟩ := at_.written.exists_of_plain
  obtain ⟨tokens, rfl, behind⟩ := writtenAs_token_iff.mp written
  obtain ⟨after, tokensAfter, whole, gives⟩ :=
    reads (plainPrefix tokens) p.currentTokenIndex p.splitShiftRightToken at_.whole
  have plains : plainPrefix p.tokens =
      capacity.print (getOperatorPrecedence .dot) ++ .closeBracket :: plainPrefix tokens := by
    rw [start, plainPrefix_map_append, plainPrefix]
  refine ⟨⟨.plain .closeBracket :: tokens, after.currentTokenIndex, after.splitShiftRightToken⟩,
    ⟨.token behind, whole⟩, ?_⟩
  have dropped : p.tokens.drop ((plainPrefix p.tokens).length - after.tokens.length) =
      .plain .closeBracket :: tokens := by
    rw [plains, tokensAfter, List.length_append, Nat.add_sub_cancel, start]
    exact List.drop_left' (List.length_map ..)
  have found := gives.map fun result : Parsing.Expr × Parsing.Parser => (result.1,
    (⟨p.tokens.drop ((plainPrefix p.tokens).length - result.2.tokens.length), result.2.currentTokenIndex,
      result.2.splitShiftRightToken⟩ : Parser))
  simp only [dropped] at found
  refine found.congr fun fuel => ?_
  rw [parseCapacity, plains]

/-- What the first token of a type is. -/
theorem Ty.exists_print (type : Ty) : ∃ token more, type.print = .token token :: more ∧
    (token = .plain .openParen ↔ type.isFunction = true) ∧ token ≠ .plain .closeParen := by
  cases type with
  | name name => exact ⟨_, _, by rw [Ty.print, print_map_plain]; rfl, by simp [Ty.isFunction], by simp⟩
  | genericInstance name args =>
    exact ⟨_, _, by rw [Ty.print, print_map_plain, List.cons_append]; rfl, by simp [Ty.isFunction], by simp⟩
  | function => exact ⟨_, _, by rw [Ty.print]; rfl, by simp [Ty.isFunction], by simp⟩
  | namedFunction => exact ⟨_, _, by rw [Ty.print]; rfl, by simp [Ty.isFunction], by simp⟩
  | anonymousStruct => exact ⟨_, _, by rw [Ty.print], by simp [Ty.isFunction], by simp⟩
  | _ => exact ⟨_, _, by rw [Ty.print]; rfl, by simp [Ty.isFunction], by simp⟩

theorem At.peek_eq_openParen_iff (at_ : At (type.print ++ rest) p) :
    p.peek = some (.plain .openParen) ↔ type.isFunction = true := by
  obtain ⟨token, more, print, function, _⟩ := type.exists_print
  rw [print, List.cons_append] at at_
  rw [at_.eat.1, Option.some.injEq, function]

theorem At.peek_ne_closeParen (at_ : At (type.print ++ rest) p) : p.peek ≠ some (.plain .closeParen) := by
  obtain ⟨token, more, print, _, other⟩ := type.exists_print
  rw [print, List.cons_append] at at_
  rw [at_.eat.1, ne_eq, Option.some.injEq]
  exact other

/-- Only a parenthesis starts a function type. -/
theorem peek_of_parsesType (gives : ParsesType inside p type after) (function : type.isFunction = true) :
    p.peek = some (.plain .openParen) := by
  obtain ⟨fuel, found⟩ := gives.exists_succ
  rw [parseType] at found
  split at found
  case h_6 start => rw [Parser.peek, start, List.head?_cons]
  case h_5 =>
    dsimp only at found
    split at found
    · obtain ⟨result, _, equal⟩ := Option.map_eq_some_iff.mp found
      obtain rfl := (Prod.mk.inj equal).1
      exact absurd function Bool.false_ne_true
    · obtain rfl := (Prod.mk.inj (Option.some.inj found)).1
      exact absurd function Bool.false_ne_true
  case h_12 =>
    obtain ⟨capacity, _, found⟩ := Option.bind_eq_some_iff.mp found
    dsimp only at found
    split at found
    · obtain ⟨result, _, equal⟩ := Option.map_eq_some_iff.mp found
      obtain rfl := (Prod.mk.inj equal).1
      exact absurd function Bool.false_ne_true
    · cases found
  case h_1 | h_2 | h_3 =>
    obtain rfl := (Prod.mk.inj (Option.some.inj found)).1
    exact absurd function Bool.false_ne_true
  case h_4 | h_7 | h_8 | h_9 | h_11 =>
    obtain ⟨result, _, equal⟩ := Option.map_eq_some_iff.mp found
    obtain rfl := (Prod.mk.inj equal).1
    exact absurd function Bool.false_ne_true
  case h_10 | h_13 => cases found

end Parts

end Saad.TypeSyntax
