import Saad.General.Walks
import Saad.Parser.Printing

/-! # Parsing types

All types but enums and variadics, with function types and anonymous structs. The sizes of fixed arrays are
parsed as expressions. A declaration of a member or of a parameter has a type and no value.
-/

namespace Saad.TypeSyntax

open General
open Parsing (Primitive DottedName minPrecedence getOperatorPrecedence)

section Token

/-- The tokens of expressions and those that only types have. -/
inductive Token
  | plain (token : Parsing.Token)
  | rightArrow | colon | semicolon | openBrace | closeBrace | struct_
  | other
deriving DecidableEq

/-- What a token changes of the depth of lists of type arguments. None is a token that cannot be in one. -/
def Token.depthChange : Token → Option ℤ
  | .plain (.operator .lessThan) => some 1
  | .plain (.operator .greaterThan) => some (-1)
  | .plain (.operator .bitwiseShiftRight) => some (-2)
  | .plain token => if token.inTypeArguments then some 0 else none
  | .rightArrow => some 0
  | _ => none

/-- The tokens just after the matching '>', or none if the tokens cannot be a list of type arguments. -/
def scanTypeArguments (tokens : List Token) : Option (List Token) := walk Token.depthChange 0 tokens

end Token

section Syntax

mutual

/-- `?T` is the standard `Optional<T>` and `[..]T` the standard `List<T>`. -/
inductive Ty
  | primitive (type : Primitive)
  | string
  | any
  | name (name : DottedName)
  | genericInstance (name : DottedName) (typeArgs : TyList)
  | optional (inner : Ty)
  | pointer (pointerTo : Ty)
  | slice (elemType : Ty)
  | dynamicArray (elemType : Ty)
  | fixedArray (capacityExpr : Parsing.Expr) (elemType : Ty)
  /-- Only the types of the parameters e.g (T) -> U. -/
  | function (parameters returnTypes : TyList)
  | namedFunction (parameters : Fields) (returnTypes : TyList)
  | anonymousStruct (members : Fields)

inductive TyList
  | nil
  | cons (head : Ty) (tail : TyList)

/-- The names and types of parameters or of members. -/
inductive Fields
  | nil
  | cons (name : String) (type : Ty) (tail : Fields)

end

deriving instance DecidableEq for Ty, TyList, Fields

def Fields.names : Fields → List String
  | .nil => []
  | .cons name _ tail => name :: tail.names

/-- The names of one declaration with their type, in front of other declarations. -/
def Fields.declared (names : List String) (type : Ty) (tail : Fields) : Fields :=
  names.foldr (fun name fields => .cons name type fields) tail

end Syntax

section Parser

/-- The tokens from the current one on, and the flag of a '>>' whose first '>' is eaten. -/
structure Parser where
  tokens : List Token
  currentTokenIndex : ℕ := 0
  splitShiftRightToken : ℕ := 0
deriving DecidableEq

namespace Parser

def peek (p : Parser) : Option Token := p.tokens.head?

def eatToken (p : Parser) : Parser :=
  { p with tokens := p.tokens.tail, currentTokenIndex := p.currentTokenIndex + 1 }

end Parser

/-- The names behind the first one of a dotted name. -/
def parseDottedRest : List Token → Parser → List String × Parser
  | .plain .dot :: .plain (.identifier name) :: tokens, p =>
    let (names, p) := parseDottedRest tokens p.eatToken.eatToken
    (name :: names, p)
  | _, p => ([], p)

/-- An instance of a generic struct e.g List<int>. -/
def startsTypeArguments (tokens : List Token) : Bool :=
  tokens.head? == some (.plain (.operator .lessThan)) && (scanTypeArguments tokens).isSome

/-- Names with commas between them, in front of a ':'. -/
def startsDeclaration : List Token → Bool
  | .plain (.identifier _) :: .plain .comma :: tokens => startsDeclaration tokens
  | .plain (.identifier _) :: .colon :: _ => true
  | _ => false

/-- The names of a declaration. -/
def parseIdentifiers : List Token → Parser → Option (List String × Parser)
  | .plain (.identifier name) :: .plain .comma :: tokens, p =>
    (parseIdentifiers tokens p.eatToken.eatToken).map fun (names, p) => (name :: names, p)
  | .plain (.identifier name) :: _, p => some ([name], p.eatToken)
  | _, _ => none

/-- Adds the names to those of the scope. '_' can be declared any number of times. -/
def addDeclarationToScope (scope : List String) : List String → Option (List String)
  | [] => some scope
  | name :: names =>
    if name = "_" ∧ name ∈ scope then addDeclarationToScope scope names
    else if name ∈ scope then none
    else addDeclarationToScope (scope ++ [name]) names

def plainPrefix : List Token → List Parsing.Token
  | .plain token :: tokens => token :: plainPrefix tokens
  | _ => []

/-- The size of a fixed array. -/
def parseCapacity (fuel : ℕ) (p : Parser) : Option (Parsing.Expr × Parser) :=
  let tokens := plainPrefix p.tokens
  (Parsing.parseExpression fuel minPrecedence ⟨tokens, p.currentTokenIndex, p.splitShiftRightToken⟩).map
    fun (capacity, after) => (capacity,
      ⟨p.tokens.drop (tokens.length - after.tokens.length), after.currentTokenIndex, after.splitShiftRightToken⟩)

variable (insideParameterList : Bool)

mutual

/-- The flag is that of the function whose definition is parsed, if its parameter list is being parsed. The
flag of the parser is set to it at the end of each parameter list. -/
def parseType : ℕ → Parser → Option (Ty × Parser)
  | 0, _ => none
  | fuel + 1, p =>
    match p.tokens with
    | .plain (.primitive type) :: _ => some (.primitive type, p.eatToken)
    | .plain .string :: _ => some (.string, p.eatToken)
    | .plain .any :: _ => some (.any, p.eatToken)
    | .struct_ :: .openBrace :: _ =>
      (parseMembers fuel [] p.eatToken.eatToken).map fun (members, p) => (.anonymousStruct members, p)
    | .plain (.identifier name) :: tokens =>
      let (rest, p) := parseDottedRest tokens p.eatToken
      if startsTypeArguments p.tokens then
        (parseTypeArguments fuel p).map fun (typeArgs, p) => (.genericInstance ⟨name, rest⟩ typeArgs, p)
      else some (.name ⟨name, rest⟩, p)
    | .plain .openParen :: tokens =>
      if startsDeclaration tokens then
        (parseParameters fuel [] p.eatToken).bind fun (parameters, p) =>
          (parseFunctionReturnTypes fuel p).map fun (returnTypes, p) => (.namedFunction parameters returnTypes, p)
      else
        (parseUnnamedParameters fuel p.eatToken).bind fun (parameters, p) =>
          (parseFunctionReturnTypes fuel p).map fun (returnTypes, p) => (.function parameters returnTypes, p)
    | .plain .question :: _ => (parseType fuel p.eatToken).map fun (inner, p) => (.optional inner, p)
    | .plain (.operator .times) :: _ => (parseType fuel p.eatToken).map fun (pointee, p) => (.pointer pointee, p)
    | .plain .openBracket :: .plain .doubleDot :: .plain .closeBracket :: _ =>
      (parseType fuel p.eatToken.eatToken.eatToken).map fun (elem, p) => (.dynamicArray elem, p)
    | .plain .openBracket :: .plain .doubleDot :: _ => none
    | .plain .openBracket :: .plain .closeBracket :: _ =>
      (parseType fuel p.eatToken.eatToken).map fun (elem, p) => (.slice elem, p)
    | .plain .openBracket :: _ =>
      (parseCapacity fuel p.eatToken).bind fun (capacity, p) =>
        if p.peek = some (.plain .closeBracket) then
          (parseType fuel p.eatToken).map fun (elem, p) => (.fixedArray capacity elem, p)
        else none
    | _ => none

def parseTypeArguments : ℕ → Parser → Option (TyList × Parser)
  | 0, _ => none
  | fuel + 1, p =>
    if p.peek = some (.plain (.operator .lessThan)) then parseTypeArgumentList fuel p.eatToken else none

def parseTypeArgumentList : ℕ → Parser → Option (TyList × Parser)
  | 0, _ => none
  | fuel + 1, p =>
    (parseType fuel p).bind fun (arg, p) =>
      match p.peek with
      | some (.plain .comma) => (parseTypeArgumentList fuel p.eatToken).map fun (args, p) => (.cons arg args, p)
      | some (.plain (.operator .greaterThan)) => some (.cons arg .nil, p.eatToken)
      | some (.plain (.operator .bitwiseShiftRight)) =>
        -- The inner list eats the first '>' and the outer list eats the token
        if p.splitShiftRightToken = p.currentTokenIndex + 1 then
          some (.cons arg .nil, { p.eatToken with splitShiftRightToken := 0 })
        else some (.cons arg .nil, { p with splitShiftRightToken := p.currentTokenIndex + 1 })
      | _ => none

/-- The parameters of a function type with only their types, up to the closing parenthesis. -/
def parseUnnamedParameters : ℕ → Parser → Option (TyList × Parser)
  | 0, _ => none
  | fuel + 1, p =>
    if p.peek = some (.plain .closeParen) then some (.nil, p.eatToken) else parseUnnamedParameter fuel p

def parseUnnamedParameter : ℕ → Parser → Option (TyList × Parser)
  | 0, _ => none
  | fuel + 1, p =>
    (parseType fuel p).bind fun (type, p) =>
      match p.peek with
      | some (.plain .closeParen) => some (.cons type .nil, p.eatToken)
      | some (.plain .comma) => (parseUnnamedParameter fuel p.eatToken).map fun (types, p) => (.cons type types, p)
      | _ => none

def parseDeclaration : ℕ → List String → Parser → Option ((List String × Ty) × List String × Parser)
  | 0, _, _ => none
  | fuel + 1, scope, p =>
    (parseIdentifiers p.tokens p).bind fun (names, p) =>
      if p.peek = some .colon then
        (parseType fuel p.eatToken).bind fun (type, p) =>
          (addDeclarationToScope scope names).map fun scope => ((names, type), scope, p)
      else none

/-- The parameters of a function type with their names, up to the closing parenthesis. -/
def parseParameters : ℕ → List String → Parser → Option (Fields × Parser)
  | 0, _, _ => none
  | fuel + 1, scope, p =>
    (parseDeclaration fuel scope p).bind fun ((names, type), scope, p) =>
      match p.peek with
      | some (.plain .closeParen) => some (.declared names type .nil, p.eatToken)
      | some (.plain .comma) =>
        (parseParameters fuel scope p.eatToken).map fun (others, p) => (.declared names type others, p)
      | _ => none

/-- The members of an anonymous struct, up to the closing brace. -/
def parseMembers : ℕ → List String → Parser → Option (Fields × Parser)
  | 0, _, _ => none
  | fuel + 1, scope, p =>
    if p.peek = some .closeBrace then some (.nil, p.eatToken)
    else if startsDeclaration p.tokens then
      (parseDeclaration fuel scope p).bind fun ((names, type), scope, p) =>
        if p.peek = some .semicolon then
          (parseMembers fuel scope p.eatToken).map fun (others, p) => (.declared names type others, p)
        else none
    else none

def parseFunctionReturnTypes : ℕ → Parser → Option (TyList × Parser)
  | 0, _ => none
  | fuel + 1, p =>
    if p.peek = some .rightArrow then parseReturnTypes fuel false p.eatToken
    else some (.cons (.primitive .void) .nil, p)

/-- The loop over the return types, one turn with each call. -/
def parseReturnTypes : ℕ → Bool → Parser → Option (TyList × Parser)
  | 0, _, _ => none
  | fuel + 1, wrappedInParenthesis, p =>
    if p.peek = some (.plain .openParen) ∧ wrappedInParenthesis = false then parseReturnType fuel true p.eatToken
    else parseReturnType fuel wrappedInParenthesis p

def parseReturnType : ℕ → Bool → Parser → Option (TyList × Parser)
  | 0, _, _ => none
  | fuel + 1, wrappedInParenthesis, p =>
    (parseType fuel p).bind fun (type, p) =>
      match p.peek with
      | some (.plain .comma) =>
        -- The next thing will be a parameter rather than a return type
        if insideParameterList = true ∧ wrappedInParenthesis = false then some (.cons type .nil, p)
        else
          (parseReturnTypes fuel wrappedInParenthesis p.eatToken).map fun (types, p) => (.cons type types, p)
      | some (.plain .closeParen) => some (.cons type .nil, if wrappedInParenthesis then p.eatToken else p)
      | _ => some (.cons type .nil, p)

end

end Parser

section Printing

/-- A token, or the end of a list of type arguments. -/
inductive Printed
  | token (token : Token)
  | closing
deriving DecidableEq

def Printed.depthChange : Printed → Option ℤ
  | .token written => written.depthChange
  | .closing => some (-1)

/-- The ends of lists of type arguments are written as '>', or as '>>' where two are next to each other. -/
inductive WrittenAs : List Printed → List Token → Prop
  | nil : WrittenAs [] []
  | token {token printed tokens} : WrittenAs printed tokens → WrittenAs (.token token :: printed) (token :: tokens)
  | greaterThan {printed tokens} : WrittenAs printed tokens →
    WrittenAs (.closing :: printed) (.plain (.operator .greaterThan) :: tokens)
  | shiftRight {printed tokens} : WrittenAs printed tokens →
    WrittenAs (.closing :: .closing :: printed) (.plain (.operator .bitwiseShiftRight) :: tokens)

def plain (token : Parsing.Token) : Printed := .token (.plain token)

def returnTypesOf : TyList → List Printed → List Printed
  | .cons _ .nil, printed => printed
  | _, printed => plain .openParen :: (printed ++ [plain .closeParen])

mutual

def Ty.print : Ty → List Printed
  | .primitive type => [plain (.primitive type)]
  | .string => [plain .string]
  | .any => [plain .any]
  | .name name => name.print.map plain
  | .genericInstance name typeArgs =>
    name.print.map plain ++ plain (.operator .lessThan) :: (typeArgs.print ++ [.closing])
  | .optional inner => plain .question :: inner.print
  | .pointer pointee => plain (.operator .times) :: pointee.print
  | .slice elem => plain .openBracket :: plain .closeBracket :: elem.print
  | .dynamicArray elem => plain .openBracket :: plain .doubleDot :: plain .closeBracket :: elem.print
  | .fixedArray capacity elem =>
    plain .openBracket ::
      ((capacity.print (getOperatorPrecedence .dot)).map plain ++ plain .closeBracket :: elem.print)
  | .function parameters returnTypes =>
    plain .openParen ::
      (parameters.print ++ plain .closeParen :: .token .rightArrow :: returnTypesOf returnTypes returnTypes.print)
  | .namedFunction parameters returnTypes =>
    plain .openParen ::
      (parameters.printParameters ++
        plain .closeParen :: .token .rightArrow :: returnTypesOf returnTypes returnTypes.print)
  | .anonymousStruct members => .token .struct_ :: .token .openBrace :: (members.printMembers ++ [.token .closeBrace])

def TyList.print : TyList → List Printed
  | .nil => []
  | .cons head .nil => head.print
  | .cons head tail => head.print ++ plain .comma :: tail.print

def Fields.printParameters : Fields → List Printed
  | .nil => []
  | .cons name type .nil => plain (.identifier name) :: .token .colon :: type.print
  | .cons name type tail =>
    plain (.identifier name) :: .token .colon :: (type.print ++ plain .comma :: tail.printParameters)

def Fields.printMembers : Fields → List Printed
  | .nil => []
  | .cons name type tail =>
    plain (.identifier name) :: .token .colon :: (type.print ++ .token .semicolon :: tail.printMembers)

end

end Printing

end Saad.TypeSyntax
