import Mathlib.Data.Int.Notation
import Mathlib.Data.Nat.Notation

/-! # Parsing expressions

The tokens are those of expressions of operators, casts, member accesses, indexing and calls, over names
and literals. No token here starts a struct literal, a lambda, a named argument or a statement, so the
branches of the parser for these are left out, and so are array literals and function types.
-/

namespace Saad.Parsing

section Token

inductive Primitive
  | uint | u8 | u16 | u32 | u64 | int | i8 | i16 | i32 | i64 | float | f32 | f64 | char | bool | void
deriving DecidableEq, Repr

inductive Literal
  | boolean (value : Bool)
  | integer (value : ℕ)
  | float (text : String)
  | string (text : String)
  | null
deriving DecidableEq, Repr

inductive BinaryOperator
  | logicalOr | logicalAnd | doubleEqual | notEqual | greaterThan | lessThan | greaterThanEqual | lessThanEqual
  | bitwiseOr | bitwiseXor | bitwiseAnd | bitwiseShiftLeft | bitwiseShiftRight | optionalDefault
  | minus | plus | times | divide | modulo
deriving DecidableEq, Repr

inductive UnaryOperator
  | not | bitwiseNot | unaryMinus | addressOf | pointerDereference | spread
deriving DecidableEq, Repr

/-- The operators of the table of precedences. No token is the operator of powers. -/
inductive OperatorType
  | binary (op : BinaryOperator)
  | unary (op : UnaryOperator)
  | as_ | dot | optionalDot | subscript | funcCall
deriving DecidableEq, Repr

/-- The tokens `-`, `*` and `&` of unary operators and of types are those of the binary operators. -/
inductive Token
  | identifier (name : String)
  | literal (value : Literal)
  | operator (op : BinaryOperator)
  | exclamation | tilde | tripleDot | doubleDot | question
  | dot | questionDot | openBracket | closeBracket | openParen | closeParen | comma
  | as_
  | primitive (type : Primitive)
  | string | any
deriving DecidableEq, Repr

def minPrecedence : ℤ := -99

def getOperatorPrecedence : OperatorType → ℤ
  | .binary .logicalOr => 1
  | .binary .logicalAnd => 2
  | .binary .doubleEqual | .binary .notEqual => 3
  | .binary .greaterThan | .binary .lessThan | .binary .greaterThanEqual | .binary .lessThanEqual => 4
  | .binary .bitwiseOr => 5
  | .binary .bitwiseXor => 6
  | .binary .bitwiseAnd => 7
  | .binary .bitwiseShiftLeft | .binary .bitwiseShiftRight | .binary .optionalDefault => 8
  | .binary .minus | .binary .plus => 9
  | .binary .times | .binary .divide | .binary .modulo => 10
  | .unary .not | .unary .bitwiseNot => 12
  | .unary .unaryMinus | .unary .addressOf | .unary .pointerDereference | .unary .spread | .as_ => 13
  | .dot | .optionalDot | .subscript | .funcCall => 14

/-- The operator that the loop of an expression goes on with. -/
def Token.binaryOperator : Token → Option OperatorType
  | .operator op => some (.binary op)
  | .questionDot => some .optionalDot
  | .dot => some .dot
  | .openBracket => some .subscript
  | .openParen => some .funcCall
  | _ => none

def Token.unaryOperator : Token → Option UnaryOperator
  | .exclamation => some .not
  | .tilde => some .bitwiseNot
  | .operator .minus => some .unaryMinus
  | .operator .bitwiseAnd => some .addressOf
  | .operator .times => some .pointerDereference
  | .tripleDot => some .spread
  | _ => none

/-- None is the end of the tokens. -/
def endsExpression : Option Token → Bool
  | none | some .closeParen | some .closeBracket | some .comma | some .doubleDot | some .tripleDot => true
  | _ => false

/-- The tokens that a list of type arguments goes on with, apart from `<`, `>` and `>>`. -/
def Token.inTypeArguments : Token → Bool
  | .identifier _ | .literal (.integer _) | .string | .any | .doubleDot | .dot | .operator .times | .question
  | .openBracket | .closeBracket | .comma | .openParen | .closeParen | .primitive _ => true
  | _ => false

/-- The tokens just after the matching '>', or none if the tokens cannot be a list of type arguments. -/
def scanTypeArguments (depth : ℤ) : List Token → Option (List Token)
  | [] => none
  | .operator .lessThan :: tokens =>
    if depth + 1 ≤ 0 then some tokens else scanTypeArguments (depth + 1) tokens
  | .operator .greaterThan :: tokens =>
    if depth - 1 ≤ 0 then some tokens else scanTypeArguments (depth - 1) tokens
  | .operator .bitwiseShiftRight :: tokens =>
    if depth - 2 ≤ 0 then some tokens else scanTypeArguments (depth - 2) tokens
  | token :: tokens =>
    if token.inTypeArguments then
      if depth ≤ 0 then some tokens else scanTypeArguments depth tokens
    else none

end Token

section Syntax

/-- The names of a dotted name e.g game.physics. -/
structure DottedName where
  first : String
  rest : List String := []
deriving DecidableEq, Repr

mutual

inductive Expr
  | identifier (name : String)
  | literal (value : Literal)
  | enumLiteral (name : String)
  | unary (op : UnaryOperator) (expr : Expr)
  | binary (op : BinaryOperator) (left right : Expr)
  | cast (expr : Expr) (castTo : Ty)
  | memberAccess (left right : Expr) (optionalChain : Bool)
  | arrayAccess (left indexExpr : Expr)
  | functionCall (expression : Expr) (typeArgs : TyList) (arguments : ExprList)

/-- The types without function types and the types of anonymous structs and enums. `?T` is the standard
`Optional<T>` and `[..]T` the standard `List<T>`. -/
inductive Ty
  | primitive (type : Primitive)
  | string
  | any
  | name (name : DottedName)
  | genericInstance (name : DottedName) (typeArgs : TyList)
  | optional (inner : Ty)
  | pointer (pointerTo : Ty)
  | slice (elemType : Ty)
  | dynamicArray (elemType : Ty)
  | fixedArray (capacityExpr : Expr) (elemType : Ty)

inductive ExprList
  | nil
  | cons (head : Expr) (tail : ExprList)

inductive TyList
  | nil
  | cons (head : Ty) (tail : TyList)

end

deriving instance DecidableEq for Expr, Ty, ExprList, TyList

/-- A name that can be called with type arguments e.g max or rows.map -/
def isCalleeName : Expr → Bool
  | .identifier _ => true
  | .memberAccess _ (.identifier _) _ => true
  | _ => false

/-- Only a function, by its name, can be called. -/
def Expr.canBeCalled : Expr → Bool
  | .identifier _ | .literal _ | .memberAccess .. => true
  | _ => false

end Syntax

section Parser

/-- The tokens from the current one on, and the flag of a '>>' whose first '>' is eaten. -/
structure Parser where
  tokens : List Token
  currentTokenIndex : ℕ := 0
  splitShiftRightToken : ℕ := 0
deriving DecidableEq

namespace Parser

def peek (p : Parser) : Option Token := p.tokens.head?

def eatToken (p : Parser) : Parser :=
  { p with tokens := p.tokens.tail, currentTokenIndex := p.currentTokenIndex + 1 }

end Parser

/-- The names behind the first one of a dotted name. -/
def parseDottedRest : List Token → Parser → List String × Parser
  | .dot :: .identifier name :: tokens, p =>
    let (names, p) := parseDottedRest tokens p.eatToken.eatToken
    (name :: names, p)
  | _, p => ([], p)

/-- The '<...>' can be a list of types and is followed by '('. -/
def scansToCall (tokens : List Token) : Bool :=
  tokens.head? == some (.operator .lessThan) &&
    (scanTypeArguments 0 tokens).any fun rest => rest.head? == some .openParen

def startsGenericCall (left : Expr) (tokens : List Token) : Bool := isCalleeName left && scansToCall tokens

/-- An instance of a generic struct e.g List<int>. -/
def startsTypeArguments (tokens : List Token) : Bool :=
  tokens.head? == some (.operator .lessThan) && (scanTypeArguments 0 tokens).isSome

mutual

def parseType : ℕ → Parser → Option (Ty × Parser)
  | 0, _ => none
  | fuel + 1, p =>
    match p.tokens with
    | .primitive type :: _ => some (.primitive type, p.eatToken)
    | .string :: _ => some (.string, p.eatToken)
    | .any :: _ => some (.any, p.eatToken)
    | .identifier name :: tokens =>
      let (rest, p) := parseDottedRest tokens p.eatToken
      if startsTypeArguments p.tokens then
        (parseTypeArguments fuel p).map fun (typeArgs, p) => (.genericInstance ⟨name, rest⟩ typeArgs, p)
      else some (.name ⟨name, rest⟩, p)
    | .question :: _ => (parseType fuel p.eatToken).map fun (inner, p) => (.optional inner, p)
    | .operator .times :: _ => (parseType fuel p.eatToken).map fun (pointee, p) => (.pointer pointee, p)
    | .openBracket :: .doubleDot :: .closeBracket :: _ =>
      (parseType fuel p.eatToken.eatToken.eatToken).map fun (elem, p) => (.dynamicArray elem, p)
    | .openBracket :: .doubleDot :: _ => none
    | .openBracket :: .closeBracket :: _ =>
      (parseType fuel p.eatToken.eatToken).map fun (elem, p) => (.slice elem, p)
    | .openBracket :: _ =>
      (parseExpression fuel minPrecedence p.eatToken).bind fun (capacity, p) =>
        if p.peek = some .closeBracket then
          (parseType fuel p.eatToken).map fun (elem, p) => (.fixedArray capacity elem, p)
        else none
    | _ => none

def parseTypeArguments : ℕ → Parser → Option (TyList × Parser)
  | 0, _ => none
  | fuel + 1, p =>
    if p.peek = some (.operator .lessThan) then parseTypeArgumentList fuel p.eatToken else none

def parseTypeArgumentList : ℕ → Parser → Option (TyList × Parser)
  | 0, _ => none
  | fuel + 1, p =>
    (parseType fuel p).bind fun (arg, p) =>
      match p.peek with
      | some .comma => (parseTypeArgumentList fuel p.eatToken).map fun (args, p) => (.cons arg args, p)
      | some (.operator .greaterThan) => some (.cons arg .nil, p.eatToken)
      | some (.operator .bitwiseShiftRight) =>
        -- The inner list eats the first '>' and the outer list eats the token
        if p.splitShiftRightToken = p.currentTokenIndex + 1 then
          some (.cons arg .nil, { p.eatToken with splitShiftRightToken := 0 })
        else some (.cons arg .nil, { p with splitShiftRightToken := p.currentTokenIndex + 1 })
      | _ => none

def parseExpression : ℕ → ℤ → Parser → Option (Expr × Parser)
  | 0, _, _ => none
  | fuel + 1, minPrec, p =>
    (parseLeaf fuel p).bind fun (left, p) =>
      if endsExpression p.peek then some (left, p) else parseOperators fuel minPrec left p

/-- The loop of an expression, one turn with each call. -/
def parseOperators : ℕ → ℤ → Expr → Parser → Option (Expr × Parser)
  | 0, _, _, _ => none
  | fuel + 1, minPrec, left, p =>
    (if p.peek = some .as_ then
      (parseType fuel p.eatToken).map fun (type, p) => (.cast left type, p)
    else some (left, p)).bind fun (left, p) =>
      if startsGenericCall left p.tokens then
        (parseTypeArguments fuel p).bind fun (typeArgs, p) =>
          (parseFunctionCall fuel left typeArgs p).bind fun (call, p) => parseOperators fuel minPrec call p
      else if endsExpression p.peek then some (left, p)
      else
        match p.peek.bind Token.binaryOperator with
        | none => some (left, p)
        | some op =>
          if getOperatorPrecedence op ≤ minPrec then some (left, p)
          else
            match op with
            | .dot =>
              (parseLeaf fuel p.eatToken).bind fun (right, p) =>
                parseOperators fuel minPrec (.memberAccess left right false) p
            | .optionalDot =>
              (parseLeaf fuel p.eatToken).bind fun (right, p) =>
                parseOperators fuel minPrec (.memberAccess left right true) p
            | .subscript =>
              (parseExpression fuel minPrecedence p.eatToken).bind fun (index, p) =>
                if p.peek = some .closeBracket then
                  parseOperators fuel minPrec (.arrayAccess left index) p.eatToken
                else none
            | .funcCall =>
              (parseFunctionCall fuel left .nil p).bind fun (call, p) => parseOperators fuel minPrec call p
            | .binary op =>
              (parseExpression fuel (getOperatorPrecedence (.binary op)) p.eatToken).bind fun (right, p) =>
                parseOperators fuel minPrec (.binary op left right) p
            | _ => none

def parseFunctionCall : ℕ → Expr → TyList → Parser → Option (Expr × Parser)
  | 0, _, _, _ => none
  | fuel + 1, lhs, typeArgs, p =>
    if lhs.canBeCalled ∧ p.peek = some .openParen then
      (parseArguments fuel false p.eatToken).map fun (arguments, p) => (.functionCall lhs typeArgs arguments, p)
    else none

/-- The arguments up to the closing parenthesis, with a comma in front of them once one is seen. -/
def parseArguments : ℕ → Bool → Parser → Option (ExprList × Parser)
  | 0, _, _ => none
  | fuel + 1, firstArgumentSeen, p =>
    if p.peek = some .closeParen then some (.nil, p.eatToken)
    else if firstArgumentSeen then
      if p.peek = some .comma then
        -- A trailing comma is allowed
        if p.eatToken.peek = some .closeParen then some (.nil, p.eatToken.eatToken)
        else parseArgument fuel p.eatToken
      else none
    else parseArgument fuel p

def parseArgument : ℕ → Parser → Option (ExprList × Parser)
  | 0, _ => none
  | fuel + 1, p =>
    (parseExpression fuel minPrecedence p).bind fun (value, p) =>
      (parseArguments fuel true p).map fun (arguments, p) => (.cons value arguments, p)

def parseLeaf : ℕ → Parser → Option (Expr × Parser)
  | 0, _ => none
  | fuel + 1, p =>
    match p.tokens with
    | .literal value :: _ => some (.literal value, p.eatToken)
    | .openParen :: _ =>
      (parseExpression fuel minPrecedence p.eatToken).bind fun (expr, p) =>
        if p.peek = some .closeParen then some (expr, p.eatToken) else none
    | .dot :: .identifier name :: _ => some (.enumLiteral name, p.eatToken.eatToken)
    | .identifier name :: _ => some (.identifier name, p.eatToken)
    | token :: _ =>
      match token.unaryOperator with
      | some op =>
        (parseExpression fuel (getOperatorPrecedence (.unary op)) p.eatToken).map fun (expr, p) =>
          (.unary op expr, p)
      | none => none
    | [] => none

end

end Parser

end Saad.Parsing
