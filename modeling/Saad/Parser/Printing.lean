import Saad.Parser.Expression

/-! # Printing expressions

The tokens of a tree, with parentheses where the table of precedences and left associativity ask for
them. What stands in front of an 'as' gets them below a level of its own.
-/

namespace Saad.Parsing

section Printing

def Expr.level : Expr → ℤ
  | .unary op _ => getOperatorPrecedence (.unary op)
  | .binary op _ _ => getOperatorPrecedence (.binary op)
  | .cast _ _ => getOperatorPrecedence .as_
  | _ => getOperatorPrecedence .dot

def UnaryOperator.token : UnaryOperator → Token
  | .not => .exclamation
  | .bitwiseNot => .tilde
  | .unaryMinus => .operator .minus
  | .addressOf => .operator .bitwiseAnd
  | .pointerDereference => .operator .times
  | .spread => .tripleDot

def parenthesized (needed : Bool) (tokens : List Token) : List Token :=
  if needed then .openParen :: (tokens ++ [.closeParen]) else tokens

/-- The ends of this many lists of type arguments. The lexer makes one token of two. -/
def closing : ℕ → List Token
  | 0 => []
  | 1 => [.operator .greaterThan]
  | count + 2 => .operator .bitwiseShiftRight :: closing count

def DottedName.print (name : DottedName) : List Token :=
  .identifier name.first :: name.rest.flatMap fun part => [.dot, .identifier part]

def memberToken (optionalChain : Bool) : Token := if optionalChain then .questionDot else .dot

def TyList.isNil : TyList → Bool
  | .nil => true
  | .cons _ _ => false

mutual

def Expr.print (castLevel : ℤ) : Expr → List Token
  | .identifier name => [.identifier name]
  | .literal value => [.literal value]
  | .enumLiteral name => [.dot, .identifier name]
  | .unary op expr =>
    op.token :: parenthesized (expr.level < getOperatorPrecedence (.unary op)) (expr.print castLevel)
  | .binary op left right =>
    parenthesized (left.level < getOperatorPrecedence (.binary op)) (left.print castLevel) ++
      .operator op :: parenthesized (right.level ≤ getOperatorPrecedence (.binary op)) (right.print castLevel)
  | .cast expr castTo =>
    parenthesized (expr.level < castLevel) (expr.print castLevel) ++ .as_ :: castTo.print castLevel 0
  | .memberAccess left right optionalChain =>
    parenthesized (left.level < getOperatorPrecedence .dot) (left.print castLevel) ++
      memberToken optionalChain :: right.print castLevel
  | .arrayAccess left index =>
    parenthesized (left.level < getOperatorPrecedence .subscript) (left.print castLevel) ++
      .openBracket :: (index.print castLevel ++ [.closeBracket])
  | .functionCall expression typeArgs arguments =>
    parenthesized (expression.level < getOperatorPrecedence .funcCall) (expression.print castLevel) ++
      ((if typeArgs.isNil then [] else .operator .lessThan :: typeArgs.print castLevel 0) ++
        .openParen :: (arguments.print castLevel ++ [.closeParen]))

/-- A type at the end of this many lists of type arguments, with their ends. -/
def Ty.print (castLevel : ℤ) : Ty → ℕ → List Token
  | .primitive type, lists => .primitive type :: closing lists
  | .string, lists => .string :: closing lists
  | .any, lists => .any :: closing lists
  | .name name, lists => name.print ++ closing lists
  | .genericInstance name typeArgs, lists => name.print ++ .operator .lessThan :: typeArgs.print castLevel lists
  | .optional inner, lists => .question :: inner.print castLevel lists
  | .pointer pointee, lists => .operator .times :: pointee.print castLevel lists
  | .slice elem, lists => .openBracket :: .closeBracket :: elem.print castLevel lists
  | .dynamicArray elem, lists => .openBracket :: .doubleDot :: .closeBracket :: elem.print castLevel lists
  | .fixedArray capacity elem, lists =>
    .openBracket :: (capacity.print castLevel ++ .closeBracket :: elem.print castLevel lists)

def ExprList.print (castLevel : ℤ) : ExprList → List Token
  | .nil => []
  | .cons head .nil => head.print castLevel
  | .cons head tail => head.print castLevel ++ .comma :: tail.print castLevel

/-- The type arguments from behind the '<' on. -/
def TyList.print (castLevel : ℤ) : TyList → ℕ → List Token
  | .nil, _ => []
  | .cons head .nil, lists => head.print castLevel (lists + 1)
  | .cons head tail, lists => head.print castLevel 0 ++ .comma :: tail.print castLevel lists

end

end Printing

/-- What follows a name that is called. -/
def TyList.printCall (castLevel : ℤ) (typeArgs : TyList) (rest : List Token) : List Token :=
  if typeArgs.isNil then rest else .operator .lessThan :: (typeArgs.print castLevel 0 ++ rest)

section Conditions

def Expr.isName : Expr → Bool
  | .identifier _ => true
  | _ => false

mutual

/-- The trees of the language: a member is a name, what is called is a name, a literal or a member, with type
arguments only behind a name, and a list of type arguments has only what the scan for it goes over. -/
def Expr.wellFormed (castLevel : ℤ) : Expr → Bool
  | .identifier _ | .literal _ | .enumLiteral _ => true
  | .unary _ expr => expr.wellFormed castLevel
  | .binary _ left right => left.wellFormed castLevel && right.wellFormed castLevel
  | .cast expr castTo => expr.wellFormed castLevel && castTo.wellFormed castLevel
  | .memberAccess left right _ => left.wellFormed castLevel && right.isName
  | .arrayAccess left index => left.wellFormed castLevel && index.wellFormed castLevel
  | .functionCall expression typeArgs arguments =>
    expression.canBeCalled && expression.wellFormed castLevel &&
      (typeArgs.isNil || isCalleeName expression && typeArgs.scanned castLevel) &&
      typeArgs.wellFormed castLevel && arguments.wellFormed castLevel

def Ty.wellFormed (castLevel : ℤ) : Ty → Bool
  | .primitive _ | .string | .any | .name _ => true
  | .genericInstance _ typeArgs =>
    !typeArgs.isNil && typeArgs.scanned castLevel && typeArgs.wellFormed castLevel
  | .optional inner => inner.wellFormed castLevel
  | .pointer pointee => pointee.wellFormed castLevel
  | .slice elem | .dynamicArray elem => elem.wellFormed castLevel
  | .fixedArray capacity elem => capacity.wellFormed castLevel && elem.wellFormed castLevel

def ExprList.wellFormed (castLevel : ℤ) : ExprList → Bool
  | .nil => true
  | .cons head tail => head.wellFormed castLevel && tail.wellFormed castLevel

def TyList.wellFormed (castLevel : ℤ) : TyList → Bool
  | .nil => true
  | .cons head tail => head.wellFormed castLevel && tail.wellFormed castLevel

/-- Without function types, only the capacity of a fixed array has tokens that no list of type arguments has. -/
def Ty.scanned (castLevel : ℤ) : Ty → Bool
  | .primitive _ | .string | .any | .name _ => true
  | .genericInstance _ typeArgs => typeArgs.scanned castLevel
  | .optional inner => inner.scanned castLevel
  | .pointer pointee => pointee.scanned castLevel
  | .slice elem | .dynamicArray elem => elem.scanned castLevel
  | .fixedArray capacity elem =>
    (capacity.print castLevel).all Token.inTypeArguments && elem.scanned castLevel

def TyList.scanned (castLevel : ℤ) : TyList → Bool
  | .nil => true
  | .cons head tail => head.scanned castLevel && tail.scanned castLevel

end

/-- What follows an operand, with its closing parenthesis. -/
def behind (needed : Bool) (rest : List Token) : List Token := if needed then .closeParen :: rest else rest

mutual

/-- No name stands in front of a less-than that is read as the start of type arguments, where these tokens
follow the tree. -/
def Expr.clear (castLevel : ℤ) : Expr → List Token → Bool
  | .identifier _, _ | .literal _, _ | .enumLiteral _, _ => true
  | .unary op expr, rest =>
    expr.clear castLevel (behind (expr.level < getOperatorPrecedence (.unary op)) rest) &&
    !startsGenericCall expr rest
  | .binary op left right, rest =>
    left.clear castLevel (behind (left.level < getOperatorPrecedence (.binary op))
      (.operator op :: (parenthesized (right.level ≤ getOperatorPrecedence (.binary op)) (right.print castLevel) ++
        rest))) &&
    !startsGenericCall left (.operator op ::
      (parenthesized (right.level ≤ getOperatorPrecedence (.binary op)) (right.print castLevel) ++ rest)) &&
    right.clear castLevel (behind (right.level ≤ getOperatorPrecedence (.binary op)) rest) &&
    !startsGenericCall right rest
  | .cast expr castTo, rest =>
    expr.clear castLevel (behind (expr.level < castLevel) (.as_ :: (castTo.print castLevel 0 ++ rest))) &&
    castTo.clear castLevel 0 rest
  | .memberAccess left right optionalChain, rest =>
    left.clear castLevel (behind (left.level < getOperatorPrecedence .dot)
      (memberToken optionalChain :: (right.print castLevel ++ rest)))
  | .arrayAccess left index, rest =>
    left.clear castLevel (behind (left.level < getOperatorPrecedence .subscript)
      (.openBracket :: (index.print castLevel ++ .closeBracket :: rest))) &&
    index.clear castLevel (.closeBracket :: rest)
  | .functionCall expression typeArgs arguments, rest =>
    expression.clear castLevel (behind (expression.level < getOperatorPrecedence .funcCall)
      (typeArgs.printCall castLevel (.openParen :: (arguments.print castLevel ++ .closeParen :: rest)))) &&
    typeArgs.clear castLevel 0 (.openParen :: (arguments.print castLevel ++ .closeParen :: rest)) &&
    arguments.clear castLevel (.closeParen :: rest)

def Ty.clear (castLevel : ℤ) : Ty → ℕ → List Token → Bool
  | .primitive _, _, _ | .string, _, _ | .any, _, _ => true
  | .name _, lists, rest => !startsTypeArguments (closing lists ++ rest)
  | .genericInstance _ typeArgs, lists, rest => typeArgs.clear castLevel lists rest
  | .optional inner, lists, rest => inner.clear castLevel lists rest
  | .pointer pointee, lists, rest => pointee.clear castLevel lists rest
  | .slice elem, lists, rest | .dynamicArray elem, lists, rest => elem.clear castLevel lists rest
  | .fixedArray capacity elem, lists, rest =>
    capacity.clear castLevel (.closeBracket :: (elem.print castLevel lists ++ rest)) &&
    elem.clear castLevel lists rest

def ExprList.clear (castLevel : ℤ) : ExprList → List Token → Bool
  | .nil, _ => true
  | .cons head .nil, rest => head.clear castLevel rest
  | .cons head tail, rest =>
    head.clear castLevel (.comma :: (tail.print castLevel ++ rest)) && tail.clear castLevel rest

def TyList.clear (castLevel : ℤ) : TyList → ℕ → List Token → Bool
  | .nil, _, _ => true
  | .cons head .nil, lists, rest => head.clear castLevel (lists + 1) rest
  | .cons head tail, lists, rest =>
    head.clear castLevel 0 (.comma :: (tail.print castLevel lists ++ rest)) && tail.clear castLevel lists rest

end

end Conditions

end Saad.Parsing
