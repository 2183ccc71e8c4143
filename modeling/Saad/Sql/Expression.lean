import Saad.General.ThreeValued
import Saad.Std.Text

/-! # SQL as its words

What stands for a row or a value, its alias and its placeholder, is a word of its own kind.
-/

namespace Saad.Sql

section Words

/-- A name for SQL in double quotes. -/
def quoted (name : Text) : Text :=
  byteOf '"' :: (name.flatMap fun c => if c = byteOf '"' then [c, c] else [c]) ++ [byteOf '"']

inductive Keyword where
  | select | from_ | as_ | left | join | on | where_ | and_ | or_ | not_ | is_ | null_ | exists_
  | order | by_ | desc | limit | offset
deriving DecidableEq, Repr

def Keyword.text : Keyword → Text
  | .select => asciiBytes "SELECT"
  | .from_ => asciiBytes "FROM"
  | .as_ => asciiBytes "AS"
  | .left => asciiBytes "LEFT"
  | .join => asciiBytes "JOIN"
  | .on => asciiBytes "ON"
  | .where_ => asciiBytes "WHERE"
  | .and_ => asciiBytes "AND"
  | .or_ => asciiBytes "OR"
  | .not_ => asciiBytes "NOT"
  | .is_ => asciiBytes "IS"
  | .null_ => asciiBytes "NULL"
  | .exists_ => asciiBytes "EXISTS"
  | .order => asciiBytes "ORDER"
  | .by_ => asciiBytes "BY"
  | .desc => asciiBytes "DESC"
  | .limit => asciiBytes "LIMIT"
  | .offset => asciiBytes "OFFSET"

inductive Function where
  | coalesce | length | left | right | strpos | lower | upper | count | sum | min | max | avg
deriving DecidableEq, Repr

def Function.text : Function → Text
  | .coalesce => asciiBytes "coalesce"
  | .length => asciiBytes "length"
  | .left => asciiBytes "left"
  | .right => asciiBytes "right"
  | .strpos => asciiBytes "strpos"
  | .lower => asciiBytes "lower"
  | .upper => asciiBytes "upper"
  | .count => asciiBytes "count"
  | .sum => asciiBytes "sum"
  | .min => asciiBytes "min"
  | .max => asciiBytes "max"
  | .avg => asciiBytes "avg"

inductive Operator where
  | equal | notEqual | less | greater | lessEqual | greaterEqual | plus | minus | times | divide | modulo
deriving DecidableEq, Repr

def Operator.text : Operator → Text
  | .equal => asciiBytes "="
  | .notEqual => asciiBytes "<>"
  | .less => asciiBytes "<"
  | .greater => asciiBytes ">"
  | .lessEqual => asciiBytes "<="
  | .greaterEqual => asciiBytes ">="
  | .plus => asciiBytes "+"
  | .minus => asciiBytes "-"
  | .times => asciiBytes "*"
  | .divide => asciiBytes "/"
  | .modulo => asciiBytes "%"

/-- A word of SQL. `name` is in double quotes, `alias_` is t0, t1, ..., and `param` is $1, $2, ... -/
inductive Token where
  | space | lparen | rparen | comma | dot | star
  | keyword (word : Keyword)
  | function (name : Function)
  | op (op : Operator)
  | name (name : Text)
  | alias_ (n : ℕ)
  | param (n : ℕ)
  | number (n : ℤ)
deriving DecidableEq, Repr

def Token.text : Token → Text
  | .space => asciiBytes " "
  | .lparen => asciiBytes "("
  | .rparen => asciiBytes ")"
  | .comma => asciiBytes ","
  | .dot => asciiBytes "."
  | .star => asciiBytes "*"
  | .keyword word => word.text
  | .function called => called.text
  | .op sign => sign.text
  | .name written => quoted written
  | .alias_ n => byteOf 't' :: decimalText n
  | .param n => byteOf '$' :: decimalText n
  | .number n => intText n

def sqlText (tokens : List Token) : Text := tokens.flatMap Token.text

def qualifiedName (schema name : Text) : List Token :=
  if schema = [] then [.name name] else [.name schema, .dot, .name name]

end Words

end Saad.Sql

/-! # The expressions of SQL

What an expression is, as its precedences say, and its value in a row, where NULL is unknown as a truth
value. The texts are of ASCII, so their characters are their bytes.
-/

namespace Saad.Sql

open General

section Values

inductive Value where
  | null
  | bool (b : Bool)
  | int (n : ℤ)
  | text (text : Text)
deriving DecidableEq, Repr

def Value.ofTruth : Truth → Value
  | none => .null
  | some b => .bool b

def Value.truth : Value → Option Truth
  | .null => some none
  | .bool b => some (some b)
  | _ => none

@[simp] theorem Value.truth_ofTruth (t : Truth) : (Value.ofTruth t).truth = some t := by
  cases t <;> rfl

inductive Expr where
  | null
  | number (n : ℤ)
  | param (n : ℕ)
  | column (table : Option ℕ) (name : Text)
  | not (e : Expr)
  | minus (e : Expr)
  | and (a b : Expr)
  | or (a b : Expr)
  | op (sign : Operator) (a b : Expr)
  | isNull (e : Expr)
  | isNotNull (e : Expr)
  | call1 (f : Function) (a : Expr)
  | call2 (f : Function) (a b : Expr)
deriving DecidableEq, Repr

end Values

section Eval

/-- What an expression is evaluated in: a row, the arguments, and the collation, which says what text is less. -/
structure Scope where
  column : Option ℕ → Text → Option Value
  param : ℕ → Option Value
  less : Text → Text → Bool

/-- The first place of a text in another one, from 1, or 0. -/
def position (text part : Text) : ℕ :=
  (((List.range (text.length + 1)).find? fun i => part.isPrefixOf (text.drop i)).map (· + 1)).getD 0

/-- The first n characters, or all but the last -n. -/
def leftPart (text : Text) (n : ℤ) : Text :=
  if 0 ≤ n then text.take n.toNat else text.take (text.length - n.natAbs)

def rightPart (text : Text) (n : ℤ) : Text :=
  if 0 ≤ n then text.drop (text.length - n.toNat) else text.drop n.natAbs

def toUpper (c : BitVec 8) : BitVec 8 := if isLower c then c - 32 else c

/-- The operators of values that are not NULL. -/
def Operator.apply (less : Text → Text → Bool) : Operator → Value → Value → Option Value
  | .equal, a, b => some (.bool (a = b))
  | .notEqual, a, b => some (.bool (a ≠ b))
  | .less, .int a, .int b => some (.bool (a < b))
  | .greater, .int a, .int b => some (.bool (b < a))
  | .lessEqual, .int a, .int b => some (.bool (a ≤ b))
  | .greaterEqual, .int a, .int b => some (.bool (b ≤ a))
  | .less, .text a, .text b => some (.bool (less a b))
  | .greater, .text a, .text b => some (.bool (less b a))
  | .lessEqual, .text a, .text b => some (.bool (less a b || a = b))
  | .greaterEqual, .text a, .text b => some (.bool (less b a || a = b))
  | .plus, .int a, .int b => some (.int (a + b))
  | .minus, .int a, .int b => some (.int (a - b))
  | .times, .int a, .int b => some (.int (a * b))
  | .divide, .int a, .int b => if b = 0 then none else some (.int (a.tdiv b))
  | .modulo, .int a, .int b => if b = 0 then none else some (.int (a.tmod b))
  | _, _, _ => none

def Function.apply1 : Function → Value → Option Value
  | .length, .text a => some (.int a.length)
  | .lower, .text a => some (.text (a.map toLower))
  | .upper, .text a => some (.text (a.map toUpper))
  | _, _ => none

def Function.apply2 : Function → Value → Value → Option Value
  | .left, .text a, .int n => some (.text (leftPart a n))
  | .right, .text a, .int n => some (.text (rightPart a n))
  | .strpos, .text a, .text b => some (.int (position a b))
  | _, _, _ => none

/-- Of two values, where one that is NULL gives NULL. -/
def strict (f : Value → Value → Option Value) (a b : Value) : Option Value :=
  if a = .null ∨ b = .null then some .null else f a b

/-- The value of an expression. None is an error. -/
def Expr.eval (scope : Scope) : Expr → Option Value
  | .null => some .null
  | .number n => some (.int n)
  | .param n => scope.param n
  | .column table name => scope.column table name
  | .not e => do return .ofTruth (← (← e.eval scope).truth).not
  | .minus e => do
    match ← e.eval scope with
    | .null => some .null
    | .int n => some (.int (-n))
    | _ => none
  | .and a b => do return .ofTruth ((← (← a.eval scope).truth).and (← (← b.eval scope).truth))
  | .or a b => do return .ofTruth ((← (← a.eval scope).truth).or (← (← b.eval scope).truth))
  | .op sign a b => do strict (sign.apply scope.less) (← a.eval scope) (← b.eval scope)
  | .isNull e => do return .bool ((← e.eval scope) = .null)
  | .isNotNull e => do return .bool ((← e.eval scope) ≠ .null)
  | .call1 f a => do
    let value ← a.eval scope
    if value = .null then some .null else f.apply1 value
  | .call2 .coalesce a b => do
    let value ← a.eval scope
    if value = .null then b.eval scope else return value
  | .call2 f a b => do strict f.apply2 (← a.eval scope) (← b.eval scope)

end Eval

section Parse

/-- NOT, which binds weaker than a comparison. -/
def notPrecedence : ℕ := 3

def isPrecedence : ℕ := 4

def comparePrecedence : ℕ := 5

/-- The minus in front of an expression. -/
def minusPrecedence : ℕ := 9

def Operator.precedence : Operator → ℕ
  | .plus | .minus => 7
  | .times | .divide | .modulo => 8
  | _ => comparePrecedence

/-- An operator between two expressions, and its precedence. -/
def infix_ : Token → Option (ℕ × (Expr → Expr → Expr))
  | .keyword .or_ => some (1, .or)
  | .keyword .and_ => some (2, .and)
  | .op sign => some (sign.precedence, .op sign)
  | .star => some (Operator.times.precedence, .op .times)
  | _ => none

/-- Comparisons of comparisons need parentheses. -/
def isComparison : List Token → Bool
  | .op sign :: _ => sign.precedence = comparePrecedence
  | _ => false

mutual

/-- An expression up to its first operator, and what stands behind it. -/
def parsePrimary : ℕ → List Token → Option (Expr × List Token)
  | 0, _ => none
  | fuel + 1, .lparen :: rest => do
    match ← parseExpr fuel 0 rest with
    | (e, .rparen :: rest) => some (e, rest)
    | _ => none
  | _ + 1, .keyword .null_ :: rest => some (.null, rest)
  | _ + 1, .number n :: rest => some (.number n, rest)
  | _ + 1, .param n :: rest => some (.param n, rest)
  | _ + 1, .name name :: rest => some (.column none name, rest)
  | _ + 1, .alias_ table :: .dot :: .name name :: rest => some (.column (some table) name, rest)
  | fuel + 1, .keyword .not_ :: rest => do
    let (e, rest) ← parseExpr fuel notPrecedence rest
    return (.not e, rest)
  | fuel + 1, .op .minus :: rest => do
    let (e, rest) ← parseExpr fuel minusPrecedence rest
    return (.minus e, rest)
  | fuel + 1, .function f :: .lparen :: rest => do
    match ← parseExpr fuel 0 rest with
    | (a, .rparen :: rest) => some (.call1 f a, rest)
    | (a, .comma :: rest) =>
      match ← parseExpr fuel 0 rest with
      | (b, .rparen :: rest) => some (.call2 f a b, rest)
      | _ => none
    | _ => none
  | _, _ => none

/-- An expression of operators that bind as the precedence does, or tighter. -/
def parseExpr : ℕ → ℕ → List Token → Option (Expr × List Token)
  | 0, _, _ => none
  | fuel + 1, precedence, tokens => do
    let (e, rest) ← parsePrimary fuel tokens
    parseOperators fuel precedence e rest

def parseOperators : ℕ → ℕ → Expr → List Token → Option (Expr × List Token)
  | 0, _, _, _ => none
  | fuel + 1, precedence, e, .keyword .is_ :: .keyword .null_ :: rest =>
    if precedence ≤ isPrecedence then parseOperators fuel precedence (.isNull e) rest
    else some (e, .keyword .is_ :: .keyword .null_ :: rest)
  | fuel + 1, precedence, e, .keyword .is_ :: .keyword .not_ :: .keyword .null_ :: rest =>
    if precedence ≤ isPrecedence then parseOperators fuel precedence (.isNotNull e) rest
    else some (e, .keyword .is_ :: .keyword .not_ :: .keyword .null_ :: rest)
  | fuel + 1, precedence, e, token :: rest =>
    match infix_ token with
    | none => some (e, token :: rest)
    | some (binds, make) =>
      if precedence ≤ binds then do
        let (right, rest) ← parseExpr fuel (binds + 1) rest
        if binds = comparePrecedence ∧ isComparison rest then none
        else parseOperators fuel precedence (make e right) rest
      else some (e, token :: rest)
  | _ + 1, _, e, [] => some (e, [])

end

/-- The words without the spaces between them. -/
def words (tokens : List Token) : List Token := tokens.filter (· ≠ .space)

/-- The expression that the tokens are. -/
def parse (tokens : List Token) : Option Expr :=
  match parseExpr (3 * (words tokens).length + 2) 0 (words tokens) with
  | some (e, []) => some e
  | _ => none

/-- NOT binds weaker than `=`. -/
example : parse [.keyword .not_, .space, .lparen, .param 1, .rparen, .space, .op .equal, .space, .param 2] =
    some (.not (.op .equal (.param 1) (.param 2))) := by decide

end Parse

end Saad.Sql
