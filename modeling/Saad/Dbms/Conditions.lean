import Saad.Dbms.SqlWriter

/-! # Conditions as the program runs them

The value of a lambda in a row, whose NULL is an empty optional, and the lambdas that the compiler takes. The
tree of a lambda has each part without the row as a value already.
-/

namespace Saad.Dbms

open General Sql

section Types

inductive BaseType where
  | bool | int | string
deriving DecidableEq, Repr

/-- The types of a condition and its parts. `null` is that of the word null. -/
inductive LambdaType where
  | plain (base : BaseType)
  | optional (base : BaseType)
  | null
deriving DecidableEq, Repr

def Ty.base : Ty → Option BaseType
  | .bool => some .bool
  | .int kind => if kind = .char then none else some .int
  | .string => some .string
  | _ => none

def Ty.lambdaType : Ty → Option LambdaType
  | .optional item => item.base.map .optional
  | t => t.base.map .plain

def Any.lambdaType : Any → Option LambdaType
  | none => some .null
  | some ⟨t, _⟩ => t.lambdaType

def Ty.value : (t : Ty) → t.Val → Option Value
  | .bool, (b : Bool) => some (.bool b)
  | .int kind, (data : kind.Bits) => some (.int (kind.valueOf data))
  | .string, (text : Text) => some (.text text)
  | .optional _, none => some .null
  | .optional item, some value => item.value value
  | _, _ => none

def Any.toValue : Any → Option Value
  | none => some .null
  | some ⟨t, data⟩ => t.value data

/-- The values of a type. -/
inductive HasType : LambdaType → Value → Prop
  | bool (b : Bool) : HasType (.plain .bool) (.bool b)
  | int (n : ℤ) : HasType (.plain .int) (.int n)
  | string (text : Text) : HasType (.plain .string) (.text text)
  | present {base : BaseType} {value : Value} (has : HasType (.plain base) value) :
      HasType (.optional base) value
  | empty (base : BaseType) : HasType (.optional base) .null
  | null : HasType .null .null

/-- The type of a member of the rows that is a column. -/
def memberType (table : TableInfo) (name : Text) : Option LambdaType := do
  let column ←
    (columnsOf table.type table.generated table.defaulted table.key).find? (·.member.name = name)
  column.member.type.lambdaType

/-- A row of the database: the value of each column. -/
abbrev DbRow : Type := Text → Value

/-- The columns have values of the types of their members. -/
def Fits (table : TableInfo) (row : DbRow) : Prop :=
  ∀ name t, memberType table name = some t → HasType t (row (columnIn table name))

end Types

section Typing

/-- `==` and `!=` of an optional with null, with a value or with an optional. -/
def comparable : LambdaType → LambdaType → Bool
  | .plain a, .plain b | .plain a, .optional b | .optional a, .plain b | .optional a, .optional b => a = b
  | .optional _, .null | .null, .optional _ => true
  | .null, .null | .null, .plain _ | .plain _, .null => false

def binaryType : BinaryOp → LambdaType → LambdaType → Option LambdaType
  | .or, .plain .bool, .plain .bool | .and, .plain .bool, .plain .bool => some (.plain .bool)
  | .equal, a, b | .notEqual, a, b => if comparable a b then some (.plain .bool) else none
  | .less, .plain a, .plain b | .greater, .plain a, .plain b | .lessEqual, .plain a, .plain b
  | .greaterEqual, .plain a, .plain b => if a = b ∧ a ≠ .bool then some (.plain .bool) else none
  | .plus, .plain .int, .plain .int | .minus, .plain .int, .plain .int => some (.plain .int)
  | .orElse, .optional a, .plain b => if a = b then some (.plain a) else none
  | .orElse, .optional a, .optional b => if a = b then some (.optional a) else none
  | _, _, _ => none

/-- A method of a string that is not optional. -/
inductive StringMethod where
  | startsWith | endsWith | indexOf
deriving DecidableEq, Repr

def stringMethod (name : Text) : Option StringMethod :=
  if name = asciiBytes "startsWith" then some .startsWith
  else if name = asciiBytes "endsWith" then some .endsWith
  else if name = asciiBytes "indexOf" then some .indexOf
  else none

def StringMethod.result : StringMethod → BaseType
  | .startsWith | .endsWith => .bool
  | .indexOf => .int

/-- `s.m(x)`, or `s?.m(x)` of an optional, which gives an optional. -/
def callType (method : StringMethod) : LambdaType → LambdaType → Option LambdaType
  | .plain .string, .plain .string => some (.plain method.result)
  | .optional .string, .plain .string => some (.optional method.result)
  | _, _ => none

def lenType : LambdaType → Option LambdaType
  | .plain .string => some (.plain .int)
  | .optional .string => some (.optional .int)
  | _ => none

/-- The type of a lambda of bools, whole numbers and strings, and optionals of them. -/
def typeOf (members : Text → Option LambdaType) : ExprNode → Option LambdaType
  | .member (.parameter _) name => members name
  | .member left name => if name = asciiBytes "len" then (typeOf members left).bind lenType else none
  | .value value => value.lambdaType
  | .unary op left => do
    let t ← typeOf members left
    match op with
    | .not => if t = .plain .bool then some t else none
    | .minus => if t = .plain .int then some t else none
  | .binary op left right => do binaryType op (← typeOf members left) (← typeOf members right)
  | .call left name (.cons _ arg .nil) => do
    callType (← stringMethod name) (← typeOf members left) (← typeOf members arg)
  | _ => none

end Typing

section Run

/-- `runtime_compare_strings`, which takes the bytes as signed. -/
def compareStrings : Text → Text → Ordering
  | [], [] => .eq
  | [], _ :: _ => .lt
  | _ :: _, [] => .gt
  | a :: s, b :: t => if a = b then compareStrings s t else if a.toInt < b.toInt then .lt else .gt

def lessString (a b : Text) : Bool := compareStrings a b = .lt

/-- A method of a string. -/
def runMethod : StringMethod → Text → Text → Value
  | .startsWith, s, str => .bool (startsWith s str)
  | .endsWith, s, str => .bool (endsWith s str)
  | .indexOf, s, str => .int (((indexOf s str).map Int.ofNat).getD (-1))

def runBinary : BinaryOp → Value → Value → Option Value
  | .or, .bool a, .bool b => some (.bool (a || b))
  | .and, .bool a, .bool b => some (.bool (a && b))
  | .equal, a, b => some (.bool (a = b))
  | .notEqual, a, b => some (.bool (a ≠ b))
  | .less, a, b => Operator.less.apply lessString a b
  | .greater, a, b => Operator.greater.apply lessString a b
  | .lessEqual, a, b => Operator.lessEqual.apply lessString a b
  | .greaterEqual, a, b => Operator.greaterEqual.apply lessString a b
  | .plus, .int a, .int b => some (.int (a + b))
  | .minus, .int a, .int b => some (.int (a - b))
  | .orElse, a, b => some (if a = .null then b else a)
  | _, _, _ => none

def runCall (method : StringMethod) : Value → Value → Option Value
  | .text s, .text str => some (runMethod method s str)
  | .null, .text _ => some .null
  | _, _ => none

def runLen : Value → Option Value
  | .text s => some (.int s.length)
  | .null => some .null
  | _ => none

variable (table : TableInfo) (row : DbRow)

/-- The value of a lambda in a row. A member has what its column has. -/
def run : ExprNode → Option Value
  | .member (.parameter _) name => some (row (columnIn table name))
  | .member left name => if name = asciiBytes "len" then (run left).bind runLen else none
  | .value value => value.toValue
  | .unary op left => do
    match op, ← run left with
    | .not, .bool b => some (.bool !b)
    | .minus, .int n => some (.int (-n))
    | _, _ => none
  | .binary op left right => do runBinary op (← run left) (← run right)
  | .call left name (.cons _ arg .nil) => do runCall (← stringMethod name) (← run left) (← run arg)
  | _ => none

end Run

section CanGive

/-- If what a bool can be is both, or it is empty. -/
def IsUndecided (canGive : Value → Prop) : Prop :=
  canGive .null ∨ canGive (.bool true) ∧ canGive (.bool false)

def ExprNode.isNot : ExprNode → Bool
  | .unary .not _ => true
  | _ => false

/-- `== null` and `!= null` of another part, whose `!` in front is of the whole comparison. -/
def ComparedWithNull (op : BinaryOp) (other : ExprNode) (canGive : Value → Prop) (value : Value) : Prop :=
  ∃ b, value = .bool b ∧ (b = ((op = .equal) != other.isNot) ↔ IsUndecided canGive)

/-- A comparison with an empty optional can give both, and texts are compared as the collation says. -/
def BinaryCanGive (less : Text → Text → Bool) : BinaryOp → Value → Value → Value → Prop
  | .equal, a, b, value => ∃ t, value = .bool t ∧ (a ≠ .null → b ≠ .null → t = decide (a = b))
  | .notEqual, a, b, value => ∃ t, value = .bool t ∧ (a ≠ .null → b ≠ .null → t = decide (a ≠ b))
  | .less, a, b, value => Operator.less.apply less a b = some value
  | .greater, a, b, value => Operator.greater.apply less a b = some value
  | .lessEqual, a, b, value => Operator.lessEqual.apply less a b = some value
  | .greaterEqual, a, b, value => Operator.greaterEqual.apply less a b = some value
  | op, a, b, value => runBinary op a b = some value

/-- The place of an empty text is 0. -/
def CallCanGive : StringMethod → Value → Value → Value → Prop
  | .indexOf, .text s, .text str, value => value = .int (Sql.position s str - 1)
  | method, s, str, value => runCall method s str = some value

variable (less : Text → Text → Bool) (table : TableInfo) (row : DbRow)

/-- What a lambda can give in a row when each comparison with an empty optional can give both, the place of an
empty text is 0, and texts are compared as the collation says. -/
def CanGive : ExprNode → Value → Prop
  | .member (.parameter _) name => fun value => value = row (columnIn table name)
  | .member left name => fun value =>
    name = asciiBytes "len" ∧ ∃ a, CanGive left a ∧ runLen a = some value
  | .value given => fun value => given.toValue = some value
  | .unary .not left => fun value => ∃ b, CanGive left (.bool b) ∧ value = .bool !b
  | .unary .minus left => fun value => ∃ n, CanGive left (.int n) ∧ value = .int (-n)
  | .binary op left right => fun value =>
    if (op = .equal ∨ op = .notEqual) ∧ isNull left then
      ComparedWithNull op right (CanGive right) value
    else if (op = .equal ∨ op = .notEqual) ∧ isNull right then
      ComparedWithNull op left (CanGive left) value
    else ∃ a, CanGive left a ∧ ∃ b, CanGive right b ∧ BinaryCanGive less op a b value
  | .call left name (.cons _ arg .nil) => fun value =>
    ∃ method ∈ stringMethod name, ∃ a, CanGive left a ∧ ∃ b, CanGive arg b ∧ CallCanGive method a b value
  | _ => fun _ => False

end CanGive

end Saad.Dbms
