import Saad.General.Extension
import Saad.X64.EmitInst

/-! # Constant expressions

The integer expressions that a constant can be declared with, their types, and `simplifyExpression`,
which folds them on 64-bit values. A literal keeps a value in 64 bits and a flag for a value of 2^63 or
more; arithmetic on `long long` wraps. What the folder cannot survive is `crash`: a division that
traps, and a failed assertion.
-/

namespace Saad

open General

inductive IntegerType
  | uint | u8 | u16 | u32 | u64 | int | i8 | i16 | i32 | i64 | char | untypedInt
deriving DecidableEq, Repr, Inhabited

namespace IntegerType

/-- The size in the table of primitive types, in bytes. -/
def size : IntegerType → ℕ
  | .uint | .u32 | .int | .i32 | .untypedInt => 4
  | .u8 | .i8 | .char => 1
  | .u16 | .i16 => 2
  | .u64 | .i64 => 8

def isUntyped (type : IntegerType) : Bool := type == .untypedInt

def isSigned : IntegerType → Bool
  | .int | .i8 | .i16 | .i32 | .i64 | .untypedInt => true
  | _ => false

end IntegerType

def intIrTypeOfSize : ℕ → IrType
  | 1 => .i8
  | 2 => .i16
  | 4 => .i32
  | 8 => .i64
  | _ => .void

/-- The IR type of an integer type. -/
def irTypeOf (type : IntegerType) : IrType :=
  if type.isUntyped then .i64 else intIrTypeOfSize type.size

namespace IntegerType

/-- The width of the values of the type. -/
def bits (type : IntegerType) : ℕ := 8 * irTypeSize (irTypeOf type)

/-- A value of the type, as the 64 bits of a literal. -/
def integer (type : IntegerType) (value : BitVec type.bits) : BitVec 64 :=
  extended type.isSigned value 64

/-- The value of the type with the same low bits. -/
def wrap (type : IntegerType) (value : BitVec 64) : BitVec 64 := type.integer (value.setWidth type.bits)

end IntegerType

inductive UnaryOp
  | minus | bitwiseNot
deriving DecidableEq, Repr

inductive BinaryOp
  | add | sub | mul | div | mod | or | and | xor | shiftLeft | shiftRight
deriving DecidableEq, Repr

structure AstLiteral where
  integer : BitVec 64
  type : IntegerType
  /-- The flag `VALUE_IS_BIGGER_THAN_SIGNED_64_BIT_INTEGER`. -/
  isBigger : Bool := false
deriving DecidableEq, Repr

/-- A constant that is declared before: its type, and the literal that its value was folded to. -/
structure AstIdentifier where
  type : IntegerType
  value : AstLiteral
deriving DecidableEq, Repr

/-- Expressions as they are parsed. The type of a node is `checkExpression` of it, but for the operand
of a cast, which `solidifyUntypedType` is applied to. -/
inductive AstExpr
  | literal (integer : BitVec 64) (isBigger : Bool)
  | identifier (ident : AstIdentifier)
  | cast (expr : AstExpr) (castTo : IntegerType)
  | unary (op : UnaryOp) (expr : AstExpr)
  | binary (op : BinaryOp) (left right : AstExpr)
deriving DecidableEq, Repr

/-! ## Types -/

def biggestType (lhs rhs : IntegerType) : IntegerType := if lhs.size ≥ rhs.size then lhs else rhs

def solidifyUntypedType (type : IntegerType) : IntegerType := if type.isUntyped then .int else type

/-- The type of an expression where no type is wanted, as in the declaration of a constant. -/
def checkExpression : AstExpr → IntegerType
  | .literal _ _ => .untypedInt
  | .identifier ident => ident.type
  | .cast _ castTo => castTo
  | .unary _ expr => checkExpression expr
  | .binary _ left right => biggestType (checkExpression left) (checkExpression right)

/-! ## Folding -/

inductive Simplified
  | literal (literal : AstLiteral)
  /-- Any other expression: it is not constant, which is reported. -/
  | unfolded
  | crash
deriving DecidableEq, Repr

def makeLiteralInteger (value : BitVec 64) : AstLiteral := { integer := value, type := .int }

/-- An integer of the type, wrapped to its size. -/
def integerOfType (value : BitVec 64) (type : IntegerType) : AstLiteral :=
  if type.isUntyped then makeLiteralInteger value
  else
    { integer := type.wrap value
      type
      isBigger := type.bits = 64 ∧ !type.isSigned ∧ value.msb }

/-- Signed division as the compiler's own code does it. -/
def divideLongLong (divide : BitVec 64 → BitVec 64 → BitVec 64) (a b : BitVec 64) : Simplified :=
  if b = 0 ∨ (a = BitVec.intMin 64 ∧ b = -1) then .crash else .literal (makeLiteralInteger (divide a b))

/-- Folds an operator on two literals. The types of the literals are not looked at. -/
def simplifyLiterals (op : BinaryOp) (a b : BitVec 64) : Simplified :=
  match op with
  | .add => .literal (makeLiteralInteger (a + b))
  | .sub => .literal (makeLiteralInteger (a - b))
  | .mul => .literal (makeLiteralInteger (a * b))
  | .div => divideLongLong BitVec.sdiv a b
  | .or => .literal (makeLiteralInteger (a ||| b))
  | .and => .literal (makeLiteralInteger (a &&& b))
  | .xor => .literal (makeLiteralInteger (a ^^^ b))
  | .mod => if b = 0 then .unfolded else divideLongLong BitVec.srem a b
  | .shiftLeft =>
    if 0 ≤ b.toInt ∧ b.toInt < 64 then .literal (makeLiteralInteger (a <<< b.toNat)) else .unfolded
  | .shiftRight =>
    if 0 ≤ b.toInt ∧ b.toInt < 64 then .literal (makeLiteralInteger (a.sshiftRight b.toNat))
    else .unfolded

def simplifyBinary (op : BinaryOp) (left right : Simplified) : Simplified :=
  match left, right with
  | .crash, _ | _, .crash => .crash
  | .literal left, .literal right => simplifyLiterals op left.integer right.integer
  | _, _ => .unfolded

def simplifyUnary (op : UnaryOp) (expr : Simplified) : Simplified :=
  match expr, op with
  | .literal literal, .minus =>
    if literal.isBigger then .crash else .literal (makeLiteralInteger (-literal.integer))
  | .literal literal, .bitwiseNot => .literal (integerOfType (~~~literal.integer) literal.type)
  | .unfolded, _ => .unfolded
  | .crash, _ => .crash

def simplifyExpression : AstExpr → Simplified
  | .literal integer isBigger => .literal { integer, type := .untypedInt, isBigger }
  | .identifier ident => .literal ident.value
  | .cast expr castTo =>
    match simplifyExpression expr with
    | .literal inner => .literal (integerOfType inner.integer castTo)
    | inner => inner
  | .unary op expr => simplifyUnary op (simplifyExpression expr)
  | .binary op left right => simplifyBinary op (simplifyExpression left) (simplifyExpression right)

/-- The declaration of a constant: the value is replaced by the literal, which keeps the type of the
expression. `none` is a declaration that is refused, or a crash. -/
def declareConstant (value : AstExpr) : Option AstIdentifier :=
  let exprType := checkExpression value
  match simplifyExpression value with
  | .literal folded =>
    let isValue := match value with
      | .literal _ _ => true
      | _ => false
    some
      { type := exprType
        value := if !isValue ∧ !exprType.isUntyped then { folded with type := exprType } else folded }
  | _ => none

end Saad

/-! # Constant expressions at runtime

What the code that `lowerExpr` makes of an expression computes: integers of a type, converted by
`convertScalar` where a type is wanted, and the operations of `emitArithmetic`. `valueOf` gives the
value in the 64 bits of a literal, and its equations are all that the comparison with the folder uses.
-/

namespace Saad

open General

/-- A scalar, and the front-end type that it has. -/
structure RuntimeValue where
  type : IntegerType
  bits : BitVec type.bits

/-- The value in the 64 bits of a literal. -/
def RuntimeValue.integer (value : RuntimeValue) : BitVec 64 := value.type.integer value.bits

/-- Converts a scalar to another type. -/
def convertScalar (value : RuntimeValue) (target : IntegerType) : BitVec target.bits :=
  if value.type.bits < target.bits then extended value.type.isSigned value.bits target.bits
  else value.bits.setWidth target.bits

def emitConst (type : IntegerType) (integer : BitVec 64) : BitVec type.bits := integer.setWidth _

def irOpOf (op : BinaryOp) (isSigned : Bool) : IrOp :=
  match op with
  | .add => .add
  | .sub => .sub
  | .mul => .mul
  | .div => if isSigned then .sdiv else .udiv
  | .mod => if isSigned then .srem else .urem
  | .and => .and
  | .or => .or
  | .xor => .xor
  | .shiftLeft => .shl
  | .shiftRight => if isSigned then .ashr else .lshr

/-- The x64 code masks a shift count to six bits for 64-bit values, to five for others. -/
def x64ShiftCount (w count : ℕ) : ℕ := count % if w = 64 then 64 else 32

/-- What an instruction computes. The count of a shift may be any. -/
def runtimeBinary {w : ℕ} (op : IrOp) (x y : BitVec w) : Option (BitVec w) :=
  match op with
  | .shl | .lshr | .ashr => some ((x64ShiftOpOf op).shiftBy x (x64ShiftCount w y.toNat))
  | op => irBinary op x y

/-- A division by zero throws, and has no value. -/
def emitArithmetic (op : BinaryOp) (type : IntegerType) (a b : BitVec type.bits) :
    Option (BitVec type.bits) :=
  if (op = .div ∨ op = .mod) ∧ b = 0 then none else runtimeBinary (irOpOf op type.isSigned) a b

/-- The operand as a value of the type, from what `lowerExpr` makes of it. Literals are made directly
in the type. -/
def lowerScalarAs (expr : AstExpr) (target : IntegerType) (value : Option RuntimeValue) :
    Option (BitVec target.bits) :=
  match expr with
  | .literal integer _ => some (emitConst target integer)
  | _ => value.map fun value => convertScalar value target

/-- The value of an expression whose node has the type. `none` if it throws or faults. -/
def lowerExpr : AstExpr → IntegerType → Option RuntimeValue
  | .literal integer _, type => some ⟨type, emitConst type integer⟩
  | .identifier ident, _ => some ⟨ident.value.type, emitConst _ ident.value.integer⟩
  | .cast expr castTo, _ =>
    (lowerScalarAs expr castTo
      (lowerExpr expr (solidifyUntypedType (checkExpression expr)))).map fun value => ⟨castTo, value⟩
  | .unary op expr, type =>
    (lowerScalarAs expr type (lowerExpr expr (checkExpression expr))).map fun value =>
      ⟨type, match op with
        | .minus => -value
        | .bitwiseNot => ~~~value⟩
  | .binary op left right, type => do
    let a ← lowerScalarAs left type (lowerExpr left (checkExpression left))
    let b ← lowerScalarAs right type (lowerExpr right (checkExpression right))
    return ⟨type, ← emitArithmetic op type a b⟩

/-- The value at runtime in the 64 bits of a literal. A literal has no type of its own. -/
def valueOf (expr : AstExpr) (type : IntegerType) : Option (BitVec 64) :=
  match expr with
  | .literal integer _ => some integer
  | expr => (lowerExpr expr type).map RuntimeValue.integer

/-! ## Values in 64 bits -/

namespace IntegerType

variable (type : IntegerType)

theorem bits_le : type.bits ≤ 64 := by cases type <;> decide

theorem bits_cases : type.bits = 64 ∨ type.bits ≤ 32 := by cases type <;> decide

theorem le_bits : 8 ≤ type.bits := by cases type <;> decide

theorem setWidth_integer (value : BitVec type.bits) :
    (type.integer value).setWidth type.bits = value :=
  setWidth_extended_self _ _ type.bits_le

end IntegerType

theorem convertScalar_eq (value : RuntimeValue) (target : IntegerType) :
    convertScalar value target = value.integer.setWidth target.bits := by
  unfold convertScalar RuntimeValue.integer IntegerType.integer
  rw [setWidth_extended _ _ target.bits_le]
  split
  · rfl
  · next notWider => exact (extended_of_le _ _ (not_lt.mp notWider)).symm

theorem lowerScalarAs_eq (expr : AstExpr) (type target : IntegerType) :
    lowerScalarAs expr target (lowerExpr expr type) =
      (valueOf expr type).map fun value => value.setWidth target.bits := by
  cases expr <;> simp [lowerScalarAs, valueOf, emitConst, convertScalar_eq, Function.comp_def]

section Equations

variable (type : IntegerType)

@[simp] theorem valueOf_literal (integer : BitVec 64) (isBigger : Bool) :
    valueOf (.literal integer isBigger) type = some integer := rfl

theorem valueOf_identifier (ident : AstIdentifier) : valueOf (.identifier ident) type =
    some (ident.value.type.wrap ident.value.integer) := rfl

theorem valueOf_cast (expr : AstExpr) (castTo : IntegerType) : valueOf (.cast expr castTo) type =
    (valueOf expr (solidifyUntypedType (checkExpression expr))).map castTo.wrap := by
  change (lowerExpr (.cast expr castTo) type).map RuntimeValue.integer = _
  simp only [lowerExpr, lowerScalarAs_eq, Option.map_map]
  rfl

/-- The operation of a unary operator in 64 bits. -/
def UnaryOp.eval (op : UnaryOp) (value : BitVec 64) : BitVec 64 :=
  match op with
  | .minus => -value
  | .bitwiseNot => ~~~value

theorem valueOf_unary (op : UnaryOp) (expr : AstExpr) : valueOf (.unary op expr) type =
    (valueOf expr (checkExpression expr)).map fun value => type.wrap (op.eval value) := by
  change (lowerExpr (.unary op expr) type).map RuntimeValue.integer = _
  simp only [lowerExpr, lowerScalarAs_eq, Option.map_map]
  refine Option.map_congr fun value _ => ?_
  cases op
  · exact congrArg type.integer (BitVec.setWidth_neg_of_le type.bits_le).symm
  · exact congrArg type.integer (BitVec.setWidth_not type.bits_le).symm

theorem valueOf_binary (op : BinaryOp) (left right : AstExpr) :
    valueOf (.binary op left right) type =
      (valueOf left (checkExpression left)).bind fun a =>
        (valueOf right (checkExpression right)).bind fun b =>
          (emitArithmetic op type (a.setWidth _) (b.setWidth _)).map type.integer := by
  change (lowerExpr (.binary op left right) type).map RuntimeValue.integer = _
  simp only [lowerExpr, lowerScalarAs_eq]
  cases valueOf left (checkExpression left) with
  | none => rfl
  | some a =>
    cases valueOf right (checkExpression right) with
    | none => rfl
    | some b =>
      simp only [Option.map_some, Option.bind_eq_bind, Option.bind_some]
      cases emitArithmetic op type (a.setWidth _) (b.setWidth _) <;> rfl

end Equations

end Saad
