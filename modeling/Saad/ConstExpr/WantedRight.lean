import Saad.ConstExpr.Lower

/-! # Integers where a type is wanted

The check of an integer expression that a typed declaration, an assignment, an element of an array
literal or the arm of a switch gives, and the code that stores it. A literal and a named constant are
compared with the limits of the type; other expressions are let through.
-/

namespace Saad

open General

/-- Where a value of a wanted type stands. -/
inductive Place
  | declaration | globalVariable | assignment | arrayElement | switchArm
deriving DecidableEq, Repr

def maxIntegerValue : IntegerType → ℕ
  | .uint | .u32 => 2 ^ 32 - 1
  | .int | .i32 => 2 ^ 31 - 1
  | .char | .u8 => 2 ^ 8 - 1
  | .u16 => 2 ^ 16 - 1
  | .u64 | .untypedInt => 2 ^ 64 - 1
  | .i8 => 2 ^ 7 - 1
  | .i16 => 2 ^ 15 - 1
  | .i64 => 2 ^ 63 - 1

/-- False after the error that the value does not fit. A name is only known to be a constant after it
is resolved. -/
def leadsToIntegerOverflow (lhsType : IntegerType) (isResolved : Bool) (expr : AstExpr) : Bool :=
  match expr with
  | .identifier ident =>
    if isResolved then
      let n := ident.value.integer
      let big := ident.value.isBigger
      let tooBig := (0 ≤ n.toInt ∨ big) ∧ n.toNat > maxIntegerValue lhsType
      let tooSmall := n.toInt < 0 ∧ ¬ big ∧
        (¬ lhsType.isSigned ∨ (-(n + 1)).toNat > maxIntegerValue lhsType)
      ¬ (tooBig ∨ tooSmall)
    else true
  | .literal n big =>
    let litValue := if n.toInt < 0 ∧ lhsType.isSigned ∧ ¬ big then -(n + 1) else n
    ¬ litValue.toNat > maxIntegerValue lhsType
  | _ => true

/-- The type of an expression where an integer type is wanted. What is cast is not given the type. -/
def checkExpressionIn (ctxType : IntegerType) : AstExpr → IntegerType
  | .literal _ _ => ctxType
  | .identifier ident => ident.type
  | .cast _ castTo => castTo
  | .unary _ expr => checkExpressionIn ctxType expr
  | .binary _ left right =>
    biggestType (checkExpressionIn ctxType left) (checkExpressionIn ctxType right)

def typesAreEqual (lhs rhs : IntegerType) : Bool := lhs = rhs ∨ rhs.size ≤ lhs.size

/-- What the data of the program can start with. -/
def isConstantValue : AstExpr → Bool
  | .literal _ _ | .identifier _ => true
  | .unary .minus (.literal _ _) | .unary .minus (.identifier _) => true
  | .cast expr _ => isConstantValue expr
  | _ => false

def checkDeclaration (type : IntegerType) (value : AstExpr) : Bool :=
  let valueType := checkExpressionIn type value
  let untypedFits := valueType.isUntyped
  !(untypedFits && !leadsToIntegerOverflow type true value) &&
    !(!untypedFits && !typesAreEqual type valueType) && leadsToIntegerOverflow type true value

def checkAssignment (lhsType : IntegerType) (expr : AstExpr) : Bool :=
  let exprType := checkExpressionIn lhsType expr
  !(!exprType.isUntyped && !typesAreEqual lhsType exprType) && leadsToIntegerOverflow lhsType true expr

/-- The element is compared with the limits of its type before the names in it are resolved. -/
def checkArrayElement (elemType : IntegerType) (expr : AstExpr) : Bool :=
  leadsToIntegerOverflow elemType false expr &&
    typesAreEqual elemType (checkExpressionIn elemType expr)

/-- An arm after the first one, which decides the type if none is wanted. -/
def checkSwitchArm (resultType : IntegerType) (value : AstExpr) : Bool :=
  let valueType := checkExpressionIn resultType value
  leadsToIntegerOverflow resultType true value &&
    (valueType.isUntyped || typesAreEqual resultType valueType)

def checkPlace (place : Place) (type : IntegerType) (expr : AstExpr) : Bool :=
  match place with
  | .declaration => checkDeclaration type expr
  | .globalVariable => checkDeclaration type expr && isConstantValue expr
  | .assignment => checkAssignment type expr
  | .arrayElement => checkArrayElement type expr
  | .switchArm => checkSwitchArm type expr

/-! ## What is stored -/

/-- `lowerExpr` of an expression whose nodes have the types that they get where a type is wanted. -/
def lowerExprIn (ctxType : IntegerType) : AstExpr → Option RuntimeValue
  | .literal integer _ => some ⟨ctxType, emitConst ctxType integer⟩
  | .identifier ident => some ⟨ident.value.type, emitConst _ ident.value.integer⟩
  | .cast expr castTo =>
    (lowerScalarAs expr castTo
      (lowerExpr expr (solidifyUntypedType (checkExpression expr)))).map fun value => ⟨castTo, value⟩
  | .unary op expr =>
    let type := checkExpressionIn ctxType (.unary op expr)
    (lowerScalarAs expr type (lowerExprIn ctxType expr)).map fun value =>
      ⟨type, match op with
        | .minus => -value
        | .bitwiseNot => ~~~value⟩
  | .binary op left right => do
    let type := checkExpressionIn ctxType (.binary op left right)
    let a ← lowerScalarAs left type (lowerExprIn ctxType left)
    let b ← lowerScalarAs right type (lowerExprIn ctxType right)
    return ⟨type, ← emitArithmetic op type a b⟩

/-- The bytes that a global variable starts with. Of a minus before a name the bytes are those of a
`double`, made of the address of the name: no integer is written. -/
def writeConstant (type : IntegerType) : AstExpr → Option (BitVec type.bits)
  | .literal integer _ => some (integer.setWidth _)
  | .identifier ident => some (ident.value.integer.setWidth _)
  | .unary .minus (.literal integer _) => some ((-integer).setWidth _)
  | .cast expr _ => writeConstant type expr
  | _ => none

def storedAt (place : Place) (type : IntegerType) (expr : AstExpr) : Option (BitVec type.bits) :=
  match place with
  | .globalVariable => writeConstant type expr
  | _ => lowerScalarAs expr type (lowerExprIn type expr)

/-! ## Constant expressions of a program -/

/-- An integer expression of literals and named constants, with the expression that each constant is
declared with. -/
inductive ConstantExpr
  | literal (number : BitVec 64)
  | constant (value : ConstantExpr)
  | minus (expr : ConstantExpr)
  | binary (op : BinaryOp) (left right : ConstantExpr)
deriving Repr

namespace ConstantExpr

/-- The expression with its constants declared. `none` if the declaration of one is refused. -/
def toAst : ConstantExpr → Option AstExpr
  | .literal number => some (.literal number number.msb)
  | .constant value => do return .identifier (← declareConstant (← value.toAst))
  | .minus expr => do return .unary .minus (← expr.toAst)
  | .binary op left right => do return .binary op (← left.toAst) (← right.toAst)

end ConstantExpr

/-- An operator on integers without a limit. -/
def BinaryOp.number (op : BinaryOp) (a b : ℤ) : Option ℤ :=
  match op with
  | .add => some (a + b)
  | .sub => some (a - b)
  | .mul => some (a * b)
  | .div => if b = 0 then none else some (a.tdiv b)
  | .mod => if b = 0 then none else some (a.tmod b)
  | .or => some (a.lor b)
  | .and => some (a.land b)
  | .xor => some (a.xor b)
  | .shiftLeft => if b < 0 then none else some (a * 2 ^ b.toNat)
  | .shiftRight => if b < 0 then none else some (a / 2 ^ b.toNat)

namespace ConstantExpr

/-- The mathematical value. -/
def value : ConstantExpr → Option ℤ
  | .literal number => some number.toNat
  | .constant value => value.value
  | .minus expr => expr.value.map fun n => -n
  | .binary op left right => do op.number (← left.value) (← right.value)

end ConstantExpr

def IntegerType.Contains (type : IntegerType) (n : ℤ) : Prop :=
  if type.isSigned then -(2 ^ (type.bits - 1)) ≤ n ∧ n < 2 ^ (type.bits - 1)
  else 0 ≤ n ∧ n < 2 ^ type.bits

/-- The expression has a value in the range of the type. -/
def ConstantExpr.Fits (expr : ConstantExpr) (type : IntegerType) : Prop :=
  ∃ n, expr.value = some n ∧ type.Contains n

/-- The typer accepts the expression at the place exactly if its value is in the range of the type, and
then that value is stored. -/
def WantedRight (place : Place) (type : IntegerType) (expr : ConstantExpr) : Prop :=
  ((∃ ast, expr.toAst = some ast ∧ checkPlace place type ast = true) ↔ expr.Fits type) ∧
    ∀ ast n, expr.toAst = some ast → checkPlace place type ast = true → expr.value = some n →
      (storedAt place type ast).map (readInt type.isSigned) = some n

end Saad

/-! # When the check of an integer is right

A literal is always checked right. A named constant is, by the literal that it was folded to, where its
name is resolved in time and the literal keeps all its bits. Other expressions are let through, so
that they are right when their value fits, and the code that wraps at the types of its nodes comes to it.
-/

namespace Saad

open General

/-- The number that a literal stands for. -/
def AstLiteral.number (literal : AstLiteral) : ℤ :=
  if literal.isBigger then literal.integer.toNat else literal.integer.toInt

namespace ConstantExpr

/-- The literal that a constant declared with the expression is folded to. -/
def folded (value : ConstantExpr) : Option AstLiteral := do
  return (← declareConstant (← value.toAst)).value

def hasConstant : ConstantExpr → Bool
  | .literal _ => false
  | .constant _ => true
  | .minus expr => expr.hasConstant
  | .binary _ left right => left.hasConstant || right.hasConstant

/-- A minus before a literal or a name. -/
def isSigned : ConstantExpr → Bool
  | .minus (.literal _) | .minus (.constant _) => true
  | _ => false

/-- Sums, differences and products of literals and of constants that keep their low bits: they are
right in the low bits, whatever wraps. -/
def WrapsRight (type : IntegerType) : ConstantExpr → Prop
  | .literal _ => True
  | .constant value => ∀ literal n, value.folded = some literal → value.value = some n →
      (literal.type.wrap literal.integer).setWidth type.bits = BitVec.ofInt type.bits n
  | .minus expr => expr.WrapsRight type
  | .binary op left right =>
    (op = .add ∨ op = .sub ∨ op = .mul) ∧ left.WrapsRight type ∧ right.WrapsRight type

end ConstantExpr

section Conditions

variable (place : Place) (type : IntegerType)

/-- The bits that are stored of a constant that was folded to the literal. -/
def constantBits (literal : AstLiteral) : BitVec type.bits :=
  (if place = .globalVariable then literal.integer
    else literal.type.wrap literal.integer).setWidth type.bits

/-- A constant that was folded to the literal is accepted. -/
def ConstantAdmitted (literal : AstLiteral) : Prop :=
  if place = .arrayElement then 4 ≤ type.size else type.Contains literal.number

/-- An expression with an operator is accepted. -/
def ArithmeticAdmitted (expr : ConstantExpr) : Prop :=
  match place with
  | .arrayElement => 4 ≤ type.size ∨ expr.hasConstant = false
  | .globalVariable => expr.isSigned = true
  | _ => True

/-- The value of an expression with an operator is what is stored. -/
def ArithmeticKept (expr : ConstantExpr) (ast : AstExpr) (n : ℤ) : Prop :=
  match place with
  | .globalVariable => expr.hasConstant = false
  | _ => expr.WrapsRight type ∨
      lowerScalarAs ast type (lowerExprIn type ast) = some (BitVec.ofInt type.bits n)

/-- When an integer is checked and stored right. -/
def WantedCondition (expr : ConstantExpr) : Prop :=
  match expr, expr.toAst with
  | .literal _, _ => True
  | _, none => ¬ expr.Fits type
  | .constant value, some _ => ∀ literal, value.folded = some literal →
      (ConstantAdmitted place type literal ↔ expr.Fits type) ∧
        ∀ n, expr.value = some n → type.Contains n →
          constantBits place type literal = BitVec.ofInt type.bits n
  | expr, some ast => (ArithmeticAdmitted place type expr ↔ expr.Fits type) ∧
      ∀ n, expr.value = some n → type.Contains n → ArithmeticKept place type expr ast n

end Conditions

/-! ## Limits -/

section Limits

variable {type : IntegerType}

theorem maxIntegerValue_eq (named : type.isUntyped = false) : maxIntegerValue type =
    if type.isSigned then 2 ^ (type.bits - 1) - 1 else 2 ^ type.bits - 1 := by
  cases type with
  | untypedInt => exact absurd named (by decide)
  | _ => rfl

theorem contains_iff_le (named : type.isUntyped = false) {n : ℤ} (nonneg : 0 ≤ n) :
    type.Contains n ↔ n.toNat ≤ maxIntegerValue type := by
  have high : 0 < 2 ^ (type.bits - 1) := by positivity
  have all : 0 < 2 ^ type.bits := by positivity
  rw [IntegerType.Contains, maxIntegerValue_eq named]
  zify at high all ⊢
  split
  · push_cast [Nat.cast_sub (Nat.one_le_two_pow)]
    rw [Int.toNat_of_nonneg nonneg]
    constructor <;> intro bound <;> [skip; constructor] <;> omega
  · push_cast [Nat.cast_sub (Nat.one_le_two_pow)]
    rw [Int.toNat_of_nonneg nonneg]
    constructor <;> intro bound <;> [skip; constructor] <;> omega

theorem contains_iff_of_neg (named : type.isUntyped = false) {n : ℤ} (negative : n < 0) :
    type.Contains n ↔ type.isSigned = true ∧ (-(n + 1)).toNat ≤ maxIntegerValue type := by
  have high : 0 < 2 ^ (type.bits - 1) := by positivity
  rw [IntegerType.Contains, maxIntegerValue_eq named]
  split
  · next signed =>
    have shown : ((-(n + 1)).toNat : ℤ) = -(n + 1) := Int.toNat_of_nonneg (by omega)
    zify at high ⊢
    push_cast [Nat.cast_sub (Nat.one_le_two_pow), shown]
    exact ⟨fun bound => ⟨signed, by omega⟩, fun bound => ⟨by omega, by omega⟩⟩
  · next unsigned => exact ⟨fun bound => by omega, fun bound => absurd bound.1 unsigned⟩

theorem toNat_neg_add_one {n : BitVec 64} (negative : n.toInt < 0) :
    (-(n + 1)).toNat = (-(n.toInt + 1)).toNat := by
  have conditions := BitVec.toInt_eq_toNat_cond n
  have bound := n.isLt
  have same : -(n + 1) = ~~~n := by rw [BitVec.not_eq_neg_add, neg_add']; rfl
  rw [same, BitVec.toNat_not]
  split at conditions <;> omega

theorem leadsToIntegerOverflow_literal (named : type.isUntyped = false) (isResolved : Bool)
    (number : BitVec 64) : leadsToIntegerOverflow type isResolved (.literal number number.msb) = true ↔
      type.Contains number.toNat := by
  have flagged : ¬ (number.toInt < 0 ∧ type.isSigned = true ∧ ¬ number.msb = true) := by
    rw [BitVec.toInt_neg_iff, BitVec.msb_eq_true_iff_two_mul_ge]
    tauto
  rw [contains_iff_le named (Int.natCast_nonneg _), Int.toNat_natCast]
  simp only [leadsToIntegerOverflow, if_neg flagged, decide_eq_true_eq, not_lt]

theorem leadsToIntegerOverflow_identifier (named : type.isUntyped = false) (ident : AstIdentifier) :
    leadsToIntegerOverflow type true (.identifier ident) = true ↔
      type.Contains ident.value.number := by
  have conditions := BitVec.toInt_eq_toNat_cond ident.value.integer
  have bound := ident.value.integer.isLt
  unfold leadsToIntegerOverflow AstLiteral.number
  cases big : ident.value.isBigger
  · by_cases negative : ident.value.integer.toInt < 0
    · rw [if_neg (by decide), contains_iff_of_neg named negative, ← toNat_neg_add_one negative]
      simp [negative, big]
    · have same : ident.value.integer.toInt.toNat = ident.value.integer.toNat := by
        split at conditions <;> omega
      rw [if_neg (by decide), contains_iff_le named (by omega), same]
      simp [negative]
  · rw [if_pos rfl, contains_iff_le named (Int.natCast_nonneg _), Int.toNat_natCast]
    simp [big]

end Limits

/-! ## Types of the nodes -/

section Nodes

variable {type : IntegerType} {expr value left right : ConstantExpr} {op : BinaryOp} {ast : AstExpr}

theorem toAst_constant : (ConstantExpr.constant value).toAst = some ast ↔
    ∃ inner ident, value.toAst = some inner ∧ declareConstant inner = some ident ∧
      ast = .identifier ident := by
  simp [ConstantExpr.toAst, Option.bind_eq_some_iff, @eq_comm _ ast]

theorem toAst_minus : (ConstantExpr.minus expr).toAst = some ast ↔
    ∃ inner, expr.toAst = some inner ∧ ast = .unary .minus inner := by
  simp [ConstantExpr.toAst, Option.bind_eq_some_iff, @eq_comm _ ast]

theorem toAst_binary : (ConstantExpr.binary op left right).toAst = some ast ↔
    ∃ a b, left.toAst = some a ∧ right.toAst = some b ∧ ast = .binary op a b := by
  simp [ConstantExpr.toAst, Option.bind_eq_some_iff, @eq_comm _ ast]

theorem declareConstant_type {value : AstExpr} {ident : AstIdentifier}
    (declared : declareConstant value = some ident) : ident.type = checkExpression value := by
  unfold declareConstant at declared
  split at declared
  · exact (Option.some.inj declared).symm ▸ rfl
  · cases declared

/-- Without a wanted type no expression has one. -/
theorem checkExpression_toAst (parsed : expr.toAst = some ast) : checkExpression ast = .untypedInt := by
  induction expr generalizing ast with
  | literal number =>
    cases parsed
    rfl
  | constant value ih =>
    obtain ⟨inner, ident, first, declared, rfl⟩ := toAst_constant.mp parsed
    exact (declareConstant_type declared).trans (ih first)
  | minus operand ih =>
    obtain ⟨inner, first, rfl⟩ := toAst_minus.mp parsed
    have same := ih first
    exact same
  | binary op left right leftIh rightIh =>
    obtain ⟨a, b, first, second, rfl⟩ := toAst_binary.mp parsed
    rw [checkExpression, leftIh first, rightIh second]
    rfl

/-- A declared constant has no type, as no expression that it is declared with has one. -/
theorem identifier_untyped {inner : AstExpr} {ident : AstIdentifier} (parsed : expr.toAst = some inner)
    (declared : declareConstant inner = some ident) : ident.type = .untypedInt :=
  (declareConstant_type declared).trans (checkExpression_toAst parsed)

/-- Each node has the wanted type, or none. -/
theorem checkExpressionIn_toAst (parsed : expr.toAst = some ast) :
    checkExpressionIn type ast = type ∨ checkExpressionIn type ast = .untypedInt := by
  induction expr generalizing ast with
  | literal number =>
    cases parsed
    exact .inl rfl
  | constant value ih =>
    obtain ⟨inner, ident, first, declared, rfl⟩ := toAst_constant.mp parsed
    exact .inr (identifier_untyped first declared)
  | minus operand ih =>
    obtain ⟨inner, first, rfl⟩ := toAst_minus.mp parsed
    have same := ih first
    exact same
  | binary op left right leftIh rightIh =>
    obtain ⟨a, b, first, second, rfl⟩ := toAst_binary.mp parsed
    rw [checkExpressionIn, biggestType]
    split
    · exact leftIh first
    · exact rightIh second

theorem untypedInt_size : IntegerType.untypedInt.size = 4 := rfl

/-- In a type that is smaller than `int`, one constant takes the type from the nodes over it. -/
theorem checkExpressionIn_of_small (small : type.size < 4) (parsed : expr.toAst = some ast) :
    checkExpressionIn type ast = if expr.hasConstant then .untypedInt else type := by
  induction expr generalizing ast with
  | literal number =>
    cases parsed
    rfl
  | constant value ih =>
    obtain ⟨inner, ident, first, declared, rfl⟩ := toAst_constant.mp parsed
    exact identifier_untyped first declared
  | minus operand ih =>
    obtain ⟨inner, first, rfl⟩ := toAst_minus.mp parsed
    have same := ih first
    exact same
  | binary op left right leftIh rightIh =>
    obtain ⟨a, b, first, second, rfl⟩ := toAst_binary.mp parsed
    rw [checkExpressionIn, leftIh first, rightIh second, biggestType, ConstantExpr.hasConstant]
    cases left.hasConstant <;> cases right.hasConstant <;> simp [untypedInt_size, small, small.le]

theorem typesAreEqual_iff (parsed : expr.toAst = some ast) :
    typesAreEqual type (checkExpressionIn type ast) = true ↔ 4 ≤ type.size ∨ expr.hasConstant = false := by
  by_cases large : 4 ≤ type.size
  · rcases (checkExpressionIn_toAst parsed :
      checkExpressionIn type ast = type ∨ checkExpressionIn type ast = .untypedInt) with same | untyped
    · simp [typesAreEqual, same, large]
    · simp [typesAreEqual, untyped, large, untypedInt_size]
  · rw [checkExpressionIn_of_small (not_le.mp large) parsed]
    have unequal : type ≠ .untypedInt := by
      rintro rfl
      exact large le_rfl
    cases expr.hasConstant <;> simp [typesAreEqual, large, unequal, untypedInt_size]

/-- Everywhere but in an array literal the limits of the type decide, and for a global variable that
the value is known. -/
theorem checkPlace_eq (named : type.isUntyped = false) (parsed : expr.toAst = some ast)
    {place : Place} (notElement : place ≠ .arrayElement) : checkPlace place type ast =
      (leadsToIntegerOverflow type true ast &&
        (place != .globalVariable || isConstantValue ast)) := by
  have untyped : IntegerType.untypedInt.isUntyped = true := rfl
  have equal : typesAreEqual type type = true := by simp [typesAreEqual]
  rcases (checkExpressionIn_toAst parsed :
      checkExpressionIn type ast = type ∨ checkExpressionIn type ast = .untypedInt) with same | same <;>
    cases place <;>
    simp [checkPlace, checkDeclaration, checkAssignment, checkSwitchArm, same, named, untyped, equal] at *

end Nodes

/-! ## Low bits -/

section Bits

variable {type : IntegerType} {expr : ConstantExpr} {ast : AstExpr} {n : ℤ}

/-- The value of an expression in the 64 bits of a literal. -/
def wantedValue (ctxType : IntegerType) (expr : AstExpr) : Option (BitVec 64) :=
  match expr with
  | .literal integer _ => some integer
  | expr => (lowerExprIn ctxType expr).map RuntimeValue.integer

theorem lowerScalarAs_lowerExprIn (expr : AstExpr) (target : IntegerType) :
    lowerScalarAs expr target (lowerExprIn type expr) =
      (wantedValue type expr).map fun value => value.setWidth target.bits := by
  cases expr <;> simp [lowerScalarAs, wantedValue, emitConst, convertScalar_eq, Function.comp_def]

/-- Low bits are those of the word before it was extended. -/
theorem setWidth_integer_of_le {node : IntegerType} (narrow : type.bits ≤ node.bits)
    (value : BitVec node.bits) : (node.integer value).setWidth type.bits = value.setWidth type.bits := by
  rw [IntegerType.integer, setWidth_extended _ _ type.bits_le, extended_of_le _ _ narrow]

theorem bits_le_checkExpressionIn (parsed : expr.toAst = some ast) :
    type.bits ≤ (checkExpressionIn type ast).bits := by
  rcases (checkExpressionIn_toAst parsed :
      checkExpressionIn type ast = type ∨ checkExpressionIn type ast = .untypedInt) with same | same
  · rw [same]
  · rw [same]
    exact type.bits_le

theorem wantedValue_minus (expr : AstExpr) : wantedValue type (.unary .minus expr) =
    (wantedValue type expr).map fun x =>
      let node := checkExpressionIn type expr
      node.integer (-(x.setWidth node.bits)) := by
  change (lowerExprIn type (.unary .minus expr)).map RuntimeValue.integer = _
  simp only [lowerExprIn, lowerScalarAs_lowerExprIn, Option.map_map]
  rfl

theorem wantedValue_binary (op : BinaryOp) (left right : AstExpr) : wantedValue type (.binary op left right) =
    let node := checkExpressionIn type (.binary op left right)
    (wantedValue type left).bind fun a => (wantedValue type right).bind fun b =>
      (emitArithmetic op node (a.setWidth _) (b.setWidth _)).map node.integer := by
  change (lowerExprIn type (.binary op left right)).map RuntimeValue.integer = _
  simp only [lowerExprIn, lowerScalarAs_lowerExprIn]
  cases wantedValue type left with
  | none => rfl
  | some a =>
    cases wantedValue type right with
    | none => rfl
    | some b =>
      simp only [Option.map_some, Option.bind_eq_bind, Option.bind_some]
      cases emitArithmetic op _ (a.setWidth _) (b.setWidth _) <;> rfl

/-- The low bits of a sum, a difference or a product in a wider type. -/
theorem emitArithmetic_low {op : BinaryOp} {node : IntegerType} (narrow : type.bits ≤ node.bits)
    (ring : op = .add ∨ op = .sub ∨ op = .mul) {x y : BitVec node.bits} {a b : ℤ}
    (lowX : x.setWidth type.bits = BitVec.ofInt type.bits a)
    (lowY : y.setWidth type.bits = BitVec.ofInt type.bits b) (computed : op.number a b = some n) :
    ∃ z, emitArithmetic op node x y = some z ∧
      z.setWidth type.bits = BitVec.ofInt type.bits n := by
  rcases ring with rfl | rfl | rfl <;> cases computed
  · refine ⟨x + y, rfl, ?_⟩
    rw [BitVec.setWidth_add _ _ narrow, lowX, lowY, BitVec.ofInt_add]
  · refine ⟨x - y, rfl, ?_⟩
    rw [setWidth_sub _ _ narrow, lowX, lowY, sub_eq_add_neg a, BitVec.ofInt_add, BitVec.ofInt_neg,
      ← BitVec.sub_eq_add_neg]
  · refine ⟨x * y, rfl, ?_⟩
    rw [BitVec.setWidth_mul _ _ narrow, lowX, lowY, BitVec.ofInt_mul]

/-- Sums, differences and products have the low bits of their operands' values. -/
theorem lowBits_of_wrapsRight (wraps : expr.WrapsRight type) (parsed : expr.toAst = some ast)
    (valued : expr.value = some n) : ∃ x, wantedValue type ast = some x ∧
      x.setWidth type.bits = BitVec.ofInt type.bits n := by
  induction expr generalizing ast n with
  | literal number =>
    cases parsed
    cases valued
    exact ⟨number, rfl, ((BitVec.ofInt_natCast ..).trans (BitVec.ofNat_toNat ..)).symm⟩
  | constant value ih =>
    obtain ⟨inner, ident, first, declared, rfl⟩ := toAst_constant.mp parsed
    have folded : value.folded = some ident.value := by
      simp [ConstantExpr.folded, first, declared]
    exact ⟨_, rfl, wraps ident.value n folded valued⟩
  | minus operand ih =>
    have narrow : type.bits ≤ (checkExpressionIn type ast).bits := bits_le_checkExpressionIn parsed
    obtain ⟨inner, first, rfl⟩ := toAst_minus.mp parsed
    obtain ⟨m, has, rfl⟩ := Option.map_eq_some_iff.mp valued
    obtain ⟨x, runs, low⟩ := ih wraps first has
    refine ⟨_, by rw [wantedValue_minus, runs, Option.map_some], ?_⟩
    rw [checkExpressionIn] at narrow
    rw [setWidth_integer_of_le narrow, BitVec.setWidth_neg_of_le narrow,
      BitVec.setWidth_setWidth_of_le _ narrow, low, BitVec.ofInt_neg]
  | binary op left right leftIh rightIh =>
    have narrow : type.bits ≤ (checkExpressionIn type ast).bits := bits_le_checkExpressionIn parsed
    obtain ⟨ring, leftWraps, rightWraps⟩ := wraps
    obtain ⟨a, b, first, second, rfl⟩ := toAst_binary.mp parsed
    obtain ⟨l, leftHas, rest⟩ := Option.bind_eq_some_iff.mp valued
    obtain ⟨r, rightHas, computed⟩ := Option.bind_eq_some_iff.mp rest
    obtain ⟨x, leftRuns, leftLow⟩ := leftIh leftWraps first leftHas
    obtain ⟨y, rightRuns, rightLow⟩ := rightIh rightWraps second rightHas
    obtain ⟨z, emitted, low⟩ := emitArithmetic_low narrow ring
      ((BitVec.setWidth_setWidth_of_le x narrow).trans leftLow)
      ((BitVec.setWidth_setWidth_of_le y narrow).trans rightLow) computed
    refine ⟨_, ?_, (setWidth_integer_of_le narrow z).trans low⟩
    rw [wantedValue_binary, leftRuns, rightRuns, Option.bind_some, Option.bind_some, emitted,
      Option.map_some]

theorem readInt_ofInt (contained : type.Contains n) :
    readInt type.isSigned (BitVec.ofInt type.bits n) = n := by
  have wide := type.le_bits
  unfold IntegerType.Contains at contained
  unfold readInt
  split at contained
  · next signed =>
    rw [if_pos signed, BitVec.toInt_ofInt]
    have half : (2 ^ type.bits : ℤ) = 2 * 2 ^ (type.bits - 1) := by
      rw [← pow_succ', Nat.sub_add_cancel (by omega)]
    apply Int.bmod_eq_of_le <;> push_cast [half] <;> omega
  · next unsigned =>
    rw [if_neg unsigned, BitVec.toNat_ofInt]
    push_cast
    rw [Int.emod_eq_of_lt contained.1 contained.2, Int.toNat_of_nonneg contained.1]

theorem readInt_eq_iff (contained : type.Contains n) (bits : BitVec type.bits) :
    readInt type.isSigned bits = n ↔ bits = BitVec.ofInt type.bits n := by
  constructor
  · rintro rfl
    exact (ofInt_readInt _ bits).symm
  · rintro rfl
    exact readInt_ofInt contained

end Bits

/-! ## Places -/

section Places

variable {place : Place} {type : IntegerType} {expr : ConstantExpr} {ast : AstExpr}

/-- What is left to show of an expression when it is known what is accepted. -/
theorem wantedRight_iff_of {admitted : Prop} (parsed : expr.toAst = some ast)
    (accepted : checkPlace place type ast = true ↔ admitted) : WantedRight place type expr ↔
      (admitted ↔ expr.Fits type) ∧ ∀ n, expr.value = some n → type.Contains n →
        storedAt place type ast = some (BitVec.ofInt type.bits n) := by
  have stored_iff {n : ℤ} (contained : type.Contains n) :
      (storedAt place type ast).map (readInt type.isSigned) = some n ↔
        storedAt place type ast = some (BitVec.ofInt type.bits n) := by
    cases storedAt place type ast with
    | none => simp
    | some bits => simp [readInt_eq_iff contained]
  have some_accepted : (∃ other, expr.toAst = some other ∧ checkPlace place type other = true) ↔
      admitted := by simp [parsed, accepted]
  rw [WantedRight, some_accepted]
  refine and_congr_right fun same => ⟨fun stores n valued contained => ?_,
    fun stores other n parsed' accepts valued => ?_⟩
  · have fits : expr.Fits type := ⟨n, valued, contained⟩
    exact (stored_iff contained).mp (stores ast n parsed (accepted.mpr (same.mpr fits)) valued)
  · cases parsed.symm.trans parsed'
    obtain ⟨m, has, contained⟩ := same.mp (accepted.mp accepts)
    cases has.symm.trans valued
    exact (stored_iff contained).mpr (stores n valued contained)

theorem wantedRight_of_refused (refused : expr.toAst = none) :
    WantedRight place type expr ↔ ¬ expr.Fits type := by
  simp [WantedRight, refused]

theorem wantedRight_literal (named : type.isUntyped = false) (number : BitVec 64) :
    WantedRight place type (.literal number) := by
  have accepted : checkPlace place type (.literal number number.msb) = true ↔
      type.Contains number.toNat := by
    rw [← leadsToIntegerOverflow_literal named true number]
    by_cases element : place = .arrayElement
    · subst element
      simp [checkPlace, checkArrayElement, checkExpressionIn, typesAreEqual, leadsToIntegerOverflow]
    · rw [checkPlace_eq named (ConstantExpr.toAst.eq_1 number) element]
      simp [isConstantValue]
  refine (wantedRight_iff_of (ConstantExpr.toAst.eq_1 number) accepted).mpr ⟨?_, fun n valued _ => ?_⟩
  · simp [ConstantExpr.Fits, ConstantExpr.value]
  · cases valued
    have bits : number.setWidth type.bits = BitVec.ofInt type.bits number.toNat :=
      ((BitVec.ofInt_natCast ..).trans (BitVec.ofNat_toNat ..)).symm
    rw [← bits]
    cases place <;> rfl

theorem accepted_constant_iff (named : type.isUntyped = false) {value : ConstantExpr} {inner : AstExpr}
    {ident : AstIdentifier} (parsed : value.toAst = some inner)
    (declared : declareConstant inner = some ident) :
    checkPlace place type (.identifier ident) = true ↔ ConstantAdmitted place type ident.value := by
  have whole : (ConstantExpr.constant value).toAst = some (.identifier ident) :=
    toAst_constant.mpr ⟨inner, ident, parsed, declared, rfl⟩
  unfold ConstantAdmitted
  split
  · next element =>
    subst element
    have equal : typesAreEqual type (checkExpressionIn type (.identifier ident)) = true ↔
        4 ≤ type.size ∨ (ConstantExpr.constant value).hasConstant = false := typesAreEqual_iff whole
    simpa [checkPlace, checkArrayElement, leadsToIntegerOverflow, ConstantExpr.hasConstant] using equal
  · next element =>
    rw [checkPlace_eq named whole element, ← leadsToIntegerOverflow_identifier named ident]
    simp [isConstantValue]

theorem storedAt_identifier (ident : AstIdentifier) : storedAt place type (.identifier ident) =
    some (constantBits place type ident.value) := by
  have lowered : lowerScalarAs (.identifier ident) type (lowerExprIn type (.identifier ident)) =
      some ((ident.value.type.wrap ident.value.integer).setWidth type.bits) :=
    lowerScalarAs_lowerExprIn _ _
  cases place <;> first | rfl | exact lowered

theorem isConstantValue_minus {operand : ConstantExpr} {inner : AstExpr}
    (parsed : operand.toAst = some inner) :
    isConstantValue (.unary .minus inner) = (ConstantExpr.minus operand).isSigned := by
  cases operand with
  | literal number =>
    cases parsed
    rfl
  | constant value =>
    obtain ⟨_, ident, _, _, rfl⟩ := toAst_constant.mp parsed
    rfl
  | minus expr =>
    obtain ⟨_, _, rfl⟩ := toAst_minus.mp parsed
    rfl
  | binary op left right =>
    obtain ⟨a, b, _, _, rfl⟩ := toAst_binary.mp parsed
    rfl

/-- An expression with an operator is let through, but for the type in an array literal and what a
global variable can start with. -/
theorem accepted_arithmetic_iff (named : type.isUntyped = false) (parsed : expr.toAst = some ast)
    (free : ∀ isResolved, leadsToIntegerOverflow type isResolved ast = true)
    (known : isConstantValue ast = expr.isSigned) :
    checkPlace place type ast = true ↔ ArithmeticAdmitted place type expr := by
  by_cases element : place = .arrayElement
  · subst element
    simpa [checkPlace, checkArrayElement, free, ArithmeticAdmitted] using typesAreEqual_iff parsed
  · rw [checkPlace_eq named parsed element, free]
    cases place <;> simp [ArithmeticAdmitted, known] at element ⊢

theorem writeConstant_signed {n : ℤ} (parsed : expr.toAst = some ast) (signed : expr.isSigned = true)
    (valued : expr.value = some n) :
    writeConstant type ast = some (BitVec.ofInt type.bits n) ↔ expr.hasConstant = false := by
  unfold ConstantExpr.isSigned at signed
  split at signed
  · next number =>
    cases parsed
    cases valued
    have bits : (-number).setWidth type.bits = BitVec.ofInt type.bits (-(number.toNat : ℤ)) := by
      rw [BitVec.setWidth_neg_of_le type.bits_le, BitVec.ofInt_neg, BitVec.ofInt_natCast,
        BitVec.ofNat_toNat]
    simp [writeConstant, bits, ConstantExpr.hasConstant]
  · next value =>
    obtain ⟨inner, first, rfl⟩ := toAst_minus.mp parsed
    obtain ⟨_, ident, _, _, rfl⟩ := toAst_constant.mp first
    simp [writeConstant, ConstantExpr.hasConstant]
  · cases signed

/-- What is stored of an accepted expression with an operator. -/
theorem storedAt_arithmetic_iff {n : ℤ} (parsed : expr.toAst = some ast)
    (admitted : ArithmeticAdmitted place type expr) (valued : expr.value = some n) :
    storedAt place type ast = some (BitVec.ofInt type.bits n) ↔
      ArithmeticKept place type expr ast n := by
  have lowered : expr.WrapsRight type →
      lowerScalarAs ast type (lowerExprIn type ast) = some (BitVec.ofInt type.bits n) := by
    intro wraps
    obtain ⟨x, runs, low⟩ := lowBits_of_wrapsRight wraps parsed valued
    rw [lowerScalarAs_lowerExprIn, runs, Option.map_some, low]
  cases place with
  | globalVariable => exact writeConstant_signed parsed admitted valued
  | _ => exact ⟨.inr, fun kept => kept.elim lowered id⟩

theorem wantedRight_arithmetic_iff (named : type.isUntyped = false) (parsed : expr.toAst = some ast)
    (free : ∀ isResolved, leadsToIntegerOverflow type isResolved ast = true)
    (known : isConstantValue ast = expr.isSigned) : WantedRight place type expr ↔
      (ArithmeticAdmitted place type expr ↔ expr.Fits type) ∧
        ∀ n, expr.value = some n → type.Contains n → ArithmeticKept place type expr ast n := by
  rw [wantedRight_iff_of parsed (accepted_arithmetic_iff named parsed free known)]
  refine and_congr_right fun same => forall_congr' fun n => imp_congr_right fun valued =>
    imp_congr_right fun contained => ?_
  exact storedAt_arithmetic_iff parsed (same.mpr ⟨n, valued, contained⟩) valued

theorem wantedRight_constant_iff (named : type.isUntyped = false) {value : ConstantExpr}
    {literal : AstLiteral} (folded : value.folded = some literal) :
    WantedRight place type (.constant value) ↔
      (ConstantAdmitted place type literal ↔ (ConstantExpr.constant value).Fits type) ∧
        ∀ n, (ConstantExpr.constant value).value = some n → type.Contains n →
          constantBits place type literal = BitVec.ofInt type.bits n := by
  obtain ⟨inner, first, rest⟩ := Option.bind_eq_some_iff.mp folded
  obtain ⟨ident, declared, made⟩ := Option.bind_eq_some_iff.mp rest
  cases made
  rw [wantedRight_iff_of (toAst_constant.mpr ⟨inner, ident, first, declared, rfl⟩)
    (accepted_constant_iff named first declared), storedAt_identifier]
  simp

end Places

end Saad
