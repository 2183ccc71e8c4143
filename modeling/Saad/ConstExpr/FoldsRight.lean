import Saad.ConstExpr.Lower

/-! # Folding against the runtime

The folder computes on 64-bit values without types, and the code on values of a type. `NodeFolds` says
for one node when both agree on operands that they agree on, and a tree folds right with all the
trees in it exactly if all its nodes do (`everywhere_foldsRight_iff`).
-/

namespace Saad

open General

/-- The folder does not crash, and a literal that it gives is the value at runtime. -/
def FoldsRight (expr : AstExpr) (type : IntegerType) : Prop :=
  simplifyExpression expr ≠ .crash ∧
    ∀ literal, simplifyExpression expr = .literal literal → valueOf expr type = some literal.integer

/-- The property holds of the expression and of all expressions in it, with the types of their
nodes. -/
def Everywhere (property : AstExpr → IntegerType → Prop) : AstExpr → IntegerType → Prop
  | .literal integer isBigger, type => property (.literal integer isBigger) type
  | .identifier ident, type => property (.identifier ident) type
  | .cast expr castTo, type => property (.cast expr castTo) type ∧
      Everywhere property expr (solidifyUntypedType (checkExpression expr))
  | .unary op expr, type =>
      property (.unary op expr) type ∧ Everywhere property expr (checkExpression expr)
  | .binary op left right, type => property (.binary op left right) type ∧
      Everywhere property left (checkExpression left) ∧
      Everywhere property right (checkExpression right)

/-! ## When a node folds right -/

section Conditions

variable (type : IntegerType)

/-- The 64 bits are those of a value of the type. -/
def InRange (value : BitVec 64) : Prop := type.wrap value = value

/-- The number that the low bits are in the type. -/
def readAs (value : BitVec 64) : ℤ := readInt type.isSigned (value.setWidth type.bits)

/-- The division in the type has a value, and the one in 64 bits does not trap. -/
def Divides (a b : BitVec 64) : Prop :=
  ¬ (a = BitVec.intMin 64 ∧ b = -1) ∧ readAs type b ≠ 0 ∧
    (type.isSigned = true →
      SignedQuotientFits (a.setWidth type.bits) (b.setWidth type.bits))

/-- An operator folds right on operands with the given values. Sums, products, bits and left shifts
have to be in the range of the type; divisions and right shifts have to give the same for the numbers
that the operands are in the type as for the signed 64-bit numbers. -/
def OperatorFolds (op : BinaryOp) (a b : BitVec 64) : Prop :=
  match op with
  | .add => InRange type (a + b)
  | .sub => InRange type (a - b)
  | .mul => InRange type (a * b)
  | .and => InRange type (a &&& b)
  | .or => InRange type (a ||| b)
  | .xor => InRange type (a ^^^ b)
  | .div => Divides type a b ∧ BitVec.ofInt 64 ((readAs type a).tdiv (readAs type b)) =
      BitVec.ofInt 64 (a.toInt.tdiv b.toInt)
  | .mod => b ≠ 0 → Divides type a b ∧ BitVec.ofInt 64 ((readAs type a).tmod (readAs type b)) =
      BitVec.ofInt 64 (a.toInt.tmod b.toInt)
  | .shiftLeft => b.toNat < 64 → InRange type (a <<< b.toNat)
  | .shiftRight => b.toNat < 64 →
      BitVec.ofInt 64 (readAs type a / 2 ^ x64ShiftCount type.bits b.toNat) =
        BitVec.ofInt 64 (a.toInt / 2 ^ b.toNat)

/-- What the folder leaves alone: a remainder by 0, and a shift by a count outside of 0 to 63. -/
def leftAlone (op : BinaryOp) (b : BitVec 64) : Prop :=
  match op with
  | .mod => b = 0
  | .shiftLeft | .shiftRight => 64 ≤ b.toNat
  | _ => False

/-- The folder makes a literal of the expression. -/
def Foldable : AstExpr → Prop
  | .literal _ _ | .identifier _ => True
  | .cast expr _ | .unary _ expr => Foldable expr
  | .binary op left right => Foldable left ∧ Foldable right ∧
      ∀ b, valueOf right (checkExpression right) = some b → ¬ leftAlone op b

/-- The type that the folder gives the literal. -/
def literalType : AstExpr → IntegerType
  | .literal _ _ => .untypedInt
  | .identifier ident => ident.value.type
  | .cast _ castTo => solidifyUntypedType castTo
  | .unary .bitwiseNot expr => solidifyUntypedType (literalType expr)
  | .unary .minus _ | .binary _ _ _ => .int

/-- A value of the type is one of 2^63 or more. -/
def isBiggerIn (type : IntegerType) (value : BitVec 64) : Bool :=
  type.bits = 64 ∧ !type.isSigned ∧ value.msb

/-- The folder marks the literal of the expression as a value of 2^63 or more. -/
def isMarked (expr : AstExpr) (value : BitVec 64) : Bool :=
  match expr with
  | .literal _ isBigger => isBigger
  | .identifier ident => ident.value.isBigger
  | .cast _ castTo => isBiggerIn castTo value
  | .unary .bitwiseNot expr => isBiggerIn (literalType expr) value
  | .unary .minus _ | .binary _ _ _ => false

/-- The operand is folded, and has the value. -/
def Folded (expr : AstExpr) (value : BitVec 64) : Prop :=
  Foldable expr ∧ valueOf expr (checkExpression expr) = some value

/-- The node folds right if its operands do. -/
def NodeFolds (expr : AstExpr) (type : IntegerType) : Prop :=
  match expr with
  | .literal _ _ | .cast _ _ => True
  | .identifier ident => InRange ident.value.type ident.value.integer
  | .unary .minus expr =>
    ∀ value, Folded expr value → isMarked expr value = false ∧ InRange type (-value)
  | .unary .bitwiseNot expr =>
    ∀ value, Folded expr value → (literalType expr).wrap (~~~value) = type.wrap (~~~value)
  | .binary op left right =>
    ∀ a b, Folded left a → Folded right b → OperatorFolds type op a b

end Conditions

/-! ## One operator -/

section Operators

variable {type : IntegerType} {a b : BitVec 64}

theorem integer_eq_ofInt (value : BitVec type.bits) :
    type.integer value = BitVec.ofInt 64 (readInt type.isSigned value) := extended_eq_ofInt _ _ _

theorem toInt_in_shift_range : (0 ≤ b.toInt ∧ b.toInt < 64) ↔ b.toNat < 64 := by
  have low := BitVec.toInt_eq_toNat_cond b
  have bound := b.isLt
  rw [low]
  split <;> omega

/-- The folder's result of one operator is right. -/
def LiteralsFold (type : IntegerType) (op : BinaryOp) (a b : BitVec 64) : Prop :=
  simplifyLiterals op a b ≠ .crash ∧ ∀ literal, simplifyLiterals op a b = .literal literal →
    (emitArithmetic op type (a.setWidth _) (b.setWidth _)).map type.integer = some literal.integer

theorem literalsFold_of_ring {op : BinaryOp} {result : BitVec 64}
    (folds : simplifyLiterals op a b = .literal (makeLiteralInteger result))
    (computes : emitArithmetic op type (a.setWidth _) (b.setWidth _) =
      some (result.setWidth type.bits)) : LiteralsFold type op a b ↔ InRange type result := by
  simp only [LiteralsFold, folds, computes, Option.map_some, Option.some.injEq, ne_eq, reduceCtorEq,
    not_false_eq_true, true_and, Simplified.literal.injEq, forall_eq']
  rfl

theorem readAs_eq_zero : readAs type b = 0 ↔ b.setWidth type.bits = 0 := readInt_eq_zero

/-- A division that has a value and does not trap agrees if the results do. -/
theorem literalsFold_of_division {op : BinaryOp} {result : BitVec 64}
    {narrow : BitVec type.bits}
    (folds : simplifyLiterals op a b =
      if b = 0 ∨ (a = BitVec.intMin 64 ∧ b = -1) then .crash
      else .literal (makeLiteralInteger result))
    (computes : runtimeBinary (irOpOf op type.isSigned) (a.setWidth type.bits)
        (b.setWidth type.bits) =
      if b.setWidth type.bits ≠ 0 ∧ (type.isSigned = true →
          SignedQuotientFits (a.setWidth type.bits) (b.setWidth type.bits)) then some narrow
      else none) :
    LiteralsFold type op a b ↔ Divides type a b ∧ type.integer narrow = result := by
  have emits : emitArithmetic op type (a.setWidth type.bits) (b.setWidth type.bits) =
      runtimeBinary (irOpOf op type.isSigned) (a.setWidth type.bits) (b.setWidth type.bits) := by
    unfold emitArithmetic
    split
    · next zero => rw [computes, if_neg fun ok => ok.1 zero.2]
    · rfl
  unfold LiteralsFold Divides
  rw [emits, computes, folds, ne_eq (readAs type b), readAs_eq_zero]
  by_cases trap : b = 0 ∨ (a = BitVec.intMin 64 ∧ b = -1)
  · rw [if_pos trap]
    refine iff_of_false (fun right => right.1 rfl) fun right => ?_
    rcases trap with rfl | trap
    · exact right.1.2.1 (by simp)
    · exact right.1.1 trap
  · rw [if_neg trap]
    rw [not_or] at trap
    by_cases ok : b.setWidth type.bits ≠ 0 ∧ (type.isSigned = true →
        SignedQuotientFits (a.setWidth type.bits) (b.setWidth type.bits))
    · rw [if_pos ok]
      constructor
      · rintro ⟨-, right⟩
        exact ⟨⟨trap.2, ok⟩, Option.some.inj (right _ rfl)⟩
      · rintro ⟨-, same⟩
        refine ⟨by simp, fun literal is => ?_⟩
        cases is
        exact congrArg some same
    · rw [if_neg ok]
      refine iff_of_false (fun right => ?_) fun right => ok right.1.2
      simpa using right.2 _ rfl

theorem runtimeBinary_div (x y : BitVec type.bits) :
    runtimeBinary (irOpOf .div type.isSigned) x y =
      if y ≠ 0 ∧ (type.isSigned = true → SignedQuotientFits x y) then
        some (quotient type.isSigned x y) else none := by
  cases type.isSigned <;> simp [irOpOf, runtimeBinary, irBinary, quotient]

theorem runtimeBinary_mod (x y : BitVec type.bits) :
    runtimeBinary (irOpOf .mod type.isSigned) x y =
      if y ≠ 0 ∧ (type.isSigned = true → SignedQuotientFits x y) then
        some (remainder type.isSigned x y) else none := by
  cases type.isSigned <;> simp [irOpOf, runtimeBinary, irBinary, remainder]

theorem runtimeBinary_shiftRight (x y : BitVec type.bits) :
    runtimeBinary (irOpOf .shiftRight type.isSigned) x y =
      some (shiftedRight type.isSigned x (x64ShiftCount type.bits y.toNat)) := by
  cases type.isSigned <;> rfl

/-- A count that the folder takes is the same in every type. -/
theorem toNat_count (type : IntegerType) (small : b.toNat < 64) :
    (b.setWidth type.bits).toNat = b.toNat := by
  rw [BitVec.toNat_setWidth]
  refine Nat.mod_eq_of_lt (small.trans ?_)
  exact lt_of_lt_of_le (by decide) (Nat.pow_le_pow_right (by decide) type.le_bits)

/-- A left shift in the type is one in 64 bits, also where the count is masked: both lose all
bits of the type then, or the result is not in its range. -/
theorem integer_shiftLeft_iff {count : ℕ} (small : count < 64) :
    type.integer ((a.setWidth type.bits) <<< x64ShiftCount type.bits count) = a <<< count ↔
      InRange type (a <<< count) := by
  have unmasked : x64ShiftCount type.bits count = count →
      (type.integer ((a.setWidth type.bits) <<< x64ShiftCount type.bits count) = a <<< count ↔
        InRange type (a <<< count)) := by
    intro same
    rw [same, ← BitVec.setWidth_shiftLeft_of_le type.bits_le]
    rfl
  rcases type.bits_cases with wide | narrow
  · exact unmasked (by rw [x64ShiftCount, if_pos wide, Nat.mod_eq_of_lt small])
  · have mask : x64ShiftCount type.bits count = count % 32 := by
      rw [x64ShiftCount, if_neg (by omega)]
    by_cases below : count < 32
    · exact unmasked (by rw [mask, Nat.mod_eq_of_lt below])
    · -- The low bits of the shift in 64 bits are all lost
      have lost : (a <<< count).setWidth type.bits = 0 := by
        apply BitVec.eq_of_getLsbD_eq
        intro i bound
        simp [show i < count by omega]
      have zero : type.integer 0 = 0 := by simp [integer_eq_ofInt, readInt]
      rw [mask]
      constructor
      · intro same
        have narrowZero : (a.setWidth type.bits) <<< (count % 32) = 0 := by
          rw [← type.setWidth_integer (_ <<< _), same, lost]
        rw [InRange, IntegerType.wrap, lost, zero, ← same, narrowZero, zero]
      · intro inRange
        rw [InRange, IntegerType.wrap, lost, zero] at inRange
        rw [← inRange]
        refine Eq.trans (congrArg type.integer ?_) zero
        apply BitVec.eq_of_getLsbD_eq
        intro i bound
        by_cases shifted : i < count % 32
        · simp [shifted]
        · have inside : i - count % 32 + count < 64 := by omega
          have bit : a.getLsbD (i - count % 32) = false := by
            have same := congrArg
              (fun word : BitVec 64 => word.getLsbD (i - count % 32 + count)) inRange
            simpa only [BitVec.getLsbD_shiftLeft, inside, decide_true, Bool.true_and,
              show ¬ i - count % 32 + count < count by omega, decide_false, Bool.not_false,
              Nat.add_sub_cancel, BitVec.ofNat_eq_ofNat, BitVec.getLsbD_zero] using same.symm
          simp [BitVec.getLsbD_shiftLeft, BitVec.getLsbD_setWidth, bit]

theorem literalsFold_iff (op : BinaryOp) : LiteralsFold type op a b ↔ OperatorFolds type op a b := by
  cases op with
  | add =>
    refine literalsFold_of_ring rfl (congrArg some ?_)
    exact (BitVec.setWidth_add _ _ type.bits_le).symm
  | sub =>
    refine literalsFold_of_ring rfl (congrArg some ?_)
    exact (setWidth_sub _ _ type.bits_le).symm
  | mul =>
    refine literalsFold_of_ring rfl (congrArg some ?_)
    exact (BitVec.setWidth_mul _ _ type.bits_le).symm
  | and => exact literalsFold_of_ring rfl (congrArg some BitVec.setWidth_and.symm)
  | or => exact literalsFold_of_ring rfl (congrArg some BitVec.setWidth_or.symm)
  | xor => exact literalsFold_of_ring rfl (congrArg some BitVec.setWidth_xor.symm)
  | div =>
    refine (literalsFold_of_division rfl (runtimeBinary_div _ _)).trans
      (and_congr_right fun divides => ?_)
    have wide := readInt_quotient true a b fun _ => divides.1
    rw [integer_eq_ofInt, readInt_quotient _ _ _ divides.2.2, ← ofInt_readInt true (a.sdiv b)]
    rw [quotient, if_pos rfl] at wide
    rw [wide]
    rfl
  | mod =>
    by_cases zero : b = 0
    · refine iff_of_true ?_ fun ne => absurd zero ne
      simp [LiteralsFold, simplifyLiterals, zero]
    · simp only [OperatorFolds, ne_eq, zero, not_false_eq_true, forall_const]
      have folds : simplifyLiterals .mod a b =
          if b = 0 ∨ (a = BitVec.intMin 64 ∧ b = -1) then .crash
          else .literal (makeLiteralInteger (a.srem b)) := if_neg zero
      refine (literalsFold_of_division folds (runtimeBinary_mod _ _)).trans
        (and_congr_right fun divides => ?_)
      have wide := readInt_remainder true a b
      rw [integer_eq_ofInt, readInt_remainder, ← ofInt_readInt true (a.srem b)]
      rw [remainder, if_pos rfl] at wide
      rw [wide]
      rfl
  | shiftLeft =>
    by_cases small : b.toNat < 64
    · have computes : emitArithmetic .shiftLeft type (a.setWidth _) (b.setWidth _) =
          some ((a.setWidth _) <<< x64ShiftCount type.bits b.toNat) := by
        rw [← toNat_count type small]
        rfl
      have folds : simplifyLiterals .shiftLeft a b =
          .literal (makeLiteralInteger (a <<< b.toNat)) := if_pos (toInt_in_shift_range.mpr small)
      simp only [OperatorFolds, small, forall_const, ← integer_shiftLeft_iff small]
      simp [LiteralsFold, folds, computes, makeLiteralInteger]
    · refine iff_of_true ?_ fun inside => absurd inside small
      have left : simplifyLiterals .shiftLeft a b = .unfolded :=
        if_neg fun inside => small (toInt_in_shift_range.mp inside)
      simp [LiteralsFold, left]
  | shiftRight =>
    by_cases small : b.toNat < 64
    · have computes : emitArithmetic .shiftRight type (a.setWidth _) (b.setWidth _) =
          some (shiftedRight type.isSigned (a.setWidth _) (x64ShiftCount type.bits b.toNat)) := by
        rw [← toNat_count type small]
        exact runtimeBinary_shiftRight _ _
      have folds : simplifyLiterals .shiftRight a b =
          .literal (makeLiteralInteger (a.sshiftRight b.toNat)) :=
        if_pos (toInt_in_shift_range.mpr small)
      have wide := readInt_shiftedRight true a b.toNat
      rw [shiftedRight, if_pos rfl] at wide
      simp only [OperatorFolds, small, forall_const, LiteralsFold, folds, computes, ne_eq, reduceCtorEq, not_false_eq_true, true_and,
        Simplified.literal.injEq, forall_eq', Option.map_some, Option.some.injEq,
        makeLiteralInteger]
      rw [integer_eq_ofInt, readInt_shiftedRight, ← ofInt_readInt true (a.sshiftRight b.toNat), wide]
      rfl
    · refine iff_of_true ?_ fun inside => absurd inside small
      have left : simplifyLiterals .shiftRight a b = .unfolded :=
        if_neg fun inside => small (toInt_in_shift_range.mp inside)
      simp [LiteralsFold, left]

end Operators

/-! ## Trees -/

section Trees

variable {type : IntegerType}
variable {expr : AstExpr} {op : BinaryOp}

theorem Everywhere.self {property : AstExpr → IntegerType → Prop} {expr : AstExpr}
    (holds : Everywhere property expr type) : property expr type := by
  cases expr with
  | literal integer isBigger => exact holds
  | identifier ident => exact holds
  | cast expr castTo => exact holds.1
  | unary op expr => exact holds.1
  | binary op left right => exact holds.1

theorem wrap_untyped (value : BitVec 64) : IntegerType.untypedInt.wrap value = value := by
  change (BitVec.setWidth 64 value).signExtend 64 = value
  simp

theorem wrap_of_bits (wide : type.bits = 64) (value : BitVec 64) : type.wrap value = value := by
  have low := type.setWidth_integer (value.setWidth type.bits)
  have same {w : ℕ} (is : w = 64) {x y : BitVec 64} (low : x.setWidth w = y.setWidth w) : x = y := by
    subst is
    simpa using low
  exact same wide low

theorem integerOfType_eq (value : BitVec 64) : integerOfType value type =
    { integer := type.wrap value, type := solidifyUntypedType type
      isBigger := isBiggerIn type (type.wrap value) } := by
  unfold integerOfType solidifyUntypedType
  split
  · next untyped =>
    obtain rfl : type = .untypedInt := by simpa [IntegerType.isUntyped] using untyped
    simp [makeLiteralInteger, wrap_untyped, isBiggerIn, IntegerType.isSigned]
  · by_cases wide : type.bits = 64
    · rw [isBiggerIn, wrap_of_bits wide]
    · simp [isBiggerIn, wide]

/-- What is known of an expression that folds right, with everything in it. -/
structure Settled (expr : AstExpr) (type : IntegerType) : Prop where
  survives : simplifyExpression expr ≠ .crash
  foldable_iff : Foldable expr ↔ ∃ literal, simplifyExpression expr = .literal literal
  value : ∀ literal, simplifyExpression expr = .literal literal →
    valueOf expr type = some literal.integer
  literal : ∀ literal, simplifyExpression expr = .literal literal →
    literal.type = literalType expr ∧ literal.isBigger = isMarked expr literal.integer

/-- An expression that is settled is folded to its value, or left alone. -/
theorem Settled.cases (settled : Settled expr type) :
    (∃ literal, simplifyExpression expr = .literal literal ∧ valueOf expr type = some literal.integer ∧
      Foldable expr ∧ literal.type = literalType expr ∧
      literal.isBigger = isMarked expr literal.integer) ∨
    (simplifyExpression expr = .unfolded ∧ ¬ Foldable expr) := by
  cases simplified : simplifyExpression expr with
  | literal literal =>
    exact .inl ⟨literal, rfl, settled.value _ simplified,
      settled.foldable_iff.mpr ⟨_, simplified⟩, settled.literal _ simplified⟩
  | unfolded =>
    refine .inr ⟨rfl, fun foldable => ?_⟩
    obtain ⟨literal, is⟩ := settled.foldable_iff.mp foldable
    exact absurd (simplified.symm.trans is) (by simp)
  | crash => exact absurd simplified settled.survives

theorem simplifyLiterals_unfolded_iff (op : BinaryOp) (a b : BitVec 64) :
    simplifyLiterals op a b = .unfolded ↔ leftAlone op b := by
  have division (divide : BitVec 64 → BitVec 64 → BitVec 64) :
      divideLongLong divide a b ≠ .unfolded := by
    unfold divideLongLong
    split <;> simp
  cases op with
  | div => simp [simplifyLiterals, leftAlone, division]
  | mod =>
    simp only [simplifyLiterals, leftAlone]
    split <;> simp_all
  | shiftLeft => simp [simplifyLiterals, leftAlone, toInt_in_shift_range]
  | shiftRight => simp [simplifyLiterals, leftAlone, toInt_in_shift_range]
  | add | sub | mul | or | and | xor => simp [simplifyLiterals, leftAlone]

theorem simplifyLiterals_literal {a b : BitVec 64} {literal : AstLiteral}
    (is : simplifyLiterals op a b = .literal literal) :
    literal.type = .int ∧ literal.isBigger = false := by
  have made (value : BitVec 64) : Simplified.literal (makeLiteralInteger value) = .literal literal →
      literal.type = .int ∧ literal.isBigger = false := by
    rintro ⟨⟩
    exact ⟨rfl, rfl⟩
  have division (divide : BitVec 64 → BitVec 64 → BitVec 64)
      (is : divideLongLong divide a b = .literal literal) :
      literal.type = .int ∧ literal.isBigger = false := by
    unfold divideLongLong at is
    split at is
    · simp at is
    · exact made _ is
  cases op with
  | div => exact division _ is
  | mod =>
    simp only [simplifyLiterals] at is
    split at is
    · simp at is
    · exact division _ is
  | shiftLeft | shiftRight =>
    simp only [simplifyLiterals] at is
    split at is
    · exact made _ is
    · simp at is
  | add | sub | mul | or | and | xor => exact made _ is

/-- By induction on the tree: what folds right everywhere is settled. -/
theorem settled_of_everywhere (folds : Everywhere FoldsRight expr type) :
    Settled expr type := by
  have ⟨survives, value⟩ := folds.self
  induction expr generalizing type with
  | literal integer isBigger =>
    refine ⟨survives, by simp [Foldable, simplifyExpression], value, ?_⟩
    rintro literal ⟨⟩
    exact ⟨rfl, rfl⟩
  | identifier ident =>
    refine ⟨survives, by simp [Foldable, simplifyExpression], value, ?_⟩
    rintro literal ⟨⟩
    exact ⟨rfl, rfl⟩
  | cast expr castTo ih =>
    have settled := ih folds.2 folds.2.self.1 folds.2.self.2
    refine ⟨survives, ?_, value, ?_⟩
    · rcases settled.cases with ⟨inner, is, -, foldable, -⟩ | ⟨is, unfoldable⟩
      · simp [Foldable, simplifyExpression, is, foldable]
      · simp [Foldable, simplifyExpression, is, unfoldable]
    · intro literal is
      rcases settled.cases with ⟨inner, isInner, -⟩ | ⟨isInner, -⟩ <;>
        simp only [simplifyExpression, isInner, reduceCtorEq] at is
      cases is
      rw [integerOfType_eq]
      exact ⟨rfl, rfl⟩
  | unary op expr ih =>
    have settled := ih folds.2 folds.2.self.1 folds.2.self.2
    simp only [simplifyExpression] at survives value
    refine ⟨survives, ?_, value, ?_⟩
    · rcases settled.cases with ⟨inner, is, -, foldable, -⟩ | ⟨is, unfoldable⟩
      · refine iff_of_true foldable ?_
        rw [is] at survives
        cases simplified : simplifyUnary op (.literal inner) with
        | literal literal => exact ⟨literal, by rw [simplifyExpression, is, simplified]⟩
        | unfolded =>
          cases op
          · simp only [simplifyUnary] at simplified
            split at simplified <;> simp at simplified
          · simp [simplifyUnary] at simplified
        | crash => exact absurd simplified survives
      · simp [Foldable, simplifyExpression, is, unfoldable, simplifyUnary]
    · intro literal is
      rcases settled.cases with ⟨inner, isInner, -, -, isType, -⟩ | ⟨isInner, -⟩ <;>
        rw [simplifyExpression, isInner] at is
      · cases op with
        | minus =>
          simp only [simplifyUnary] at is
          split at is
          · simp at is
          · cases is
            exact ⟨rfl, rfl⟩
        | bitwiseNot =>
          cases is
          rw [integerOfType_eq, isType]
          exact ⟨rfl, rfl⟩
      · simp [simplifyUnary] at is
  | binary op left right ihLeft ihRight =>
    have settledL := ihLeft folds.2.1 folds.2.1.self.1 folds.2.1.self.2
    have settledR := ihRight folds.2.2 folds.2.2.self.1 folds.2.2.self.2
    refine ⟨survives, ?_, value, ?_⟩
    · rcases settledL.cases with ⟨a, isA, -, foldableA, -⟩ | ⟨isA, unfoldable⟩
      · rcases settledR.cases with ⟨b, isB, valueB, foldableB, -⟩ | ⟨isB, unfoldable⟩
        · have simplified : simplifyExpression (.binary op left right) =
              simplifyLiterals op a.integer b.integer := by
            rw [simplifyExpression, isA, isB]
            rfl
          simp only [Foldable, foldableA, foldableB, valueB, true_and, Option.some.injEq,
            forall_eq', ← simplifyLiterals_unfolded_iff op a.integer b.integer, simplified]
          rw [simplified] at survives
          cases result : simplifyLiterals op a.integer b.integer with
          | crash => exact absurd result survives
          | literal literal => simp
          | unfolded => simp
        · simp [Foldable, simplifyExpression, isA, isB, unfoldable, simplifyBinary]
      · rcases settledR.cases with ⟨b, isB, -⟩ | ⟨isB, -⟩ <;>
          simp [Foldable, simplifyExpression, isA, isB, unfoldable, simplifyBinary]
    · intro literal is
      rw [simplifyExpression] at is
      rcases settledL.cases with ⟨a, isA, -⟩ | ⟨isA, -⟩ <;>
        rcases settledR.cases with ⟨b, isB, -⟩ | ⟨isB, -⟩ <;>
        rw [isA, isB] at is <;> simp only [simplifyBinary, reduceCtorEq] at is
      exact simplifyLiterals_literal is

/-- What a settled operand contributes: its literal, or nothing. -/
theorem Settled.folded_iff (settled : Settled expr (checkExpression expr)) :
    (∃ literal, simplifyExpression expr = .literal literal ∧
      literal.type = literalType expr ∧ literal.isBigger = isMarked expr literal.integer ∧
      ∀ value, Folded expr value ↔ value = literal.integer) ∨
    (simplifyExpression expr = .unfolded ∧ ∀ value, ¬ Folded expr value) := by
  rcases settled.cases with ⟨literal, is, value, foldable, type, marked⟩ | ⟨is, unfoldable⟩
  · refine .inl ⟨literal, is, type, marked, fun other => ?_⟩
    simp [Folded, foldable, value, eq_comm]
  · exact .inr ⟨is, fun _ folded => unfoldable folded.1⟩

theorem foldsRight_cast {castTo : IntegerType}
    (settled : Settled expr (solidifyUntypedType (checkExpression expr))) :
    FoldsRight (.cast expr castTo) type := by
  rcases settled.cases with ⟨literal, is, value, -⟩ | ⟨is, -⟩
  · refine ⟨by simp [simplifyExpression, is], fun folded isFolded => ?_⟩
    simp only [simplifyExpression, is, Simplified.literal.injEq] at isFolded
    rw [← isFolded, integerOfType_eq, valueOf_cast, value]
    rfl
  · exact ⟨by simp [simplifyExpression, is], by simp [simplifyExpression, is]⟩

theorem foldsRight_unary_iff {op : UnaryOp} (settled : Settled expr (checkExpression expr)) :
    FoldsRight (.unary op expr) type ↔ NodeFolds (.unary op expr) type := by
  rcases settled.folded_iff with ⟨literal, is, isType, marked, folded⟩ | ⟨is, unfolded⟩
  · have value := settled.value _ is
    unfold FoldsRight
    rw [simplifyExpression, is, valueOf_unary, value]
    cases op with
    | minus =>
      simp only [NodeFolds, folded, forall_eq, ← marked, simplifyUnary]
      cases literal.isBigger
      · simp [makeLiteralInteger, UnaryOp.eval, InRange]
      · simp
    | bitwiseNot =>
      simp only [NodeFolds, folded, forall_eq, simplifyUnary, integerOfType_eq, isType]
      simp [UnaryOp.eval, eq_comm]
  · refine iff_of_true ?_ ?_
    · simp [FoldsRight, simplifyExpression, is, simplifyUnary]
    · cases op <;> exact fun value folded => absurd folded (unfolded value)

theorem foldsRight_binary_iff {left right : AstExpr}
    (settledL : Settled left (checkExpression left))
    (settledR : Settled right (checkExpression right)) :
    FoldsRight (.binary op left right) type ↔ NodeFolds (.binary op left right) type := by
  rcases settledL.folded_iff with ⟨a, isA, -, -, foldedA⟩ | ⟨isA, unfoldedA⟩
  · rcases settledR.folded_iff with ⟨b, isB, -, -, foldedB⟩ | ⟨isB, unfoldedB⟩
    · have simplified : simplifyExpression (.binary op left right) =
          simplifyLiterals op a.integer b.integer := by
        rw [simplifyExpression, isA, isB]
        rfl
      unfold FoldsRight
      rw [simplified, valueOf_binary, settledL.value _ isA, settledR.value _ isB]
      simp only [NodeFolds, foldedA, foldedB, forall_eq_apply_imp_iff, forall_eq,
        Option.bind_some]
      exact literalsFold_iff op
    · refine iff_of_true ?_ fun _ b _ folded => absurd folded (unfoldedB b)
      simp [FoldsRight, simplifyExpression, isA, isB, simplifyBinary]
  · refine iff_of_true ?_ fun a _ folded _ => absurd folded (unfoldedA a)
    rcases settledR.cases with ⟨b, isB, -⟩ | ⟨isB, -⟩ <;>
      simp [FoldsRight, simplifyExpression, isA, isB, simplifyBinary]

/-- A tree folds right with all the trees in it exactly if every node does on operands that do. -/
theorem everywhere_foldsRight_iff_nodeFolds (expr : AstExpr) :
    Everywhere FoldsRight expr type ↔ Everywhere NodeFolds expr type := by
  induction expr generalizing type with
  | literal integer isBigger =>
    refine iff_of_true ⟨by simp [simplifyExpression], ?_⟩ trivial
    rintro literal ⟨⟩
    rfl
  | identifier ident =>
    change FoldsRight _ _ ↔ NodeFolds _ _
    simp [FoldsRight, NodeFolds, simplifyExpression, valueOf_identifier, InRange]
  | cast expr castTo ih =>
    refine (and_congr_left fun folds => ?_).trans (and_congr_right fun _ => ih)
    exact iff_of_true (foldsRight_cast (settled_of_everywhere folds)) trivial
  | unary op expr ih =>
    refine (and_congr_left fun folds => ?_).trans (and_congr_right fun _ => ih)
    exact foldsRight_unary_iff (settled_of_everywhere folds)
  | binary op left right ihLeft ihRight =>
    refine (and_congr_left fun folds => ?_).trans
      (and_congr_right fun _ => and_congr ihLeft ihRight)
    exact foldsRight_binary_iff (settled_of_everywhere folds.1) (settled_of_everywhere folds.2)

end Trees

/-- The literal of a constant without a type of its own is an `int`, also where it does not fit. -/
example : declareConstant (.binary .add (.literal 5000000000 false) (.literal 1 false)) =
    some { type := .untypedInt, value := { integer := 5000000001, type := .int } } := by decide

end Saad
