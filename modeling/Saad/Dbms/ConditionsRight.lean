import Saad.Dbms.Conditions
import Saad.Sql.Reads

/-! # What the SQL of a condition gives

The value of the SQL is what the lambda can give, or NULL for a bool that can be both. A condition in SQL gives
the rows for which the lambda can only be true.
-/

namespace Saad.Dbms

open General Sql

section Agrees

/-- The value of SQL is the one that a lambda can give, or NULL when it is a bool that can be both. -/
inductive Agrees (t : LambdaType) (v : Value) (canGive : Value → Prop) : Prop
  | known (has : HasType t v) (only : ∀ u, canGive u ↔ u = v)
  | unknown (isBool : t = .plain .bool) (isNull : v = .null) (both : ∀ u, canGive u ↔ ∃ b, u = .bool b)

variable {t a b : LambdaType} {u v w : Value} {canGive left right : Value → Prop} {op : BinaryOp}
  {less : Text → Text → Bool}

theorem Agrees.exists (agrees : Agrees t v canGive) : ∃ u, canGive u := by
  cases agrees with
  | known has only => exact ⟨v, (only v).mpr rfl⟩
  | unknown _ _ both => exact ⟨_, (both _).mpr ⟨true, rfl⟩⟩

theorem Agrees.only (agrees : Agrees t v canGive) (plain : t ≠ .plain .bool) : HasType t v ∧ ∀ u, canGive u ↔ u = v := by
  cases agrees with
  | known has only => exact ⟨has, only⟩
  | unknown isBool _ _ => exact absurd isBool plain

theorem Agrees.congr (agrees : Agrees t v left) (same : ∀ u, right u ↔ left u) : Agrees t v right := by
  cases agrees with
  | known has only => exact .known has fun u => (same u).trans (only u)
  | unknown isBool isNull both => exact .unknown isBool isNull fun u => (same u).trans (both u)

/-- A bool as a truth value. -/
theorem agrees_bool_iff :
    Agrees (.plain .bool) v canGive ↔
      ∃ truth : Truth, v = .ofTruth truth ∧ ∀ u, canGive u ↔ ∃ b, truth.CanBe b ∧ u = .bool b := by
  constructor
  · intro agrees
    cases agrees with
    | known has only =>
      cases has with
      | bool known => exact ⟨some known, rfl, fun u => by simp [only]⟩
    | unknown _ isNull both => exact ⟨none, isNull, fun u => by simp [both]⟩
  · rintro ⟨truth, rfl, gives⟩
    cases truth with
    | none => exact .unknown rfl rfl fun u => by simp [gives]
    | some known => exact .known (.bool known) fun u => by simp [gives, Value.ofTruth]

theorem isUndecided_iff (agrees : Agrees t v canGive) : IsUndecided canGive ↔ v = .null := by
  cases agrees with
  | known has only =>
    rw [IsUndecided, only, only, only, eq_comm]
    refine ⟨fun undecided => undecided.elim id ?_, .inl⟩
    rintro ⟨isTrue, isFalse⟩
    rw [← isTrue] at isFalse
    cases isFalse
  | unknown _ isNull both => simp [IsUndecided, both, isNull]

end Agrees

section Operators

variable {t a b : LambdaType} {u v w : Value} {canGive left right : Value → Prop} {op : BinaryOp}
  {less : Text → Text → Bool}
variable {sign : Operator} {method : StringMethod}

theorem agrees_not (agrees : Agrees (.plain .bool) v canGive) :
    ∃ truth, v.truth = some truth ∧
      Agrees (.plain .bool) (.ofTruth truth.not) fun u => ∃ b, canGive (.bool b) ∧ u = .bool !b := by
  obtain ⟨truth, rfl, gives⟩ := agrees_bool_iff.mp agrees
  refine ⟨truth, Value.truth_ofTruth truth, agrees_bool_iff.mpr ⟨truth.not, rfl, fun u => ?_⟩⟩
  simp only [gives, Truth.canBe_not, Value.bool.injEq]
  constructor
  · rintro ⟨b, ⟨_, can, rfl⟩, rfl⟩
    exact ⟨!b, ⟨b, can, rfl⟩, rfl⟩
  · rintro ⟨_, ⟨b, can, rfl⟩, rfl⟩
    exact ⟨b, ⟨b, can, rfl⟩, rfl⟩

theorem agrees_minus (agrees : Agrees (.plain .int) v canGive) :
    ∃ n, v = .int n ∧ Agrees (.plain .int) (.int (-n)) fun u => ∃ n, canGive (.int n) ∧ u = .int (-n) := by
  obtain ⟨has, only⟩ := agrees.only (by simp)
  cases has with
  | int n => exact ⟨n, rfl, .known (.int _) fun u => by simp [only]⟩

/-- AND and OR of truth values. -/
theorem agrees_connective (connective : Truth → Truth → Truth) (f : Bool → Bool → Bool)
    (images : ∀ s t b, (connective s t).CanBe b ↔ ∃ x, s.CanBe x ∧ ∃ y, t.CanBe y ∧ f x y = b)
    (runs : ∀ x y, runBinary op (.bool x) (.bool y) = some (.bool (f x y)))
    (gives : ∀ a b u, BinaryCanGive less op a b u ↔ runBinary op a b = some u)
    (agrees : Agrees (.plain .bool) v left) (agreesRight : Agrees (.plain .bool) w right) :
    ∃ s t, v.truth = some s ∧ w.truth = some t ∧
      Agrees (.plain .bool) (.ofTruth (connective s t)) fun u =>
        ∃ a, left a ∧ ∃ b, right b ∧ BinaryCanGive less op a b u := by
  obtain ⟨s, rfl, ofLeft⟩ := agrees_bool_iff.mp agrees
  obtain ⟨t, rfl, ofRight⟩ := agrees_bool_iff.mp agreesRight
  refine ⟨s, t, Value.truth_ofTruth s, Value.truth_ofTruth t, agrees_bool_iff.mpr ⟨connective s t, rfl, fun u => ?_⟩⟩
  constructor
  · rintro ⟨a, isLeft, b, isRight, given⟩
    obtain ⟨x, canLeft, rfl⟩ := (ofLeft a).mp isLeft
    obtain ⟨y, canRight, rfl⟩ := (ofRight b).mp isRight
    rw [gives, runs] at given
    cases given
    exact ⟨f x y, (images s t _).mpr ⟨x, canLeft, y, canRight, rfl⟩, rfl⟩
  · rintro ⟨b, can, rfl⟩
    obtain ⟨x, canLeft, y, canRight, rfl⟩ := (images s t b).mp can
    exact ⟨.bool x, (ofLeft _).mpr ⟨x, canLeft, rfl⟩, .bool y, (ofRight _).mpr ⟨y, canRight, rfl⟩,
      (gives _ _ _).mpr (runs x y)⟩

/-- What `==` and `!=` have in common: `f` is what they give of two values. -/
structure Equality (op : BinaryOp) (sign : Operator) (f : Value → Value → Bool) : Prop where
  gives : ∀ {less a b u}, BinaryCanGive less op a b u ↔ ∃ t, u = .bool t ∧ (a ≠ .null → b ≠ .null → t = f a b)
  applies : ∀ {less a b}, sign.apply less a b = some (.bool (f a b))
  anyLeft : ∀ y t, ∃ x, f (.bool x) (.bool y) = t
  anyRight : ∀ x t, ∃ y, f (.bool x) (.bool y) = t

theorem equality_equal : Equality .equal .equal fun a b => a = b where
  gives := Iff.rfl
  applies := rfl
  anyLeft := by decide
  anyRight := by decide

theorem equality_notEqual : Equality .notEqual .notEqual fun a b => a ≠ b where
  gives := Iff.rfl
  applies := rfl
  anyLeft := by decide
  anyRight := by decide

/-- A bool that is compared with something that is not null is compared with a bool. -/
theorem bool_of_comparable (compared : comparable (.plain .bool) t = true) (has : HasType t v) (there : v ≠ .null) :
    ∃ b, v = .bool b := by
  cases has with
  | bool b => exact ⟨b, rfl⟩
  | int n => cases compared
  | string text => cases compared
  | present has =>
    cases has with
    | bool b => exact ⟨b, rfl⟩
    | int n => cases compared
    | string text => cases compared
  | empty base => exact absurd rfl there
  | null => exact absurd rfl there

theorem comparable_comm (a b : LambdaType) : comparable a b = comparable b a := by
  cases a <;> cases b <;> simp [comparable, eq_comm]

variable (less) in
theorem agrees_equality {f : Value → Value → Bool} (equality : Equality op sign f)
    (compared : comparable a b = true) (agrees : Agrees a v left) (agreesRight : Agrees b w right) :
    ∃ value, strict (sign.apply less) v w = some value ∧
      Agrees (.plain .bool) value fun u => ∃ a, left a ∧ ∃ b, right b ∧ BinaryCanGive less op a b u := by
  have isBool {x y u} (gives : BinaryCanGive less op x y u) : ∃ t, u = .bool t := by
    obtain ⟨t, rfl, _⟩ := equality.gives.mp gives
    exact ⟨t, rfl⟩
  by_cases absent : v = .null ∨ w = .null
  · refine ⟨.null, by rw [strict, if_pos absent], .unknown rfl rfl fun u => ⟨?_, ?_⟩⟩
    · rintro ⟨_, _, _, _, gives⟩
      exact isBool gives
    · rintro ⟨t, rfl⟩
      cases agrees with
      | known has only =>
        cases agreesRight with
        | known hasRight onlyRight =>
          refine ⟨v, (only v).mpr rfl, w, (onlyRight w).mpr rfl, equality.gives.mpr ⟨t, rfl, fun there thereRight => ?_⟩⟩
          exact absurd absent (not_or.mpr ⟨there, thereRight⟩)
        | unknown isBool isNull both =>
          subst isBool
          by_cases there : v = .null
          · exact ⟨v, (only v).mpr rfl, .bool true, (both _).mpr ⟨_, rfl⟩,
              equality.gives.mpr ⟨t, rfl, fun different => absurd there different⟩⟩
          · obtain ⟨x, rfl⟩ := bool_of_comparable ((comparable_comm _ _).trans compared) has there
            obtain ⟨y, gives⟩ := equality.anyRight x t
            exact ⟨_, (only _).mpr rfl, .bool y, (both _).mpr ⟨_, rfl⟩,
              equality.gives.mpr ⟨t, rfl, fun _ _ => gives.symm⟩⟩
      | unknown isBool isNull both =>
        subst isBool
        cases agreesRight with
        | known has only =>
          by_cases there : w = .null
          · exact ⟨.bool true, (both _).mpr ⟨_, rfl⟩, w, (only w).mpr rfl,
              equality.gives.mpr ⟨t, rfl, fun _ different => absurd there different⟩⟩
          · obtain ⟨y, rfl⟩ := bool_of_comparable compared has there
            obtain ⟨x, gives⟩ := equality.anyLeft y t
            exact ⟨.bool x, (both _).mpr ⟨_, rfl⟩, _, (only _).mpr rfl,
              equality.gives.mpr ⟨t, rfl, fun _ _ => gives.symm⟩⟩
        | unknown _ _ bothRight =>
          obtain ⟨x, gives⟩ := equality.anyLeft true t
          exact ⟨.bool x, (both _).mpr ⟨_, rfl⟩, .bool true, (bothRight _).mpr ⟨_, rfl⟩,
            equality.gives.mpr ⟨t, rfl, fun _ _ => gives.symm⟩⟩
  · obtain ⟨there, thereRight⟩ := not_or.mp absent
    refine ⟨.bool (f v w), by rw [strict, if_neg absent]; exact equality.applies, .known (.bool _) fun u => ?_⟩
    cases agrees with
    | unknown _ isNull _ => exact absurd isNull there
    | known has only =>
      cases agreesRight with
      | unknown _ isNull _ => exact absurd isNull thereRight
      | known hasRight onlyRight =>
        constructor
        · rintro ⟨_, isLeft, _, isRight, gives⟩
          obtain ⟨t, rfl, same⟩ := equality.gives.mp gives
          obtain rfl := (only _).mp isLeft
          obtain rfl := (onlyRight _).mp isRight
          rw [same there thereRight]
        · rintro rfl
          exact ⟨v, (only v).mpr rfl, w, (onlyRight w).mpr rfl, equality.gives.mpr ⟨_, rfl, fun _ _ => rfl⟩⟩

/-- What both can only give one value of. -/
theorem exists_iff_of_only (only : ∀ u, left u ↔ u = v) (onlyRight : ∀ u, right u ↔ u = w) (gives : Value → Value → Prop) :
    (∃ a, left a ∧ ∃ b, right b ∧ gives a b) ↔ gives v w := by
  simp only [only, onlyRight, exists_eq_left]

/-- The operators of whole numbers, and of strings for those that compare. -/
inductive IsOrder : BinaryOp → Operator → Prop
  | less : IsOrder .less .less
  | greater : IsOrder .greater .greater
  | lessEqual : IsOrder .lessEqual .lessEqual
  | greaterEqual : IsOrder .greaterEqual .greaterEqual

theorem agrees_order (order : IsOrder op sign) (given : binaryType op a b = some t)
    (agrees : Agrees a v left) (agreesRight : Agrees b w right) :
    ∃ value, strict (sign.apply less) v w = some value ∧
      Agrees t value fun u => ∃ a, left a ∧ ∃ b, right b ∧ BinaryCanGive less op a b u := by
  obtain ⟨base, rfl, rfl, notBool, rfl⟩ : ∃ base, a = .plain base ∧ b = .plain base ∧ base ≠ .bool ∧ t = .plain .bool := by
    cases order <;> cases a <;> cases b <;> simp only [binaryType, reduceCtorEq] at given <;>
      · split_ifs at given with same
        cases given
        exact ⟨_, rfl, by rw [same.1], same.2, rfl⟩
  obtain ⟨has, only⟩ := agrees.only (by simpa using notBool)
  obtain ⟨hasRight, onlyRight⟩ := agreesRight.only (by simpa using notBool)
  cases has with
  | bool => exact absurd rfl notBool
  | int n =>
    cases hasRight with
    | int m =>
      cases order <;>
        exact ⟨_, rfl, .known (.bool _) fun u => by
          rw [exists_iff_of_only only onlyRight]
          simp [BinaryCanGive, Operator.apply, eq_comm]⟩
  | string s =>
    cases hasRight with
    | string str =>
      cases order <;>
        exact ⟨_, rfl, .known (.bool _) fun u => by
          rw [exists_iff_of_only only onlyRight]
          simp [BinaryCanGive, Operator.apply, eq_comm]⟩

theorem agrees_arithmetic (arithmetic : op = .plus ∧ sign = .plus ∨ op = .minus ∧ sign = .minus)
    (given : binaryType op a b = some t) (agrees : Agrees a v left) (agreesRight : Agrees b w right) :
    ∃ value, strict (sign.apply less) v w = some value ∧
      Agrees t value fun u => ∃ a, left a ∧ ∃ b, right b ∧ BinaryCanGive less op a b u := by
  obtain ⟨rfl, rfl, rfl⟩ : a = .plain .int ∧ b = .plain .int ∧ t = .plain .int := by
    obtain ⟨rfl, rfl⟩ | ⟨rfl, rfl⟩ := arithmetic <;> revert given <;>
      rcases a with (_ | _ | _) | _ | _ <;> rcases b with (_ | _ | _) | _ | _ <;> simp [binaryType, eq_comm]
  obtain ⟨has, only⟩ := agrees.only (by simp)
  obtain ⟨hasRight, onlyRight⟩ := agreesRight.only (by simp)
  cases has with
  | int n =>
    cases hasRight with
    | int m =>
      obtain ⟨rfl, rfl⟩ | ⟨rfl, rfl⟩ := arithmetic <;>
        exact ⟨_, rfl, .known (.int _) fun u => by
          rw [exists_iff_of_only only onlyRight]
          simp [BinaryCanGive, runBinary, eq_comm]⟩

/-- `coalesce` of an optional. -/
theorem agrees_orElse (given : binaryType .orElse a b = some t) (agrees : Agrees a v left)
    (agreesRight : Agrees b w right) :
    Agrees t (if v = .null then w else v) fun u =>
      ∃ a, left a ∧ ∃ b, right b ∧ BinaryCanGive less .orElse a b u := by
  obtain ⟨base, rfl, other⟩ : ∃ base, a = .optional base ∧ (b = .plain base ∨ b = .optional base) ∧ t = b := by
    cases a <;> cases b <;> simp only [binaryType, reduceCtorEq] at given <;>
      · split_ifs at given with same
        cases given
        subst same
        exact ⟨_, rfl, by simp, rfl⟩
  obtain ⟨plainOrOptional, rfl⟩ := other
  obtain ⟨has, only⟩ := agrees.only (by simp)
  have gives (u : Value) : (∃ a, left a ∧ ∃ b, right b ∧ BinaryCanGive less .orElse a b u) ↔
      ∃ b, right b ∧ u = if v = .null then b else v := by
    simp [only, BinaryCanGive, runBinary, eq_comm]
  by_cases empty : v = .null
  · rw [if_pos empty]
    exact agreesRight.congr fun u => by simp [gives, empty]
  · rw [if_neg empty]
    obtain ⟨some_, isRight⟩ := agreesRight.exists
    refine .known ?_ fun u => ?_
    · cases has with
      | present has =>
        obtain rfl | rfl := plainOrOptional
        · exact has
        · exact .present has
      | empty => exact absurd rfl empty
    · simp only [gives, if_neg empty]
      exact ⟨fun ⟨_, _, same⟩ => same, fun same => ⟨some_, isRight, same⟩⟩

theorem agrees_comparedWithNull (other : ExprNode) (agrees : Agrees t v canGive) :
    Agrees (.plain .bool) (.bool (decide (v = .null) == ((op = .equal) != other.isNot)))
      (ComparedWithNull op other canGive) := by
  refine .known (.bool _) fun u => ?_
  rw [ComparedWithNull]
  simp only [isUndecided_iff agrees]
  constructor
  · rintro ⟨b, rfl, same⟩
    congr 1
    by_cases isNull : v = .null
    · simp [isNull, same.mpr isNull]
    · have different := mt same.mp isNull
      simp only [isNull]
      revert different
      cases b <;> cases (decide (op = .equal) != other.isNot) <;> simp
  · rintro rfl
    refine ⟨_, rfl, ?_⟩
    by_cases isNull : v = .null <;> simp [isNull]

theorem agrees_len (given : lenType a = some t) (agrees : Agrees a v left) :
    ∃ value, (if v = .null then some .null else Function.length.apply1 v) = some value ∧
      Agrees t value fun u => ∃ a, left a ∧ runLen a = some u := by
  obtain ⟨has, only⟩ := agrees.only (by rintro rfl; cases given)
  have gives (u : Value) : (∃ a, left a ∧ runLen a = some u) ↔ runLen v = some u := by simp [only]
  cases has with
  | bool => cases given
  | int => cases given
  | string text =>
    cases given
    exact ⟨_, rfl, .known (.int _) fun u => by
        rw [gives]
        simp [runLen, eq_comm]⟩
  | present has =>
    cases has with
    | bool => cases given
    | int => cases given
    | string text =>
      cases given
      exact ⟨_, rfl, .known (.present (.int _)) fun u => by
        rw [gives]
        simp [runLen, eq_comm]⟩
  | empty base =>
    cases base with
    | bool => cases given
    | int => cases given
    | string =>
      cases given
      exact ⟨_, rfl, .known (.empty _) fun u => by
        rw [gives]
        simp [runLen, eq_comm]⟩
  | null => cases given

theorem leftPart_eq_iff (s str : Text) : leftPart s str.length = str ↔ startsWith s str = true := by
  rw [leftPart, if_pos (Int.natCast_nonneg _), Int.toNat_natCast, startsWith, List.isPrefixOf_iff_prefix,
    List.prefix_iff_eq_take, eq_comm]

theorem rightPart_eq_iff (s str : Text) : rightPart s str.length = str ↔ endsWith s str = true := by
  rw [rightPart, if_pos (Int.natCast_nonneg _), Int.toNat_natCast, endsWith, List.isSuffixOf_iff_suffix,
    List.suffix_iff_eq_drop, eq_comm]

theorem eq_string_of_callType (given : callType method a b = some t) : b = .plain .string := by
  rcases a with (_ | _ | _) | (_ | _ | _) | _ <;> rcases b with (_ | _ | _) | _ | _ <;> cases given <;> rfl

/-- The types of a call: of a text, or of an optional that may be empty. -/
theorem agrees_call {f : Text → Text → Value} (given : callType method a b = some t)
    (typed : ∀ s str, HasType (.plain method.result) (f s str))
    (gives : ∀ s str u, CallCanGive method (.text s) (.text str) u ↔ u = f s str)
    (agrees : Agrees a v left) (agreesRight : Agrees b w right) :
    ∃ str, w = .text str ∧ (v = .null ∨ ∃ s, v = .text s) ∧ ∀ value,
      (v = .null → value = .null) → (∀ s, v = .text s → value = f s str) →
        Agrees t value fun u => ∃ a, left a ∧ ∃ b, right b ∧ CallCanGive method a b u := by
  obtain ⟨has, only⟩ := agrees.only (by rintro rfl; cases b <;> cases given)
  obtain rfl := eq_string_of_callType given
  obtain ⟨hasRight, onlyRight⟩ := agreesRight.only (by simp)
  have isText : ∃ str, w = .text str := by
    cases hasRight with
    | string str => exact ⟨str, rfl⟩
  obtain ⟨str, rfl⟩ := isText
  have both (u : Value) : (∃ a, left a ∧ ∃ b, right b ∧ CallCanGive method a b u) ↔
      CallCanGive method v (.text str) u := exists_iff_of_only only onlyRight fun a b => CallCanGive method a b u
  have ofEmpty (u : Value) : CallCanGive method .null (.text str) u ↔ u = .null := by
    cases method <;> simp [CallCanGive, runCall, eq_comm]
  refine ⟨str, rfl, ?_, fun value ifEmpty ifText => ?_⟩
  · cases has with
    | string s => exact .inr ⟨s, rfl⟩
    | present has =>
      cases has with
      | string s => exact .inr ⟨s, rfl⟩
      | _ => cases given
    | empty => exact .inl rfl
    | _ => cases given
  · cases has with
    | string s =>
      obtain rfl := ifText s rfl
      obtain rfl : t = .plain method.result := (Option.some.inj given).symm
      exact .known (typed s str) fun u => by rw [both, gives]
    | present has =>
      cases has with
      | string s =>
        obtain rfl := ifText s rfl
        obtain rfl : t = .optional method.result := (Option.some.inj given).symm
        exact .known (.present (typed s str)) fun u => by rw [both, gives]
      | _ => cases given
    | empty base =>
      obtain rfl := ifEmpty rfl
      obtain rfl : t = .optional method.result := by
        cases base <;> cases given
        rfl
      exact .known (.empty _) fun u => by rw [both, ofEmpty]
    | _ => cases given

end Operators

section Forms

variable {sign : Operator} {f : Value → Value → Bool} {scope : Scope}

/-- The scope of a condition: a row, and the arguments. -/
def scopeOf (less : Text → Text → Bool) (args : List Any) (row : DbRow) : Scope where
  column _ name := some (row name)
  param n := (args[n - 1]?).bind Any.toValue
  less := less

variable (less : Text → Text → Bool) (table : TableInfo)

/-- What the lambda can give is what the expression of SQL does, with these arguments and any after them. -/
def Means (t : LambdaType) (node : ExprNode) (e : Expr) (args : List Any) : Prop :=
  ∀ row, Fits table row → ∀ final, args <+: final →
    ∃ v, e.eval (scopeOf less final row) = some v ∧ Agrees t v (CanGive less table row node)

/-- The words of a node, and their meaning: one expression whatever follows, but for `!`. -/
inductive Form : LambdaType → ExprNode → List Token → Expr → List Any → Prop
  | primary {t : LambdaType} {node : ExprNode} {tokens : List Token} {e : Expr} {args : List Any}
      (notNot : node.isNot = false) (reads : IsPrimary tokens e) (means : Means less table t node e args) :
      Form t node tokens e args
  | not {node : ExprNode} {tokens : List Token} {e : Expr} {args : List Any} (reads : IsPrimary tokens e)
      (means : Means less table (.plain .bool) node e args) :
      Form (.plain .bool) (.unary .not node) (.keyword .not_ :: tokens) (.not e) args

variable {less table} {t a b : LambdaType} {node left right : ExprNode} {tokens tokensRight : List Token} {e e' : Expr}
  {args args' : List Any} {op : BinaryOp}

theorem Form.reads (form : Form less table t node tokens e args) : Reads tokens e := by
  cases form with
  | primary _ reads _ => exact .primary reads
  | not reads _ => exact .not reads

theorem Form.means (form : Form less table t node tokens e args) : Means less table t node e args := by
  cases form with
  | primary _ _ means => exact means
  | not reads means =>
    intro row fits final extends_
    obtain ⟨v, value, agrees⟩ := means row fits final extends_
    obtain ⟨truth, isTruth, agreesNot⟩ := agrees_not agrees
    exact ⟨_, by rw [Expr.eval, value]; simp [isTruth], agreesNot⟩

/-- Only a bool has `!` in front. -/
theorem Form.isPrimary (form : Form less table t node tokens e args) (notBool : t ≠ .plain .bool) :
    IsPrimary tokens e := by
  cases form with
  | primary _ reads _ => exact reads
  | not => exact absurd rfl notBool

/-- A node, one expression whatever follows, and its meaning. -/
def Primary (less : Text → Text → Bool) (table : TableInfo) (t : LambdaType) (canGive : DbRow → Value → Prop)
    (tokens : List Token) (args : List Any) : Prop :=
  ∃ e, IsPrimary tokens e ∧ ∀ row, Fits table row → ∀ final, args <+: final →
    ∃ v, e.eval (scopeOf less final row) = some v ∧ Agrees t v (canGive row)

theorem form_connective (connective : Truth → Truth → Truth) (f : Bool → Bool → Bool) {word : Keyword} {binds : ℕ}
    {make : Expr → Expr → Expr} (found : infix_ (.keyword word) = some (binds, make)) (weak : binds < notPrecedence)
    (evals : ∀ scope a b s t, (a.eval scope).bind Value.truth = some s → (b.eval scope).bind Value.truth = some t →
      (make a b).eval scope = some (.ofTruth (connective s t)))
    (images : ∀ s t b, (connective s t).CanBe b ↔ ∃ x, s.CanBe x ∧ ∃ y, t.CanBe y ∧ f x y = b)
    (runs : ∀ x y, runBinary op (.bool x) (.bool y) = some (.bool (f x y)))
    (gives : ∀ a b u, BinaryCanGive less op a b u ↔ runBinary op a b = some u)
    (form : Form less table (.plain .bool) left tokens e args)
    (formRight : Form less table (.plain .bool) right tokensRight e' args') (more : args <+: args') :
    Primary less table (.plain .bool)
      (fun row u => ∃ a, CanGive less table row left a ∧ ∃ b, CanGive less table row right b ∧
        BinaryCanGive less op a b u)
      (.lparen :: (tokens ++ .keyword word :: (tokensRight ++ [.rparen]))) args' := by
  refine ⟨make e e', form.reads.between found weak formRight.reads, fun row fits final extends_ => ?_⟩
  obtain ⟨v, value, agrees⟩ := form.means row fits final (more.trans extends_)
  obtain ⟨w, valueRight, agreesRight⟩ := formRight.means row fits final extends_
  obtain ⟨s, t, isS, isT, result⟩ := agrees_connective connective f images runs gives agrees agreesRight
  exact ⟨_, evals _ _ _ _ _ (by rw [value]; exact isS) (by rw [valueRight]; exact isT), result⟩

theorem evals_and (scope : Scope) (a b : Expr) (s t : Truth) (first : (a.eval scope).bind Value.truth = some s)
    (second : (b.eval scope).bind Value.truth = some t) : (Expr.and a b).eval scope = some (.ofTruth (s.and t)) := by
  obtain ⟨v, value, isS⟩ := Option.bind_eq_some_iff.mp first
  obtain ⟨w, valueRight, isT⟩ := Option.bind_eq_some_iff.mp second
  simp [Expr.eval, value, valueRight, isS, isT]

theorem evals_or (scope : Scope) (a b : Expr) (s t : Truth) (first : (a.eval scope).bind Value.truth = some s)
    (second : (b.eval scope).bind Value.truth = some t) : (Expr.or a b).eval scope = some (.ofTruth (s.or t)) := by
  obtain ⟨v, value, isS⟩ := Option.bind_eq_some_iff.mp first
  obtain ⟨w, valueRight, isT⟩ := Option.bind_eq_some_iff.mp second
  simp [Expr.eval, value, valueRight, isS, isT]

variable (less) in
/-- In `NOT a = b`, which is `NOT (a = b)`, the value is that of `(NOT a) = b`. -/
theorem not_equality (equality : Equality op sign f)
    (negated : ∀ x y, f (.bool !x) (.bool y) = !f (.bool x) (.bool y))
    (compared : comparable (.plain .bool) b = true) (truth : Truth) {w : Value}
    {canGive : Value → Prop} (agrees : Agrees b w canGive) :
    ∃ answer : Truth, strict (sign.apply less) (.ofTruth truth) w = some (.ofTruth answer) ∧
      strict (sign.apply less) (.ofTruth truth.not) w = some (.ofTruth answer.not) := by
  by_cases empty : w = .null
  · subst empty
    exact ⟨none, by simp [strict, Value.ofTruth], by simp [strict, Value.ofTruth, Truth.not]⟩
  · have isBool : ∃ y, w = .bool y := by
      cases agrees with
      | known has only => exact bool_of_comparable compared has empty
      | unknown _ isNull _ => exact absurd isNull empty
    obtain ⟨y, rfl⟩ := isBool
    cases truth with
    | none => exact ⟨none, by simp [strict, Value.ofTruth], by simp [strict, Value.ofTruth, Truth.not]⟩
    | some x =>
      refine ⟨some (f (.bool x) (.bool y)), ?_, ?_⟩
      · rw [strict, if_neg (by simp [Value.ofTruth])]
        exact equality.applies
      · rw [strict, if_neg (by simp [Value.ofTruth, Truth.not])]
        refine equality.applies.trans ?_
        simp [Value.ofTruth, Truth.not, negated]

theorem form_equality (equality : Equality op sign f)
    (negated : ∀ x y, f (.bool !x) (.bool y) = !f (.bool x) (.bool y))
    (tight : sign.precedence = comparePrecedence) (compared : comparable a b = true)
    (form : Form less table a left tokens e args)
    (formRight : Form less table b right tokensRight e' args') (more : args <+: args') :
    Primary less table (.plain .bool)
      (fun row u => ∃ a, CanGive less table row left a ∧ ∃ b, CanGive less table row right b ∧
        BinaryCanGive less op a b u)
      (.lparen :: (tokens ++ .op sign :: (tokensRight ++ [.rparen]))) args' := by
  cases form with
  | primary _ reads means =>
    refine ⟨.op sign e e', reads.between rfl formRight.reads, fun row fits final extends_ => ?_⟩
    obtain ⟨v, value, agrees⟩ := means row fits final (more.trans extends_)
    obtain ⟨w, valueRight, agreesRight⟩ := formRight.means row fits final extends_
    obtain ⟨result, strictly, agreesBoth⟩ := agrees_equality less equality compared agrees agreesRight
    exact ⟨result, by rw [Expr.eval, value, valueRight]; exact strictly, agreesBoth⟩
  | not reads means =>
    rename_i node tokens e
    refine ⟨.not (.op sign e e'), reads.not_between rfl (tight ▸ by decide) formRight.reads, fun row fits final extends_ => ?_⟩
    obtain ⟨v, value, agrees⟩ := means row fits final (more.trans extends_)
    obtain ⟨w, valueRight, agreesRight⟩ := formRight.means row fits final extends_
    obtain ⟨truth, isTruth, agreesNot⟩ := agrees_not agrees
    obtain ⟨isOf, rfl⟩ : ∃ known : Truth, v = .ofTruth known := by
      obtain ⟨known, same, _⟩ := agrees_bool_iff.mp agrees
      exact ⟨known, same⟩
    obtain rfl : truth = isOf := by simpa [eq_comm] using isTruth
    obtain ⟨answer, strictly, strictlyNot⟩ := not_equality less equality negated compared truth agreesRight
    obtain ⟨result, same, agreesBoth⟩ := agrees_equality less equality compared agreesNot agreesRight
    obtain rfl : result = .ofTruth answer.not := by
      rw [strictlyNot] at same
      exact (Option.some.inj same).symm
    have inner : (Expr.op sign e e').eval (scopeOf less final row) = some (.ofTruth answer) := by
      rw [Expr.eval, value, valueRight]
      exact strictly
    refine ⟨_, ?_, agreesBoth⟩
    rw [Expr.eval, inner]
    simp

/-- The operators of numbers and strings, whose sides are no bools. -/
theorem form_operator (plain : a ≠ .plain .bool)
    (operates : ∀ {v w : Value} {canGive canGiveRight : Value → Prop}, Agrees a v canGive → Agrees b w canGiveRight →
      ∃ value, strict (sign.apply less) v w = some value ∧
        Agrees t value fun u => ∃ a, canGive a ∧ ∃ b, canGiveRight b ∧ BinaryCanGive less op a b u)
    (form : Form less table a left tokens e args)
    (formRight : Form less table b right tokensRight e' args') (more : args <+: args') :
    Primary less table t
      (fun row u => ∃ a, CanGive less table row left a ∧ ∃ b, CanGive less table row right b ∧
        BinaryCanGive less op a b u)
      (.lparen :: (tokens ++ .op sign :: (tokensRight ++ [.rparen]))) args' := by
  refine ⟨.op sign e e', (form.isPrimary plain).between rfl formRight.reads, fun row fits final extends_ => ?_⟩
  obtain ⟨v, value, agrees⟩ := form.means row fits final (more.trans extends_)
  obtain ⟨w, valueRight, agreesRight⟩ := formRight.means row fits final extends_
  obtain ⟨result, strictly, agreesBoth⟩ := operates agrees agreesRight
  exact ⟨result, by rw [Expr.eval, value, valueRight]; exact strictly, agreesBoth⟩

theorem form_orElse (given : binaryType .orElse a b = some t) (form : Form less table a left tokens e args)
    (formRight : Form less table b right tokensRight e' args') (more : args <+: args') :
    Primary less table t
      (fun row u => ∃ a, CanGive less table row left a ∧ ∃ b, CanGive less table row right b ∧
        BinaryCanGive less .orElse a b u)
      (.function .coalesce :: .lparen :: (tokens ++ .comma :: (tokensRight ++ [.rparen]))) args' := by
  refine ⟨.call2 .coalesce e e', form.reads.call2 .coalesce formRight.reads, fun row fits final extends_ => ?_⟩
  obtain ⟨v, value, agrees⟩ := form.means row fits final (more.trans extends_)
  obtain ⟨w, valueRight, agreesRight⟩ := formRight.means row fits final extends_
  refine ⟨_, ?_, agrees_orElse given agrees agreesRight⟩
  rw [Expr.eval, value, Option.bind_eq_bind, Option.bind_some]
  split_ifs with empty
  · exact valueRight
  · rfl

/-- The words of IS NULL and IS NOT NULL. -/
def nullTest (op : BinaryOp) : List Token :=
  if op = .equal then [.keyword .is_, .keyword .null_, .rparen]
  else [.keyword .is_, .keyword .not_, .keyword .null_, .rparen]

theorem form_comparedWithNull (equality : op = .equal ∨ op = .notEqual) (form : Form less table t node tokens e args) :
    Primary less table (.plain .bool) (fun row => ComparedWithNull op node (CanGive less table row node))
      (.lparen :: (tokens ++ nullTest op)) args := by
  cases form with
  | primary notNot reads means =>
    obtain rfl | rfl := equality
    · refine ⟨.isNull e, reads.isNull, fun row fits final extends_ => ?_⟩
      obtain ⟨v, value, agrees⟩ := means row fits final extends_
      have answer : Agrees _ _ (ComparedWithNull .equal node _) := agrees_comparedWithNull node agrees
      rw [notNot] at answer
      exact ⟨_, by rw [Expr.eval, value]; rfl, by simpa using answer⟩
    · refine ⟨.isNotNull e, reads.isNotNull, fun row fits final extends_ => ?_⟩
      obtain ⟨v, value, agrees⟩ := means row fits final extends_
      have answer : Agrees _ _ (ComparedWithNull .notEqual node _) := agrees_comparedWithNull node agrees
      rw [notNot] at answer
      exact ⟨_, by rw [Expr.eval, value]; rfl, by simpa using answer⟩
  | not reads means =>
    rename_i node tokens e
    have inside (row : DbRow) (fits : Fits table row) (final : List Any) (extends_ : args <+: final) :
        ∃ truth : Truth, e.eval (scopeOf less final row) = some (.ofTruth truth) ∧
          Agrees (.plain .bool) (.ofTruth truth.not) (CanGive less table row (.unary .not node)) := by
      obtain ⟨v, value, agrees⟩ := means row fits final extends_
      obtain ⟨truth, isTruth, agreesNot⟩ := agrees_not agrees
      obtain ⟨known, rfl, _⟩ := agrees_bool_iff.mp agrees
      obtain rfl : known = truth := by simpa using isTruth
      exact ⟨known, value, agreesNot⟩
    obtain rfl | rfl := equality
    · refine ⟨.not (.isNull e), reads.not_isNull, fun row fits final extends_ => ?_⟩
      obtain ⟨truth, value, agrees⟩ := inside row fits final extends_
      refine ⟨_, ?_, agrees_comparedWithNull _ agrees⟩
      rw [Expr.eval, Expr.eval, value]
      rcases truth with _ | _ | _ <;> rfl
    · refine ⟨.not (.isNotNull e), reads.not_isNotNull, fun row fits final extends_ => ?_⟩
      obtain ⟨truth, value, agrees⟩ := inside row fits final extends_
      refine ⟨_, ?_, agrees_comparedWithNull _ agrees⟩
      rw [Expr.eval, Expr.eval, value]
      rcases truth with _ | _ | _ <;> rfl

/-- Values that are not NULL, of two expressions that give them. -/
theorem eval_op {v w : Value} (value : e.eval scope = some v) (valueRight : e'.eval scope = some w) :
    (Expr.op sign e e').eval scope = strict (sign.apply scope.less) v w := by
  rw [Expr.eval, value, valueRight]
  rfl

theorem eval_call2 {f : Function} {v w : Value} (strictly : f ≠ .coalesce)
    (value : e.eval scope = some v) (valueRight : e'.eval scope = some w) :
    (Expr.call2 f e e').eval scope = strict f.apply2 v w := by
  cases f with
  | coalesce => exact absurd rfl strictly
  | _ =>
    rw [Expr.eval, value, valueRight]
    · rfl
    · exact nofun

theorem eval_length {str : Text} (value : e.eval scope = some (.text str)) :
    (Expr.call1 .length e).eval scope = some (.int str.length) := by
  rw [Expr.eval, value]
  rfl

/-- `(left(x, length(s)) = s)` and its like. -/
theorem form_end {method : StringMethod} {f : Function} {part : Text → ℤ → Text} {holds : Text → Text → Bool}
    (applies : ∀ s n, f.apply2 (.text s) (.int n) = some (.text (part s n))) (strictly : f ≠ .coalesce)
    (whenHolds : ∀ s str : Text, part s str.length = str ↔ holds s str = true)
    (result : method.result = .bool)
    (gives : ∀ s str u, CallCanGive method (.text s) (.text str) u ↔ u = .bool (holds s str))
    {again : List Token} {e'' : Expr} {args'' : List Any}
    (given : callType method a b = some t) (form : Form less table a left tokens e args)
    (formRight : Form less table b right tokensRight e' args') (formAgain : Form less table b right again e'' args'')
    (more : args <+: args') (moreAgain : args' <+: args'') :
    Primary less table t
      (fun row u => ∃ a, CanGive less table row left a ∧ ∃ b, CanGive less table row right b ∧
        CallCanGive method a b u)
      (.lparen :: ((.function f :: .lparen :: (tokens ++ .comma ::
        ((.function .length :: .lparen :: (tokensRight ++ [.rparen])) ++ [.rparen]))) ++
          .op .equal :: (again ++ [.rparen]))) args'' := by
  have length := formRight.reads.call1 .length
  refine ⟨_, (form.reads.call2 f (.primary length)).between rfl formAgain.reads, fun row fits final extends_ => ?_⟩
  obtain ⟨v, value, agrees⟩ := form.means row fits final (more.trans (moreAgain.trans extends_))
  obtain ⟨w, valueRight, agreesRight⟩ := formRight.means row fits final (moreAgain.trans extends_)
  obtain ⟨w', valueAgain, agreesAgain⟩ := formAgain.means row fits final extends_
  obtain ⟨str, rfl, isText, answer⟩ := agrees_call given (f := fun s str => .bool (holds s str))
    (fun s str => result ▸ .bool _) gives agrees agreesRight
  obtain rfl : w' = .text str := by
    obtain rfl := eq_string_of_callType given
    obtain ⟨_, only⟩ := agreesRight.only (by simp)
    obtain ⟨_, onlyAgain⟩ := agreesAgain.only (by simp)
    exact (only w').mp ((onlyAgain w').mpr rfl)
  have first := eval_call2 strictly value (eval_length valueRight)
  rcases isText with rfl | ⟨s, rfl⟩
  · refine ⟨.null, ?_, answer _ (fun _ => rfl) (by simp)⟩
    rw [eval_op (v := .null) (first.trans rfl) valueAgain]
    rfl
  · refine ⟨.bool (holds s str), ?_, answer _ (by simp) (fun _ same => by cases same; rfl)⟩
    rw [eval_op (v := .text (part s str.length)) (first.trans (applies s _)) valueAgain]
    have same : strict (Operator.equal.apply (scopeOf less final row).less) (.text (part s str.length)) (.text str) =
        some (.bool (decide (Value.text (part s str.length) = .text str))) := rfl
    have decided : decide (Value.text (part s str.length) = .text str) = holds s str := by
      rw [Bool.eq_iff_iff, decide_eq_true_eq, Value.text.injEq]
      exact whenHolds s str
    rw [same, decided]

theorem form_indexOf (given : callType .indexOf a b = some t) (form : Form less table a left tokens e args)
    (formRight : Form less table b right tokensRight e' args') (more : args <+: args') :
    Primary less table t
      (fun row u => ∃ a, CanGive less table row left a ∧ ∃ b, CanGive less table row right b ∧
        CallCanGive .indexOf a b u)
      (.lparen :: ((.function .strpos :: .lparen :: (tokens ++ .comma :: (tokensRight ++ [.rparen]))) ++
        .op .minus :: ([.number 1] ++ [.rparen]))) args' := by
  refine ⟨_, (form.reads.call2 .strpos formRight.reads).between rfl (.primary (isPrimary_number 1)),
    fun row fits final extends_ => ?_⟩
  obtain ⟨v, value, agrees⟩ := form.means row fits final (more.trans extends_)
  obtain ⟨w, valueRight, agreesRight⟩ := formRight.means row fits final extends_
  obtain ⟨str, rfl, isText, answer⟩ := agrees_call given (f := fun s str => .int (Sql.position s str - 1))
    (fun s str => .int _) (fun s str u => Iff.rfl) agrees agreesRight
  have first := eval_call2 (by simp : Function.strpos ≠ .coalesce) value valueRight
  rcases isText with rfl | ⟨s, rfl⟩
  · refine ⟨.null, ?_, answer _ (fun _ => rfl) (by simp)⟩
    rw [eval_op (v := .null) (w := .int 1) (first.trans rfl) rfl]
    rfl
  · refine ⟨.int (Sql.position s str - 1), ?_, answer _ (by simp) (fun _ same => by cases same; rfl)⟩
    rw [eval_op (v := .int (Sql.position s str)) (w := .int 1) (first.trans rfl) rfl]
    rfl

theorem form_len (given : lenType a = some t) (form : Form less table a left tokens e args) :
    Primary less table t (fun row u => ∃ a, CanGive less table row left a ∧ runLen a = some u)
      (.function .length :: .lparen :: (tokens ++ [.rparen])) args := by
  refine ⟨_, form.reads.call1 .length, fun row fits final extends_ => ?_⟩
  obtain ⟨v, value, agrees⟩ := form.means row fits final extends_
  obtain ⟨result, strictly, answer⟩ := agrees_len given agrees
  exact ⟨result, by rw [Expr.eval, value]; exact strictly, answer⟩

end Forms

section Writes

variable {less : Text → Text → Bool} {table : TableInfo} {tables : List TableInfo} {t a b : LambdaType}
  {node left right : ExprNode} {op : BinaryOp} {w wRight : Writing Unit} {s s' : SqlWriter} {qualified : Bool}
variable {before after : List Token} {method : StringMethod} {name argName : Text} {arg : ExprNode}
  {value : Any}

@[simp] theorem words_append (first second : List Token) : words (first ++ second) = words first ++ words second :=
  List.filter_append ..

@[simp] theorem words_nil : words [] = [] := rfl

@[simp] theorem words_cons (token : Token) (tokens : List Token) :
    words (token :: tokens) = if token = .space then words tokens else token :: words tokens := by
  rw [words, List.filter_cons]
  by_cases space : token = .space <;> simp [space, words]

/-- The writer of a query that is no subquery, whose columns are written without their table. -/
def Plainly (table : TableInfo) (s : SqlWriter) : Prop :=
  ∃ level, s.levels = .query level ∧ level.table = table ∧ level.qualified = false

/-- What is written where `s` was: words and arguments are added. -/
def SqlWriter.add (s : SqlWriter) (tokens : List Token) (new : List Any) : SqlWriter :=
  { s with sb := s.sb ++ tokens, args := s.args ++ new }

theorem Plainly.add (plainly : Plainly table s) (tokens : List Token) (new : List Any) :
    Plainly table (s.add tokens new) := plainly

@[simp] theorem SqlWriter.add_add (s : SqlWriter) (tokens more : List Token) (new others : List Any) :
    (s.add tokens new).add more others = s.add (tokens ++ more) (new ++ others) := by
  simp [SqlWriter.add]

@[simp] theorem SqlWriter.args_add (s : SqlWriter) (tokens : List Token) (new : List Any) :
    (s.add tokens new).args = s.args ++ new := rfl

theorem emit_add {tokens : List Token} (done : emit tokens s = .ok ((), s')) : s' = s.add tokens [] := by
  rw [emit_eq_ok.mp done]
  simp [SqlWriter.add]

theorem emit_bind {tokens : List Token} {f : Unit → Writing Unit} (done : (emit tokens >>= f) s = .ok ((), s')) :
    f () (s.add tokens []) = .ok ((), s') := by
  obtain ⟨_, _, first, done⟩ := bind_eq_ok.mp done
  rwa [emit_add first] at done

variable (less table) in
/-- The writing adds the words of a node. -/
def WritesForm (t : LambdaType) (node : ExprNode) (w : Writing Unit) : Prop :=
  ∀ s s', Plainly table s → w s = .ok ((), s') →
    ∃ tokens new e, s' = s.add tokens new ∧ Form less table t node (words tokens) e (s.args ++ new)

theorem writesForm_emit_around (notNot : node.isNot = false)
    (writes : WritesForm less table a left w)
    (makes : ∀ tokens e args, Form less table a left (words tokens) e args →
      Primary less table t (fun row => CanGive less table row node) (words (before ++ tokens ++ after)) args) :
    WritesForm less table t node (do emit before; w; emit after) := by
  intro s s' plainly done
  replace done := emit_bind done
  obtain ⟨_, s₂, second, done⟩ := bind_eq_ok.mp done
  obtain ⟨tokens, new, e, rfl, form⟩ := writes _ _ (plainly.add _ _) second
  obtain rfl := emit_add done
  obtain ⟨e', reads, means⟩ := makes _ _ _ form
  refine ⟨before ++ tokens ++ after, new, e', by simp, .primary notNot reads ?_⟩
  simpa [Means] using means

theorem writesForm_between {between : List Token} (notNot : node.isNot = false)
    (writes : WritesForm less table a left w) (writesRight : WritesForm less table b right wRight)
    (makes : ∀ tokens tokensRight e e' args args', args <+: args' → Form less table a left (words tokens) e args →
      Form less table b right (words tokensRight) e' args' →
      Primary less table t (fun row => CanGive less table row node)
        (words (before ++ tokens ++ between ++ tokensRight ++ after)) args') :
    WritesForm less table t node (do emit before; w; emit between; wRight; emit after) := by
  intro s s' plainly done
  replace done := emit_bind done
  obtain ⟨_, s₂, second, done⟩ := bind_eq_ok.mp done
  obtain ⟨tokens, new, e, rfl, form⟩ := writes _ _ (plainly.add _ _) second
  replace done := emit_bind done
  obtain ⟨_, s₄, fourth, done⟩ := bind_eq_ok.mp done
  obtain ⟨tokensRight, newRight, e', rfl, formRight⟩ := writesRight _ _ (((plainly.add _ _).add _ _).add _ _) fourth
  obtain rfl := emit_add done
  obtain ⟨e'', reads, means⟩ := makes _ _ _ _ _ _ (by simp) form formRight
  refine ⟨before ++ tokens ++ between ++ tokensRight ++ after, new ++ newRight, e'', by simp, .primary notNot reads ?_⟩
  simpa [Means] using means

theorem writesForm_binary (given : binaryType op a b = some t) (writes : WritesForm less table a left w)
    (writesRight : WritesForm less table b right wRight) :
    WritesForm less table t (.binary op left right) (writeBinary op (isNull left) (isNull right) w wRight) := by
  unfold writeBinary
  by_cases withNull : (op = .equal ∨ op = .notEqual) ∧ (isNull left ∨ isNull right)
  · rw [if_pos withNull]
    obtain ⟨equality, isNull_⟩ := withNull
    obtain rfl : t = .plain .bool := by
      obtain rfl | rfl := equality <;>
        · simp only [binaryType] at given
          split_ifs at given
          exact (Option.some.inj given).symm
    have test : words (if op = .equal then [.space, .keyword .is_, .space, .keyword .null_, .rparen]
        else [.space, .keyword .is_, .space, .keyword .not_, .space, .keyword .null_, .rparen]) = nullTest op := by
      obtain rfl | rfl := equality <;> rfl
    by_cases leftIsNull : isNull left
    · rw [if_pos leftIsNull]
      refine writesForm_emit_around rfl writesRight fun tokens e args form => ?_
      rw [words_append, words_append, test]
      simpa [CanGive, equality, leftIsNull] using form_comparedWithNull equality form
    · rw [if_neg leftIsNull]
      have rightIsNull := isNull_.resolve_left leftIsNull
      refine writesForm_emit_around rfl writes fun tokens e args form => ?_
      rw [words_append, words_append, test]
      simpa [CanGive, equality, leftIsNull, rightIsNull] using form_comparedWithNull equality form
  · rw [if_neg withNull]
    have gives : (fun row => CanGive less table row (.binary op left right)) = fun row u =>
        ∃ a, CanGive less table row left a ∧ ∃ b, CanGive less table row right b ∧
          BinaryCanGive less op a b u := by
      funext row u
      rw [CanGive]
      beta_reduce
      rw [if_neg fun null => withNull ⟨null.1, .inl null.2⟩, if_neg fun null => withNull ⟨null.1, .inr null.2⟩]
    split_ifs with isOrElse
    · subst isOrElse
      refine writesForm_between rfl writes writesRight fun tokens tokensRight e e' args args' more form formRight => ?_
      rw [gives]
      simpa using form_orElse given form formRight more
    · refine writesForm_between rfl writes writesRight fun tokens tokensRight e e' args args' more form formRight => ?_
      rw [gives]
      have compared (equality : op = .equal ∨ op = .notEqual) : comparable a b = true ∧ t = .plain .bool := by
        obtain rfl | rfl := equality <;>
          · simp only [binaryType] at given
            split_ifs at given with compared
            exact ⟨compared, (Option.some.inj given).symm⟩
      have bools (connective : op = .or ∨ op = .and) : a = .plain .bool ∧ b = .plain .bool ∧ t = .plain .bool := by
        obtain rfl | rfl := connective <;> revert given <;>
          rcases a with (_ | _ | _) | _ | _ <;> rcases b with (_ | _ | _) | _ | _ <;> simp [binaryType, eq_comm]
      have plain (tight : ∀ b, binaryType op (.plain .bool) b ≠ some t) : a ≠ .plain .bool := by
        rintro rfl
        exact tight b given
      have ordered {sign : Operator} (order : IsOrder op sign) : a ≠ .plain .bool := by
        refine plain fun b => ?_
        cases order <;> cases b <;> simp [binaryType]
      cases op with
      | or =>
        obtain ⟨rfl, rfl, rfl⟩ := bools (.inl rfl)
        simpa [BinaryOp.token] using form_connective Truth.or Bool.or
          (show infix_ (.keyword .or_) = some (1, .or) from rfl) (by decide) evals_or Truth.canBe_or
          (fun _ _ => rfl) (fun _ _ _ => Iff.rfl) form formRight more
      | and =>
        obtain ⟨rfl, rfl, rfl⟩ := bools (.inr rfl)
        simpa [BinaryOp.token] using form_connective Truth.and Bool.and
          (show infix_ (.keyword .and_) = some (2, .and) from rfl) (by decide) evals_and Truth.canBe_and
          (fun _ _ => rfl) (fun _ _ _ => Iff.rfl) form formRight more
      | equal =>
        obtain ⟨same, rfl⟩ := compared (.inl rfl)
        simpa [BinaryOp.token] using form_equality equality_equal (by decide) rfl same form formRight more
      | notEqual =>
        obtain ⟨same, rfl⟩ := compared (.inr rfl)
        simpa [BinaryOp.token] using form_equality equality_notEqual (by decide) rfl same form formRight more
      | less => simpa [BinaryOp.token] using form_operator (ordered .less) (agrees_order .less given) form formRight more
      | greater => simpa [BinaryOp.token] using form_operator (ordered .greater) (agrees_order .greater given) form formRight more
      | lessEqual => simpa [BinaryOp.token] using form_operator (ordered .lessEqual) (agrees_order .lessEqual given) form formRight more
      | greaterEqual =>
        simpa [BinaryOp.token] using form_operator (ordered .greaterEqual) (agrees_order .greaterEqual given) form formRight more
      | plus =>
        simpa [BinaryOp.token] using form_operator (plain fun b => by simp [binaryType])
          (agrees_arithmetic (.inl ⟨rfl, rfl⟩) given) form formRight more
      | minus =>
        simpa [BinaryOp.token] using form_operator (plain fun b => by simp [binaryType])
          (agrees_arithmetic (.inr ⟨rfl, rfl⟩) given) form formRight more
      | orElse => exact absurd rfl isOrElse
      | times => cases given
      | divide => cases given
      | modulo => cases given

theorem writesForm_end {f : Function} {part : Text → ℤ → Text} {holds : Text → Text → Bool}
    (applies : ∀ s n, f.apply2 (.text s) (.int n) = some (.text (part s n)))
    (strictly : f ≠ .coalesce)
    (whenHolds : ∀ s str : Text, part s str.length = str ↔ holds s str = true)
    (result : method.result = .bool)
    (gives : ∀ s str u, CallCanGive method (.text s) (.text str) u ↔ u = .bool (holds s str))
    (named : stringMethod name = some method) (given : callType method a b = some t)
    (writes : WritesForm less table a left w) (writesRight : WritesForm less table b arg wRight) :
    WritesForm less table t (.call left name (.cons argName arg .nil)) (writeEnd f w wRight) := by
  intro s s' plainly done
  replace done := emit_bind done
  obtain ⟨_, s₂, second, done⟩ := bind_eq_ok.mp done
  obtain ⟨tokens, new, e, rfl, form⟩ := writes _ _ (plainly.add _ _) second
  replace done := emit_bind done
  obtain ⟨_, s₄, fourth, done⟩ := bind_eq_ok.mp done
  obtain ⟨tokensRight, newRight, e', rfl, formRight⟩ := writesRight _ _ (((plainly.add _ _).add _ _).add _ _) fourth
  replace done := emit_bind done
  obtain ⟨_, s₆, sixth, done⟩ := bind_eq_ok.mp done
  obtain ⟨again, newAgain, e'', rfl, formAgain⟩ :=
    writesRight _ _ (((((plainly.add _ _).add _ _).add _ _).add _ _).add _ _) sixth
  obtain rfl := emit_add done
  obtain ⟨made, reads, means⟩ :=
    form_end applies strictly whenHolds result gives given form formRight formAgain (by simp) (by simp)
  refine ⟨_, new ++ newRight ++ newAgain, made, by simp; rfl, .primary rfl ?_ ?_⟩
  · simpa using reads
  · intro row fits final extends_
    obtain ⟨v, value, agrees⟩ := means row fits final (by simpa using extends_)
    exact ⟨v, value, agrees.congr fun u => by simp [CanGive, named]⟩

theorem writeMember_parameter (plainly : Plainly table s) (parameter name : Text) :
    writeMember tables (.parameter parameter) name s = .ok ((), s.add [.name (columnIn table name)] []) := by
  obtain ⟨level, query, rfl, plain⟩ := plainly
  have unfolded : writeMember tables (.parameter parameter) name s =
      writeColumn (s.levels.at_ (s.levels.rowOf parameter).level).qualified (s.levels.rowOf parameter) name s := by
    rw [writeMember]
    rfl
  rw [unfolded, query]
  have notQualified : ((Levels.query level).at_ ((Levels.query level).rowOf parameter).level).qualified = false := plain
  rw [notQualified, SqlWriter.add, List.append_nil]
  rfl

theorem write_call {args : ExprArgs} (noAggregate : aggregateNamed name = none) :
    write tables (.call left name args) s = writeMethod name args.count (write tables left) (writeFirst tables args) s := by
  simp only [write, noAggregate]
  rfl

theorem value_of_base {t : Ty} {base : BaseType} (typed : t.base = some base) (data : t.Val) :
    ∃ v, t.value data = some v ∧ HasType (.plain base) v := by
  cases t with
  | bool =>
    cases typed
    exact ⟨_, rfl, .bool data⟩
  | int kind =>
    rw [Ty.base] at typed
    split_ifs at typed
    cases typed
    exact ⟨_, rfl, .int _⟩
  | string =>
    cases typed
    exact ⟨_, rfl, .string data⟩
  | _ => cases typed

/-- A captured value has its type, and is NULL when the writer says so. -/
theorem toValue_of_lambdaType (typed : value.lambdaType = some t) :
    ∃ v, value.toValue = some v ∧ HasType t v ∧ (value.isNull = true → v = .null) := by
  obtain _ | ⟨type, data⟩ := value
  · cases typed
    exact ⟨.null, rfl, .null, fun _ => rfl⟩
  · have ofBase (isBase : type.base.map .plain = some t) :
        ∃ v, type.value data = some v ∧ HasType t v ∧ (Any.isNull (some ⟨type, data⟩) = true → v = .null) := by
      obtain ⟨base, found, rfl⟩ := Option.map_eq_some_iff.mp isBase
      obtain ⟨v, value, has⟩ := value_of_base found data
      refine ⟨v, value, has, fun isNull => ?_⟩
      cases type with
      | optional => cases found
      | pointer => cases found
      | _ => cases isNull
    cases type with
    | optional item =>
      obtain ⟨base, isBase, rfl⟩ := Option.map_eq_some_iff.mp typed
      cases data with
      | none => exact ⟨.null, rfl, .empty base, fun _ => rfl⟩
      | some data =>
        obtain ⟨v, value, has⟩ := value_of_base isBase data
        exact ⟨v, value, .present has, fun isNull => by cases isNull⟩
    | _ => exact ofBase typed

theorem writesForm_value (typed : value.lambdaType = some t) :
    WritesForm less table t (.value value) (writeValue value) := by
  intro s s' plainly done
  obtain ⟨v, isValue, has, ifNull⟩ := toValue_of_lambdaType typed
  have only (row : DbRow) (u : Value) : CanGive less table row (.value value) u ↔ u = v := by
    simp [CanGive, isValue, eq_comm]
  unfold writeValue at done
  split_ifs at done with isNull
  · obtain rfl := emit_add done
    refine ⟨_, _, .null, rfl, .primary rfl isPrimary_null fun row fits final extends_ => ?_⟩
    obtain rfl := ifNull isNull
    exact ⟨_, rfl, .known has (only row)⟩
  · cases done
    refine ⟨[.param (s.args.length + 1)], [value], .param (s.args.length + 1), by simp [SqlWriter.add],
      .primary rfl (isPrimary_param _) fun row fits final extends_ => ⟨v, ?_, .known has (only row)⟩⟩
    obtain ⟨more, rfl⟩ := extends_
    simp [Expr.eval, scopeOf, isValue]

theorem writesForm_not (writes : WritesForm less table (.plain .bool) left (write tables left)) :
    WritesForm less table (.plain .bool) (.unary .not left) (write tables (.unary .not left)) := by
  intro s s' plainly done
  rw [write] at done
  replace done := emit_bind done
  obtain ⟨_, s₂, second, done⟩ := bind_eq_ok.mp done
  obtain ⟨tokens, new, e, rfl, form⟩ := writes _ _ (plainly.add _ _) second
  obtain rfl := emit_add done
  refine ⟨_, new, .not e, by simp; rfl, ?_⟩
  have made := Form.not form.reads.paren form.means
  simpa using made

theorem writesForm_minus (writes : WritesForm less table (.plain .int) left (write tables left)) :
    WritesForm less table (.plain .int) (.unary .minus left) (write tables (.unary .minus left)) := by
  rw [write]
  refine writesForm_emit_around rfl writes fun tokens e args form => ?_
  refine ⟨.minus e, by simpa using form.reads.paren.minus, fun row fits final extends_ => ?_⟩
  obtain ⟨v, value, agrees⟩ := form.means row fits final extends_
  obtain ⟨n, rfl, answer⟩ := agrees_minus agrees
  exact ⟨_, by rw [Expr.eval, value]; rfl, answer⟩

theorem aggregateNamed_of_stringMethod (named : stringMethod name = some method) :
    aggregateNamed name = none := by
  unfold stringMethod at named
  split_ifs at named with starts ends indexes
  · exact starts ▸ by decide
  · exact ends ▸ by decide
  · exact indexes ▸ by decide

theorem writesForm_call (named : stringMethod name = some method)
    (given : callType method a b = some t)
    (writes : WritesForm less table a left (write tables left))
    (writesRight : WritesForm less table b arg (write tables arg)) :
    WritesForm less table t (.call left name (.cons argName arg .nil))
      (write tables (.call left name (.cons argName arg .nil))) := by
  have isMethod : write tables (.call left name (.cons argName arg .nil)) =
      writeMethod name 1 (write tables left) (write tables arg) := by
    funext s
    exact write_call (aggregateNamed_of_stringMethod named)
  rw [isMethod]
  unfold stringMethod at named
  split_ifs at named with starts ends indexes
  · cases named
    subst starts
    exact writesForm_end (fun _ _ => rfl) (by simp) leftPart_eq_iff rfl
      (fun s str u => by simp [CallCanGive, runCall, runMethod, eq_comm]) rfl given writes writesRight
  · cases named
    subst ends
    exact writesForm_end (fun _ _ => rfl) (by simp) rightPart_eq_iff rfl
      (fun s str u => by simp [CallCanGive, runCall, runMethod, eq_comm]) rfl given writes writesRight
  · cases named
    subst indexes
    refine @writesForm_between _ _ _ _ _ _ _ _ _ _ [.lparen, .function .strpos, .lparen]
      [.rparen, .space, .op .minus, .space, .number 1, .rparen] [.comma, .space] rfl writes writesRight
      fun tokens tokensRight e e' args args' more form formRight => ?_
    have gives : (fun row => CanGive less table row (.call left (asciiBytes "indexOf") (.cons argName arg .nil))) =
        fun row u => ∃ a, CanGive less table row left a ∧ ∃ b, CanGive less table row arg b ∧
          CallCanGive .indexOf a b u := by
      have method : stringMethod (asciiBytes "indexOf") = some .indexOf := rfl
      funext row u
      simp [CanGive, method]
    rw [gives]
    simpa using form_indexOf given form formRight more

theorem write_form : ∀ (node : ExprNode) (t : LambdaType), typeOf (memberType table) node = some t →
    WritesForm less table t node (write tables node)
  | .member (.parameter parameter) name, t, typed => by
    intro s s' plainly done
    have parameterOnly : writeMember tables (.parameter parameter) name s = _ :=
      writeMember_parameter plainly parameter name
    cases parameterOnly.symm.trans done
    refine ⟨[.name (columnIn table name)], [], .column none (columnIn table name), rfl,
      .primary rfl (isPrimary_name _) fun row fits final extends_ => ?_⟩
    exact ⟨_, rfl, .known (fits name t typed) fun u => Iff.rfl⟩
  | .member (.member left inner) name, t, typed => by
    obtain ⟨isLen, typed⟩ : name = asciiBytes "len" ∧ (typeOf (memberType table) (.member left inner)).bind lenType = some t := by
      rw [typeOf] at typed
      · simpa using typed
      · exact nofun
    obtain ⟨a, typedLeft, typed⟩ := Option.bind_eq_some_iff.mp typed
    have unfolded : write tables (.member (.member left inner) name) =
        (do emit [.function .length, .lparen]; write tables (.member left inner); emit [.rparen]) := by
      rw [write, writeMember, if_pos isLen]
      rfl
    rw [unfolded]
    refine writesForm_emit_around rfl (write_form (.member left inner) a typedLeft) fun tokens e args form => ?_
    have gives : (fun row => CanGive less table row (.member (.member left inner) name)) = fun row u =>
        ∃ a, CanGive less table row (.member left inner) a ∧ runLen a = some u := by
      funext row u
      simp [CanGive, isLen]
    rw [gives]
    simpa using form_len typed form
  | .value value, t, typed => writesForm_value typed
  | .unary .not left, t, typed => by
    obtain ⟨a, typedLeft, typed⟩ := Option.bind_eq_some_iff.mp typed
    obtain ⟨isBool, rfl⟩ : a = .plain .bool ∧ a = t := by simpa using typed
    subst isBool
    exact writesForm_not (write_form left _ typedLeft)
  | .unary .minus left, t, typed => by
    obtain ⟨a, typedLeft, typed⟩ := Option.bind_eq_some_iff.mp typed
    obtain ⟨isInt, rfl⟩ : a = .plain .int ∧ a = t := by simpa using typed
    subst isInt
    exact writesForm_minus (write_form left _ typedLeft)
  | .binary op left right, t, typed => by
    rw [typeOf] at typed
    obtain ⟨a, typedLeft, typed⟩ := Option.bind_eq_some_iff.mp typed
    obtain ⟨b, typedRight, typed⟩ := Option.bind_eq_some_iff.mp typed
    exact writesForm_binary typed (write_form left a typedLeft) (write_form right b typedRight)
  | .call left name (.cons argName arg .nil), t, typed => by
    rw [typeOf] at typed
    obtain ⟨method, named, typed⟩ := Option.bind_eq_some_iff.mp typed
    obtain ⟨a, typedLeft, typed⟩ := Option.bind_eq_some_iff.mp typed
    obtain ⟨b, typedRight, typed⟩ := Option.bind_eq_some_iff.mp typed
    exact writesForm_call named typed (write_form left a typedLeft) (write_form arg b typedRight)
  | .member (.value _) name, _, _ | .member (.unary ..) name, _, _ | .member (.binary ..) name, _, _
  | .member (.object _) name, _, _ | .member (.lambda ..) name, _, _ => fun _ _ _ done => absurd done fail_ne_ok
  | .member (.call left called args) name, t, typed => by
    exfalso
    rw [typeOf] at typed
    · split_ifs at typed
      obtain ⟨a, typedCall, len⟩ := Option.bind_eq_some_iff.mp typed
      cases args with
      | nil => cases typedCall
      | cons argName arg rest =>
        cases rest with
        | cons => cases typedCall
        | nil =>
          rw [typeOf] at typedCall
          obtain ⟨method, _, typedCall⟩ := Option.bind_eq_some_iff.mp typedCall
          obtain ⟨b, _, typedCall⟩ := Option.bind_eq_some_iff.mp typedCall
          obtain ⟨c, _, typedCall⟩ := Option.bind_eq_some_iff.mp typedCall
          obtain rfl := eq_string_of_callType typedCall
          cases method <;> rcases b with (_ | _ | _) | (_ | _ | _) | _ <;> cases typedCall <;> cases len
    · exact nofun
  | .member (.function ..) name, t, typed => by
    simp [typeOf] at typed
  | .parameter _, t, typed | .function .., t, typed | .object _, t, typed | .lambda .., t, typed => by cases typed
  | .call _ _ .nil, t, typed => by cases typed
  | .call _ _ (.cons _ _ (.cons ..)), t, typed => by cases typed

end Writes

section Right

variable (less : Text → Text → Bool) (tables : List TableInfo) (table : TableInfo) {condition : ExprNode} {w : SqlWriter}

/-- The row is one that the SQL of a condition is true for. -/
def SqlTrue (tokens : List Token) (args : List Any) (row : DbRow) : Prop :=
  ∃ e, parse tokens = some e ∧ e.eval (scopeOf less args row) = some (.bool true)

/-- The SQL of a condition is true for the rows for which the lambda can only be true. -/
theorem sqlTrue_iff (typed : typeOf (memberType table) condition = some (.plain .bool))
    (written : (write tables condition).run { levels := .query { table, qualified := false } } = .ok ((), w))
    {row : DbRow} (fits : Fits table row) :
    SqlTrue less w.sb w.args row ↔ ∀ value, CanGive less table row condition value → value = .bool true := by
  have writes : WritesForm less table _ condition (write tables condition) := write_form condition _ typed
  obtain ⟨tokens, new, e, rfl, form⟩ := writes _ _ ⟨_, rfl, rfl, rfl⟩ written
  obtain ⟨v, value, agrees⟩ := form.means row fits _ (List.prefix_refl _)
  have parsed : parse tokens = some e := parse_of_reads form.reads
  have isTrue : SqlTrue less tokens new row ↔ v = .bool true := by
    constructor
    · rintro ⟨e', parsed', value'⟩
      obtain rfl := Option.some.inj (parsed.symm.trans parsed')
      exact Option.some.inj (value.symm.trans value')
    · rintro rfl
      exact ⟨e, parsed, value⟩
  refine isTrue.trans ?_
  cases agrees with
  | known has only => simp [only, eq_comm]
  | unknown _ isNull both =>
    subst isNull
    simp only [both, reduceCtorEq, false_iff]
    intro all
    cases all (.bool false) ⟨false, rfl⟩

/-- Users with an email that may be missing. -/
def usersTable : TableInfo where
  name := asciiBytes "users"
  type := [{ name := asciiBytes "email", type := .optional .string }]

/-- `u => u.email != "x"`. -/
def emailIsNotX : ExprNode :=
  .binary .notEqual (.member (.parameter (asciiBytes "u")) (asciiBytes "email"))
    (.value (some ⟨.string, asciiBytes "x"⟩))

end Right

end Saad.Dbms
