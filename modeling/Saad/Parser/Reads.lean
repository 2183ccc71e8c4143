import Saad.General.Fuel
import Saad.Parser.Printing

/-! # Rules for what the parser reads

Tokens that are read as one leaf, as the start of an expression, as a type or as type arguments, in front
of given tokens. Each rule reads what is made of parts that are read.
-/

namespace Saad.Parsing

open General

section Reads

variable {tokens rest : List Token} {token : Token} {p : Parser} {e l r : Expr} {minPrec bound : ℤ}

/-- The tokens that the parser is at, with no '>>' eaten in half. -/
def At (tokens : List Token) (p : Parser) : Prop :=
  p.tokens = tokens ∧ p.splitShiftRightToken ≤ p.currentTokenIndex

/-- The tokens are this leaf. -/
def IsLeaf (tokens : List Token) (e : Expr) (rest : List Token) : Prop :=
  ∀ p, At (tokens ++ rest) p → ∃ after, At rest after ∧ Gives (fun fuel => parseLeaf fuel p) (e, after)

/-- The tokens take an expression to its loop with this tree, below a precedence. -/
def Spans (bound : ℤ) (tokens : List Token) (e : Expr) (rest : List Token) : Prop :=
  ∀ p minPrec, minPrec < bound → At (tokens ++ rest) p → ∃ after, At rest after ∧
    ∀ result, Gives (fun fuel => parseOperators fuel minPrec e after) result →
      Gives (fun fuel => parseExpression fuel minPrec p) result

/-- The tokens stop the loop of an expression at this precedence. -/
def Stops (minPrec : ℤ) (rest : List Token) : Prop :=
  rest.head? ≠ some .as_ ∧
    ∀ op, rest.head?.bind Token.binaryOperator = some op → getOperatorPrecedence op ≤ minPrec

theorem At.peek (at_ : At tokens p) : p.peek = tokens.head? := by
  rw [Parser.peek, at_.1]

theorem At.eat (at_ : At (token :: rest) p) : At rest p.eatToken :=
  ⟨by simp [Parser.eatToken, at_.1], Nat.le_succ_of_le at_.2⟩

theorem Stops.le {weaker : ℤ} (stops : Stops weaker rest) (le : weaker ≤ minPrec) : Stops minPrec rest :=
  ⟨stops.1, fun op found => Int.le_trans (stops.2 op found) le⟩

theorem stops_of_ends (ends : endsExpression tokens.head? = true) : Stops minPrec tokens := by
  constructor
  · intro head
    rw [head] at ends
    cases ends
  · intro op found
    obtain ⟨token, head, found⟩ := Option.bind_eq_some_iff.mp found
    rw [head] at ends
    cases token <;> simp_all [endsExpression, Token.binaryOperator]

theorem startsGenericCall_of_head (head : tokens.head? ≠ some (.operator .lessThan)) :
    startsGenericCall e tokens = false := by
  simp [startsGenericCall, scansToCall, head]

-- The equations of these functions are made here, before the proofs below ask for them all at once.
attribute [local simp] parseType parseTypeArguments parseTypeArgumentList parseExpression parseOperators
  parseFunctionCall parseArguments parseArgument parseLeaf in
/-- The loop gives its tree in front of what stops it. -/
theorem parseOperators_stops (at_ : At rest p) (stops : Stops minPrec rest)
    (noCall : startsGenericCall e rest = false) :
    Gives (fun fuel => parseOperators fuel minPrec e p) (e, p) := by
  refine Gives.step (Gives.of_eq fun fuel => rfl) fun fuel => ?_
  have peek := at_.peek
  have notAs : p.peek ≠ some .as_ := by
    rw [peek]
    exact stops.1
  simp only [parseOperators, notAs, if_false, Option.bind_some, at_.1, noCall, Bool.false_eq_true]
  split
  · rfl
  · cases found : p.peek.bind Token.binaryOperator with
    | none => rfl
    | some op =>
      rw [peek] at found
      simp only [stops.2 op found, if_true]

theorem IsLeaf.spans (leaf : IsLeaf tokens e rest) : Spans bound tokens e rest := by
  intro p minPrec low at_
  obtain ⟨after, atAfter, gives⟩ := leaf p at_
  refine ⟨after, atAfter, fun result reaches => ?_⟩
  refine Gives.step (Gives.bind (fun fuel left => if endsExpression left.2.peek then some (left.1, left.2)
    else parseOperators fuel minPrec left.1 left.2) gives ?_) fun fuel => rfl
  by_cases ends : endsExpression after.peek = true
  · have stops : Stops minPrec rest := stops_of_ends (by rw [← atAfter.peek]; exact ends)
    have noCall : startsGenericCall e rest = false := by
      refine startsGenericCall_of_head fun head => ?_
      rw [atAfter.peek, head] at ends
      cases ends
    obtain rfl := Gives.unique (parseOperators_stops atAfter stops noCall) reaches
    exact Gives.of_eq fun fuel => by simp [ends]
  · exact Gives.congr reaches fun fuel => by simp [ends]

/-- An expression that is read up to its end. -/
theorem Spans.gives (spans : Spans bound tokens e rest) (low : minPrec < bound) (at_ : At (tokens ++ rest) p)
    (stops : Stops minPrec rest) (noCall : startsGenericCall e rest = false) :
    ∃ after, At rest after ∧ Gives (fun fuel => parseExpression fuel minPrec p) (e, after) := by
  obtain ⟨after, atAfter, reaches⟩ := spans p minPrec low at_
  exact ⟨after, atAfter, reaches _ (parseOperators_stops atAfter stops noCall)⟩

/-- An expression between brackets, or in front of a comma. -/
theorem Spans.gives_ends (spans : Spans bound tokens e rest) (low : minPrecedence < bound)
    (at_ : At (tokens ++ rest) p) (ends : endsExpression rest.head? = true) :
    ∃ after, At rest after ∧ Gives (fun fuel => parseExpression fuel minPrecedence p) (e, after) := by
  refine spans.gives low at_ (stops_of_ends ends) (startsGenericCall_of_head fun head => ?_)
  rw [head] at ends
  cases ends

end Reads

section Leaves

variable {tokens rest : List Token} {p : Parser} {e : Expr} {bound : ℤ}

theorem isLeaf_literal (value : Literal) : IsLeaf [.literal value] (.literal value) rest := fun p at_ =>
  ⟨p.eatToken, at_.eat, Gives.step (Gives.of_eq fun _ => rfl) fun fuel => by simp [parseLeaf, at_.1]⟩

theorem isLeaf_identifier (name : String) : IsLeaf [.identifier name] (.identifier name) rest := fun p at_ =>
  ⟨p.eatToken, at_.eat, Gives.step (Gives.of_eq fun _ => rfl) fun fuel => by simp [parseLeaf, at_.1]⟩

theorem isLeaf_enumLiteral (name : String) : IsLeaf [.dot, .identifier name] (.enumLiteral name) rest :=
  fun p at_ => ⟨p.eatToken.eatToken, at_.eat.eat,
    Gives.step (Gives.of_eq fun _ => rfl) fun fuel => by simp [parseLeaf, at_.1]⟩

theorem isLeaf_paren (spans : Spans bound tokens e (.closeParen :: rest)) (low : minPrecedence < bound) :
    IsLeaf (.openParen :: (tokens ++ [.closeParen])) e rest := by
  intro p at_
  have inner : At (tokens ++ .closeParen :: rest) p.eatToken := by simpa using at_.eat
  obtain ⟨after, atAfter, gives⟩ := spans.gives_ends low inner rfl
  refine ⟨after.eatToken, atAfter.eat, ?_⟩
  refine Gives.step (Gives.bind (fun _ result => if result.2.peek = some .closeParen then
    some (result.1, result.2.eatToken) else none) gives (Gives.of_eq fun fuel => ?_)) fun fuel => ?_
  · simp [atAfter.peek]
  · simp [parseLeaf, at_.1]

theorem isLeaf_unary (op : UnaryOperator) (spans : Spans bound tokens e rest)
    (low : getOperatorPrecedence (.unary op) < bound) (stops : Stops (getOperatorPrecedence (.unary op)) rest)
    (noCall : startsGenericCall e rest = false) : IsLeaf (op.token :: tokens) (.unary op e) rest := by
  intro p at_
  obtain ⟨after, atAfter, gives⟩ := spans.gives low at_.eat stops noCall
  refine ⟨after, atAfter, Gives.step (Gives.map (fun result => (Expr.unary op result.1, result.2)) gives) fun fuel => ?_⟩
  cases op <;> simp [parseLeaf, at_.1, UnaryOperator.token, Token.unaryOperator]

end Leaves

section Operators

variable {tokens left right rest : List Token} {p : Parser} {e l r : Expr} {minPrec bound tight : ℤ}

/-- One turn of the loop with an operator that binds tighter, no cast and no type arguments. -/
theorem parseOperators_turn (op : OperatorType) (found : p.peek.bind Token.binaryOperator = some op)
    (low : minPrec < getOperatorPrecedence op) (noCall : startsGenericCall l p.tokens = false) (fuel : ℕ) :
    parseOperators (fuel + 1) minPrec l p =
      match op with
      | .dot =>
        (parseLeaf fuel p.eatToken).bind fun (right, p) =>
          parseOperators fuel minPrec (.memberAccess l right false) p
      | .optionalDot =>
        (parseLeaf fuel p.eatToken).bind fun (right, p) =>
          parseOperators fuel minPrec (.memberAccess l right true) p
      | .subscript =>
        (parseExpression fuel minPrecedence p.eatToken).bind fun (index, p) =>
          if p.peek = some .closeBracket then
            parseOperators fuel minPrec (.arrayAccess l index) p.eatToken
          else none
      | .funcCall =>
        (parseFunctionCall fuel l .nil p).bind fun (call, p) => parseOperators fuel minPrec call p
      | .binary op =>
        (parseExpression fuel (getOperatorPrecedence (.binary op)) p.eatToken).bind fun (right, p) =>
          parseOperators fuel minPrec (.binary op l right) p
      | _ => none := by
  obtain ⟨token, peek, operator⟩ := Option.bind_eq_some_iff.mp found
  have notAs : p.peek ≠ some .as_ := by
    rintro equal
    rw [equal] at peek
    cases peek
    cases operator
  have goesOn : endsExpression p.peek = false := by
    rw [peek]
    cases token <;> first | rfl | cases operator
  simp only [parseOperators, notAs, if_false, Option.bind_some, noCall, Bool.false_eq_true, goesOn, found,
    Int.not_le.mpr low]
  cases op <;> rfl

theorem Spans.binary (op : BinaryOperator)
    (leftSpans : Spans bound left l (.operator op :: (right ++ rest)))
    (rightSpans : Spans tight right r rest) (le : getOperatorPrecedence (.binary op) ≤ bound)
    (lt : getOperatorPrecedence (.binary op) < tight) (stops : Stops (getOperatorPrecedence (.binary op)) rest)
    (noCallLeft : startsGenericCall l (.operator op :: (right ++ rest)) = false)
    (noCall : startsGenericCall r rest = false) :
    Spans (getOperatorPrecedence (.binary op)) (left ++ .operator op :: right) (.binary op l r) rest := by
  intro p minPrec low at_
  rw [List.append_assoc, List.cons_append] at at_
  obtain ⟨middle, atMiddle, reaches⟩ := leftSpans p minPrec (by omega) at_
  obtain ⟨after, atAfter, gives⟩ := rightSpans.gives lt atMiddle.eat stops noCall
  refine ⟨after, atAfter, fun result reached => reaches result ?_⟩
  refine Gives.step (Gives.bind (fun fuel (right, p) => parseOperators fuel minPrec (.binary op l right) p)
    gives reached) fun fuel => ?_
  rw [parseOperators_turn (.binary op) (by rw [atMiddle.peek]; rfl) low (by rw [atMiddle.1, noCallLeft])]

theorem Spans.memberAccess (optionalChain : Bool)
    (leftSpans : Spans bound left l (memberToken optionalChain :: (right ++ rest)))
    (rightLeaf : IsLeaf right r rest) (le : getOperatorPrecedence .dot ≤ bound) :
    Spans (getOperatorPrecedence .dot) (left ++ memberToken optionalChain :: right)
      (.memberAccess l r optionalChain) rest := by
  intro p minPrec low at_
  rw [List.append_assoc, List.cons_append] at at_
  obtain ⟨middle, atMiddle, reaches⟩ := leftSpans p minPrec (by omega) at_
  obtain ⟨after, atAfter, gives⟩ := rightLeaf middle.eatToken atMiddle.eat
  refine ⟨after, atAfter, fun result reached => reaches result ?_⟩
  refine Gives.step (Gives.bind (fun fuel (right, p) =>
    parseOperators fuel minPrec (.memberAccess l right optionalChain) p) gives reached) fun fuel => ?_
  have noCall : startsGenericCall l middle.tokens = false := by
    rw [atMiddle.1]
    exact startsGenericCall_of_head (by cases optionalChain <;> simp [memberToken])
  cases optionalChain with
  | false =>
    rw [parseOperators_turn .dot (by rw [atMiddle.peek]; rfl) low noCall]
  | true =>
    rw [parseOperators_turn .optionalDot (by rw [atMiddle.peek]; rfl) low noCall]

theorem Spans.arrayAccess (leftSpans : Spans bound left l (.openBracket :: (right ++ .closeBracket :: rest)))
    (indexSpans : Spans tight right r (.closeBracket :: rest)) (le : getOperatorPrecedence .subscript ≤ bound)
    (lt : minPrecedence < tight) :
    Spans (getOperatorPrecedence .subscript) (left ++ .openBracket :: (right ++ [.closeBracket]))
      (.arrayAccess l r) rest := by
  intro p minPrec low at_
  have start : At (left ++ .openBracket :: (right ++ .closeBracket :: rest)) p := by simpa using at_
  obtain ⟨middle, atMiddle, reaches⟩ := leftSpans p minPrec (by omega) start
  obtain ⟨after, atAfter, gives⟩ := indexSpans.gives_ends lt atMiddle.eat rfl
  refine ⟨after.eatToken, atAfter.eat, fun result reached => reaches result ?_⟩
  refine Gives.step (Gives.bind (fun fuel (index, p) => if p.peek = some .closeBracket then
    parseOperators fuel minPrec (.arrayAccess l index) p.eatToken else none) gives
    (Gives.congr reached fun fuel => ?_)) fun fuel => ?_
  · simp [atAfter.peek]
  · rw [parseOperators_turn .subscript (by rw [atMiddle.peek]; rfl) low
      (by rw [atMiddle.1]; exact startsGenericCall_of_head (by simp))]

end Operators

section Types

variable {tokens tail capacity rest : List Token} {p : Parser} {e : Expr} {t : Ty} {ts : TyList}
  {minPrec bound : ℤ} {lists : ℕ}

/-- The parser is at the ends of this many lists of type arguments, the first '>' of a '>>' maybe eaten. -/
def Closing (lists : ℕ) (rest : List Token) (p : Parser) : Prop :=
  At (closing lists ++ rest) p ∨
    ∃ fewer, lists = fewer + 1 ∧ p.tokens = .operator .bitwiseShiftRight :: (closing fewer ++ rest) ∧
      p.splitShiftRightToken = p.currentTokenIndex + 1

/-- The tokens are this type and the ends of lists of type arguments behind it. -/
def IsType (lists : ℕ) (tokens : List Token) (t : Ty) (rest : List Token) : Prop :=
  ∀ p, At (tokens ++ rest) p → ∃ after, Closing lists rest after ∧ Gives (fun fuel => parseType fuel p) (t, after)

/-- The tokens are these type arguments, with their own end and those of lists around them. -/
def IsTypes (lists : ℕ) (tokens : List Token) (ts : TyList) (rest : List Token) : Prop :=
  ∀ p, At (tokens ++ rest) p → ∃ after, Closing lists rest after ∧
    Gives (fun fuel => parseTypeArgumentList fuel p) (ts, after)

theorem Closing.at_ (closes : Closing 0 rest p) : At rest p := by
  obtain at_ | ⟨fewer, positive, _⟩ := closes
  · exact at_
  · cases positive

theorem isType_primitive (type : Primitive) : IsType lists (.primitive type :: closing lists) (.primitive type) rest :=
  fun p at_ => ⟨p.eatToken, .inl at_.eat, Gives.step (Gives.of_eq fun _ => rfl) fun fuel => by
    simp [parseType, at_.1]⟩

theorem isType_string : IsType lists (.string :: closing lists) .string rest :=
  fun p at_ => ⟨p.eatToken, .inl at_.eat, Gives.step (Gives.of_eq fun _ => rfl) fun fuel => by
    simp [parseType, at_.1]⟩

theorem isType_any : IsType lists (.any :: closing lists) .any rest :=
  fun p at_ => ⟨p.eatToken, .inl at_.eat, Gives.step (Gives.of_eq fun _ => rfl) fun fuel => by
    simp [parseType, at_.1]⟩

theorem IsType.optional (inner : IsType lists tokens t rest) :
    IsType lists (.question :: tokens) (.optional t) rest := by
  intro p at_
  obtain ⟨after, closes, gives⟩ := inner p.eatToken at_.eat
  exact ⟨after, closes, Gives.step (Gives.map (fun result => (Ty.optional result.1, result.2)) gives) fun fuel => by
    simp [parseType, at_.1]⟩

theorem IsType.pointer (inner : IsType lists tokens t rest) :
    IsType lists (.operator .times :: tokens) (.pointer t) rest := by
  intro p at_
  obtain ⟨after, closes, gives⟩ := inner p.eatToken at_.eat
  exact ⟨after, closes, Gives.step (Gives.map (fun result => (Ty.pointer result.1, result.2)) gives) fun fuel => by
    simp [parseType, at_.1]⟩

theorem IsType.slice (inner : IsType lists tokens t rest) :
    IsType lists (.openBracket :: .closeBracket :: tokens) (.slice t) rest := by
  intro p at_
  obtain ⟨after, closes, gives⟩ := inner p.eatToken.eatToken at_.eat.eat
  exact ⟨after, closes, Gives.step (Gives.map (fun result => (Ty.slice result.1, result.2)) gives) fun fuel => by
    simp [parseType, at_.1]⟩

theorem IsType.dynamicArray (inner : IsType lists tokens t rest) :
    IsType lists (.openBracket :: .doubleDot :: .closeBracket :: tokens) (.dynamicArray t) rest := by
  intro p at_
  obtain ⟨after, closes, gives⟩ := inner p.eatToken.eatToken.eatToken at_.eat.eat.eat
  exact ⟨after, closes, Gives.step (Gives.map (fun result => (Ty.dynamicArray result.1, result.2)) gives) fun fuel => by
    simp [parseType, at_.1]⟩

/-- No expression starts with what closes one. -/
theorem not_ends_of_gives {result : Expr × Parser}
    (gives : Gives (fun fuel => parseExpression fuel minPrec p) result) :
    p.peek ≠ some .closeParen ∧ p.peek ≠ some .closeBracket ∧ p.peek ≠ some .doubleDot := by
  obtain ⟨enough, gives⟩ := gives
  have result := gives (enough + 2) (by omega)
  refine ⟨fun peek => ?_, fun peek => ?_, fun peek => ?_⟩ <;>
    obtain ⟨tokens, equal⟩ := List.head?_eq_some_iff.mp peek <;>
    simp [parseExpression, parseLeaf, equal, Token.unaryOperator] at result

theorem IsType.fixedArray (capacitySpans : Spans bound capacity e (.closeBracket :: (tokens ++ rest)))
    (low : minPrecedence < bound) (inner : IsType lists tokens t rest) :
    IsType lists (.openBracket :: (capacity ++ .closeBracket :: tokens)) (.fixedArray e t) rest := by
  intro p at_
  have start : At (capacity ++ .closeBracket :: (tokens ++ rest)) p.eatToken := by simpa using at_.eat
  obtain ⟨middle, atMiddle, gives⟩ := capacitySpans.gives_ends low start rfl
  obtain ⟨after, closes, givesInner⟩ := inner middle.eatToken atMiddle.eat
  refine ⟨after, closes, ?_⟩
  refine Gives.step (Gives.bind (fun fuel capacity => if capacity.2.peek = some .closeBracket then
    (parseType fuel capacity.2.eatToken).map fun result => (.fixedArray capacity.1 result.1, result.2)
    else none) gives ?_)
    fun fuel => ?_
  · refine Gives.congr (Gives.map (fun result => (Ty.fixedArray e result.1, result.2)) givesInner) fun fuel => ?_
    simp [atMiddle.peek]
  · obtain ⟨_, notBracket, notDots⟩ := not_ends_of_gives gives
    obtain ⟨first, more, equal⟩ := List.exists_cons_of_ne_nil
      (by simp : capacity ++ .closeBracket :: (tokens ++ rest) ≠ [])
    rw [start.peek, equal] at notBracket notDots
    have tokensEq : p.tokens = .openBracket :: first :: more := by simp [at_.1, ← equal]
    rw [parseType.eq_def]
    simp only [tokensEq]
    split <;> simp_all

/-- A dotted name is read up to what is not a further part of it. -/
theorem parseDottedRest_parts (parts : List String) (notDot : rest.head? ≠ some .dot) (p : Parser)
    (at_ : At ((parts.flatMap fun part => [.dot, .identifier part]) ++ rest) p) :
    ∃ after, At rest after ∧
      parseDottedRest ((parts.flatMap fun part => [.dot, .identifier part]) ++ rest) p = (parts, after) := by
  induction parts generalizing p with
  | nil =>
    refine ⟨p, at_, ?_⟩
    cases rest with
    | nil => rfl
    | cons token rest =>
      cases token with
      | dot => simp at notDot
      | _ => rfl
  | cons part parts ih =>
    obtain ⟨after, atAfter, parsed⟩ := ih p.eatToken.eatToken at_.eat.eat
    exact ⟨after, atAfter, by simp [parseDottedRest, parsed]⟩

theorem isType_name (name : DottedName) (notDot : (closing lists ++ rest).head? ≠ some .dot)
    (noArguments : startsTypeArguments (closing lists ++ rest) = false) :
    IsType lists (name.print ++ closing lists) (.name name) rest := by
  intro p at_
  rw [List.append_assoc] at at_
  obtain ⟨after, atAfter, parsed⟩ := parseDottedRest_parts name.rest notDot p.eatToken at_.eat
  refine ⟨after, .inl atAfter, Gives.step (Gives.of_eq fun _ => rfl) fun fuel => ?_⟩
  simp [parseType, at_.1, DottedName.print, parsed, atAfter.1, noArguments]

theorem IsTypes.parseTypeArguments (types : IsTypes lists tokens ts rest)
    (at_ : At (.operator .lessThan :: (tokens ++ rest)) p) :
    ∃ after, Closing lists rest after ∧ Gives (fun fuel => parseTypeArguments fuel p) (ts, after) := by
  obtain ⟨after, closes, gives⟩ := types p.eatToken at_.eat
  exact ⟨after, closes, Gives.step gives fun fuel => by simp [Parsing.parseTypeArguments, at_.peek]⟩

theorem isType_genericInstance (name : DottedName) (types : IsTypes lists tokens ts rest)
    (scans : startsTypeArguments (.operator .lessThan :: (tokens ++ rest)) = true) :
    IsType lists (name.print ++ .operator .lessThan :: tokens) (.genericInstance name ts) rest := by
  intro p at_
  rw [List.append_assoc] at at_
  obtain ⟨middle, atMiddle, parsed⟩ := parseDottedRest_parts name.rest (by simp) p.eatToken at_.eat
  obtain ⟨after, closes, gives⟩ := types.parseTypeArguments atMiddle
  refine ⟨after, closes, Gives.step (Gives.map (fun result => (Ty.genericInstance name result.1, result.2)) gives)
    fun fuel => ?_⟩
  rw [List.cons_append] at parsed
  simp [parseType, at_.1, DottedName.print, parsed, atMiddle.1, scans]

theorem gives_typeArgumentList {middle : Parser} {result : TyList × Parser}
    (gives : Gives (fun fuel => parseType fuel p) (t, middle))
    (goesOn : Gives (fun fuel => match middle.peek with
      | some .comma => (parseTypeArgumentList fuel middle.eatToken).map fun (args, p) => (.cons t args, p)
      | some (.operator .greaterThan) => some (.cons t .nil, middle.eatToken)
      | some (.operator .bitwiseShiftRight) =>
        if middle.splitShiftRightToken = middle.currentTokenIndex + 1 then
          some (.cons t .nil, { middle.eatToken with splitShiftRightToken := 0 })
        else some (.cons t .nil, { middle with splitShiftRightToken := middle.currentTokenIndex + 1 })
      | _ => none) result) : Gives (fun fuel => parseTypeArgumentList fuel p) result := by
  obtain ⟨enough, gives⟩ := gives
  obtain ⟨more, goesOn⟩ := goesOn
  refine ⟨max enough more + 1, fun fuel le => ?_⟩
  obtain ⟨less, rfl⟩ : ∃ less, fuel = less + 1 := ⟨fuel - 1, by omega⟩
  have first := gives less (by omega)
  dsimp only at first ⊢
  rw [parseTypeArgumentList, first, Option.bind_some]
  exact goesOn less (by omega)

/-- The last type argument: its list closes with the next '>', or with the first half of a '>>' that an
outer list then eats. -/
theorem IsType.last (type : IsType (lists + 1) tokens t rest) : IsTypes lists tokens (.cons t .nil) rest := by
  intro p at_
  obtain ⟨middle, closes, gives⟩ := type p at_
  obtain atMiddle | ⟨fewer, equal, half, split⟩ := closes
  · cases lists with
    | zero =>
      refine ⟨middle.eatToken, .inl atMiddle.eat, gives_typeArgumentList gives (Gives.of_eq fun fuel => ?_)⟩
      simp [atMiddle.peek, closing]
    | succ fewer =>
      refine ⟨{ middle with splitShiftRightToken := middle.currentTokenIndex + 1 },
        .inr ⟨fewer, rfl, atMiddle.1, rfl⟩, gives_typeArgumentList gives (Gives.of_eq fun fuel => ?_)⟩
      have fresh : middle.splitShiftRightToken ≠ middle.currentTokenIndex + 1 := by
        have := atMiddle.2
        omega
      simp [atMiddle.peek, closing, fresh]
  · obtain rfl : lists = fewer := by omega
    refine ⟨{ middle.eatToken with splitShiftRightToken := 0 }, .inl ⟨?_, Nat.zero_le _⟩,
      gives_typeArgumentList gives (Gives.of_eq fun fuel => ?_)⟩
    · simp [Parser.eatToken, half]
    · simp [Parser.peek, half, split]

theorem IsType.cons (type : IsType 0 tokens t (.comma :: (tail ++ rest))) (types : IsTypes lists tail ts rest) :
    IsTypes lists (tokens ++ .comma :: tail) (.cons t ts) rest := by
  intro p at_
  rw [List.append_assoc, List.cons_append] at at_
  obtain ⟨middle, closes, gives⟩ := type p at_
  obtain ⟨after, closesAfter, givesTail⟩ := types middle.eatToken closes.at_.eat
  refine ⟨after, closesAfter, gives_typeArgumentList gives ?_⟩
  refine Gives.congr (Gives.map (fun result => (TyList.cons t result.1, result.2)) givesTail) fun fuel => ?_
  simp [closes.at_.peek]

end Types

section Calls

variable {tokens left types arguments tail rest : List Token} {p : Parser} {e l : Expr} {t : Ty} {ts : TyList}
  {args : ExprList} {bound : ℤ}

/-- 'as' is handled in the turn of the loop whatever the precedence, and another 'as' behind it is not. -/
theorem parseOperators_cast {after : Parser} {minPrec : ℤ} {fuel : ℕ} (peek : p.peek = some .as_)
    (type : parseType fuel p.eatToken = some (t, after)) (notAs : after.peek ≠ some .as_) :
    parseOperators (fuel + 1) minPrec l p = parseOperators (fuel + 1) minPrec (.cast l t) after := by
  simp only [parseOperators, peek, if_true, type, Option.map_some, Option.bind_some, notAs, if_false]

theorem Spans.cast (leftSpans : Spans bound left l (.as_ :: (tokens ++ rest))) (type : IsType 0 tokens t rest)
    (le : getOperatorPrecedence .dot ≤ bound) (notAs : rest.head? ≠ some .as_) :
    Spans (getOperatorPrecedence .dot) (left ++ .as_ :: tokens) (.cast l t) rest := by
  intro p minPrec low at_
  rw [List.append_assoc, List.cons_append] at at_
  obtain ⟨middle, atMiddle, reaches⟩ := leftSpans p minPrec (by omega) at_
  obtain ⟨after, closes, gives⟩ := type middle.eatToken atMiddle.eat
  refine ⟨after, closes.at_, fun result reached => reaches result ?_⟩
  exact Gives.after gives reached fun fuel parsed =>
    parseOperators_cast atMiddle.peek parsed (by rw [closes.at_.peek]; exact notAs)

/-- The tokens are these arguments, up to a closing parenthesis. -/
def IsArguments (tokens : List Token) (args : ExprList) (rest : List Token) : Prop :=
  ∀ p, At (tokens ++ .closeParen :: rest) p → ∃ after, At rest after ∧
    Gives (fun fuel => parseArguments fuel false p) (args, after)

/-- The same where an argument has to come. -/
def IsArgument (tokens : List Token) (args : ExprList) (rest : List Token) : Prop :=
  ∀ p, At (tokens ++ .closeParen :: rest) p → p.peek ≠ some .closeParen ∧ ∃ after, At rest after ∧
    Gives (fun fuel => parseArgument fuel p) (args, after)

theorem isArguments_nil : IsArguments [] .nil rest := fun p at_ =>
  ⟨p.eatToken, at_.eat, Gives.step (Gives.of_eq fun _ => rfl) fun fuel => by
    simp [parseArguments, at_.peek]⟩

theorem IsArgument.isArguments (argument : IsArgument tokens args rest) : IsArguments tokens args rest := by
  intro p at_
  obtain ⟨notParen, after, atAfter, gives⟩ := argument p at_
  exact ⟨after, atAfter, Gives.step gives fun fuel => by simp [parseArguments, notParen]⟩

theorem Spans.lastArgument (spans : Spans bound tokens e (.closeParen :: rest)) (low : minPrecedence < bound) :
    IsArgument tokens (.cons e .nil) rest := by
  intro p at_
  obtain ⟨middle, atMiddle, gives⟩ := spans.gives_ends low at_ rfl
  refine ⟨(not_ends_of_gives gives).1, middle.eatToken, atMiddle.eat, ?_⟩
  refine Gives.step (Gives.bind (fun fuel value =>
    (parseArguments fuel true value.2).map fun result => (.cons value.1 result.1, result.2)) gives ?_) fun fuel => rfl
  exact Gives.step (Gives.of_eq fun _ => rfl) fun fuel => by simp [parseArguments, atMiddle.peek]

theorem Spans.argument (spans : Spans bound tokens e (.comma :: (tail ++ .closeParen :: rest)))
    (low : minPrecedence < bound) (others : IsArgument tail args rest) :
    IsArgument (tokens ++ .comma :: tail) (.cons e args) rest := by
  intro p at_
  rw [List.append_assoc, List.cons_append] at at_
  obtain ⟨middle, atMiddle, gives⟩ := spans.gives_ends low at_ rfl
  obtain ⟨notParen, after, atAfter, givesOthers⟩ := others middle.eatToken atMiddle.eat
  refine ⟨(not_ends_of_gives gives).1, after, atAfter, ?_⟩
  have givesSeen : Gives (fun fuel => parseArguments fuel true middle) (args, after) :=
    Gives.step givesOthers fun fuel => by simp [parseArguments, atMiddle.peek, notParen]
  exact Gives.step (Gives.bind (fun fuel value =>
    (parseArguments fuel true value.2).map fun result => (.cons value.1 result.1, result.2)) gives
    (Gives.map (fun result => (ExprList.cons e result.1, result.2)) givesSeen)) fun fuel => rfl

theorem IsArguments.parseFunctionCall (isArguments : IsArguments arguments args rest)
    (at_ : At (.openParen :: (arguments ++ .closeParen :: rest)) p) (canBeCalled : l.canBeCalled = true) :
    ∃ after, At rest after ∧
      Gives (fun fuel => parseFunctionCall fuel l ts p) (.functionCall l ts args, after) := by
  obtain ⟨after, atAfter, gives⟩ := isArguments p.eatToken at_.eat
  exact ⟨after, atAfter, Gives.step
    (Gives.map (fun result => (Expr.functionCall l ts result.1, result.2)) gives) fun fuel => by
      simp [Parsing.parseFunctionCall, canBeCalled, at_.peek]⟩

theorem Spans.functionCall
    (leftSpans : Spans bound left l (.openParen :: (arguments ++ .closeParen :: rest)))
    (le : getOperatorPrecedence .funcCall ≤ bound) (canBeCalled : l.canBeCalled = true)
    (isArguments : IsArguments arguments args rest) :
    Spans (getOperatorPrecedence .funcCall) (left ++ .openParen :: (arguments ++ [.closeParen]))
      (.functionCall l .nil args) rest := by
  intro p minPrec low at_
  have start : At (left ++ .openParen :: (arguments ++ .closeParen :: rest)) p := by simpa using at_
  obtain ⟨middle, atMiddle, reaches⟩ := leftSpans p minPrec (by omega) start
  obtain ⟨after, atAfter, gives⟩ := isArguments.parseFunctionCall atMiddle canBeCalled
  refine ⟨after, atAfter, fun result reached => reaches result ?_⟩
  refine Gives.step (Gives.bind (fun fuel result => parseOperators fuel minPrec result.1 result.2) gives reached)
    fun fuel => ?_
  rw [parseOperators_turn .funcCall (by rw [atMiddle.peek]; rfl) low
    (by rw [atMiddle.1]; exact startsGenericCall_of_head (by simp))]

/-- A name, '<', types, '>' and '(' is a call. -/
theorem Spans.genericCall
    (leftSpans : Spans bound left l
      (.operator .lessThan :: (types ++ .openParen :: (arguments ++ .closeParen :: rest))))
    (le : getOperatorPrecedence .funcCall ≤ bound) (canBeCalled : l.canBeCalled = true)
    (calleeName : isCalleeName l = true) (isTypes : IsTypes 0 types ts (.openParen :: (arguments ++ .closeParen :: rest)))
    (scans : scansToCall (.operator .lessThan :: (types ++ .openParen :: (arguments ++ .closeParen :: rest))) = true)
    (isArguments : IsArguments arguments args rest) :
    Spans (getOperatorPrecedence .funcCall)
      (left ++ .operator .lessThan :: (types ++ .openParen :: (arguments ++ [.closeParen])))
      (.functionCall l ts args) rest := by
  intro p minPrec low at_
  have start : At (left ++ .operator .lessThan :: (types ++ .openParen :: (arguments ++ .closeParen :: rest))) p := by
    simpa using at_
  obtain ⟨middle, atMiddle, reaches⟩ := leftSpans p minPrec (by omega) start
  obtain ⟨called, closes, givesTypes⟩ := isTypes.parseTypeArguments atMiddle
  obtain ⟨after, atAfter, gives⟩ := isArguments.parseFunctionCall closes.at_ canBeCalled
  refine ⟨after, atAfter, fun result reached => reaches result ?_⟩
  refine Gives.step (Gives.bind (fun fuel result => (parseFunctionCall fuel l result.1 result.2).bind
    fun result => parseOperators fuel minPrec result.1 result.2) givesTypes
    (Gives.bind (fun fuel result => parseOperators fuel minPrec result.1 result.2) gives reached)) fun fuel => ?_
  have notAs : middle.peek ≠ some .as_ := by simp [atMiddle.peek]
  have isCall : startsGenericCall l middle.tokens = true := by
    rw [atMiddle.1, startsGenericCall, calleeName, scans]
    rfl
  simp only [parseOperators, notAs, if_false, Option.bind_some, isCall, if_true]

end Calls

end Saad.Parsing
