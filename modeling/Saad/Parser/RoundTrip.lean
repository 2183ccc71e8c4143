import Saad.Parser.Reads

/-! # Printed expressions are parsed as they are

What is printed is read by the rules, one rule for each node of the tree. The scan for type arguments goes
over printed types.
-/

namespace Saad.Parsing

open General

section Scan

variable {tokens front : List Token} {token : Token} {depth castLevel : ℤ} {lists : ℕ}

/-- At this depth the scan goes over the tokens and out of this many lists. -/
def Scanned (depth : ℤ) (lists : ℕ) (tokens : List Token) : Prop :=
  ∀ rest, (lists < depth → scanTypeArguments depth (tokens ++ rest) = scanTypeArguments (depth - lists) rest) ∧
    (depth ≤ lists → ∃ after, scanTypeArguments depth (tokens ++ rest) = some after ∧ (depth = lists → after = rest))

theorem scanTypeArguments_cons (inList : token.inTypeArguments = true) (positive : 0 < depth) :
    scanTypeArguments depth (token :: tokens) = scanTypeArguments depth tokens := by
  have notDone : ¬ depth ≤ 0 := by omega
  cases token with
  | operator op =>
    cases op with
    | times => simp only [scanTypeArguments, inList, notDone, if_true, if_false]
    | _ => cases inList
  | _ => simp only [scanTypeArguments, inList, notDone, if_true, if_false]

theorem scanTypeArguments_append (inList : front.all Token.inTypeArguments = true) (positive : 0 < depth) :
    scanTypeArguments depth (front ++ tokens) = scanTypeArguments depth tokens := by
  induction front with
  | nil => rfl
  | cons token front ih =>
    rw [List.all_cons, Bool.and_eq_true] at inList
    rw [List.cons_append, scanTypeArguments_cons inList.1 positive, ih inList.2]

theorem Scanned.append (scanned : Scanned depth lists tokens) (inList : front.all Token.inTypeArguments = true)
    (positive : 0 < depth) : Scanned depth lists (front ++ tokens) := by
  intro rest
  rw [List.append_assoc, scanTypeArguments_append inList positive]
  exact scanned rest

theorem Scanned.cons (scanned : Scanned depth lists tokens) (inList : token.inTypeArguments = true)
    (positive : 0 < depth) : Scanned depth lists (token :: tokens) :=
  scanned.append (show [token].all Token.inTypeArguments = true by simp [inList]) positive

theorem closing_scanned (lists : ℕ) (depth : ℤ) (positive : 0 < depth) : Scanned depth lists (closing lists) := by
  intro rest
  induction lists using closing.induct generalizing depth with
  | case1 => exact ⟨fun _ => by simp [closing], fun le => by simp at le; omega⟩
  | case2 =>
    refine ⟨fun lt => ?_, fun le => ⟨rest, ?_, fun _ => rfl⟩⟩
    · rw [closing, List.cons_append, scanTypeArguments, if_neg (by omega)]
      rfl
    · rw [closing, List.cons_append, scanTypeArguments, if_pos (by omega)]
      rfl
  | case3 count ih =>
    refine ⟨fun lt => ?_, fun le => ?_⟩
    · rw [closing, List.cons_append, scanTypeArguments, if_neg (by omega), (ih (depth - 2) (by omega)).1 (by omega)]
      congr 1
      omega
    · by_cases done : depth ≤ 2
      · refine ⟨closing count ++ rest, ?_, fun equal => ?_⟩
        · rw [closing, List.cons_append, scanTypeArguments, if_pos (by omega)]
        · obtain rfl : count = 0 := by omega
          rfl
      · obtain ⟨after, scans, last⟩ := (ih (depth - 2) (by omega)).2 (by omega)
        refine ⟨after, ?_, fun equal => last (by omega)⟩
        rw [closing, List.cons_append, scanTypeArguments, if_neg (by omega), scans]

/-- A '<' takes the scan one list deeper. -/
theorem Scanned.opened (scanned : Scanned (depth + 1) (lists + 1) tokens) (notNegative : 0 ≤ depth) :
    Scanned depth lists (.operator .lessThan :: tokens) := by
  intro rest
  obtain ⟨same, out⟩ := scanned rest
  rw [List.cons_append, scanTypeArguments, if_neg (by omega)]
  refine ⟨fun lt => ?_, fun le => ?_⟩
  · rw [same (by push_cast; omega)]
    congr 1
    push_cast
    omega
  · obtain ⟨after, scans, last⟩ := out (by push_cast; omega)
    exact ⟨after, scans, fun equal => last (by push_cast; omega)⟩

theorem inTypeArguments_name (name : DottedName) : name.print.all Token.inTypeArguments = true := by
  simp [DottedName.print, Token.inTypeArguments]

mutual

theorem Ty.scanned_print (t : Ty) (wellFormed : t.wellFormed castLevel = true) (scanned : t.scanned castLevel = true)
    (depth : ℤ) (positive : 0 < depth) (lists : ℕ) : Scanned depth lists (t.print castLevel lists) := by
  cases t with
  | primitive type => exact (closing_scanned lists depth positive).cons rfl positive
  | string => exact (closing_scanned lists depth positive).cons rfl positive
  | any => exact (closing_scanned lists depth positive).cons rfl positive
  | name name => exact (closing_scanned lists depth positive).append (inTypeArguments_name name) positive
  | genericInstance name typeArgs =>
    simp only [Ty.wellFormed, Bool.and_eq_true, Bool.not_eq_true'] at wellFormed
    obtain ⟨⟨nonempty, _⟩, wellFormed⟩ := wellFormed
    rw [Ty.print]
    exact (Scanned.opened (typeArgs.scanned_print nonempty wellFormed scanned (depth + 1) (by omega) lists) (by omega)).append
      (inTypeArguments_name name) positive
  | optional inner => exact (inner.scanned_print wellFormed scanned depth positive lists).cons rfl positive
  | pointer pointee => exact (pointee.scanned_print wellFormed scanned depth positive lists).cons rfl positive
  | slice elem =>
    exact ((elem.scanned_print wellFormed scanned depth positive lists).cons rfl positive).cons rfl positive
  | dynamicArray elem =>
    exact (((elem.scanned_print wellFormed scanned depth positive lists).cons rfl positive).cons rfl positive).cons rfl
      positive
  | fixedArray capacity elem =>
    simp only [Ty.wellFormed, Ty.scanned, Bool.and_eq_true] at wellFormed scanned
    exact (((elem.scanned_print wellFormed.2 scanned.2 depth positive lists).cons rfl positive).append scanned.1
      positive).cons rfl positive

theorem TyList.scanned_print (ts : TyList) (nonempty : ts.isNil = false) (wellFormed : ts.wellFormed castLevel = true)
    (scanned : ts.scanned castLevel = true) (depth : ℤ) (positive : 0 < depth) (lists : ℕ) :
    Scanned depth (lists + 1) (ts.print castLevel lists) := by
  cases ts with
  | nil => cases nonempty
  | cons head tail =>
    simp only [TyList.wellFormed, TyList.scanned, Bool.and_eq_true] at wellFormed scanned
    cases tail with
    | nil => exact head.scanned_print wellFormed.1 scanned.1 depth positive (lists + 1)
    | cons next tail =>
      have rest := ((TyList.cons next tail).scanned_print rfl wellFormed.2 scanned.2 depth positive lists).cons
        (show Token.comma.inTypeArguments = true from rfl) positive
      intro following
      have same := (head.scanned_print wellFormed.1 scanned.1 depth positive 0
        (.comma :: ((TyList.cons next tail).print castLevel lists ++ following))).1 positive
      rw [show depth - (0 : ℕ) = depth by omega] at same
      rw [TyList.print, List.append_assoc, List.cons_append, same]
      · exact rest following
      · exact nofun

end

end Scan

section Levels

variable {tokens rest : List Token} {e : Expr} {bound castLevel : ℤ} {needed : Bool}

/-- The loop reads such a tree below this precedence. Only a binary operator can end it before. -/
def Expr.reach : Expr → ℤ
  | .binary op _ _ => getOperatorPrecedence (.binary op)
  | _ => getOperatorPrecedence .dot

theorem binary_lt (op : BinaryOperator) : getOperatorPrecedence (.binary op) < getOperatorPrecedence (.unary .not) := by
  cases op <;> decide

theorem unary_le (op : UnaryOperator) :
    getOperatorPrecedence (.unary .not) ≤ getOperatorPrecedence (.unary op) ∧
      getOperatorPrecedence (.unary op) < getOperatorPrecedence .dot := by
  cases op <;> decide

theorem binary_lt_dot (op : BinaryOperator) : getOperatorPrecedence (.binary op) < getOperatorPrecedence .dot :=
  Int.lt_trans (binary_lt op) (by decide)

theorem minPrecedence_lt (op : OperatorType) : minPrecedence < getOperatorPrecedence op := by
  cases op with
  | binary op => cases op <;> decide
  | unary op => cases op <;> decide
  | _ => decide

theorem minPrecedence_lt_reach : minPrecedence < e.reach := by
  cases e with
  | binary op => exact minPrecedence_lt (.binary op)
  | _ => exact minPrecedence_lt .dot

/-- A tree that binds as tight as an unary operator is no binary operator. -/
theorem Expr.reach_of_level (tight : getOperatorPrecedence (.unary .not) ≤ e.level) :
    e.reach = getOperatorPrecedence .dot := by
  cases e with
  | binary op left right =>
    rw [Expr.level] at tight
    have := binary_lt op
    omega
  | _ => rfl

theorem Expr.le_reach (le : bound ≤ e.level) (dot : bound ≤ getOperatorPrecedence .dot) : bound ≤ e.reach := by
  cases e with
  | binary op left right => exact le
  | _ => exact dot

theorem Spans.mono {weaker : ℤ} (spans : Spans bound tokens e rest) (le : weaker ≤ bound) :
    Spans weaker tokens e rest := fun p minPrec low at_ => spans p minPrec (by omega) at_

theorem stops_operator (op : BinaryOperator) {minPrec : ℤ} (le : getOperatorPrecedence (.binary op) ≤ minPrec) :
    Stops minPrec (.operator op :: rest) := by
  refine ⟨by simp, fun found equal => ?_⟩
  cases equal
  exact le

/-- An operand, with its parentheses where it needs them. -/
theorem Expr.operand (inner : ∀ following, e.clear castLevel following = true →
      (e.level < getOperatorPrecedence .dot → Stops e.level following) →
        Spans e.reach (e.print castLevel) e following)
    (clear : e.clear castLevel (behind needed rest) = true)
    (stops : needed = false → e.level < getOperatorPrecedence .dot → Stops e.level rest)
    (le : needed = false → bound ≤ e.reach) :
    Spans bound (parenthesized needed (e.print castLevel)) e rest := by
  cases needed with
  | true =>
    have spans := inner (.closeParen :: rest) clear fun _ => stops_of_ends rfl
    exact (isLeaf_paren spans minPrecedence_lt_reach).spans
  | false => exact (inner rest clear (stops rfl)).mono (le rfl)

end Levels

section RoundTrip

variable {castLevel : ℤ}

/-- What an operand in front of a '.', '[' or '(' needs no more than to be clear. -/
theorem Expr.postfixOperand {e : Expr} {rest : List Token} {level : ℤ} (tight : getOperatorPrecedence .as_ < level)
    (inner : ∀ following, e.clear castLevel following = true →
      (e.level < getOperatorPrecedence .dot → Stops e.level following) →
        Spans e.reach (e.print castLevel) e following)
    (clear : e.clear castLevel (behind (e.level < level) rest) = true) :
    Spans (getOperatorPrecedence .dot) (parenthesized (e.level < level) (e.print castLevel)) e rest := by
  have dot : getOperatorPrecedence .dot = getOperatorPrecedence .as_ + 1 := rfl
  have not_ : getOperatorPrecedence (.unary .not) < getOperatorPrecedence .as_ := by decide
  refine Expr.operand inner clear (fun bare weak => ?_) fun bare => ?_
  · have := of_decide_eq_false bare
    omega
  · have := of_decide_eq_false bare
    exact Int.le_of_eq (Expr.reach_of_level (by omega)).symm

theorem ExprList.isArguments {args : ExprList} {rest : List Token}
    (inner : args ≠ .nil → IsArgument (args.print castLevel) args rest) :
    IsArguments (args.print castLevel) args rest := by
  cases args with
  | nil => exact isArguments_nil
  | cons head tail => exact (inner nofun).isArguments

mutual

/-- Every printed tree takes the parser to its loop with that tree, in front of what stops it. -/
theorem Expr.spans (above : getOperatorPrecedence .as_ < castLevel) (e : Expr)
    (wellFormed : e.wellFormed castLevel = true) (rest : List Token) (clear : e.clear castLevel rest = true)
    (stops : e.level < getOperatorPrecedence .dot → Stops e.level rest) :
    Spans e.reach (e.print castLevel) e rest := by
  cases e with
  | identifier name => exact (isLeaf_identifier name).spans
  | literal value => exact (isLeaf_literal value).spans
  | enumLiteral name => exact (isLeaf_enumLiteral name).spans
  | unary op expr =>
    simp only [Expr.clear, Bool.and_eq_true, Bool.not_eq_true'] at clear
    have stops := stops (unary_le op).2
    refine (isLeaf_unary op (Expr.operand (expr.spans above wellFormed) clear.1 (fun bare _ => ?_) fun bare => ?_)
      (Int.lt_succ _) stops clear.2).spans
    · exact stops.le (Int.not_lt.mp (of_decide_eq_false bare))
    · have := Int.not_lt.mp (of_decide_eq_false bare)
      have := (unary_le op)
      rw [Expr.reach_of_level (by omega)]
      omega
  | binary op left right =>
    simp only [Expr.wellFormed, Expr.clear, Bool.and_eq_true, Bool.not_eq_true'] at wellFormed clear
    obtain ⟨⟨⟨clearLeft, noCallLeft⟩, clearRight⟩, noCall⟩ := clear
    have stops := stops (binary_lt_dot op)
    have lt := binary_lt_dot op
    refine Spans.binary op
      (Expr.operand (left.spans above wellFormed.1) clearLeft (fun bare _ => ?_) fun bare => ?_)
      (Expr.operand (right.spans above wellFormed.2) clearRight (fun bare _ => ?_) fun bare => ?_)
      (Int.le_refl _) (Int.lt_succ _) stops noCallLeft noCall
    · exact stops_operator op (Int.not_lt.mp (of_decide_eq_false bare))
    · exact Expr.le_reach (Int.not_lt.mp (of_decide_eq_false bare)) (by omega)
    · exact stops.le (Int.le_of_lt (Int.not_le.mp (of_decide_eq_false bare)))
    · exact Expr.le_reach (Int.not_le.mp (of_decide_eq_false bare)) lt
  | cast expr castTo =>
    simp only [Expr.wellFormed, Expr.clear, Bool.and_eq_true] at wellFormed clear
    have stops := stops (show getOperatorPrecedence .as_ < getOperatorPrecedence .dot by decide)
    refine Spans.cast (Expr.postfixOperand above (expr.spans above wellFormed.1) clear.1)
      (castTo.isType above wellFormed.2 0 rest clear.2 fun dot => ?_) (Int.le_refl _) stops.1
    have tight := stops.2 .dot (by rw [dot]; rfl)
    exact absurd tight (show ¬ getOperatorPrecedence .dot ≤ getOperatorPrecedence .as_ by decide)
  | memberAccess left right optionalChain =>
    simp only [Expr.wellFormed, Expr.clear, Bool.and_eq_true] at wellFormed clear
    cases right with
    | identifier name =>
      exact Spans.memberAccess optionalChain
        (Expr.postfixOperand (by decide) (left.spans above wellFormed.1) clear) (isLeaf_identifier name)
        (Int.le_refl _)
    | _ => cases wellFormed.2
  | arrayAccess left index =>
    simp only [Expr.wellFormed, Expr.clear, Bool.and_eq_true] at wellFormed clear
    exact Spans.arrayAccess (Expr.postfixOperand (by decide) (left.spans above wellFormed.1) clear.1)
      (index.spans above wellFormed.2 _ clear.2 fun _ => stops_of_ends rfl) (Int.le_refl _) minPrecedence_lt_reach
  | functionCall expression typeArgs arguments =>
    simp only [Expr.wellFormed, Expr.clear, Bool.and_eq_true] at wellFormed clear
    obtain ⟨⟨⟨⟨canBeCalled, wellFormedCallee⟩, typed⟩, wellFormedTypes⟩, wellFormedArguments⟩ := wellFormed
    obtain ⟨⟨clearCallee, clearTypes⟩, clearArguments⟩ := clear
    have callee := Expr.postfixOperand (by decide) (expression.spans above wellFormedCallee) clearCallee
    have isArguments := ExprList.isArguments fun nonempty =>
      arguments.isArgument above nonempty wellFormedArguments rest clearArguments
    cases none : typeArgs.isNil with
    | true =>
      obtain rfl : typeArgs = .nil := by
        cases typeArgs with
        | nil => rfl
        | cons => cases none
      exact Spans.functionCall callee (Int.le_refl _) canBeCalled isArguments
    | false =>
      simp only [none, Bool.false_or, Bool.and_eq_true] at typed
      simp only [TyList.printCall, none, Bool.false_eq_true, if_false] at callee
      have types := typeArgs.isTypes above none wellFormedTypes 0 _ clearTypes (by simp)
      have scans := ((typeArgs.scanned_print none wellFormedTypes typed.2 1 (by decide) 0)
        (.openParen :: (arguments.print castLevel ++ .closeParen :: rest))).2 (by decide)
      obtain ⟨after, scans, last⟩ := scans
      obtain rfl := last rfl
      have toCall : scansToCall (.operator .lessThan :: (typeArgs.print castLevel 0 ++
          .openParen :: (arguments.print castLevel ++ .closeParen :: rest))) = true := by
        rw [scansToCall, scanTypeArguments, if_neg (by decide), Int.zero_add, scans]
        rfl
      have spans := Spans.genericCall callee (Int.le_refl _) canBeCalled typed.1 types toCall isArguments
      simp only [Expr.print, none, Bool.false_eq_true, if_false, List.cons_append]
      exact spans

theorem Ty.isType (above : getOperatorPrecedence .as_ < castLevel) (t : Ty) (wellFormed : t.wellFormed castLevel = true)
    (lists : ℕ) (rest : List Token) (clear : t.clear castLevel lists rest = true)
    (notDot : rest.head? ≠ some .dot) : IsType lists (t.print castLevel lists) t rest := by
  cases t with
  | primitive type => exact isType_primitive type
  | string => exact isType_string
  | any => exact isType_any
  | name name =>
    rw [Ty.clear, Bool.not_eq_true'] at clear
    refine isType_name name (fun dot => ?_) clear
    match lists with
    | 0 => exact notDot dot
    | 1 => cases dot
    | _ + 2 => cases dot
  | genericInstance name typeArgs =>
    simp only [Ty.wellFormed, Bool.and_eq_true, Bool.not_eq_true'] at wellFormed
    obtain ⟨⟨nonempty, scanned⟩, wellFormed⟩ := wellFormed
    refine isType_genericInstance name (typeArgs.isTypes above nonempty wellFormed lists rest clear notDot) ?_
    obtain ⟨after, scans, _⟩ := ((typeArgs.scanned_print nonempty wellFormed scanned 1 (by decide) lists) rest).2
      (by omega)
    rw [startsTypeArguments, scanTypeArguments, if_neg (by decide), Int.zero_add, scans]
    rfl
  | optional inner => exact (inner.isType above wellFormed lists rest clear notDot).optional
  | pointer pointee => exact (pointee.isType above wellFormed lists rest clear notDot).pointer
  | slice elem => exact (elem.isType above wellFormed lists rest clear notDot).slice
  | dynamicArray elem => exact (elem.isType above wellFormed lists rest clear notDot).dynamicArray
  | fixedArray capacity elem =>
    simp only [Ty.wellFormed, Ty.clear, Bool.and_eq_true] at wellFormed clear
    exact IsType.fixedArray (capacity.spans above wellFormed.1 _ clear.1 fun _ => stops_of_ends rfl)
      minPrecedence_lt_reach (elem.isType above wellFormed.2 lists rest clear.2 notDot)

theorem ExprList.isArgument (above : getOperatorPrecedence .as_ < castLevel) (args : ExprList) (nonempty : args ≠ .nil)
    (wellFormed : args.wellFormed castLevel = true) (rest : List Token)
    (clear : args.clear castLevel (.closeParen :: rest) = true) : IsArgument (args.print castLevel) args rest := by
  cases args with
  | nil => exact absurd rfl nonempty
  | cons head tail =>
    rw [ExprList.wellFormed, Bool.and_eq_true] at wellFormed
    cases tail with
    | nil =>
      exact (head.spans above wellFormed.1 _ clear fun _ => stops_of_ends rfl).lastArgument minPrecedence_lt_reach
    | cons next others =>
      rw [ExprList.clear, Bool.and_eq_true] at clear
      · exact (head.spans above wellFormed.1 _ clear.1 fun _ => stops_of_ends rfl).argument minPrecedence_lt_reach
          ((ExprList.cons next others).isArgument above nofun wellFormed.2 rest clear.2)
      · exact nofun

theorem TyList.isTypes (above : getOperatorPrecedence .as_ < castLevel) (ts : TyList) (nonempty : ts.isNil = false)
    (wellFormed : ts.wellFormed castLevel = true) (lists : ℕ) (rest : List Token)
    (clear : ts.clear castLevel lists rest = true) (notDot : rest.head? ≠ some .dot) :
    IsTypes lists (ts.print castLevel lists) ts rest := by
  cases ts with
  | nil => cases nonempty
  | cons head tail =>
    rw [TyList.wellFormed, Bool.and_eq_true] at wellFormed
    cases tail with
    | nil => exact (head.isType above wellFormed.1 (lists + 1) rest clear notDot).last
    | cons next others =>
      rw [TyList.clear, Bool.and_eq_true] at clear
      · exact (head.isType above wellFormed.1 0 _ clear.1 (by simp)).cons
          ((TyList.cons next others).isTypes above rfl wellFormed.2 lists rest clear.2 notDot)
      · exact nofun

end

/-- Printed with the operand of a cast in parentheses unless it is a name, a literal, a member, an index or a
call, a tree is parsed as it is, and no token is left. -/
theorem parseExpression_print (e : Expr) (p : Parser)
    (wellFormed : e.wellFormed (getOperatorPrecedence .dot) = true)
    (clear : e.clear (getOperatorPrecedence .dot) [] = true)
    (tokens : p.tokens = e.print (getOperatorPrecedence .dot))
    (fresh : p.splitShiftRightToken ≤ p.currentTokenIndex) :
    ∃ after, after.tokens = [] ∧ Gives (fun fuel => parseExpression fuel minPrecedence p) (e, after) := by
  have spans := e.spans (by decide) wellFormed [] clear fun _ => stops_of_ends rfl
  obtain ⟨after, atAfter, gives⟩ := spans.gives_ends minPrecedence_lt_reach ⟨by simpa using tokens, fresh⟩ rfl
  exact ⟨after, atAfter.1, gives⟩

/-- `-total as int * rows[max<List<List<int>>>(a.b, c)] - (x as f64)?.y` -/
theorem parseExpression_print_total :
    let e : Expr := .binary .minus
      (.binary .times (.unary .unaryMinus (.cast (.identifier "total") (.primitive .int)))
        (.arrayAccess (.identifier "rows") (.functionCall (.identifier "max")
          (.cons (.genericInstance ⟨"List", []⟩ (.cons (.genericInstance ⟨"List", []⟩
            (.cons (.primitive .int) .nil)) .nil)) .nil)
          (.cons (.memberAccess (.identifier "a") (.identifier "b") false) (.cons (.identifier "c") .nil)))))
      (.memberAccess (.cast (.identifier "x") (.primitive .f64)) (.identifier "y") true)
    ∃ after, after.tokens = [] ∧
      Gives (fun fuel => parseExpression fuel minPrecedence ⟨e.print (getOperatorPrecedence .dot), 0, 0⟩) (e, after) :=
  parseExpression_print _ _ (by decide) (by decide) rfl (by decide)

/-- With the operand of a cast in parentheses only where it binds weaker, `-a as int` would be the cast of a
negation. It is the negation of a cast. -/
theorem cast_not_parsed_back : ¬ ∀ e : Expr, e.wellFormed (getOperatorPrecedence .as_) = true →
    e.clear (getOperatorPrecedence .as_) [] = true → ∃ after, after.tokens = [] ∧
      Gives (fun fuel => parseExpression fuel minPrecedence ⟨e.print (getOperatorPrecedence .as_), 0, 0⟩) (e, after) := by
  intro all
  obtain ⟨after, _, gives⟩ := all (.cast (.unary .unaryMinus (.identifier "a")) (.primitive .int)) (by decide) (by decide)
  have parsed : Gives (fun fuel => parseExpression fuel minPrecedence
      ⟨[.operator .minus, .identifier "a", .as_, .primitive .int], 0, 0⟩)
      (.unary .unaryMinus (.cast (.identifier "a") (.primitive .int)), ⟨[], 4, 0⟩) :=
    ⟨5, fun fuel le => by
      obtain ⟨less, rfl⟩ : ∃ less, fuel = less + 5 := ⟨fuel - 5, by omega⟩
      rfl⟩
  have same := Gives.unique gives parsed
  cases same

end RoundTrip

end Saad.Parsing
