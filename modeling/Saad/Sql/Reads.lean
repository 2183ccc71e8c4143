import Saad.Sql.Expression

/-! # Rules for what SQL reads

Words in parentheses, a call and a name are read up to their end whatever follows, and NOT only up to a
comparison. Each rule reads what is made of words that are read.
-/

namespace Saad.Sql

section Primary

variable {fuel precedence binds : ℕ} {e a b : Expr} {tokens left right rest : List Token} {token : Token}
  {make : Expr → Expr → Expr}

/-- Words that are one expression, whatever follows. -/
def IsPrimary (tokens : List Token) (e : Expr) : Prop :=
  ∀ fuel rest, 3 * tokens.length ≤ fuel → parsePrimary fuel (tokens ++ rest) = some (e, rest)

/-- Words that are an expression up to the end of what they stand in. -/
inductive Reads : List Token → Expr → Prop
  | primary {tokens : List Token} {e : Expr} (reads : IsPrimary tokens e) : Reads tokens e
  | not {tokens : List Token} {e : Expr} (reads : IsPrimary tokens e) : Reads (.keyword .not_ :: tokens) (.not e)

/-- Nothing follows, or what ends an expression in parentheses or in a call. -/
inductive Ends : List Token → Prop
  | nil : Ends []
  | rparen (rest : List Token) : Ends (.rparen :: rest)
  | comma (rest : List Token) : Ends (.comma :: rest)

-- The equations of these functions are made here, before the proofs below ask for them all at once.
attribute [local simp] parsePrimary parseExpr parseOperators in
theorem parseOperators_of_ends (ends : Ends rest) :
    parseOperators (fuel + 1) precedence e rest = some (e, rest) := by
  cases ends <;> simp [parseOperators, infix_]

theorem parseOperators_operator (found : infix_ token = some (binds, make)) :
    parseOperators (fuel + 1) precedence e (token :: rest) =
      if precedence ≤ binds then
        (parseExpr fuel (binds + 1) rest).bind fun (right, rest) =>
          if binds = comparePrecedence ∧ isComparison rest then none
          else parseOperators fuel precedence (make e right) rest
      else some (e, token :: rest) := by
  have different : token ≠ .keyword .is_ := by
    rintro rfl
    cases found
  rw [parseOperators, found]
  · rfl
  · exact fun _ equal => absurd equal different
  · exact fun _ equal => absurd equal different

theorem infix_lt (found : infix_ token = some (binds, make)) : binds < minusPrecedence := by
  cases token with
  | keyword word => cases word <;> cases found <;> decide
  | op sign => cases sign <;> cases found <;> decide
  | star =>
    cases found
    decide
  | _ => cases found

/-- The minus in front binds tighter than every operator. -/
theorem parseOperators_minus : parseOperators (fuel + 1) minusPrecedence e rest = some (e, rest) := by
  rw [parseOperators.eq_def]
  split
  · next equal => cases equal
  · next equal => rw [if_neg (by decide)]
  · next equal => rw [if_neg (by decide)]
  · next equal =>
    split
    · rfl
    · next found => rw [if_neg (by have := infix_lt found; omega)]
  · rfl

/-- NOT stops in front of what binds weaker. -/
theorem Reads.parsePrimary_eq (fuel : ℕ) (rest : List Token) (reads : Reads tokens e)
    (stops : Ends rest ∨ ∃ token others binds make, rest = token :: others ∧ infix_ token = some (binds, make) ∧
      binds < notPrecedence) (enough : 3 * tokens.length ≤ fuel) :
    parsePrimary fuel (tokens ++ rest) = some (e, rest) := by
  cases reads with
  | primary reads => exact reads fuel rest enough
  | @not tokens e reads =>
    rw [List.length_cons] at enough
    obtain ⟨fuel, rfl⟩ : ∃ more, fuel = more + 1 + 1 + 1 := ⟨fuel - 3, by omega⟩
    have operand := reads (fuel + 1) rest (by omega)
    have behind : parseOperators (fuel + 1) notPrecedence e rest = some (e, rest) := by
      rcases stops with ends | ⟨token, others, binds, make, rfl, found, weaker⟩
      · exact parseOperators_of_ends ends
      · rw [parseOperators_operator found, if_neg (by omega)]
    rw [List.cons_append, parsePrimary, parseExpr, operand]
    simp [behind]

theorem Reads.parseExpr_eq (fuel precedence : ℕ) (reads : Reads tokens e) (ends : Ends rest) (enough : 3 * tokens.length + 2 ≤ fuel) :
    parseExpr fuel precedence (tokens ++ rest) = some (e, rest) := by
  obtain ⟨fuel, rfl⟩ : ∃ more, fuel = more + 1 + 1 := ⟨fuel - 2, by omega⟩
  rw [parseExpr, reads.parsePrimary_eq _ _ (.inl ends) (by omega)]
  exact parseOperators_of_ends ends

theorem parse_of_reads (reads : Reads (words tokens) e) : parse tokens = some e := by
  have whole := reads.parseExpr_eq _ 0 .nil (Nat.le_refl _)
  rw [List.append_nil] at whole
  rw [parse, whole]

/-- An operator with its right side, up to the end. -/
theorem parseOperators_right (fuel precedence : ℕ) (found : infix_ token = some (binds, make)) (binding : precedence ≤ binds)
    (reads : Reads right b) (ends : Ends rest) (enough : 3 * right.length + 3 ≤ fuel) :
    parseOperators fuel precedence a (token :: (right ++ rest)) = some (make a b, rest) := by
  obtain ⟨fuel, rfl⟩ : ∃ more, fuel = more + 1 + 1 := ⟨fuel - 2, by omega⟩
  have noComparison : isComparison rest = false := by cases ends <;> rfl
  rw [parseOperators_operator found, if_pos binding, reads.parseExpr_eq _ _ ends (by omega), Option.bind_some]
  dsimp only
  rw [noComparison, if_neg (by simp)]
  exact parseOperators_of_ends ends

end Primary

section Rules

variable {binds : ℕ} {e a b : Expr} {tokens left right : List Token} {token : Token} {make : Expr → Expr → Expr}

theorem isPrimary_null : IsPrimary [.keyword .null_] .null := fun fuel rest enough => by
  obtain ⟨fuel, rfl⟩ : ∃ more, fuel = more + 1 := ⟨fuel - 1, by simp at enough; omega⟩
  rfl

theorem isPrimary_number (n : ℤ) : IsPrimary [.number n] (.number n) := fun fuel rest enough => by
  obtain ⟨fuel, rfl⟩ : ∃ more, fuel = more + 1 := ⟨fuel - 1, by simp at enough; omega⟩
  rfl

theorem isPrimary_param (n : ℕ) : IsPrimary [.param n] (.param n) := fun fuel rest enough => by
  obtain ⟨fuel, rfl⟩ : ∃ more, fuel = more + 1 := ⟨fuel - 1, by simp at enough; omega⟩
  rfl

theorem isPrimary_name (name : Text) : IsPrimary [.name name] (.column none name) := fun fuel rest enough => by
  obtain ⟨fuel, rfl⟩ : ∃ more, fuel = more + 1 := ⟨fuel - 1, by simp at enough; omega⟩
  rfl

theorem Reads.paren (reads : Reads tokens e) : IsPrimary (.lparen :: (tokens ++ [.rparen])) e :=
  fun fuel rest enough => by
    rw [List.length_cons, List.length_append, List.length_singleton] at enough
    obtain ⟨fuel, rfl⟩ : ∃ more, fuel = more + 1 := ⟨fuel - 1, by omega⟩
    have inside := reads.parseExpr_eq fuel 0 (.rparen rest) (by omega)
    rw [List.cons_append, List.append_assoc, List.singleton_append, parsePrimary, inside]
    rfl

theorem IsPrimary.minus (reads : IsPrimary tokens e) : IsPrimary (.op .minus :: tokens) (.minus e) :=
  fun fuel rest enough => by
    rw [List.length_cons] at enough
    obtain ⟨fuel, rfl⟩ : ∃ more, fuel = more + 1 + 1 + 1 := ⟨fuel - 3, by omega⟩
    have operand := reads (fuel + 1) rest (by omega)
    rw [List.cons_append, parsePrimary, parseExpr, operand]
    simp [parseOperators_minus]

theorem Reads.call1 (f : Function) (reads : Reads tokens e) :
    IsPrimary (.function f :: .lparen :: (tokens ++ [.rparen])) (.call1 f e) :=
  fun fuel rest enough => by
    rw [List.length_cons, List.length_cons, List.length_append, List.length_singleton] at enough
    obtain ⟨fuel, rfl⟩ : ∃ more, fuel = more + 1 := ⟨fuel - 1, by omega⟩
    have inside := reads.parseExpr_eq fuel 0 (.rparen rest) (by omega)
    rw [List.cons_append, List.cons_append, List.append_assoc, List.singleton_append, parsePrimary, inside]
    rfl

theorem Reads.call2 (f : Function) (reads : Reads left a) (readsRight : Reads right b) :
    IsPrimary (.function f :: .lparen :: (left ++ .comma :: (right ++ [.rparen]))) (.call2 f a b) :=
  fun fuel rest enough => by
    simp only [List.length_cons, List.length_append, List.length_nil] at enough
    obtain ⟨fuel, rfl⟩ : ∃ more, fuel = more + 1 := ⟨fuel - 1, by omega⟩
    have first := reads.parseExpr_eq fuel 0 (.comma (right ++ .rparen :: rest)) (by omega)
    have second := readsRight.parseExpr_eq fuel 0 (.rparen rest) (by omega)
    simp only [List.cons_append, List.append_assoc, List.nil_append]
    rw [parsePrimary, first]
    dsimp only [Option.bind_eq_bind, Option.bind_some]
    rw [second]
    rfl

/-- An operator in parentheses, behind what is read up to it. -/
theorem isPrimary_between (found : infix_ token = some (binds, make)) (readsRight : Reads right b)
    (first : ∀ fuel rest, 3 * left.length ≤ fuel →
      parsePrimary fuel (left ++ token :: rest) = some (a, token :: rest)) :
    IsPrimary (.lparen :: (left ++ token :: (right ++ [.rparen]))) (make a b) := fun fuel rest enough => by
  simp only [List.length_cons, List.length_append, List.length_nil] at enough
  obtain ⟨fuel, rfl⟩ : ∃ more, fuel = more + 1 + 1 := ⟨fuel - 2, by omega⟩
  have second := parseOperators_right fuel 0 (a := a) found (Nat.zero_le _) readsRight (.rparen rest)
    (by omega)
  simp only [List.cons_append, List.append_assoc, List.nil_append]
  rw [parsePrimary, parseExpr, first fuel _ (by omega)]
  dsimp only [Option.bind_eq_bind, Option.bind_some]
  rw [second]
  rfl

theorem Reads.between (found : infix_ token = some (binds, make)) (weak : binds < notPrecedence)
    (reads : Reads left a) (readsRight : Reads right b) :
    IsPrimary (.lparen :: (left ++ token :: (right ++ [.rparen]))) (make a b) := by
  apply isPrimary_between found readsRight
  intro fuel rest enough
  exact reads.parsePrimary_eq fuel _ (.inr ⟨token, _, binds, make, rfl, found, weak⟩) enough

/-- A comparison or another operator that binds tighter than NOT. -/
theorem IsPrimary.between (found : infix_ token = some (binds, make))
    (reads : IsPrimary left a) (readsRight : Reads right b) :
    IsPrimary (.lparen :: (left ++ token :: (right ++ [.rparen]))) (make a b) := by
  apply isPrimary_between found readsRight
  exact fun fuel rest => reads fuel (token :: rest)

/-- In `NOT a = b` the comparison is what NOT is of. -/
theorem IsPrimary.not_between (found : infix_ token = some (binds, make)) (tight : notPrecedence ≤ binds)
    (reads : IsPrimary left a) (readsRight : Reads right b) :
    IsPrimary (.lparen :: .keyword .not_ :: (left ++ token :: (right ++ [.rparen]))) (.not (make a b)) :=
  fun fuel rest enough => by
    simp only [List.length_cons, List.length_append, List.length_nil] at enough
    obtain ⟨fuel, rfl⟩ : ∃ more, fuel = more + 1 + 1 + 1 + 1 := ⟨fuel - 4, by omega⟩
    have first := reads fuel (token :: (right ++ .rparen :: rest)) (by omega)
    have second := parseOperators_right fuel _ (a := a) found tight readsRight (.rparen rest) (by omega)
    simp only [List.cons_append, List.append_assoc, List.nil_append]
    rw [parsePrimary, parseExpr, parsePrimary, parseExpr, first]
    dsimp only [Option.bind_eq_bind, Option.bind_some]
    rw [second]
    dsimp only [Option.bind_eq_bind, Option.bind_some, Option.pure_def]
    rw [parseOperators_of_ends (.rparen rest)]
    rfl

theorem IsPrimary.isNull (reads : IsPrimary tokens e) :
    IsPrimary (.lparen :: (tokens ++ [.keyword .is_, .keyword .null_, .rparen])) (.isNull e) :=
  fun fuel rest enough => by
    simp only [List.length_cons, List.length_append, List.length_nil] at enough
    obtain ⟨fuel, rfl⟩ : ∃ more, fuel = more + 1 + 1 + 1 + 1 := ⟨fuel - 4, by omega⟩
    have first := reads (fuel + 2) (.keyword .is_ :: .keyword .null_ :: .rparen :: rest) (by omega)
    simp only [List.cons_append, List.append_assoc, List.nil_append]
    rw [parsePrimary, parseExpr, first]
    rfl

theorem IsPrimary.isNotNull (reads : IsPrimary tokens e) :
    IsPrimary (.lparen :: (tokens ++ [.keyword .is_, .keyword .not_, .keyword .null_, .rparen])) (.isNotNull e) :=
  fun fuel rest enough => by
    simp only [List.length_cons, List.length_append, List.length_nil] at enough
    obtain ⟨fuel, rfl⟩ : ∃ more, fuel = more + 1 + 1 + 1 + 1 := ⟨fuel - 4, by omega⟩
    have first := reads (fuel + 2) (.keyword .is_ :: .keyword .not_ :: .keyword .null_ :: .rparen :: rest) (by omega)
    simp only [List.cons_append, List.append_assoc, List.nil_append]
    rw [parsePrimary, parseExpr, first]
    rfl

/-- `NOT x IS NULL` is `NOT (x IS NULL)`. -/
theorem IsPrimary.not_isNull (reads : IsPrimary tokens e) :
    IsPrimary (.lparen :: .keyword .not_ :: (tokens ++ [.keyword .is_, .keyword .null_, .rparen])) (.not (.isNull e)) :=
  fun fuel rest enough => by
    simp only [List.length_cons, List.length_append, List.length_nil] at enough
    obtain ⟨fuel, rfl⟩ : ∃ more, fuel = more + 1 + 1 + 1 + 1 + 1 + 1 := ⟨fuel - 6, by omega⟩
    have first := reads (fuel + 2) (.keyword .is_ :: .keyword .null_ :: .rparen :: rest) (by omega)
    simp only [List.cons_append, List.append_assoc, List.nil_append]
    rw [parsePrimary, parseExpr, parsePrimary, parseExpr, first]
    rfl

theorem IsPrimary.not_isNotNull (reads : IsPrimary tokens e) :
    IsPrimary (.lparen :: .keyword .not_ :: (tokens ++ [.keyword .is_, .keyword .not_, .keyword .null_, .rparen]))
      (.not (.isNotNull e)) :=
  fun fuel rest enough => by
    simp only [List.length_cons, List.length_append, List.length_nil] at enough
    obtain ⟨fuel, rfl⟩ : ∃ more, fuel = more + 1 + 1 + 1 + 1 + 1 + 1 := ⟨fuel - 6, by omega⟩
    have first := reads (fuel + 2) (.keyword .is_ :: .keyword .not_ :: .keyword .null_ :: .rparen :: rest) (by omega)
    simp only [List.cons_append, List.append_assoc, List.nil_append]
    rw [parsePrimary, parseExpr, parsePrimary, parseExpr, first]
    rfl

end Rules

end Saad.Sql
