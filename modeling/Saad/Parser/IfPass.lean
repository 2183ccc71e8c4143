import Mathlib.Data.List.TakeWhile
import Saad.General.Brackets
import Saad.General.Outcomes
import Saad.Parser.CompileTimeIf

/-! # The pass over `#if`

`apply_compile_time_ifs` on the tokens of a file with the one that ends them, which is none here. A list of tokens is what is
left of the array, so that a token that isn't in the list is behind the array. The pass stops there, as what it would
read is any.
-/

namespace Saad.IfPass

open General

abbrev PassToken := Option LexToken

/-- Why there is no result: a token behind the end is read, or the recursion is too deep. -/
inductive Stop where
  | outside
  | fuel
deriving DecidableEq, Repr

section Tokens

def is (c : Char) : PassToken := some (.is c)

def logicalAnd : PassToken := some (.double (byteOf '&') (byteOf '&'))

def logicalOr : PassToken := some (.double (byteOf '|') (byteOf '|'))

def doubleEqual : PassToken := some (.double (byteOf '=') (byteOf '='))

def notEqual : PassToken := some (.double (byteOf '!') (byteOf '='))

def tokenIf : PassToken := some ifWord

def tokenElse : PassToken := some elseWord

end Tokens

section Conditions

/-- What is read of a condition, and whether it has an error. -/
structure Condition where
  value : Bool
  rest : List PassToken
  bad : Bool := false
deriving DecidableEq, Repr

variable (target : IfTarget)

/-- The value of `OS` or `ARCH`, and the values that it can have. -/
def knownName (name : Text) : Option (Text × List Text) :=
  if name = asciiBytes "OS" then some (target.os, [asciiBytes "windows", asciiBytes "linux"])
  else if name = asciiBytes "ARCH" then some (target.arch, [asciiBytes "x64"])
  else none

/-- A name, and behind it the tokens with the operator, the dot and the value. -/
def ifComparison (name : Text) (rest : List PassToken) : Except Stop Condition :=
  match knownName target name with
  | none => .ok ⟨false, some (.identifier name) :: rest, true⟩ -- isn't known to #if
  | some (actual, values) =>
    match rest with
    | op :: dot :: value :: behind =>
      match value with
      | some (.identifier wanted) =>
        if (op = doubleEqual ∨ op = notEqual) ∧ dot = is '.' ∧ wanted ∈ values then
          .ok ⟨if op = doubleEqual then actual == wanted else actual != wanted, behind, false⟩
        else .ok ⟨false, some (.identifier name) :: rest, true⟩
      | _ => .ok ⟨false, some (.identifier name) :: rest, true⟩
    | _ => .error .outside

/-- A literal or a comparison. -/
def ifConditionLeaf (token : PassToken) (rest : List PassToken) : Except Stop Condition :=
  match token with
  | some (.boolean value) => .ok ⟨value, rest, false⟩
  | some (.identifier name) => ifComparison target name rest
  | _ => .ok ⟨false, token :: rest, true⟩ -- Expected a condition after #if

/-- The loop over an operator: the operands behind the first one, as long as none has an error. -/
def ifConditionMore (operator : PassToken) (combine : Bool → Bool → Bool)
    (more : List PassToken → Except Stop Condition) (left : Condition) : Except Stop Condition :=
  if left.bad then .ok left
  else
    match left.rest with
    | [] => .error .outside
    | token :: rest =>
      if token = operator then do
        let right ← more rest
        return { right with value := combine left.value right.value }
      else .ok left

mutual

def ifConditionPrimary : ℕ → List PassToken → Except Stop Condition
  | 0, _ => .error .fuel
  | _ + 1, [] => .error .outside
  | fuel + 1, token :: rest =>
    if token = is '!' then do
      let inner ← ifConditionPrimary fuel rest
      return { inner with value := !inner.value }
    else if token = is '(' then do
      let inner ← ifConditionOr fuel rest
      match inner.rest with
      | [] => .error .outside
      | close :: behind =>
        if close = is ')' then return { inner with rest := behind } else return ⟨false, inner.rest, true⟩
    else ifConditionLeaf target token rest

def ifConditionAnd : ℕ → List PassToken → Except Stop Condition
  | 0, _ => .error .fuel
  | fuel + 1, tokens => do
    let left ← ifConditionPrimary fuel tokens
    ifConditionMore logicalAnd and (ifConditionAnd fuel) left

def ifConditionOr : ℕ → List PassToken → Except Stop Condition
  | 0, _ => .error .fuel
  | fuel + 1, tokens => do
    let left ← ifConditionAnd fuel tokens
    ifConditionMore logicalOr or (ifConditionOr fuel) left

end

/-- The condition of an `#if`. -/
def ifCondition (tokens : List PassToken) : Except Stop Condition :=
  ifConditionOr target (3 * tokens.length + 3) tokens

end Conditions

section Branches

/-- The index of the `}` that closes the `{` in front of the tokens. -/
def ifMatchingBrace (tokens : List PassToken) : Option ℕ := closing (· == is '{') (· == is '}') 1 tokens

/-- Where a branch with an error in its condition starts, or the tokens go on. -/
def stopsSkip (token : PassToken) : Bool := token == is '{' || token == is ';' || token == is '}'

variable (target : IfTarget)

/-- The tokens from an `#if` on: those without a branch, a branch that isn't closed, or one with the length of its body. -/
inductive Branch where
  | unbraced (rest : List PassToken)
  | unclosed
  | braced (holds bad : Bool) (close : ℕ) (body : List PassToken)
deriving DecidableEq, Repr

/-- The tokens behind a condition. -/
def Condition.behind (condition : Condition) : List PassToken :=
  if condition.bad then condition.rest.dropWhile (!stopsSkip ·) else condition.rest

/-- The braces of a branch. A condition with an error is false. -/
def ifBraces (condition : Condition) : Except Stop Branch :=
  match condition.behind with
  | [] => .error .outside
  | brace :: body =>
    if brace = is '{' then
      match ifMatchingBrace body with
      | none => .ok .unclosed
      | some close => .ok (.braced (!condition.bad && condition.value) condition.bad close body)
    else .ok (.unbraced (brace :: body))

/-- The condition and the braces of an `#if`. -/
def ifBranch (tokens : List PassToken) : Except Stop Branch := do
  let condition ← ifCondition target tokens
  ifBraces condition

/-- What is behind the `}` of a branch. -/
inductive After where
  | alone (rest : List PassToken)
  | elseIf (rest : List PassToken)
  | elseBraced (close : ℕ) (body : List PassToken)
  | elseUnclosed
  | elseOther (rest : List PassToken)
deriving DecidableEq, Repr

def ifElse (tokens : List PassToken) : Except Stop After :=
  if tokens.head? = some tokenElse then
    match tokens.tail with
    | [] => .error .outside
    | next :: more =>
      if next = is '#' then
        match more with
        | [] => .error .outside
        | third :: rest => if third = tokenIf then .ok (.elseIf rest) else .ok (.elseOther (next :: more))
      else if next = is '{' then
        match ifMatchingBrace more with
        | none => .ok .elseUnclosed
        | some close => .ok (.elseBraced close more)
      else .ok (.elseOther (next :: more))
  else .ok (.alone tokens)

/-- What a directive leaves: the tokens that it keeps, the ones behind it, and whether an error is reported. -/
structure Directive where
  out : List PassToken
  rest : List PassToken
  failed : Bool
deriving DecidableEq, Repr

mutual

/-- `if_directive` behind its `# if`. -/
def ifDirective : ℕ → Bool → List PassToken → Except Stop Directive
  | 0, _, _ => .error .fuel
  | fuel + 1, keep, tokens => do
    match ← ifBranch target tokens with
    | .unbraced rest => return ⟨[], rest, true⟩ -- The tokens after it are kept
    | .unclosed => return ⟨[], [], true⟩
    | .braced holds bad close body =>
      let kept ← ifTokens fuel (keep && holds) close body
      match ← ifElse (body.drop (close + 1)) with
      | .alone rest => return ⟨kept.1, rest, bad || kept.2⟩
      | .elseIf more =>
        let other ← ifDirective fuel (keep && !holds) more
        return ⟨kept.1 ++ other.out, other.rest, bad || kept.2 || other.failed⟩
      | .elseBraced elseClose more =>
        let other ← ifTokens fuel (keep && !holds) elseClose more
        return ⟨kept.1 ++ other.1, more.drop (elseClose + 1), bad || kept.2 || other.2⟩
      | .elseUnclosed => return ⟨kept.1, [], true⟩
      | .elseOther rest => return ⟨kept.1, rest, true⟩ -- Without the else

/-- `if_tokens` for as many tokens as the range has. -/
def ifTokens : ℕ → Bool → ℕ → List PassToken → Except Stop (List PassToken × Bool)
  | 0, _, _, _ => .error .fuel
  | _ + 1, _, 0, _ => return ([], false)
  | _ + 1, _, _ + 1, [] => .error .outside
  | fuel + 1, keep, range + 1, token :: rest =>
    if token = is '#' ∧ 0 < range ∧ rest.head? = some tokenIf then do
      let directive ← ifDirective fuel keep rest.tail
      let read := rest.length + 1 - directive.rest.length
      let more ← ifTokens fuel keep (range + 1 - read) directive.rest
      return (directive.out ++ more.1, directive.failed || more.2)
    else do
      let more ← ifTokens fuel keep range rest
      return (if keep then token :: more.1 else more.1, more.2)

end

/-- Whether the tokens have an `#if`. -/
def hasIf : List PassToken → Bool
  | [] => false
  | token :: rest => (token == is '#' && rest.head? == some tokenIf) || hasIf rest

/-- `apply_compile_time_ifs`: the tokens that are parsed, and whether an error is reported. -/
def applyCompileTimeIfs (tokens : List PassToken) : Except Stop (List PassToken × Bool) :=
  if hasIf tokens then do
    let pass ← ifTokens target (tokens.length + 1) true tokens.length tokens
    return (if pass.1.getLast? = some none then pass.1 else pass.1 ++ tokens.getLast?.toList, pass.2)
  else return (tokens, false)

end Branches

section Grammar

variable {rest : List PassToken} {condition : Condition} {op : PassToken}
  {combine : Bool → Bool → Bool} {next : List PassToken → Except Stop Condition} {value : Bool}

inductive Level where
  | primary
  | and
  | or

variable (target : IfTarget)

/-- The conditions that `#if` has, with their values. -/
inductive IsCondition : Level → List PassToken → Bool → Prop
  | boolean (value : Bool) : IsCondition .primary [some (.boolean value)] value
  | comparison (name wanted actual : Text) (values : List Text) (equal : Bool) :
      knownName target name = some (actual, values) → wanted ∈ values →
      IsCondition .primary
        [some (.identifier name), if equal then doubleEqual else notEqual, is '.', some (.identifier wanted)]
        (if equal then actual == wanted else actual != wanted)
  | not (s : List PassToken) (value : Bool) : IsCondition .primary s value → IsCondition .primary (is '!' :: s) (!value)
  | parens (s : List PassToken) (value : Bool) : IsCondition .or s value →
      IsCondition .primary (is '(' :: s ++ [is ')']) value
  | operand (s : List PassToken) (value : Bool) : IsCondition .primary s value → IsCondition .and s value
  | and (s t : List PassToken) (left right : Bool) : IsCondition .primary s left → IsCondition .and t right →
      IsCondition .and (s ++ logicalAnd :: t) (left && right)
  | operands (s : List PassToken) (value : Bool) : IsCondition .and s value → IsCondition .or s value
  | or (s t : List PassToken) (left right : Bool) : IsCondition .and s left → IsCondition .or t right →
      IsCondition .or (s ++ logicalOr :: t) (left || right)

/-- What can't go on behind a condition of the level. -/
def Level.Ends : Level → List PassToken → Prop
  | .primary, _ => True
  | .and, rest => rest.head? ≠ some logicalAnd
  | .or, rest => rest.head? ≠ some logicalAnd ∧ rest.head? ≠ some logicalOr

/-- The reader for a level. -/
def reader : Level → ℕ → List PassToken → Except Stop Condition
  | .primary => ifConditionPrimary target
  | .and => ifConditionAnd target
  | .or => ifConditionOr target

/-- The tokens of a condition: no braces, and not the last one. -/
def Inner (token : PassToken) : Prop := token ≠ none ∧ stopsSkip token = false

instance (token : PassToken) : Decidable (Inner token) := inferInstanceAs (Decidable (_ ∧ _))

theorem inner_identifier (name : Text) : Inner (some (.identifier name)) := ⟨by simp, by simp [stopsSkip, is, LexToken.is]⟩

theorem inner_boolean (value : Bool) : Inner (some (.boolean value)) := ⟨by simp, by simp [stopsSkip, is, LexToken.is]⟩

/-- What a reader reads: inner tokens, and where it finds no error a condition. -/
def ReadsCondition (level : Level) (tokens : List PassToken) (condition : Condition) : Prop :=
  ∃ used, tokens = used ++ condition.rest ∧ (∀ token ∈ used, Inner token) ∧
    (condition.bad = false → IsCondition target level used condition.value ∧ level.Ends condition.rest)

variable {target}

theorem readsCondition_bad (level : Level) (tokens : List PassToken) (value : Bool) :
    ReadsCondition target level tokens ⟨value, tokens, true⟩ :=
  ⟨[], rfl, fun _ mem => (List.not_mem_nil mem).elim, fun good => by cases good⟩

theorem readsCondition_comparison {name : Text}
    (reads : ifComparison target name rest = .ok condition) :
    ReadsCondition target .primary (some (.identifier name) :: rest) condition := by
  rw [ifComparison] at reads
  split at reads
  · cases reads
    exact readsCondition_bad _ _ _
  rename_i actual values known
  split at reads
  · rename_i op dot value behind
    split at reads
    · rename_i wanted
      split at reads
      · rename_i valid
        cases reads
        obtain ⟨operator, rfl, mem⟩ := valid
        refine ⟨[some (.identifier name), op, is '.', some (.identifier wanted)], rfl, ?_, fun _ => ⟨?_, trivial⟩⟩
        · simp only [List.forall_mem_cons, inner_identifier, true_and]
          refine ⟨?_, by decide, fun _ mem => (List.not_mem_nil mem).elim⟩
          rcases operator with rfl | rfl
          · decide
          · decide
        · rcases operator with rfl | rfl
          · exact .comparison name wanted actual values true known mem
          · exact .comparison name wanted actual values false known mem
      · cases reads
        exact readsCondition_bad _ _ _
    · cases reads
      exact readsCondition_bad _ _ _
  · cases reads

theorem readsCondition_leaf {token : PassToken}
    (reads : ifConditionLeaf target token rest = .ok condition) :
    ReadsCondition target .primary (token :: rest) condition := by
  rw [ifConditionLeaf.eq_def] at reads
  split at reads
  · rename_i value
    cases reads
    refine ⟨[some (.boolean value)], rfl, ?_, fun _ => ⟨.boolean value, trivial⟩⟩
    exact List.forall_mem_singleton.mpr (inner_boolean value)
  · exact readsCondition_comparison reads
  · cases reads
    exact readsCondition_bad _ _ _

theorem readsCondition_more {lower : Level} (level : Level) (op : PassToken)
    (combine : Bool → Bool → Bool) (op_inner : Inner op)
    (single : ∀ s value, IsCondition target lower s value → IsCondition target level s value)
    (joined : ∀ s t left right, IsCondition target lower s left → IsCondition target level t right →
      IsCondition target level (s ++ op :: t) (combine left right))
    (ends : ∀ rest, lower.Ends rest → rest.head? ≠ some op → level.Ends rest)
    {more : List PassToken → Except Stop Condition} {left : Condition} {tokens : List PassToken}
    (more_reads : ∀ rest right, more rest = .ok right → ReadsCondition target level rest right)
    (left_reads : ReadsCondition target lower tokens left)
    (reads : ifConditionMore op combine more left = .ok condition) :
    ReadsCondition target level tokens condition := by
  obtain ⟨used, split_tokens, inner, left_is⟩ := left_reads
  rw [ifConditionMore.eq_def] at reads
  split at reads
  · rename_i bad
    cases reads
    refine ⟨used, split_tokens, inner, fun good => ?_⟩
    rw [bad] at good
    cases good
  rename_i good
  obtain ⟨left_condition, left_ends⟩ := left_is (Bool.eq_false_iff.mpr good)
  split at reads
  · cases reads
  rename_i token rest left_rest
  split at reads
  · rename_i same
    obtain ⟨right, right_reads, reads⟩ := bind_eq_ok_iff.mp reads
    cases reads
    obtain ⟨others, split_rest, others_inner, right_is⟩ := more_reads rest right right_reads
    refine ⟨used ++ op :: others, by rw [split_tokens, left_rest, same, split_rest]; simp, ?_, fun right_good => ?_⟩
    · rw [List.forall_mem_append, List.forall_mem_cons]
      exact ⟨inner, op_inner, others_inner⟩
    · obtain ⟨right_condition, right_ends⟩ := right_is right_good
      exact ⟨joined used others left.value right.value left_condition right_condition, right_ends⟩
  · rename_i differs
    cases reads
    refine ⟨used, split_tokens, inner, fun _ => ⟨single used _ left_condition, ends _ left_ends ?_⟩⟩
    rw [left_rest]
    exact fun same => differs (Option.some.inj same)

/-- The readers read conditions. -/
theorem readsCondition_of_reader (fuel : ℕ) (level : Level) (tokens : List PassToken) (condition : Condition)
    (reads : reader target level fuel tokens = .ok condition) : ReadsCondition target level tokens condition := by
  induction fuel generalizing level tokens condition with
  | zero =>
    cases level with
    | primary => cases reads
    | and => cases reads
    | or => cases reads
  | succ fuel ih =>
    cases level with
    | primary =>
      rw [reader] at reads
      cases tokens with
      | nil => cases reads
      | cons token rest =>
        rw [ifConditionPrimary] at reads
        split at reads
        · rename_i negated
          obtain ⟨inner, inner_reads, reads⟩ := bind_eq_ok_iff.mp reads
          cases reads
          obtain ⟨used, split, used_inner, inner_is⟩ := ih .primary rest inner inner_reads
          refine ⟨is '!' :: used, by rw [negated, split]; rfl, ?_,
            fun good => ⟨.not used inner.value (inner_is good).1, trivial⟩⟩
          exact List.forall_mem_cons.mpr ⟨by decide, used_inner⟩
        split at reads
        · rename_i opened
          obtain ⟨inner, inner_reads, reads⟩ := bind_eq_ok_iff.mp reads
          obtain ⟨used, split_rest, used_inner, is_or⟩ := ih .or rest inner inner_reads
          split at reads
          · cases reads
          rename_i close behind inner_rest
          split at reads
          · rename_i closed
            cases reads
            refine ⟨is '(' :: used ++ [is ')'], by rw [opened, split_rest, inner_rest, closed]; simp, ?_,
              fun good => ⟨.parens used inner.value (is_or good).1, trivial⟩⟩
            rw [List.cons_append, List.forall_mem_cons, List.forall_mem_append]
            exact ⟨by decide, used_inner, by decide⟩
          · cases reads
            refine ⟨is '(' :: used, by rw [opened, split_rest]; rfl, ?_, fun good => by cases good⟩
            exact List.forall_mem_cons.mpr ⟨by decide, used_inner⟩
        exact readsCondition_leaf reads
    | and =>
      rw [reader, ifConditionAnd] at reads
      obtain ⟨left, left_reads, reads⟩ := bind_eq_ok_iff.mp reads
      exact readsCondition_more .and logicalAnd and (by decide) .operand .and (fun _ _ differs => differs)
        (ih .and) (ih .primary tokens left left_reads) reads
    | or =>
      rw [reader, ifConditionOr] at reads
      obtain ⟨left, left_reads, reads⟩ := bind_eq_ok_iff.mp reads
      exact readsCondition_more .or logicalOr or (by decide) .operands .or (fun _ ends differs => ⟨ends, differs⟩)
        (ih .or) (ih .and tokens left left_reads) reads

theorem ifConditionMore_of_ends (more : rest ≠ []) (ends : rest.head? ≠ some op) :
    ifConditionMore op combine next ⟨value, rest, false⟩ = .ok ⟨value, rest, false⟩ := by
  cases rest with
  | nil => exact absurd rfl more
  | cons token rest =>
    have differs : token ≠ op := fun same => ends (congrArg some same)
    rw [ifConditionMore, if_neg Bool.false_ne_true]
    exact if_neg differs

theorem ifConditionMore_of_more {left right : Bool} {behind : List PassToken}
    (reads : next rest = .ok ⟨right, behind, false⟩) :
    ifConditionMore op combine next ⟨left, op :: rest, false⟩ = .ok ⟨combine left right, behind, false⟩ := by
  rw [ifConditionMore, if_neg Bool.false_ne_true]
  simp only [if_true, reads]
  rfl

/-- How deep the readers of a level are in the ones of the level above. -/
def Level.height : Level → ℕ
  | .primary => 1
  | .and => 2
  | .or => 3

/-- The readers find the conditions. -/
theorem reader_of_isCondition {level : Level} {used : List PassToken}
    (condition : IsCondition target level used value) (fuel : ℕ) (rest : List PassToken)
    (enough : 3 * (used ++ rest).length + level.height ≤ fuel) (more : rest ≠ [])
    (ends : level.Ends rest) :
    reader target level fuel (used ++ rest) = .ok ⟨value, rest, false⟩ := by
  induction condition generalizing fuel rest with
  | boolean value =>
    obtain ⟨less, rfl⟩ : ∃ less, fuel = less + 1 := ⟨fuel - 1, by simp [Level.height] at enough; omega⟩
    rw [reader, List.cons_append, ifConditionPrimary, if_neg (by simp [is, LexToken.is]),
      if_neg (by simp [is, LexToken.is])]
    rfl
  | comparison name wanted actual values equal known mem =>
    obtain ⟨less, rfl⟩ : ∃ less, fuel = less + 1 := ⟨fuel - 1, by simp [Level.height] at enough; omega⟩
    rw [reader, List.cons_append, ifConditionPrimary, if_neg (by simp [is, LexToken.is]),
      if_neg (by simp [is, LexToken.is])]
    simp only [ifConditionLeaf, List.cons_append, ifComparison, known]
    cases equal with
    | true => simp [mem]
    | false =>
      have differs : notEqual ≠ doubleEqual := by decide
      simp [mem, differs]
  | not s value _ ih =>
    simp only [List.cons_append, List.length_cons, Level.height] at enough ⊢
    obtain ⟨less, rfl⟩ : ∃ less, fuel = less + 1 := ⟨fuel - 1, by omega⟩
    rw [reader, ifConditionPrimary, if_pos rfl]
    exact bind_eq_ok_iff.mpr ⟨_, ih less rest (by simp only [Level.height]; omega) more trivial, rfl⟩
  | parens s value _ ih =>
    have joined : is '(' :: s ++ [is ')'] ++ rest = is '(' :: (s ++ is ')' :: rest) := by simp
    rw [joined] at enough ⊢
    simp only [List.length_cons, Level.height] at enough
    obtain ⟨less, rfl⟩ : ∃ less, fuel = less + 1 := ⟨fuel - 1, by omega⟩
    have differs : is '(' ≠ is '!' := by decide
    rw [reader, ifConditionPrimary, if_neg differs, if_pos rfl]
    refine bind_eq_ok_iff.mpr
      ⟨_, ih less (is ')' :: rest) (by simp only [Level.height]; omega) (List.cons_ne_nil _ _) ?_, ?_⟩
    · exact ⟨by rw [List.head?_cons]; decide, by rw [List.head?_cons]; decide⟩
    · exact if_pos rfl
  | operand s value _ ih =>
    simp only [Level.height] at enough ih
    obtain ⟨less, rfl⟩ : ∃ less, fuel = less + 1 := ⟨fuel - 1, by omega⟩
    rw [reader, ifConditionAnd]
    refine bind_eq_ok_iff.mpr ⟨_, ih less rest (by omega) more trivial, ?_⟩
    exact ifConditionMore_of_ends more ends
  | and s t left right _ _ ih_left ih_right =>
    have joined : s ++ logicalAnd :: t ++ rest = s ++ logicalAnd :: (t ++ rest) := by simp
    rw [joined] at enough ⊢
    simp only [Level.height] at enough ih_left ih_right
    have shorter : 3 * (t ++ rest).length + 3 ≤ 3 * (s ++ logicalAnd :: (t ++ rest)).length := by
      simp only [List.length_append, List.length_cons]
      omega
    obtain ⟨less, rfl⟩ : ∃ less, fuel = less + 1 := ⟨fuel - 1, by omega⟩
    rw [reader, ifConditionAnd]
    refine bind_eq_ok_iff.mpr
      ⟨_, ih_left less (logicalAnd :: (t ++ rest)) (by omega) (List.cons_ne_nil _ _) trivial, ?_⟩
    exact ifConditionMore_of_more (ih_right less rest (by omega) more ends)
  | operands s value _ ih =>
    simp only [Level.height] at enough ih
    obtain ⟨less, rfl⟩ : ∃ less, fuel = less + 1 := ⟨fuel - 1, by omega⟩
    rw [reader, ifConditionOr]
    refine bind_eq_ok_iff.mpr ⟨_, ih less rest (by omega) more ends.1, ?_⟩
    exact ifConditionMore_of_ends more ends.2
  | or s t left right _ _ ih_left ih_right =>
    have joined : s ++ logicalOr :: t ++ rest = s ++ logicalOr :: (t ++ rest) := by simp
    rw [joined] at enough ⊢
    simp only [Level.height] at enough ih_left ih_right
    have shorter : 3 * (t ++ rest).length + 3 ≤ 3 * (s ++ logicalOr :: (t ++ rest)).length := by
      simp only [List.length_append, List.length_cons]
      omega
    obtain ⟨less, rfl⟩ : ∃ less, fuel = less + 1 := ⟨fuel - 1, by omega⟩
    rw [reader, ifConditionOr]
    have differs : some logicalOr ≠ some logicalAnd := by decide
    refine bind_eq_ok_iff.mpr
      ⟨_, ih_left less (logicalOr :: (t ++ rest)) (by omega) (List.cons_ne_nil _ _) differs, ?_⟩
    exact ifConditionMore_of_more (ih_right less rest (by omega) more ends)

end Grammar

section Outside

variable (target : IfTarget)
variable {rest tokens : List PassToken} {name : Text} {stop : Stop} {op : PassToken}
  {combine : Bool → Bool → Bool} {more : List PassToken → Except Stop Condition}

/-- Reading a condition at the first tokens comes to an operand at the second ones. -/
inductive ComesToOperand : Level → List PassToken → List PassToken → Prop
  | here (s : List PassToken) : ComesToOperand .primary s s
  | not (s c : List PassToken) : ComesToOperand .primary s c → ComesToOperand .primary (is '!' :: s) c
  | parens (s c : List PassToken) : ComesToOperand .or s c → ComesToOperand .primary (is '(' :: s) c
  | firstAnd (s c : List PassToken) : ComesToOperand .primary s c → ComesToOperand .and s c
  | nextAnd (used s c : List PassToken) (value : Bool) : IsCondition target .primary used value →
      ComesToOperand .and s c → ComesToOperand .and (used ++ logicalAnd :: s) c
  | firstOr (s c : List PassToken) : ComesToOperand .and s c → ComesToOperand .or s c
  | nextOr (used s c : List PassToken) (value : Bool) : IsCondition target .and used value →
      ComesToOperand .or s c → ComesToOperand .or (used ++ logicalOr :: s) c

/-- `OS` or `ARCH` with less than three tokens behind it, of which one is the end. -/
def Short : List PassToken → Prop
  | some (.identifier name) :: rest => (knownName target name).isSome ∧ rest.length < 3
  | _ => False

/-- The list ends with `TOKEN_END`. -/
def Ended (tokens : List PassToken) : Prop := tokens.getLast? = some none

variable {target}

theorem Ended.of_cons {token : PassToken} (ended : Ended (token :: rest)) (inner : token ≠ none) :
    Ended rest := by
  cases rest with
  | nil => exact absurd (Option.some.inj ended) inner
  | cons next rest =>
    rw [Ended, List.getLast?_cons_cons] at ended
    exact ended

theorem Ended.of_append {used : List PassToken} (ended : Ended (used ++ rest))
    (inner : ∀ token ∈ used, token ≠ none) : Ended rest := by
  induction used with
  | nil => exact ended
  | cons token used ih =>
    rw [List.forall_mem_cons] at inner
    exact ih (Ended.of_cons ended inner.1) inner.2

theorem Ended.ne_nil (ended : Ended tokens) : tokens ≠ [] := by
  rintro rfl
  cases ended

theorem ReadsCondition.ended {level : Level} {tokens : List PassToken} {condition : Condition} (ended : Ended tokens)
    (reads : ReadsCondition target level tokens condition) : Ended condition.rest := by
  obtain ⟨used, rfl, inner, _⟩ := reads
  exact ended.of_append fun token mem => (inner token mem).1

theorem short_of_comparison (outside : ifComparison target name rest = .error stop) :
    stop = .outside ∧ Short target (some (.identifier name) :: rest) := by
  rw [ifComparison] at outside
  split at outside
  · cases outside
  rename_i actual values known
  split at outside
  · split at outside
    · split at outside
      · cases outside
      · cases outside
    · cases outside
  · rename_i few
    cases outside
    refine ⟨rfl, by rw [known]; rfl, ?_⟩
    rcases rest with _ | ⟨op, _ | ⟨dot, _ | ⟨value, behind⟩⟩⟩
    · simp
    · simp
    · simp
    · exact (few op dot value behind rfl).elim

theorem comparison_of_short (short : Short target (some (.identifier name) :: rest)) :
    ifComparison target name rest = .error .outside := by
  obtain ⟨known, few⟩ := short
  obtain ⟨⟨actual, values⟩, known⟩ := Option.isSome_iff_exists.mp known
  rw [ifComparison, known]
  rcases rest with _ | ⟨op, _ | ⟨dot, _ | ⟨value, behind⟩⟩⟩
  · rfl
  · rfl
  · rfl
  · simp only [List.length_cons] at few
    omega

/-- The loop over an operator reads behind the end where the operands behind it do. -/
theorem ifConditionMore_outside {left : Condition} (ended : Ended left.rest)
    (outside : ifConditionMore op combine more left = .error stop) :
    left.bad = false ∧ ∃ rest, left.rest = op :: rest ∧ more rest = .error stop := by
  rw [ifConditionMore.eq_def] at outside
  split at outside
  · cases outside
  rename_i good
  split at outside
  · rename_i empty
    exact absurd empty ended.ne_nil
  rename_i token rest left_rest
  split at outside
  · rename_i same
    rcases bind_eq_error_iff.mp outside with outside | ⟨right, _, outside⟩
    · exact ⟨Bool.eq_false_iff.mpr good, rest, by rw [left_rest, same], outside⟩
    · cases outside
  · cases outside

/-- Where a reader has no result, it reads behind the end, as it comes to a short comparison. -/
theorem comesToOperand_of_stop (fuel : ℕ) (level : Level) (tokens : List PassToken) (stop : Stop) (ended : Ended tokens)
    (enough : 3 * tokens.length + level.height ≤ fuel) (outside : reader target level fuel tokens = .error stop) :
    stop = .outside ∧ ∃ c, ComesToOperand target level tokens c ∧ Short target c := by
  induction fuel generalizing level tokens with
  | zero =>
    cases level with
    | primary => simp [Level.height] at enough
    | and => simp [Level.height] at enough
    | or => simp [Level.height] at enough
  | succ fuel ih =>
    cases level with
    | primary =>
      rw [reader] at outside
      cases tokens with
      | nil => exact absurd rfl ended.ne_nil
      | cons token rest =>
        simp only [List.length_cons, Level.height] at enough ih
        rw [ifConditionPrimary] at outside
        split at outside
        · rename_i negated
          subst negated
          rcases bind_eq_error_iff.mp outside with outside | ⟨inner, _, outside⟩
          · obtain ⟨stops, c, comes, short⟩ := ih .primary rest (ended.of_cons (by decide)) (by simp only; omega) outside
            exact ⟨stops, c, .not rest c comes, short⟩
          · cases outside
        split at outside
        · rename_i opened
          subst opened
          rcases bind_eq_error_iff.mp outside with outside | ⟨inner, inner_reads, outside⟩
          · obtain ⟨stops, c, comes, short⟩ := ih .or rest (ended.of_cons (by decide)) (by simp only; omega) outside
            exact ⟨stops, c, .parens rest c comes, short⟩
          · have inner_ended := (readsCondition_of_reader fuel .or rest inner inner_reads).ended
              (ended.of_cons (by decide))
            split at outside
            · rename_i empty
              exact absurd empty inner_ended.ne_nil
            · split at outside
              · cases outside
              · cases outside
        rw [ifConditionLeaf.eq_def] at outside
        split at outside
        · cases outside
        · obtain ⟨stops, short⟩ := short_of_comparison outside
          exact ⟨stops, _, .here _, short⟩
        · cases outside
    | and =>
      simp only [Level.height] at enough
      rw [reader, ifConditionAnd] at outside
      rcases bind_eq_error_iff.mp outside with outside | ⟨left, left_reads, outside⟩
      · obtain ⟨stops, c, comes, short⟩ := ih .primary tokens ended (by simp only [Level.height]; omega) outside
        exact ⟨stops, c, .firstAnd tokens c comes, short⟩
      · have reads := readsCondition_of_reader fuel .primary tokens left left_reads
        have left_ended := reads.ended ended
        obtain ⟨good, rest, left_rest, later⟩ := ifConditionMore_outside left_ended outside
        rw [left_rest] at left_ended
        obtain ⟨used, rfl, _, is⟩ := reads
        simp only [left_rest, List.length_append, List.length_cons] at enough
        obtain ⟨stops, c, comes, short⟩ :=
          ih .and rest (left_ended.of_cons (by decide)) (by simp only [Level.height]; omega) later
        rw [left_rest]
        exact ⟨stops, c, .nextAnd used rest c left.value (is good).1 comes, short⟩
    | or =>
      simp only [Level.height] at enough
      rw [reader, ifConditionOr] at outside
      rcases bind_eq_error_iff.mp outside with outside | ⟨left, left_reads, outside⟩
      · obtain ⟨stops, c, comes, short⟩ := ih .and tokens ended (by simp only [Level.height]; omega) outside
        exact ⟨stops, c, .firstOr tokens c comes, short⟩
      · have reads := readsCondition_of_reader fuel .and tokens left left_reads
        have left_ended := reads.ended ended
        obtain ⟨good, rest, left_rest, later⟩ := ifConditionMore_outside left_ended outside
        rw [left_rest] at left_ended
        obtain ⟨used, rfl, _, is⟩ := reads
        simp only [left_rest, List.length_append, List.length_cons] at enough
        obtain ⟨stops, c, comes, short⟩ :=
          ih .or rest (left_ended.of_cons (by decide)) (by simp only [Level.height]; omega) later
        rw [left_rest]
        exact ⟨stops, c, .nextOr used rest c left.value (is good).1 comes, short⟩

theorem ifConditionMore_of_stop {value : Bool} (stops : more rest = .error stop) :
    ifConditionMore op combine more ⟨value, op :: rest, false⟩ = .error stop := by
  rw [ifConditionMore, if_neg Bool.false_ne_true]
  simp only [if_true, stops]
  rfl

/-- A reader that comes to a short comparison reads behind the end. -/
theorem outside_of_comesToOperand {level : Level} {c : List PassToken}
    (comes : ComesToOperand target level tokens c) (short : Short target c) (fuel : ℕ)
    (enough : 3 * tokens.length + level.height ≤ fuel) :
    reader target level fuel tokens = .error .outside := by
  induction comes generalizing fuel with
  | here s =>
    simp only [Level.height] at enough
    obtain ⟨less, rfl⟩ : ∃ less, fuel = less + 1 := ⟨fuel - 1, by omega⟩
    rcases s with _ | ⟨token, rest⟩
    · exact short.elim
    cases token with
    | none => exact short.elim
    | some token =>
      cases token with
      | identifier name =>
        rw [reader, ifConditionPrimary, if_neg (by simp [is, LexToken.is]), if_neg (by simp [is, LexToken.is])]
        exact comparison_of_short short
      | _ => exact short.elim
  | not s c _ ih =>
    simp only [List.length_cons, Level.height] at enough ih
    obtain ⟨less, rfl⟩ : ∃ less, fuel = less + 1 := ⟨fuel - 1, by omega⟩
    rw [reader, ifConditionPrimary, if_pos rfl]
    exact bind_eq_error_iff.mpr (.inl (ih short less (by omega)))
  | parens s c _ ih =>
    simp only [List.length_cons, Level.height] at enough ih
    obtain ⟨less, rfl⟩ : ∃ less, fuel = less + 1 := ⟨fuel - 1, by omega⟩
    have differs : is '(' ≠ is '!' := by decide
    rw [reader, ifConditionPrimary, if_neg differs, if_pos rfl]
    exact bind_eq_error_iff.mpr (.inl (ih short less (by omega)))
  | firstAnd s c _ ih =>
    simp only [Level.height] at enough ih
    obtain ⟨less, rfl⟩ : ∃ less, fuel = less + 1 := ⟨fuel - 1, by omega⟩
    rw [reader, ifConditionAnd]
    exact bind_eq_error_iff.mpr (.inl (ih short less (by omega)))
  | nextAnd used s c value condition _ ih =>
    simp only [List.length_append, List.length_cons, Level.height] at enough ih
    obtain ⟨less, rfl⟩ : ∃ less, fuel = less + 1 := ⟨fuel - 1, by omega⟩
    rw [reader, ifConditionAnd]
    refine bind_eq_error_iff.mpr (.inr ⟨_, reader_of_isCondition condition less (logicalAnd :: s) ?_
      (List.cons_ne_nil _ _) trivial, ?_⟩)
    · simp only [List.length_append, List.length_cons, Level.height]
      omega
    · exact ifConditionMore_of_stop (ih short less (by omega))
  | firstOr s c _ ih =>
    simp only [Level.height] at enough ih
    obtain ⟨less, rfl⟩ : ∃ less, fuel = less + 1 := ⟨fuel - 1, by omega⟩
    rw [reader, ifConditionOr]
    exact bind_eq_error_iff.mpr (.inl (ih short less (by omega)))
  | nextOr used s c value condition _ ih =>
    simp only [List.length_append, List.length_cons, Level.height] at enough ih
    obtain ⟨less, rfl⟩ : ∃ less, fuel = less + 1 := ⟨fuel - 1, by omega⟩
    have differs : some logicalOr ≠ some logicalAnd := by decide
    rw [reader, ifConditionOr]
    refine bind_eq_error_iff.mpr (.inr ⟨_, reader_of_isCondition condition less (logicalOr :: s) ?_
      (List.cons_ne_nil _ _) differs, ?_⟩)
    · simp only [List.length_append, List.length_cons, Level.height]
      omega
    · exact ifConditionMore_of_stop (ih short less (by omega))

end Outside

end Saad.IfPass
