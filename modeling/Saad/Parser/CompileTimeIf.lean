import Saad.Parser.Lexer

/-! # `#if` between the tokens

Only the tokens of the branches that hold are parsed. The end of the tokens is the end of the list; the
reported errors are left out.
-/

namespace Saad

/-- The system that the program is built for. -/
structure IfTarget where
  os : Text
  arch : Text

def LexToken.is (c : Char) : LexToken := .single (byteOf c)

def ifWord : LexToken := .keyword (asciiBytes "if")

def elseWord : LexToken := .keyword (asciiBytes "else")

namespace IfTarget

variable (target : IfTarget)

/-- `OS` or `ARCH` compared with one of its values. -/
def comparison (name : Text) : List LexToken → Option (Bool × List LexToken)
  | op :: dot :: .identifier wanted :: rest =>
    let known := if name = asciiBytes "OS" then some (target.os, [asciiBytes "windows", asciiBytes "linux"])
      else if name = asciiBytes "ARCH" then some (target.arch, [asciiBytes "x64"]) else none
    let equal : LexToken := .double (byteOf '=') (byteOf '=')
    let notEqual : LexToken := .double (byteOf '!') (byteOf '=')
    match known with
    | some (actual, values) =>
      if (op = equal ∨ op = notEqual) ∧ dot = .is '.' ∧ wanted ∈ values then
        some (if op = equal then actual == wanted else actual != wanted, rest)
      else none
    | none => none
  | _ => none

mutual

/-- A condition with an error has no value. -/
def ifConditionPrimary : ℕ → List LexToken → Option (Bool × List LexToken)
  | 0, _ => none
  | _, [] => none
  | fuel + 1, token :: rest =>
    if token = .is '!' then (ifConditionPrimary fuel rest).map fun value => (!value.1, value.2)
    else if token = .is '(' then
      match ifConditionOr fuel rest with
      | some (value, close :: rest) => if close = .is ')' then some (value, rest) else none
      | _ => none
    else
      match token with
      | .boolean value => some (value, rest)
      | .identifier name => target.comparison name rest
      | _ => none

def ifConditionAnd : ℕ → List LexToken → Option (Bool × List LexToken)
  | 0, _ => none
  | fuel + 1, tokens =>
    match ifConditionPrimary fuel tokens with
    | some (value, op :: rest) =>
      if op = .double (byteOf '&') (byteOf '&') then
        (ifConditionAnd fuel rest).map fun right => (value && right.1, right.2)
      else some (value, op :: rest)
    | other => other

def ifConditionOr : ℕ → List LexToken → Option (Bool × List LexToken)
  | 0, _ => none
  | fuel + 1, tokens =>
    match ifConditionAnd fuel tokens with
    | some (value, op :: rest) =>
      if op = .double (byteOf '|') (byteOf '|') then
        (ifConditionOr fuel rest).map fun right => (value || right.1, right.2)
      else some (value, op :: rest)
    | other => other

end

/-- Whether the condition holds, and what is behind it. A condition with an error is false; its branch
starts at the next brace. -/
def ifCondition (tokens : List LexToken) : Bool × List LexToken :=
  match target.ifConditionOr (4 * tokens.length + 4) tokens with
  | some value => value
  | none => (false, tokens.dropWhile fun token => token != .is '{' && token != .is ';' && token != .is '}')

/-- The place of the brace that closes the ones that are open. -/
def ifMatchingBrace : ℕ → List LexToken → Option ℕ
  | _, [] => none
  | depth, token :: rest =>
    if token = .is '{' then (ifMatchingBrace (depth + 1) rest).map (· + 1)
    else if token = .is '}' then
      if depth ≤ 1 then some 0 else (ifMatchingBrace (depth - 1) rest).map (· + 1)
    else (ifMatchingBrace depth rest).map (· + 1)

/-- The tokens behind a condition. -/
def behindCondition (tokens : List LexToken) : List LexToken :=
  tokens.drop (tokens.length - (target.ifCondition tokens).2.length)

theorem length_behindCondition_le (tokens : List LexToken) :
    (target.behindCondition tokens).length ≤ tokens.length := by
  rw [behindCondition, List.length_drop]
  omega

mutual

/-- Copies the tokens, without the branches that don't hold. -/
def ifTokens (keep : Bool) : List LexToken → List LexToken
  | [] => []
  | token :: rest =>
    if token = .is '#' ∧ rest.head? = some ifWord then
      let directive := ifDirective keep rest.tail
      directive.1 ++ ifTokens keep (rest.drop (rest.length - directive.2))
    else (if keep then [token] else []) ++ ifTokens keep rest
termination_by tokens => 2 * tokens.length
decreasing_by all_goals simp only [List.length_cons, List.length_tail, List.length_drop]; omega

/-- An `#if` with its else branches, from its condition on: the tokens that are kept, and how many are left
behind it. -/
def ifDirective (keep : Bool) (tokens : List LexToken) : List LexToken × ℕ :=
  let holds := (target.ifCondition tokens).1
  match _branch : target.behindCondition tokens with
  | [] => ([], 0)
  | brace :: body =>
    if brace ≠ .is '{' then ([], body.length + 1)
    else
      match ifMatchingBrace 1 body with
      | none => ([], 0)
      | some close =>
        let kept := ifTokens (keep && holds) (body.take close)
        let after := body.drop (close + 1)
        if after.head? ≠ some elseWord then (kept, after.length)
        else if after.tail.head? = some (.is '#') ∧ after.tail.tail.head? = some ifWord then
          let other := ifDirective (keep && !holds) after.tail.tail.tail
          (kept ++ other.1, other.2)
        else if after.tail.head? ≠ some (.is '{') then (kept, after.length - 1)
        else
          let elseBody := after.tail.tail
          match ifMatchingBrace 1 elseBody with
          | none => (kept, 0)
          | some elseClose =>
            (kept ++ ifTokens (keep && !holds) (elseBody.take elseClose), (elseBody.drop (elseClose + 1)).length)
termination_by 2 * tokens.length + 1
decreasing_by
  all_goals
    have le := length_behindCondition_le target tokens
    rw [_branch, List.length_cons] at le
    simp only [List.length_take, List.length_tail, List.length_drop]
    omega

end

/-- The tokens of a file that are parsed. -/
def compileTimeIfs (tokens : List LexToken) : List LexToken := target.ifTokens true tokens

/-- A token that is not the start of an `#if` is copied. -/
theorem compileTimeIfs_cons {token : LexToken} (plain : token ≠ .is '#') (rest : List LexToken) :
    target.compileTimeIfs (token :: rest) = token :: target.compileTimeIfs rest := by
  rw [compileTimeIfs, ifTokens, if_neg fun both => plain both.1]
  rfl

theorem compileTimeIfs_append {tokens : List LexToken} (plain : ∀ token ∈ tokens, token ≠ .is '#') (rest : List LexToken) :
    target.compileTimeIfs (tokens ++ rest) = tokens ++ target.compileTimeIfs rest := by
  induction tokens with
  | nil => rfl
  | cons token tokens ih =>
    rw [List.cons_append, compileTimeIfs_cons target (plain token (List.mem_cons_self ..)),
      ih fun other member => plain other (List.mem_cons_of_mem _ member), List.cons_append]

end IfTarget

end Saad
