import Saad.Parser.IfVisits

/-! # What the pass over `#if` leaves

Each `#if` is replaced by the branch whose condition is the first that holds. What is replaced is a relation on lists of
tokens, which says nothing of how the pass goes over them.
-/

namespace Saad.IfPass

open General

section Replaced

/-- A directive whose last branch is no `else` is open: an `else` behind it would be its own. -/
inductive Part where
  | tokens
  | directive (isOpen : Bool)

variable (target : IfTarget)

/-- The tokens of a file, or of an `#if` from its condition on, and the tokens that take their place. -/
inductive Replaces : Part → List PassToken → List PassToken → Prop
  | nil : Replaces .tokens [] []
  | token (token : PassToken) (rest out : List PassToken) : ¬(token = is '#' ∧ rest.head? = some tokenIf) →
      Replaces .tokens rest out → Replaces .tokens (token :: rest) (token :: out)
  | directive (isOpen : Bool) (used rest chosen out : List PassToken) : Replaces (.directive isOpen) used chosen →
      (isOpen = true → rest.head? ≠ some tokenElse) → Replaces .tokens rest out →
      Replaces .tokens (is '#' :: tokenIf :: used ++ rest) (chosen ++ out)
  | alone (condition body out : List PassToken) (holds : Bool) : IsCondition target .or condition holds →
      Balanced (· == is '{') (· == is '}') body → Replaces .tokens body out →
      Replaces (.directive true) (condition ++ is '{' :: body ++ [is '}']) (if holds then out else [])
  | elseBraced (condition body out other otherOut : List PassToken) (holds : Bool) :
      IsCondition target .or condition holds → Balanced (· == is '{') (· == is '}') body →
      Balanced (· == is '{') (· == is '}') other → Replaces .tokens body out → Replaces .tokens other otherOut →
      Replaces (.directive false) (condition ++ is '{' :: body ++ is '}' :: tokenElse :: is '{' :: other ++ [is '}'])
        (if holds then out else otherOut)
  | elseIf (isOpen : Bool) (condition body out other otherOut : List PassToken) (holds : Bool) :
      IsCondition target .or condition holds → Balanced (· == is '{') (· == is '}') body → Replaces .tokens body out →
      Replaces (.directive isOpen) other otherOut →
      Replaces (.directive isOpen) (condition ++ is '{' :: body ++ is '}' :: tokenElse :: is '#' :: tokenIf :: other)
        (if holds then out else otherOut)

variable {target}

/-- The tokens of the range are the whole list, or end at the brace that closes it. -/
def Within (range : ℕ) (s : List PassToken) : Prop :=
  range = s.length ∨ ∃ depth, closing (· == is '{') (· == is '}') (depth + 1) s = some range

theorem Within.of_cons {range : ℕ} {token : PassToken} {rest : List PassToken} (within : Within (range + 1) (token :: rest)) :
    Within range rest := by
  obtain length | ⟨depth, closed⟩ := within
  · exact .inl (by simpa using length)
  right
  rw [closing] at closed
  split at closed
  · obtain ⟨k, later, same⟩ := Option.map_eq_some_iff.mp closed
    obtain rfl := Nat.succ.inj same
    exact ⟨depth + 1, later⟩
  split at closed
  · split at closed
    · cases closed
    · rename_i deep
      obtain ⟨k, later, same⟩ := Option.map_eq_some_iff.mp closed
      obtain rfl := Nat.succ.inj same
      exact ⟨depth - 1, by rwa [Nat.add_sub_cancel, ← Nat.sub_add_cancel (show 1 ≤ depth by omega)] at later⟩
  · obtain ⟨k, later, same⟩ := Option.map_eq_some_iff.mp closed
    obtain rfl := Nat.succ.inj same
    exact ⟨depth, later⟩

theorem Within.eq_zero {range : ℕ} (within : Within range []) : range = 0 := by
  obtain length | ⟨depth, closed⟩ := within
  · exact length
  · rw [closing] at closed
    cases closed

/-- A balanced part of the tokens is in the range. -/
theorem Within.of_append {range : ℕ} {used rest : List PassToken} (within : Within range (used ++ rest))
    (balanced : Balanced (· == is '{') (· == is '}') used) :
    ∃ less, range = used.length + less ∧ Within less rest := by
  obtain length | ⟨depth, closed⟩ := within
  · exact ⟨rest.length, by rw [length, List.length_append], .inl rfl⟩
  · rw [balanced.closing_append] at closed
    obtain ⟨less, later, same⟩ := Option.map_eq_some_iff.mp closed
    exact ⟨less, by omega, .inr ⟨depth, later⟩⟩

theorem balanced_braces {inner : List PassToken} (balanced : Balanced (· == is '{') (· == is '}') inner)
    (rest : List PassToken) (rest_balanced : Balanced (· == is '{') (· == is '}') rest) :
    Balanced (· == is '{') (· == is '}') (is '{' :: inner ++ is '}' :: rest) :=
  .group _ _ inner rest (by decide) (by decide) (by decide) balanced rest_balanced

theorem balanced_token {token : PassToken} (inner : stopsSkip token = false) {rest : List PassToken}
    (balanced : Balanced (· == is '{') (· == is '}') rest) : Balanced (· == is '{') (· == is '}') (token :: rest) := by
  rw [stopsSkip, Bool.or_eq_false_iff, Bool.or_eq_false_iff] at inner
  exact .other token rest inner.1.1 inner.2 balanced

theorem balanced_branch {condition inner rest : List PassToken} (condition_inner : ∀ token ∈ condition, Inner token)
    (inner_balanced : Balanced (· == is '{') (· == is '}') inner)
    (rest_balanced : Balanced (· == is '{') (· == is '}') rest) :
    Balanced (· == is '{') (· == is '}') (condition ++ is '{' :: inner ++ is '}' :: rest) := by
  rw [List.append_assoc]
  refine Balanced.append (balanced_of_forall fun token mem => ?_) (balanced_braces inner_balanced rest rest_balanced)
  have inner := (condition_inner token mem).2
  rw [stopsSkip, Bool.or_eq_false_iff, Bool.or_eq_false_iff] at inner
  exact ⟨inner.1.1, inner.2⟩

theorem keep_branch (keep holds : Bool) (out : List PassToken) :
    (if (keep && holds) = true then out else []) = if keep then (if holds then out else []) else [] := by
  cases keep with
  | true => rfl
  | false => rfl

/-- Of two branches, one is kept. -/
theorem keep_branches (keep holds : Bool) (out other : List PassToken) :
    (if (keep && holds) = true then out else []) ++ (if (keep && !holds) = true then other else []) =
      if keep then (if holds then out else other) else [] := by
  cases keep with
  | true =>
    cases holds with
    | true => exact List.append_nil out
    | false => rfl
  | false => rfl

/-- Without an error, the pass replaces the tokens. -/
theorem replaces_of_pass (fuel : ℕ) :
    (∀ (keep : Bool) (range : ℕ) (s out : List PassToken), (range = 0 ∨ Ended s) → Within range s →
      ifTokens target fuel keep range s = .ok (out, false) →
        ∃ replaced, Replaces target .tokens (s.take range) replaced ∧ out = if keep then replaced else []) ∧
    ∀ (keep : Bool) (s out rest : List PassToken), Ended s →
      ifDirective target fuel keep s = .ok ⟨out, rest, false⟩ →
        ∃ isOpen used replaced, s = used ++ rest ∧ Replaces target (.directive isOpen) used replaced ∧
          out = (if keep then replaced else []) ∧ (isOpen = true → rest.head? ≠ some tokenElse) ∧
            Balanced (· == is '{') (· == is '}') used := by
  induction fuel with
  | zero =>
    constructor
    · intro keep range s out _ _ run
      cases run
    · intro keep s out rest _ run
      cases run
  | succ fuel ih =>
    obtain ⟨ih_tokens, ih_directive⟩ := ih
    constructor
    · intro keep range s out ended within run
      cases range with
      | zero =>
        rw [ifTokens] at run
        cases run
        exact ⟨[], .nil, (ite_self _).symm⟩
      | succ range =>
        have whole : Ended s := ended.resolve_left (Nat.succ_ne_zero _)
        rcases s with _ | ⟨token, rest⟩
        · exact absurd rfl whole.ne_nil
        rw [ifTokens] at run
        split at run
        · rename_i directive
          obtain ⟨rfl, positive, starts⟩ := directive
          obtain ⟨tail, rfl⟩ : ∃ tail, rest = tokenIf :: tail := by
            rcases rest with _ | ⟨next, tail⟩
            · cases starts
            · exact ⟨tail, congrArg (· :: tail) (Option.some.inj starts)⟩
          obtain ⟨directive, directive_run, later⟩ := bind_eq_ok_iff.mp run
          obtain ⟨more, more_run, result⟩ := bind_eq_ok_iff.mp later
          obtain ⟨out_eq, failed⟩ := Prod.mk.inj (Except.ok.inj result)
          obtain ⟨good, more_good⟩ := Bool.or_eq_false_iff.mp failed
          obtain ⟨directive_out, left, directive_failed⟩ := directive
          obtain ⟨more_out, more_failed⟩ := more
          subst out_eq good more_good
          have tail_ended : Ended tail := (whole.of_cons (by decide)).of_cons (by decide)
          have left_ended := ((leaves_of_directive directive_run).ended tail_ended).1
          obtain ⟨isOpen, used, replaced, rfl, replaces, directive_out_eq, alone, balanced⟩ :=
            ih_directive keep tail directive_out left tail_ended directive_run
          have both_balanced : Balanced (· == is '{') (· == is '}') (is '#' :: tokenIf :: used) :=
            balanced_token (by decide) (balanced_token (by decide) balanced)
          rw [← List.cons_append, ← List.cons_append] at within
          obtain ⟨less, range_eq, less_within⟩ := within.of_append both_balanced
          simp only [List.length_cons, List.length_append] at range_eq more_run
          have less_eq : range + 1 - (used.length + left.length + 1 + 1 - left.length) = less := by omega
          rw [less_eq] at more_run
          have less_ended : less = 0 ∨ Ended left := by
            rcases left_ended with rfl | left_ended
            · exact .inl (Within.eq_zero less_within)
            · exact .inr left_ended
          obtain ⟨more_replaced, more_replaces, more_out_eq⟩ :=
            ih_tokens keep less left more_out less_ended less_within more_run
          refine ⟨replaced ++ more_replaced, ?_, ?_⟩
          · have take : (is '#' :: tokenIf :: (used ++ left)).take (range + 1) =
                is '#' :: tokenIf :: used ++ left.take less := by
              have length : range + 1 = (is '#' :: tokenIf :: used).length + less := by
                simp only [List.length_cons]
                omega
              rw [length, ← List.cons_append, ← List.cons_append, List.take_length_add_append]
            rw [take]
            refine .directive isOpen used (left.take less) replaced more_replaced replaces ?_ more_replaces
            intro opened is_else
            rw [List.head?_take] at is_else
            split at is_else
            · cases is_else
            · exact alone opened is_else
          · rw [directive_out_eq, more_out_eq]
            cases keep with
            | true => rfl
            | false => rfl
        · rename_i plain
          obtain ⟨more, more_run, result⟩ := bind_eq_ok_iff.mp run
          obtain ⟨more_out, more_failed⟩ := more
          obtain ⟨out_eq, good⟩ := Prod.mk.inj (Except.ok.inj result)
          subst out_eq good
          have rest_ended : range = 0 ∨ Ended rest := by
            rcases rest with _ | ⟨next, rest⟩
            · exact .inl (Within.eq_zero within.of_cons)
            · exact .inr (whole.of_suffix_cons (List.cons_ne_nil _ _))
          obtain ⟨more_replaced, more_replaces, more_out_eq⟩ :=
            ih_tokens keep range rest more_out rest_ended within.of_cons more_run
          refine ⟨token :: more_replaced, ?_, ?_⟩
          · rw [List.take_succ_cons]
            refine .token token (rest.take range) more_replaced (fun starts => plain ?_) more_replaces
            obtain ⟨hash, next⟩ := starts
            rw [List.head?_take] at next
            split at next
            · cases next
            · rename_i positive
              exact ⟨hash, Nat.pos_of_ne_zero positive, next⟩
          · rw [more_out_eq]
            cases keep with
            | true => rfl
            | false => rfl
    · intro keep s out rest ended run
      obtain ⟨_, _, same⟩ | ⟨_, same⟩ | ⟨holds, bad, close, body, kept, after, found, body_run, behind, ends⟩ :=
        directive_cases run
      · cases same
      · cases same
      obtain ⟨condition, inner, last, rfl, rfl, rfl, drop, inner_balanced, body_ended, last_ended, good⟩ :=
        braced_spec ended found
      rw [drop] at behind
      have closes : ifMatchingBrace (inner ++ is '}' :: last) = some inner.length :=
        inner_balanced.closing_eq (by decide) (by decide)
      have body_replaces := ih_tokens (keep && holds) inner.length (inner ++ is '}' :: last) kept.1 (.inr body_ended)
        (.inr ⟨0, closes⟩)
      rw [List.take_left] at body_replaces
      obtain ⟨kept_out, kept_failed⟩ := kept
      obtain ⟨rest', rfl, same⟩ | ⟨more, other, rfl, other_run, same⟩ | ⟨elseClose, more, other, rfl, other_run, same⟩ |
        ⟨_, same⟩ | ⟨_, _, same⟩ := ends
      · obtain ⟨out_eq, rest_eq, failed⟩ := Directive.mk.inj same
        obtain ⟨condition_good, kept_good⟩ := Bool.or_eq_false_iff.mp failed.symm
        dsimp only at kept_good
        subst kept_good
        obtain ⟨replaced, replaces, kept_eq⟩ := body_replaces body_run
        obtain ⟨is_condition, condition_inner⟩ := good condition_good
        obtain ⟨rfl, alone⟩ := alone_spec last_ended behind
        refine ⟨true, condition ++ is '{' :: inner ++ [is '}'], if holds then replaced else [], ?_,
          .alone condition inner replaced holds is_condition inner_balanced replaces, ?_, ?_, ?_⟩
        · rw [rest_eq]
          simp
        · rw [out_eq, kept_eq, keep_branch]
        · rw [rest_eq]
          exact fun _ => alone
        · exact balanced_branch condition_inner inner_balanced .nil
      · obtain ⟨out_eq, rest_eq, failed⟩ := Directive.mk.inj same
        obtain ⟨both_good, other_good⟩ := Bool.or_eq_false_iff.mp failed.symm
        obtain ⟨condition_good, kept_good⟩ := Bool.or_eq_false_iff.mp both_good
        obtain ⟨other_out, other_rest, other_failed⟩ := other
        dsimp only at kept_good other_good
        subst kept_good other_good
        obtain ⟨replaced, replaces, kept_eq⟩ := body_replaces body_run
        obtain ⟨is_condition, condition_inner⟩ := good condition_good
        obtain ⟨rfl, more_ended⟩ := elseIf_spec last_ended behind
        obtain ⟨isOpen, used, other_replaced, rfl, other_replaces, other_eq, alone, balanced⟩ :=
          ih_directive (keep && !holds) more other_out other_rest more_ended other_run
        refine ⟨isOpen, condition ++ is '{' :: inner ++ is '}' :: tokenElse :: is '#' :: tokenIf :: used,
          if holds then replaced else other_replaced, ?_,
          .elseIf isOpen condition inner replaced used other_replaced holds is_condition inner_balanced replaces
            other_replaces, ?_, ?_, ?_⟩
        · rw [rest_eq]
          simp
        · rw [out_eq]
          exact (congrArg₂ (· ++ ·) kept_eq other_eq).trans (keep_branches keep holds replaced other_replaced)
        · rwa [rest_eq]
        · exact balanced_branch condition_inner inner_balanced
            (balanced_token (by decide) (balanced_token (by decide) (balanced_token (by decide) balanced)))
      · obtain ⟨out_eq, rest_eq, failed⟩ := Directive.mk.inj same
        obtain ⟨both_good, other_good⟩ := Bool.or_eq_false_iff.mp failed.symm
        obtain ⟨condition_good, kept_good⟩ := Bool.or_eq_false_iff.mp both_good
        obtain ⟨other_out, other_failed⟩ := other
        dsimp only at kept_good other_good
        subst kept_good other_good
        obtain ⟨replaced, replaces, kept_eq⟩ := body_replaces body_run
        obtain ⟨is_condition, condition_inner⟩ := good condition_good
        obtain ⟨other_inner, behind_else, rfl, rfl, rfl, else_drop, other_balanced, more_ended, behind_ended⟩ :=
          elseBraced_spec last_ended behind
        have other_closes : ifMatchingBrace (other_inner ++ is '}' :: behind_else) = some other_inner.length :=
          other_balanced.closing_eq (by decide) (by decide)
        obtain ⟨other_replaced, other_replaces, other_eq⟩ := ih_tokens (keep && !holds) other_inner.length
          (other_inner ++ is '}' :: behind_else) other_out (.inr more_ended) (.inr ⟨0, other_closes⟩) other_run
        rw [List.take_left] at other_replaces
        refine ⟨false, condition ++ is '{' :: inner ++ is '}' :: tokenElse :: is '{' :: other_inner ++ [is '}'],
          if holds then replaced else other_replaced, ?_,
          .elseBraced condition inner replaced other_inner other_replaced holds is_condition inner_balanced
            other_balanced replaces other_replaces, ?_, fun opened => (by cases opened), ?_⟩
        · rw [rest_eq, else_drop]
          simp
        · rw [out_eq]
          exact (congrArg₂ (· ++ ·) kept_eq other_eq).trans (keep_branches keep holds replaced other_replaced)
        · have joined : condition ++ is '{' :: inner ++ is '}' :: tokenElse :: is '{' :: other_inner ++ [is '}'] =
              condition ++ is '{' :: inner ++ is '}' :: tokenElse :: (is '{' :: other_inner ++ is '}' :: []) := by simp
          rw [joined]
          exact balanced_branch condition_inner inner_balanced
            (balanced_token (by decide) (balanced_braces other_balanced [] .nil))
      · cases same
      · cases same

end Replaced

section Right

variable {target : IfTarget}

theorem Ended.append {tokens : List PassToken} (ended : Ended tokens) (before : List PassToken) :
    Ended (before ++ tokens) := by
  rw [Ended, List.getLast?_append_of_ne_nil _ ended.ne_nil]
  exact ended

/-- What takes the place of tokens with an end has the end, and an `#if` ends with a brace. -/
theorem Replaces.ended {part : Part} {s out : List PassToken} (replaces : Replaces target part s out) :
    (part = .tokens → Ended s → Ended out) ∧ (part ≠ .tokens → s.getLast? = some (is '}')) := by
  induction replaces with
  | nil => exact ⟨fun _ ended => ended, fun other => absurd rfl other⟩
  | token token rest out _ replaces ih =>
    refine ⟨fun _ ended => ?_, fun other => absurd rfl other⟩
    rcases rest with _ | ⟨next, rest⟩
    · cases replaces
      exact ended
    · have rest_ended : Ended (next :: rest) := ended.of_suffix_cons (List.cons_ne_nil _ _)
      exact (ih.1 rfl rest_ended).append [token]
  | directive isOpen used rest chosen out _ _ _ ih_used ih =>
    refine ⟨fun _ ended => ?_, fun other => absurd rfl other⟩
    have brace : used.getLast? = some (is '}') := ih_used.2 (by simp)
    rcases rest with _ | ⟨next, rest⟩
    · have used_ne : used ≠ [] := by
        rintro rfl
        cases brace
      rw [List.append_nil] at ended
      have used_ended := (ended.of_suffix_cons (List.cons_ne_nil _ _)).of_suffix_cons used_ne
      rw [Ended, brace] at used_ended
      cases used_ended
    · exact (ih.1 rfl (ended.of_suffix (List.cons_ne_nil _ _))).append chosen
  | alone condition body out holds _ _ _ _ => exact ⟨fun part => (by cases part), fun _ => List.getLast?_concat⟩
  | elseBraced condition body out other otherOut holds _ _ _ _ _ _ _ =>
    refine ⟨fun part => (by cases part), fun _ => ?_⟩
    have joined : condition ++ is '{' :: body ++ is '}' :: tokenElse :: is '{' :: other ++ [is '}'] =
        (condition ++ is '{' :: body ++ is '}' :: tokenElse :: is '{' :: other) ++ [is '}'] := by simp
    rw [joined, List.getLast?_concat]
  | elseIf isOpen condition body out other otherOut holds _ _ _ _ _ ih =>
    refine ⟨fun part => (by cases part), fun _ => ?_⟩
    have brace : other.getLast? = some (is '}') := ih.2 (by simp)
    have other_ne : other ≠ [] := by
      rintro rfl
      cases brace
    have joined : condition ++ is '{' :: body ++ is '}' :: tokenElse :: is '#' :: tokenIf :: other =
        (condition ++ is '{' :: body ++ [is '}', tokenElse, is '#', tokenIf]) ++ other := by simp
    rw [joined, List.getLast?_append_of_ne_nil _ other_ne, brace]

/-- Tokens without an `#if` stay as they are, and the pass comes to no condition. -/
theorem replaces_of_hasIf {tokens : List PassToken} (without : hasIf tokens = false) :
    Replaces target .tokens tokens tokens ∧ ∀ range c, ¬ TokensVisit target range tokens c := by
  induction tokens with
  | nil =>
    refine ⟨.nil, fun range c visit => ?_⟩
    cases visit
  | cons token rest ih =>
    rw [hasIf, Bool.or_eq_false_iff] at without
    obtain ⟨replaces, visits⟩ := ih without.2
    have plain : ¬(token = is '#' ∧ rest.head? = some tokenIf) := by
      rintro ⟨rfl, starts⟩
      simp [starts] at without
    refine ⟨.token token rest rest plain replaces, fun range c visit => ?_⟩
    cases visit with
    | token range _ _ _ _ visit => exact visits range c visit
    | directive _ _ _ _ => exact plain ⟨rfl, rfl⟩
    | behind _ _ _ _ _ _ => exact plain ⟨rfl, rfl⟩

theorem applyCompileTimeIfs_eq_ok_iff {tokens out : List PassToken} {failed : Bool} (hasAny : hasIf tokens = true) :
    applyCompileTimeIfs target tokens = .ok (out, failed) ↔
      ∃ passed, ifTokens target (tokens.length + 1) true tokens.length tokens = .ok (passed, failed) ∧
        out = if passed.getLast? = some none then passed else passed ++ tokens.getLast?.toList := by
  rw [applyCompileTimeIfs, if_pos hasAny]
  constructor
  · intro run
    obtain ⟨⟨passed, other⟩, passes, result⟩ := bind_eq_ok_iff.mp run
    cases result
    exact ⟨passed, passes, rfl⟩
  · rintro ⟨passed, passes, rfl⟩
    exact bind_eq_ok_iff.mpr ⟨_, passes, rfl⟩

/-- What the pass should do: it has a result, and without an error each `#if` is replaced by its branch that holds. -/
structure PassRight (target : IfTarget) (tokens : List PassToken) : Prop where
  inside : ∃ result, applyCompileTimeIfs target tokens = .ok result
  replaces : ∀ out, applyCompileTimeIfs target tokens = .ok (out, false) → Replaces target .tokens tokens out

/-- The pass is right exactly where all conditions that it comes to can be read. -/
theorem passRight_iff {tokens : List PassToken} (ended : Ended tokens) :
    PassRight target tokens ↔ ∀ c, TokensVisit target tokens.length tokens c → ReadsInside target c := by
  cases hasAny : hasIf tokens with
  | false =>
    obtain ⟨replaces, visits⟩ : Replaces target .tokens tokens tokens ∧ _ := replaces_of_hasIf hasAny
    have unchanged : applyCompileTimeIfs target tokens = .ok (tokens, false) := by
      rw [applyCompileTimeIfs, hasAny]
      rfl
    refine iff_of_true ⟨⟨_, unchanged⟩, fun out run => ?_⟩ fun c visit => absurd visit (visits tokens.length c)
    cases unchanged.symm.trans run
    exact replaces
  | true =>
    have pass : (∃ result, ifTokens target (tokens.length + 1) true tokens.length tokens = .ok result) ↔ _ :=
      (pass_ok_iff (tokens.length + 1)).1 true tokens.length tokens (.inr ended)
      (Nat.le_refl _) (Nat.lt_succ_self _)
    rw [← pass]
    constructor
    · intro right
      obtain ⟨⟨out, failed⟩, run⟩ := right.inside
      obtain ⟨passed, run, _⟩ := (applyCompileTimeIfs_eq_ok_iff hasAny).mp run
      exact ⟨_, run⟩
    · rintro ⟨⟨passed, failed⟩, run⟩
      refine ⟨⟨_, (applyCompileTimeIfs_eq_ok_iff hasAny).mpr ⟨passed, run, rfl⟩⟩, fun out whole => ?_⟩
      obtain ⟨passed, passes, out_eq⟩ := (applyCompileTimeIfs_eq_ok_iff hasAny).mp whole
      obtain ⟨replaced, replaces, passed_eq⟩ := (replaces_of_pass (tokens.length + 1)).1 true tokens.length tokens passed
        (.inr ended) (.inl rfl) passes
      rw [List.take_length] at replaces
      rw [if_pos rfl] at passed_eq
      subst passed_eq
      have passed_ended : passed.getLast? = some none := replaces.ended.1 rfl ended
      rw [if_pos passed_ended] at out_eq
      rwa [out_eq]

def linux : IfTarget := ⟨asciiBytes "linux", asciiBytes "x64"⟩

/-- `#if true {} x` -/
theorem passRight_iff_true :
    PassRight linux [is '#', tokenIf, some (.boolean true), is '{', is '}', some (.identifier (asciiBytes "x")), none] ↔
      ∀ c, TokensVisit linux 7
        [is '#', tokenIf, some (.boolean true), is '{', is '}', some (.identifier (asciiBytes "x")), none] c →
        ReadsInside linux c :=
  passRight_iff rfl

/-- In a file that ends with `#if DEBUG`, the tokens behind the end are searched for the branch. -/
theorem not_passRight : ¬ PassRight linux [is '#', tokenIf, some (.identifier (asciiBytes "DEBUG")), none] := by
  intro right
  obtain ⟨result, run⟩ := right.inside
  have outside : applyCompileTimeIfs linux [is '#', tokenIf, some (.identifier (asciiBytes "DEBUG")), none] =
      .error .outside := by decide
  rw [outside] at run
  cases run

end Right

end Saad.IfPass
