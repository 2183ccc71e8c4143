import Saad.Parser.IfPass

/-! # The conditions that the pass over `#if` comes to

Where the pass has a result: the conditions that it comes to are those that stand where it goes on, behind branches and in
them, and each of them has to be one that can be read.
-/

namespace Saad.IfPass

open General

section Branches

variable (target : IfTarget)
variable {rest tokens body more : List PassToken} {condition : Condition} {close : ℕ}

/-- The condition at the tokens can be read: it comes to no short comparison, and it is a condition, or there is a `{`, `;`
or `}` to go on at. -/
def ReadsInside (tokens : List PassToken) : Prop :=
  (∀ c, ComesToOperand target .or tokens c → ¬ Short target c) ∧
    ((∃ used value rest, tokens = used ++ rest ∧ IsCondition target .or used value ∧ Level.or.Ends rest ∧ rest ≠ []) ∨
      ∃ token ∈ tokens, stopsSkip token = true)

variable {target}

theorem Ended.of_suffix {used : List PassToken} (ended : Ended (used ++ rest)) (more : rest ≠ []) :
    Ended rest := by
  rw [Ended, List.getLast?_append_of_ne_nil _ more] at ended
  exact ended

theorem Condition.behind_of_good (good : condition.bad = false) :
    condition.behind = condition.rest := by
  rw [behind, good]
  exact if_neg Bool.false_ne_true

/-- Behind a condition with an error there is something to go on at if there is a token to stop at. -/
theorem Condition.behind_ne_nil_iff (bad : condition.bad = true) :
    condition.behind ≠ [] ↔ ∃ token ∈ condition.rest, stopsSkip token = true := by
  rw [behind, bad, if_pos rfl, ne_eq, List.dropWhile_eq_nil_iff]
  simp

theorem ifBraces_ok_iff : (∃ branch, ifBraces condition = .ok branch) ↔ condition.behind ≠ [] := by
  rw [ifBraces.eq_def]
  split
  · rename_i empty
    exact iff_of_false (fun ⟨_, found⟩ => by cases found) (fun more => more empty)
  · rename_i brace body behind
    refine iff_of_true ?_ (by rw [behind]; exact List.cons_ne_nil _ _)
    split
    · split
      · exact ⟨_, rfl⟩
      · exact ⟨_, rfl⟩
    · exact ⟨_, rfl⟩

theorem Ended.of_suffix_cons {token : PassToken} (ended : Ended (token :: rest)) (more : rest ≠ []) :
    Ended rest := by
  have suffix : Ended ([token] ++ rest) := ended
  exact suffix.of_suffix more

/-- The branch is found exactly where the condition can be read. -/
theorem ifBranch_ok_iff (ended : Ended tokens) :
    (∃ branch, ifBranch target tokens = .ok branch) ↔ ReadsInside target tokens := by
  cases reads : ifCondition target tokens with
  | error stop =>
    obtain ⟨_, c, comes, short⟩ := comesToOperand_of_stop _ .or tokens stop ended (Nat.le_refl _) reads
    refine iff_of_false (fun ⟨branch, found⟩ => ?_) (fun inside => inside.1 c comes short)
    obtain ⟨condition, ok, _⟩ := bind_eq_ok_iff.mp found
    rw [reads] at ok
    cases ok
  | ok condition =>
    have spec := readsCondition_of_reader _ .or tokens condition reads
    have long : ∀ c, ComesToOperand target .or tokens c → ¬ Short target c := by
      intro c comes short
      have outside := outside_of_comesToOperand comes short (3 * tokens.length + 3) (Nat.le_refl _)
      rw [ifCondition, ← reader, outside] at reads
      cases reads
    rw [ifBranch, reads, ReadsInside, and_iff_right long]
    refine ifBraces_ok_iff.trans ?_
    have rest_ended := spec.ended ended
    obtain ⟨used, split, inner, is⟩ := spec
    cases bad : condition.bad with
    | false =>
      rw [Condition.behind_of_good bad]
      obtain ⟨is, ends⟩ := is bad
      exact iff_of_true rest_ended.ne_nil
        (.inl ⟨used, condition.value, condition.rest, split, is, ends, rest_ended.ne_nil⟩)
    | true =>
      rw [Condition.behind_ne_nil_iff bad]
      constructor
      · rintro ⟨token, mem, stops⟩
        exact .inr ⟨token, by rw [split]; exact List.mem_append_right used mem, stops⟩
      · rintro (⟨good, value, rest, whole, condition_is, ends, more⟩ | ⟨token, mem, stops⟩)
        · have read := reader_of_isCondition condition_is (3 * tokens.length + 3) rest
            (by rw [whole]; exact Nat.le_refl _) more ends
          rw [← whole, reader, ← ifCondition, reads] at read
          cases read
          cases bad
        · rw [split] at mem
          rcases List.mem_append.mp mem with mem | mem
          · rw [(inner token mem).2] at stops
            cases stops
          · exact ⟨token, mem, stops⟩

/-- What a branch says about the tokens. -/
theorem ifBranch_spec {branch : Branch} (found : ifBranch target tokens = .ok branch) :
    ∃ used brace body, tokens = used ++ brace :: body ∧
      (brace = is '{' → branch = .unclosed ∨ ∃ holds bad close, branch = .braced holds bad close body ∧
        ifMatchingBrace body = some close ∧
          (bad = false → IsCondition target .or used holds ∧ ∀ token ∈ used, Inner token)) ∧
      (brace ≠ is '{' → branch = .unbraced (brace :: body)) := by
  obtain ⟨condition, reads, found⟩ := bind_eq_ok_iff.mp found
  have spec := readsCondition_of_reader _ .or tokens condition reads
  obtain ⟨used, split_tokens, inner, condition_is⟩ := spec
  have suffix : ∃ skipped, condition.rest = skipped ++ condition.behind ∧ (condition.bad = false → skipped = []) := by
    cases bad : condition.bad with
    | false => exact ⟨[], by rw [Condition.behind_of_good bad]; rfl, fun _ => rfl⟩
    | true =>
      refine ⟨condition.rest.takeWhile (!stopsSkip ·), ?_, fun good => by cases good⟩
      rw [Condition.behind, bad, if_pos rfl, List.takeWhile_append_dropWhile]
  obtain ⟨skipped, split_rest, none_skipped⟩ := suffix
  rw [ifBraces.eq_def] at found
  split at found
  · cases found
  rename_i brace body behind
  rw [behind] at split_rest
  refine ⟨used ++ skipped, brace, body, by rw [split_tokens, split_rest, List.append_assoc], ?_, ?_⟩
  · intro braced
    rw [if_pos braced] at found
    split at found
    · cases found
      exact .inl rfl
    · rename_i close closed
      cases found
      refine .inr ⟨_, _, close, rfl, closed, fun good => ?_⟩
      rw [none_skipped good, List.append_nil, good]
      exact ⟨(condition_is good).1, inner⟩
  · intro unbraced
    rw [if_neg unbraced] at found
    cases found
    rfl

/-- Behind the brace that closes a body. -/
theorem ended_of_matching (ended : Ended body) (closed : ifMatchingBrace body = some close) :
    ∃ inner rest, body = inner ++ is '}' :: rest ∧ inner.length = close ∧ body.drop (close + 1) = rest ∧
      Balanced (· == is '{') (· == is '}') inner ∧ Ended rest := by
  obtain ⟨inner, brace, rest, rfl, rfl, _, closes, balanced⟩ := balanced_of_closing closed
  rw [beq_iff_eq] at closes
  subst closes
  have behind := ended.of_suffix (List.cons_ne_nil _ _)
  exact ⟨inner, rest, rfl, rfl, by simp, balanced, behind.of_cons (by decide)⟩

/-- The tokens from a condition with a body on. -/
theorem braced_spec {holds bad : Bool} (ended : Ended tokens)
    (found : ifBranch target tokens = .ok (.braced holds bad close body)) :
    ∃ used inner rest, tokens = used ++ is '{' :: body ∧ body = inner ++ is '}' :: rest ∧ inner.length = close ∧
      body.drop (close + 1) = rest ∧ Balanced (· == is '{') (· == is '}') inner ∧ Ended body ∧ Ended rest ∧
        (bad = false → IsCondition target .or used holds ∧ ∀ token ∈ used, Inner token) := by
  obtain ⟨used, brace, behind, rfl, braced, unbraced⟩ := ifBranch_spec found
  have suffix := ended.of_suffix (List.cons_ne_nil _ _)
  by_cases is_brace : brace = is '{'
  · obtain same | ⟨holds', bad', close', same, closed, good⟩ := braced is_brace
    · cases same
    · cases same
      subst is_brace
      have body_ended := suffix.of_cons (by decide)
      obtain ⟨inner, rest, split, length, drop, balanced, rest_ended⟩ := ended_of_matching body_ended closed
      exact ⟨used, inner, rest, rfl, split, length, drop, balanced, body_ended, rest_ended, good⟩
  · cases unbraced is_brace

/-- What is behind a branch says about the tokens. -/
theorem ifElse_spec (ended : Ended tokens) :
    ∃ after, ifElse tokens = .ok after ∧
      ((after = .alone tokens ∧ tokens.head? ≠ some tokenElse) ∨
        (∃ rest, tokens = tokenElse :: is '#' :: tokenIf :: rest ∧ after = .elseIf rest) ∨
        (∃ body, tokens = tokenElse :: is '{' :: body ∧ (after = .elseUnclosed ∨
          ∃ close, after = .elseBraced close body ∧ ifMatchingBrace body = some close)) ∨
        ∃ rest, tokens = tokenElse :: rest ∧ after = .elseOther rest) := by
  rcases tokens with _ | ⟨token, rest⟩
  · exact absurd rfl ended.ne_nil
  rw [ifElse]
  split
  · rename_i is_else
    have is_else : token = tokenElse := Option.some.inj is_else
    subst is_else
    have rest_ended := ended.of_cons (by decide)
    rcases rest with _ | ⟨next, more⟩
    · exact absurd rfl rest_ended.ne_nil
    dsimp only [List.tail_cons]
    split
    · rename_i hash
      subst hash
      have more_ended := rest_ended.of_cons (by decide)
      rcases more with _ | ⟨third, rest⟩
      · exact absurd rfl more_ended.ne_nil
      dsimp only
      split
      · rename_i is_if
        subst is_if
        exact ⟨_, rfl, .inr (.inl ⟨rest, rfl, rfl⟩)⟩
      · exact ⟨_, rfl, .inr (.inr (.inr ⟨_, rfl, rfl⟩))⟩
    · split
      · rename_i braced
        subst braced
        split
        · exact ⟨_, rfl, .inr (.inr (.inl ⟨more, rfl, .inl rfl⟩))⟩
        · rename_i close closed
          exact ⟨_, rfl, .inr (.inr (.inl ⟨more, rfl, .inr ⟨close, rfl, closed⟩⟩))⟩
      · exact ⟨_, rfl, .inr (.inr (.inr ⟨_, rfl, rfl⟩))⟩
  · rename_i alone
    exact ⟨_, rfl, .inl ⟨rfl, alone⟩⟩

theorem alone_spec (ended : Ended tokens) (is_after : ifElse tokens = .ok (.alone rest)) :
    rest = tokens ∧ tokens.head? ≠ some tokenElse := by
  obtain ⟨after, found, cases_of⟩ := ifElse_spec ended
  cases is_after.symm.trans found
  obtain ⟨same, last⟩ | ⟨_, _, same⟩ | ⟨_, _, same | ⟨_, same, _⟩⟩ | ⟨_, _, same⟩ := cases_of
  · cases same
    exact ⟨rfl, last⟩
  · cases same
  · cases same
  · cases same
  · cases same

theorem elseIf_spec (ended : Ended tokens) (is_after : ifElse tokens = .ok (.elseIf more)) :
    tokens = tokenElse :: is '#' :: tokenIf :: more ∧ Ended more := by
  obtain ⟨after, found, cases_of⟩ := ifElse_spec ended
  cases is_after.symm.trans found
  obtain ⟨same, _⟩ | ⟨rest, rfl, same⟩ | ⟨body, _, same | ⟨close, same, _⟩⟩ | ⟨rest, _, same⟩ := cases_of
  · cases same
  · cases same
    exact ⟨rfl, ((ended.of_cons (by decide)).of_cons (by decide)).of_cons (by decide)⟩
  · cases same
  · cases same
  · cases same

theorem elseBraced_spec (ended : Ended tokens)
    (is_after : ifElse tokens = .ok (.elseBraced close more)) :
    ∃ inner rest, tokens = tokenElse :: is '{' :: more ∧ more = inner ++ is '}' :: rest ∧ inner.length = close ∧
      more.drop (close + 1) = rest ∧ Balanced (· == is '{') (· == is '}') inner ∧ Ended more ∧ Ended rest := by
  obtain ⟨after, found, cases_of⟩ := ifElse_spec ended
  cases is_after.symm.trans found
  obtain ⟨same, _⟩ | ⟨rest, _, same⟩ | ⟨body, rfl, same | ⟨close, same, closed⟩⟩ | ⟨rest, _, same⟩ := cases_of
  · cases same
  · cases same
  · cases same
  · cases same
    have more_ended := (ended.of_cons (by decide)).of_cons (by decide)
    obtain ⟨inner, rest, split, length, drop, balanced, rest_ended⟩ := ended_of_matching more_ended closed
    exact ⟨inner, rest, rfl, split, length, drop, balanced, more_ended, rest_ended⟩
  · cases same

end Branches

section Visits

variable (target : IfTarget)

/-- Where a directive goes on behind its first branch: with another condition, or with the tokens behind it. -/
def behindBranch (s : List PassToken) : Except Stop (Bool × List PassToken) := do
  match ← ifBranch target s with
  | .unbraced rest => return (false, rest)
  | .unclosed => return (false, [])
  | .braced _ _ close body =>
    match ← ifElse (body.drop (close + 1)) with
    | .alone rest => return (false, rest)
    | .elseIf more => return (true, more)
    | .elseBraced elseClose more => return (false, more.drop (elseClose + 1))
    | .elseUnclosed => return (false, [])
    | .elseOther rest => return (false, rest)

/-- The tokens behind a directive. -/
inductive Leaves : List PassToken → List PassToken → Prop
  | last (s rest : List PassToken) : behindBranch target s = .ok (false, rest) → Leaves s rest
  | elseIf (s more rest : List PassToken) : behindBranch target s = .ok (true, more) → Leaves more rest → Leaves s rest

mutual

/-- The pass over as many tokens as the first number comes to the condition of an `#if` at the last tokens. -/
inductive TokensVisit : ℕ → List PassToken → List PassToken → Prop
  | token (range : ℕ) (token : PassToken) (rest c : List PassToken) :
      ¬(token = is '#' ∧ 0 < range ∧ rest.head? = some tokenIf) → TokensVisit range rest c →
      TokensVisit (range + 1) (token :: rest) c
  | directive (range : ℕ) (rest c : List PassToken) : DirectiveVisits rest c →
      TokensVisit (range + 2) (is '#' :: tokenIf :: rest) c
  | behind (range : ℕ) (rest left c : List PassToken) : Leaves target rest left →
      TokensVisit (range + 2 - (rest.length + 2 - left.length)) left c →
      TokensVisit (range + 2) (is '#' :: tokenIf :: rest) c

/-- The directive with its condition at the first tokens comes to the condition at the last ones. -/
inductive DirectiveVisits : List PassToken → List PassToken → Prop
  | here (s : List PassToken) : DirectiveVisits s s
  | body (s body c : List PassToken) (holds bad : Bool) (close : ℕ) :
      ifBranch target s = .ok (.braced holds bad close body) → TokensVisit close body c → DirectiveVisits s c
  | elseIf (s body more c : List PassToken) (holds bad : Bool) (close : ℕ) :
      ifBranch target s = .ok (.braced holds bad close body) → ifElse (body.drop (close + 1)) = .ok (.elseIf more) →
      DirectiveVisits more c → DirectiveVisits s c
  | elseBraced (s body more c : List PassToken) (holds bad : Bool) (close elseClose : ℕ) :
      ifBranch target s = .ok (.braced holds bad close body) →
      ifElse (body.drop (close + 1)) = .ok (.elseBraced elseClose more) → TokensVisit elseClose more c →
      DirectiveVisits s c

end

variable {target}

/-- What a directive leaves, from what its parts leave. -/
theorem directive_cases {fuel : ℕ} {keep : Bool} {s : List PassToken} {directive : Directive}
    (run : ifDirective target (fuel + 1) keep s = .ok directive) :
    (∃ rest, ifBranch target s = .ok (.unbraced rest) ∧ directive = ⟨[], rest, true⟩) ∨
    (ifBranch target s = .ok .unclosed ∧ directive = ⟨[], [], true⟩) ∨
    ∃ holds bad close body kept after, ifBranch target s = .ok (.braced holds bad close body) ∧
      ifTokens target fuel (keep && holds) close body = .ok kept ∧ ifElse (body.drop (close + 1)) = .ok after ∧
      ((∃ rest, after = .alone rest ∧ directive = ⟨kept.1, rest, bad || kept.2⟩) ∨
        (∃ more other, after = .elseIf more ∧ ifDirective target fuel (keep && !holds) more = .ok other ∧
          directive = ⟨kept.1 ++ other.out, other.rest, bad || kept.2 || other.failed⟩) ∨
        (∃ elseClose more other, after = .elseBraced elseClose more ∧
          ifTokens target fuel (keep && !holds) elseClose more = .ok other ∧
          directive = ⟨kept.1 ++ other.1, more.drop (elseClose + 1), bad || kept.2 || other.2⟩) ∨
        (after = .elseUnclosed ∧ directive = ⟨kept.1, [], true⟩) ∨
        ∃ rest, after = .elseOther rest ∧ directive = ⟨kept.1, rest, true⟩) := by
  rw [ifDirective] at run
  obtain ⟨branch, found, run⟩ := bind_eq_ok_iff.mp run
  cases branch with
  | unbraced rest => exact .inl ⟨rest, found, (Except.ok.inj run).symm⟩
  | unclosed => exact .inr (.inl ⟨found, (Except.ok.inj run).symm⟩)
  | braced holds bad close body =>
    obtain ⟨kept, tokens, run⟩ := bind_eq_ok_iff.mp run
    obtain ⟨after, behind, run⟩ := bind_eq_ok_iff.mp run
    refine .inr (.inr ⟨holds, bad, close, body, kept, after, found, tokens, behind, ?_⟩)
    cases after with
    | alone rest => exact .inl ⟨rest, rfl, (Except.ok.inj run).symm⟩
    | elseIf more =>
      obtain ⟨other, others, run⟩ := bind_eq_ok_iff.mp run
      exact .inr (.inl ⟨more, other, rfl, others, (Except.ok.inj run).symm⟩)
    | elseBraced elseClose more =>
      obtain ⟨other, others, run⟩ := bind_eq_ok_iff.mp run
      exact .inr (.inr (.inl ⟨elseClose, more, other, rfl, others, (Except.ok.inj run).symm⟩))
    | elseUnclosed => exact .inr (.inr (.inr (.inl ⟨rfl, (Except.ok.inj run).symm⟩)))
    | elseOther rest => exact .inr (.inr (.inr (.inr ⟨rest, rfl, (Except.ok.inj run).symm⟩)))

theorem leaves_of_directive {fuel : ℕ} {keep : Bool} {s : List PassToken} {directive : Directive}
    (run : ifDirective target fuel keep s = .ok directive) : Leaves target s directive.rest := by
  induction fuel generalizing keep s directive with
  | zero => cases run
  | succ fuel ih =>
    obtain ⟨rest, found, rfl⟩ | ⟨found, rfl⟩ | ⟨holds, bad, close, body, kept, after, found, _, behind, ends⟩ :=
      directive_cases run
    · exact .last s rest (bind_eq_ok_iff.mpr ⟨_, found, rfl⟩)
    · exact .last s [] (bind_eq_ok_iff.mpr ⟨_, found, rfl⟩)
    · obtain ⟨rest, rfl, rfl⟩ | ⟨more, other, rfl, others, rfl⟩ | ⟨elseClose, more, other, rfl, _, rfl⟩ | ⟨rfl, rfl⟩ |
        ⟨rest, rfl, rfl⟩ := ends
      · exact .last s rest (bind_eq_ok_iff.mpr ⟨_, found, bind_eq_ok_iff.mpr ⟨_, behind, rfl⟩⟩)
      · exact .elseIf s more other.rest (bind_eq_ok_iff.mpr ⟨_, found, bind_eq_ok_iff.mpr ⟨_, behind, rfl⟩⟩) (ih others)
      · exact .last s _ (bind_eq_ok_iff.mpr ⟨_, found, bind_eq_ok_iff.mpr ⟨_, behind, rfl⟩⟩)
      · exact .last s [] (bind_eq_ok_iff.mpr ⟨_, found, bind_eq_ok_iff.mpr ⟨_, behind, rfl⟩⟩)
      · exact .last s rest (bind_eq_ok_iff.mpr ⟨_, found, bind_eq_ok_iff.mpr ⟨_, behind, rfl⟩⟩)

/-- There is one list of tokens behind a directive. -/
theorem Leaves.unique {s rest other : List PassToken} (leaves : Leaves target s rest) (others : Leaves target s other) :
    rest = other := by
  induction leaves generalizing other with
  | last s rest ends =>
    cases others with
    | last _ _ other_ends => cases ends.symm.trans other_ends; rfl
    | elseIf _ more _ goes_on _ => cases ends.symm.trans goes_on
  | elseIf s more rest goes_on _ ih =>
    cases others with
    | last _ _ other_ends => cases goes_on.symm.trans other_ends
    | elseIf _ other_more _ other_goes_on leaves =>
      cases goes_on.symm.trans other_goes_on
      exact ih leaves

/-- Where a directive goes on is in the tokens. -/
theorem behindBranch_spec {s rest : List PassToken} {again : Bool} (ended : Ended s)
    (goes_on : behindBranch target s = .ok (again, rest)) :
    (rest = [] ∧ again = false ∨ Ended rest) ∧ rest.length ≤ s.length ∧ (again = true → rest.length < s.length) := by
  obtain ⟨branch, found, later⟩ := bind_eq_ok_iff.mp goes_on
  cases branch with
  | unbraced rest' =>
    obtain ⟨used, brace, body, rfl, braced, unbraced⟩ := ifBranch_spec found
    have same : brace :: body = rest' := by
      by_cases is_brace : brace = is '{'
      · obtain same | ⟨_, _, _, same, _⟩ := braced is_brace
        · cases same
        · cases same
      · cases unbraced is_brace
        rfl
    cases later
    rw [← same]
    exact ⟨.inr (ended.of_suffix (List.cons_ne_nil _ _)), by simp, fun again => by cases again⟩
  | unclosed =>
    cases later
    exact ⟨.inl ⟨rfl, rfl⟩, by simp, fun again => by cases again⟩
  | braced holds bad close body =>
    obtain ⟨used, inner, behind, rfl, rfl, _, drop, _, _, behind_ended, _⟩ := braced_spec ended found
    obtain ⟨after, after_is, last⟩ := bind_eq_ok_iff.mp later
    rw [drop] at after_is
    obtain ⟨after', is_after, cases_of⟩ := ifElse_spec behind_ended
    cases after_is.symm.trans is_after
    simp only [List.length_append, List.length_cons]
    obtain ⟨rfl, _⟩ | ⟨more, rfl, rfl⟩ | ⟨other, rfl, rfl | ⟨elseClose, rfl, other_closed⟩⟩ | ⟨other, rfl, rfl⟩ := cases_of
    · cases last
      exact ⟨.inr behind_ended, by omega, fun _ => by omega⟩
    · cases last
      simp only [List.length_cons]
      exact ⟨.inr (((behind_ended.of_cons (by decide)).of_cons (by decide)).of_cons (by decide)), by omega,
        fun _ => by omega⟩
    · cases last
      exact ⟨.inl ⟨rfl, rfl⟩, by simp, fun again => by cases again⟩
    · cases last
      obtain ⟨other_inner, others, rfl, _, other_drop, _, others_ended⟩ :=
        ended_of_matching ((behind_ended.of_cons (by decide)).of_cons (by decide)) other_closed
      rw [other_drop]
      simp only [List.length_append, List.length_cons]
      exact ⟨.inr others_ended, by omega, fun again => by cases again⟩
    · cases last
      simp only [List.length_cons]
      exact ⟨.inr (behind_ended.of_cons (by decide)), by omega, fun again => by cases again⟩

theorem Leaves.ended {s rest : List PassToken} (leaves : Leaves target s rest) (ended : Ended s) :
    (rest = [] ∨ Ended rest) ∧ rest.length ≤ s.length := by
  induction leaves with
  | last s rest ends =>
    obtain ⟨rest_ended, le, _⟩ := behindBranch_spec ended ends
    exact ⟨rest_ended.imp And.left id, le⟩
  | elseIf s more rest goes_on _ ih =>
    obtain ⟨⟨_, again⟩ | more_ended, le, _⟩ := behindBranch_spec ended goes_on
    · cases again
    · obtain ⟨rest_ended, rest_le⟩ := ih more_ended
      exact ⟨rest_ended, by omega⟩

theorem visits_of_not_braced {s c : List PassToken}
    (others : ∀ holds bad close body, ifBranch target s ≠ .ok (.braced holds bad close body))
    (visit : DirectiveVisits target s c) : c = s := by
  cases visit with
  | here _ => rfl
  | body _ _ _ _ _ _ found _ => exact (others _ _ _ _ found).elim
  | elseIf _ _ _ _ _ _ _ found _ _ => exact (others _ _ _ _ found).elim
  | elseBraced _ _ _ _ _ _ _ _ found _ _ => exact (others _ _ _ _ found).elim

/-- What holds of all conditions that a directive with braces comes to. -/
theorem visits_braced_iff {s body : List PassToken} {holds bad : Bool} {close : ℕ} {P : List PassToken → Prop}
    (found : ifBranch target s = .ok (.braced holds bad close body)) :
    (∀ c, DirectiveVisits target s c → P c) ↔ P s ∧ (∀ c, TokensVisit target close body c → P c) ∧
      (∀ more, ifElse (body.drop (close + 1)) = .ok (.elseIf more) → ∀ c, DirectiveVisits target more c → P c) ∧
      ∀ elseClose more, ifElse (body.drop (close + 1)) = .ok (.elseBraced elseClose more) →
        ∀ c, TokensVisit target elseClose more c → P c := by
  constructor
  · intro all
    exact ⟨all s (.here s), fun c visits => all c (.body s body c holds bad close found visits),
      fun more behind c visits => all c (.elseIf s body more c holds bad close found behind visits),
      fun elseClose more behind c visits => all c (.elseBraced s body more c holds bad close elseClose found behind visits)⟩
  · rintro ⟨here, tokens, elseIf, elseBraced⟩ c visit
    cases visit with
    | here _ => exact here
    | body _ _ _ _ _ _ other visits =>
      cases found.symm.trans other
      exact tokens c visits
    | elseIf _ _ more _ _ _ _ other behind visits =>
      cases found.symm.trans other
      exact elseIf more behind c visits
    | elseBraced _ _ more _ _ _ _ elseClose other behind visits =>
      cases found.symm.trans other
      exact elseBraced elseClose more behind c visits

/-- The pass has a result exactly where all conditions that it comes to can be read. -/
theorem pass_ok_iff (fuel : ℕ) :
    (∀ (keep : Bool) (range : ℕ) (s : List PassToken), (range = 0 ∨ Ended s) → range ≤ s.length → s.length < fuel →
      ((∃ result, ifTokens target fuel keep range s = .ok result) ↔
        ∀ c, TokensVisit target range s c → ReadsInside target c)) ∧
    ∀ (keep : Bool) (s : List PassToken), Ended s → s.length < fuel →
      ((∃ directive, ifDirective target fuel keep s = .ok directive) ↔
        ∀ c, DirectiveVisits target s c → ReadsInside target c) := by
  induction fuel with
  | zero =>
    exact ⟨fun _ _ s _ _ enough => absurd enough (Nat.not_lt_zero _), fun _ s _ enough => absurd enough (Nat.not_lt_zero _)⟩
  | succ fuel ih =>
    obtain ⟨ih_tokens, ih_directive⟩ := ih
    constructor
    · intro keep range s ended le enough
      cases range with
      | zero =>
        rw [ifTokens]
        refine iff_of_true ⟨_, rfl⟩ fun c visit => ?_
        cases visit
      | succ range =>
        rcases s with _ | ⟨token, rest⟩
        · simp at le
        simp only [List.length_cons] at le enough
        have whole : Ended (token :: rest) := ended.resolve_left (Nat.succ_ne_zero _)
        rw [ifTokens]
        split
        · rename_i directive
          obtain ⟨rfl, positive, starts⟩ := directive
          obtain ⟨tail, rfl⟩ : ∃ tail, rest = tokenIf :: tail := by
            rcases rest with _ | ⟨next, tail⟩
            · cases starts
            · exact ⟨tail, congrArg (· :: tail) (Option.some.inj starts)⟩
          obtain ⟨range, rfl⟩ : ∃ less, range = less + 1 := ⟨range - 1, by omega⟩
          simp only [List.length_cons] at le enough
          have tail_ended : Ended tail := (whole.of_cons (by decide)).of_cons (by decide)
          have directives := ih_directive keep tail tail_ended (by omega)
          have behind : ∀ directive, ifDirective target fuel keep tail = .ok directive →
              ((∃ result, ifTokens target fuel keep (range + 2 - (tail.length + 2 - directive.rest.length)) directive.rest =
                  .ok result) ↔
                ∀ c, TokensVisit target (range + 2 - (tail.length + 2 - directive.rest.length)) directive.rest c →
                  ReadsInside target c) := by
            intro directive runs
            obtain ⟨rest_ended, rest_le⟩ := (leaves_of_directive runs).ended tail_ended
            refine ih_tokens keep _ directive.rest ?_ (by omega) (by omega)
            rcases rest_ended with empty | rest_ended
            · rw [empty, List.length_nil]
              exact .inl (by omega)
            · exact .inr rest_ended
          constructor
          · rintro ⟨result, run⟩ c visit
            obtain ⟨directive, runs, run⟩ := bind_eq_ok_iff.mp run
            obtain ⟨more, more_run, _⟩ := bind_eq_ok_iff.mp run
            cases visit with
            | token _ _ _ _ differs _ => exact absurd ⟨rfl, positive, rfl⟩ differs
            | directive _ _ _ visits => exact directives.mp ⟨directive, runs⟩ c visits
            | behind _ _ left _ leaves visits =>
              obtain rfl := leaves.unique (leaves_of_directive runs)
              exact (behind directive runs).mp ⟨more, more_run⟩ c visits
          · intro all
            obtain ⟨directive, runs⟩ := directives.mpr fun c visits => all c (.directive range tail c visits)
            obtain ⟨more, more_run⟩ := (behind directive runs).mpr fun c visits =>
              all c (.behind range tail directive.rest c (leaves_of_directive runs) visits)
            exact ⟨_, bind_eq_ok_iff.mpr ⟨directive, runs, bind_eq_ok_iff.mpr ⟨more, more_run, rfl⟩⟩⟩
        · rename_i plain
          have rest_ended : range = 0 ∨ Ended rest := by
            rcases rest with _ | ⟨next, rest⟩
            · exact .inl (by simpa using le)
            · exact .inr (whole.of_suffix_cons (List.cons_ne_nil _ _))
          have tokens := ih_tokens keep range rest rest_ended (by omega) (by omega)
          constructor
          · rintro ⟨result, run⟩ c visit
            obtain ⟨more, more_run, _⟩ := bind_eq_ok_iff.mp run
            cases visit with
            | token _ _ _ _ _ visits => exact tokens.mp ⟨more, more_run⟩ c visits
            | directive range _ _ _ => exact absurd ⟨rfl, Nat.succ_pos range, rfl⟩ plain
            | behind range _ _ _ _ _ => exact absurd ⟨rfl, Nat.succ_pos range, rfl⟩ plain
          · intro all
            obtain ⟨more, more_run⟩ := tokens.mpr fun c visits => all c (.token range token rest c plain visits)
            exact ⟨_, bind_eq_ok_iff.mpr ⟨more, more_run, rfl⟩⟩
    · intro keep s ended enough
      by_cases inside : ReadsInside target s
      · obtain ⟨branch, found⟩ := (ifBranch_ok_iff ended).mpr inside
        rw [ifDirective, exists_bind_iff_of_ok found]
        cases branch with
        | unbraced _ | unclosed =>
          refine iff_of_true ⟨_, rfl⟩ fun c visit => ?_
          rw [visits_of_not_braced (by simp [found]) visit]
          exact inside
        | braced holds bad close body =>
          obtain ⟨used, inner, rest, rfl, rfl, rfl, drop, _, body_ended, rest_ended, _⟩ := braced_spec ended found
          simp only [List.length_append, List.length_cons] at enough
          have tokens := ih_tokens (keep && holds) inner.length (inner ++ is '}' :: rest) (.inr body_ended) (by simp)
            (by simp only [List.length_append, List.length_cons]; omega)
          obtain ⟨after, behind, _⟩ := ifElse_spec rest_ended
          dsimp only
          rw [visits_braced_iff found, and_iff_right inside, ← tokens, drop, exists_bind_ok_iff]
          refine Iff.trans (exists_congr fun kept => and_congr_right fun _ => ?_) exists_and_right
          rw [exists_bind_iff_of_ok behind, behind]
          cases after with
          | alone _ | elseUnclosed | elseOther _ =>
            exact iff_of_true ⟨_, rfl⟩ ⟨fun _ same => (by cases same), fun _ _ same => (by cases same)⟩
          | elseIf more =>
            obtain ⟨rfl, more_ended⟩ := elseIf_spec rest_ended behind
            simp only [List.length_cons] at enough
            have directive := ih_directive (keep && !holds) more more_ended (by omega)
            rw [exists_bind_ok_iff]
            constructor
            · rintro ⟨other, run, _⟩
              refine ⟨fun _ same => ?_, fun _ _ same => by cases same⟩
              cases same
              exact directive.mp ⟨other, run⟩
            · rintro ⟨visits, _⟩
              obtain ⟨other, run⟩ := directive.mpr (visits more rfl)
              exact ⟨other, run, _, rfl⟩
          | elseBraced elseClose more =>
            obtain ⟨else_inner, last, rfl, rfl, rfl, _, _, more_ended, _⟩ := elseBraced_spec rest_ended behind
            simp only [List.length_cons, List.length_append] at enough
            have others := ih_tokens (keep && !holds) else_inner.length _ (.inr more_ended) (by simp)
              (by simp only [List.length_append, List.length_cons]; omega)
            rw [exists_bind_ok_iff]
            constructor
            · rintro ⟨other, run, _⟩
              refine ⟨fun _ same => (by cases same), fun _ _ same => ?_⟩
              cases same
              exact others.mp ⟨other, run⟩
            · rintro ⟨_, visits⟩
              obtain ⟨other, run⟩ := others.mpr (visits _ _ rfl)
              exact ⟨other, run, _, rfl⟩
      · refine iff_of_false ?_ fun all => inside (all s (.here s))
        rintro ⟨directive, run⟩
        rw [ifDirective] at run
        obtain ⟨branch, found, _⟩ := bind_eq_ok_iff.mp run
        exact inside ((ifBranch_ok_iff ended).mp ⟨branch, found⟩)

end Visits

end Saad.IfPass
