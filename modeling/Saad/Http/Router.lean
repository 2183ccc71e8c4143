import Mathlib.Data.List.Nodup
import Saad.General.FirstBest
import Saad.Http.Files
import Saad.Http.Responses

/-! # The router

Patterns that are registered for handlers, and the choice of the route for a request. `H` are the handlers. The
segments of a path are in lists that have room for far fewer of them than an int counts, so a score is a plain number.
-/

namespace Saad.Http

section Registering

structure Router (H : Type) where
  routes : List (Route × H) := []
  notFound : Option H := none

variable {H : Type}

/-- `handle`, with the handler of the route. None is a path that doesn't start with /. -/
def Router.handle (router : Router H) (pattern : Text) (handler : H) : Option (Router H) :=
  (Http.handle pattern).map fun route => { router with routes := router.routes ++ [(route, handler)] }

/-- The patterns are registered one after the other. -/
def Router.handleAll (router : Router H) (patterns : List (Text × H)) : Option (Router H) :=
  patterns.foldlM (fun router entry => router.handle entry.1 entry.2) router

end Registering

section Serving

variable {H : Type}

/-- A segment in braces, which matches any one. -/
def isName (segment : Text) : Bool := startsWith segment [byteOf '{'] && endsWith segment [byteOf '}']

/-- The loop of `matchScore` over the segments of the pattern. None is a segment that doesn't match. -/
def scoreFrom : List Text → List Text → ℤ → Option ℤ
  | pattern :: patterns, segment :: segments, score =>
    if isName pattern then scoreFrom patterns segments score
    else if pattern ≠ segment then none
    else scoreFrom patterns segments (score + 2)
  | _, _, score => some score

/-- How well the route matches the segments of a path. -1 when it doesn't match. -/
def matchScore (route : Route) (segments : List Text) : ℤ :=
  if route.segments.length > segments.length then -1
  else if !route.isPrefix ∧ route.segments.length ≠ segments.length then -1
  else
    match scoreFrom route.segments segments 0 with
    | none => -1
    | some score => if !route.isPrefix then score + 1000 else score

def methodMatches (route : Route) (method : Text) : Bool :=
  route.method.length == 0 || route.method == method ||
    (route.method == asciiBytes "GET" && method == asciiBytes "HEAD")

/-- What the loop over the routes knows. -/
structure Choice where
  best : Option ℕ := none
  bestScore : ℤ := -1
  pathMatched : Bool := false
  allowed : List Text := []

def consider (method : Text) (segments : List Text) (choice : Choice) (i : ℕ) (route : Route) : Choice :=
  let score := matchScore route segments
  if score < 0 then choice
  else if !methodMatches route method then
    { choice with
      pathMatched := true
      allowed := if choice.allowed.contains route.method then choice.allowed else choice.allowed ++ [route.method] }
  else
    let score := if 0 < route.method.length then score + 1 else score
    if score > choice.bestScore then { choice with best := some i, bestScore := score } else choice

/-- The loop over the routes, from an index on. -/
def chooseFrom (method : Text) (segments : List Text) : ℕ → List (Route × H) → Choice → Choice
  | _, [], choice => choice
  | i, entry :: routes, choice => chooseFrom method segments (i + 1) routes (consider method segments choice i entry.1)

/-- A request with its route. -/
structure RoutedRequest extends Request where
  pattern : Text
  route : Route
  values : List Header
deriving DecidableEq, Repr

/-- The values of the names of a pattern. -/
def valuesOf (patterns segments : List Text) : List Header :=
  ((patterns.zip segments).filter fun pair => isName pair.1).map fun pair =>
    ⟨pair.1.tail.dropLast, decodeUrl pair.2⟩

/-- The value of a name, which is empty when there is none. -/
def RoutedRequest.pathValue (r : RoutedRequest) (name : Text) : Text :=
  ((r.values.find? fun v => v.name == name).map Header.value).getD []

/-- What `serve` does in the end: it calls a handler of a route, or the one for no route, or it answers itself. -/
inductive Served (H : Type) where
  | calls (handler : H) (w : ResponseWriter) (r : RoutedRequest)
  | callsNotFound (handler : H) (w : ResponseWriter) (r : Request)
  | answers (w : ResponseWriter)

/-- The texts with a comma between them. -/
def allowText : List Text → Text
  | [] => []
  | m :: methods => m ++ methods.flatMap (asciiBytes ", " ++ ·)

/-- The answer when no route matches. -/
def Router.noRoute (router : Router H) (w : ResponseWriter) (r : Request) : Served H :=
  match router.notFound with
  | some handler => .callsNotFound handler w r
  | none => .answers (w.error 404 (asciiBytes "Not Found"))

/-- The answer when only the methods don't match. -/
def notAllowed (w : ResponseWriter) (methods : List Text) : ResponseWriter :=
  (w.setHeader (asciiBytes "Allow") (allowText methods)).error 405 (asciiBytes "Method Not Allowed")

/-- The request that the handler of a route gets. -/
def Request.routed (r : Request) (route : Route) : RoutedRequest :=
  { r with pattern := route.pattern, route, values := valuesOf route.segments (pathSegments r.path) }

/-- `serve`. None is an index outside of the routes. -/
def Router.serve (router : Router H) (w : ResponseWriter) (r : Request) : Option (Served H) :=
  let choice := chooseFrom r.method (pathSegments r.path) 0 router.routes {}
  match choice.best with
  | none => some (if choice.pathMatched then .answers (notAllowed w choice.allowed) else router.noRoute w r)
  | some best => do
    let entry ← router.routes[best]?
    some (.calls entry.2 w (r.routed entry.1))

end Serving

end Saad.Http

/-! # The route of a request

The route that `serve` chooses, and what it answers without one.
-/

namespace Saad.Http

open General

section Matching

/-- A segment of a pattern matches one of a path. -/
def SegmentMatches (pattern segment : Text) : Prop := isName pattern = true ∨ pattern = segment

/-- The segments of a pattern match those of a path, or the first ones when the pattern ends with /. -/
def Route.MatchesPath (route : Route) (segments : List Text) : Prop :=
  ∃ front rest, segments = front ++ rest ∧ List.Forall₂ SegmentMatches route.segments front ∧
    (route.isPrefix = false → rest = [])

/-- The segments that are written out. -/
def literals (patterns : List Text) : ℕ := patterns.countP fun pattern => !isName pattern

/-- What a route counts that matches the whole path, or the first part of it. -/
def Route.pathScore (route : Route) : ℤ := 2 * literals route.segments + if route.isPrefix then 0 else 1000

variable {route : Route} {patterns front rest segments : List Text} {n : ℤ}

theorem scoreFrom_of_matches (matched : List.Forall₂ SegmentMatches patterns front) :
    scoreFrom patterns (front ++ rest) n = some (n + 2 * literals patterns) := by
  induction matched generalizing n with
  | nil => simp [scoreFrom, literals]
  | @cons pattern segment patterns front here others ih =>
    rw [List.cons_append, scoreFrom]
    by_cases name : isName pattern = true
    · rw [if_pos name, ih, literals, literals, List.countP_cons_of_neg (by simp [name])]
    · obtain rfl := here.resolve_left name
      rw [if_neg name, if_neg (not_not.mpr rfl), ih, literals, literals, List.countP_cons_of_pos (by simp [name])]
      push_cast
      congr 1
      ring

theorem matches_of_scoreFrom (shorter : patterns.length ≤ segments.length) {m : ℤ}
    (scores : scoreFrom patterns segments n = some m) :
    List.Forall₂ SegmentMatches patterns (segments.take patterns.length) := by
  induction patterns generalizing segments n with
  | nil => exact .nil
  | cons pattern patterns ih =>
    cases segments with
    | nil => simp at shorter
    | cons segment segments =>
      rw [List.length_cons, List.length_cons] at shorter
      rw [scoreFrom] at scores
      rw [List.length_cons, List.take_succ_cons]
      split at scores
      · next name => exact .cons (.inl name) (ih (by omega) scores)
      · split at scores
        · cases scores
        · next same => exact .cons (.inr (not_not.mp same)) (ih (by omega) scores)

theorem matchScore_of_matches (matched : route.MatchesPath segments) : matchScore route segments = route.pathScore := by
  obtain ⟨front, rest, rfl, pairs, whole⟩ := matched
  have length := pairs.length_eq
  rw [matchScore, Route.pathScore, if_neg (by rw [List.length_append]; omega), scoreFrom_of_matches pairs, zero_add]
  cases isPrefix : route.isPrefix with
  | true => simp
  | false =>
    rw [whole isPrefix, List.append_nil]
    simp [length]

theorem matchScore_neg (other : ¬route.MatchesPath segments) : matchScore route segments = -1 := by
  unfold matchScore
  split
  · rfl
  · next long =>
    split
    · rfl
    · next whole =>
      split
      · rfl
      · next m scores =>
        exfalso
        apply other
        refine ⟨_, _, (List.take_append_drop route.segments.length segments).symm,
          matches_of_scoreFrom (by omega) scores, fun isPrefix => ?_⟩
        have same : route.segments.length = segments.length := by simpa [isPrefix] using whole
        rw [same, List.drop_length]

theorem pathScore_nonneg : 0 ≤ route.pathScore := by
  rw [Route.pathScore]
  split <;> omega

theorem matchesPath_iff : route.MatchesPath segments ↔ ¬matchScore route segments < 0 := by
  constructor
  · intro matched
    rw [matchScore_of_matches matched]
    exact not_lt.mpr pathScore_nonneg
  · intro positive
    by_contra other
    rw [matchScore_neg other] at positive
    exact positive (by decide)

end Matching

section Choosing

variable {H : Type} {method : Text} {segments : List Text} {before routes : List (Route × H)} {choice : Choice}

/-- What a route counts: segments that are written out, the whole path, and a method. -/
def Route.rank (route : Route) : ℤ := route.pathScore + if 0 < route.method.length then 1 else 0

/-- The path and the method of a request match the route. -/
def Route.Takes (route : Route) (method : Text) (segments : List Text) : Prop :=
  route.MatchesPath segments ∧ methodMatches route method = true

/-- Only the path matches. -/
def Route.Refuses (route : Route) (method : Text) (segments : List Text) : Prop :=
  route.MatchesPath segments ∧ methodMatches route method = false

variable (method segments) in
/-- The first route of those with the greatest rank. -/
def FirstRoute (routes : List (Route × H)) (i : ℕ) (entry : Route × H) : Prop :=
  FirstBest (fun entry => entry.1.Takes method segments) (fun entry => entry.1.rank) routes i entry

variable (method segments) in
/-- What the loop knows behind some of the routes. -/
structure Considered (before : List (Route × H)) (choice : Choice) : Prop where
  best : (choice.best = none ∧ choice.bestScore = -1 ∧ ∀ entry ∈ before, ¬entry.1.Takes method segments) ∨
    ∃ i entry, choice.best = some i ∧ choice.bestScore = entry.1.rank ∧ FirstRoute method segments before i entry
  pathMatched : choice.pathMatched = true ↔ ∃ entry ∈ before, entry.1.Refuses method segments
  nodup : choice.allowed.Nodup
  allowed : ∀ m, m ∈ choice.allowed ↔ ∃ entry ∈ before, entry.1.Refuses method segments ∧ entry.1.method = m

theorem considered_nil : Considered method segments ([] : List (Route × H)) {} where
  best := .inl ⟨rfl, rfl, by simp⟩
  pathMatched := by simp
  nodup := List.nodup_nil
  allowed := by simp

theorem exists_mem_append_singleton {P : Route × H → Prop} {entry : Route × H} :
    (∃ e ∈ before ++ [entry], P e) ↔ (∃ e ∈ before, P e) ∨ P entry := by
  simp only [List.mem_append, List.mem_singleton, or_and_right, exists_or, exists_eq_left]

/-- A route that isn't taken keeps the best one. -/
theorem Considered.best_keep (considered : Considered method segments before choice) {entry : Route × H}
    (other : ¬entry.1.Takes method segments) :
    (choice.best = none ∧ choice.bestScore = -1 ∧ ∀ e ∈ before ++ [entry], ¬e.1.Takes method segments) ∨
      ∃ i e, choice.best = some i ∧ choice.bestScore = e.1.rank ∧ FirstRoute method segments (before ++ [entry]) i e := by
  obtain ⟨none, score, all⟩ | ⟨i, e, some, score, first⟩ := considered.best
  · refine .inl ⟨none, score, fun e member => ?_⟩
    obtain member | member := List.mem_append.mp member
    · exact all e member
    · obtain rfl := List.mem_singleton.mp member
      exact other
  · exact .inr ⟨i, e, some, score, first.keep fun takes => absurd takes other⟩

/-- One turn of the loop. -/
theorem Considered.consider (considered : Considered method segments before choice) (entry : Route × H) :
    Considered method segments (before ++ [entry]) (consider method segments choice before.length entry.1) := by
  unfold Http.consider
  dsimp only
  by_cases negative : matchScore entry.1 segments < 0
  · have other : ¬entry.1.MatchesPath segments := fun matched => matchesPath_iff.mp matched negative
    rw [if_pos negative]
    refine ⟨considered.best_keep fun takes => other takes.1, ?_, considered.nodup, fun m => ?_⟩
    · rw [exists_mem_append_singleton, considered.pathMatched, or_iff_left fun refuses => other refuses.1]
    · rw [exists_mem_append_singleton, considered.allowed, or_iff_left fun refuses => other refuses.1.1]
  have matched := matchesPath_iff.mpr negative
  rw [if_neg negative]
  cases matchesMethod : methodMatches entry.1 method with
  | false =>
    have refuses : entry.1.Refuses method segments := ⟨matched, matchesMethod⟩
    have other : ¬entry.1.Takes method segments := fun takes => by simp [takes.2] at matchesMethod
    rw [if_pos (by simp)]
    refine ⟨considered.best_keep other, ?_, ?_, fun m => ?_⟩
    · simp only [true_iff]
      exact ⟨entry, by simp, refuses⟩
    · dsimp only
      split
      · exact considered.nodup
      · next absent =>
        rw [List.contains_iff_mem] at absent
        rw [← List.concat_eq_append]
        exact considered.nodup.concat absent
    · dsimp only
      rw [exists_mem_append_singleton, ← considered.allowed]
      split
      · next present =>
        rw [List.contains_iff_mem] at present
        constructor
        · exact .inl
        · rintro (member | ⟨-, rfl⟩)
          · exact member
          · exact present
      · rw [List.mem_append, List.mem_singleton]
        constructor
        · rintro (member | rfl)
          · exact .inl member
          · exact .inr ⟨refuses, rfl⟩
        · rintro (member | ⟨-, rfl⟩)
          · exact .inl member
          · exact .inr rfl
  | true =>
    have takes : entry.1.Takes method segments := ⟨matched, matchesMethod⟩
    have other : ¬entry.1.Refuses method segments := fun refuses => by simp [refuses.2] at matchesMethod
    have score : (if 0 < entry.1.method.length then matchScore entry.1 segments + 1 else matchScore entry.1 segments) =
        entry.1.rank := by
      rw [matchScore_of_matches matched, Route.rank]
      split
      · rfl
      · rw [add_zero]
    have positive : 0 ≤ entry.1.rank := by
      have low := @pathScore_nonneg entry.1
      rw [Route.rank]
      split <;> omega
    rw [if_neg (by simp), score]
    have matchedBefore : choice.pathMatched = true ↔ ∃ e ∈ before ++ [entry], e.1.Refuses method segments := by
      rw [exists_mem_append_singleton, considered.pathMatched, or_iff_left other]
    have allowedBefore : ∀ m, m ∈ choice.allowed ↔
        ∃ e ∈ before ++ [entry], e.1.Refuses method segments ∧ e.1.method = m := by
      intro m
      rw [exists_mem_append_singleton, considered.allowed, or_iff_left fun refuses => other refuses.1]
    split
    · next better =>
      refine ⟨.inr ⟨before.length, entry, rfl, rfl, FirstBest.take takes fun e member taken => ?_⟩, matchedBefore,
        considered.nodup, allowedBefore⟩
      obtain ⟨-, -, all⟩ | ⟨i, best, -, score, first⟩ := considered.best
      · exact absurd taken (all e member)
      · rw [score] at better
        exact lt_of_le_of_lt (first.best e member taken) better
    · next worse =>
      refine ⟨?_, matchedBefore, considered.nodup, allowedBefore⟩
      obtain ⟨-, score, -⟩ | ⟨i, best, some, score, first⟩ := considered.best
      · rw [score] at worse
        omega
      · exact .inr ⟨i, best, some, score, first.keep fun _ => by
          rw [score] at worse
          exact not_lt.mp worse⟩

/-- The whole loop. -/
theorem Considered.chooseFrom (considered : Considered method segments before choice) :
    Considered method segments (before ++ routes) (chooseFrom method segments before.length routes choice) := by
  induction routes generalizing before choice with
  | nil =>
    rw [List.append_nil]
    exact considered
  | cons entry routes ih =>
    have behind := ih (considered.consider entry)
    rw [List.append_assoc, List.singleton_append, List.length_append, List.length_singleton] at behind
    exact behind

theorem considered_chooseFrom : Considered method segments routes (chooseFrom method segments 0 routes {}) := by
  have whole := @Considered.chooseFrom H method segments [] routes {} considered_nil
  rwa [List.nil_append] at whole

end Choosing

section Values

variable {patterns segments : List Text} {name segment : Text} {i : ℕ}

/-- A segment of a pattern for a name. -/
def braced (name : Text) : Text := byteOf '{' :: name ++ [byteOf '}']

theorem isName_braced (name : Text) : isName (braced name) = true := by
  rw [isName, Bool.and_eq_true]
  constructor
  · exact List.isPrefixOf_iff_prefix.mpr ⟨name ++ [byteOf '}'], rfl⟩
  · exact List.isSuffixOf_iff_suffix.mpr ⟨byteOf '{' :: name, rfl⟩

theorem name_braced (name : Text) : (braced name).tail.dropLast = name := by
  rw [braced, List.cons_append, List.tail_cons, List.dropLast_concat]

/-- Only a name in braces gives its text. -/
theorem eq_braced {pattern : Text} (isNamed : isName pattern = true) : pattern = braced pattern.tail.dropLast := by
  rw [isName, Bool.and_eq_true] at isNamed
  obtain ⟨rest, front⟩ := List.isPrefixOf_iff_prefix.mp isNamed.1
  obtain ⟨most, back⟩ := List.isSuffixOf_iff_suffix.mp isNamed.2
  cases most with
  | nil =>
    have other : byteOf '{' = byteOf '}' := by
      rw [← front] at back
      exact (List.cons_eq_cons.mp back).1.symm
    exact absurd other (by decide)
  | cons first most =>
    rw [← front] at back
    obtain ⟨rfl, others⟩ := List.cons_eq_cons.mp back
    rw [← front, ← back, braced]
    simp

theorem valuesOf_named {pattern : Text} (named : isName pattern = true) :
    valuesOf (pattern :: patterns) (segment :: segments) =
      ⟨pattern.tail.dropLast, decodeUrl segment⟩ :: valuesOf patterns segments := by
  simp [valuesOf, named]

theorem valuesOf_other {pattern : Text} (other : isName pattern = false) :
    valuesOf (pattern :: patterns) (segment :: segments) = valuesOf patterns segments := by
  simp [valuesOf, other]

/-- A name has the decoded segment at its place, if it is the first one with the name. -/
theorem find?_valuesOf (here : patterns[i]? = some (braced name)) (segmentHere : segments[i]? = some segment)
    (first : ∀ j < i, patterns[j]? ≠ some (braced name)) :
    (valuesOf patterns segments).find? (fun v => v.name == name) = some ⟨name, decodeUrl segment⟩ := by
  induction i generalizing patterns segments with
  | zero =>
    cases patterns with
    | nil => cases here
    | cons pattern patterns =>
      cases segments with
      | nil => cases segmentHere
      | cons s segments =>
        cases here
        cases segmentHere
        rw [valuesOf_named (isName_braced name), name_braced, List.find?_cons_of_pos (by simp)]
  | succ i ih =>
    cases patterns with
    | nil => cases here
    | cons pattern patterns =>
      cases segments with
      | nil => cases segmentHere
      | cons s segments =>
        rw [List.getElem?_cons_succ] at here segmentHere
        have behind := ih here segmentHere fun j before at_j => first (j + 1) (by omega) at_j
        have other : pattern ≠ braced name := fun same => first 0 (by omega) (by rw [same]; rfl)
        cases named : isName pattern with
        | true =>
          have differs : pattern.tail.dropLast ≠ name := by
            intro same
            apply other
            rw [← same]
            exact eq_braced named
          rw [valuesOf_named named, List.find?_cons_of_neg (by simpa using differs)]
          exact behind
        | false =>
          rw [valuesOf_other named]
          exact behind

end Values

section Orders

variable {H : Type} {router registered : Router H} {patterns others : List (Text × H)}

/-- The routes of patterns. -/
def routesOf (patterns : List (Text × H)) : List (Route × H) :=
  patterns.filterMap fun entry => (handle entry.1).map fun route => (route, entry.2)

theorem routes_handleAll (registers : router.handleAll patterns = some registered) :
    registered = { router with routes := router.routes ++ routesOf patterns } := by
  induction patterns generalizing router with
  | nil =>
    cases registers
    rw [routesOf, List.filterMap_nil, List.append_nil]
  | cons entry patterns ih =>
    rw [Router.handleAll, List.foldlM_cons] at registers
    obtain ⟨middle, first, behind⟩ := Option.bind_eq_some_iff.mp registers
    obtain ⟨route, handles, rfl⟩ := Option.map_eq_some_iff.mp first
    rw [ih behind, routesOf, routesOf, List.filterMap_cons_some (by rw [handles]; rfl), List.append_assoc,
      List.singleton_append]

end Orders

section Right

variable {H : Type} {router : Router H} {w : ResponseWriter} {r : Request} {entry : Route × H}

/-- A route has been chosen right, and the handler is called with its values. -/
structure RightRoute (router : Router H) (r : Request) (entry : Route × H) (routed : RoutedRequest) : Prop where
  mem : entry ∈ router.routes
  takes : entry.1.Takes r.method (pathSegments r.path)
  /-- Only a match of the whole path goes before more segments that are written out. -/
  most : ∀ other ∈ router.routes, other.1.Takes r.method (pathSegments r.path) →
    literals other.1.segments ≤ literals entry.1.segments ∨ entry.1.isPrefix = false ∧ other.1.isPrefix = true
  rank : ∀ other ∈ router.routes, other.1.Takes r.method (pathSegments r.path) → other.1.rank ≤ entry.1.rank
  request : routed.toRequest = r ∧ routed.pattern = entry.1.pattern ∧ routed.route = entry.1
  values : ∀ (i : ℕ) (name : Text), entry.1.segments[i]? = some (braced name) →
    (∀ j < i, entry.1.segments[j]? ≠ some (braced name)) →
    ∃ segment, (pathSegments r.path)[i]? = some segment ∧ routed.pathValue name = decodeUrl segment

/-- The routes that match the path are for other methods, which are all allowed. -/
def RightMethods (router : Router H) (r : Request) (methods : List Text) : Prop :=
  methods.Nodup ∧ ∀ m, m ∈ methods ↔
    ∃ entry ∈ router.routes, entry.1.MatchesPath (pathSegments r.path) ∧ entry.1.method = m

theorem takes_or_refuses {route : Route} {method : Text} {segments : List Text} (matched : route.MatchesPath segments) :
    route.Takes method segments ∨ route.Refuses method segments := by
  cases is : methodMatches route method with
  | true => exact .inl ⟨matched, is⟩
  | false => exact .inr ⟨matched, is⟩

/-- The greatest rank is that of the most segments, but for a match of the whole path. -/
theorem literals_of_rank {route other : Route} (le : other.rank ≤ route.rank) :
    literals other.segments ≤ literals route.segments ∨ route.isPrefix = false ∧ other.isPrefix = true := by
  by_contra neither
  rw [not_or, not_le, not_and] at neither
  obtain ⟨more, kinds⟩ := neither
  have score : other.pathScore ≤ route.pathScore + 1 := by
    rw [Route.rank, Route.rank] at le
    split at le <;> split at le <;> omega
  rw [Route.pathScore, Route.pathScore] at score
  cases isPrefix : route.isPrefix with
  | true =>
    rw [isPrefix] at score
    split at score <;> simp at score <;> omega
  | false =>
    rw [isPrefix, if_neg (kinds isPrefix)] at score
    simp at score
    omega

theorem values_right {segments : List Text} (matched : entry.1.MatchesPath segments) {routed : RoutedRequest}
    (values : routed.values = valuesOf entry.1.segments segments) {i : ℕ} {name : Text}
    (here : entry.1.segments[i]? = some (braced name)) (first : ∀ j < i, entry.1.segments[j]? ≠ some (braced name)) :
    ∃ segment, segments[i]? = some segment ∧ routed.pathValue name = decodeUrl segment := by
  obtain ⟨front, rest, rfl, pairs, -⟩ := matched
  have inside : i < (front ++ rest).length := by
    have bound := (List.getElem?_eq_some_iff.mp here).1
    rw [List.length_append, ← pairs.length_eq]
    omega
  refine ⟨_, List.getElem?_eq_getElem inside, ?_⟩
  rw [RoutedRequest.pathValue, values, find?_valuesOf here (List.getElem?_eq_getElem inside) first]
  rfl

variable (router r) in
theorem considered_routes : Considered r.method (pathSegments r.path) router.routes
    (chooseFrom r.method (pathSegments r.path) 0 router.routes {}) := considered_chooseFrom

/-- With a route that takes the request, the first of the best ones is called. -/
theorem serve_of_takes (w : ResponseWriter)
    (taken : ∃ entry ∈ router.routes, entry.1.Takes r.method (pathSegments r.path)) :
    ∃ i entry, FirstRoute r.method (pathSegments r.path) router.routes i entry ∧
      router.serve w r = some (.calls entry.2 w (r.routed entry.1)) := by
  obtain ⟨-, -, all⟩ | ⟨i, entry, best, -, first⟩ := (considered_routes router r).best
  · obtain ⟨entry, member, takes⟩ := taken
    exact absurd takes (all entry member)
  · refine ⟨i, entry, first, ?_⟩
    unfold Router.serve
    dsimp only
    rw [best]
    dsimp only
    rw [first.here]
    rfl

theorem serve_of_refuses (w : ResponseWriter)
    (none_takes : ∀ entry ∈ router.routes, ¬entry.1.Takes r.method (pathSegments r.path)) :
    router.serve w r = some (if (chooseFrom r.method (pathSegments r.path) 0 router.routes {}).pathMatched then
      .answers (notAllowed w (chooseFrom r.method (pathSegments r.path) 0 router.routes {}).allowed)
      else router.noRoute w r) := by
  obtain ⟨none, -, -⟩ | ⟨i, entry, -, -, first⟩ := (considered_routes router r).best
  · unfold Router.serve
    dsimp only
    rw [none]
  · exact absurd first.allows (none_takes entry first.mem)

theorem rightRoute {i : ℕ} (first : FirstRoute r.method (pathSegments r.path) router.routes i entry) :
    RightRoute router r entry (r.routed entry.1) where
  mem := first.mem
  takes := first.allows
  most := fun other member takes => literals_of_rank (first.best other member takes)
  rank := first.best
  request := ⟨rfl, rfl, rfl⟩
  values := fun _ _ here before => values_right first.allows.1 rfl here before

/-- The route that `serve` chooses has the greatest rank, and it is the same for every order of the patterns when no
other one has the rank. Without a route, the methods of those for the path are given, or there is no answer for it. -/
theorem serve_right {patterns : List (Text × H)} {notFound : Option H}
    (registers : Router.handleAll { notFound } patterns = some router) (w : ResponseWriter) (r : Request) :
    ((∃ entry ∈ router.routes, entry.1.Takes r.method (pathSegments r.path)) →
      ∃ entry routed, router.serve w r = some (.calls entry.2 w routed) ∧ RightRoute router r entry routed ∧
        ∀ (others : List (Text × H)) (registered : Router H), others.Perm patterns →
          Router.handleAll { notFound } others = some registered →
          (∀ other ∈ router.routes, other.1.Takes r.method (pathSegments r.path) → other.1.rank = entry.1.rank →
            other = entry) →
          registered.serve w r = router.serve w r) ∧
    ((∀ entry ∈ router.routes, ¬entry.1.Takes r.method (pathSegments r.path)) →
      (∃ entry ∈ router.routes, entry.1.MatchesPath (pathSegments r.path)) →
      ∃ methods, router.serve w r = some (.answers (notAllowed w methods)) ∧ RightMethods router r methods) ∧
    ((∀ entry ∈ router.routes, ¬entry.1.MatchesPath (pathSegments r.path)) →
      router.serve w r = some (router.noRoute w r)) := by
  have considered := considered_routes router r
  refine ⟨fun taken => ?_, fun none_takes some_matches => ?_, fun none_matches => ?_⟩
  · obtain ⟨i, entry, first, serves⟩ := serve_of_takes w taken
    refine ⟨entry, r.routed entry.1, serves, rightRoute first, fun others registered perm registers' only => ?_⟩
    have routes : registered.routes.Perm router.routes := by
      rw [routes_handleAll registers, routes_handleAll registers']
      exact perm.filterMap _
    have taken' : ∃ entry ∈ registered.routes, entry.1.Takes r.method (pathSegments r.path) :=
      ⟨entry, routes.mem_iff.mpr first.mem, first.allows⟩
    obtain ⟨j, entry', first', serves'⟩ := serve_of_takes w taken'
    obtain rfl := first.eq_of_perm first' routes only
    rw [serves, serves']
  · have refuses : ∀ entry ∈ router.routes, entry.1.MatchesPath (pathSegments r.path) →
        entry.1.Refuses r.method (pathSegments r.path) := by
      intro entry member matched
      exact (takes_or_refuses matched).resolve_left (none_takes entry member)
    obtain ⟨entry, member, matched⟩ := some_matches
    refine ⟨_, ?_, considered.nodup, fun m => ?_⟩
    · rw [serve_of_refuses w none_takes, if_pos (considered.pathMatched.mpr ⟨entry, member, refuses entry member matched⟩)]
    · rw [considered.allowed]
      constructor
      · rintro ⟨entry, member, refused, same⟩
        exact ⟨entry, member, refused.1, same⟩
      · rintro ⟨entry, member, matched, same⟩
        exact ⟨entry, member, refuses entry member matched, same⟩
  · rw [serve_of_refuses w fun entry member takes => none_matches entry member takes.1, if_neg]
    intro matched
    obtain ⟨entry, member, refuses⟩ := considered.pathMatched.mp matched
    exact none_matches entry member refuses.1

/-- A prefix, and a name in its place. -/
def aboutPatterns : List (Text × ℕ) := [(asciiBytes "/about/", 0), (asciiBytes "/\x7bpage\x7d", 1)]

def aboutPrefix : Route where
  pattern := asciiBytes "/about/"
  segments := [asciiBytes "about"]
  isPrefix := true

def aboutName : Route where
  pattern := asciiBytes "/\x7bpage\x7d"
  segments := [braced (asciiBytes "page")]

def aboutRouter : Router ℕ := { routes := [(aboutPrefix, 0), (aboutName, 1)] }

theorem handleAll_aboutPatterns : Router.handleAll {} aboutPatterns = some aboutRouter := by
  have first : handle (asciiBytes "/about/") = some aboutPrefix := by decide +kernel
  have second : handle (asciiBytes "/\x7bpage\x7d") = some aboutName := by decide +kernel
  rw [Router.handleAll, aboutPatterns, List.foldlM_cons, Router.handle, first, Option.map_some, Option.bind_eq_bind,
    Option.bind_some, List.foldlM_cons, Router.handle, second]
  rfl

def aboutRequest : Request where
  method := asciiBytes "GET"
  path := asciiBytes "/about"

theorem pathSegments_aboutRequest : pathSegments aboutRequest.path = [asciiBytes "about"] := by decide +kernel

theorem serve_right_about :
    ((∃ entry ∈ aboutRouter.routes, entry.1.Takes aboutRequest.method (pathSegments aboutRequest.path)) →
      ∃ entry routed, aboutRouter.serve {} aboutRequest = some (.calls entry.2 {} routed) ∧
        RightRoute aboutRouter aboutRequest entry routed ∧
        ∀ (others : List (Text × ℕ)) (registered : Router ℕ), others.Perm aboutPatterns →
          Router.handleAll {} others = some registered →
          (∀ other ∈ aboutRouter.routes, other.1.Takes aboutRequest.method (pathSegments aboutRequest.path) →
            other.1.rank = entry.1.rank → other = entry) →
          registered.serve {} aboutRequest = aboutRouter.serve {} aboutRequest) ∧
    ((∀ entry ∈ aboutRouter.routes, ¬entry.1.Takes aboutRequest.method (pathSegments aboutRequest.path)) →
      (∃ entry ∈ aboutRouter.routes, entry.1.MatchesPath (pathSegments aboutRequest.path)) →
      ∃ methods, aboutRouter.serve {} aboutRequest = some (.answers (notAllowed {} methods)) ∧
        RightMethods aboutRouter aboutRequest methods) ∧
    ((∀ entry ∈ aboutRouter.routes, ¬entry.1.MatchesPath (pathSegments aboutRequest.path)) →
      aboutRouter.serve {} aboutRequest = some (aboutRouter.noRoute {} aboutRequest)) :=
  serve_right handleAll_aboutPatterns {} aboutRequest

/-- `/about` goes to `/{page}`, and not to `/about/`, which has a segment more that is written out. -/
theorem not_most_literals : ¬∀ (patterns : List (Text × ℕ)) (router : Router ℕ) (w : ResponseWriter) (r : Request),
    Router.handleAll {} patterns = some router →
    (∃ entry ∈ router.routes, entry.1.Takes r.method (pathSegments r.path)) →
    ∃ entry ∈ router.routes, ∃ routed, router.serve w r = some (.calls entry.2 w routed) ∧
      ∀ other ∈ router.routes, other.1.Takes r.method (pathSegments r.path) →
        literals other.1.segments ≤ literals entry.1.segments := by
  intro all
  have isPrefix : (aboutPrefix, 0) ∈ aboutRouter.routes := List.mem_cons_self
  have isName : (aboutName, 1) ∈ aboutRouter.routes := List.mem_cons_of_mem _ List.mem_cons_self
  have takesPrefix : aboutPrefix.Takes aboutRequest.method (pathSegments aboutRequest.path) := by
    rw [pathSegments_aboutRequest]
    exact ⟨⟨[asciiBytes "about"], [], rfl, .cons (.inr rfl) .nil, fun _ => rfl⟩, by decide⟩
  have takesName : aboutName.Takes aboutRequest.method (pathSegments aboutRequest.path) := by
    rw [pathSegments_aboutRequest]
    exact ⟨⟨[asciiBytes "about"], [], rfl, .cons (.inl (isName_braced _)) .nil, fun _ => rfl⟩, by decide⟩
  have taken : ∃ entry ∈ aboutRouter.routes, entry.1.Takes aboutRequest.method (pathSegments aboutRequest.path) :=
    ⟨_, isPrefix, takesPrefix⟩
  obtain ⟨entry, member, routed, serves, most⟩ :=
    all aboutPatterns aboutRouter {} aboutRequest handleAll_aboutPatterns taken
  obtain ⟨i, best, first, serves'⟩ := serve_of_takes {} taken
  rw [serves'] at serves
  have same : best.2 = entry.2 := by
    injection serves with serves
    injection serves
  have rank := first.best _ isName takesName
  have more := most _ isPrefix takesPrefix
  have inside := first.mem
  rw [aboutRouter] at inside member
  simp only [List.mem_cons, List.not_mem_nil, or_false] at inside member
  obtain rfl | rfl := inside
  · revert rank
    decide
  · obtain rfl | rfl := member
    · revert same
      decide
    · revert more
      decide

end Right

end Saad.Http
