import Saad.Http.Message

/-! # The files of a folder

The path of a file is the folder and the segments of the request behind those of the route. A segment
is split off before it is decoded, and checked after.
-/

namespace Saad.Http

structure Route where
  pattern : Text
  method : Text := []
  segments : List Text := []
  isPrefix : Bool := false
  folder : Text := []
deriving DecidableEq, Repr

section Routes

/-- The segments of a path, without the empty ones. -/
def pathSegments (path : Text) : List Text := (split path [byteOf '/']).filter (· ≠ [])

/-- `handle`, which has no route for a path that doesn't start with a slash. -/
def handle (pattern : Text) : Option Route :=
  let (method, path) := match indexOf pattern [byteOf ' '] with
    | some space => (pattern.take space, trimSpaces (pattern.drop (space + 1)))
    | none => ([], pattern)
  if !startsWith path [byteOf '/'] then none
  else if endsWith path (asciiBytes "/\x7b$\x7d") then
    some { pattern, method, segments := pathSegments (path.take (path.length - 3)), isPrefix := false }
  else
    some { pattern, method, segments := pathSegments path, isPrefix := endsWith path [byteOf '/'] }

def handleFiles (urlPrefix folder : Text) : Option Route :=
  let pattern := if endsWith urlPrefix [byteOf '/'] then urlPrefix else urlPrefix ++ [byteOf '/']
  (handle (asciiBytes "GET " ++ pattern)).map fun route => { route with folder }

end Routes

section Paths

/-- A decoded segment that no file has. -/
def refusedSegment (segment : Text) : Bool :=
  segment == asciiBytes ".." || segment == asciiBytes "." || (indexOf segment [byteOf '\\']).isSome

/-- The decoded segments, one after the other, or none when one of them is refused. -/
def addSegments (path : Text) : List Text → Option Text
  | [] => some path
  | segment :: rest =>
    let segment := decodeUrl segment
    if refusedSegment segment then none else addSegments (path ++ byteOf '/' :: segment) rest

def filePath (route : Route) (r : Request) : Option Text :=
  let segments := pathSegments r.path
  if segments.length ≤ route.segments.length then none
  else addSegments route.folder (segments.drop route.segments.length)

/-- Both separate the parts of a path, on one system or the other. -/
def isSeparator (c : BitVec 8) : Bool := c == byteOf '/' || c == byteOf '\\'

def isDots (component : Text) : Prop := component = asciiBytes ".." ∨ component = asciiBytes "."

/-- The path goes on from the folder, and nothing in it leads back. -/
def Below (folder path : Text) : Prop :=
  ∃ rest, path = folder ++ rest ∧ ∀ component ∈ rest.splitOnP isSeparator, ¬isDots component

/-- Dots between slashes that were escaped, e.g. `..%2F..`. -/
def HidesDots (segment : Text) : Prop :=
  byteOf '/' ∈ decodeUrl segment ∧
    ∃ component ∈ (decodeUrl segment).splitOnP isSeparator, isDots component

/-- What the segments add to the folder. -/
def behindFolder (segments : List Text) : Text :=
  segments.flatMap fun segment => byteOf '/' :: decodeUrl segment

theorem addSegments_eq (path : Text) (segments : List Text) :
    addSegments path segments =
      if segments.any fun segment => refusedSegment (decodeUrl segment) then none
      else some (path ++ behindFolder segments) := by
  induction segments generalizing path with
  | nil => simp [addSegments, behindFolder]
  | cons segment rest ih =>
    rw [addSegments, ih]
    cases refused : refusedSegment (decodeUrl segment) with
    | true => simp [refused]
    | false => simp [refused, behindFolder]

theorem splitOnP_behindFolder (first : Text) (segments : List Text) :
    (first ++ behindFolder segments).splitOnP isSeparator =
      first.splitOnP isSeparator ++
        segments.flatMap fun segment => (decodeUrl segment).splitOnP isSeparator := by
  induction segments generalizing first with
  | nil => simp [behindFolder]
  | cons segment rest ih =>
    have unfolded : first ++ behindFolder (segment :: rest) =
        first ++ byteOf '/' :: (decodeUrl segment ++ behindFolder rest) := by
      simp [behindFolder]
    rw [unfolded, List.splitOnP_append_cons _ _ (by decide), ih, List.flatMap_cons]

/-- A segment that isn't refused leads back only by dots between slashes of its own. -/
theorem hidesDots_of_accepted {segment component : Text}
    (accepted : refusedSegment (decodeUrl segment) = false)
    (member : component ∈ (decodeUrl segment).splitOnP isSeparator) (dots : isDots component) :
    HidesDots segment := by
  refine ⟨?_, component, member, dots⟩
  by_contra no_slash
  simp only [refusedSegment, Bool.or_eq_false_iff, beq_eq_false_iff_ne, Option.isSome_eq_false_iff,
    Option.isNone_iff_eq_none, indexOf_char_eq_none_iff] at accepted
  obtain ⟨⟨not_two, not_one⟩, no_backslash⟩ := accepted
  rw [List.splitOnP_eq_singleton] at member
  · obtain rfl := List.mem_singleton.mp member
    obtain two | one := dots
    · exact not_two two
    · exact not_one one
  · intro c c_member
    rw [isSeparator, Bool.or_eq_false_iff, beq_eq_false_iff_ne, beq_eq_false_iff_ne]
    constructor
    · rintro rfl
      exact no_slash c_member
    · rintro rfl
      exact no_backslash c_member

/-- The segments of the request behind those of the route. -/
def segmentsBehind (route : Route) (r : Request) : List Text :=
  (pathSegments r.path).drop route.segments.length

theorem filePath_eq_some_iff {route : Route} {r : Request} {path : Text} :
    filePath route r = some path ↔
      segmentsBehind route r ≠ [] ∧
        (∀ segment ∈ segmentsBehind route r, refusedSegment (decodeUrl segment) = false) ∧
        path = route.folder ++ behindFolder (segmentsBehind route r) := by
  have empty_iff : segmentsBehind route r = [] ↔
      (pathSegments r.path).length ≤ route.segments.length := List.drop_eq_nil_iff
  rw [filePath]
  split
  · next few =>
    constructor
    · rintro ⟨⟩
    · rintro ⟨nonempty, -⟩
      exact absurd (empty_iff.mpr few) nonempty
  · next more =>
    have nonempty : segmentsBehind route r ≠ [] := fun empty => more (empty_iff.mp empty)
    change addSegments route.folder (segmentsBehind route r) = some path ↔ _
    rw [addSegments_eq]
    split
    · next refused =>
      obtain ⟨segment, member, refuses⟩ := List.any_eq_true.mp refused
      constructor
      · rintro ⟨⟩
      · rintro ⟨-, accepted, -⟩
        rw [accepted segment member] at refuses
        cases refuses
    · next accepted =>
      rw [Bool.not_eq_true, List.any_eq_false] at accepted
      constructor
      · rintro ⟨⟩
        exact ⟨nonempty, fun segment member => Bool.eq_false_iff.mpr (accepted segment member), rfl⟩
      · rintro ⟨-, -, rfl⟩
        rfl

theorem components_behindFolder (segments : List Text) :
    (behindFolder segments).splitOnP isSeparator =
      [] :: segments.flatMap fun segment => (decodeUrl segment).splitOnP isSeparator :=
  splitOnP_behindFolder [] segments

/-- The path stays below the folder unless slashes that were escaped stand around dots. -/
theorem filePath_below_iff (route : Route) (r : Request) :
    (∀ path, filePath route r = some path → Below route.folder path) ↔
      (∃ segment ∈ segmentsBehind route r, refusedSegment (decodeUrl segment) = true) ∨
        ∀ segment ∈ segmentsBehind route r, ¬HidesDots segment := by
  constructor
  · intro below
    by_cases refused : ∃ segment ∈ segmentsBehind route r, refusedSegment (decodeUrl segment) = true
    · exact .inl refused
    right
    rintro segment member ⟨-, component, splits, dots⟩
    push Not at refused
    have accepted : ∀ segment ∈ segmentsBehind route r,
        refusedSegment (decodeUrl segment) = false := by
      intro segment member
      exact Bool.eq_false_iff.mpr (refused segment member)
    obtain ⟨rest, same, no_dots⟩ :=
      below _ (filePath_eq_some_iff.mpr ⟨List.ne_nil_of_mem member, accepted, rfl⟩)
    obtain rfl := List.append_cancel_left same
    rw [components_behindFolder] at no_dots
    apply no_dots component _ dots
    exact List.mem_cons_of_mem _ (List.mem_flatMap.mpr ⟨segment, member, splits⟩)
  · rintro condition path gives
    obtain ⟨-, accepted, rfl⟩ := filePath_eq_some_iff.mp gives
    refine ⟨_, rfl, ?_⟩
    intro component member dots
    rw [components_behindFolder] at member
    obtain rfl | member := List.mem_cons.mp member
    · obtain two | one := dots
      · exact absurd two (by decide)
      · exact absurd one (by decide)
    · obtain ⟨segment, segment_member, splits⟩ := List.mem_flatMap.mp member
      have hides := hidesDots_of_accepted (accepted segment segment_member) splits dots
      obtain ⟨refused, refused_member, refuses⟩ | none_hides := condition
      · rw [accepted refused refused_member] at refuses
        cases refuses
      · exact none_hides segment segment_member hides

/-- The files of `public` below `/static/`. -/
def staticFiles : Route where
  pattern := asciiBytes "GET /static/"
  method := asciiBytes "GET"
  segments := [asciiBytes "static"]
  isPrefix := true
  folder := asciiBytes "public"

def climbingRequest : Request where
  method := asciiBytes "GET"
  path := asciiBytes "/static/..%2F..%2Fetc%2Fpasswd"

/-- `public/../../etc/passwd` is given. -/
theorem climbingRequest_not_below :
    handleFiles (asciiBytes "/static/") (asciiBytes "public") = some staticFiles ∧
      ∃ path, filePath staticFiles climbingRequest = some path ∧
        ¬Below staticFiles.folder path := by
  refine ⟨by decide +kernel, asciiBytes "public/../../etc/passwd", by decide +kernel, ?_⟩
  rintro ⟨rest, same, no_dots⟩
  have behind : asciiBytes "public/../../etc/passwd" =
      staticFiles.folder ++ asciiBytes "/../../etc/passwd" := by decide
  obtain rfl := List.append_cancel_left (behind.symm.trans same)
  exact no_dots (asciiBytes "..") (by decide) (.inl rfl)

end Paths

end Saad.Http
