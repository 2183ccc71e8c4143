import Mathlib.Algebra.BigOperators.Group.List.Basic
import Mathlib.Algebra.GroupWithZero.Nat
import Saad.General.LevelSearch

/-! # Embedded members

The members and methods of a struct member with `@embed` can be used on the struct it is in, and a pointer to the struct
is a pointer to what it embeds. One search goes by levels and is for names, the other one goes depth first and is for the
offset of a struct.
-/

namespace Saad.Embedding

open General

section Structs

/-- A member of a struct, with the struct that it embeds, by value or as a pointer. -/
structure Member (S : Type) where
  name : String
  memberOffset : ℕ := 0
  embedded : Option S := none
  byPointer : Bool := false
deriving DecidableEq, Repr

/-- A struct with its members, and the names of its methods. -/
structure StructDefn (S : Type) where
  members : List (Member S) := []
  methods : List String := []
deriving DecidableEq, Repr

variable {S : Type} (structs : S → StructDefn S)

def structHasName (type : S) (name : String) : Bool :=
  (structs type).members.any (·.name == name) || (structs type).methods.contains name

def embedDepthLimit : ℕ := 8

/-- How many structs the search keeps of a level. -/
def levelLimit : ℕ := 64

end Structs

section Search

variable {S : Type} (structs : S → StructDefn S)

/-- A struct with the embedded members that are gone through to reach it. -/
structure Level (S : Type) where
  type : S
  path : List (Member S)
deriving DecidableEq, Repr

/-- The structs that a struct embeds. -/
def Level.embeds (level : Level S) : List (Level S) :=
  (structs level.type).members.filterMap fun member =>
    member.embedded.map fun embedded => ⟨embedded, level.path ++ [member]⟩

/-- What is found of a level, and the structs of the next one. -/
structure Visited (S : Type) where
  found : List (Level S) := []
  next : List (Level S) := []

def Visited.visit (name : String) (visited : Visited S) (level : Level S) : Visited S :=
  if structHasName structs level.type name then { visited with found := visited.found ++ [level] }
  else if visited.next.length < levelLimit then { visited with next := visited.next ++ [level] }
  else visited

/-- Where a name leads: nowhere, to two embedded members at the same depth, or through embedded members. -/
inductive Access (S : Type) where
  | missing
  | ambiguous (first second : Option (Member S))
  | path (members : List (Member S))
deriving DecidableEq, Repr

def accessOf : List (Level S) → Access S
  | [] => .missing
  | [level] => .path level.path
  | first :: second :: _ => .ambiguous first.path.getLast? second.path.getLast?

/-- The loop of `find_embedded_path`, with the levels that are left. -/
def findEmbeddedPath (name : String) : ℕ → List (Level S) → Access S
  | 0, _ => .missing
  | depth + 1, current =>
    if current.isEmpty then .missing
    else
      let visited := (current.flatMap (Level.embeds structs)).foldl (Visited.visit structs name) {}
      match visited.found with
      | [] => findEmbeddedPath name depth visited.next
      | found => accessOf found

/-- A member access: to a member or method of the struct, or through embedded members. -/
def memberAccess (type : S) (name : String) : Access S :=
  if structHasName structs type name then .path [] else findEmbeddedPath structs name embedDepthLimit [⟨type, []⟩]

end Search

section Conversion

variable {S : Type} [DecidableEq S] (structs : S → StructDefn S)

/-- How far into the struct `outer` the embedded struct `inner` is, through embedded members by value. -/
def embeddedOffset (inner : S) : ℕ → S → Option ℕ
  | 0, outer => if outer = inner then some 0 else none
  | depth + 1, outer =>
    if outer = inner then some 0
    else
      (structs outer).members.findSome? fun member =>
        if member.byPointer then none
        else
          match member.embedded with
          | none => none
          | some embedded => (embeddedOffset inner depth embedded).map (member.memberOffset + ·)

/-- `convert_scalar` of a pointer to `outer` as a pointer to `inner`, or none if the types don't allow it. -/
def convertPointer (outer inner : S) (pointer : BitVec 64) : Option (BitVec 64) :=
  if outer = inner then some pointer
  else (embeddedOffset structs inner embedDepthLimit outer).map fun offset => pointer + BitVec.ofNat 64 offset

end Conversion

section Found

variable {S : Type} {structs : S → StructDefn S} {name : String}

theorem visit_foldl (levels : List (Level S)) (visited : Visited S) (full : visited.next.length ≤ levelLimit) :
    (levels.foldl (Visited.visit structs name) visited).found =
        visited.found ++ levels.filter (fun level => structHasName structs level.type name) ∧
      (levels.foldl (Visited.visit structs name) visited).next =
        (visited.next ++ levels.filter (fun level => !structHasName structs level.type name)).take levelLimit := by
  induction levels generalizing visited with
  | nil => simp [List.take_of_length_le full]
  | cons level levels ih =>
    rw [List.foldl_cons, Visited.visit]
    split
    · rename_i has
      obtain ⟨found, next⟩ := ih { visited with found := visited.found ++ [level] } full
      rw [found, next]
      simp [has]
    rename_i without
    split
    · rename_i room
      obtain ⟨found, next⟩ := ih { visited with next := visited.next ++ [level] } (by simp only [List.length_append, List.length_singleton]; omega)
      rw [found, next]
      simp [without]
    · rename_i no_room
      obtain ⟨found, next⟩ := ih visited full
      rw [found, next]
      have length : visited.next.length = levelLimit := by omega
      simp [without, length]

/-- Where no level is too wide, the search finds what the first level has. -/
theorem findEmbeddedPath_eq {depth : ℕ} {current : List (Level S)}
    (none : current.filter (fun level => structHasName structs level.type name) = [])
    (narrow : ∀ d, 1 ≤ d → d < depth →
      (∀ e ≤ d, (level (Level.embeds structs) e current).filter (fun level => structHasName structs level.type name) = []) →
      (level (Level.embeds structs) d current).length ≤ levelLimit) :
    findEmbeddedPath structs name depth current =
      accessOf (firstHits (Level.embeds structs) (fun level => structHasName structs level.type name) depth current) := by
  induction depth generalizing current with
  | zero =>
    rw [firstHits, none]
    rfl
  | succ depth ih =>
    rw [findEmbeddedPath, firstHits, if_pos none]
    cases current with
    | nil =>
      rw [List.flatMap_nil, firstHits_nil]
      rfl
    | cons first rest =>
      rw [if_neg (by simp)]
      obtain ⟨found, next⟩ : _ = _ ++ List.filter (fun level : Level S => structHasName structs level.type name) _ ∧ _ :=
        visit_foldl ((first :: rest).flatMap (Level.embeds structs)) {} (Nat.zero_le _)
      rw [List.nil_append] at found next
      dsimp only
      rw [found, next]
      generalize below_eq : (first :: rest).flatMap (Level.embeds structs) = below at found next ⊢
      cases hits : below.filter (fun level => structHasName structs level.type name) with
      | cons hit more =>
        rw [firstHits_of_ne_nil (by rw [hits]; exact List.cons_ne_nil hit more), hits]
      | nil =>
        have others : below.filter (fun level => !structHasName structs level.type name) = below := by
          rw [List.filter_eq_self]
          intro level mem
          have without := List.filter_eq_nil_iff.mp hits level mem
          simpa using without
        rw [others]
        cases depth with
        | zero =>
          rw [firstHits, hits]
          rfl
        | succ depth =>
          have fits : below.length ≤ levelLimit := by
            have one := narrow 1 (Nat.le_refl 1) (by omega) fun e le => ?_
            · rwa [level, level, below_eq] at one
            · obtain rfl | rfl : e = 0 ∨ e = 1 := by omega
              · exact none
              · rw [level, level, below_eq]
                exact hits
          rw [List.take_of_length_le fits]
          refine ih hits fun d positive less before => ?_
          rw [← below_eq]
          refine narrow (d + 1) (by omega) (by omega) fun e le => ?_
          cases e with
          | zero => exact none
          | succ e =>
            rw [level, below_eq]
            exact before e (by omega)

end Found

section Paths

variable {S : Type} (structs : S → StructDefn S)

/-- The embedded members that lead from a struct to another one. -/
inductive EmbedPath : S → List (Member S) → S → Prop
  | nil (s : S) : EmbedPath s [] s
  | cons (s t u : S) (member : Member S) (path : List (Member S)) : member ∈ (structs s).members →
      member.embedded = some t → EmbedPath t path u → EmbedPath s (member :: path) u

def byValue (path : List (Member S)) : Prop := ∀ member ∈ path, member.byPointer = false

/-- How far the members are into the struct. -/
def pathOffset (path : List (Member S)) : ℕ := (path.map (·.memberOffset)).sum

variable {structs}

variable [DecidableEq S]

/-- An offset is that of a path through members by value. -/
theorem path_of_embeddedOffset {inner outer : S} {depth offset : ℕ}
    (found : embeddedOffset structs inner depth outer = some offset) :
    ∃ path, EmbedPath structs outer path inner ∧ byValue path ∧ path.length ≤ depth ∧ offset = pathOffset path := by
  induction depth generalizing outer offset with
  | zero =>
    rw [embeddedOffset] at found
    split at found
    · rename_i same
      subst same
      cases found
      exact ⟨[], .nil outer, fun _ mem => (List.not_mem_nil mem).elim, Nat.le_refl 0, rfl⟩
    · cases found
  | succ depth ih =>
    rw [embeddedOffset] at found
    split at found
    · rename_i same
      subst same
      cases found
      exact ⟨[], .nil outer, fun _ mem => (List.not_mem_nil mem).elim, Nat.zero_le _, rfl⟩
    · obtain ⟨member, mem, is⟩ := List.exists_of_findSome?_eq_some found
      split at is
      · cases is
      rename_i value
      split at is
      · cases is
      rename_i embedded embeds
      obtain ⟨more, later, rfl⟩ := Option.map_eq_some_iff.mp is
      obtain ⟨path, leads, values, length, rfl⟩ := ih later
      refine ⟨member :: path, .cons outer embedded inner member path mem embeds leads, ?_, by simpa using length, ?_⟩
      · exact List.forall_mem_cons.mpr ⟨Bool.eq_false_iff.mpr value, values⟩
      · rw [pathOffset, pathOffset, List.map_cons, List.sum_cons]

/-- Where there is a path through members by value, there is an offset. -/
theorem embeddedOffset_isSome {inner outer : S} {depth : ℕ} {path : List (Member S)}
    (leads : EmbedPath structs outer path inner) (values : byValue path) (length : path.length ≤ depth) :
    (embeddedOffset structs inner depth outer).isSome := by
  induction leads generalizing depth with
  | nil s =>
    cases depth with
    | zero => rw [embeddedOffset, if_pos rfl]; rfl
    | succ depth => rw [embeddedOffset, if_pos rfl]; rfl
  | cons s t u member path mem embeds _ ih =>
    cases depth with
    | zero => simp at length
    | succ depth =>
      rw [embeddedOffset]
      split
      · rfl
      rw [List.findSome?_isSome_iff]
      obtain ⟨value, rest_values⟩ := List.forall_mem_cons.mp values
      refine ⟨member, mem, ?_⟩
      rw [if_neg (by simp [value]), embeds, Option.isSome_map]
      exact ih rest_values (by simpa using length)

end Paths

section Right

variable {S : Type} (structs : S → StructDefn S)

/-- The structs with a name among the ones that are embedded as many levels below. -/
def candidates (type : S) (name : String) (depth : ℕ) : List (Level S) :=
  (level (Level.embeds structs) depth [⟨type, []⟩]).filter fun level => structHasName structs level.type name

/-- An access goes to the one struct with the name at the least depth, where the depths are those that are searched. -/
structure AccessRight (searched : ℕ → Prop) (type : S) (name : String) (access : Access S) : Prop where
  path : ∀ members, access = .path members ↔
    ∃ depth, searched depth ∧ (∀ less < depth, candidates structs type name less = []) ∧
      ∃ level, candidates structs type name depth = [level] ∧ members = level.path
  ambiguous : ∀ first second, access = .ambiguous first second ↔
    ∃ depth, searched depth ∧ (∀ less < depth, candidates structs type name less = []) ∧
      ∃ one two more, candidates structs type name depth = one :: two :: more ∧ first = one.path.getLast? ∧
        second = two.path.getLast?
  missing : access = .missing ↔ ∀ depth, searched depth → candidates structs type name depth = []

/-- No level that is searched for the name has more structs than are kept. -/
def Narrow (type : S) (name : String) : Prop :=
  ∀ depth, 1 ≤ depth → depth < embedDepthLimit → (∀ less ≤ depth, candidates structs type name less = []) →
    (level (Level.embeds structs) depth [⟨type, []⟩]).length ≤ levelLimit

variable {structs}

theorem accessRight_accessOf (type : S) (name : String) (depth : ℕ) :
    AccessRight structs (· ≤ depth) type name (accessOf
      (firstHits (Level.embeds structs) (fun level => structHasName structs level.type name) depth [⟨type, []⟩])) := by
  generalize found_eq : firstHits (Level.embeds structs) (fun level => structHasName structs level.type name) depth
    [⟨type, []⟩] = found
  cases found with
  | nil =>
    have none := firstHits_eq_nil_iff.mp found_eq
    refine ⟨fun members => ?_, fun first second => ?_, iff_of_true rfl none⟩
    · refine iff_of_false (fun is => by cases is) ?_
      rintro ⟨d, le, _, level, is, _⟩
      cases (none d le).symm.trans is
    · refine iff_of_false (fun is => by cases is) ?_
      rintro ⟨d, le, _, one, two, more, is, _⟩
      cases (none d le).symm.trans is
  | cons one rest =>
    obtain ⟨d, le, before, is⟩ := (firstHits_eq_iff (List.cons_ne_nil one rest)).mp found_eq
    have unique : ∀ other found, other ≤ depth → (∀ less < other, candidates structs type name less = []) →
        found ≠ [] → candidates structs type name other = found → found = one :: rest := by
      intro other found other_le other_before some other_is
      have same := (firstHits_eq_iff some).mpr ⟨other, other_le, other_before, other_is⟩
      exact same.symm.trans found_eq
    have not_missing : ¬ ∀ d ≤ depth, candidates structs type name d = [] := by
      intro none
      cases (none d le).symm.trans is
    cases rest with
    | nil =>
      refine ⟨fun members => ?_, fun first second => ?_, iff_of_false (fun is => by cases is) not_missing⟩
      · constructor
        · intro path
          cases path
          exact ⟨d, le, before, one, is, rfl⟩
        · rintro ⟨other, other_le, other_before, level, other_is, rfl⟩
          cases unique other [level] other_le other_before (List.cons_ne_nil _ _) other_is
          rfl
      · refine iff_of_false (fun is => by cases is) ?_
        rintro ⟨other, other_le, other_before, first, second, more, other_is, _⟩
        cases unique other _ other_le other_before (List.cons_ne_nil _ _) other_is
    | cons two more =>
      refine ⟨fun members => ?_, fun first second => ?_, iff_of_false (fun is => by cases is) not_missing⟩
      · refine iff_of_false (fun is => by cases is) ?_
        rintro ⟨other, other_le, other_before, level, other_is, _⟩
        cases unique other _ other_le other_before (List.cons_ne_nil _ _) other_is
      · constructor
        · intro ambiguous
          cases ambiguous
          exact ⟨d, le, before, one, two, more, is, rfl, rfl⟩
        · rintro ⟨other, other_le, other_before, first, second, others, other_is, rfl, rfl⟩
          cases unique other _ other_le other_before (List.cons_ne_nil _ _) other_is
          rfl

theorem accessRight_memberAccess {type : S} {name : String} (narrow : Narrow structs type name) :
    AccessRight structs (· ≤ embedDepthLimit) type name (memberAccess structs type name) := by
  have right : AccessRight structs _ type name _ := accessRight_accessOf type name embedDepthLimit
  rw [memberAccess]
  split
  · rename_i has
    have own : [(⟨type, []⟩ : Level S)].filter (fun level => structHasName structs level.type name) = [⟨type, []⟩] :=
      List.filter_cons_of_pos has
    rw [firstHits_of_ne_nil (by rw [own]; exact List.cons_ne_nil _ _), own] at right
    exact right
  · rename_i without
    have none : [(⟨type, []⟩ : Level S)].filter (fun level => structHasName structs level.type name) = [] :=
      List.filter_cons_of_neg without
    rw [findEmbeddedPath_eq none narrow]
    exact right

variable [DecidableEq S]

/-- The one path of embedded members by value from a struct to another. -/
structure OnlyPath (structs : S → StructDefn S) (outer inner : S) (path : List (Member S)) : Prop where
  leads : EmbedPath structs outer path inner
  values : byValue path
  only : ∀ other, EmbedPath structs outer other inner → byValue other → other = path

/-- The address of an embedded member, or null in a null. -/
def embeddedAddress (path : List (Member S)) (pointer : BitVec 64) : BitVec 64 :=
  if pointer = 0 then 0 else pointer + BitVec.ofNat 64 (pathOffset path)

theorem convertPointer_of_only {outer inner : S} {path : List (Member S)} (only : OnlyPath structs outer inner path)
    (length : path.length ≤ embedDepthLimit) (pointer : BitVec 64) :
    convertPointer structs outer inner pointer = some (pointer + BitVec.ofNat 64 (pathOffset path)) := by
  rw [convertPointer]
  split
  · rename_i same
    subst same
    have empty := only.only [] (.nil outer) fun _ mem => (List.not_mem_nil mem).elim
    rw [← empty]
    simp [pathOffset]
  · obtain ⟨offset, found⟩ := Option.isSome_iff_exists.mp (embeddedOffset_isSome only.leads only.values length)
    obtain ⟨other, leads, values, _, rfl⟩ := path_of_embeddedOffset found
    rw [found, only.only other leads values]
    rfl

theorem convertPointer_eq_none {outer inner : S} (pointer : BitVec 64)
    (far : ∀ path, EmbedPath structs outer path inner → byValue path → embedDepthLimit < path.length) :
    convertPointer structs outer inner pointer = none := by
  rw [convertPointer]
  split
  · rename_i same
    subst same
    exact absurd (far [] (.nil outer) fun _ mem => (List.not_mem_nil mem).elim) (Nat.not_lt_zero _)
  · cases found : embeddedOffset structs inner embedDepthLimit outer with
    | none => rfl
    | some offset =>
      obtain ⟨path, leads, values, length, _⟩ := path_of_embeddedOffset found
      exact absurd (far path leads values) (by omega)

/-- What embedding does: names are looked for down to a depth, and a pointer is converted where there is one member that it
can be for, which is also the one that accesses go through. -/
structure EmbeddingRight (structs : S → StructDefn S) (outer : S) : Prop where
  access : ∀ name, Narrow structs outer name →
    AccessRight structs (· ≤ embedDepthLimit) outer name (memberAccess structs outer name)
  converts : ∀ inner path, OnlyPath structs outer inner path → path.length ≤ embedDepthLimit → ∀ pointer ≠ 0,
    convertPointer structs outer inner pointer = some (embeddedAddress path pointer)
  goesThrough : ∀ inner path name members, OnlyPath structs outer inner path →
    memberAccess structs outer name = .path members → EmbedPath structs outer members inner → byValue members →
    members = path
  refuses : ∀ inner, (∀ path, EmbedPath structs outer path inner → byValue path → embedDepthLimit < path.length) →
    ∀ pointer, convertPointer structs outer inner pointer = none

/-- Accesses at any depth, and conversions to the member that they go through. -/
structure EmbeddingClaim (structs : S → StructDefn S) (outer : S) : Prop where
  access : ∀ name, AccessRight structs (fun _ => True) outer name (memberAccess structs outer name)
  converts : ∀ inner name members, memberAccess structs outer name = .path members →
    EmbedPath structs outer members inner → byValue members → ∀ pointer,
      convertPointer structs outer inner pointer = some (embeddedAddress members pointer)

/-- Nine structs that embed each other, the last of which has the name. -/
def chain (n : ℕ) : StructDefn ℕ :=
  if n < 9 then { members := [{ name := "e", embedded := some (n + 1) }] } else { members := [{ name := "x" }] }

/-- The struct 0 embeds a struct that embeds the struct 2, and the struct 2 itself. -/
def twoInners (n : ℕ) : StructDefn ℕ :=
  match n with
  | 0 => { members := [{ name := "deep", embedded := some 1 }, { name := "near", embedded := some 2, memberOffset := 8 }] }
  | 1 => { members := [{ name := "inner", embedded := some 2 }] }
  | _ => { members := [{ name := "x" }] }

def binary (n : ℕ) : StructDefn ℕ :=
  match n with
  | 0 => { members := [{ name := "op" }, { name := "head", embedded := some 1, memberOffset := 8 }] }
  | _ => { members := [{ name := "kind" }] }

end Right

end Saad.Embedding
