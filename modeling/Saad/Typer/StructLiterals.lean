import Mathlib.Data.List.Nodup

/-! # Struct literals

Which member an initializer is for: in the typer, which sorts them by their member, and in the expression tree, which is
built from them as they were written. The lowering stores them into the defaults of the struct. Whether the typer takes a
value for a member is any function.
-/

namespace Saad.StructLiterals

variable {E : Type}

section Syntax

/-- A member of a struct, with the value it has without an initializer. -/
structure Member (E : Type) where
  name : String
  isFunction : Bool := false
  default : E

structure StructDefn (E : Type) where
  members : List (Member E)
  namesDistinct : (members.map (·.name)).Nodup

/-- An initializer. `implied` is the name that its value reads, e.g. `title` for `p.title`. -/
structure Initializer (E : Type) where
  designator : Option String := none
  implied : Option String := none
  value : E

structure Literal (E : Type) where
  hasExplicitType : Bool := true
  initializers : List (Initializer E)

/-- The index of the member with the name, or the number of members. -/
def StructDefn.indexOf (defn : StructDefn E) (name : String) : ℕ := defn.members.findIdx (·.name == name)

end Syntax

section Check

/-- Why the typer stops: an error that it reports, or a member that it reads behind the last one. -/
inductive Failure where
  | reported
  | outside
deriving DecidableEq, Repr

/-- An initializer with the index of the member it is for. -/
structure Picked (E : Type) where
  index : ℕ
  value : E

variable (defn : StructDefn E) (accepts : Member E → E → Bool)

/-- The loop of `check_struct_literal`: `i` counts the initializers, and `currMemberIndex` is the member behind the one
before. -/
def checkInitializers : ℕ → ℕ → List (Initializer E) → Except Failure (List (Picked E))
  | _, _, [] => .ok []
  | i, currMemberIndex, init :: rest =>
    match init.designator with
    | some name =>
      match defn.members[defn.indexOf name]? with
      | none => .error .reported -- not a member
      | some member =>
        if accepts member init.value then do
          let picked ← checkInitializers (i + 1) (defn.indexOf name + 1) rest
          return ⟨defn.indexOf name, init.value⟩ :: picked
        else .error .reported
    | none =>
      if defn.members.length ≤ currMemberIndex then .error .reported -- Initializing to unknown member
      else
        match defn.members[i]? with
        | none => .error .outside
        | some member =>
          if accepts member init.value then do
            let picked ← checkInitializers (i + 1) (currMemberIndex + 1) rest
            return ⟨i, init.value⟩ :: picked
          else .error .reported

/-- The members that the initializers are for, in the order in which they are written. -/
def checkStructLiteral (literal : Literal E) : Except Failure (List (Picked E)) :=
  checkInitializers defn accepts 0 0 literal.initializers

/-- `qsort` by the member leaves the order of initializers of the same member open. -/
structure Sorting (E : Type) where
  sort : List (Picked E) → List (Picked E)
  perm : ∀ picked, (sort picked).Perm picked
  sorted : ∀ picked, (sort picked).Pairwise fun a b => a.index ≤ b.index

/-- The `qsort` of C libraries that merge. -/
def Sorting.merging : Sorting E where
  sort picked := picked.mergeSort fun a b => a.index ≤ b.index
  perm picked := List.mergeSort_perm picked _
  sorted picked := by
    have total : ∀ a b : Picked E, (decide (a.index ≤ b.index) || decide (b.index ≤ a.index)) = true := by
      intro a b
      simpa using Nat.le_total a.index b.index
    have trans : ∀ a b c : Picked E, decide (a.index ≤ b.index) = true → decide (b.index ≤ c.index) = true →
        decide (a.index ≤ c.index) = true := by
      intro a b c
      simpa using Nat.le_trans
    simpa using List.pairwise_mergeSort trans total picked

/-- The value of a member: the last one that is stored, or its default. -/
def lowered (sorting : Sorting E) (picked : List (Picked E)) (i : ℕ) : Option E :=
  match (sorting.sort picked).reverse.find? (·.index == i) with
  | some init => some init.value
  | none => defn.members[i]?.map (·.default)

end Check

section Tree

/-- Whether a field is the one that an initializer is for. -/
def isChosen (designator : Option String) (nextField field : ℕ) (member : Member E) : Bool :=
  match designator with
  | some name => member.name == name
  | none => field == nextField

/-- The field of a typed literal: the one with the name, or the one behind the field before it. Its name, and the number
of the field behind it. The members that are functions are not counted. -/
def treeField (designator : Option String) (nextField : ℕ) : ℕ → List (Member E) → Option (String × ℕ)
  | _, [] => none
  | field, member :: members =>
    if member.isFunction then treeField designator nextField field members
    else if isChosen designator nextField field member then some (member.name, field + 1)
    else treeField designator nextField (field + 1) members

/-- The names of the members in the expression tree. -/
def treeFrom (defn : StructDefn E) (hasExplicitType : Bool) : ℕ → List (Initializer E) → Option (List String)
  | _, [] => some []
  | nextField, init :: rest =>
    if hasExplicitType then do
      let field ← treeField init.designator nextField 0 defn.members
      let names ← treeFrom defn hasExplicitType field.2 rest
      return field.1 :: names
    else do
      let name ← init.designator <|> init.implied
      let names ← treeFrom defn hasExplicitType nextField rest
      return name :: names

/-- `tree_of` of a struct literal: the names of the members, or none if it can't be in an expression tree. -/
def treeOf (defn : StructDefn E) (literal : Literal E) : Option (List String) :=
  treeFrom defn literal.hasExplicitType 0 literal.initializers

end Tree

end Saad.StructLiterals

/-! # The members that initializers are for

A positional initializer is for the member with its own number, which is the member behind the one before only where all
members up to it are set in order. The expression tree counts the members behind each other, without those that are
functions.
-/

namespace Saad.StructLiterals

variable {E : Type} (defn : StructDefn E)

section Expected

/-- The members that the initializers should be for: the one that is named, or the one behind the member before. -/
def expectedFrom : ℕ → List (Initializer E) → List ℕ
  | _, [] => []
  | next, init :: rest =>
    let index := match init.designator with
      | some name => defn.indexOf name
      | none => next
    index :: expectedFrom (index + 1) rest

/-- The members that the typer picks. -/
def pickedFrom : ℕ → List (Initializer E) → List ℕ
  | _, [] => []
  | i, init :: rest =>
    (match init.designator with
      | some name => defn.indexOf name
      | none => i) :: pickedFrom (i + 1) rest

variable {defn}

/-- The typer is right about all members if the positional initializers are at the numbers of their members. -/
theorem pickedFrom_eq_iff {i next : ℕ} {inits : List (Initializer E)} :
    pickedFrom defn i inits = expectedFrom defn next inits ↔
      ∀ (k : ℕ) (init : Initializer E), inits[k]? = some init → init.designator = none →
        (expectedFrom defn next inits)[k]? = some (i + k) := by
  induction inits generalizing i next with
  | nil => simp [pickedFrom, expectedFrom]
  | cons init rest ih =>
    rw [pickedFrom, expectedFrom, ← Nat.and_forall_add_one, List.cons.injEq, ih]
    simp only [List.getElem?_cons_zero, List.getElem?_cons_succ, Option.some_inj, Nat.add_zero]
    apply and_congr
    · cases named : init.designator with
      | some name => simp [named]
      | none =>
        constructor
        · rintro rfl other rfl -
          rfl
        · intro same
          exact (same init rfl named).symm
    · simp only [Nat.add_assoc, Nat.add_comm 1]

/-- Members are the expected ones if each one is the named one, or behind the one before. -/
theorem eq_expectedFrom_iff {next : ℕ} {inits : List (Initializer E)} {indices : List ℕ}
    (len : indices.length = inits.length)
    (named : ∀ (k : ℕ) (init : Initializer E) (name : String), inits[k]? = some init →
      init.designator = some name → indices[k]? = some (defn.indexOf name)) :
    indices = expectedFrom defn next inits ↔
      (∀ init : Initializer E, inits[0]? = some init → init.designator = none → indices[0]? = some next) ∧
        ∀ (k : ℕ) (init : Initializer E) (index : ℕ), inits[k + 1]? = some init → init.designator = none →
          indices[k]? = some index → indices[k + 1]? = some (index + 1) := by
  induction inits generalizing next indices with
  | nil =>
    obtain rfl := List.eq_nil_of_length_eq_zero len
    simp [expectedFrom]
  | cons init rest ih =>
    obtain ⟨index, indices, rfl⟩ := List.exists_cons_of_length_eq_add_one len
    have rest_named := fun k => named (k + 1)
    have tail := @ih (index + 1) indices (by simpa using len) rest_named
    have head : (init.designator = none → index = next) ↔
        index = match init.designator with | some name => defn.indexOf name | none => next := by
      cases is : init.designator with
      | some name =>
        refine iff_of_true (fun none => by cases none) ?_
        exact Option.some.inj (named 0 init name rfl is)
      | none => exact ⟨fun same => same rfl, fun same _ => same⟩
    rw [expectedFrom, List.cons.injEq, ← head]
    constructor
    · rintro ⟨first, same⟩
      have is := head.mp first
      rw [← is] at same
      obtain ⟨second, later⟩ := tail.mp same
      refine ⟨?_, ?_⟩
      · intro other is_init positional
        cases is_init
        exact congrArg some (first positional)
      · rintro (_ | k) other before at_k positional at_before
        · cases at_before
          exact second other at_k positional
        · exact later k other before at_k positional at_before
    · rintro ⟨first, later⟩
      have at_first : init.designator = none → index = next := fun positional =>
        Option.some.inj (first init rfl positional)
      refine ⟨at_first, ?_⟩
      have is := head.mp at_first
      rw [← is]
      exact tail.mpr ⟨fun other at_k positional => later 0 other index at_k positional rfl,
        fun k => later (k + 1)⟩

end Expected

section Check

variable {defn} {accepts : Member E → E → Bool}

/-- What the typer picks when it takes a literal. -/
theorem picked_of_checkInitializers {i next : ℕ} {inits : List (Initializer E)} {picked : List (Picked E)}
    (checks : checkInitializers defn accepts i next inits = .ok picked) :
    picked.map (·.index) = pickedFrom defn i inits ∧ picked.map (·.value) = inits.map (·.value) ∧
      ∀ init ∈ picked, init.index < defn.members.length := by
  induction inits generalizing i next picked with
  | nil =>
    rw [checkInitializers] at checks
    cases checks
    simp [pickedFrom]
  | cons init rest ih =>
    rw [checkInitializers] at checks
    rw [pickedFrom, List.map_cons]
    cases named : init.designator with
    | some name =>
      rw [named] at checks
      dsimp only at checks
      split at checks
      · cases checks
      · rename_i member is
        split at checks
        · cases later : checkInitializers defn accepts (i + 1) (defn.indexOf name + 1) rest with
          | error failure =>
            rw [later] at checks
            cases checks
          | ok others =>
            rw [later] at checks
            cases checks
            obtain ⟨indices, values, bounds⟩ := ih later
            refine ⟨by rw [List.map_cons, indices], by rw [List.map_cons, values], ?_⟩
            intro pick mem
            rcases List.mem_cons.mp mem with rfl | mem
            · exact (List.getElem?_eq_some_iff.mp is).1
            · exact bounds pick mem
        · cases checks
    | none =>
      rw [named] at checks
      dsimp only at checks
      split at checks
      · cases checks
      split at checks
      · cases checks
      · rename_i member is
        split at checks
        · cases later : checkInitializers defn accepts (i + 1) (next + 1) rest with
          | error failure =>
            rw [later] at checks
            cases checks
          | ok others =>
            rw [later] at checks
            cases checks
            obtain ⟨indices, values, bounds⟩ := ih later
            refine ⟨by rw [List.map_cons, indices], by rw [List.map_cons, values], ?_⟩
            intro pick mem
            rcases List.mem_cons.mp mem with rfl | mem
            · exact (List.getElem?_eq_some_iff.mp is).1
            · exact bounds pick mem
        · cases checks

theorem getElem?_pickedFrom {i k : ℕ} {inits : List (Initializer E)} {init : Initializer E} {name : String}
    (is : inits[k]? = some init) (named : init.designator = some name) :
    (pickedFrom defn i inits)[k]? = some (defn.indexOf name) := by
  induction inits generalizing i k with
  | nil => cases is
  | cons first rest ih =>
    rw [pickedFrom]
    cases k with
    | zero =>
      cases is
      rw [named]
      rfl
    | succ k => exact ih is

theorem length_pickedFrom (i : ℕ) (inits : List (Initializer E)) : (pickedFrom defn i inits).length = inits.length := by
  induction inits generalizing i with
  | nil => rfl
  | cons init rest ih => rw [pickedFrom, List.length_cons, List.length_cons, ih]

end Check

section Lowered

variable (sorting : Sorting E) {picked : List (Picked E)}

/-- Where no member is set twice, each initializer is what its member becomes. -/
theorem lowered_of_mem (once : (picked.map (·.index)).Nodup) {pick : Picked E} (mem : pick ∈ picked) :
    lowered defn sorting picked pick.index = some pick.value := by
  have perm := sorting.perm picked
  have mem_sorted : pick ∈ (sorting.sort picked).reverse := List.mem_reverse.mpr (perm.mem_iff.mpr mem)
  rw [lowered]
  split
  · rename_i found is
    have found_mem := perm.mem_iff.mp (List.mem_reverse.mp (List.mem_of_find?_eq_some is))
    have same : found.index = pick.index := by simpa using List.find?_some is
    rw [List.inj_on_of_nodup_map once found_mem mem same]
  · rename_i none
    have differs := List.find?_eq_none.mp none pick mem_sorted
    simp at differs

/-- A member without an initializer keeps its default. -/
theorem lowered_of_notMem {i : ℕ} {member : Member E} (is : defn.members[i]? = some member)
    (unset : i ∉ picked.map (·.index)) : lowered defn sorting picked i = some member.default := by
  have none : (sorting.sort picked).reverse.find? (·.index == i) = none := by
    rw [List.find?_eq_none]
    intro pick mem same
    have index : pick.index = i := by simpa using same
    have mem_picked := (sorting.perm picked).mem_iff.mp (List.mem_reverse.mp mem)
    exact unset (List.mem_map.mpr ⟨pick, mem_picked, index⟩)
  rw [lowered, none, is]
  rfl

end Lowered

section Tree

variable {defn}
variable {i j next curr : ℕ} {a b member : Member E} {name : String} {inits : List (Initializer E)}
  {names : List String}

/-- The members before the index that are fields. -/
def fieldsBefore (defn : StructDefn E) (index : ℕ) : ℕ := (defn.members.take index).countP (!·.isFunction)

/-- The name of the member with the index. -/
def nameAt (defn : StructDefn E) (index : ℕ) : Option String := defn.members[index]?.map (·.name)

theorem index_inj (at_i : defn.members[i]? = some a) (at_j : defn.members[j]? = some b)
    (same : a.name = b.name) : i = j := by
  obtain ⟨i_lt, rfl⟩ := List.getElem?_eq_some_iff.mp at_i
  obtain ⟨j_lt, rfl⟩ := List.getElem?_eq_some_iff.mp at_j
  have same_name : (defn.members.map (·.name))[i]? = (defn.members.map (·.name))[j]? := by simpa [i_lt, j_lt] using same
  exact (List.getElem?_inj (by simpa using i_lt) defn.namesDistinct).mp same_name

theorem nameAt_indexOf (found : defn.indexOf name < defn.members.length) :
    nameAt defn (defn.indexOf name) = some name := by
  have named := List.findIdx_getElem (w := found)
  rw [beq_iff_eq] at named
  rw [nameAt, List.getElem?_eq_getElem found]
  exact congrArg some named

theorem indexOf_eq (is : defn.members[i]? = some member) : defn.indexOf member.name = i := by
  have found : defn.indexOf member.name < defn.members.length := by
    rw [StructDefn.indexOf, List.findIdx_lt_length]
    exact ⟨member, List.mem_of_getElem? is, by simp⟩
  obtain ⟨other, at_found, same⟩ := Option.map_eq_some_iff.mp (nameAt_indexOf found)
  exact index_inj at_found is same

theorem fieldsBefore_succ (is : defn.members[i]? = some member) (field : member.isFunction = false) :
    fieldsBefore defn (i + 1) = fieldsBefore defn i + 1 := by
  rw [fieldsBefore, fieldsBefore, List.take_add_one, List.countP_append, is]
  simp [field]

theorem fieldsBefore_mono (le : i ≤ j) : fieldsBefore defn i ≤ fieldsBefore defn j :=
  (List.take_sublist_take_left le).countP_le

/-- Two fields with as many fields before them are the same. -/
theorem fieldsBefore_inj (at_i : defn.members[i]? = some a) (at_j : defn.members[j]? = some b)
    (a_field : a.isFunction = false) (b_field : b.isFunction = false)
    (same : fieldsBefore defn i = fieldsBefore defn j) : i = j := by
  have := fieldsBefore_succ at_i a_field
  have := fieldsBefore_succ at_j b_field
  rcases Nat.lt_trichotomy i j with less | eq | less
  · have : fieldsBefore defn (i + 1) ≤ fieldsBefore defn j := fieldsBefore_mono less
    omega
  · exact eq
  · have : fieldsBefore defn (j + 1) ≤ fieldsBefore defn i := fieldsBefore_mono less
    omega

/-- The field that the expression tree finds. -/
theorem treeField_spec {designator : Option String} {nextField field : ℕ}
    {before members : List (Member E)} (whole : defn.members = before ++ members)
    (count : field = fieldsBefore defn before.length)
    (finds : treeField designator nextField field members = some (name, next)) :
    ∃ index member, defn.members[index]? = some member ∧ member.isFunction = false ∧ name = member.name ∧
      next = fieldsBefore defn (index + 1) ∧ (∀ named, designator = some named → name = named) ∧
        (designator = none → fieldsBefore defn index = nextField) := by
  induction members generalizing before field with
  | nil => cases finds
  | cons member members ih =>
    have at_index : defn.members[before.length]? = some member := by simp [whole]
    have step : defn.members = (before ++ [member]) ++ members := by simp [whole]
    have length : (before ++ [member]).length = before.length + 1 := by simp
    rw [treeField] at finds
    split at finds
    · rename_i isFunction
      refine ih step ?_ finds
      rw [length, fieldsBefore, List.take_add_one, List.countP_append, at_index, ← fieldsBefore, ← count]
      simp [isFunction]
    · rename_i isField
      have isField : member.isFunction = false := Bool.eq_false_iff.mpr isField
      split at finds
      · rename_i chosen
        cases finds
        refine ⟨before.length, member, at_index, isField, rfl, ?_, ?_, ?_⟩
        · rw [fieldsBefore_succ at_index isField, count]
        · rintro named rfl
          simpa [isChosen] using chosen
        · rintro rfl
          rw [← count]
          simpa [isChosen] using chosen
      · refine ih step ?_ finds
        rw [length, fieldsBefore_succ at_index isField, count]

/-- A typed literal has the members of the typer in its tree if none that is set by its position is a function. -/
theorem treeFrom_typed_iff (built : treeFrom defn true (fieldsBefore defn curr) inits = some names) :
    names.map some = (expectedFrom defn curr inits).map (nameAt defn) ↔
      ∀ (k : ℕ) (init : Initializer E) (index : ℕ), inits[k]? = some init → init.designator = none →
        (expectedFrom defn curr inits)[k]? = some index →
          ∃ member, defn.members[index]? = some member ∧ member.isFunction = false := by
  induction inits generalizing curr names with
  | nil =>
    rw [treeFrom] at built
    cases built
    simp [expectedFrom]
  | cons init rest ih =>
    rw [treeFrom, if_pos rfl] at built
    obtain ⟨⟨name, next⟩, finds, built⟩ := Option.bind_eq_some_iff.mp built
    obtain ⟨others, later, built⟩ := Option.bind_eq_some_iff.mp built
    cases built
    obtain ⟨index, member, is, field, rfl, rfl, named, counted⟩ :=
      treeField_spec (List.nil_append _).symm rfl finds
    have tail := ih later
    rw [expectedFrom, List.map_cons, List.map_cons, List.cons.injEq, ← Nat.and_forall_add_one]
    cases designated : init.designator with
    | some other =>
      have same := indexOf_eq is
      rw [named other designated] at same
      dsimp only
      rw [same]
      refine and_congr ?_ tail
      refine iff_of_true (by rw [nameAt, is]; rfl) ?_
      intro other_init other_index is_init positional
      cases is_init
      rw [designated] at positional
      cases positional
    | none =>
      dsimp only
      have head : some member.name = nameAt defn curr → index = curr := by
        intro same
        rw [nameAt, eq_comm, Option.map_eq_some_iff] at same
        obtain ⟨other, at_curr, same⟩ := same
        exact (index_inj at_curr is same).symm
      constructor
      · rintro ⟨first, others_same⟩
        obtain rfl := head first
        refine ⟨?_, tail.mp others_same⟩
        intro other_init other_index _ _ is_index
        cases is_index
        exact ⟨member, is, field⟩
      · rintro ⟨first, others_are⟩
        obtain ⟨other, at_curr, other_field⟩ := first init curr rfl designated rfl
        obtain rfl := fieldsBefore_inj is at_curr field other_field (counted designated)
        exact ⟨by rw [nameAt, is]; rfl, tail.mpr others_are⟩

/-- A literal without a type has the members of the typer in its tree if the values that are set by their position read
the names of their members. -/
theorem treeFrom_untyped_iff
    (bounds : ∀ init ∈ inits, ∀ name, init.designator = some name → nameAt defn (defn.indexOf name) = some name)
    (built : treeFrom defn false next inits = some names) :
    names.map some = (expectedFrom defn curr inits).map (nameAt defn) ↔
      ∀ (k : ℕ) (init : Initializer E) (index : ℕ), inits[k]? = some init → init.designator = none →
        (expectedFrom defn curr inits)[k]? = some index → nameAt defn index = init.implied := by
  induction inits generalizing curr names with
  | nil =>
    rw [treeFrom] at built
    cases built
    simp [expectedFrom]
  | cons init rest ih =>
    rw [treeFrom, if_neg Bool.false_ne_true] at built
    obtain ⟨name, finds, built⟩ := Option.bind_eq_some_iff.mp built
    obtain ⟨others, later, built⟩ := Option.bind_eq_some_iff.mp built
    cases built
    rw [expectedFrom, List.map_cons, List.map_cons, List.cons.injEq, ← Nat.and_forall_add_one]
    refine and_congr ?_ (ih (fun other mem => bounds other (List.mem_cons_of_mem init mem)) later)
    cases designated : init.designator with
    | some other =>
      rw [designated] at finds
      cases finds
      refine iff_of_true (bounds init List.mem_cons_self name designated).symm ?_
      intro other_init index is positional
      cases is
      rw [designated] at positional
      cases positional
    | none =>
      rw [designated] at finds
      have implied : init.implied = some name := finds
      constructor
      · intro same other index is _ is_index
        cases is
        cases is_index
        rw [implied]
        exact same.symm
      · intro same
        rw [← implied]
        exact (same init curr rfl designated rfl).symm

end Tree

section Right

variable (sorting : Sorting E)

/-- What a literal should do, where `tree` is what is built of it if it stands in an expression tree: each initializer
sets the member it names, or the one behind the one before, none is set twice, the other members get their defaults, and
the tree has the same members. -/
structure LiteralRight (literal : Literal E) (tree : Option (List String)) (picked : List (Picked E)) : Prop where
  named : ∀ (k : ℕ) (init : Initializer E) (name : String), literal.initializers[k]? = some init →
    init.designator = some name → (picked.map (·.index))[k]? = some (defn.indexOf name)
  first : ∀ init : Initializer E, literal.initializers[0]? = some init → init.designator = none →
    (picked.map (·.index))[0]? = some 0
  next : ∀ (k : ℕ) (init : Initializer E) (index : ℕ), literal.initializers[k + 1]? = some init →
    init.designator = none → (picked.map (·.index))[k]? = some index → (picked.map (·.index))[k + 1]? = some (index + 1)
  values : picked.map (·.value) = literal.initializers.map (·.value)
  once : (picked.map (·.index)).Nodup
  stored : ∀ pick ∈ picked, lowered defn sorting picked pick.index = some pick.value
  defaults : ∀ (i : ℕ) (member : Member E), defn.members[i]? = some member → i ∉ picked.map (·.index) →
    lowered defn sorting picked i = some member.default
  sameMembers : ∀ names, tree = some names → names.map some = picked.map fun pick => nameAt defn pick.index

/-- The literals for which it is so: the initializers without a name are at the numbers of their members, no two are for
one member, and in an expression tree they are for fields, or read the names of their members. -/
structure LiteralPlain (literal : Literal E) (tree : Option (List String)) : Prop where
  inOrder : ∀ (k : ℕ) (init : Initializer E), literal.initializers[k]? = some init → init.designator = none →
    (expectedFrom defn 0 literal.initializers)[k]? = some k
  different : (expectedFrom defn 0 literal.initializers).Nodup
  fields : tree.isSome → literal.hasExplicitType = true → ∀ (k : ℕ) (init : Initializer E),
    literal.initializers[k]? = some init → init.designator = none →
      ∃ member, defn.members[k]? = some member ∧ member.isFunction = false
  implied : tree.isSome → literal.hasExplicitType = false → ∀ (k : ℕ) (init : Initializer E),
    literal.initializers[k]? = some init → init.designator = none → nameAt defn k = init.implied

variable {defn} {accepts : Member E → E → Bool} {literal : Literal E} {tree : Option (List String)}
  {picked : List (Picked E)}

/-- The members of the tree, where the initializers without a name are at the numbers of their members. -/
theorem sameMembers_iff {names : List String} (built : treeOf defn literal = some names)
    (bounds : ∀ init ∈ literal.initializers, ∀ name, init.designator = some name →
      nameAt defn (defn.indexOf name) = some name)
    (inOrder : ∀ (k : ℕ) (init : Initializer E), literal.initializers[k]? = some init → init.designator = none →
      (expectedFrom defn 0 literal.initializers)[k]? = some k) :
    names.map some = (expectedFrom defn 0 literal.initializers).map (nameAt defn) ↔
      (literal.hasExplicitType = true → ∀ (k : ℕ) (init : Initializer E),
        literal.initializers[k]? = some init → init.designator = none →
          ∃ member, defn.members[k]? = some member ∧ member.isFunction = false) ∧
      (literal.hasExplicitType = false → ∀ (k : ℕ) (init : Initializer E),
        literal.initializers[k]? = some init → init.designator = none → nameAt defn k = init.implied) := by
  rw [treeOf] at built
  cases typed : literal.hasExplicitType with
  | true =>
    rw [typed] at built
    have from_first : treeFrom defn true (fieldsBefore defn 0) literal.initializers = some names := built
    rw [treeFrom_typed_iff from_first]
    refine ⟨fun all => ⟨fun _ k init is positional => ?_, fun untyped => absurd untyped (by decide)⟩, ?_⟩
    · exact all k init k is positional (inOrder k init is positional)
    · intro all k init index is positional at_k
      rw [inOrder k init is positional] at at_k
      cases at_k
      exact all.1 rfl k init is positional
  | false =>
    rw [typed] at built
    rw [treeFrom_untyped_iff bounds built]
    refine ⟨fun all => ⟨fun untyped => absurd untyped (by decide), fun _ k init is positional => ?_⟩, ?_⟩
    · exact all k init k is positional (inOrder k init is positional)
    · intro all k init index is positional at_k
      rw [inOrder k init is positional] at at_k
      cases at_k
      exact all.2 rfl k init is positional

def threeMembers : StructDefn ℕ where
  members := [{ name := "a", default := 0 }, { name := "b", default := 0 }, { name := "c", default := 0 }]
  namesDistinct := by decide

end Right

end Saad.StructLiterals
