import Mathlib.Data.List.Induction
import Mathlib.Data.List.Nodup
import Saad.General.Grouped
import Saad.Typer.CallArguments

/-! # The positions of the arguments of a call

The passes leave the arguments in groups, one for each parameter: what is given for it, or its default.
-/

namespace Saad.Calls

open General

variable {E : Type}

section Parameters

variable {f : FunctionDefn E} {v i j : ℕ} {param other : Parameter E} {name : String}

theorem isVariadic_iff (index : f.variadicIndex = some v) (at_ : f.parameters[i]? = some param) :
    param.isVariadic = true ↔ i = v := by
  rw [FunctionDefn.variadicIndex, variadicParameterIndex, List.findIdx?_eq_some_iff_getElem] at index
  obtain ⟨lt, variadic, before⟩ := index
  obtain ⟨ltI, rfl⟩ := List.getElem?_eq_some_iff.mp at_
  constructor
  · intro isVariadic
    by_contra different
    obtain less | more := Nat.lt_or_gt_of_ne different
    · exact before i less isVariadic
    · have := List.pairwise_iff_getElem.mp f.oneVariadic v i lt ltI more variadic
      simp [isVariadic] at this
  · rintro rfl
    exact variadic

theorem isVariadic_false (index : f.variadicIndex = none) (mem : param ∈ f.parameters) : param.isVariadic = false := by
  rw [FunctionDefn.variadicIndex, variadicParameterIndex, List.findIdx?_eq_none_iff] at index
  simpa using index param mem

theorem variadicIndex_lt (index : f.variadicIndex = some v) : v < f.parameters.length := by
  rw [FunctionDefn.variadicIndex, variadicParameterIndex, List.findIdx?_eq_some_iff_getElem] at index
  exact index.1

/-- Defaults stand behind the variadic parameter. -/
theorem lt_of_default (index : f.variadicIndex = some v) (at_ : f.parameters[i]? = some param)
    (default : param.value.isSome = true) : v < i := by
  have lt := variadicIndex_lt index
  obtain ⟨ltI, rfl⟩ := List.getElem?_eq_some_iff.mp at_
  have variadic : f.parameters[v].isVariadic = true := (isVariadic_iff index (List.getElem?_eq_getElem lt)).mpr rfl
  have plain := f.variadicPlain _ (List.getElem_mem lt) variadic
  obtain less | same | more := Nat.lt_trichotomy i v
  · have := List.pairwise_iff_getElem.mp f.defaultsLast i v ltI lt less default
    simp [plain] at this
  · subst same
    simp [plain] at default
  · exact more

theorem eq_of_name (at_ : f.parameters[i]? = some param) (otherAt : f.parameters[j]? = some other)
    (same : param.name = other.name) : i = j := by
  obtain ⟨ltI, rfl⟩ := List.getElem?_eq_some_iff.mp at_
  obtain ⟨ltJ, rfl⟩ := List.getElem?_eq_some_iff.mp otherAt
  have ltName : i < (f.parameters.map (·.name)).length := by simpa using ltI
  have ltOther : j < (f.parameters.map (·.name)).length := by simpa using ltJ
  have names : (f.parameters.map (·.name))[i] = (f.parameters.map (·.name))[j] := by simpa using same
  exact (List.Nodup.getElem_inj_iff f.namesDistinct).mp names

theorem findIdx_name : (f.parameters.findIdx? fun param => param.name == name) = some i ↔
    ∃ param, f.parameters[i]? = some param ∧ param.name = name := by
  rw [List.findIdx?_eq_some_iff_getElem]
  constructor
  · rintro ⟨lt, same, _⟩
    exact ⟨_, List.getElem?_eq_getElem lt, by simpa using same⟩
  · rintro ⟨param, at_, rfl⟩
    obtain ⟨lt, rfl⟩ := List.getElem?_eq_some_iff.mp at_
    refine ⟨lt, by simp, fun j less => ?_⟩
    have ltJ : j < f.parameters.length := by omega
    intro same
    have := eq_of_name (List.getElem?_eq_getElem ltJ) at_ (by simpa using same)
    omega

end Parameters

section Positions

variable {f : FunctionDefn E} {call : Call E} {v i : ℕ} {name : String} {value : Value E}

def positionalArgument (i : ℕ) (value : Value E) : Argument E := { value := value, paramIndex := i }

def variadicArgument (v i : ℕ) (value : Value E) : Argument E :=
  { value := value, paramIndex := v, isVararg := true, varargIndex := i }

def placePositional (f : FunctionDefn E) (i : ℕ) (value : Value E) : Argument E :=
  match f.variadicIndex with
  | some v => if v ≤ i then variadicArgument v i value else positionalArgument i value
  | none => positionalArgument i value

def placeNamed (f : FunctionDefn E) (entry : String × Value E) : Argument E where
  ident := some entry.1
  value := entry.2
  paramIndex := (f.parameters.findIdx? fun param => param.name == entry.1).getD 0

def placedPositionals (f : FunctionDefn E) (values : List (Value E)) : List (Argument E) :=
  values.mapIdx (placePositional f)

def placed (f : FunctionDefn E) (call : Call E) : List (Argument E) :=
  placedPositionals f call.positionals ++ call.named.map (placeNamed f)

def Known (f : FunctionDefn E) (name : String) : Prop := ∃ param ∈ f.parameters, param.name = name

theorem known_iff : Known f name ↔ ∃ i, (f.parameters.findIdx? fun param => param.name == name) = some i := by
  constructor
  · rintro ⟨param, mem, same⟩
    obtain ⟨i, lt, rfl⟩ := List.getElem_of_mem mem
    exact ⟨i, findIdx_name.mpr ⟨_, List.getElem?_eq_getElem lt, same⟩⟩
  · rintro ⟨i, found⟩
    obtain ⟨param, at_, same⟩ := findIdx_name.mp found
    exact ⟨param, List.mem_of_getElem? at_, same⟩

theorem resolveArgument_positional (done : List (Argument E)) :
    resolveArgument f done { value := value } = some (placePositional f done.length value) := by
  rw [resolveArgument, placePositional]
  cases f.variadicIndex with
  | none => rfl
  | some v =>
    dsimp only
    split <;> rfl

theorem resolvePositions_positionals (values : List (Value E)) (rest done : List (Argument E)) :
    resolvePositions f done (values.map (fun value => { value := value }) ++ rest) =
      resolvePositions f (done ++ values.mapIdx fun i => placePositional f (done.length + i)) rest := by
  induction values generalizing done with
  | nil => simp
  | cons value values ih =>
    rw [List.map_cons, List.cons_append, resolvePositions, resolveArgument_positional]
    simp only [ih, List.length_append, List.length_cons, List.length_nil, List.mapIdx_cons, List.append_assoc,
      List.cons_append, List.nil_append, Nat.add_zero, Nat.zero_add]
    congr 4
    funext i
    congr 1
    omega

theorem placeNamed_paramIndex {param : Parameter E} (at_ : f.parameters[i]? = some param)
    (entry : String × Value E) (same : param.name = entry.1) : (placeNamed f entry).paramIndex = i := by
  rw [placeNamed, findIdx_name.mpr ⟨param, at_, same⟩]
  rfl

/-- Two known names have one position only if they are the same. -/
theorem placeNamed_inj {left right : String × Value E} (knownLeft : Known f left.1) (knownRight : Known f right.1) :
    (placeNamed f left).paramIndex = (placeNamed f right).paramIndex ↔ left.1 = right.1 := by
  constructor
  · intro same
    obtain ⟨i, found⟩ := known_iff.mp knownLeft
    obtain ⟨j, foundRight⟩ := known_iff.mp knownRight
    simp only [placeNamed, found, foundRight, Option.getD_some] at same
    subst same
    obtain ⟨param, at_, name⟩ := findIdx_name.mp found
    obtain ⟨other, otherAt, otherName⟩ := findIdx_name.mp foundRight
    rw [at_] at otherAt
    cases otherAt
    exact name.symm.trans otherName
  · intro same
    simp only [placeNamed, same]

/-- A named argument is placed when its parameter is known, not named before, and, without a variadic
parameter, not given by position. -/
theorem resolveArgument_named (values : List (Value E)) (before : List (String × Value E))
    (knownBefore : ∀ entry ∈ before, Known f entry.1) (entry : String × Value E) (arg : Argument E) :
    resolveArgument f (placedPositionals f values ++ before.map (placeNamed f))
        { ident := some entry.1, value := entry.2 } = some arg ↔
      (Known f entry.1 ∧ entry.1 ∉ before.map (·.1) ∧
        (f.variadicIndex = none → values.length ≤ (placeNamed f entry).paramIndex)) ∧ arg = placeNamed f entry := by
  rw [resolveArgument]
  dsimp only
  cases found : f.parameters.findIdx? fun param => param.name == entry.1 with
  | none =>
    have unknown : ¬ Known f entry.1 := fun known => by
      obtain ⟨i, equal⟩ := known_iff.mp known
      rw [found] at equal
      cases equal
    simp [unknown]
  | some k =>
    have known : Known f entry.1 := known_iff.mpr ⟨k, found⟩
    have position : (placeNamed f entry).paramIndex = k := by simp [placeNamed, found]
    have seen : ((placedPositionals f values ++ before.map (placeNamed f)).any
        fun prev => prev.ident.isSome && prev.paramIndex == k) = true ↔ entry.1 ∈ before.map (·.1) := by
      rw [List.any_append, Bool.or_eq_true, List.any_eq_true, List.any_eq_true]
      constructor
      · rintro (⟨prev, mem, named⟩ | ⟨prev, mem, named⟩)
        · obtain ⟨i, _, rfl⟩ := List.mem_mapIdx.mp mem
          rw [placePositional] at named
          split at named
          · split at named <;> cases named
          · cases named
        · obtain ⟨other, memOther, rfl⟩ := List.mem_map.mp mem
          rw [Bool.and_eq_true, beq_iff_eq] at named
          have same := (placeNamed_inj (knownBefore other memOther) known).mp (named.2.trans position.symm)
          exact List.mem_map.mpr ⟨other, memOther, same⟩
      · intro mem
        obtain ⟨other, memOther, same⟩ := List.mem_map.mp mem
        refine .inr ⟨placeNamed f other, List.mem_map.mpr ⟨other, memOther, rfl⟩, ?_⟩
        rw [Bool.and_eq_true, beq_iff_eq]
        exact ⟨rfl, ((placeNamed_inj (knownBefore other memOther) known).mpr same).trans position⟩
    have unnamed : ((placedPositionals f values ++ before.map (placeNamed f))[k]?.any (·.ident.isNone)) = true ↔
        k < values.length := by
      by_cases lt : k < values.length
      · rw [List.getElem?_append_left (by simpa [placedPositionals] using lt)]
        simp only [placedPositionals, List.getElem?_mapIdx, List.getElem?_eq_getElem lt, Option.map_some, lt, iff_true]
        rw [placePositional]
        split
        · split <;> rfl
        · rfl
      · rw [List.getElem?_append_right (by simpa [placedPositionals] using lt)]
        simp only [lt, iff_false, List.getElem?_map]
        cases (before[k - (placedPositionals f values).length]?) <;> simp [placeNamed]
    simp only [known, true_and, position]
    by_cases named : entry.1 ∈ before.map (·.1)
    · simp only [seen.mpr named, if_true, named, not_true_eq_false, false_and, reduceCtorEq]
    · have notSeen := Bool.eq_false_iff.mpr (fun is => named (seen.mp is))
      simp only [notSeen, Bool.false_eq_true, if_false, named, not_false_eq_true, true_and]
      cases index : f.variadicIndex with
      | some v =>
        simp only [Option.isNone_some, Bool.false_and, Bool.false_eq_true, if_false, reduceCtorEq, false_implies,
          true_and, Option.some.injEq]
        rw [← position, eq_comm]
        rfl
      | none =>
        simp only [Option.isNone_none, Bool.true_and, forall_const]
        by_cases lt : k < values.length
        · simp only [unnamed.mpr lt, if_true, reduceCtorEq, false_iff, not_and]
          omega
        · have notPositional := Bool.eq_false_iff.mpr (fun is => lt (unnamed.mp is))
          simp only [notPositional, Bool.false_eq_true, if_false, Option.some.injEq, Nat.le_of_not_lt lt, true_and]
          rw [← position, eq_comm]
          rfl

/-- The positions of all arguments are found. -/
structure Resolvable (f : FunctionDefn E) (positionals : ℕ) (named : List (String × Value E)) : Prop where
  known : ∀ entry ∈ named, Known f entry.1
  apart : f.variadicIndex = none → ∀ entry ∈ named, positionals ≤ (placeNamed f entry).paramIndex

theorem resolvePositions_named (values : List (Value E)) (named before : List (String × Value E))
    (knownBefore : ∀ entry ∈ before, Known f entry.1) (onceBefore : (before.map (·.1)).Nodup)
    (args : List (Argument E)) :
    resolvePositions f (placedPositionals f values ++ before.map (placeNamed f))
        (named.map fun entry => { ident := some entry.1, value := entry.2 }) = some args ↔
      (Resolvable f values.length named ∧ ((before ++ named).map (·.1)).Nodup) ∧
        args = placedPositionals f values ++ (before ++ named).map (placeNamed f) := by
  induction named generalizing before with
  | nil =>
    simp only [List.map_nil, resolvePositions, Option.some.injEq, List.append_nil, onceBefore, and_true]
    constructor
    · rintro rfl
      exact ⟨⟨nofun, fun _ => nofun⟩, rfl⟩
    · rintro ⟨_, rfl⟩
      rfl
  | cons entry named ih =>
    have knownNext (known : Known f entry.1) : ∀ other ∈ before ++ [entry], Known f other.1 := by
      intro other mem
      obtain mem | mem := List.mem_append.mp mem
      · exact knownBefore other mem
      · rwa [List.mem_singleton.mp mem]
    have onceNext (fresh : entry.1 ∉ before.map (·.1)) : ((before ++ [entry]).map (·.1)).Nodup := by
      rw [List.map_append, List.nodup_append]
      refine ⟨onceBefore, by simp, fun name mem other memOther same => fresh ?_⟩
      rw [List.map_singleton, List.mem_singleton] at memOther
      rwa [← memOther, ← same]
    rw [List.map_cons, resolvePositions]
    constructor
    · intro resolved
      cases placedEntry : resolveArgument f (placedPositionals f values ++ before.map (placeNamed f))
          { ident := some entry.1, value := entry.2 } with
      | none =>
        rw [placedEntry] at resolved
        cases resolved
      | some arg =>
        obtain ⟨⟨known, fresh, apart⟩, rfl⟩ := (resolveArgument_named values before knownBefore entry arg).mp placedEntry
        rw [placedEntry] at resolved
        have next := (ih (before ++ [entry]) (knownNext known) (onceNext fresh)).mp (by simpa using resolved)
        obtain ⟨⟨resolvable, once⟩, equal⟩ := next
        refine ⟨⟨⟨?_, fun index => ?_⟩, by simpa using once⟩, by simpa using equal⟩
        · exact List.forall_mem_cons.mpr ⟨known, resolvable.known⟩
        · exact List.forall_mem_cons.mpr ⟨apart index, resolvable.apart index⟩
    · rintro ⟨⟨resolvable, once⟩, equal⟩
      have fresh : entry.1 ∉ before.map (·.1) := by
        rw [List.map_append, List.nodup_append] at once
        intro mem
        exact once.2.2 _ mem entry.1 (by simp) rfl
      have placedEntry := (resolveArgument_named values before knownBefore entry _).mpr
        ⟨⟨resolvable.known entry (by simp), fresh, fun index => resolvable.apart index entry (by simp)⟩, rfl⟩
      rw [placedEntry]
      have next := (ih (before ++ [entry]) (knownNext (resolvable.known entry (by simp))) (onceNext fresh)).mpr ⟨⟨⟨fun other mem => resolvable.known other (by simp [mem]),
            fun index other mem => resolvable.apart index other (by simp [mem])⟩, by simpa using once⟩, by simpa using equal⟩
      simpa using next

theorem resolvePositions_eq (args : List (Argument E)) :
    resolvePositions f [] call.arguments = some args ↔
      (Resolvable f call.positionals.length call.named ∧ (call.named.map (·.1)).Nodup) ∧ args = placed f call := by
  rw [Call.arguments, resolvePositions_positionals]
  have front : (call.positionals.mapIdx fun i => placePositional f (([] : List (Argument E)).length + i)) =
      placedPositionals f call.positionals ++ ([] : List (String × Value E)).map (placeNamed f) := by
    simp [placedPositionals]
  rw [List.nil_append, front]
  exact resolvePositions_named call.positionals call.named [] nofun (by simp) args

end Positions

section Groups

variable {f : FunctionDefn E} {call : Call E} {v i : ℕ} {param : Parameter E}

abbrev groupOf (args : List (Argument E)) (i : ℕ) : List (Argument E) := group Argument.paramIndex args i

theorem groupOf_append (front back : List (Argument E)) (i : ℕ) :
    groupOf (front ++ back) i = groupOf front i ++ groupOf back i := group_append ..

theorem groupOf_positionalArgument (values : List (Value E)) (i : ℕ) :
    groupOf (values.mapIdx positionalArgument) i = (values[i]?.map (positionalArgument i)).toList := by
  induction values using List.reverseRecOn with
  | nil => rfl
  | append_singleton values value ih =>
    rw [List.mapIdx_append, groupOf_append, ih]
    obtain less | same | more := Nat.lt_trichotomy i values.length
    · have different : values.length ≠ i := by omega
      simp [groupOf, group, positionalArgument, List.getElem?_append_left less, different]
    · subst same
      simp [groupOf, group, positionalArgument]
    · have different : values.length ≠ i := by omega
      simp [groupOf, group, positionalArgument, List.getElem?_append_right (Nat.le_of_lt more), different,
        List.getElem?_eq_none (Nat.le_of_lt more), List.getElem?_eq_none (show [value].length ≤ i - values.length by
          simp; omega)]

theorem placedPositionals_none (index : f.variadicIndex = none) (values : List (Value E)) :
    placedPositionals f values = values.mapIdx positionalArgument := by
  refine List.ext_getElem (by simp [placedPositionals]) fun i _ _ => ?_
  simp [placedPositionals, placePositional, index]

/-- The positionals in front of the variadic parameter, and the extra ones. -/
theorem placedPositionals_some (index : f.variadicIndex = some v) (values : List (Value E)) :
    placedPositionals f values =
      (values.take v).mapIdx positionalArgument ++ (values.drop v).mapIdx fun k => variadicArgument v (v + k) := by
  refine List.ext_getElem (by simp [placedPositionals]; omega) fun i lt _ => ?_
  have ltValues : i < values.length := by simpa [placedPositionals] using lt
  by_cases extra : v ≤ i
  · rw [List.getElem_append_right (by simp; omega)]
    have position : v + (i - min v values.length) = i := by omega
    have same : v + (i - v) = i := by omega
    simp [placedPositionals, placePositional, index, extra, show min v values.length = v by omega, same]
  · rw [List.getElem_append_left (by simp; omega)]
    simp [placedPositionals, placePositional, index, extra]

theorem groupOf_variadicArgument (values : List (Value E)) (offset : ℕ) :
    groupOf (values.mapIdx fun k => variadicArgument v (offset + k)) i =
      if v = i then values.mapIdx fun k => variadicArgument v (offset + k) else [] := by
  split
  · refine List.filter_eq_self.mpr fun arg mem => ?_
    obtain ⟨k, _, rfl⟩ := List.mem_mapIdx.mp mem
    simpa [variadicArgument]
  · refine List.filter_eq_nil_iff.mpr fun arg mem => ?_
    obtain ⟨k, _, rfl⟩ := List.mem_mapIdx.mp mem
    simpa [variadicArgument]

/-- The arguments for a parameter other than the variadic one. -/
theorem groupOf_placed (resolvable : Resolvable f call.positionals.length call.named)
    (at_ : f.parameters[i]? = some param) (notVariadic : param.isVariadic = false) :
    (groupOf (placed f call) i).map (·.value) = given f call i := by
  have positional : (groupOf (placedPositionals f call.positionals) i).map (·.value) =
      if isOptional f i then [] else call.positionals[i]?.toList := by
    cases index : f.variadicIndex with
    | none =>
      rw [placedPositionals_none index, groupOf_positionalArgument]
      simp only [isOptional, index, Bool.false_eq_true, if_false]
      cases call.positionals[i]? <;> rfl
    | some v =>
      have different : v ≠ i := by
        rintro rfl
        rw [(isVariadic_iff index at_).mpr rfl] at notVariadic
        cases notVariadic
      rw [placedPositionals_some index, groupOf_append, groupOf_positionalArgument, groupOf_variadicArgument,
        if_neg different, List.append_nil]
      simp only [isOptional, index, decide_eq_true_eq]
      by_cases behind : v ≤ i
      · simp [behind, List.getElem?_take, show ¬ i < v by omega]
      · simp only [behind, if_false, List.getElem?_take, show i < v by omega, if_true]
        cases call.positionals[i]? <;> rfl
  have named : (groupOf (call.named.map (placeNamed f)) i).map (·.value) =
      (call.named.filter fun entry => (f.parameters[i]?.map (·.name)) == some entry.1).map (·.2) := by
    rw [groupOf, group, List.filter_map, List.map_map]
    have filters : call.named.filter ((fun arg => arg.paramIndex == i) ∘ placeNamed f) =
        call.named.filter fun entry => (f.parameters[i]?.map (·.name)) == some entry.1 := by
      refine List.filter_congr fun entry mem => ?_
      rw [at_, Option.map_some, Function.comp_apply, Bool.eq_iff_iff, beq_iff_eq, beq_iff_eq, Option.some.injEq]
      constructor
      · rintro rfl
        obtain ⟨k, found⟩ := known_iff.mp (resolvable.known entry mem)
        simp only [placeNamed, found, Option.getD_some] at at_
        obtain ⟨other, otherAt, same⟩ := findIdx_name.mp found
        rw [at_] at otherAt
        cases otherAt
        exact same
      · exact placeNamed_paramIndex at_ entry
    rw [filters]
    rfl
  rw [placed, groupOf_append, List.map_append, positional, named, given]

theorem any_iff_groupOf (args : List (Argument E)) : (args.any fun arg => arg.paramIndex == i) = true ↔ groupOf args i ≠ [] := by
  rw [List.any_eq_true]
  constructor
  · rintro ⟨arg, mem, position⟩
    exact List.ne_nil_of_mem (mem_group.mpr ⟨mem, beq_iff_eq.mp position⟩)
  · intro nonempty
    obtain ⟨arg, mem⟩ := List.exists_mem_of_ne_nil _ nonempty
    rw [mem_group] at mem
    exact ⟨arg, mem.1, beq_iff_eq.mpr mem.2⟩

theorem not_isVariadic (required : isOptional f i = false) (at_ : f.parameters[i]? = some param) :
    param.isVariadic = false := by
  cases index : f.variadicIndex with
  | none => exact isVariadic_false index (List.mem_of_getElem? at_)
  | some v =>
    refine Bool.eq_false_iff.mpr fun variadic => ?_
    obtain rfl := (isVariadic_iff index at_).mp variadic
    simp [isOptional, index] at required

theorem requiredGiven_iff (resolvable : Resolvable f call.positionals.length call.named) :
    requiredGiven f (placed f call) = true ↔ ∀ i param, f.parameters[i]? = some param → param.value = none →
      isOptional f i = false → given f call i ≠ [] := by
  rw [requiredGiven, List.all_eq_true]
  constructor
  · intro all i param at_ noDefault required
    have one := all (param, i) (List.mem_zipIdx_iff_getElem?.mpr at_)
    simp only [noDefault, Option.isSome_none, required, Bool.false_or] at one
    rw [any_iff_groupOf] at one
    rw [← groupOf_placed resolvable at_ (not_isVariadic required at_)]
    simpa using one
  · rintro all ⟨param, i⟩ mem
    have at_ := List.mem_zipIdx_iff_getElem?.mp mem
    dsimp only at at_
    cases default : param.value with
    | some value => simp [default]
    | none =>
      cases required : isOptional f i with
      | true => simp [required]
      | false =>
        have one := all i param at_ default required
        rw [← groupOf_placed resolvable at_ (not_isVariadic required at_)] at one
        have given_ := (any_iff_groupOf (placed f call)).mpr (by simpa using one)
        simp [default, required, given_]

theorem groupOf_zipIdx {α : Type} (list : List α) (place : α × ℕ → Option (Argument E))
    (placedAt : ∀ a i arg, place (a, i) = some arg → arg.paramIndex = i) (i : ℕ) :
    groupOf (list.zipIdx.filterMap place) i = (list[i]?.bind fun a => place (a, i)).toList := by
  induction list using List.reverseRecOn with
  | nil => rfl
  | append_singleton list a ih =>
    have last : groupOf ([(a, list.length)].filterMap place) i =
        if i = list.length then (place (a, list.length)).toList else [] := by
      cases found : place (a, list.length) with
      | none => simp [found, groupOf, group]
      | some arg =>
        have := placedAt a list.length arg found
        by_cases same : i = list.length
        · simp [found, groupOf, group, this, same]
        · simp [found, groupOf, group, this, same, Ne.symm same]
    rw [List.zipIdx_append, List.filterMap_append, groupOf_append, ih, Nat.zero_add, List.zipIdx_singleton, last]
    obtain less | same | more := Nat.lt_trichotomy i list.length
    · simp [List.getElem?_append_left less, Nat.ne_of_lt less]
    · subst same
      simp
    · simp [List.getElem?_append_right (Nat.le_of_lt more), Nat.ne_of_gt more, List.getElem?_eq_none (Nat.le_of_lt more),
        List.getElem?_eq_none (show [a].length ≤ i - list.length by simp; omega)]

theorem placed_of_default {value : E} (at_ : f.parameters[i]? = some param) (default : param.value = some value) :
    param.isVariadic = false := by
  refine Bool.eq_false_iff.mpr fun variadic => ?_
  have plain := f.variadicPlain param (List.mem_of_getElem? at_) variadic
  rw [default] at plain
  cases plain

/-- Behind the variadic parameter, only names give a value. -/
theorem groupOf_placedPositionals_behind (index : f.variadicIndex = some v) (behind : v < i)
    (values : List (Value E)) : groupOf (placedPositionals f values) i = [] := by
  rw [placedPositionals_some index, groupOf_append, groupOf_positionalArgument, groupOf_variadicArgument,
    if_neg (by omega), List.getElem?_take, if_neg (by omega)]
  rfl

theorem givesDefault_iff (resolvable : Resolvable f call.positionals.length call.named) {value : E}
    (at_ : f.parameters[i]? = some param) (default : param.value = some value) :
    givesDefault f call (placed f call) i = true ↔ given f call i ≠ [] := by
  have nonempty : groupOf (placed f call) i ≠ [] ↔ given f call i ≠ [] := by
    rw [← groupOf_placed resolvable at_ (placed_of_default at_ default)]
    simp
  rw [← nonempty, givesDefault]
  cases index : f.variadicIndex with
  | none => exact any_iff_groupOf _
  | some v =>
    have behind := lt_of_default index at_ (by rw [default]; rfl)
    have positionals := groupOf_placedPositionals_behind index behind call.positionals
    dsimp only
    rw [placed, groupOf_append, positionals, List.nil_append, List.drop_append_of_le_length (by
      simp [placedPositionals, Call.positionals]), List.any_append, Bool.and_eq_true, Bool.or_eq_true, any_iff_groupOf,
      any_iff_groupOf]
    constructor
    · rintro ⟨_, drop | named⟩
      · refine absurd ?_ drop
        rw [List.eq_nil_iff_forall_not_mem] at positionals ⊢
        intro arg mem
        rw [mem_group] at mem
        exact positionals arg (mem_group.mpr ⟨List.mem_of_mem_drop mem.1, mem.2⟩)
      · exact named
    · intro named
      refine ⟨?_, .inr named⟩
      cases empty : call.named with
      | nil => exact absurd (by rw [empty]; rfl) named
      | cons => rfl

def filled (f : FunctionDefn E) (call : Call E) : List (Argument E) :=
  placed f call ++ defaultArguments f call (placed f call)

theorem groupOf_defaultArguments (args : List (Argument E)) (at_ : f.parameters[i]? = some param) :
    groupOf (defaultArguments f call args) i =
      if givesDefault f call args i then []
      else (param.value.map fun value => ({ value := ⟨value, false⟩, paramIndex := i } : Argument E)).toList := by
  rw [defaultArguments, groupOf_zipIdx, at_, Option.bind_some]
  · dsimp only
    split <;> rfl
  · intro param i arg found
    dsimp only at found
    split at found
    · cases found
    · obtain ⟨value, _, rfl⟩ := Option.map_eq_some_iff.mp found
      rfl

/-- The arguments for a parameter other than the variadic one are those that are given, or its default. -/
theorem groupOf_filled (resolvable : Resolvable f call.positionals.length call.named)
    (at_ : f.parameters[i]? = some param) (notVariadic : param.isVariadic = false)
    (once : (given f call i).length ≤ 1) :
    (groupOf (filled f call) i).map (·.value) =
      ((given f call i).head?.or (param.value.map fun value => ⟨value, false⟩)).toList := by
  rw [filled, groupOf_append, List.map_append, groupOf_placed resolvable at_ notVariadic,
    groupOf_defaultArguments _ at_]
  cases default : param.value with
  | none =>
    match given f call i, once with
    | [], _ => simp
    | [value], _ => simp
  | some value =>
    have gives := givesDefault_iff resolvable at_ default
    match equal : given f call i, once with
    | [], _ =>
      have not_ : givesDefault f call (placed f call) i = false := Bool.eq_false_iff.mpr fun is => gives.mp is equal
      simp [not_]
    | [given], _ =>
      have yes := gives.mpr (by rw [equal]; exact List.cons_ne_nil _ _)
      simp [yes]

end Groups

end Saad.Calls
