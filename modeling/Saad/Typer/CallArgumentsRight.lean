import Saad.Typer.CallPositions

/-! # When the arguments of a call are checked right

What is left of the arguments is compared with the wanted values, one group of arguments for each parameter.
-/

namespace Saad.Calls

open General

variable {E : Type}

section Matched

variable {f : FunctionDefn E} {call : Call E} {v i : ℕ} {param : Parameter E}

theorem isOptional_none (index : f.variadicIndex = none) : isOptional f i = false := by
  rw [isOptional, index]

theorem length_named (name : String) :
    (call.named.filter fun entry => some name == some entry.1).length = (call.named.map (·.1)).count name := by
  rw [List.count, List.countP_map, List.countP_eq_length_filter]
  congr 1
  refine List.filter_congr fun entry _ => ?_
  rw [Function.comp_apply, Bool.eq_iff_iff, beq_iff_eq, beq_iff_eq, Option.some.injEq, eq_comm]

/-- A matched call has all its positions found, with no name given twice. -/
theorem Matched.resolvable (matched : Matched f call) :
    Resolvable f call.positionals.length call.named ∧ (call.named.map (·.1)).Nodup := by
  refine ⟨⟨fun entry mem => ?_, fun index entry mem => ?_⟩, ?_⟩
  · obtain ⟨param, memParam, same, _⟩ := matched.known entry.1 entry.2 mem
    exact ⟨param, memParam, same⟩
  · obtain ⟨param, memParam, same, notVariadic⟩ := matched.known entry.1 entry.2 mem
    obtain ⟨k, lt, rfl⟩ := List.getElem_of_mem memParam
    have at_ := List.getElem?_eq_getElem lt
    rw [placeNamed_paramIndex at_ entry same]
    by_contra less
    have once := matched.once k _ at_ notVariadic
    have positional : call.positionals[k]?.toList.length = 1 := by
      rw [List.getElem?_eq_getElem (by omega)]
      rfl
    have named : entry ∈ call.named.filter fun entry => (f.parameters[k]?.map (·.name)) == some entry.1 := by
      simp [mem, at_, same]
    have := List.length_pos_of_mem named
    rw [given, isOptional_none index, if_neg Bool.false_ne_true, List.length_append, List.length_map, positional] at once
    omega
  · rw [List.nodup_iff_count_le_one]
    intro name
    by_cases mem : name ∈ call.named.map (·.1)
    · obtain ⟨entry, memEntry, rfl⟩ := List.mem_map.mp mem
      obtain ⟨param, memParam, same, notVariadic⟩ := matched.known entry.1 entry.2 memEntry
      obtain ⟨k, lt, rfl⟩ := List.getElem_of_mem memParam
      have at_ := List.getElem?_eq_getElem lt
      have once := matched.once k _ at_ notVariadic
      rw [given, List.length_append, List.length_map, at_, Option.map_some, same, length_named] at once
      omega
    · rw [List.count_eq_zero_of_not_mem mem]
      exact Nat.zero_le 1

theorem Matched.requiredGiven (matched : Matched f call) : requiredGiven f (placed f call) = true :=
  (requiredGiven_iff matched.resolvable.1).mpr fun i param at_ noDefault required =>
    matched.required i param at_ (not_isVariadic required at_) noDefault

/-- The wanted value of the parameter at a position. -/
def wantedAt (f : FunctionDefn E) (call : Call E) (i : ℕ) : Option (Lowered E) :=
  f.parameters[i]?.bind (parameterValue f call i)

theorem wanted_eq : wanted f call = (List.range f.parameters.length).map (wantedAt f call) := by
  refine List.ext_getElem (by simp [wanted]) fun i lt _ => ?_
  have ltParameters : i < f.parameters.length := by simpa [wanted] using lt
  simp [wanted, wantedAt, ltParameters]

theorem Matched.plain_groupOf (matched : Matched f call) (at_ : f.parameters[i]? = some param)
    (notVariadic : param.isVariadic = false) :
    (plain (groupOf (filled f call) i)).map some = [wantedAt f call i] := by
  have once := matched.once i param at_ notVariadic
  have values := groupOf_filled matched.resolvable.1 at_ notVariadic once
  have same : plain (groupOf (filled f call) i) = ((groupOf (filled f call) i).map (·.value)).map .value := by
    rw [plain, List.map_map]
    rfl
  rw [same, values, wantedAt, at_, Option.bind_some, parameterValue, notVariadic]
  simp only [Bool.false_eq_true, if_false]
  cases equal : given f call i with
  | nil =>
    cases default : param.value with
    | none => exact absurd equal (matched.required i param at_ notVariadic default)
    | some value => rfl
  | cons value values => rfl

end Matched

section Filled

variable {f : FunctionDefn E} {call : Call E} {v i : ℕ} {param : Parameter E} {arg : Argument E}

theorem placePositional_lt (index : f.variadicIndex = some v) (i : ℕ) (value : Value E) :
    (placePositional f i value).paramIndex ≤ v := by
  simp only [placePositional, index]
  split
  · exact Nat.le_refl v
  · exact Nat.le_of_lt (Nat.lt_of_not_le ‹_›)

theorem mem_defaultArguments {args : List (Argument E)} (mem : arg ∈ defaultArguments f call args) :
    ∃ param value, f.parameters[arg.paramIndex]? = some param ∧ param.value = some value ∧
      givesDefault f call args arg.paramIndex = false ∧ arg = { value := ⟨value, false⟩, paramIndex := arg.paramIndex } := by
  obtain ⟨⟨param, i⟩, memZip, found⟩ := List.mem_filterMap.mp mem
  have at_ := List.mem_zipIdx_iff_getElem?.mp memZip
  dsimp only at found at_
  split at found
  · cases found
  · next notGiven =>
    obtain ⟨value, default, rfl⟩ := Option.map_eq_some_iff.mp found
    exact ⟨param, value, at_, default, Bool.eq_false_iff.mpr notGiven, rfl⟩

/-- No argument is for a parameter behind the last one, unless there are too many positional arguments. -/
theorem paramIndex_lt (resolvable : Resolvable f call.positionals.length call.named)
    (fits : f.variadicIndex = none → call.positionals.length ≤ f.parameters.length) (mem : arg ∈ filled f call) :
    arg.paramIndex < f.parameters.length := by
  rw [filled, placed, List.mem_append, List.mem_append] at mem
  obtain (positional | named) | default := mem
  · obtain ⟨i, lt, rfl⟩ := List.mem_mapIdx.mp positional
    cases index : f.variadicIndex with
    | none =>
      simp only [placePositional, index]
      exact Nat.lt_of_lt_of_le lt (fits index)
    | some v => exact Nat.lt_of_le_of_lt (placePositional_lt index i _) (variadicIndex_lt index)
  · obtain ⟨entry, memEntry, rfl⟩ := List.mem_map.mp named
    obtain ⟨param, memParam, same⟩ := resolvable.known entry memEntry
    obtain ⟨k, lt, rfl⟩ := List.getElem_of_mem memParam
    rwa [placeNamed_paramIndex (List.getElem?_eq_getElem lt) entry same]
  · obtain ⟨param, _, at_, _⟩ := mem_defaultArguments default
    exact (List.getElem?_eq_some_iff.mp at_).1

/-- The variadic group of a matched call are its extra arguments. -/
theorem Matched.groupOf_variadic (matched : Matched f call) (index : f.variadicIndex = some v) :
    groupOf (filled f call) v = (extras f call).mapIdx fun k => variadicArgument v (v + k) := by
  have lt := variadicIndex_lt index
  have at_ := List.getElem?_eq_getElem lt
  have variadic := (isVariadic_iff index at_).mpr rfl
  have named : groupOf (call.named.map (placeNamed f)) v = [] := by
    rw [List.eq_nil_iff_forall_not_mem]
    intro arg mem
    rw [mem_group] at mem
    obtain ⟨entry, memEntry, rfl⟩ := List.mem_map.mp mem.1
    obtain ⟨param, memParam, same, notVariadic⟩ := matched.known entry.1 entry.2 memEntry
    obtain ⟨k, ltK, rfl⟩ := List.getElem_of_mem memParam
    rw [placeNamed_paramIndex (List.getElem?_eq_getElem ltK) entry same] at mem
    obtain rfl := mem.2
    rw [variadic] at notVariadic
    cases notVariadic
  have none_ := f.variadicPlain _ (List.getElem_mem lt) variadic
  rw [filled, groupOf_append, groupOf_defaultArguments _ at_, none_, placed, groupOf_append, named,
    placedPositionals_some index, groupOf_append, groupOf_positionalArgument, groupOf_variadicArgument, if_pos rfl,
    List.getElem?_take, if_neg (by omega), extras, index]
  simp

theorem before_asymm (a b : Argument E) (before : a.before b) : ¬ b.before a := by
  simp only [Argument.before] at before ⊢
  omega

/-- The groups of a matched call are in strict order. -/
theorem Matched.groupOf_pairwise (matched : Matched f call) (lt : i < f.parameters.length) :
    (groupOf (filled f call) i).Pairwise Argument.before := by
  have at_ := List.getElem?_eq_getElem lt
  cases isVariadic : f.parameters[i].isVariadic with
  | false =>
    have one := congrArg List.length (matched.plain_groupOf at_ isVariadic)
    simp only [plain, List.length_map, List.length_singleton] at one
    obtain ⟨arg, equal⟩ := List.length_eq_one_iff.mp one
    rw [equal]
    exact List.pairwise_singleton _ _
  | true =>
    cases index : f.variadicIndex with
    | none => rw [isVariadic_false index (List.getElem_mem lt)] at isVariadic; cases isVariadic
    | some v =>
      obtain rfl := (isVariadic_iff index at_).mp isVariadic
      rw [matched.groupOf_variadic index, List.pairwise_iff_getElem]
      intro j k _ _ less
      rw [List.getElem_mapIdx, List.getElem_mapIdx]
      exact .inr ⟨rfl, Nat.add_lt_add_left less i⟩

theorem placedPositionals_pairwise (values : List (Value E)) :
    (placedPositionals f values).Pairwise Argument.before := by
  rw [List.pairwise_iff_getElem]
  intro j k _ _ less
  simp only [placedPositionals, List.getElem_mapIdx, placePositional]
  cases f.variadicIndex with
  | none => exact .inl less
  | some v =>
    dsimp only
    split
    · rw [if_pos (by omega)]
      exact .inr ⟨rfl, less⟩
    · next front =>
      split
      · exact .inl (Nat.lt_of_not_le front)
      · exact .inl less

theorem defaultArguments_pairwise (args : List (Argument E)) :
    (defaultArguments f call args).Pairwise Argument.before := by
  rw [defaultArguments, List.pairwise_filterMap]
  refine (List.pairwise_iff_getElem.mpr fun j k _ _ less => ?_ : f.parameters.zipIdx.Pairwise fun a b => a.2 < b.2).imp ?_
  · simpa using less
  · rintro ⟨left, i⟩ ⟨right, j⟩ less a found b foundB
    dsimp only at found foundB less
    split at found
    · cases found
    · split at foundB
      · cases foundB
      · obtain ⟨_, _, rfl⟩ := Option.map_eq_some_iff.mp found
        obtain ⟨_, _, rfl⟩ := Option.map_eq_some_iff.mp foundB
        exact .inl less

/-- Without named arguments, the arguments are in order as they are. -/
theorem Matched.filled_pairwise (matched : Matched f call) (noNames : call.named = []) :
    (filled f call).Pairwise Argument.before := by
  rw [filled, List.pairwise_append]
  have positionals : placed f call = placedPositionals f call.positionals := by simp [placed, noNames]
  refine ⟨by rw [positionals]; exact placedPositionals_pairwise _, defaultArguments_pairwise _, fun a left b right => ?_⟩
  obtain ⟨param, value, at_, default, notGiven, _⟩ := mem_defaultArguments right
  rw [positionals] at left
  obtain ⟨i, lt, rfl⟩ := List.mem_mapIdx.mp left
  refine .inl ?_
  cases index : f.variadicIndex with
  | some v => exact Nat.lt_of_le_of_lt (placePositional_lt index i _) (lt_of_default index at_ (by rw [default]; rfl))
  | none =>
    simp only [placePositional, index, positionalArgument]
    have empty : given f call b.paramIndex = [] := by
      by_contra nonempty
      rw [(givesDefault_iff matched.resolvable.1 at_ default).mpr nonempty] at notGiven
      cases notGiven
    by_contra less
    simp only [given, isOptional_none index, Bool.false_eq_true, if_false, List.append_eq_nil_iff,
      Option.toList_eq_nil_iff, List.getElem?_eq_none_iff] at empty
    omega

/-- The arguments of a matched call end up in the order of the parameters. -/
theorem Matched.sorted_eq (matched : Matched f call) (qsort : Sorting E) :
    (if call.named.isEmpty then filled f call else qsort.sort (filled f call)) =
      grouped Argument.paramIndex f.parameters.length (filled f call) := by
  have below (arg : Argument E) (mem : arg ∈ filled f call) : arg.paramIndex < f.parameters.length :=
    paramIndex_lt matched.resolvable.1 matched.fits mem
  have across (a b : Argument E) (less : a.paramIndex < b.paramIndex) : a.before b := .inl less
  split
  · next empty =>
    exact eq_grouped below (.refl _)
      ((matched.filled_pairwise (List.isEmpty_iff.mp empty)).imp fun before => before_asymm _ _ before)
      (fun i lt => matched.groupOf_pairwise lt) across before_asymm
  · exact eq_grouped below (qsort.perm _) (qsort.sorted _) (fun i lt => matched.groupOf_pairwise lt) across before_asymm

/-- Only extra arguments are marked, and they are for the variadic parameter. -/
theorem isVararg_filled (mem : arg ∈ filled f call) (vararg : arg.isVararg = true) :
    f.variadicIndex = some arg.paramIndex := by
  rw [filled, placed, List.mem_append, List.mem_append] at mem
  obtain (positional | named) | default := mem
  · obtain ⟨i, lt, rfl⟩ := List.mem_mapIdx.mp positional
    rw [placePositional] at vararg ⊢
    cases index : f.variadicIndex with
    | none =>
      rw [index] at vararg
      cases vararg
    | some v =>
      simp only [index] at vararg ⊢
      split at vararg
      · next extra => rw [if_pos extra]; rfl
      · cases vararg
  · obtain ⟨entry, _, rfl⟩ := List.mem_map.mp named
    cases vararg
  · obtain ⟨_, _, _, _, _, equal⟩ := mem_defaultArguments default
    rw [equal] at vararg
    cases vararg

theorem plain_append (front back : List (Argument E)) : plain (front ++ back) = plain front ++ plain back :=
  List.map_append ..

/-- The groups of parameters other than the variadic one. -/
theorem Matched.plain_flatMap (matched : Matched f call) (indices : List ℕ)
    (normal : ∀ i ∈ indices, ∃ param, f.parameters[i]? = some param ∧ param.isVariadic = false) :
    (plain (indices.flatMap (groupOf (filled f call)))).map some = indices.map (wantedAt f call) := by
  induction indices with
  | nil => rfl
  | cons i indices ih =>
    obtain ⟨param, at_, notVariadic⟩ := normal i (by simp)
    rw [List.flatMap_cons, plain_append, List.map_append, matched.plain_groupOf at_ notVariadic,
      ih fun j mem => normal j (by simp [mem])]
    rfl

theorem Matched.plain_grouped (matched : Matched f call) (index : f.variadicIndex = none) :
    (plain (grouped Argument.paramIndex f.parameters.length (filled f call))).map some = wanted f call := by
  rw [wanted_eq]
  refine matched.plain_flatMap _ fun i mem => ?_
  have lt := List.mem_range.mp mem
  exact ⟨_, List.getElem?_eq_getElem lt, isVariadic_false index (List.getElem_mem lt)⟩

/-- The arguments in front of the variadic parameter, the extra ones, and those behind it. -/
theorem Matched.grouped_split (matched : Matched f call) (index : f.variadicIndex = some v) :
    ∃ front back, grouped Argument.paramIndex f.parameters.length (filled f call) =
        front ++ ((extras f call).mapIdx fun k => variadicArgument v (v + k)) ++ back ∧
      front.length = v ∧ (∀ arg ∈ front, arg.isVararg = false) ∧ (∀ arg ∈ back, arg.isVararg = false) ∧
      wanted f call = (plain front).map some ++ some (variadicValue (extras f call)) :: (plain back).map some := by
  have lt := variadicIndex_lt index
  obtain ⟨rest, length⟩ : ∃ rest, f.parameters.length = v + 1 + rest := ⟨f.parameters.length - (v + 1), by omega⟩
  have normal (i : ℕ) (ltI : i < f.parameters.length) (different : i ≠ v) :
      ∃ param, f.parameters[i]? = some param ∧ param.isVariadic = false :=
    ⟨_, List.getElem?_eq_getElem ltI, Bool.eq_false_iff.mpr fun variadic =>
      different ((isVariadic_iff index (List.getElem?_eq_getElem ltI)).mp variadic)⟩
  have ranges : List.range f.parameters.length =
      List.range v ++ v :: (List.range rest).map (v + 1 + ·) := by
    rw [length, List.range_add, List.range_succ, List.append_assoc]
    rfl
  have wantedFront := matched.plain_flatMap (List.range v) fun i mem =>
    normal i (by have := List.mem_range.mp mem; omega) (by have := List.mem_range.mp mem; omega)
  have wantedBack := matched.plain_flatMap ((List.range rest).map (v + 1 + ·)) fun i mem => by
    obtain ⟨k, memK, rfl⟩ := List.mem_map.mp mem
    have := List.mem_range.mp memK
    exact normal _ (by omega) (by omega)
  have unmarked (indices : List ℕ) (apart : v ∉ indices) (arg : Argument E)
      (mem : arg ∈ indices.flatMap (groupOf (filled f call))) : arg.isVararg = false := by
    obtain ⟨i, memI, memArg⟩ := List.mem_flatMap.mp mem
    rw [mem_group] at memArg
    refine Bool.eq_false_iff.mpr fun vararg => apart ?_
    have same := isVararg_filled memArg.1 vararg
    rw [index, Option.some.injEq, memArg.2] at same
    rwa [same]
  refine ⟨(List.range v).flatMap (groupOf (filled f call)),
    ((List.range rest).map (v + 1 + ·)).flatMap (groupOf (filled f call)), ?_, ?_,
    unmarked _ (by simp), unmarked _ (by simp; omega), ?_⟩
  · rw [grouped, ranges, List.flatMap_append, List.flatMap_cons, ← matched.groupOf_variadic index, List.append_assoc]
  · simpa [plain] using congrArg List.length wantedFront
  · have atV := List.getElem?_eq_getElem lt
    have middle : wantedAt f call v = some (variadicValue (extras f call)) := by
      rw [wantedAt, atV, Option.bind_some, parameterValue, if_pos ((isVariadic_iff index atV).mpr rfl)]
    rw [wanted_eq, ranges, List.map_append, List.map_cons, wantedFront, wantedBack, middle]

/-- Behind the variadic parameter, only the extra arguments are left out. -/
theorem lowerVariadic_behind (slice : Lowered E) (args : List (Argument E)) (behind : v < i) :
    lowerVariadic v slice i args = plain (args.filter fun arg => !arg.isVararg) := by
  induction args generalizing i with
  | nil => simp [lowerVariadic, plain, Nat.not_le.mpr behind]
  | cons arg args ih =>
    rw [lowerVariadic, if_neg (by omega), ih (by omega)]
    cases vararg : arg.isVararg <;> simp [plain, vararg]

theorem lowerVariadic_front (slice : Lowered E) (front args : List (Argument E))
    (unmarked : ∀ arg ∈ front, arg.isVararg = false) (inFront : i + front.length ≤ v) :
    lowerVariadic v slice i (front ++ args) = plain front ++ lowerVariadic v slice (i + front.length) args := by
  induction front generalizing i with
  | nil => rfl
  | cons arg front ih =>
    rw [List.length_cons] at inFront ⊢
    rw [List.cons_append, lowerVariadic, if_neg (by omega), unmarked arg (by simp),
      ih (fun other mem => unmarked other (by simp [mem])) (by omega), Nat.add_right_comm, Nat.add_assoc]
    rfl

/-- The slice takes the place of the extra arguments. -/
theorem lowerVariadic_split (slice : Lowered E) (front extra back : List (Argument E)) (length : front.length = v)
    (unmarkedFront : ∀ arg ∈ front, arg.isVararg = false) (marked : ∀ arg ∈ extra, arg.isVararg = true)
    (unmarkedBack : ∀ arg ∈ back, arg.isVararg = false) :
    lowerVariadic v slice 0 (front ++ extra ++ back) = plain front ++ slice :: plain back := by
  have extraOut : extra.filter (fun arg => !arg.isVararg) = [] :=
    List.filter_eq_nil_iff.mpr fun arg mem => by simp [marked arg mem]
  have backIn : back.filter (fun arg => !arg.isVararg) = back :=
    List.filter_eq_self.mpr fun arg mem => by simp [unmarkedBack arg mem]
  have kept : (extra ++ back).filter (fun arg => !arg.isVararg) = back := by
    rw [List.filter_append, extraOut, backIn, List.nil_append]
  rw [List.append_assoc, lowerVariadic_front slice front _ unmarkedFront (by omega), Nat.zero_add, length]
  cases rest : extra ++ back with
  | nil =>
    rw [rest] at kept
    rw [lowerVariadic, if_pos (Nat.le_refl v), ← kept]
    rfl
  | cons arg args =>
    rw [rest] at kept
    rw [lowerVariadic, if_pos rfl, lowerVariadic_behind slice args (Nat.lt_succ_self v), ← kept]
    cases vararg : arg.isVararg <;> simp [plain, vararg]

end Filled

section Handled

variable {f : FunctionDefn E} {call : Call E} {v i : ℕ} {param : Parameter E} {isCollection : Value E → Bool}
  {qsort : Sorting E}

/-- An error that is always reported: an unknown name, a name that is given twice, or a missing parameter in
front of the variadic one. -/
def Reported (f : FunctionDefn E) (call : Call E) : Prop :=
  (∃ entry ∈ call.named, ∀ param ∈ f.parameters, param.name ≠ entry.1) ∨ ¬ (call.named.map (·.1)).Nodup ∨
    ∃ i param, f.parameters[i]? = some param ∧ isOptional f i = false ∧ param.value = none ∧ given f call i = []

/-- No argument is named after the variadic parameter, or after one in front of it that is given by position. -/
def NamedApart (f : FunctionDefn E) (call : Call E) : Prop :=
  ∀ entry ∈ call.named, ∀ i param, f.parameters[i]? = some param → param.name = entry.1 →
    param.isVariadic = false ∧ (isOptional f i = false → call.positionals.length ≤ i)

/-- No parameter behind the variadic one is missing. -/
def BehindGiven (f : FunctionDefn E) (call : Call E) : Prop :=
  ∀ i param, f.parameters[i]? = some param → isOptional f i = true → param.isVariadic = false →
    param.value = none → given f call i ≠ []

/-- Nothing is spread and the extra arguments go into a slice, or one extra argument is spread and there is
no other. The typer then asks the parameter at the position of the last spread argument for a slice. -/
def SpreadAlone (f : FunctionDefn E) (call : Call E) : Prop :=
  (lastSpread call.arguments = none ∧ f.isExtern = false) ∨
    ∃ value, extras f call = [value] ∧ value.isSpread = true ∧
      (f.isExtern = true ∨ ∀ s, lastSpread call.arguments = some s →
        ∃ spread, wantedAt f call s = some (.value spread) ∧ spread.isSpread = true)

/-- The calls that are checked right. -/
def Handled (f : FunctionDefn E) (call : Call E) : Prop :=
  match f.variadicIndex with
  | none => call.named ≠ [] ∨ call.positionals.length ≤ f.parameters.length
  | some _ => Reported f call ∨ (NamedApart f call ∧ BehindGiven f call ∧ SpreadAlone f call)

theorem checkFunctionCall_rejected
    (not_ : ¬ ((Resolvable f call.positionals.length call.named ∧ (call.named.map (·.1)).Nodup) ∧
      requiredGiven f (placed f call) = true)) : checkFunctionCall qsort isCollection f call = .rejected := by
  rw [checkFunctionCall]
  cases resolved : resolvePositions f [] call.arguments with
  | none => rfl
  | some args =>
    obtain ⟨resolvable, rfl⟩ := (resolvePositions_eq args).mp resolved
    dsimp only
    rw [if_neg fun required => not_ ⟨resolvable, required⟩]

theorem checkFunctionCall_lower
    (resolvable : Resolvable f call.positionals.length call.named ∧ (call.named.map (·.1)).Nodup)
    (required : requiredGiven f (placed f call) = true) : checkFunctionCall qsort isCollection f call =
      lower isCollection f (lastSpread call.arguments)
        (if call.named.isEmpty then filled f call else qsort.sort (filled f call)) := by
  rw [checkFunctionCall, (resolvePositions_eq _).mpr ⟨resolvable, rfl⟩]
  dsimp only
  rw [if_pos required]
  rfl

/-- What the passes of the typer ask for without a variadic parameter. -/
theorem matched_of_none (index : f.variadicIndex = none)
    (resolvable : Resolvable f call.positionals.length call.named) (once : (call.named.map (·.1)).Nodup)
    (required : requiredGiven f (placed f call) = true) (fits : call.positionals.length ≤ f.parameters.length) :
    Matched f call where
  once i param at_ _ := by
    rw [given, isOptional_none index, if_neg Bool.false_ne_true, List.length_append, List.length_map, at_, Option.map_some,
      length_named]
    have count := List.nodup_iff_count_le_one.mp once param.name
    by_cases positional : i < call.positionals.length
    · rw [List.count_eq_zero_of_not_mem, List.getElem?_eq_getElem positional]
      · exact Nat.le_refl 1
      · intro mem
        obtain ⟨entry, memEntry, same⟩ := List.mem_map.mp mem
        have apart := resolvable.apart index entry memEntry
        rw [placeNamed_paramIndex at_ entry same.symm] at apart
        omega
    · rw [List.getElem?_eq_none (by omega)]
      simpa using count
  required i param at_ _ noDefault :=
    (requiredGiven_iff resolvable).mp required i param at_ noDefault (isOptional_none index)
  fits _ := fits
  known name value mem := by
    obtain ⟨param, memParam, same⟩ := resolvable.known (name, value) mem
    exact ⟨param, memParam, same, isVariadic_false index memParam⟩

theorem matched_of_some (index : f.variadicIndex = some v) (reported : ¬ Reported f call)
    (apart : NamedApart f call) (behind : BehindGiven f call) : Matched f call := by
  rw [Reported, not_or, not_or, not_not] at reported
  obtain ⟨known, once, front⟩ := reported
  refine ⟨fun i param at_ notVariadic => ?_, fun i param at_ notVariadic noDefault => ?_,
    fun none_ => absurd (index.symm.trans none_) (Option.some_ne_none v), fun name value mem => ?_⟩
  · rw [given, List.length_append, List.length_map, at_, Option.map_some, length_named]
    have count := List.nodup_iff_count_le_one.mp once param.name
    cases required : isOptional f i with
    | true => simpa using count
    | false =>
      by_cases positional : i < call.positionals.length
      · rw [List.count_eq_zero_of_not_mem, List.getElem?_eq_getElem positional]
        · exact Nat.le_refl 1
        · intro mem
          obtain ⟨entry, memEntry, same⟩ := List.mem_map.mp mem
          have := (apart entry memEntry i param at_ same.symm).2 required
          omega
      · rw [List.getElem?_eq_none (by omega)]
        simpa using count
  · cases required : isOptional f i with
    | true => exact behind i param at_ required notVariadic noDefault
    | false => exact fun missing => front ⟨i, param, at_, required, noDefault, missing⟩
  · by_contra unknown
    refine known ⟨(name, value), mem, fun param memParam same => unknown ⟨param, memParam, same, ?_⟩⟩
    obtain ⟨k, lt, rfl⟩ := List.getElem_of_mem memParam
    exact (apart (name, value) mem k _ (List.getElem?_eq_getElem lt) same).1

theorem Matched.namedApart (matched : Matched f call) : NamedApart f call := by
  intro entry mem i param at_ same
  obtain ⟨other, memOther, otherName, notVariadic⟩ := matched.known entry.1 entry.2 mem
  obtain ⟨k, lt, rfl⟩ := List.getElem_of_mem memOther
  obtain rfl := eq_of_name at_ (List.getElem?_eq_getElem lt) (same.trans otherName.symm)
  rw [List.getElem?_eq_getElem lt, Option.some.injEq] at at_
  subst at_
  refine ⟨notVariadic, fun required => ?_⟩
  by_contra positional
  have once := matched.once i _ (List.getElem?_eq_getElem lt) notVariadic
  have named : 0 < (call.named.map (·.1)).count entry.1 :=
    List.count_pos_iff.mpr (List.mem_map.mpr ⟨entry, mem, rfl⟩)
  rw [given, required, if_neg Bool.false_ne_true, List.length_append, List.length_map,
    List.getElem?_eq_getElem (by omega), List.getElem?_eq_getElem lt, Option.map_some, otherName, length_named] at once
  simp only [Option.toList_some, List.length_singleton] at once
  omega

theorem Matched.behindGiven (matched : Matched f call) : BehindGiven f call :=
  fun i param at_ _ notVariadic noDefault => matched.required i param at_ notVariadic noDefault

theorem Matched.not_reported (matched : Matched f call) : ¬ Reported f call := by
  rintro (⟨entry, mem, unknown⟩ | twice | ⟨i, param, at_, required, noDefault, missing⟩)
  · obtain ⟨param, memParam, same, _⟩ := matched.known entry.1 entry.2 mem
    exact unknown param memParam same
  · exact twice matched.resolvable.2
  · exact matched.required i param at_ (not_isVariadic required at_) noDefault missing

theorem reported_iff (index : f.variadicIndex = some v) :
    Reported f call ↔ ¬ ((Resolvable f call.positionals.length call.named ∧ (call.named.map (·.1)).Nodup) ∧
      requiredGiven f (placed f call) = true) := by
  constructor
  · rintro reported ⟨⟨resolvable, once⟩, required⟩
    obtain ⟨entry, mem, unknown⟩ | twice | ⟨i, param, at_, front, noDefault, missing⟩ := reported
    · obtain ⟨param, memParam, same⟩ := resolvable.known entry mem
      exact unknown param memParam same
    · exact twice once
    · exact (requiredGiven_iff resolvable).mp required i param at_ noDefault front missing
  · intro not_
    by_contra reported
    rw [Reported, not_or, not_or, not_not] at reported
    obtain ⟨known, once, front⟩ := reported
    have resolvable : Resolvable f call.positionals.length call.named := by
      refine ⟨fun entry mem => ?_, fun none_ => absurd (index.symm.trans none_) (Option.some_ne_none v)⟩
      by_contra unknown
      exact known ⟨entry, mem, fun param memParam same => unknown ⟨param, memParam, same⟩⟩
    refine not_ ⟨⟨resolvable, once⟩, (requiredGiven_iff resolvable).mpr fun i param at_ noDefault required missing => ?_⟩
    exact front ⟨i, param, at_, required, noDefault, missing⟩

theorem lastSpread_eq_none {args : List (Argument E)} :
    lastSpread args = none ↔ ∀ arg ∈ args, arg.value.isSpread = false := by
  induction args with
  | nil => simp [lastSpread]
  | cons arg args ih =>
    rw [lastSpread, List.forall_mem_cons, ← ih]
    cases lastSpread args with
    | some i => simp
    | none => cases spread : arg.value.isSpread <;> simp

theorem lastSpread_lt {args : List (Argument E)} {s : ℕ} (last : lastSpread args = some s) : s < args.length := by
  induction args generalizing s with
  | nil => cases last
  | cons arg args ih =>
    rw [lastSpread] at last
    split at last
    · next i found =>
      obtain rfl := Option.some.inj last
      exact Nat.succ_lt_succ (ih found)
    · split at last
      · obtain rfl := Option.some.inj last
        exact Nat.zero_lt_succ _
      · cases last

theorem length_arguments (f : FunctionDefn E) (call : Call E) : call.arguments.length ≤ (filled f call).length := by
  simp [Call.arguments, filled, placed, placedPositionals]

theorem mem_extras {value : Value E} (mem : value ∈ extras f call) :
    ∃ arg ∈ call.arguments, arg.value = value := by
  rw [extras] at mem
  split at mem
  · exact ⟨_, List.mem_append_left _ (List.mem_map_of_mem (List.mem_of_mem_drop mem)), rfl⟩
  · cases mem

/-- Without a slice around them, the extra arguments are one slice that is spread. -/
theorem values_eq_variadicValue (values : List (Value E)) :
    values.map Lowered.value = [variadicValue values] ↔ ∃ value, values = [value] ∧ value.isSpread = true := by
  match values with
  | [] => simp
  | [value] => cases spread : value.isSpread <;> simp [variadicValue, spread]
  | first :: second :: rest => simp

theorem variadicValue_of_not_spread {values : List (Value E)} (plain : ∀ value ∈ values, value.isSpread = false) :
    variadicValue values = .slice values := by
  match values, plain with
  | [], _ => rfl
  | [value], plain => simp [variadicValue, plain value (by simp)]
  | first :: second :: rest, _ => rfl

theorem plain_variadicArgument (values : List (Value E)) :
    plain (values.mapIdx fun k => variadicArgument v (v + k)) = values.map .value := by
  refine List.ext_getElem (by simp [plain]) fun i _ _ => ?_
  simp [plain, variadicArgument]

/-- What the passes leave of a matched call with a variadic parameter. -/
theorem Matched.plain_sorted (matched : Matched f call) (index : f.variadicIndex = some v) :
    (plain (grouped Argument.paramIndex f.parameters.length (filled f call))).map some = wanted f call ↔
      ∃ value, extras f call = [value] ∧ value.isSpread = true := by
  obtain ⟨front, back, equal, _, _, _, all⟩ := matched.grouped_split index
  rw [equal, all, plain_append, plain_append, plain_variadicArgument, List.map_append, List.map_append,
    ← values_eq_variadicValue, List.append_assoc, List.append_cancel_left_eq]
  constructor
  · intro same
    have one : ((extras f call).map Lowered.value).map some = [some (variadicValue (extras f call))] :=
      List.append_cancel_right (by simpa using same)
    exact List.map_injective_iff.mpr (fun _ _ => Option.some.inj) one
  · intro same
    rw [same]
    rfl

theorem Matched.wantedAt_of_plain {args : List (Argument E)} {s : ℕ} {arg : Argument E}
    (all : (plain args).map some = wanted f call) (at_ : args[s]? = some arg) : wantedAt f call s = some (.value arg.value) := by
  have one := congrArg (·[s]?) all
  simp only [plain, List.map_map, List.getElem?_map, at_, Option.map_some, Function.comp_apply, wanted_eq] at one
  cases ranged : (List.range f.parameters.length)[s]? with
  | none => simp [ranged] at one
  | some i =>
    obtain rfl : s = i := by
      rw [List.getElem?_eq_some_iff] at ranged
      obtain ⟨_, equal⟩ := ranged
      simpa using equal
    simpa [ranged] using one.symm

theorem lower_none (index : f.variadicIndex = none) (spread : Option ℕ) (args : List (Argument E)) :
    lower isCollection f spread args =
      if f.parameters.length < args.length then .outOfBounds else .accepted (plain args) := by
  rw [lower, index]

theorem lower_some (index : f.variadicIndex = some v) (spread : Option ℕ) {args : List (Argument E)}
    (below : ∀ arg ∈ args, arg.paramIndex < f.parameters.length) :
    lower isCollection f spread args =
      lowerWithVariadic isCollection f.isExtern v spread args := by
  have inBounds : (args.any fun arg => decide (f.parameters.length ≤ arg.paramIndex)) = false := by
    rw [List.any_eq_false]
    intro arg mem
    simpa using below arg mem
  simp only [lower, index, inBounds, Bool.false_eq_true, if_false]

/-- With a variadic parameter, a call without a reported error is accepted where every value is a slice. -/
theorem accepted_of_not_reported (index : f.variadicIndex = some v) (reported : ¬ Reported f call) :
    ∃ lowered, checkFunctionCall qsort (fun _ => true) f call = .accepted lowered := by
  rw [reported_iff index, not_not] at reported
  obtain ⟨resolvable, required⟩ := reported
  rw [checkFunctionCall_lower resolvable required]
  generalize equal : (if call.named.isEmpty then filled f call else qsort.sort (filled f call)) = args
  have perm : args.Perm (filled f call) := by
    rw [← equal]
    split
    · exact .refl _
    · exact qsort.perm _
  rw [lower_some index _ fun arg mem => paramIndex_lt resolvable.1
    (fun none_ => absurd (index.symm.trans none_) (Option.some_ne_none v)) (perm.subset mem), lowerWithVariadic.eq_def]
  split
  · exact ⟨_, rfl⟩
  · split
    · next s last =>
      have lt : s < args.length := by
        have := lastSpread_lt last
        have := length_arguments f call
        rw [perm.length_eq]
        omega
      rw [List.getElem?_eq_getElem lt]
      exact ⟨_, rfl⟩
    · exact ⟨_, rfl⟩

/-- The outcome of a matched call with a variadic parameter. -/
theorem Matched.checkFunctionCall_some (matched : Matched f call) (index : f.variadicIndex = some v) :
    checkFunctionCall qsort isCollection f call =
      lowerWithVariadic isCollection f.isExtern v (lastSpread call.arguments)
        (grouped Argument.paramIndex f.parameters.length (filled f call)) := by
  rw [checkFunctionCall_lower matched.resolvable matched.requiredGiven, matched.sorted_eq]
  exact lower_some index _ fun arg mem => (mem_grouped.mp mem).2

/-- Without a variadic parameter, only more arguments than parameters go wrong: they are read past the last
parameter, unless an argument has a name. -/
theorem checkedRight_none (index : f.variadicIndex = none) :
    CheckedRight qsort f call ↔ call.named ≠ [] ∨ call.positionals.length ≤ f.parameters.length := by
  constructor
  · intro right
    by_contra wrong
    rw [not_or, not_not, Nat.not_le] at wrong
    obtain ⟨noNames, tooMany⟩ := wrong
    have resolvable : Resolvable f call.positionals.length call.named ∧ (call.named.map (·.1)).Nodup := by
      rw [noNames]
      exact ⟨⟨fun _ member => absurd member List.not_mem_nil,
        fun _ _ member => absurd member List.not_mem_nil⟩, List.nodup_nil⟩
    have required : requiredGiven f (placed f call) = true := by
      refine (requiredGiven_iff resolvable.1).mpr fun i param at_ _ _ missing => ?_
      have lt := (List.getElem?_eq_some_iff.mp at_).1
      rw [given, isOptional_none index, if_neg Bool.false_ne_true, List.getElem?_eq_getElem (by omega)] at missing
      cases missing
    have outcome : checkFunctionCall qsort (fun _ => true) f call = .outOfBounds := by
      rw [checkFunctionCall_lower resolvable required, noNames, List.isEmpty_nil, if_pos rfl, lower_none index, if_pos]
      have := length_arguments f call
      simp only [Call.arguments, List.length_append, List.length_map] at this
      omega
    have notMatched : ¬ Matched f call := fun matched => by
      have := matched.fits index
      omega
    have rejected := (right (fun _ => true) fun _ _ => rfl).2 notMatched
    rw [outcome] at rejected
    cases rejected
  · intro handled isCollection _
    constructor
    · intro matched
      have all := matched.plain_grouped index
      have length := congrArg List.length all
      rw [List.length_map, plain, List.length_map, wanted_eq, List.length_map, List.length_range] at length
      refine ⟨_, ?_, all⟩
      rw [checkFunctionCall_lower matched.resolvable matched.requiredGiven, matched.sorted_eq, lower_none index,
        if_neg (by omega)]
    · intro notMatched
      refine checkFunctionCall_rejected fun reported => notMatched ?_
      obtain ⟨⟨resolvable, once⟩, required⟩ := reported
      refine matched_of_none index resolvable once required ?_
      obtain named | fits := handled
      · obtain ⟨entry, mem⟩ := List.exists_mem_of_ne_nil _ named
        obtain ⟨param, memParam, same⟩ := resolvable.known entry mem
        obtain ⟨k, lt, rfl⟩ := List.getElem_of_mem memParam
        have apart := resolvable.apart index entry mem
        rw [placeNamed_paramIndex (List.getElem?_eq_getElem lt) entry same] at apart
        omega
      · exact fits

theorem Matched.spreadAlone (matched : Matched f call) (index : f.variadicIndex = some v)
    (right : CheckedRight qsort f call) : SpreadAlone f call := by
  obtain ⟨lowered, outcome, all⟩ := (right (·.isSpread) fun _ spread => spread).1 matched
  rw [matched.checkFunctionCall_some index, lowerWithVariadic.eq_def] at outcome
  split at outcome
  · next isExtern =>
    cases outcome
    obtain ⟨value, equal, spread⟩ := (matched.plain_sorted index).mp all
    exact .inr ⟨value, equal, spread, .inl isExtern⟩
  · next notExtern =>
    split at outcome
    · next s last =>
      split at outcome
      · cases outcome
      · next arg at_ =>
        split at outcome
        · next isSpread =>
          cases outcome
          obtain ⟨value, equal, spread⟩ := (matched.plain_sorted index).mp all
          refine .inr ⟨value, equal, spread, .inr fun other lastOther => ?_⟩
          rw [last] at lastOther
          cases lastOther
          exact ⟨arg.value, Matched.wantedAt_of_plain all at_, isSpread⟩
        · cases outcome
    · next last => exact .inl ⟨last, Bool.eq_false_iff.mpr notExtern⟩

theorem Matched.accepted_of_spreadAlone (matched : Matched f call) (index : f.variadicIndex = some v)
    (alone : SpreadAlone f call) (spreads : ∀ value : Value E, value.isSpread = true → isCollection value = true) :
    ∃ lowered, checkFunctionCall qsort isCollection f call = .accepted lowered ∧ lowered.map some = wanted f call := by
  rw [matched.checkFunctionCall_some index, lowerWithVariadic.eq_def]
  obtain ⟨last, notExtern⟩ | ⟨value, equal, spread, place⟩ := alone
  · obtain ⟨front, back, split, length, unmarkedFront, unmarkedBack, all⟩ := matched.grouped_split index
    rw [notExtern, last]
    refine ⟨_, rfl, ?_⟩
    have marked : ∀ arg ∈ (extras f call).mapIdx fun k => variadicArgument v (v + k), arg.isVararg = true := by
      intro arg mem
      obtain ⟨k, _, rfl⟩ := List.mem_mapIdx.mp mem
      rfl
    have values : ((grouped Argument.paramIndex f.parameters.length (filled f call)).filter (·.isVararg)).map (·.value) =
        extras f call := by
      have noneFront : front.filter (·.isVararg) = [] := List.filter_eq_nil_iff.mpr (by simpa using unmarkedFront)
      have noneBack : back.filter (·.isVararg) = [] := List.filter_eq_nil_iff.mpr (by simpa using unmarkedBack)
      rw [split, List.filter_append, List.filter_append, noneFront, noneBack, List.filter_eq_self.mpr marked,
        List.nil_append, List.append_nil]
      refine List.ext_getElem (by simp) fun i _ _ => ?_
      simp [variadicArgument]
    have plainExtras : ∀ value ∈ extras f call, value.isSpread = false := by
      intro value mem
      obtain ⟨arg, memArg, rfl⟩ := mem_extras mem
      exact lastSpread_eq_none.mp last arg memArg
    rw [values, split, lowerVariadic_split _ front _ back length unmarkedFront marked unmarkedBack, all,
      variadicValue_of_not_spread plainExtras, List.map_append, List.map_cons]
  · have all := (matched.plain_sorted index).mpr ⟨value, equal, spread⟩
    cases isExtern : f.isExtern with
    | true => exact ⟨_, rfl, all⟩
    | false =>
      obtain place | place := place
      · rw [isExtern] at place
        cases place
      · have mem : value ∈ extras f call := by simp [equal]
        obtain ⟨arg, memArg, same⟩ := mem_extras mem
        cases last : lastSpread call.arguments with
        | none =>
          have not_ := lastSpread_eq_none.mp last arg memArg
          rw [same, spread] at not_
          cases not_
        | some s =>
          obtain ⟨spreadValue, wants, isSpread⟩ := place s last
          have lt : s < (grouped Argument.paramIndex f.parameters.length (filled f call)).length := by
            have := lastSpread_lt last
            have := length_arguments f call
            rw [(grouped_perm fun arg mem => paramIndex_lt matched.resolvable.1 matched.fits mem).length_eq]
            omega
          have at_ := List.getElem?_eq_getElem lt
          have found := (Matched.wantedAt_of_plain all at_).symm.trans wants
          rw [Option.some.injEq, Lowered.value.injEq] at found
          refine ⟨_, ?_, all⟩
          rw [if_neg Bool.false_ne_true]
          dsimp only
          rw [at_]
          dsimp only
          rw [found, if_pos (spreads _ isSpread)]

/-- Every call is checked right exactly when it is one of the handled ones. -/
theorem checkedRight_iff_handled (qsort : Sorting E) (f : FunctionDefn E) (call : Call E) :
    CheckedRight qsort f call ↔ Handled f call := by
  rw [Handled]
  cases index : f.variadicIndex with
  | none => exact checkedRight_none index
  | some v =>
    dsimp only
    constructor
    · intro right
      by_cases reported : Reported f call
      · exact .inl reported
      · obtain ⟨lowered, accepted⟩ : ∃ lowered, checkFunctionCall qsort (fun _ => true) f call = .accepted lowered :=
          accepted_of_not_reported index reported
        have matched : Matched f call := by
          by_contra notMatched
          rw [(right (fun _ => true) fun _ _ => rfl).2 notMatched] at accepted
          cases accepted
        exact .inr ⟨matched.namedApart, matched.behindGiven, matched.spreadAlone index right⟩
    · intro handled isCollection spreads
      by_cases reported : Reported f call
      · exact ⟨fun matched => absurd reported matched.not_reported,
          fun _ => checkFunctionCall_rejected ((reported_iff index).mp reported)⟩
      · obtain handled | ⟨apart, behind, alone⟩ := handled
        · exact absurd handled reported
        · have matched := matched_of_some index reported apart behind
          exact ⟨fun _ => matched.accepted_of_spreadAlone index alone spreads, fun not_ => absurd matched not_⟩

/-- `foo :: (a: int) {}` -/
def foo : FunctionDefn ℕ where
  parameters := [{ name := "a" }]
  namesDistinct := by decide
  defaultsLast := by simp
  variadicPlain := by simp
  oneVariadic := by simp
  variadicPlaced := by simp [variadicParameterIndex]

/-- `foo(1, 2)` reads a second parameter of `foo`. -/
theorem foo_reads_past_parameters :
    ¬ Matched foo { positional := [⟨1, false⟩, ⟨2, false⟩] } ∧ ∀ qsort isCollection,
      checkFunctionCall qsort isCollection foo { positional := [⟨1, false⟩, ⟨2, false⟩] } = .outOfBounds :=
  ⟨fun matched => absurd (matched.fits rfl) (by decide), fun _ _ => rfl⟩

end Handled

end Saad.Calls
