import Mathlib.Data.List.Basic

/-! # The arguments of a call

Positions, names, defaults and the variadic rest of a call, in the passes that the typer makes over the
list of arguments. The types of values are left out, apart from whether one can be spread: every value fits
its parameter.
-/

namespace Saad.Calls

variable {E : Type}

section Syntax

/-- The value of an argument, `...expr` when it is spread. -/
structure Value (E : Type) where
  expr : E
  isSpread : Bool
deriving DecidableEq

/-- A parameter, with its default value. -/
structure Parameter (E : Type) where
  name : String
  value : Option E := none
  isVariadic : Bool := false

/-- The position of the variadic parameter. -/
def variadicParameterIndex (parameters : List (Parameter E)) : Option ℕ :=
  parameters.findIdx? (·.isVariadic)

/-- What the parser and the check of the definition leave: parameters with defaults come last, and the
variadic one, of which there is one, is the last parameter where there are no defaults. -/
structure FunctionDefn (E : Type) where
  parameters : List (Parameter E)
  isExtern : Bool := false
  namesDistinct : (parameters.map (·.name)).Nodup
  defaultsLast : parameters.Pairwise fun before after => before.value.isSome = true → after.value.isSome = true
  variadicPlain : ∀ param ∈ parameters, param.isVariadic = true → param.value = none
  oneVariadic : parameters.Pairwise fun before after => before.isVariadic = true → after.isVariadic = false
  variadicPlaced : ∀ v, variadicParameterIndex parameters = some v →
    v + 1 = parameters.length ∨ parameters.any (·.value.isSome) = true

/-- A call as the parser leaves it: the arguments without a name come before those with one. A method call
has its receiver as its first argument. -/
structure Call (E : Type) where
  receiver : Option (Value E) := none
  positional : List (Value E)
  named : List (String × Value E) := []

def Call.positionals (call : Call E) : List (Value E) := call.receiver.toList ++ call.positional

structure Argument (E : Type) where
  ident : Option String := none
  value : Value E
  paramIndex : ℕ := 0
  isVararg : Bool := false
  varargIndex : ℕ := 0

def Call.arguments (call : Call E) : List (Argument E) :=
  (call.positionals.map fun value => { value := value }) ++
    call.named.map fun (name, value) => { ident := some name, value := value }

end Syntax

section Passes

def FunctionDefn.variadicIndex (f : FunctionDefn E) : Option ℕ := variadicParameterIndex f.parameters

/-- The position of an argument behind those that have one. None is an error that is reported. -/
def resolveArgument (f : FunctionDefn E) (done : List (Argument E)) (arg : Argument E) : Option (Argument E) :=
  match arg.ident with
  | none =>
    match f.variadicIndex with
    | some v =>
      if v ≤ done.length then some { arg with paramIndex := v, isVararg := true, varargIndex := done.length }
      else some { arg with paramIndex := done.length }
    | none => some { arg with paramIndex := done.length }
  | some name =>
    match f.parameters.findIdx? fun param => param.name == name with
    | none => none -- Unknown argument
    | some paramIndex =>
      if done.any fun prev => prev.ident.isSome && prev.paramIndex == paramIndex then none -- specified twice
      else if f.variadicIndex.isNone && done[paramIndex]?.any (·.ident.isNone) then none -- already given
      else some { arg with paramIndex := paramIndex }

def resolvePositions (f : FunctionDefn E) (done : List (Argument E)) : List (Argument E) → Option (List (Argument E))
  | [] => some done
  | arg :: args =>
    match resolveArgument f done arg with
    | none => none
    | some arg => resolvePositions f (done ++ [arg]) args

def isOptional (f : FunctionDefn E) (i : ℕ) : Bool :=
  match f.variadicIndex with
  | some v => decide (v ≤ i)
  | none => false

def requiredGiven (f : FunctionDefn E) (args : List (Argument E)) : Bool :=
  f.parameters.zipIdx.all fun (param, i) =>
    param.value.isSome || isOptional f i || args.any fun arg => arg.paramIndex == i

/-- Whether an argument gives the value of a parameter with a default. Behind a variadic parameter, only one
with a name can. -/
def givesDefault (f : FunctionDefn E) (call : Call E) (args : List (Argument E)) (i : ℕ) : Bool :=
  match f.variadicIndex with
  | none => args.any fun arg => arg.paramIndex == i
  | some _ =>
    !call.named.isEmpty && (args.drop call.positional.length).any fun arg => arg.paramIndex == i

/-- The defaults that are added. None of them is for a parameter that another one is for. -/
def defaultArguments (f : FunctionDefn E) (call : Call E) (args : List (Argument E)) : List (Argument E) :=
  f.parameters.zipIdx.filterMap fun (param, i) =>
    if givesDefault f call args i then none
    else param.value.map fun value => { value := ⟨value, false⟩, paramIndex := i }

def lastSpread : List (Argument E) → Option ℕ
  | [] => none
  | arg :: args =>
    match lastSpread args with
    | some i => some (i + 1)
    | none => if arg.value.isSpread then some 0 else none

/-- `compare_argument_index` is negative. -/
def Argument.before (a b : Argument E) : Prop :=
  a.paramIndex < b.paramIndex ∨ a.paramIndex = b.paramIndex ∧ a.varargIndex < b.varargIndex

/-- `qsort` leaves the order of arguments open that compare as equal. -/
structure Sorting (E : Type) where
  sort : List (Argument E) → List (Argument E)
  perm : ∀ args, (sort args).Perm args
  sorted : ∀ args, (sort args).Pairwise fun a b => ¬ b.before a

instance (a b : Argument E) : Decidable (a.before b) := inferInstanceAs (Decidable (_ ∨ _))

def Argument.notAfter (a b : Argument E) : Bool := !decide (b.before a)

theorem notAfter_iff {a b : Argument E} : a.notAfter b = true ↔ ¬ b.before a := by
  simp [Argument.notAfter]

theorem notAfter_trans (a b c : Argument E) (ab : a.notAfter b = true) (bc : b.notAfter c = true) :
    a.notAfter c = true := by
  rw [notAfter_iff] at ab bc ⊢
  simp only [Argument.before] at ab bc ⊢
  omega

theorem notAfter_total (a b : Argument E) : (a.notAfter b || b.notAfter a) = true := by
  rw [Bool.or_eq_true, notAfter_iff, notAfter_iff]
  simp only [Argument.before]
  omega

/-- The stable sort is one that `qsort` can be. -/
def Sorting.stable : Sorting E where
  sort args := args.mergeSort Argument.notAfter
  perm args := List.mergeSort_perm args _
  sorted args := (List.pairwise_mergeSort notAfter_trans notAfter_total args).imp notAfter_iff.mp

/-- A lowered argument: the value of an argument, or the slice of the extra arguments. -/
inductive Lowered (E : Type)
  | value (value : Value E)
  | slice (values : List (Value E))
deriving DecidableEq

/-- Out of bounds, the typer has read a parameter or an argument behind the last one. -/
inductive Outcome (E : Type)
  | rejected
  | outOfBounds
  | accepted (lowered : List (Lowered E))
deriving DecidableEq

/-- The loop that leaves out the extra arguments and puts in their slice, at the last if not before. -/
def lowerVariadic (v : ℕ) (slice : Lowered E) (i : ℕ) : List (Argument E) → List (Lowered E)
  | [] => if i ≤ v then [slice] else []
  | arg :: args =>
    (if i = v then [slice] else []) ++ (if arg.isVararg then [] else [.value arg.value]) ++
      lowerVariadic v slice (i + 1) args

def plain (args : List (Argument E)) : List (Lowered E) := args.map fun arg => .value arg.value

/-- The lowered arguments of a call with a variadic parameter. Only a slice or a variadic parameter can be
spread. -/
def lowerWithVariadic (isCollection : Value E → Bool) (isExtern : Bool) (v : ℕ) (spreadedArgIndex : Option ℕ)
    (args : List (Argument E)) : Outcome E :=
  if isExtern then .accepted (plain args)
  else
    match spreadedArgIndex with
    | some i =>
      match args[i]? with
      | none => .outOfBounds
      | some arg => if isCollection arg.value then .accepted (plain args) else .rejected
    | none => .accepted (lowerVariadic v (.slice ((args.filter (·.isVararg)).map (·.value))) 0 args)

/-- The arguments against the parameters: by the position of each with a variadic parameter, else in order. -/
def lower (isCollection : Value E → Bool) (f : FunctionDefn E) (spreadedArgIndex : Option ℕ)
    (args : List (Argument E)) : Outcome E :=
  match f.variadicIndex with
  | none => if f.parameters.length < args.length then .outOfBounds else .accepted (plain args)
  | some v =>
    if args.any fun arg => decide (f.parameters.length ≤ arg.paramIndex) then .outOfBounds
    else lowerWithVariadic isCollection f.isExtern v spreadedArgIndex args

def checkFunctionCall (qsort : Sorting E) (isCollection : Value E → Bool) (f : FunctionDefn E) (call : Call E) :
    Outcome E :=
  match resolvePositions f [] call.arguments with
  | none => .rejected
  | some args =>
    if requiredGiven f args then
      let filled := args ++ defaultArguments f call args
      lower isCollection f (lastSpread call.arguments) (if call.named.isEmpty then filled else qsort.sort filled)
    else .rejected -- Missing required parameter

end Passes

section Wanted

/-- The arguments that a parameter other than the variadic one is given, by position or by name. -/
def given (f : FunctionDefn E) (call : Call E) (i : ℕ) : List (Value E) :=
  (if isOptional f i then [] else call.positionals[i]?.toList) ++
    (call.named.filter fun entry => (f.parameters[i]?.map (·.name)) == some entry.1).map (·.2)

def extras (f : FunctionDefn E) (call : Call E) : List (Value E) :=
  match f.variadicIndex with
  | some v => call.positionals.drop v
  | none => []

/-- Each required parameter gets exactly one argument, and no argument is left over or given twice. -/
structure Matched (f : FunctionDefn E) (call : Call E) : Prop where
  once : ∀ i param, f.parameters[i]? = some param → param.isVariadic = false → (given f call i).length ≤ 1
  required : ∀ i param, f.parameters[i]? = some param → param.isVariadic = false → param.value = none →
    given f call i ≠ []
  fits : f.variadicIndex = none → call.positionals.length ≤ f.parameters.length
  known : ∀ name value, (name, value) ∈ call.named → ∃ param ∈ f.parameters, param.name = name ∧ param.isVariadic = false

/-- One slice that is spread is the slice of the extra arguments. -/
def variadicValue : List (Value E) → Lowered E
  | [value] => if value.isSpread then .value value else .slice [value]
  | values => .slice values

def parameterValue (f : FunctionDefn E) (call : Call E) (i : ℕ) (param : Parameter E) : Option (Lowered E) :=
  if param.isVariadic then some (variadicValue (extras f call))
  else ((given f call i).head?.or (param.value.map fun value => ⟨value, false⟩)).map .value

/-- The value of each parameter, in the order of the parameters. -/
def wanted (f : FunctionDefn E) (call : Call E) : List (Option (Lowered E)) :=
  f.parameters.mapIdx (parameterValue f call)

/-- Whatever the types of the values are, the call is accepted with the wanted values when it matches the
parameters, and an error is reported when it does not. -/
def CheckedRight (qsort : Sorting E) (f : FunctionDefn E) (call : Call E) : Prop :=
  ∀ isCollection : Value E → Bool, (∀ value, value.isSpread = true → isCollection value = true) →
    (Matched f call → ∃ lowered, checkFunctionCall qsort isCollection f call = .accepted lowered ∧
      lowered.map some = wanted f call) ∧
    (¬ Matched f call → checkFunctionCall qsort isCollection f call = .rejected)

end Wanted

end Saad.Calls
