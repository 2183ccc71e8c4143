import Saad.Html.Value

/-! # Rendering templates

The renderer runs through four constructs into nodes and expressions that are no part of those it is in: an
include, a macro, the template that another one extends, and a block. `Levels` is what it does in them;
everything else follows the syntax. The constructs that are rendered in each other are recorded in `nest`,
which the renderer never reads.
-/

namespace Saad.Html

section Actions

inductive Construct where
  | included | called | extended | block
deriving DecidableEq, Repr

/-- `TemplateRenderer`: what changes in a render. `vars` are its variables, the last the innermost. -/
structure Renderer (F : Type) where
  out : List Piece
  vars : List (Text × Value F)
  barrier : ℕ
  chain : List (Template F)
  depth : ℤ
  nest : List Construct

/-- The result of a part of a render: a value, an error, a function of the program that does not return, or
constructs in each other down to the last of the levels that are looked at. -/
inductive Result (F α : Type) where
  | done (value : α) (renderer : Renderer F)
  | thrown (error : TemplateError)
  | hangs
  | endless (nest : List Construct)

def Action (F α : Type) : Type := Renderer F → Result F α

variable {F α β : Type}

namespace Action

def pure (value : α) : Action F α := fun r => .done value r

def bind (action : Action F α) (next : α → Action F β) : Action F β := fun r =>
  match action r with
  | .done value after => next value after
  | .thrown error => .thrown error
  | .hangs => .hangs
  | .endless nest => .endless nest

instance : Monad (Action F) where
  pure := Action.pure
  bind := Action.bind

def get : Action F (Renderer F) := fun r => .done r r

def modify (f : Renderer F → Renderer F) : Action F Unit := fun r => .done () (f r)

def throw (error : TemplateError) : Action F α := fun _ => .thrown error

/-- What a filter or function of the program gives. -/
def returned (value : Returned F) : Action F (Value F) := fun r =>
  match value with
  | some (.ok value) => .done value r
  | some (.error error) => .thrown error
  | none => .hangs

def endless : Action F α := fun r => .endless r.nest

/-- The construct is entered, and left with `leave`, which knows the renderer from before it. -/
def inside (construct : Construct) (enter : Renderer F → Renderer F) (action : Action F α)
    (leave : Renderer F → Renderer F → Renderer F) : Action F α := fun r =>
  match action { enter r with nest := construct :: r.nest } with
  | .done value after => .done value { leave r after with nest := r.nest }
  | .thrown error => .thrown error
  | .hangs => .hangs
  | .endless nest => .endless nest

end Action

end Actions

section Rendering

variable {F : Type}

/-- The templates of a folder with the filters, functions and globals of the program, and the data. -/
structure Environment (F : Type) where
  /-- `load`: reads and parses a file of the folder. -/
  load : Text → Except TemplateError (Template F)
  filters : List (Text × Filter F)
  functions : List (Text × TemplateFunction F)
  globals : List (Text × Value F)
  data : Any F

/-- What is done in a construct. -/
structure Levels (F : Type) where
  renderTemplate : Template F → Action F Unit
  renderNodes : Nodes F → Action F Unit
  eval : Expr F → Action F (Value F)

variable (lib : Library F) (env : Environment F) (levels : Levels F)

def load (name : Text) : Action F (Template F) :=
  match env.load name with
  | .ok template => .pure template
  | .error error => .throw error

def addVariable (name : Text) (value : Value F) : Action F Unit :=
  .modify fun r => { r with vars := r.vars ++ [(name, value)] }

/-- `r.variables.count = count`. -/
def keepVariables (count : ℕ) : Action F Unit :=
  .modify fun r => { r with vars := r.vars.take count }

def addPieces (pieces : List Piece) : Action F Unit :=
  .modify fun r => { r with out := r.out ++ pieces }

/-- Html is written as it is. -/
def write (value : Value F) : Action F Unit :=
  match value with
  | .html pieces => addPieces pieces
  | .none => .pure ()
  | value => addPieces [.escaped (textOf lib value)]

/-- The value of a name: a variable, a macro from before the barrier, a member of the data, or a global. -/
def lookup (r : Renderer F) (name : Text) : Value F :=
  match (r.vars.drop r.barrier).reverse.find? (·.1 = name) with
  | some found => found.2
  | none =>
    match (r.vars.take r.barrier).find? fun v => v.1 = name ∧ v.2.isMacro with
    | some found => found.2
    | none =>
      match memberValue (valueOf env.data) name with
      | .none => (env.globals.lookup name).getD .none
      | member => member

/-- Includes and macros in each other, at most 100 deep. -/
def enter (line : ℤ) : Action F Unit := fun r =>
  if 100 < r.depth + 1 then .thrown (.tooDeep line) else .done () { r with depth := r.depth + 1 }

/-- The last parameter with the name. -/
def paramIndex (params : List (Param F)) (name : Text) : Option ℕ :=
  (params.zipIdx.filter (·.1.name = name)).getLast?.map (·.2)

/-- What is given for a parameter, or its default. -/
def paramValue (param : Param F) : Option (Value F) → Action F (Value F)
  | some value => .pure value
  | none =>
    match param.value with
    | some default => levels.eval default
    | none => .pure .none

/-- The parameters as variables. -/
def bindParams : List (Param F × Option (Value F)) → Action F Unit
  | [] => .pure ()
  | (param, given) :: rest => do
    addVariable param.name (← paramValue levels param given)
    bindParams rest

/-- The text that the macro writes, as html. -/
def macroBody (called : Macro F) (given : List (Option (Value F))) : Action F (Value F) := do
  bindParams levels (called.params.zip given)
  levels.renderNodes called.body
  return .html (← .get).out

/-- `callMacro` after its arguments. -/
def runMacro (line : ℤ) (called : Macro F) (given : List (Option (Value F))) : Action F (Value F) := do
  enter line
  .inside .called (fun r => { r with out := [], barrier := r.vars.length })
    (macroBody levels called given)
    (fun r after =>
      { after with
        out := r.out
        vars := after.vars.take r.vars.length
        barrier := r.barrier
        depth := after.depth - 1 })

def Expr.name? : Expr F → Option Text
  | .name written => some written
  | _ => none

mutual

def eval : Expr F → Action F (Value F)
  | .literal value => .pure value.toValue
  | .name name => do return lookup env (← .get) name
  | .member left name => do return memberValue (← eval left) name
  | .index left right => do
    let value ← eval left
    let index ← eval right
    return indexValue value index
  | .list items => do return .list (← evalArgs items)
  | .unary .not left => do return .boolean (!isTrue lib (← eval left))
  | .unary .minus left => do return negate lib (← eval left)
  | .binary .and left right => do
    let value ← eval left
    if isTrue lib value then eval right else return value
  | .binary .or left right => do
    let value ← eval left
    if isTrue lib value then return value else eval right
  | .binary operator left right => do
    let a ← eval left
    let b ← eval right
    return evalOperator lib operator a b
  | .filter line name left args =>
    match env.filters.lookup name with
    | none => .throw (.noFilter line name)
    | some filter => do
      let args ← evalArgs args
      let value ← eval left
      .returned (filter args value)
  | .call line left args => do
    let value ← eval left
    match value, left.name? with
    | .macro_ called, _ => do
      let given ← bindArgs line called 0 (called.params.map fun _ => none) args
      runMacro levels line called given
    | _, some name =>
      match env.functions.lookup name with
      | none => .throw (.noFunction line name)
      | some function => do
        let args ← evalArgs args
        .returned (function args)
    | _, none => .throw (.notCallable line)

/-- The arguments of a filter or a function, and the items of a list. -/
def evalArgs : Args F → Action F (List (Value F))
  | .nil => .pure []
  | .cons _ value rest => do
    let value ← eval value
    let rest ← evalArgs rest
    return value :: rest

/-- The arguments of a macro, by position and by name. -/
def bindArgs (line : ℤ) (called : Macro F) (position : ℕ) (given : List (Option (Value F))) :
    Args F → Action F (List (Option (Value F)))
  | .nil => .pure given
  | .cons name value rest =>
    if name.isEmpty then
      if called.params.length ≤ position then
        .throw (.tooManyArguments line called.name called.params.length)
      else do
        let value ← eval value
        bindArgs line called (position + 1) (given.set position (some value)) rest
    else
      match paramIndex called.params name with
      | none => .throw (.noParameter line called.name name)
      | some index => do
        let value ← eval value
        bindArgs line called position (given.set index (some value)) rest

end

/-- The value of the variable `loop`. -/
def loopValue (index length : ℕ) : Value F :=
  .data (.struct
    [(asciiBytes "index", .int (int32 (int32 index + 1))), (asciiBytes "index0", .int (int32 index)),
      (asciiBytes "first", .bool (index = 0)), (asciiBytes "last", .bool (index + 1 = length)),
      (asciiBytes "length", .int (int32 length))])

/-- The body of a `for` for each item, with its index. -/
def forItems (body : Value F → ℕ → Action F Unit) : List (Value F) → ℕ → Action F Unit
  | [], _ => .pure ()
  | item :: rest, index => do
    body item index
    forItems body rest (index + 1)

/-- The block of the template that extends the others the most. -/
def blockBody (chain : List (Template F)) (name : Text) (body : Nodes F) : Nodes F :=
  (chain.findSome? fun template => template.blocks.lookup name).getD body

def renderBlock (name : Text) (body : Nodes F) : Action F Unit := do
  let r ← .get
  .inside .block id (levels.renderNodes (blockBody r.chain name body)) (fun _ after => after)

def includeTemplate (line : ℤ) (name : Text) : Action F Unit := do
  enter line
  let template ← load env name
  .inside .included (fun r => { r with chain := [] }) (levels.renderTemplate template)
    (fun r after => { after with chain := r.chain, depth := after.depth - 1 })

/-- The rest of `renderTemplate` for a template that extends the one with the name. -/
def extendTemplate (name : Text) : Action F Unit := do
  let parent ← load env name
  .inside .extended id (levels.renderTemplate parent) (fun _ after => after)

mutual

def renderNode : Node F → Action F Unit
  | .text text => addPieces [.template text]
  | .output expr => do write lib (← eval lib env levels expr)
  | .if_ branches orElse => do
    if ← renderBranches branches then .pure () else renderNodes orElse
  | .for_ name expr body orElse => do
    let items := itemsOf (← eval lib env levels expr)
    if items.isEmpty then renderNodes orElse
    else do
      let r ← .get
      forItems (fun item index => do
          keepVariables r.vars.length
          addVariable name item
          addVariable (asciiBytes "loop") (loopValue index items.length)
          renderNodes body)
        items 0
      keepVariables r.vars.length
  | .set name expr => do addVariable name (← eval lib env levels expr)
  | .include_ line expr => do
    includeTemplate env levels line (textOf lib (← eval lib env levels expr))
  | .block name body => renderBlock levels name body
  | .macro_ => .pure ()

def renderNodes : Nodes F → Action F Unit
  | .nil => .pure ()
  | .cons first rest => do
    renderNode first
    renderNodes rest

/-- The first branch whose condition is true. Whether there was one. -/
def renderBranches : Branches F → Action F Bool
  | .nil => .pure false
  | .cons condition body rest => do
    if isTrue lib (← eval lib env levels condition) then do
      renderNodes body
      return true
    else renderBranches rest

end

def addMacros : List (Macro F) → Action F Unit
  | [] => .pure ()
  | called :: rest => do
    addVariable called.name (.macro_ called)
    addMacros rest

def renderTemplate (template : Template F) : Action F Unit := do
  addMacros template.macros
  match template.extends_ with
  | none => renderNodes lib env levels template.nodes
  | some expr => do
    .modify fun r => { r with chain := r.chain ++ [template] }
    extendTemplate env levels (textOf lib (← eval lib env levels expr))

/-- With constructs in each other at most as deep as the fuel. -/
def levelsOf : ℕ → Levels F
  | 0 => ⟨fun _ => .endless, fun _ => .endless, fun _ => .endless⟩
  | fuel + 1 =>
    ⟨renderTemplate lib env (levelsOf fuel), renderNodes lib env (levelsOf fuel),
      eval lib env (levelsOf fuel)⟩

def Renderer.start : Renderer F := ⟨[], [], 0, [], 0, []⟩

def renderFile (name : Text) : Action F Unit := do
  let template ← load env name
  levels.renderTemplate template

/-- `render`. The text is that of the pieces in `out`. -/
def render (fuel : ℕ) (name : Text) : Result F Unit := renderFile env (levelsOf lib env fuel) name .start

end Rendering

section WholeNumbers

/-- Numbers without a part behind the point. -/
def wholeNumbers : Library ℤ where
  ofInt n := n
  toInt n := n
  neg := Int.neg
  add := (· + ·)
  sub := (· - ·)
  mul := (· * ·)
  div := Int.tdiv
  equal := (· == ·)
  less a b := decide (a < b)
  lessEqual a b := decide (a ≤ b)
  sprintNumber := intText
  sprint _ := []

/-- A folder whose files are all the same template. -/
def folderOf (template : Template ℤ) : Environment ℤ :=
  ⟨fun _ => .ok template, [], [], [], .null⟩

end WholeNumbers

end Saad.Html
