import Saad.Html.Render

/-! # A rule for renders

A relation between two renders, with a condition on the values in them, that the smallest steps keep and
that holds of what is done in the constructs, holds of everything that the renderer does between them. The
templates may be limited to some filters and texts.
-/

namespace Saad.Html

section Uses

/-- The filters that a template uses, and the texts in it. -/
structure Allowed where
  filter : Text → Prop
  text : Text → Prop

variable {F : Type} (allowed : Allowed)

mutual

/-- The filters in an expression are allowed. -/
def Expr.Uses : Expr F → Prop
  | .literal _ | .name _ => True
  | .member left _ | .unary _ left => left.Uses
  | .index left right | .binary _ left right => left.Uses ∧ right.Uses
  | .call _ left args => left.Uses ∧ args.Uses
  | .filter _ name left args => allowed.filter name ∧ left.Uses ∧ args.Uses
  | .list items => items.Uses

def Args.Uses : Args F → Prop
  | .nil => True
  | .cons _ value rest => value.Uses ∧ rest.Uses

end

mutual

def Node.Uses : Node F → Prop
  | .text text => allowed.text text
  | .macro_ => True
  | .output expr | .set _ expr | .include_ _ expr => expr.Uses allowed
  | .if_ branches orElse => branches.Uses ∧ orElse.Uses
  | .for_ _ expr body orElse => expr.Uses allowed ∧ body.Uses ∧ orElse.Uses
  | .block _ body => body.Uses

def Nodes.Uses : Nodes F → Prop
  | .nil => True
  | .cons first rest => first.Uses ∧ rest.Uses

def Branches.Uses : Branches F → Prop
  | .nil => True
  | .cons condition body rest => condition.Uses allowed ∧ body.Uses ∧ rest.Uses

end

structure Macro.Uses (called : Macro F) : Prop where
  defaults : ∀ param ∈ called.params, ∀ expr ∈ param.value, expr.Uses allowed
  body : called.body.Uses allowed

structure Template.Uses (template : Template F) : Prop where
  nodes : template.nodes.Uses allowed
  extends_ : ∀ expr ∈ template.extends_, expr.Uses allowed
  blocks : ∀ block ∈ template.blocks, block.2.Uses allowed
  macros : ∀ called ∈ template.macros, called.Uses allowed

variable {allowed} (all : ∀ name, allowed.filter name) (allTexts : ∀ text, allowed.text text)
include all allTexts

set_option linter.unusedSectionVars false

mutual

theorem Expr.uses_of_all : ∀ expr : Expr F, expr.Uses allowed
  | .literal _ | .name _ => trivial
  | .member left _ | .unary _ left => left.uses_of_all
  | .index left right | .binary _ left right => ⟨left.uses_of_all, right.uses_of_all⟩
  | .call _ left args => ⟨left.uses_of_all, args.uses_of_all⟩
  | .filter _ name left args => ⟨all name, left.uses_of_all, args.uses_of_all⟩
  | .list items => items.uses_of_all

theorem Args.uses_of_all : ∀ args : Args F, args.Uses allowed
  | .nil => trivial
  | .cons _ value rest => ⟨value.uses_of_all, rest.uses_of_all⟩

end

mutual

theorem Node.uses_of_all : ∀ node : Node F, node.Uses allowed
  | .text text => allTexts text
  | .macro_ => trivial
  | .output expr | .set _ expr | .include_ _ expr => expr.uses_of_all all allTexts
  | .if_ branches orElse => ⟨branches.uses_of_all, orElse.uses_of_all⟩
  | .for_ _ expr body orElse => ⟨expr.uses_of_all all allTexts, body.uses_of_all, orElse.uses_of_all⟩
  | .block _ body => body.uses_of_all

theorem Nodes.uses_of_all : ∀ nodes : Nodes F, nodes.Uses allowed
  | .nil => trivial
  | .cons first rest => ⟨first.uses_of_all, rest.uses_of_all⟩

theorem Branches.uses_of_all : ∀ branches : Branches F, branches.Uses allowed
  | .nil => trivial
  | .cons condition body rest =>
    ⟨condition.uses_of_all all allTexts, body.uses_of_all, rest.uses_of_all⟩

end

theorem Macro.uses_of_all (called : Macro F) : called.Uses allowed :=
  ⟨fun _ _ expr _ => expr.uses_of_all all allTexts, called.body.uses_of_all all allTexts⟩

theorem Template.uses_of_all (template : Template F) : template.Uses allowed :=
  ⟨template.nodes.uses_of_all all allTexts, fun expr _ => expr.uses_of_all all allTexts,
    fun block _ => block.2.uses_of_all all allTexts, fun called _ => called.uses_of_all all allTexts⟩

end Uses

section Rule

variable {F : Type} (lib : Library F) (env : Environment F)

/-- A condition on values that the operations keep, in an environment that keeps it. -/
structure ValueRule (allowed : Allowed) (value : Value F → Prop) : Prop where
  none : value .none
  boolean : ∀ b, value (.boolean b)
  escaped : ∀ text, value (.html [.escaped text])
  literal : ∀ written : Literal F, value written.toValue
  list : ∀ items, (∀ item ∈ items, value item) → value (.list items)
  member : ∀ v name, value v → value (memberValue v name)
  index : ∀ v i, value v → value i → value (indexValue v i)
  negate : ∀ v, value v → value (negate lib v)
  operator : ∀ op a b, value a → value b → value (evalOperator lib op a b)
  items : ∀ v, value v → ∀ item ∈ itemsOf v, value item
  loop : ∀ index length, value (loopValue index length)
  called : ∀ called : Macro F, value (.macro_ called) ↔ called.Uses allowed
  data : value (valueOf env.data)
  globals : ∀ v ∈ env.globals, value v.2
  load : ∀ name template, env.load name = .ok template → template.Uses allowed

def RendererOk (allowed : Allowed) (value : Value F → Prop) (r : Renderer F) : Prop :=
  (∀ v ∈ r.vars, value v.2) ∧ ∀ template ∈ r.chain, template.Uses allowed

/-- The values of the two are the same and meet the condition. -/
abbrev Relation (F : Type) := ∀ {α : Type}, (α → Prop) → Action F α → Action F α → Prop

def unrestricted {α : Type} : α → Prop := fun _ => True

/-- What the smallest steps keep. -/
structure Kept (allowed : Allowed) (value : Value F → Prop) (rel : Relation F) : Prop where
  pure : ∀ {α : Type} {V : α → Prop} {v : α}, V v → rel V (.pure v) (.pure v)
  bind : ∀ {α β : Type} {V : α → Prop} {W : β → Prop} {a b : Action F α} {f g : α → Action F β},
    rel V a b → (∀ v, V v → rel W (f v) (g v)) → rel W (a.bind f) (b.bind g)
  get : rel (RendererOk allowed value) .get .get
  throw : ∀ {α : Type} {V : α → Prop} {error}, rel V (.throw error : Action F α) (.throw error)
  addVariable : ∀ {name v}, value v → rel unrestricted (addVariable name v) (addVariable name v)
  keepVariables : ∀ {count}, rel unrestricted (keepVariables (F := F) count) (keepVariables count)
  addText : ∀ {text}, allowed.text text →
    rel unrestricted (addPieces (F := F) [.template text]) (addPieces [.template text])
  addHtml : ∀ {pieces}, value (.html pieces) →
    rel unrestricted (addPieces (F := F) pieces) (addPieces pieces)
  filter : ∀ {name filter args v}, env.filters.lookup name = some filter → allowed.filter name →
    (∀ arg ∈ args, value arg) → value v →
    rel value (.returned (filter args v)) (.returned (filter args v))
  function : ∀ {name function args}, env.functions.lookup name = some function →
    (∀ arg ∈ args, value arg) → rel value (.returned (function args)) (.returned (function args))
  chain : ∀ {template : Template F}, template.Uses allowed →
    rel unrestricted (.modify fun r => { r with chain := r.chain ++ [template] })
      (.modify fun r => { r with chain := r.chain ++ [template] })

/-- The same of what is done in constructs. -/
structure Related (allowed : Allowed) (value : Value F → Prop) (rel : Relation F)
    (levels levels' : Levels F) : Prop where
  template : ∀ template, template.Uses allowed →
    rel unrestricted (levels.renderTemplate template) (levels'.renderTemplate template)
  nodes : ∀ nodes, nodes.Uses allowed →
    rel unrestricted (levels.renderNodes nodes) (levels'.renderNodes nodes)
  eval : ∀ expr, expr.Uses allowed → rel value (levels.eval expr) (levels'.eval expr)

/-- The parameters of a macro are bound in its construct. -/
theorem Related.bindParams {env : Environment F} {allowed : Allowed} {value : Value F → Prop}
    {rel : Relation F} {levels levels' : Levels F} (kept : Kept env allowed value rel)
    (related : Related allowed value rel levels levels') (none : value .none) :
    ∀ params : List (Param F × Option (Value F)),
      (∀ param ∈ params, (∀ expr ∈ param.1.value, expr.Uses allowed) ∧ ∀ v ∈ param.2, value v) →
      rel unrestricted (bindParams levels params) (bindParams levels' params)
  | [], _ => kept.pure trivial
  | (param, given) :: rest, ok => by
    obtain ⟨⟨uses, okGiven⟩, okRest⟩ := List.forall_mem_cons.mp ok
    refine kept.bind (V := value) ?_ fun v okValue =>
      kept.bind (kept.addVariable okValue) fun _ _ => bindParams kept related none rest okRest
    cases given with
    | some v => exact kept.pure (okGiven v rfl)
    | none =>
      unfold paramValue
      cases default : param.value with
      | some expr => exact related.eval expr (uses expr default)
      | none => exact kept.pure none

theorem given_zip {allowed : Allowed} {value : Value F → Prop} {called : Macro F}
    {given : List (Option (Value F))} (uses : called.Uses allowed) (ok : ∀ v, some v ∈ given → value v) :
    ∀ param ∈ called.params.zip given,
      (∀ expr ∈ param.1.value, expr.Uses allowed) ∧ ∀ v ∈ param.2, value v := by
  rintro ⟨param, v⟩ member
  obtain ⟨isParam, isGiven⟩ := List.of_mem_zip member
  exact ⟨uses.defaults param isParam, fun w some => ok w (some ▸ isGiven)⟩

/-- What is left to show of a relation: the four constructs, with another relation in them. -/
structure Rule (allowed : Allowed) (value : Value F → Prop) (inner rel : Relation F) : Prop where
  values : ValueRule lib env allowed value
  kept : Kept env allowed value rel
  runMacro : ∀ {levels levels' line called given}, Related allowed value inner levels levels' →
    called.Uses allowed → (∀ v, some v ∈ given → value v) →
    rel value (runMacro levels line called given) (runMacro levels' line called given)
  includeTemplate : ∀ {levels levels' line name}, Related allowed value inner levels levels' →
    rel unrestricted (includeTemplate env levels line name) (includeTemplate env levels' line name)
  extendTemplate : ∀ {levels levels' name}, Related allowed value inner levels levels' →
    rel unrestricted (extendTemplate env levels name) (extendTemplate env levels' name)
  renderBlock : ∀ {levels levels' name body}, Related allowed value inner levels levels' →
    body.Uses allowed → rel unrestricted (renderBlock levels name body) (renderBlock levels' name body)

variable {lib env} {allowed : Allowed} {value : Value F → Prop} {inner rel : Relation F}
variable {levels levels' : Levels F}

namespace Rule

set_option linter.unusedSectionVars false

theorem lookup (rule : ValueRule lib env allowed value) {r : Renderer F}
    (ok : RendererOk allowed value r) (name : Text) : value (lookup env r name) := by
  unfold Html.lookup
  split
  · next found => exact ok.1 _ (List.mem_of_mem_drop (List.mem_reverse.mp (List.mem_of_find?_eq_some found)))
  split
  · next found => exact ok.1 _ (List.mem_of_mem_take (List.mem_of_find?_eq_some found))
  split
  · cases global : env.globals.lookup name with
    | none => exact rule.none
    | some v =>
      obtain ⟨_, _, split, _⟩ := List.lookup_eq_some_iff.mp global
      exact rule.globals (name, v) (by simp [split])
  · exact rule.member _ name rule.data

variable (rule : Rule lib env allowed value inner rel)
include rule

theorem write {v : Value F} (ok : value v) :
    rel unrestricted (Html.write lib v) (Html.write lib v) := by
  unfold Html.write
  split
  · exact rule.kept.addHtml ok
  · exact rule.kept.pure trivial
  · exact rule.kept.addHtml (rule.values.escaped _)

theorem forItems {body body' : Value F → ℕ → Action F Unit}
    (each : ∀ v index, value v → rel unrestricted (body v index) (body' v index)) :
    ∀ (items : List (Value F)) (index : ℕ), (∀ item ∈ items, value item) →
      rel unrestricted (Html.forItems body items index) (Html.forItems body' items index)
  | [], _, _ => rule.kept.pure trivial
  | item :: rest, index, ok =>
    rule.kept.bind (each item index (ok item List.mem_cons_self)) fun _ _ =>
      forItems each rest (index + 1) fun other member => ok other (List.mem_cons_of_mem _ member)

theorem addMacros : ∀ macros : List (Macro F), (∀ called ∈ macros, called.Uses allowed) →
    rel unrestricted (Html.addMacros macros) (Html.addMacros macros)
  | [], _ => rule.kept.pure trivial
  | called :: rest, uses =>
    rule.kept.bind
      (rule.kept.addVariable ((rule.values.called called).mpr (uses called List.mem_cons_self)))
      fun _ _ => addMacros rest fun other member => uses other (List.mem_cons_of_mem _ member)

variable (related : Related allowed value inner levels levels')
include related

mutual

theorem eval : ∀ expr : Expr F, expr.Uses allowed →
    rel value (Html.eval lib env levels expr) (Html.eval lib env levels' expr)
  | .literal written, _ => rule.kept.pure (rule.values.literal written)
  | .name name, _ =>
    rule.kept.bind (f := fun r => .pure (Html.lookup env r name))
      (g := fun r => .pure (Html.lookup env r name)) rule.kept.get fun _ ok =>
      rule.kept.pure (lookup rule.values ok name)
  | .member left name, uses =>
    rule.kept.bind (eval left uses) fun v ok => rule.kept.pure (rule.values.member v name ok)
  | .index left right, uses =>
    rule.kept.bind (eval left uses.1) fun v ok =>
      rule.kept.bind (eval right uses.2) fun i okIndex =>
        rule.kept.pure (rule.values.index v i ok okIndex)
  | .list items, uses =>
    rule.kept.bind (evalArgs items uses) fun items ok => rule.kept.pure (rule.values.list items ok)
  | .unary .not left, uses =>
    rule.kept.bind (eval left uses) fun _ _ => rule.kept.pure (rule.values.boolean _)
  | .unary .minus left, uses =>
    rule.kept.bind (eval left uses) fun v ok => rule.kept.pure (rule.values.negate v ok)
  | .binary operator left right, uses => by
    have operands (next : Value F → Value F → Value F)
        (closed : ∀ a b, value a → value b → value (next a b)) :=
      rule.kept.bind (eval left uses.1) fun a ok =>
        rule.kept.bind (eval right uses.2) fun b okRight =>
          rule.kept.pure (V := value) (closed a b ok okRight)
    cases operator with
    | and =>
      refine rule.kept.bind (eval left uses.1) fun v ok => ?_
      split
      · exact eval right uses.2
      · exact rule.kept.pure ok
    | or =>
      refine rule.kept.bind (eval left uses.1) fun v ok => ?_
      split
      · exact rule.kept.pure ok
      · exact eval right uses.2
    | _ => exact operands _ (rule.values.operator _)
  | .filter line name left args, uses => by
    unfold Html.eval
    split
    · exact rule.kept.throw
    · next filter found =>
      exact rule.kept.bind (evalArgs args uses.2.2) fun args okArgs =>
        rule.kept.bind (eval left uses.2.1) fun v ok => rule.kept.filter found uses.1 okArgs ok
  | .call line left args, uses => by
    refine rule.kept.bind (eval left uses.1) fun v ok => ?_
    split
    · next called =>
      refine rule.kept.bind (bindArgs line called 0 _ args uses.2 ?_) fun given okGiven => ?_
      · simp
      · exact rule.runMacro related ((rule.values.called called).mp ok) okGiven
    · split
      · exact rule.kept.throw
      · next found =>
        exact rule.kept.bind (evalArgs args uses.2) fun args okArgs => rule.kept.function found okArgs
    · exact rule.kept.throw

theorem evalArgs : ∀ args : Args F, args.Uses allowed →
    rel (fun values => ∀ v ∈ values, value v) (Html.evalArgs lib env levels args)
      (Html.evalArgs lib env levels' args)
  | .nil, _ => rule.kept.pure fun _ member => absurd member List.not_mem_nil
  | .cons _ first rest, uses =>
    rule.kept.bind (eval first uses.1) fun _ ok =>
      rule.kept.bind (evalArgs rest uses.2) fun _ okRest =>
        rule.kept.pure (List.forall_mem_cons.mpr ⟨ok, okRest⟩)

theorem bindArgs (line : ℤ) (called : Macro F) (position : ℕ) (given : List (Option (Value F))) :
    ∀ args : Args F, args.Uses allowed → (∀ v, some v ∈ given → value v) →
    rel (fun given => ∀ v, some v ∈ given → value v)
      (Html.bindArgs lib env levels line called position given args)
      (Html.bindArgs lib env levels' line called position given args)
  | .nil, _, ok => rule.kept.pure ok
  | .cons name first rest, uses, ok => by
    have bound (index : ℕ) {v : Value F} (okValue : value v) :
        ∀ w, some w ∈ given.set index (some v) → value w := by
      intro w member
      rcases List.mem_or_eq_of_mem_set member with old | new
      · exact ok w old
      · cases new
        exact okValue
    unfold Html.bindArgs
    split
    · split
      · exact rule.kept.throw
      · exact rule.kept.bind (eval first uses.1) fun v okValue =>
          bindArgs line called _ _ rest uses.2 (bound position okValue)
    · split
      · exact rule.kept.throw
      · exact rule.kept.bind (eval first uses.1) fun v okValue =>
          bindArgs line called _ _ rest uses.2 (bound _ okValue)

end

mutual

theorem renderNode : ∀ node : Node F, node.Uses allowed →
    rel unrestricted (Html.renderNode lib env levels node) (Html.renderNode lib env levels' node)
  | .text _, uses => rule.kept.addText uses
  | .macro_, _ => rule.kept.pure trivial
  | .output expr, uses => rule.kept.bind (rule.eval related expr uses) fun _ ok => rule.write ok
  | .set name expr, uses =>
    rule.kept.bind (rule.eval related expr uses) fun _ ok => rule.kept.addVariable ok
  | .include_ line expr, uses =>
    rule.kept.bind (rule.eval related expr uses) fun _ _ => rule.includeTemplate related
  | .block name body, uses => rule.renderBlock related uses
  | .if_ branches orElse, uses => by
    refine rule.kept.bind (renderBranches branches uses.1) fun taken _ => ?_
    split
    · exact rule.kept.pure trivial
    · exact renderNodes orElse uses.2
  | .for_ name expr body orElse, uses => by
    refine rule.kept.bind (rule.eval related expr uses.1) fun v ok => ?_
    dsimp only
    split
    · exact renderNodes orElse uses.2.2
    · refine rule.kept.bind (f := fun r => Action.bind _ fun _ => Html.keepVariables r.vars.length)
        (g := fun r => Action.bind _ fun _ => Html.keepVariables r.vars.length)
        rule.kept.get fun r _ => ?_
      refine rule.kept.bind (V := unrestricted) (rule.forItems (fun item index okItem => ?_) _ _
        (rule.values.items v ok)) fun _ _ => rule.kept.keepVariables
      exact rule.kept.bind rule.kept.keepVariables fun _ _ =>
        rule.kept.bind (rule.kept.addVariable okItem) fun _ _ =>
          rule.kept.bind (rule.kept.addVariable (rule.values.loop _ _)) fun _ _ =>
            renderNodes body uses.2.1

theorem renderNodes : ∀ nodes : Nodes F, nodes.Uses allowed →
    rel unrestricted (Html.renderNodes lib env levels nodes) (Html.renderNodes lib env levels' nodes)
  | .nil, _ => rule.kept.pure trivial
  | .cons first rest, uses =>
    rule.kept.bind (renderNode first uses.1) fun _ _ => renderNodes rest uses.2

theorem renderBranches : ∀ branches : Branches F, branches.Uses allowed →
    rel unrestricted (Html.renderBranches lib env levels branches)
      (Html.renderBranches lib env levels' branches)
  | .nil, _ => rule.kept.pure trivial
  | .cons condition body rest, uses => by
    refine rule.kept.bind (rule.eval related condition uses.1) fun v _ => ?_
    split
    · exact rule.kept.bind (renderNodes body uses.2.1) fun _ _ => rule.kept.pure trivial
    · exact renderBranches rest uses.2.2

end

theorem renderTemplate (template : Template F) (uses : template.Uses allowed) :
    rel unrestricted (Html.renderTemplate lib env levels template)
      (Html.renderTemplate lib env levels' template) := by
  refine rule.kept.bind (rule.addMacros template.macros uses.macros) fun _ _ => ?_
  cases extends_ : template.extends_ with
  | none => exact rule.renderNodes related template.nodes uses.nodes
  | some expr =>
    exact rule.kept.bind (rule.kept.chain uses) fun _ _ =>
      rule.kept.bind (rule.eval related expr (uses.extends_ expr extends_)) fun _ _ =>
        rule.extendTemplate related

/-- One level more. -/
theorem relatedLevels : Related allowed value rel
    ⟨Html.renderTemplate lib env levels, Html.renderNodes lib env levels, Html.eval lib env levels⟩
    ⟨Html.renderTemplate lib env levels', Html.renderNodes lib env levels', Html.eval lib env levels'⟩ :=
  ⟨rule.renderTemplate related, rule.renderNodes related, rule.eval related⟩

end Rule

end Rule

end Saad.Html
