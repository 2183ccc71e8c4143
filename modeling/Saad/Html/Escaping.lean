import Saad.Html.RenderRule

/-! # What a page is made of

Without the filter safe, and with a program that calls nothing html, every page is a row of texts of the
templates and of escaped texts. A text that is html already, of the filter escape or a macro, is escaped
again when an operator or another filter has made a text of it.
-/

namespace Saad.Html

section Escape

/-- The characters that mean something in HTML. -/
def isSpecial (c : BitVec 8) : Bool :=
  c = byteOf '&' || c = byteOf '<' || c = byteOf '>' || c = byteOf '"' || c = byteOf '\''

def entities : List Text :=
  [asciiBytes "&amp;", asciiBytes "&lt;", asciiBytes "&gt;", asciiBytes "&quot;", asciiBytes "&#39;"]

theorem escapeChar_cases (c : BitVec 8) :
    escapeChar c ∈ entities ∧ isSpecial c = true ∨ escapeChar c = [c] ∧ isSpecial c = false := by
  unfold escapeChar
  split_ifs with amp lt gt quot apos
  · simp [entities, isSpecial, amp]
  · simp [entities, isSpecial, lt]
  · simp [entities, isSpecial, gt]
  · simp [entities, isSpecial, quot]
  · simp [entities, isSpecial, apos]
  · simp [isSpecial, amp, lt, gt, quot, apos]

end Escape

section Clean

variable {F : Type} (allowed : Allowed)

/-- A text of a template, or an escaped text. -/
inductive CleanPiece : Piece → Prop
  | template {text : Text} (written : allowed.text text) : CleanPiece (.template text)
  | escaped (text : Text) : CleanPiece (.escaped text)

mutual

/-- No text in the value of the program is called html by it. -/
inductive CleanAny : Any F → Prop
  | null : CleanAny .null
  | bool (b) : CleanAny (.bool b)
  | int (n) : CleanAny (.int n)
  | float (n) : CleanAny (.float n)
  | string (text) : CleanAny (.string text)
  | enum (name n) : CleanAny (.enum name n)
  | nullPointer : CleanAny .nullPointer
  | pointer {any} (clean : CleanAny any) : CleanAny (.pointer any)
  | any {any} (clean : CleanAny any) : CleanAny (.any any)
  | absent : CleanAny .absent
  | present {any} (clean : CleanAny any) : CleanAny (.present any)
  | value {v} (clean : CleanValue v) : CleanAny (.value v)
  | struct {members} (clean : ∀ member ∈ members, CleanAny member.2) : CleanAny (.struct members)
  | elements {items} (clean : ∀ item ∈ items, CleanAny item) : CleanAny (.elements items)
  | other : CleanAny .other

/-- What is html in the value was escaped, or is from a template. -/
inductive CleanValue : Value F → Prop
  | none : CleanValue .none
  | boolean (b) : CleanValue (.boolean b)
  | integer (n) : CleanValue (.integer n)
  | number (n) : CleanValue (.number n)
  | text (text) : CleanValue (.text text)
  | html {pieces} (clean : ∀ piece ∈ pieces, CleanPiece allowed piece) : CleanValue (.html pieces)
  | data {any} (clean : CleanAny any) : CleanValue (.data any)
  | list {items} (clean : ∀ item ∈ items, CleanValue item) : CleanValue (.list items)
  | macro_ {called} (uses : called.Uses allowed) : CleanValue (.macro_ called)

end

variable {allowed}

theorem CleanAny.valueOf {any : Any F} (clean : CleanAny allowed any) : CleanValue allowed (valueOf any) := by
  cases clean with
  | pointer clean => exact clean.valueOf
  | any clean => exact clean.valueOf
  | present clean => exact clean.valueOf
  | value clean => exact clean
  | struct clean => exact .data (.struct clean)
  | elements clean => exact .data (.elements clean)
  | other => exact .data .other
  | enum name n => cases name <;> constructor
  | _ => constructor
termination_by structural any

variable {lib : Library F}

theorem CleanValue.member {v : Value F} (clean : CleanValue allowed v) (name : Text) :
    CleanValue allowed (memberValue v name) := by
  unfold memberValue
  dsimp only
  split
  · split_ifs <;> constructor
  · cases clean with
    | data clean =>
      cases clean with
      | struct clean =>
        split
        · next found => exact (clean _ (List.mem_of_find?_eq_some found)).valueOf
        · exact .none
  · split_ifs <;> constructor
  · split_ifs <;> constructor
  · split_ifs <;> constructor
  · exact .none

theorem mem_of_elementAt {α : Type} {items : List α} {index : ℤ} {item : α}
    (found : elementAt items index = some item) : item ∈ items := by
  unfold elementAt at found
  split_ifs at found
  exact List.mem_of_getElem? found

theorem CleanValue.index {v : Value F} (clean : CleanValue allowed v) (i : Value F) :
    CleanValue allowed (indexValue v i) := by
  unfold indexValue
  split
  · exact clean.member _
  · next n =>
    split
    · next items =>
      cases found : elementAt items n with
      | none => exact .none
      | some item =>
        cases clean with
        | data clean =>
          cases clean with
          | elements clean => exact (clean item (mem_of_elementAt found)).valueOf
    · next items =>
      cases found : elementAt items n with
      | none => exact .none
      | some item =>
        cases clean with
        | list clean => exact clean item (mem_of_elementAt found)
    · next text =>
      cases elementAt text n with
      | none => exact .none
      | some c => exact .text [c]
    · exact .none
  · exact .none

theorem CleanValue.items {v : Value F} (clean : CleanValue allowed v) :
    ∀ item ∈ itemsOf v, CleanValue allowed item := by
  intro item member
  unfold itemsOf at member
  split at member
  · cases clean with
    | data clean =>
      cases clean with
      | elements clean =>
        obtain ⟨any, inside, rfl⟩ := List.mem_map.mp member
        exact (clean any inside).valueOf
  · cases clean with
    | list clean => exact clean item member
  · exact absurd member List.not_mem_nil

/-- An operator gives texts, numbers and truth values, never html. -/
theorem cleanValue_operator (operator : BinaryOperator) (a b : Value F) :
    CleanValue allowed (evalOperator lib operator a b) := by
  have numbers (x y : F) : CleanValue allowed (evalNumbers lib operator a b x y) := by
    unfold evalNumbers
    split <;> first | constructor | (split_ifs <;> constructor)
  unfold evalOperator
  split
  · exact .text _
  · exact .boolean _
  · exact .boolean _
  · split
    · exact numbers _ _
    · split <;> constructor

end Clean

section Filters

variable {F : Type} {allowed : Allowed} (lib : Library F)

/-- A filter or a function that returns gives a clean value. -/
def ReturnsClean (allowed : Allowed) (value : Returned F) : Prop :=
  ∀ v, value = some (.ok v) → CleanValue allowed v

def CleanFilter (allowed : Allowed) (filter : Filter F) : Prop :=
  ∀ args v, (∀ arg ∈ args, CleanValue allowed arg) → CleanValue allowed v →
    ReturnsClean allowed (filter args v)

def CleanFunction (allowed : Allowed) (function : TemplateFunction F) : Prop :=
  ∀ args, (∀ arg ∈ args, CleanValue allowed arg) → ReturnsClean allowed (function args)

theorem returnsClean_returns {v : Value F} (clean : CleanValue allowed v) :
    ReturnsClean allowed (returns v) := by
  rintro w given
  cases given
  exact clean

theorem cleanFilter_escape : CleanFilter allowed (filterEscape lib) := by
  intro args v _ clean
  unfold filterEscape
  split
  · exact returnsClean_returns clean
  · refine returnsClean_returns (.html fun piece member => ?_)
    rw [List.mem_singleton.mp member]
    exact .escaped _

theorem cleanFilter_default : CleanFilter allowed (filterDefault (F := F)) := by
  intro args v okArgs clean
  unfold filterDefault
  split
  · exact returnsClean_returns (okArgs _ List.mem_cons_self)
  · exact returnsClean_returns clean

/-- Of the filters of `newTemplates` only safe calls a text html. -/
theorem cleanFilter_builtIn : ∀ filter ∈ builtInFilters lib, filter.1 ≠ asciiBytes "safe" →
    CleanFilter allowed filter.2 := by
  simp only [builtInFilters, List.forall_mem_cons]
  refine ⟨fun other => absurd rfl other, fun _ => cleanFilter_escape lib, fun _ => cleanFilter_escape lib,
    fun _ _ _ _ clean => returnsClean_returns (clean.member _), fun _ => cleanFilter_default,
    fun _ _ _ _ _ => returnsClean_returns (.text _), fun _ _ _ _ _ => returnsClean_returns (.text _),
    fun _ _ _ _ _ => returnsClean_returns (.text _), fun _ _ _ _ _ => returnsClean_returns (.text _), ?_⟩
  exact fun _ member => absurd member List.not_mem_nil

theorem cleanFunction_range : CleanFunction allowed (functionRange lib) := by
  intro args _ v given
  unfold functionRange at given
  dsimp only at given
  split_ifs at given
  · cases given
  · obtain ⟨items, _, rest⟩ := Option.map_eq_some_iff.mp given
    cases rest
    refine .list fun item member => ?_
    obtain ⟨n, _, rfl⟩ := List.mem_map.mp member
    exact .integer n

end Filters

section Renders

variable {F α β : Type} {allowed : Allowed} (lib : Library F) (env : Environment F)

/-- The program calls nothing html, and the templates use only what is allowed. -/
structure CleanEnvironment (allowed : Allowed) : Prop where
  filters : ∀ name filter, env.filters.lookup name = some filter → allowed.filter name →
    CleanFilter allowed filter
  functions : ∀ name function, env.functions.lookup name = some function →
    CleanFunction allowed function
  globals : ∀ v ∈ env.globals, CleanValue allowed v.2
  data : CleanAny allowed env.data
  load : ∀ name template, env.load name = .ok template → template.Uses allowed

def CleanRenderer (allowed : Allowed) (r : Renderer F) : Prop :=
  RendererOk allowed (CleanValue allowed) r ∧ ∀ piece ∈ r.out, CleanPiece allowed piece

/-- What is clean stays clean. -/
def KeepsClean (allowed : Allowed) : Relation F := fun V action _ =>
  ∀ r, CleanRenderer allowed r → ∀ v s, action r = .done v s → V v ∧ CleanRenderer allowed s

theorem cleanValue_rule (clean : CleanEnvironment env allowed) :
    ValueRule lib env allowed (CleanValue allowed) where
  none := .none
  boolean := .boolean
  escaped text := .html fun piece member => by
    rw [List.mem_singleton.mp member]
    exact .escaped text
  literal written := by cases written <;> constructor
  list _ := .list
  member _ name ok := ok.member name
  index _ i ok _ := ok.index i
  negate v _ := by cases v <;> constructor
  operator op a b _ _ := cleanValue_operator op a b
  items _ ok := ok.items
  loop index length := by
    refine .data (.struct fun member inside => ?_)
    simp only [List.mem_cons, List.not_mem_nil, or_false] at inside
    rcases inside with rfl | rfl | rfl | rfl | rfl <;> constructor
  called _ := ⟨fun ok => by cases ok with | macro_ uses => exact uses, .macro_⟩
  data := clean.data.valueOf
  globals := clean.globals
  load := clean.load

theorem keepsClean_modify {f : Renderer F → Renderer F} {b : Action F Unit}
    (keeps : ∀ r, CleanRenderer allowed r → CleanRenderer allowed (f r)) :
    KeepsClean allowed unrestricted (.modify f) b := by
  intro r clean v s done
  cases done
  exact ⟨trivial, keeps r clean⟩

theorem keepsClean_returned {value : Returned F} {b : Action F (Value F)}
    (ok : ReturnsClean allowed value) : KeepsClean allowed (CleanValue allowed) (.returned value) b := by
  intro r clean v s done
  unfold Action.returned at done
  split at done
  · cases done
    exact ⟨ok _ rfl, clean⟩
  · cases done
  · cases done

theorem keepsClean_bind {V : α → Prop} {W : β → Prop} {a b : Action F α} {f g : α → Action F β}
    (first : KeepsClean allowed V a b) (second : ∀ v, V v → KeepsClean allowed W (f v) (g v)) :
    KeepsClean allowed W (a.bind f) (b.bind g) := by
  intro r clean w s done
  unfold Action.bind at done
  split at done
  · next v middle result =>
    obtain ⟨ok, cleanMiddle⟩ := first r clean v middle result
    exact second v ok middle cleanMiddle w s done
  all_goals cases done

theorem keepsClean_kept (clean : CleanEnvironment env allowed) :
    Kept env allowed (CleanValue allowed) (KeepsClean allowed (F := F)) where
  pure ok := fun r clean v s done => by
    cases done
    exact ⟨ok, clean⟩
  bind := keepsClean_bind
  get := fun r clean v s done => by
    cases done
    exact ⟨clean.1, clean⟩
  throw := fun r clean v s done => by cases done
  addVariable ok := keepsClean_modify fun r clean =>
    ⟨⟨List.forall_mem_append.mpr ⟨clean.1.1, List.forall_mem_singleton.mpr ok⟩, clean.1.2⟩, clean.2⟩
  keepVariables := keepsClean_modify fun r clean =>
    ⟨⟨fun v member => clean.1.1 v (List.mem_of_mem_take member), clean.1.2⟩, clean.2⟩
  addText written := keepsClean_modify fun r clean =>
    ⟨clean.1, List.forall_mem_append.mpr ⟨clean.2, List.forall_mem_singleton.mpr (.template written)⟩⟩
  addHtml ok := keepsClean_modify fun r clean =>
    ⟨clean.1, List.forall_mem_append.mpr ⟨clean.2, by cases ok with | html pieces => exact pieces⟩⟩
  filter found uses okArgs ok := keepsClean_returned (clean.filters _ _ found uses _ _ okArgs ok)
  function found okArgs := keepsClean_returned (clean.functions _ _ found _ okArgs)
  chain uses := keepsClean_modify fun r clean =>
    ⟨⟨clean.1.1, List.forall_mem_append.mpr ⟨clean.1.2, List.forall_mem_singleton.mpr uses⟩⟩, clean.2⟩

theorem keepsClean_inside {V : α → Prop} {construct : Construct} {enter : Renderer F → Renderer F}
    {a b c : Action F α} {leave : Renderer F → Renderer F → Renderer F}
    (inner : KeepsClean allowed V a b) (enters : ∀ r, CleanRenderer allowed r → CleanRenderer allowed (enter r))
    (leaves : ∀ r s, CleanRenderer allowed r → CleanRenderer allowed s → CleanRenderer allowed (leave r s)) :
    KeepsClean allowed V (.inside construct enter a leave) c := by
  intro r clean v s done
  unfold Action.inside at done
  split at done
  · next result =>
    have entered : CleanRenderer allowed { enter r with nest := construct :: r.nest } := enters r clean
    obtain ⟨ok, cleanAfter⟩ := inner _ entered _ _ result
    cases done
    exact ⟨ok, leaves r _ clean cleanAfter⟩
  all_goals cases done

theorem keepsClean_enter {line : ℤ} {b : Action F Unit} :
    KeepsClean allowed unrestricted (enter line) b := by
  intro r clean v s done
  unfold enter at done
  split_ifs at done
  · cases done
    exact ⟨trivial, clean⟩

theorem keepsClean_load (clean : CleanEnvironment env allowed) {name : Text} {b : Action F (Template F)} :
    KeepsClean allowed (Template.Uses allowed) (load env name) b := by
  intro r ok template s done
  unfold load at done
  cases found : env.load name with
  | ok file =>
    rw [found] at done
    cases done
    exact ⟨clean.load _ _ found, ok⟩
  | error =>
    rw [found] at done
    cases done

theorem keepsClean_rule (clean : CleanEnvironment env allowed) :
    Rule lib env allowed (CleanValue allowed) (KeepsClean allowed) (KeepsClean allowed) where
  values := cleanValue_rule lib env clean
  kept := keepsClean_kept env clean
  runMacro := fun {levels levels' line called given} related uses ok => by
    have kept := keepsClean_kept env clean
    have body : KeepsClean allowed (CleanValue allowed) (macroBody levels called given)
        (macroBody levels' called given) := by
      have params := related.bindParams kept .none _ (given_zip uses ok)
      refine keepsClean_bind params fun _ _ => keepsClean_bind (related.nodes called.body uses.body) fun _ _ => ?_
      intro r cleanAfter v s done
      cases done
      exact ⟨.html cleanAfter.2, cleanAfter⟩
    refine keepsClean_bind keepsClean_enter fun _ _ => keepsClean_inside body ?_ ?_
    · exact fun r ok => ⟨ok.1, fun _ member => absurd member List.not_mem_nil⟩
    · exact fun r s ok after =>
        ⟨⟨fun v member => after.1.1 v (List.mem_of_mem_take member), after.1.2⟩, ok.2⟩
  includeTemplate := fun {levels levels' line name} related => by
    refine keepsClean_bind keepsClean_enter fun _ _ => keepsClean_bind (keepsClean_load env clean)
      fun template uses => keepsClean_inside (related.template template uses) ?_ ?_
    · exact fun r ok => ⟨⟨ok.1.1, fun _ member => absurd member List.not_mem_nil⟩, ok.2⟩
    · exact fun r s ok after => ⟨⟨after.1.1, ok.1.2⟩, after.2⟩
  extendTemplate := fun {levels levels' name} related =>
    keepsClean_bind (keepsClean_load env clean) fun template uses =>
      keepsClean_inside (related.template template uses) (fun _ ok => ok) fun _ _ _ after => after
  renderBlock := fun {levels levels' name body} related uses r ok => by
    have found : (blockBody r.chain name body).Uses allowed := by
      unfold blockBody
      cases block : r.chain.findSome? fun template => template.blocks.lookup name with
      | none => exact uses
      | some nodes =>
        obtain ⟨template, member, isBlock⟩ := List.exists_of_findSome?_eq_some block
        obtain ⟨_, _, split, _⟩ := List.lookup_eq_some_iff.mp isBlock
        exact (ok.1.2 template member).blocks (name, nodes) (by simp [split])
    have inside : KeepsClean allowed unrestricted (.inside .block id _ fun _ after => after)
        (renderBlock levels' name body) :=
      keepsClean_inside (related.nodes _ found) (fun _ ok => ok) fun _ _ _ after => after
    exact inside r ok

theorem levelsOf_keepsClean (clean : CleanEnvironment env allowed) : ∀ fuel,
    Related allowed (CleanValue allowed) (KeepsClean allowed) (levelsOf lib env fuel) (levelsOf lib env fuel)
  | 0 =>
    ⟨fun _ _ _ _ _ _ done => (by cases done), fun _ _ _ _ _ _ done => (by cases done),
      fun _ _ _ _ _ _ done => (by cases done)⟩
  | fuel + 1 => (keepsClean_rule lib env clean).relatedLevels (levelsOf_keepsClean clean fuel)

theorem render_clean (clean : CleanEnvironment env allowed) {fuel : ℕ} {name : Text} {r : Renderer F}
    (done : render lib env fuel name = .done () r) : ∀ piece ∈ r.out, CleanPiece allowed piece := by
  have file : KeepsClean allowed unrestricted (renderFile env (levelsOf lib env fuel) name)
      (renderFile env (levelsOf lib env fuel) name) :=
    keepsClean_bind (keepsClean_load env clean) fun template uses =>
      (levelsOf_keepsClean lib env clean fuel).template template uses
  have start : CleanRenderer allowed (.start : Renderer F) :=
    ⟨⟨fun _ member => absurd member List.not_mem_nil, fun _ member => absurd member List.not_mem_nil⟩,
      fun _ member => absurd member List.not_mem_nil⟩
  exact (file .start start () r done).2.2

end Renders

section Pages

variable {F : Type} (lib : Library F) (env : Environment F)

/-- The filter safe is not used, and the texts of the templates are `written`. -/
def withoutSafe (written : Text → Prop) : Allowed := ⟨(· ≠ asciiBytes "safe"), written⟩

/-- The filters and functions that are built in, with those of the program, which make no html. -/
structure PlainProgram (written : Text → Prop) (filters : List (Text × Filter F))
    (functions : List (Text × TemplateFunction F)) : Prop where
  allFilters : env.filters = filters ++ builtInFilters lib
  allFunctions : env.functions = functions ++ [(asciiBytes "range", functionRange lib)]
  filters : ∀ filter ∈ filters, CleanFilter (withoutSafe written) filter.2
  functions : ∀ function ∈ functions, CleanFunction (withoutSafe written) function.2
  globals : ∀ v ∈ env.globals, CleanValue (withoutSafe written) v.2
  data : CleanAny (withoutSafe written) env.data
  templates : ∀ name template, env.load name = .ok template → template.Uses (withoutSafe written)

variable {lib env} {written : Text → Prop} {filters : List (Text × Filter F)}
  {functions : List (Text × TemplateFunction F)}

theorem PlainProgram.clean (plain : PlainProgram lib env written filters functions) :
    CleanEnvironment env (withoutSafe written) where
  filters name filter found uses := by
    obtain ⟨_, _, split, _⟩ := List.lookup_eq_some_iff.mp found
    have member : (name, filter) ∈ filters ++ builtInFilters lib := by
      rw [← plain.allFilters, split]
      simp
    rcases List.mem_append.mp member with own | builtIn
    · exact plain.filters _ own
    · exact cleanFilter_builtIn lib _ builtIn uses
  functions name function found := by
    obtain ⟨_, _, split, _⟩ := List.lookup_eq_some_iff.mp found
    have member : (name, function) ∈ functions ++ [(asciiBytes "range", functionRange lib)] := by
      rw [← plain.allFunctions, split]
      simp
    rcases List.mem_append.mp member with own | builtIn
    · exact plain.functions _ own
    · cases List.mem_singleton.mp builtIn
      exact cleanFunction_range lib
  globals := plain.globals
  data := plain.data
  load := plain.templates

/-- `{{ name | escape | upper }}`. -/
def escapedUpper : Template ℤ :=
  ⟨[], .cons (.output (.filter 1 (asciiBytes "upper")
    (.filter 1 (asciiBytes "escape") (.name (asciiBytes "name")) .nil) .nil)) .nil, none, [], []⟩

/-- `{{ name }}`. -/
def plainName : Template ℤ := ⟨[], .cons (.output (.name (asciiBytes "name"))) .nil, none, [], []⟩

/-- The template with a member `name` of the data, and what is built in. -/
def pageOf (template : Template ℤ) (name : Any ℤ) : Environment ℤ :=
  ⟨fun _ => .ok template, builtInFilters wholeNumbers,
    [(asciiBytes "range", functionRange wholeNumbers)], [], .struct [(asciiBytes "name", name)]⟩

theorem plainProgram_plainName (written : Text → Prop) :
    PlainProgram wholeNumbers (pageOf plainName (.string (asciiBytes "<"))) written [] [] where
  allFilters := rfl
  allFunctions := rfl
  filters := by simp
  functions := by simp
  globals := by simp [pageOf]
  data := .struct fun member isName => by
    cases List.mem_singleton.mp isName
    exact .string _
  templates name template loaded := by
    cases loaded
    exact ⟨⟨trivial, trivial⟩, by simp [plainName], by simp [plainName], by simp [plainName]⟩

end Pages

end Saad.Html
