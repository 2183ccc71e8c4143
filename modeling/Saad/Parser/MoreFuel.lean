import Saad.General.Fuel
import Saad.Parser.Types

/-! # More fuel for the parser

Each function of the parser that has given a result gives it with more fuel too. One step looks at the calls
it makes with the fuel below.
-/

namespace Saad

open General

namespace Parsing

/-- At one amount of fuel, no function of the parser gives another result with one more. -/
structure KeepsResults (fuel : ℕ) : Prop where
  type : ∀ p a, parseType fuel p = some a → parseType (fuel + 1) p = some a
  typeArguments : ∀ p a, parseTypeArguments fuel p = some a → parseTypeArguments (fuel + 1) p = some a
  typeArgumentList : ∀ p a, parseTypeArgumentList fuel p = some a → parseTypeArgumentList (fuel + 1) p = some a
  expression : ∀ minPrec p a, parseExpression fuel minPrec p = some a → parseExpression (fuel + 1) minPrec p = some a
  operators : ∀ minPrec left p a, parseOperators fuel minPrec left p = some a →
    parseOperators (fuel + 1) minPrec left p = some a
  functionCall : ∀ lhs typeArgs p a, parseFunctionCall fuel lhs typeArgs p = some a →
    parseFunctionCall (fuel + 1) lhs typeArgs p = some a
  arguments : ∀ seen p a, parseArguments fuel seen p = some a → parseArguments (fuel + 1) seen p = some a
  argument : ∀ p a, parseArgument fuel p = some a → parseArgument (fuel + 1) p = some a
  leaf : ∀ p a, parseLeaf fuel p = some a → parseLeaf (fuel + 1) p = some a

namespace KeepsResults

variable {fuel : ℕ}

theorem type_succ (keeps : KeepsResults fuel) (p : Parser) (a : Ty × Parser) :
    parseType (fuel + 1) p = some a → parseType (fuel + 2) p = some a := by
  rw [parseType, parseType]
  split
  · exact id
  · exact id
  · exact id
  · split
    split
    · exact keeps_map (keeps.typeArguments _) a
    · exact id
  · exact keeps_map (keeps.type _) a
  · exact keeps_map (keeps.type _) a
  · exact keeps_map (keeps.type _) a
  · exact id
  · exact keeps_map (keeps.type _) a
  · refine keeps_bind (keeps.expression _ _) (fun capacity b => ?_) a
    split
    split
    · exact keeps_map (keeps.type _) b
    · exact id
  · exact id

theorem typeArguments_succ (keeps : KeepsResults fuel) (p : Parser) (a : TyList × Parser) :
    parseTypeArguments (fuel + 1) p = some a → parseTypeArguments (fuel + 2) p = some a := by
  rw [parseTypeArguments, parseTypeArguments]
  split
  · exact keeps.typeArgumentList _ a
  · exact id

theorem typeArgumentList_succ (keeps : KeepsResults fuel) (p : Parser) (a : TyList × Parser) :
    parseTypeArgumentList (fuel + 1) p = some a → parseTypeArgumentList (fuel + 2) p = some a := by
  rw [parseTypeArgumentList, parseTypeArgumentList]
  refine keeps_bind (keeps.type _) (fun arg b => ?_) a
  split
  split
  · exact keeps_map (keeps.typeArgumentList _) b
  · exact id
  · exact id
  · exact id

theorem expression_succ (keeps : KeepsResults fuel) (minPrec : ℤ) (p : Parser) (a : Expr × Parser) :
    parseExpression (fuel + 1) minPrec p = some a → parseExpression (fuel + 2) minPrec p = some a := by
  rw [parseExpression, parseExpression]
  refine keeps_bind (keeps.leaf _) (fun left b => ?_) a
  split
  split
  · exact id
  · exact keeps.operators _ _ _ b

theorem operators_succ (keeps : KeepsResults fuel) (minPrec : ℤ) (left : Expr) (p : Parser) (a : Expr × Parser) :
    parseOperators (fuel + 1) minPrec left p = some a → parseOperators (fuel + 2) minPrec left p = some a := by
  rw [parseOperators, parseOperators]
  refine keeps_bind (fun cast => ?_) (fun start b => ?_) a
  · split
    · exact keeps_map (keeps.type _) cast
    · exact id
  split
  split
  · refine keeps_bind (keeps.typeArguments _) (fun typeArgs b => ?_) b
    exact keeps_bind (keeps.functionCall _ _ _) (fun call => keeps.operators _ _ _) b
  split
  · exact id
  split
  · exact id
  split
  · exact id
  split
  · exact keeps_bind (keeps.leaf _) (fun right => keeps.operators _ _ _) b
  · exact keeps_bind (keeps.leaf _) (fun right => keeps.operators _ _ _) b
  · refine keeps_bind (keeps.expression _ _) (fun index b => ?_) b
    split
    split
    · exact keeps.operators _ _ _ b
    · exact id
  · exact keeps_bind (keeps.functionCall _ _ _) (fun call => keeps.operators _ _ _) b
  · exact keeps_bind (keeps.expression _ _) (fun right => keeps.operators _ _ _) b
  · exact id

theorem functionCall_succ (keeps : KeepsResults fuel) (lhs : Expr) (typeArgs : TyList) (p : Parser)
    (a : Expr × Parser) :
    parseFunctionCall (fuel + 1) lhs typeArgs p = some a → parseFunctionCall (fuel + 2) lhs typeArgs p = some a := by
  rw [parseFunctionCall, parseFunctionCall]
  split
  · exact keeps_map (keeps.arguments _ _) a
  · exact id

theorem arguments_succ (keeps : KeepsResults fuel) (seen : Bool) (p : Parser) (a : ExprList × Parser) :
    parseArguments (fuel + 1) seen p = some a → parseArguments (fuel + 2) seen p = some a := by
  rw [parseArguments, parseArguments]
  split
  · exact id
  split
  · split
    · split
      · exact id
      · exact keeps.argument _ a
    · exact id
  · exact keeps.argument _ a

theorem argument_succ (keeps : KeepsResults fuel) (p : Parser) (a : ExprList × Parser) :
    parseArgument (fuel + 1) p = some a → parseArgument (fuel + 2) p = some a := by
  rw [parseArgument, parseArgument]
  exact keeps_bind (keeps.expression _ _) (fun value => keeps_map (keeps.arguments _ _)) a

theorem leaf_succ (keeps : KeepsResults fuel) (p : Parser) (a : Expr × Parser) :
    parseLeaf (fuel + 1) p = some a → parseLeaf (fuel + 2) p = some a := by
  rw [parseLeaf, parseLeaf]
  split
  · exact id
  · refine keeps_bind (keeps.expression _ _) (fun expr b => ?_) a
    exact id
  · exact id
  · exact id
  · split
    · exact keeps_map (keeps.expression _ _) a
    · exact id
  · exact id

end KeepsResults

theorem keepsResults (fuel : ℕ) : KeepsResults fuel := by
  induction fuel with
  | zero => constructor <;> intros <;> contradiction
  | succ fuel keeps =>
    exact ⟨keeps.type_succ, keeps.typeArguments_succ, keeps.typeArgumentList_succ, keeps.expression_succ,
      keeps.operators_succ, keeps.functionCall_succ, keeps.arguments_succ, keeps.argument_succ, keeps.leaf_succ⟩

theorem rises_parseExpression (minPrec : ℤ) (p : Parser) : Rises fun fuel => parseExpression fuel minPrec p :=
  fun fuel => (keepsResults fuel).expression minPrec p

end Parsing

namespace TypeSyntax

theorem rises_parseCapacity (p : Parser) : Rises fun fuel => parseCapacity fuel p :=
  fun fuel => keeps_map (Parsing.rises_parseExpression _ _ fuel)

/-- At one amount of fuel, no function of the parser gives another result with one more. -/
structure KeepsResults (inside : Bool) (fuel : ℕ) : Prop where
  type : ∀ p a, parseType inside fuel p = some a → parseType inside (fuel + 1) p = some a
  typeArguments : ∀ p a, parseTypeArguments inside fuel p = some a → parseTypeArguments inside (fuel + 1) p = some a
  typeArgumentList : ∀ p a, parseTypeArgumentList inside fuel p = some a →
    parseTypeArgumentList inside (fuel + 1) p = some a
  unnamedParameters : ∀ p a, parseUnnamedParameters inside fuel p = some a →
    parseUnnamedParameters inside (fuel + 1) p = some a
  unnamedParameter : ∀ p a, parseUnnamedParameter inside fuel p = some a →
    parseUnnamedParameter inside (fuel + 1) p = some a
  declaration : ∀ scope p a, parseDeclaration inside fuel scope p = some a →
    parseDeclaration inside (fuel + 1) scope p = some a
  parameters : ∀ scope p a, parseParameters inside fuel scope p = some a →
    parseParameters inside (fuel + 1) scope p = some a
  members : ∀ scope p a, parseMembers inside fuel scope p = some a → parseMembers inside (fuel + 1) scope p = some a
  functionReturnTypes : ∀ p a, parseFunctionReturnTypes inside fuel p = some a →
    parseFunctionReturnTypes inside (fuel + 1) p = some a
  returnTypes : ∀ wrapped p a, parseReturnTypes inside fuel wrapped p = some a →
    parseReturnTypes inside (fuel + 1) wrapped p = some a
  returnType : ∀ wrapped p a, parseReturnType inside fuel wrapped p = some a →
    parseReturnType inside (fuel + 1) wrapped p = some a

namespace KeepsResults

variable {inside : Bool} {fuel : ℕ}

theorem type_succ (keeps : KeepsResults inside fuel) (p : Parser) (a : Ty × Parser) :
    parseType inside (fuel + 1) p = some a → parseType inside (fuel + 2) p = some a := by
  rw [parseType, parseType]
  split
  · exact id
  · exact id
  · exact id
  · exact keeps_map (keeps.members _ _) a
  · split
    split
    · exact keeps_map (keeps.typeArguments _) a
    · exact id
  · split
    · refine keeps_bind (keeps.parameters _ _) (fun parameters b => ?_) a
      exact keeps_map (keeps.functionReturnTypes _) b
    · refine keeps_bind (keeps.unnamedParameters _) (fun parameters b => ?_) a
      exact keeps_map (keeps.functionReturnTypes _) b
  · exact keeps_map (keeps.type _) a
  · exact keeps_map (keeps.type _) a
  · exact keeps_map (keeps.type _) a
  · exact id
  · exact keeps_map (keeps.type _) a
  · refine keeps_bind (rises_parseCapacity _ fuel) (fun capacity b => ?_) a
    split
    split
    · exact keeps_map (keeps.type _) b
    · exact id
  · exact id

theorem typeArguments_succ (keeps : KeepsResults inside fuel) (p : Parser) (a : TyList × Parser) :
    parseTypeArguments inside (fuel + 1) p = some a → parseTypeArguments inside (fuel + 2) p = some a := by
  rw [parseTypeArguments, parseTypeArguments]
  split
  · exact keeps.typeArgumentList _ a
  · exact id

theorem typeArgumentList_succ (keeps : KeepsResults inside fuel) (p : Parser) (a : TyList × Parser) :
    parseTypeArgumentList inside (fuel + 1) p = some a → parseTypeArgumentList inside (fuel + 2) p = some a := by
  rw [parseTypeArgumentList, parseTypeArgumentList]
  refine keeps_bind (keeps.type _) (fun arg b => ?_) a
  split
  split
  · exact keeps_map (keeps.typeArgumentList _) b
  · exact id
  · exact id
  · exact id

theorem unnamedParameters_succ (keeps : KeepsResults inside fuel) (p : Parser) (a : TyList × Parser) :
    parseUnnamedParameters inside (fuel + 1) p = some a → parseUnnamedParameters inside (fuel + 2) p = some a := by
  rw [parseUnnamedParameters, parseUnnamedParameters]
  split
  · exact id
  · exact keeps.unnamedParameter _ a

theorem unnamedParameter_succ (keeps : KeepsResults inside fuel) (p : Parser) (a : TyList × Parser) :
    parseUnnamedParameter inside (fuel + 1) p = some a → parseUnnamedParameter inside (fuel + 2) p = some a := by
  rw [parseUnnamedParameter, parseUnnamedParameter]
  refine keeps_bind (keeps.type _) (fun type b => ?_) a
  split
  split
  · exact id
  · exact keeps_map (keeps.unnamedParameter _) b
  · exact id

theorem declaration_succ (keeps : KeepsResults inside fuel) (scope : List String) (p : Parser)
    (a : (List String × Ty) × List String × Parser) :
    parseDeclaration inside (fuel + 1) scope p = some a → parseDeclaration inside (fuel + 2) scope p = some a := by
  rw [parseDeclaration, parseDeclaration]
  refine keeps_bind (fun _ => id) (fun names b => ?_) a
  split
  split
  · exact keeps_bind (keeps.type _) (fun type b => id) b
  · exact id

theorem parameters_succ (keeps : KeepsResults inside fuel) (scope : List String) (p : Parser) (a : Fields × Parser) :
    parseParameters inside (fuel + 1) scope p = some a → parseParameters inside (fuel + 2) scope p = some a := by
  rw [parseParameters, parseParameters]
  refine keeps_bind (keeps.declaration _ _) (fun declaration b => ?_) a
  split
  split
  · exact id
  · exact keeps_map (keeps.parameters _ _) b
  · exact id

theorem members_succ (keeps : KeepsResults inside fuel) (scope : List String) (p : Parser) (a : Fields × Parser) :
    parseMembers inside (fuel + 1) scope p = some a → parseMembers inside (fuel + 2) scope p = some a := by
  rw [parseMembers, parseMembers]
  split
  · exact id
  split
  · refine keeps_bind (keeps.declaration _ _) (fun declaration b => ?_) a
    split
    split
    · exact keeps_map (keeps.members _ _) b
    · exact id
  · exact id

theorem functionReturnTypes_succ (keeps : KeepsResults inside fuel) (p : Parser) (a : TyList × Parser) :
    parseFunctionReturnTypes inside (fuel + 1) p = some a →
      parseFunctionReturnTypes inside (fuel + 2) p = some a := by
  rw [parseFunctionReturnTypes, parseFunctionReturnTypes]
  split
  · exact keeps.returnTypes _ _ a
  · exact id

theorem returnTypes_succ (keeps : KeepsResults inside fuel) (wrapped : Bool) (p : Parser) (a : TyList × Parser) :
    parseReturnTypes inside (fuel + 1) wrapped p = some a → parseReturnTypes inside (fuel + 2) wrapped p = some a := by
  rw [parseReturnTypes, parseReturnTypes]
  split
  · exact keeps.returnType _ _ a
  · exact keeps.returnType _ _ a

theorem returnType_succ (keeps : KeepsResults inside fuel) (wrapped : Bool) (p : Parser) (a : TyList × Parser) :
    parseReturnType inside (fuel + 1) wrapped p = some a → parseReturnType inside (fuel + 2) wrapped p = some a := by
  rw [parseReturnType, parseReturnType]
  refine keeps_bind (keeps.type _) (fun type b => ?_) a
  split
  split
  · split
    · exact id
    · exact keeps_map (keeps.returnTypes _ _) b
  · exact id
  · exact id

end KeepsResults

theorem keepsResults (inside : Bool) (fuel : ℕ) : KeepsResults inside fuel := by
  induction fuel with
  | zero => constructor <;> intros <;> contradiction
  | succ fuel keeps =>
    exact ⟨keeps.type_succ, keeps.typeArguments_succ, keeps.typeArgumentList_succ, keeps.unnamedParameters_succ,
      keeps.unnamedParameter_succ, keeps.declaration_succ, keeps.parameters_succ, keeps.members_succ,
      keeps.functionReturnTypes_succ, keeps.returnTypes_succ, keeps.returnType_succ⟩

end TypeSyntax

end Saad
