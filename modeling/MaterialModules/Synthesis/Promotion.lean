import MaterialModules.Call.Uniform
import MaterialModules.Synthesis.Annotating

/-!
Materials that wrap a call and turn some of the expressions inside its arguments into parameters. Each
parameter has the expression that it stands for as its default.
-/

set_option autoImplicit false

namespace MaterialModules

structure PromotionRequest where
  name : String
  /-- The dotted path of the expression in the arguments of the call. -/
  path : String
  enforceUniform : Bool := false
  annotations : Option AnnotationBlock := none
  deriving DecidableEq, Repr

structure MaterialRequest where
  /-- A stored function call or material instance. -/
  callee : Tag
  name : String
  promotions : List PromotionRequest
  annotations : Option AnnotationBlock := none
  deriving DecidableEq, Repr

structure Promotion where
  request : PromotionRequest
  init : Expression
  uniform : Bool
  deriving DecidableEq, Repr

namespace Registry

def promotion (r : Registry) (c : Callee) (q : PromotionRequest) : Except ModuleError Promotion :=
  match r.find? q.path c.arguments with
  | none => .error (.pathNotFound q.path)
  | some init =>
    match r.mustBeUniformAt c q.path init with
    | .error (.conflict cause) => .error (.uniformConflict q.path cause)
    | .error (.internal cause) => .error (.internal cause)
    | .ok required => .ok ⟨q, init, required || q.enforceUniform || init.type.isResource⟩

/-- Local constants for the arguments of the wrapped call, so that all of them are evaluated still. -/
def argumentBindings (r : Registry) (ps : Promotions) :
    Nat → Arguments → Mentioning (List (Source.Binding Source.Expr))
  | _, [] => pure []
  | i, (_, e) :: rest => do
    let type ← e.type.unqualified.written
    let init ← r.source ps e
    let bs ← r.argumentBindings ps (i + 1) rest
    pure (⟨type, temporaryName i, init⟩ :: bs)

def promotedArguments (r : Registry) (ps : Promotions) :
    Arguments → Mentioning (List (String × Source.Expr))
  | [] => pure []
  | (n, e) :: rest => do
    let x ← r.source ps e
    let xs ← r.promotedArguments ps rest
    pure ((n, x) :: xs)

def wrappedCall (r : Registry) (ps : Promotions) (c : Callee) : Mentioning Source.Expr :=
  if c.arguments.all fun (_, e) => (ps.name? e).isSome then do
    let args ← r.promotedArguments ps c.arguments
    pure (.named (.ofText c.name) args)
  else do
    let bs ← r.argumentBindings ps 0 c.arguments
    pure (.letIn bs
      (.named (.ofText c.name)
        (c.arguments.mapIdx fun i (n, _) => (n, .ofName (temporaryName i)))))

def promotionDecl (r : Registry) (p : Promotion) :
    Mentioning (Source.ParameterDecl × List QualifiedName) := do
  let (plain, typeUsers) ← p.init.type.unqualified.written.held
  let type := if p.uniform then plain.qualified .uniform else plain
  let (init, valueUsers) ← (r.source [] p.init).held
  let annotations ← r.annotationBlock p.request.annotations
  Mentioning.mention [type.name]
  Mentioning.mention init.names
  pure (⟨type, p.request.name, some init, annotations⟩, typeUsers ++ valueUsers)

def material (r : Registry) (c : Callee) (m : MaterialRequest) : Mentioning Source.FunctionDecl := do
  if c.arguments.isEmpty && !m.promotions.isEmpty then
    Mentioning.fail (.missingArguments m.name)
  let promotions ← Mentioning.ofExcept (m.promotions.mapM (r.promotion c))
  let annotations ← r.annotationBlock m.annotations
  let ps : Promotions := promotions.map fun p => (p.init, p.request.name)
  let (body, bodyUsers) ← (r.wrappedCall ps c).held
  Mentioning.mention body.names
  let decls ← promotions.mapM r.promotionDecl
  Mentioning.mention bodyUsers
  Mentioning.mention (decls.flatMap (·.2))
  pure
    { returnType := .material, name := m.name, parameters := decls.map (·.1), body, annotations }

end Registry

end MaterialModules
