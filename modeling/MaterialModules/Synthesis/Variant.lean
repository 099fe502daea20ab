import MaterialModules.Synthesis.Annotating

/-!
Variants: an existing definition under a new name, with some of its defaults replaced.
-/

set_option autoImplicit false

namespace MaterialModules

structure VariantRequest where
  /-- A function or material definition. -/
  prototype : Tag
  name : String
  overrides : Arguments
  annotations : Option AnnotationBlock := none
  deriving DecidableEq, Repr

namespace Registry

/-- The definition that a variant of `t` is made of: the prototype of a definition that is a variant
itself, and otherwise the definition. -/
def variantBase (r : Registry) (t : Tag) : Except ModuleError Definition :=
  match r.definition? t with
  | none => .error (.invalidPrototype (.notADefinition t))
  | some d =>
    match d.prototype with
    | none => .ok d
    | some p =>
      match r.definition? p with
      | none => .error (.invalidPrototype (.unusablePrototype d.name))
      | some base =>
        if base.kind = d.kind then .ok base
        else .error (.invalidPrototype (.unusablePrototype d.name))

end Registry

/-- Every override names a parameter that it fits; the first one that does not decides the error. -/
def Definition.checkOverrides (d : Definition) : Arguments → Except ModuleError Unit
  | [] => .ok ()
  | (n, e) :: rest =>
    match d.parameter? n with
    | none => .error (.unknownParameter n)
    | some p => if e.type.fits p.type then d.checkOverrides rest else .error (.typeMismatch n)

namespace Registry

def overrideSources (r : Registry) (overrides : Arguments) :
    List Parameter → Mentioning (List (String × Source.Expr))
  | [] => pure []
  | p :: rest =>
    match overrides.get? p.name with
    | none => r.overrideSources overrides rest
    | some e => do
      let x ← r.source [] e
      let xs ← r.overrideSources overrides rest
      pure ((p.name, x) :: xs)

def variant (r : Registry) (v : VariantRequest) : Mentioning Source.FunctionDecl := do
  let base ← Mentioning.ofExcept (r.variantBase v.prototype)
  Mentioning.ofExcept (base.checkOverrides v.overrides)
  let (args, userTypes) ← (r.overrideSources v.overrides base.parameters).held
  let annotations ← r.annotationBlock v.annotations
  let body : Source.Expr := .named (.ofText base.plainName) args
  let returnType := if base.isMaterial then .material else base.returnType.sourceName
  Mentioning.mention body.names
  Mentioning.mention [returnType.name]
  Mentioning.mention userTypes
  pure { returnType, name := v.name, parameters := [], isClone := true, body, annotations }

end Registry

end MaterialModules
