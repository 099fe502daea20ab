import MaterialModules.Registry.Basic
import MaterialModules.Report.Failure

/-!
Uniform requirements, one call deep. They spread from a call to its arguments: a parameter that is
declared uniform requires a uniform argument, and a call that has to be uniform without saying so in its
type requires it of every argument that may not vary.
-/

set_option autoImplicit false

namespace MaterialModules

/-- An occurrence of an expression, and whether a uniform value is required of it. -/
structure Demand where
  expression : Expression
  uniform : Bool
  deriving DecidableEq, Repr

namespace Definition

/-- The parameter that an argument goes to: the one of its name, or else the one at its place. -/
def parameterFor (d : Definition) (name : String) (index : Nat) : Option Parameter :=
  (d.parameter? name).or d.parameters[index]?

/-- Whether a uniform argument is required. A call may require it of all arguments at once, but a
parameter may let its argument vary. The condition of a choice is always required. -/
def argumentRequired (d : Definition) (ofAll : Bool) (name : String) (index : Nat) : Bool :=
  if d.semantic.isTernary && index = 0 then true
  else
    match d.parameterFor name index with
    | none => ofAll
    | some p => !p.type.isVarying && (ofAll || p.type.isUniform)

def demands (d : Definition) (type : Ty) (uniform : Bool) (args : Arguments) :
    Except UniformError (List Demand) :=
  let ofAll := uniform && !type.isUniform
  if ofAll && !d.isUniformFunction then .error (.conflict (.notUniform d.plainName))
  else .ok (args.mapIdx fun i (n, e) => ⟨e, d.argumentRequired ofAll n i⟩)

end Definition

namespace Registry

/-- The demands that follow from one. A stored material instance may stand where nothing is required;
a direct material call may stand nowhere. -/
def demandsOf (r : Registry) (d : Demand) : Except UniformError (List Demand) :=
  match d.expression with
  | .constant _ _ _ => .ok []
  | .call _ type t =>
    match r.call? t with
    | none => .error (.internal (.notACall t))
    | some c =>
      match c.kind with
      | .material => if d.uniform then .error (.conflict .material) else .ok []
      | .function =>
        match r.definition? c.definition with
        | none => .error (.internal (.missingDefinition c.definition))
        | some f => f.demands type d.uniform c.arguments
  | .direct _ type t args =>
    match r.definition? t with
    | none => .error (.internal (.missingDefinition t))
    | some f =>
      if f.isMaterial then .error (.conflict .material) else f.demands type d.uniform args
  | e => .error (.internal (.unexpected e.form))

end Registry

end MaterialModules
