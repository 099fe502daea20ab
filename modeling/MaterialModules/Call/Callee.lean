import MaterialModules.Registry.Basic
import MaterialModules.Report.Failure

set_option autoImplicit false

namespace MaterialModules

/-- What a new material calls: a definition with all of its arguments bound. -/
structure Callee where
  kind : DefinitionKind
  /-- The absolute name without the signature. -/
  name : String
  arguments : Arguments
  parameterTypes : List (String × Ty)
  deriving DecidableEq, Repr

namespace Callee

def parameterType? (c : Callee) (name : String) : Option Ty :=
  (c.parameterTypes.find? (·.1 = name)).map (·.2)

def ofCall (r : Registry) (t : Tag) : Except ModuleError Callee :=
  match r.call? t with
  | none => .error (.invalidPrototype (.notACall t))
  | some c =>
    match r.definition? c.definition with
    | none => .error (.invalidPrototype (.missingDefinition c.definition t))
    | some d => .ok ⟨c.kind, d.plainName, c.arguments, d.parameterTypes⟩

end Callee

end MaterialModules
