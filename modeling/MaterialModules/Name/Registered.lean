import MaterialModules.Text.Pieces

/-!
Names under which entities are registered. The entity `::pkg::f(float)` is registered as
`mdl::pkg::f(float)`; what stands from the first opening parenthesis on is its signature.
-/

set_option autoImplicit false

namespace MaterialModules.Name

/-- The name under which the entity `name` is registered; a leading `::` may be left out. -/
def registered (name : String) : String :=
  if [':', ':'].isPrefixOf name.toList then "mdl" ++ name else "mdl::" ++ name

/-- The entity behind a registered name; any other name stands for itself. -/
def unregistered (name : String) : String :=
  match name.toList with
  | 'm' :: 'd' :: 'l' :: ':' :: ':' :: r => String.ofList (':' :: ':' :: r)
  | _ => name

def withoutSignature (name : String) : String :=
  String.ofList (name.toList.takeWhile (· ≠ '('))

def simple (name : String) : String :=
  let base := (withoutSignature name).toList
  match Text.cutLastScope base with
  | some (_, after) => String.ofList after
  | none => String.ofList base

end MaterialModules.Name
