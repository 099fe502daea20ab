import MaterialModules.Registry.Basic
import MaterialModules.Text.Pieces

/-!
Dotted paths into the arguments of calls. A path goes through stored calls without looking at their
definitions.
-/

set_option autoImplicit false

namespace MaterialModules

def pathSteps (path : String) : List String :=
  (Text.pieces '.' path.toList).map String.ofList

namespace Registry

def argumentsOf? (r : Registry) : Expression → Option Arguments
  | .call _ _ t => (r.call? t).map (·.arguments)
  | .direct _ _ _ args => some args
  | _ => none

def follow (r : Registry) : List String → Expression → Option Expression
  | [], e => some e
  | n :: ns, e => ((r.argumentsOf? e).bind (Arguments.get? n)).bind (r.follow ns)

def followIn (r : Registry) (args : Arguments) : List String → Option Expression
  | [] => none
  | n :: ns => (Arguments.get? n args).bind (r.follow ns)

def find? (r : Registry) (path : String) (args : Arguments) : Option Expression :=
  r.followIn args (pathSteps path)

end Registry

end MaterialModules
