import MaterialModules.Language.Definition
import MaterialModules.Report.Message

set_option autoImplicit false

namespace MaterialModules

structure GeneratedEntity where
  name : String
  parameters : List Parameter := []
  returnType : Ty
  semantic : Semantic := .ordinary
  exported : Bool := true
  varying : Bool := false
  /-- The absolute name with signature of the entity that a variant exports again. -/
  prototype : Option String := none
  annotations : Option AnnotationBlock := none
  deriving DecidableEq, Repr

structure ResourceLiteral where
  url : String
  kind : ResourceKind
  gamma : Option Float32
  deriving DecidableEq, Repr

structure GeneratedCode where
  messages : List Message := []
  types : List (String × Ty) := []
  constants : List (String × Value) := []
  annotations : Option AnnotationBlock := none
  functions : List GeneratedEntity := []
  materials : List GeneratedEntity := []
  resourceLiterals : List ResourceLiteral := []
  deriving DecidableEq, Repr

def GeneratedCode.errorCount (c : GeneratedCode) : Nat := Message.errorCount c.messages

end MaterialModules
