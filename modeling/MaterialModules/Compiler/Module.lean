import MaterialModules.Language.Ty
import MaterialModules.Language.Version
import MaterialModules.Report.Message

set_option autoImplicit false

namespace MaterialModules

structure AnnotationDefinition where
  name : String
  parameters : List (String × Ty)
  deriving DecidableEq, Repr

namespace AnnotationDefinition

def signature (a : AnnotationDefinition) : String :=
  ",".intercalate (a.parameters.map fun p => p.2.spelling)

def parameterType? (a : AnnotationDefinition) (name : String) : Option Ty :=
  (a.parameters.find? (·.1 = name)).map (·.2)

end AnnotationDefinition

/-- A module after loading and analysis, with its imports resolved. -/
structure CompiledModule where
  name : String
  filename : Option String := none
  version : Version := .oldest
  standard : Bool := false
  valid : Bool := true
  messages : List Message := []
  imports : List CompiledModule := []
  referencedResources : List (String × ResourceKind) := []
  annotationDefinitions : List AnnotationDefinition := []
  deriving Repr, Inhabited

def CompiledModule.annotationNamed? (m : CompiledModule) (name signature : String) :
    Option AnnotationDefinition :=
  m.annotationDefinitions.find? fun a => a.name = name && a.signature = signature

end MaterialModules
