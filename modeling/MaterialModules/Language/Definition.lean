import MaterialModules.Language.Expression
import MaterialModules.Language.Semantic
import MaterialModules.Name.Registered

set_option autoImplicit false

namespace MaterialModules

inductive DefinitionKind where
  | function | material
  deriving DecidableEq, Repr

def DefinitionKind.name : DefinitionKind → String
  | .function => "function"
  | .material => "material"

structure Parameter where
  name : String
  type : Ty
  default? : Option Expression := none
  annotations : Option AnnotationBlock := none
  deriving DecidableEq, Repr

structure Definition where
  kind : DefinitionKind
  module : Tag
  /-- The absolute name with the signature. -/
  name : String
  parameters : List Parameter
  returnType : Ty
  semantic : Semantic := .ordinary
  exported : Bool := true
  /-- The result may differ from point to point even for uniform arguments. -/
  varying : Bool := false
  /-- The definition that a variant exports again. -/
  prototype : Option Tag := none
  annotations : Option AnnotationBlock := none
  deriving DecidableEq, Repr

namespace Definition

def isMaterial (d : Definition) : Bool := d.kind = .material

def plainName (d : Definition) : String := Name.withoutSignature d.name

def simpleName (d : Definition) : String := Name.simple d.name

def parameter? (d : Definition) (name : String) : Option Parameter :=
  d.parameters.find? (·.name = name)

def parameterIndex? (d : Definition) (name : String) : Option Nat :=
  d.parameters.findIdx? (·.name = name)

def parameterTypes (d : Definition) : List (String × Ty) :=
  d.parameters.map fun p => (p.name, p.type)

/-- The parameters' defaults; of two parameters of one name the later default counts. -/
def defaults (d : Definition) : Arguments :=
  Arguments.ofList (d.parameters.filterMap fun p => p.default?.map fun e => (p.name, e))

def isUniformFunction (d : Definition) : Bool := d.semantic.isUniformBuiltin || !d.varying

end Definition

structure StoredCall where
  kind : DefinitionKind
  definition : Tag
  arguments : Arguments
  deriving DecidableEq, Repr

end MaterialModules
