import MaterialModules.Compiler.Code
import MaterialModules.Compiler.Module

set_option autoImplicit false

namespace MaterialModules

structure Resource where
  kind : ResourceKind
  filePath : String
  gamma : Option Float32
  shared : Bool
  deriving DecidableEq, Repr

/-- A url that a module mentions, with the records that its literals resolved to. -/
structure ResourceReference where
  url : String
  kind : ResourceKind
  tags : List Tag
  deriving DecidableEq, Repr

structure ModuleRecord where
  name : String
  filename : Option String
  /-- The archive of an archive member; for any other module its file. -/
  archive : Option String
  version : Version
  standard : Bool
  /-- The direct imports, in the order of the compiled module. -/
  imports : List Tag
  types : List (String × Ty)
  constants : List (String × Value)
  annotations : Option AnnotationBlock
  annotationDefinitions : List AnnotationDefinition
  /-- The registered names of the functions. -/
  functions : List String
  /-- The registered names of the materials. -/
  materials : List String
  resources : List ResourceReference
  compiled : CompiledModule
  deriving Repr

namespace ModuleRecord

def resourceTag? (m : ModuleRecord) (i : Nat) : Option Tag :=
  m.resources[i]?.bind fun r => r.tags.head?

def resourceType? (m : ModuleRecord) (i : Nat) : Option Ty :=
  m.resources[i]?.map fun r => r.kind.type

end ModuleRecord

inductive ElementKind where
  | module | functionDefinition | materialDefinition | functionCall | materialInstance | resource
  deriving DecidableEq, Repr

def ElementKind.name : ElementKind → String
  | .module => "module"
  | .functionDefinition => "function_definition"
  | .materialDefinition => "material_definition"
  | .functionCall => "function_call"
  | .materialInstance => "material_instance"
  | .resource => "resource"

inductive Element where
  | module (m : ModuleRecord)
  | definition (d : Definition)
  | call (c : StoredCall)
  | resource (r : Resource)
  deriving Repr

def Element.kind : Element → ElementKind
  | module _ => .module
  | definition d => match d.kind with
    | .function => .functionDefinition
    | .material => .materialDefinition
  | call c => match c.kind with
    | .function => .functionCall
    | .material => .materialInstance
  | resource _ => .resource

/-- Browsable records are listed; the others live as long as something refers to them. -/
inductive Visibility where
  | browsable | referenceCounted
  deriving DecidableEq, Repr

def Visibility.name : Visibility → String
  | .browsable => "browsable"
  | .referenceCounted => "reference_counted"

structure Record where
  name : String
  element : Element
  visibility : Visibility
  deriving Repr

end MaterialModules
