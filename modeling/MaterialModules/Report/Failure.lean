import MaterialModules.Language.Expression

set_option autoImplicit false

namespace MaterialModules

inductive Inconsistency where
  | notACall (t : Tag)
  | missingDefinition (t : Tag)
  | missingArgument (name : String)
  | unexpected (form : ExpressionForm)
  | recursiveCall (t : Tag)
  deriving DecidableEq, Repr

def Inconsistency.message : Inconsistency → String
  | .notACall t => "unsupported entity kind in call (tag " ++ toString t.id ++ ")"
  | .missingDefinition t => "definition " ++ toString t.id ++ " not found"
  | .missingArgument name => "no argument \"" ++ name ++ "\""
  | .unexpected form => "unexpected " ++ form.name ++ " node in an argument tree"
  | .recursiveCall t => "call " ++ toString t.id ++ " contains itself"

inductive Conflict where
  | material
  | notUniform (function : String)
  deriving DecidableEq, Repr

def Conflict.message : Conflict → String
  | .material => "a material is never uniform"
  | .notUniform f => "a uniform result is required from \"" ++ f ++ "\", which is not uniform"

inductive UniformError where
  | conflict (c : Conflict)
  | internal (i : Inconsistency)
  deriving DecidableEq, Repr

namespace UniformError

def title : UniformError → String
  | conflict _ => "Conflict"
  | internal _ => "Internal"

def message : UniformError → String
  | conflict c => c.message
  | internal i => i.message

def diagnostic : UniformError → String
  | conflict _ => "matl::uniform::conflict"
  | internal _ => "matl::uniform::internal"

end UniformError

inductive ConversionError where
  | outsideDefinition (form : ExpressionForm)
  | missingOperand (index : Nat)
  | notAnArray (function : String)
  | missingResource (t : Tag)
  deriving DecidableEq, Repr

def ConversionError.message : ConversionError → String
  | .outsideDefinition form => form.name ++ " references have no meaning outside their definition"
  | .missingOperand i => "missing operand " ++ toString i
  | .notAnArray f => "array constructor \"" ++ f ++ "\" does not return an array"
  | .missingResource t => "resource " ++ toString t.id ++ " not found"

inductive PrototypeError where
  | notADefinition (t : Tag)
  | unusablePrototype (variant : String)
  | unusable (t : Tag)
  | notACall (t : Tag)
  | missingDefinition (definition call : Tag)
  deriving DecidableEq, Repr

def PrototypeError.message : PrototypeError → String
  | .notADefinition t => "tag " ++ toString t.id ++ " is not a definition"
  | .unusablePrototype v => "variant \"" ++ v ++ "\" refers to an unusable prototype"
  | .unusable t => "tag " ++ toString t.id ++ " is not usable here"
  | .notACall t => "tag " ++ toString t.id ++ " is not a function call or material instance"
  | .missingDefinition d c =>
    "definition " ++ toString d.id ++ " of instance " ++ toString c.id ++ " not found"

inductive ModuleError where
  | invalidName (name : String)
  | loadFailed (module : String)
  | nameInUse (registered : String)
  | exportCollision (registered : String)
  | importRestoreFailed (module : String)
  | importFailed (module imported : String)
  | invalidPrototype (cause : PrototypeError)
  | unknownParameter (name : String)
  | missingArguments (material : String)
  | typeMismatch (argument : String)
  | conversion (cause : ConversionError)
  | invalidModule (module : String)
  | annotationArgument (title argument : String)
  | annotationName (title : String)
  | annotationNotFound (title : String)
  | pathNotFound (path : String)
  | uniformConflict (path : String) (cause : Conflict)
  | internal (cause : Inconsistency)
  deriving DecidableEq, Repr

namespace ModuleError

def title : ModuleError → String
  | invalidName _ => "InvalidName"
  | loadFailed _ => "LoadFailed"
  | nameInUse _ => "NameInUse"
  | exportCollision _ => "ExportCollision"
  | importRestoreFailed _ => "ImportRestoreFailed"
  | importFailed _ _ => "ImportFailed"
  | invalidPrototype _ => "InvalidPrototype"
  | unknownParameter _ => "UnknownParameter"
  | missingArguments _ => "MissingArguments"
  | typeMismatch _ => "TypeMismatch"
  | conversion _ => "DefaultConversion"
  | invalidModule _ => "InvalidModule"
  | annotationArgument _ _ => "AnnotationArgument"
  | annotationName _ => "AnnotationName"
  | annotationNotFound _ => "AnnotationNotFound"
  | pathNotFound _ => "PathNotFound"
  | uniformConflict _ _ => "UniformConflict"
  | internal _ => "Internal"

def message : ModuleError → String
  | invalidName n => "invalid module name \"" ++ n ++ "\""
  | loadFailed m => "failed to load module \"" ++ m ++ "\""
  | nameInUse n => "registry name \"" ++ n ++ "\" is already in use by an element of another kind"
  | exportCollision n =>
    "registry name \"" ++ n ++ "\" for an exported definition is already in use"
  | importRestoreFailed m => "failed to restore the imports of module \"" ++ m ++ "\""
  | importFailed m i => "failed to initialize module \"" ++ i ++ "\" imported by \"" ++ m ++ "\""
  | invalidPrototype cause => "invalid prototype: " ++ cause.message
  | unknownParameter n => "\"" ++ n ++ "\" is not a parameter of the prototype"
  | missingArguments m => "the callee of \"" ++ m ++ "\" has no arguments to promote"
  | typeMismatch a => "type mismatch for argument \"" ++ a ++ "\""
  | conversion cause => "cannot convert to source: " ++ cause.message
  | invalidModule m => "synthesized module \"" ++ m ++ "\" failed semantic analysis"
  | annotationArgument a x => "invalid argument \"" ++ x ++ "\" for annotation \"" ++ a ++ "\""
  | annotationName a => "malformed annotation name \"" ++ a ++ "\""
  | annotationNotFound a => "annotation definition \"" ++ a ++ "\" not found"
  | pathNotFound p => "parameter path \"" ++ p ++ "\" does not resolve to an argument"
  | uniformConflict p cause =>
    "parameter path \"" ++ p ++ "\" cannot be made uniform: " ++ cause.message
  | internal cause => "internal error: " ++ cause.message

def code : ModuleError → Int
  | invalidName _ => -1
  | loadFailed _ => -2
  | nameInUse _ | exportCollision _ => -3
  | importRestoreFailed _ | importFailed _ _ => -4
  | invalidPrototype _ => -5
  | unknownParameter _ | missingArguments _ => -6
  | typeMismatch _ => -7
  | conversion _ | invalidModule _ => -8
  | annotationArgument _ _ => -9
  | annotationName _ | annotationNotFound _ => -10
  | pathNotFound _ => -13
  | uniformConflict _ _ => -15
  | internal _ => -16

def diagnostic : ModuleError → String
  | invalidName _ => "matl::module::invalid_name"
  | loadFailed _ => "matl::module::load"
  | nameInUse _ => "matl::module::name_in_use"
  | exportCollision _ => "matl::module::export_collision"
  | importRestoreFailed _ => "matl::module::import_restore"
  | importFailed _ _ => "matl::module::import"
  | invalidPrototype _ => "matl::synth::prototype"
  | unknownParameter _ => "matl::synth::unknown_parameter"
  | missingArguments _ => "matl::synth::missing_arguments"
  | typeMismatch _ => "matl::synth::type_mismatch"
  | conversion _ => "matl::synth::conversion"
  | invalidModule _ => "matl::synth::invalid_module"
  | annotationArgument _ _ => "matl::anno::argument"
  | annotationName _ => "matl::anno::name"
  | annotationNotFound _ => "matl::anno::not_found"
  | pathNotFound _ => "matl::synth::path"
  | uniformConflict _ _ => "matl::synth::uniform"
  | internal _ => "matl::internal"

end ModuleError

inductive ResourceError where
  | relativePath (path : String)
  | unresolved (path : String)
  deriving DecidableEq, Repr

namespace ResourceError

def title : ResourceError → String
  | relativePath _ => "RelativePath"
  | unresolved _ => "Unresolved"

def message : ResourceError → String
  | relativePath p => "resource path \"" ++ p ++ "\" is not absolute"
  | unresolved p => "resource \"" ++ p ++ "\" could not be resolved"

def code : ResourceError → Int
  | relativePath _ => -2
  | unresolved _ => -3

def diagnostic : ResourceError → String
  | relativePath _ => "matl::resource::relative_path"
  | unresolved _ => "matl::resource::unresolved"

end ResourceError

inductive Created where
  | new (t : Tag)
  | existing (t : Tag)
  deriving DecidableEq, Repr

namespace Created

def tag : Created → Tag
  | new t | existing t => t

def code : Created → Int
  | new _ => 0
  | existing _ => 1

end Created

def statusCode : Except ModuleError Created → Int
  | .ok c => c.code
  | .error e => e.code

end MaterialModules
