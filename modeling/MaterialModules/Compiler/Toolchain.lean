import MaterialModules.Compiler.Code
import MaterialModules.Compiler.Module
import MaterialModules.Name.Identifier
import MaterialModules.Settings.Basic
import MaterialModules.Source.Tree

/-!
The compiler and the code generator, as far as the registration of modules sees them. A toolchain may
answer differently each time it is asked; what it has been asked before is all that this can depend on.
-/

set_option autoImplicit false

namespace MaterialModules

/-- A request that a toolchain was sent. -/
inductive Event where
  | load (name : String)
  | loadText (name : String)
  /-- A module for analysis, and whether a compiled module came back. -/
  | analyze (module : Source.Module) (accepted : Bool)
  /-- The imports of a module for code generation, and whether they were made available. -/
  | restore (name : String) (granted : Bool)
  | drop (name : String)
  | generate (name : String) (options : GenerationOptions)
  deriving Repr

def Event.line : Event → String
  | load name => "load " ++ name
  | loadText name => "stream " ++ name
  | analyze m _ => "analyze " ++ m.name
  | restore name _ => "restore " ++ name
  | drop name => "drop " ++ name
  | generate name options =>
    "compile " ++ name ++ " local_calls=" ++ toString options.allowLocalCalls ++
      " local_entities=" ++ toString options.includeLocalEntities

abbrev ModuleLookup := String → Option CompiledModule

structure Toolchain where
  validIdentifier : String → Bool := Name.isIdentifier
  /-- Built-in modules have no file. -/
  isBuiltin : String → Bool
  load : List Event → ModuleLookup → String → Except (List Message) CompiledModule
  loadText : List Event → ModuleLookup → String → String → Except (List Message) CompiledModule
  /-- The module that new declarations are put into. -/
  blank : String → Version → Source.Module := fun name version => { name, version }
  analyze : List Event → ModuleLookup → Source.Module → Except (List Message) CompiledModule
  /-- Makes the imports of a module available until they are dropped again. -/
  restore : List Event → ModuleLookup → CompiledModule → Bool
  generate : List Event → CompiledModule → GenerationOptions → Except (List Message) GeneratedCode

end MaterialModules
