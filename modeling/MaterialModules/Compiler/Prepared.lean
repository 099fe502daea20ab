import MaterialModules.Compiler.Toolchain

/-!
A toolchain whose modules and code are laid down beforehand. It analyzes any module whose imports are
registered, and for a module that it has analyzed and that no code is laid down for, it generates one
entity without parameters for each function.
-/

set_option autoImplicit false

namespace MaterialModules

/-- What comes of an analysis: a valid module, no module, or an invalid one. -/
inductive AnalysisMode where
  | accept | fail | reject
  deriving DecidableEq, Repr

structure PreparedToolchain where
  /-- Modules under the names that they are loaded by; of two under one name the later one counts. -/
  modules : List (String × CompiledModule) := []
  /-- Code by module, or the diagnostics that come instead of it. -/
  codes : List (String × Except (List Message) GeneratedCode) := []
  builtins : List String := []
  /-- The modules whose imports cannot be made available. -/
  refusedRestores : List String := []
  analysis : AnalysisMode := .accept

namespace PreparedToolchain

def compilerError (text : String) : Message := ⟨.error, .compiler, text⟩

def entity (module : String) (f : Source.FunctionDecl) : GeneratedEntity :=
  let signature := ",".intercalate (f.parameters.map fun p => p.type.name.text)
  { name := module ++ "::" ++ f.name ++ "(" ++ signature ++ ")"
    returnType := .material
    exported := f.exported }

/-- The code of an analyzed module. What returns a plain material is a material. -/
def codeOf (m : Source.Module) : GeneratedCode :=
  let (materials, functions) := m.functions.partition fun f => f.returnType = .material
  { functions := functions.map (entity m.name), materials := materials.map (entity m.name) }

def takeOwner (lookup : ModuleLookup) (taken : List CompiledModule) (n : QualifiedName) :
    Except (List Message) (List CompiledModule) :=
  match n.modulePart? with
  | none => .ok taken
  | some owner =>
    if taken.any fun m => m.name = owner then .ok taken
    else
      match lookup owner with
      | some m => .ok (taken ++ [m])
      | none => .error [compilerError ("unknown import " ++ owner)]

def lastAnalyzed? (name : String) (events : List Event) : Option Source.Module :=
  events.reverse.findSome? fun
    | .analyze m true => if m.name = name then some m else none
    | _ => none

def toolchain (p : PreparedToolchain) : Toolchain where
  isBuiltin name := p.builtins.contains name
  load _ _ name :=
    match p.modules.reverse.lookup name with
    | some m => .ok m
    | none => .error [compilerError ("module " ++ name ++ " not found")]
  loadText _ _ name text :=
    if "mdl ".toList.isPrefixOf text.toList then
      .ok { name, valid := (Text.beforeFirst "invalid".toList text.toList).isNone }
    else .error [compilerError "expected a version declaration"]
  analyze _ lookup m :=
    match p.analysis with
    | .fail => .error [⟨.warning, .compiler, "analysis started"⟩, compilerError "analysis failed"]
    | mode =>
      (m.imports.foldlM (takeOwner lookup) []).map fun imports =>
        let messages := if mode = .reject then [compilerError "analysis rejected"] else []
        { name := m.name, version := m.version, imports, valid := messages.isEmpty, messages }
  restore _ _ m := !p.refusedRestores.contains m.name
  generate events m _ :=
    match p.codes.lookup m.name with
    | some code => code
    | none => .ok (((lastAnalyzed? m.name events).map codeOf).getD {})

end PreparedToolchain

end MaterialModules
