import MaterialModules.Compiler.Toolchain
import MaterialModules.Registry.Resources

/-!
Entering a compiled module, whose imports are registered, with its resources, functions and materials.
-/

set_option autoImplicit false

namespace MaterialModules

def archiveOf (filename : String) : String :=
  match Text.beforeFirst ".mdr:".toList filename.toList with
  | some before => String.ofList before ++ ".mdr"
  | none => filename

namespace GeneratedCode

def functionNames (c : GeneratedCode) : List String := c.functions.map fun e => Name.registered e.name

def materialNames (c : GeneratedCode) : List String := c.materials.map fun e => Name.registered e.name

def registeredNames (c : GeneratedCode) : List String := c.functionNames ++ c.materialNames

end GeneratedCode

namespace ResourceReference

def enter (url : String) (t : Tag) : List ResourceReference → List ResourceReference
  | [] => []
  | x :: rest =>
    if x.url = url then (if t ∈ x.tags then x else { x with tags := x.tags ++ [t] }) :: rest
    else x :: enter url t rest

def resolve (resolver : Resolver) (owner : Option String) :
    List ResourceLiteral → List ResourceReference → Registry → List ResourceReference × Registry
  | [], xs, r => (xs, r)
  | l :: ls, xs, r =>
    if xs.any fun x => x.url = l.url then
      match resolver r { kind := l.kind, path := l.url, gamma := l.gamma, owner } with
      | (some t, r) => resolve resolver owner ls (enter l.url t xs) r
      | (none, r) => resolve resolver owner ls xs r
    else resolve resolver owner ls xs r

end ResourceReference

namespace Registry

/-- Enters a generated entity. A prototype is looked up among the records that are there before it. -/
def addEntity (r : Registry) (module : Tag) (kind : DefinitionKind) (e : GeneratedEntity) : Registry :=
  r.add
    { name := Name.registered e.name
      element := .definition
        { kind
          module
          name := e.name
          parameters := e.parameters
          returnType := e.returnType
          semantic := e.semantic
          exported := e.exported
          varying := e.varying
          prototype := e.prototype.bind fun p => r.tag? (Name.registered p)
          annotations := e.annotations }
      visibility := if e.exported then .browsable else .referenceCounted }

def addEntities (r : Registry) (module : Tag) (kind : DefinitionKind) (es : List GeneratedEntity) :
    Registry :=
  es.foldl (fun r e => r.addEntity module kind e) r

def addModule (r : Registry) (x : ModuleRecord) (code : GeneratedCode) : Registry :=
  let named : Record := ⟨Name.registered x.name, .module x, .browsable⟩
  ((r.add named).addEntities r.fresh .function code.functions).addEntities r.fresh .material
    code.materials

end Registry

def CompiledModule.record (m : CompiledModule) (builtin : Bool) (code : GeneratedCode)
    (imports : List Tag) (resources : List ResourceReference) : ModuleRecord :=
  let filename := if builtin then none else m.filename
  { name := m.name
    filename
    archive := filename.map archiveOf
    version := m.version
    standard := m.standard
    imports
    types := code.types.map fun (n, t) => (m.name ++ "::" ++ n, t)
    constants := code.constants.map fun (n, v) => (m.name ++ "::" ++ n, v)
    annotations := code.annotations
    annotationDefinitions := m.annotationDefinitions
    functions := code.functionNames
    materials := code.materialNames
    resources
    compiled := m }

namespace Registry

/-- Enters a module whose imports are registered. No name that it defines may be bound before. -/
def enrol (r : Registry) (resolver : Resolver) (builtin : Bool) (m : CompiledModule)
    (code : GeneratedCode) (imports : List Tag) : Except ModuleError Created × Registry :=
  match code.registeredNames.find? fun n => (r.tag? n).isSome with
  | some n => (.error (.exportCollision n), r)
  | none =>
    let references := m.referencedResources.map fun (url, kind) => ⟨url, kind, []⟩
    let (resources, r) := ResourceReference.resolve resolver m.filename code.resourceLiterals references r
    (.ok (.new r.fresh), r.addModule (m.record builtin code imports resources) code)

end Registry

end MaterialModules
