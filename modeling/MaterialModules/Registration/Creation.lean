import MaterialModules.Registration.Finalization
import MaterialModules.Synthesis.Draft
import MaterialModules.Synthesis.Promotion
import MaterialModules.Synthesis.Variant

/-!
The four ways in which a module comes to be registered: loaded by name, read from text, or put together
from variants or from materials. Each one reports its failure to the caller.
-/

set_option autoImplicit false

namespace MaterialModules

namespace Registry

def ownerVersion? (r : Registry) (t : Tag) : Option Version :=
  (r.definition? t).bind fun d => (r.module? d.module).map (·.version)

/-- The newest version among the modules that own some definitions, or the definitions that some stored
calls are of. -/
def newestVersion (r : Registry) (calls : Bool) (ts : List Tag) : Except ModuleError Version := do
  let vs ← ts.mapM fun t =>
    let definition := if calls then (r.call? t).map (·.definition) else some t
    match definition.bind r.ownerVersion? with
    | some v => .ok v
    | none => .error (.invalidPrototype (.unusable t))
  .ok (Version.newest vs)

def materialOfCall (r : Registry) (m : MaterialRequest) : Mentioning Source.FunctionDecl := do
  let c ← Mentioning.ofExcept (Callee.ofCall r m.callee)
  r.material c m

end Registry

namespace Registrar

def isModuleName (g : Registrar) (name : String) : Bool :=
  Name.isModuleName g.toolchain.validIdentifier name

def unlessRegistered (allowed : Bool) (name : String) (make : Work Created) : Work Created :=
  if allowed then do
    match ← registered name with
    | some t => Work.pure (.existing t)
    | none => make
  else Work.fail (.invalidName name)

def synthesize (g : Registrar) (name : String) (version : Version)
    (declarations : Registry → List (Mentioning Source.FunctionDecl)) : Work Created := do
  let r ← Work.registry
  let drafted := Source.Draft.addAll { module := g.toolchain.blank name version } (declarations r)
  Work.ofExcept drafted.1
  let module := drafted.2.finished
  let answer ← Work.ask (fun events lookup => g.toolchain.analyze events lookup module)
    fun answer => .analyze module answer.isOk
  let compiled ← Work.accept (.invalidModule name) answer
  if compiled.valid then g.finalize [] compiled
  else do
    Work.report compiled.messages
    Work.fail (.invalidModule name)

def create (g : Registrar) (name : String) : Work Created :=
  .reported <| unlessRegistered (g.isModuleName name) name do
    let answer ← Work.ask (fun events lookup => g.toolchain.load events lookup name) fun _ => .load name
    let compiled ← Work.accept (.loadFailed name) answer
    g.finalize [] compiled

def createFromText (g : Registrar) (name text : String) : Work Created :=
  .reported <| unlessRegistered (name = g.settings.streamModuleName || g.isModuleName name) name do
    let answer ← Work.ask (fun events lookup => g.toolchain.loadText events lookup name text)
      fun _ => .loadText name
    let compiled ← Work.accept (.loadFailed name) answer
    g.finalize [] compiled

def createFromVariants (g : Registrar) (name : String) (vs : List VariantRequest) : Work Created :=
  .reported <| unlessRegistered (g.isModuleName name) name do
    let r ← Work.registry
    let version ← Work.ofExcept (r.newestVersion false (vs.map (·.prototype)))
    g.synthesize name version fun r => vs.map r.variant

def createFromMaterials (g : Registrar) (name : String) (ms : List MaterialRequest) : Work Created :=
  .reported <| unlessRegistered (g.isModuleName name) name do
    let r ← Work.registry
    let version ← Work.ofExcept (r.newestVersion true (ms.map (·.callee)))
    g.synthesize name version fun r => ms.map r.materialOfCall

end Registrar

end MaterialModules
