import MaterialModules.Registration.Enrolment
import MaterialModules.Registration.Work

/-!
Registering a compiled module. Imports that are not registered yet are registered first, each with the
imports of its own. While a module is being worked on, its own imports are held available by the
toolchain; they are dropped when the work ends, however it ends.
-/

set_option autoImplicit false

namespace MaterialModules

structure Registrar where
  toolchain : Toolchain
  resolver : Resolver := Resolver.registry
  settings : Settings := {}

/-- The tag of a registered module; the name must not belong to an element of another kind. -/
def Registry.registeredModule (r : Registry) (name : String) : Except ModuleError (Option Tag) :=
  match r.tag? (Name.registered name) with
  | none => .ok none
  | some t =>
    if r.kind? t = some .module then .ok (some t) else .error (.nameInUse (Name.registered name))

namespace Registrar

def registered (name : String) : Work (Option Tag) := do
  let r ← Work.registry
  Work.ofExcept (r.registeredModule name)

def restore (g : Registrar) (m : CompiledModule) : Work Unit := do
  let granted ← Work.ask (fun events lookup => g.toolchain.restore events lookup m) (.restore m.name)
  if granted then Work.pure () else Work.fail (.importRestoreFailed m.name)

def generate (g : Registrar) (m : CompiledModule) : Work GeneratedCode := do
  let answer ← Work.ask (fun events _ => g.toolchain.generate events m g.settings.generation)
    fun _ => .generate m.name g.settings.generation
  let code ← Work.accept (.loadFailed m.name) answer
  Work.report code.messages
  if code.errorCount = 0 then Work.pure code else Work.fail (.loadFailed m.name)

def enrol (g : Registrar) (m : CompiledModule) (code : GeneratedCode) (imports : List Tag) :
    Work Created :=
  Work.onRegistry fun r => r.enrol g.resolver (g.toolchain.isBuiltin m.name) m code imports

mutual

/-- Registers a compiled module unless it is registered. `enclosing` are the names of the modules whose
registration waits for this one. -/
def finalize (g : Registrar) (enclosing : List String) : CompiledModule → Work Created
  | m@⟨_, _, _, _, _, _, imports, _, _⟩ => do
    Work.report m.messages
    if m.valid then
      match ← registered m.name with
      | some t => Work.pure (.existing t)
      | none => do
        g.restore m
        Work.closedBy (do
          let code ← g.generate m
          let tags ← finalizeAll g (enclosing ++ [m.name]) m.name imports
          g.enrol m code tags) (.drop m.name)
    else Work.fail (.loadFailed m.name)
termination_by structural m => m

/-- Registers the imports of a module, in order. A module cannot import one that waits for it. -/
def finalizeAll (g : Registrar) (enclosing : List String) (owner : String) :
    List CompiledModule → Work (List Tag)
  | [] => Work.pure []
  | i :: rest => do
    let tag ←
      match ← registered i.name with
      | some t => Work.pure t
      | none =>
        if i.name ∈ enclosing then Work.fail (.importFailed owner i.name)
        else do
          let created ← Work.failingWith (finalize g enclosing i) (.importFailed owner i.name)
          Work.pure created.tag
    let tags ← finalizeAll g enclosing owner rest
    Work.pure (tag :: tags)
termination_by structural is => is

end

end Registrar

end MaterialModules
