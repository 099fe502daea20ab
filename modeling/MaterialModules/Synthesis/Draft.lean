import MaterialModules.Source.Imports
import MaterialModules.Synthesis.Mentioning

set_option autoImplicit false

namespace MaterialModules.Source

/-- A module that is being put together, and the names that its declarations mention so far. -/
structure Draft where
  module : Module
  names : NameSet := .empty

namespace Draft

/-- Adds a declaration. What is mentioned on the way to it stays, also if it fails. -/
def add (d : Draft) (x : Mentioning FunctionDecl) : Except ModuleError Unit × Draft :=
  match x.result with
  | .ok f => (.ok (), ⟨d.module.append f, d.names.collect x.names⟩)
  | .error e => (.error e, { d with names := d.names.collect x.names })

def addAll (d : Draft) : List (Mentioning FunctionDecl) → Except ModuleError Unit × Draft
  | [] => (.ok (), d)
  | x :: xs =>
    match d.add x with
    | (.ok (), d') => d'.addAll xs
    | (.error e, d') => (.error e, d')

def finished (d : Draft) : Module := d.module.withImports d.names

end Draft

def Module.extend (m : Module) (fs : List FunctionDecl) (names : List QualifiedName) : Module :=
  (fs.foldl append m).withImports (NameSet.empty.collect names)

end MaterialModules.Source
