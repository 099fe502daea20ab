import MaterialModules.Decimal.Layout
import MaterialModules.Registry.Basic
import MaterialModules.Report.Failure
import MaterialModules.Text.Pieces

/-!
Finding the record of a texture, a light profile or a measured distribution function, or entering one.
The name of the record says kind, file and gamma, so that equal queries meet at one record.
-/

set_option autoImplicit false

namespace MaterialModules

structure ResourceQuery where
  kind : ResourceKind
  path : String
  gamma : Option Float32 := none
  shared : Bool := false
  /-- The file of the module that mentions the resource; relative paths start from its folder. -/
  owner : Option String := none
  deriving DecidableEq, Repr

/-- Finds the record of a resource, or enters one. -/
abbrev Resolver := Registry → ResourceQuery → Option Tag × Registry

/-- A gamma in a registered name has the fewest digits that read back and never an exponent. -/
def gammaLayout : Decimal.Layout := ⟨none, false⟩

def isAbsolutePath (path : String) : Bool := ['/'].isPrefixOf path.toList

namespace ResourceQuery

def filePath? (q : ResourceQuery) : Option String :=
  if isAbsolutePath q.path then some q.path
  else
    q.owner.map fun owner =>
      let folder :=
        match Text.cutLast '/' owner.toList with
        | some (before, _) => String.ofList before
        | none => ""
      folder ++ "/" ++ q.path

def recordName (q : ResourceQuery) (filePath : String) : String :=
  "mdlr::" ++ q.kind.name ++ "::" ++ filePath ++
    match q.gamma with
    | some g => "::" ++ String.ofList (gammaLayout.single g)
    | none => ""

end ResourceQuery

namespace Resolver

/-- Keeps one record for each kind, file and gamma. A name that another kind of element holds stands
for no resource. -/
def registry : Resolver := fun r q =>
  match q.filePath? with
  | none => (none, r)
  | some filePath =>
    let name := q.recordName filePath
    match r.tag? name with
    | some t => (if (r.resource? t).isSome then some t else none, r)
    | none =>
      (some r.fresh,
        r.add ⟨name, .resource ⟨q.kind, filePath, q.gamma, q.shared⟩, .browsable⟩)

def refusing (refused : String → Bool) (next : Resolver) : Resolver := fun r q =>
  if refused q.path then (none, r) else next r q

def absolute (resolve : Resolver) (r : Registry) (q : ResourceQuery) :
    Except ResourceError Tag × Registry :=
  if isAbsolutePath q.path then
    match resolve r q with
    | (some t, r) => (.ok t, r)
    | (none, r) => (.error (.unresolved q.path), r)
  else (.error (.relativePath q.path), r)

def texture (resolve : Resolver) (r : Registry) (path : String) (shape : TextureShape)
    (gamma : Float32) (shared : Bool) : Except ResourceError Value × Registry :=
  let (t, r) := resolve.absolute r { kind := .texture shape, path, gamma := some gamma, shared }
  (t.map fun t => .texture shape (some t) gamma, r)

def lightProfile (resolve : Resolver) (r : Registry) (path : String) (shared : Bool) :
    Except ResourceError Value × Registry :=
  let (t, r) := resolve.absolute r { kind := .lightProfile, path, shared }
  (t.map fun t => .lightProfile (some t), r)

def bsdfMeasurement (resolve : Resolver) (r : Registry) (path : String) (shared : Bool) :
    Except ResourceError Value × Registry :=
  let (t, r) := resolve.absolute r { kind := .bsdfMeasurement, path, shared }
  (t.map fun t => .bsdfMeasurement (some t), r)

end Resolver

end MaterialModules
