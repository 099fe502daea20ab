import MaterialModules.Registry.Basic

set_option autoImplicit false

namespace MaterialModules.Registry

def functionTag? (r : Registry) (m : ModuleRecord) (i : Nat) : Option Tag := m.functions[i]?.bind r.tag?

def materialTag? (r : Registry) (m : ModuleRecord) (i : Nat) : Option Tag := m.materials[i]?.bind r.tag?

def accepts (d : Definition) (args : Arguments) : Bool :=
  (args.all fun (n, e) => (d.parameter? n).any fun p => e.type.fits p.type) &&
    d.parameters.all fun p => p.default?.isSome || (args.get? p.name).isSome

/-- The registered names of a module's functions called `name`, which may carry a signature. Given
arguments, only the functions that accept them count. -/
def overloads (r : Registry) (m : ModuleRecord) (name : String) (args : Option Arguments) :
    List String :=
  m.functions.filter fun f =>
    Name.withoutSignature f = Name.withoutSignature name &&
      match args with
      | none => true
      | some as =>
        match (r.tag? f).bind r.definition? with
        | some d => d.kind = .function && accepts d as
        | none => false

end MaterialModules.Registry
