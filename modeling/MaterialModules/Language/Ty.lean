/-!
Types with their qualifiers, how they are spelled, and which of them fit where one is expected.
-/

set_option autoImplicit false

namespace MaterialModules

/-- Declared qualifiers. A type with neither of them is uniform or varying as its use decides. -/
structure Qualifiers where
  uniform : Bool := false
  varying : Bool := false
  deriving DecidableEq, Repr, Inhabited

inductive Scalar where
  | bool | int | float | double
  deriving DecidableEq, Repr

def Scalar.name : Scalar → String
  | .bool => "bool"
  | .int => "int"
  | .float => "float"
  | .double => "double"

inductive TextureShape where
  | flat | solid | cube | ptex
  deriving DecidableEq, Repr

def TextureShape.typeName : TextureShape → String
  | .flat => "texture_2d"
  | .solid => "texture_3d"
  | .cube => "texture_cube"
  | .ptex => "texture_ptex"

/-- What a type is, apart from its own qualifiers. Enumerations and structures are known by their
absolute name, and an array without a size takes any number of elements. -/
inductive Kind where
  | bool | int | float | double | string | color
  | vector (elem : Scalar) (size : Nat)
  | enumeration (name : String)
  | struct (name : String)
  | array (elem : Kind) (elemQualifiers : Qualifiers) (size : Option Nat)
  | texture (shape : TextureShape)
  | lightProfile | bsdfMeasurement
  | bsdf | edf | vdf | material
  deriving DecidableEq, Repr

structure Ty where
  kind : Kind
  qualifiers : Qualifiers := {}
  deriving DecidableEq, Repr

def Kind.spelling : Kind → String
  | .bool => "bool"
  | .int => "int"
  | .float => "float"
  | .double => "double"
  | .string => "string"
  | .color => "color"
  | .vector elem size => elem.name ++ toString size
  | .enumeration name => name
  | .struct name => name
  | .array elem _ none => elem.spelling ++ "[]"
  | .array elem _ (some n) => elem.spelling ++ "[" ++ toString n ++ "]"
  | .texture shape => shape.typeName
  | .lightProfile => "light_profile"
  | .bsdfMeasurement => "bsdf_measurement"
  | .bsdf => "bsdf"
  | .edf => "edf"
  | .vdf => "vdf"
  | .material => "material"

def Kind.isResource : Kind → Bool
  | .texture _ | .lightProfile | .bsdfMeasurement => true
  | _ => false

namespace Ty

def spelling (t : Ty) : String := t.kind.spelling

def isUniform (t : Ty) : Bool := t.qualifiers.uniform
def isVarying (t : Ty) : Bool := t.qualifiers.varying
def isResource (t : Ty) : Bool := t.kind.isResource

def unqualified (t : Ty) : Ty := ⟨t.kind, {}⟩
def asUniform (t : Ty) : Ty := ⟨t.kind, ⟨true, false⟩⟩
def asVarying (t : Ty) : Ty := ⟨t.kind, ⟨false, true⟩⟩

def material : Ty := ⟨.material, {}⟩

end Ty

/-- Whether a value of kind `a` is one of the expected kind. An expected array without a size takes
any array of its element type; the element types' own qualifiers do not count, deeper ones do. -/
def Kind.fits : Kind → Kind → Bool
  | .array a _ m, .array e _ n => a = e && (n = none || m = n)
  | a, e => a = e

/-- Whether an argument of type `t` may be bound to a parameter of type `expected`: a varying
argument never goes to a uniform parameter, and else the kinds decide. -/
def Ty.fits (t expected : Ty) : Bool :=
  !(expected.isUniform && t.isVarying) && t.kind.fits expected.kind

inductive ResourceKind where
  | texture (shape : TextureShape)
  | lightProfile
  | bsdfMeasurement
  deriving DecidableEq, Repr

namespace ResourceKind

def type : ResourceKind → Ty
  | texture shape => ⟨.texture shape, {}⟩
  | lightProfile => ⟨.lightProfile, {}⟩
  | bsdfMeasurement => ⟨.bsdfMeasurement, {}⟩

def name (k : ResourceKind) : String := k.type.spelling

end ResourceKind

end MaterialModules
