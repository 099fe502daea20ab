import MaterialModules.Language.Ty
import MaterialModules.Registry.Tag

set_option autoImplicit false

namespace MaterialModules

inductive Value where
  | bool (b : Bool)
  | int (n : Int32)
  | float (x : Float32)
  | double (x : Float)
  | string (s : String)
  | color (r g b : Float32)
  | vector (items : List Value)
  | enumeration (typeName name : String) (value : Int32)
  | struct (typeName : String) (fields : List (String × Value))
  | array (elem : Ty) (items : List Value)
  | texture (shape : TextureShape) (resource : Option Tag) (gamma : Float32)
  | lightProfile (resource : Option Tag)
  | bsdfMeasurement (resource : Option Tag)
  /-- The default distribution function of a kind, which scatters nothing. -/
  | emptyDistribution (kind : Kind)
  deriving Repr, Inhabited

namespace Value

def scalarOf : List Value → Scalar
  | .bool _ :: _ => .bool
  | .int _ :: _ => .int
  | .double _ :: _ => .double
  | _ => .float

/-- The unqualified type. The size of a vector stops at 255, which no declared vector type has. -/
def type (v : Value) : Ty :=
  match v with
  | .bool _ => ⟨.bool, {}⟩
  | .int _ => ⟨.int, {}⟩
  | .float _ => ⟨.float, {}⟩
  | .double _ => ⟨.double, {}⟩
  | .string _ => ⟨.string, {}⟩
  | .color _ _ _ => ⟨.color, {}⟩
  | .vector items => ⟨.vector (scalarOf items) (min items.length 255), {}⟩
  | .enumeration t _ _ => ⟨.enumeration t, {}⟩
  | .struct t _ => ⟨.struct t, {}⟩
  | .array elem items => ⟨.array elem.kind elem.qualifiers (some items.length), {}⟩
  | .texture shape _ _ => ⟨.texture shape, {}⟩
  | .lightProfile _ => ⟨.lightProfile, {}⟩
  | .bsdfMeasurement _ => ⟨.bsdfMeasurement, {}⟩
  | .emptyDistribution kind => ⟨kind, {}⟩

/-- The value at another type: integers widen to floating point and single precision widens to double;
any other value must fit the type already. -/
def convert? (v : Value) (target : Ty) : Option Value :=
  match target.kind, v with
  | .float, .int n => some (.float (Float32.ofInt n.toInt))
  | .double, .int n => some (.double (Float.ofInt n.toInt))
  | .double, .float x => some (.double x.toFloat)
  | _, v => if v.type.fits target.unqualified then some v else none

def resource? : Value → Option Tag
  | .texture _ r _ | .lightProfile r | .bsdfMeasurement r => r
  | _ => none

mutual

/-- Agreement of contents, floating-point numbers compared as numbers: the two zeros agree, and a value
with a NaN in it agrees with no value, itself included. -/
def agrees : Value → Value → Bool
  | .bool a, .bool b => a == b
  | .int a, .int b => a == b
  | .float a, .float b => a == b
  | .double a, .double b => a == b
  | .string a, .string b => a == b
  | .color a₁ a₂ a₃, .color b₁ b₂ b₃ => a₁ == b₁ && a₂ == b₂ && a₃ == b₃
  | .vector a, .vector b => agreesAll a b
  | .enumeration s a m, .enumeration t b n => s == t && a == b && m == n
  | .struct s a, .struct t b => s == t && agreesFields a b
  | .array e a, .array f b => e == f && agreesAll a b
  | .texture s a g, .texture t b h => s == t && a == b && g == h
  | .lightProfile a, .lightProfile b => a == b
  | .bsdfMeasurement a, .bsdfMeasurement b => a == b
  | .emptyDistribution a, .emptyDistribution b => a == b
  | _, _ => false

def agreesAll : List Value → List Value → Bool
  | [], [] => true
  | a :: as, b :: bs => a.agrees b && agreesAll as bs
  | _, _ => false

def agreesFields : List (String × Value) → List (String × Value) → Bool
  | [], [] => true
  | (m, a) :: as, (n, b) :: bs => m == n && a.agrees b && agreesFields as bs
  | _, _ => false

end

mutual

/-- The test behind decidable equality; floating-point numbers are the same when their bits are. -/
def same : Value → Value → Bool
  | .bool a, .bool b => decide (a = b)
  | .int a, .int b => decide (a = b)
  | .float a, .float b => decide (a = b)
  | .double a, .double b => decide (a = b)
  | .string a, .string b => decide (a = b)
  | .color a₁ a₂ a₃, .color b₁ b₂ b₃ => decide (a₁ = b₁ ∧ a₂ = b₂ ∧ a₃ = b₃)
  | .vector a, .vector b => sameAll a b
  | .enumeration s a m, .enumeration t b n => decide (s = t ∧ a = b ∧ m = n)
  | .struct s a, .struct t b => decide (s = t) && sameFields a b
  | .array e a, .array f b => decide (e = f) && sameAll a b
  | .texture s a g, .texture t b h => decide (s = t ∧ a = b ∧ g = h)
  | .lightProfile a, .lightProfile b => decide (a = b)
  | .bsdfMeasurement a, .bsdfMeasurement b => decide (a = b)
  | .emptyDistribution a, .emptyDistribution b => decide (a = b)
  | _, _ => false

def sameAll : List Value → List Value → Bool
  | [], [] => true
  | a :: as, b :: bs => a.same b && sameAll as bs
  | _, _ => false

def sameFields : List (String × Value) → List (String × Value) → Bool
  | [], [] => true
  | (m, a) :: as, (n, b) :: bs => decide (m = n) && a.same b && sameFields as bs
  | _, _ => false

end

mutual

theorem same_self : (a : Value) → a.same a = true
  | .bool _ | .int _ | .float _ | .double _ | .string _ | .color _ _ _ | .enumeration _ _ _
  | .texture _ _ _ | .lightProfile _ | .bsdfMeasurement _ | .emptyDistribution _ => by simp [same]
  | .vector a => by simp [same, sameAll_self a]
  | .struct _ a => by simp [same, sameFields_self a]
  | .array _ a => by simp [same, sameAll_self a]

theorem sameAll_self : (as : List Value) → sameAll as as = true
  | [] => by simp [sameAll]
  | a :: as => by simp [sameAll, same_self a, sameAll_self as]

theorem sameFields_self : (as : List (String × Value)) → sameFields as as = true
  | [] => by simp [sameFields]
  | (_, a) :: as => by simp [sameFields, same_self a, sameFields_self as]

end

mutual

theorem eq_of_same : (a b : Value) → a.same b = true → a = b
  | .bool _, b, h | .int _, b, h | .float _, b, h | .double _, b, h | .string _, b, h
  | .color _ _ _, b, h | .enumeration _ _ _, b, h | .texture _ _ _, b, h | .lightProfile _, b, h
  | .bsdfMeasurement _, b, h | .emptyDistribution _, b, h => by
    cases b <;> simp_all [same]
  | .vector a, b, h => by
    cases b <;> simp [same] at h ⊢
    exact eq_of_sameAll a _ h
  | .struct _ a, b, h => by
    cases b <;> simp [same] at h ⊢
    exact ⟨h.1, eq_of_sameFields a _ h.2⟩
  | .array _ a, b, h => by
    cases b <;> simp [same] at h ⊢
    exact ⟨h.1, eq_of_sameAll a _ h.2⟩

theorem eq_of_sameAll : (as bs : List Value) → sameAll as bs = true → as = bs
  | [], bs, h => by cases bs <;> simp_all [sameAll]
  | a :: as, bs, h => by
    cases bs <;> simp [sameAll] at h ⊢
    exact ⟨eq_of_same a _ h.1, eq_of_sameAll as _ h.2⟩

theorem eq_of_sameFields : (as bs : List (String × Value)) → sameFields as bs = true → as = bs
  | [], bs, h => by cases bs <;> simp_all [sameFields]
  | (_, a) :: as, [], h => by simp [sameFields] at h
  | (m, a) :: as, (n, b) :: bs, h => by
    simp [sameFields] at h
    rw [h.1.1, eq_of_same a b h.1.2, eq_of_sameFields as bs h.2]

end

instance : DecidableEq Value := fun a b =>
  if h : a.same b = true then isTrue (eq_of_same a b h)
  else isFalse fun e => h (e ▸ same_self a)

end Value

end MaterialModules
