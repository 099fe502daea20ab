set_option autoImplicit false

namespace MaterialModules

inductive Version where
  | v1_0 | v1_1 | v1_2 | v1_3 | v1_4 | v1_5
  deriving DecidableEq, Repr, Inhabited

namespace Version

def oldest : Version := .v1_0
def latest : Version := .v1_5

/-- Numbers that name no version are taken for the latest one. -/
def ofNumbers : Nat → Nat → Version
  | 1, 0 => .v1_0
  | 1, 1 => .v1_1
  | 1, 2 => .v1_2
  | 1, 3 => .v1_3
  | 1, 4 => .v1_4
  | _, _ => latest

def minor : Version → Nat
  | .v1_0 => 0
  | .v1_1 => 1
  | .v1_2 => 2
  | .v1_3 => 3
  | .v1_4 => 4
  | .v1_5 => 5

def major (_ : Version) : Nat := 1

@[simp] theorem ofNumbers_major_minor (v : Version) : ofNumbers v.major v.minor = v := by
  cases v <;> rfl

theorem minor_injective {v w : Version} (h : v.minor = w.minor) : v = w := by
  cases v <;> cases w <;> first | rfl | cases h

instance : Ord Version := ⟨compareOn minor⟩

def newer (v w : Version) : Version := if v.minor ≤ w.minor then w else v

theorem minor_newer (v w : Version) : (v.newer w).minor = max v.minor w.minor := by
  unfold newer
  split <;> omega

def newest (vs : List Version) : Version := vs.foldl newer oldest

end Version

end MaterialModules
