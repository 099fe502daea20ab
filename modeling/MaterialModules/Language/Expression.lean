import MaterialModules.Language.Value

/-!
Expressions of the registry: constants, calls and the parameters and temporaries of a definition. Each
occurrence of an expression carries a label, so that two occurrences that read alike can be told apart.
Two expressions are the same occurrence exactly when they are equal, labels included.
-/

set_option autoImplicit false

namespace MaterialModules

inductive Expression where
  | constant (label : Nat) (type : Ty) (value : Value)
  /-- A call that is stored in the registry under its own tag. -/
  | call (label : Nat) (type : Ty) (target : Tag)
  /-- A call of a definition with its arguments in place. -/
  | direct (label : Nat) (type : Ty) (definition : Tag) (arguments : List (String × Expression))
  | parameter (label : Nat) (type : Ty) (index : Nat)
  | temporary (label : Nat) (type : Ty) (index : Nat)
  deriving Repr

inductive ExpressionForm where
  | constant | call | direct | parameter | temporary
  deriving DecidableEq, Repr

def ExpressionForm.name : ExpressionForm → String
  | .constant => "Constant"
  | .call => "Call"
  | .direct => "DirectCall"
  | .parameter => "Parameter"
  | .temporary => "Temporary"

namespace Expression

def type : Expression → Ty
  | constant _ t _ | call _ t _ | direct _ t _ _ | parameter _ t _ | temporary _ t _ => t

def form : Expression → ExpressionForm
  | constant _ _ _ => .constant
  | call _ _ _ => .call
  | direct _ _ _ _ => .direct
  | parameter _ _ _ => .parameter
  | temporary _ _ _ => .temporary

mutual

def agrees : Expression → Expression → Bool
  | constant _ s a, constant _ t b => s == t && a.agrees b
  | call _ s a, call _ t b => s == t && a == b
  | direct _ s d a, direct _ t e b => s == t && d == e && agreesAll a b
  | parameter _ s m, parameter _ t n => s == t && m == n
  | temporary _ s m, temporary _ t n => s == t && m == n
  | _, _ => false

def agreesAll : List (String × Expression) → List (String × Expression) → Bool
  | [], [] => true
  | (m, a) :: as, (n, b) :: bs => m == n && a.agrees b && agreesAll as bs
  | _, _ => false

end

mutual

def same : Expression → Expression → Bool
  | constant k s a, constant l t b => decide (k = l) && decide (s = t ∧ a = b)
  | call k s a, call l t b => decide (k = l) && decide (s = t ∧ a = b)
  | direct k s d a, direct l t e b => decide (k = l) && (decide (s = t ∧ d = e) && sameAll a b)
  | parameter k s m, parameter l t n => decide (k = l) && decide (s = t ∧ m = n)
  | temporary k s m, temporary l t n => decide (k = l) && decide (s = t ∧ m = n)
  | _, _ => false

def sameAll : List (String × Expression) → List (String × Expression) → Bool
  | [], [] => true
  | (m, a) :: as, (n, b) :: bs => decide (m = n) && (a.same b && sameAll as bs)
  | _, _ => false

end

mutual

theorem same_self : (a : Expression) → a.same a = true
  | constant _ _ _ | call _ _ _ | parameter _ _ _ | temporary _ _ _ => by simp [same]
  | direct _ _ _ a => by simp [same, sameAll_self a]

theorem sameAll_self : (as : List (String × Expression)) → sameAll as as = true
  | [] => by simp [sameAll]
  | (_, a) :: as => by simp [sameAll, same_self a, sameAll_self as]

end

mutual

theorem eq_of_same : (a b : Expression) → a.same b = true → a = b
  | constant _ _ _, b, h | call _ _ _, b, h | parameter _ _ _, b, h | temporary _ _ _, b, h => by
    cases b <;> simp_all [same]
  | direct _ _ _ a, b, h => by
    cases b <;> simp [same] at h ⊢
    exact ⟨h.1, h.2.1.1, h.2.1.2, eq_of_sameAll a _ h.2.2⟩

theorem eq_of_sameAll : (as bs : List (String × Expression)) → sameAll as bs = true → as = bs
  | [], bs, h => by cases bs <;> simp_all [sameAll]
  | (_, a) :: as, [], h => by simp [sameAll] at h
  | (m, a) :: as, (n, b) :: bs, h => by
    simp [sameAll] at h
    rw [h.1, eq_of_same a b h.2.1, eq_of_sameAll as bs h.2.2]

end

/-- One and the same occurrence is usually one place in memory, which is looked at first. -/
instance : DecidableEq Expression := fun a b =>
  withPtrEqDecEq a b fun _ =>
    if h : a.same b = true then isTrue (eq_of_same a b h)
    else isFalse fun e => h (e ▸ same_self a)

end Expression

abbrev Arguments := List (String × Expression)

namespace Arguments

/-- Binds `name`, in its old place when it is bound already and at the end otherwise. -/
def bind (name : String) (e : Expression) : Arguments → Arguments
  | [] => [(name, e)]
  | (n, x) :: r => if n = name then (n, e) :: r else (n, x) :: bind name e r

def ofList (xs : List (String × Expression)) : Arguments :=
  xs.foldl (fun as (n, e) => bind n e as) []

def get? (name : String) : Arguments → Option Expression
  | [] => none
  | (n, x) :: r => if n = name then some x else get? name r

def index? (name : String) (as : Arguments) : Option Nat :=
  as.findIdx? (·.1 = name)

@[simp] theorem get?_bind_self (name : String) (e : Expression) (as : Arguments) :
    get? name (bind name e as) = some e := by
  induction as with
  | nil => simp [bind, get?]
  | cons a r ih => by_cases h : a.1 = name <;> simp [bind, get?, h, ih]

theorem get?_bind_of_ne {name other : String} (h : other ≠ name) (e : Expression) (as : Arguments) :
    get? other (bind name e as) = get? other as := by
  induction as with
  | nil => simp [bind, get?, h.symm]
  | cons a r ih =>
    by_cases hn : a.1 = name
    · simp [bind, get?, hn, h.symm]
    · by_cases ho : a.1 = other <;> simp [bind, get?, hn, ho, h, ih]

end Arguments

structure Annotation where
  name : String
  arguments : Arguments
  deriving DecidableEq, Repr

abbrev AnnotationBlock := List Annotation

end MaterialModules
