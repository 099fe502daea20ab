import MaterialModules.Name.Qualified
import MaterialModules.Report.Failure

/-!
Results together with the names that come up on the way. A module that is put together has to import
what its declarations mention.
-/

set_option autoImplicit false

namespace MaterialModules

/-- A result together with the names that were mentioned on the way to it. A failure keeps the names
that were mentioned before it. -/
structure Mentioning (α : Type) where
  result : Except ModuleError α
  names : List QualifiedName
  deriving Repr

namespace Mentioning

variable {α β : Type}

def pure (a : α) : Mentioning α := ⟨.ok a, []⟩

def fail (e : ModuleError) : Mentioning α := ⟨.error e, []⟩

def ofExcept (x : Except ModuleError α) : Mentioning α := ⟨x, []⟩

def mention (qs : List QualifiedName) : Mentioning Unit := ⟨.ok (), qs⟩

def bind (x : Mentioning α) (f : α → Mentioning β) : Mentioning β :=
  match x.result with
  | .ok a => ⟨(f a).result, x.names ++ (f a).names⟩
  | .error e => ⟨.error e, x.names⟩

instance : Monad Mentioning where
  pure := pure
  bind := bind

/-- Holds the names back and gives them out beside the result; a failure mentions nothing. -/
def held (x : Mentioning α) : Mentioning (α × List QualifiedName) :=
  match x.result with
  | .ok a => pure (a, x.names)
  | .error e => fail e

@[simp] theorem result_pure (a : α) : (Pure.pure a : Mentioning α).result = .ok a := rfl

@[simp] theorem names_pure (a : α) : (Pure.pure a : Mentioning α).names = [] := rfl

@[simp] theorem result_bind (x : Mentioning α) (f : α → Mentioning β) :
    (x >>= f).result = x.result.bind fun a => (f a).result := by
  show (bind x f).result = _
  unfold bind
  cases x.result <;> rfl

end Mentioning

end MaterialModules
