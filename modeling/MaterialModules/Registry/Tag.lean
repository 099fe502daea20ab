set_option autoImplicit false

namespace MaterialModules

structure Tag where
  id : Nat
  deriving DecidableEq, Repr, Inhabited

end MaterialModules
