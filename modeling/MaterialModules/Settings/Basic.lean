set_option autoImplicit false

namespace MaterialModules

structure GenerationOptions where
  /-- Functions may call functions of their module that are not exported. -/
  allowLocalCalls : Bool := true
  /-- Functions and materials that are not exported are generated as well. -/
  includeLocalEntities : Bool := true
  deriving DecidableEq, Repr, Inhabited

structure Settings where
  generation : GenerationOptions := {}
  /-- The registration of a module is logged. -/
  logModuleLoads : Bool := true
  /-- The one name besides valid module names under which source text may be loaded. -/
  streamModuleName : String := "::<memory>"
  deriving DecidableEq, Repr, Inhabited

end MaterialModules
