import MaterialModules.Settings.Basic
import MaterialModules.Toml.Document

set_option autoImplicit false

namespace MaterialModules

def readFlag (default : Bool) : Option Toml.Value → Option Bool
  | none => some default
  | some (.boolean b) => some b
  | _ => none

namespace GenerationOptions

/-- Reads the options by name, or in order from an array. A time counts as a table of none of them. -/
def ofValue? : Toml.Value → Option GenerationOptions
  | .table es => do
    let calls ← readFlag true (es.lookup "allow_local_calls")
    let entities ← readFlag true (es.lookup "include_local_entities")
    some ⟨calls, entities⟩
  | .array vs => do
    let calls ← readFlag true vs[0]?
    let entities ← readFlag true vs[1]?
    some ⟨calls, entities⟩
  | .time _ => some {}
  | _ => none

end GenerationOptions

namespace Settings

def ofEntries? (es : List (String × Toml.Value)) : Option Settings := do
  let generation ←
    match es.lookup "dag" with
    | none => some {}
    | some v => GenerationOptions.ofValue? v
  let logModuleLoads ← readFlag true (es.lookup "log_module_loads")
  let streamModuleName ←
    match es.lookup "stream_module_name" with
    | none => some ({} : Settings).streamModuleName
    | some (.string s) => some s
    | _ => none
  some { generation, logModuleLoads, streamModuleName }

def ofText? (s : String) : Option Settings := (Toml.read s).bind ofEntries?

def flagText (b : Bool) : String := if b then "true" else "false"

def text (s : Settings) : String :=
  "log_module_loads = " ++ flagText s.logModuleLoads ++
  "\nstream_module_name = " ++ String.ofList (Toml.Text.write s.streamModuleName) ++
  "\n\n[dag]\nallow_local_calls = " ++ flagText s.generation.allowLocalCalls ++
  "\ninclude_local_entities = " ++ flagText s.generation.includeLocalEntities ++ "\n"

end Settings

end MaterialModules
