set_option autoImplicit false

namespace MaterialModules

inductive Severity where
  | error | warning | info | hint
  deriving DecidableEq, Repr

def Severity.name : Severity → String
  | .error => "error"
  | .warning => "warning"
  | .info => "info"
  | .hint => "hint"

inductive Reporter where
  | compiler | integration
  deriving DecidableEq, Repr

def Reporter.name : Reporter → String
  | .compiler => "compiler"
  | .integration => "integration"

structure Message where
  severity : Severity
  reporter : Reporter
  text : String
  deriving DecidableEq, Repr

namespace Message

def isError (m : Message) : Bool := m.severity = .error

def line (m : Message) : String := m.severity.name ++ ": " ++ m.text

def failure (text : String) : Message := ⟨.error, .integration, text⟩

def errorCount (ms : List Message) : Nat := (ms.filter isError).length

end Message

end MaterialModules
