import MaterialModules.Language.Version
import MaterialModules.Name.Qualified

/-!
The source form of modules that are put together in memory. Nothing here is read from text; a finished
module goes to the compiler for analysis.
-/

set_option autoImplicit false

namespace MaterialModules.Source

inductive Qualifier where
  | none | uniform | varying
  deriving DecidableEq, Repr, Inhabited

inductive ArraySize where
  | fixed (n : Nat)
  /-- Left open, as in the constructor `float[]`. -/
  | deferred
  deriving DecidableEq, Repr

structure TypeName where
  qualifier : Qualifier := .none
  name : QualifiedName
  array : Option ArraySize := none
  deriving DecidableEq, Repr

namespace TypeName

def builtin (name : String) : TypeName := { name := .simple name }

def material : TypeName := builtin "material"

def qualified (t : TypeName) (q : Qualifier) : TypeName := { t with qualifier := q }

def arrayed (t : TypeName) (size : ArraySize) : TypeName := { t with array := some size }

end TypeName

inductive Literal where
  | bool (b : Bool)
  | int (n : Int32)
  | float (x : Float32)
  | double (x : Float)
  | string (s : String)
  deriving DecidableEq, Repr

inductive UnaryOp where
  | neg | not | bitNot
  deriving DecidableEq, Repr

inductive BinaryOp where
  | mul | div | rem | add | sub | shl | shr
  | lt | le | gt | ge | eq | ne
  | bitAnd | bitXor | bitOr | and | or
  deriving DecidableEq, Repr

structure Argument (ε : Type) where
  name : Option String
  value : ε
  deriving Repr

structure Binding (ε : Type) where
  type : TypeName
  name : String
  init : ε
  deriving Repr

inductive Expr where
  | literal (l : Literal)
  /-- A named entity: a parameter, a local constant, an enumeration value or the callee of a call. A
  constructor refers to its type. -/
  | reference (t : TypeName)
  | call (callee : Expr) (args : List (Argument Expr))
  | unary (op : UnaryOp) (operand : Expr)
  | binary (op : BinaryOp) (left right : Expr)
  | conditional (cond yes no : Expr)
  | field (base : Expr) (member : String)
  | index (base position : Expr)
  | letIn (bindings : List (Binding Expr)) (body : Expr)
  deriving Repr

namespace Expr

def entity (q : QualifiedName) : Expr := .reference { name := q }

def ofName (name : String) : Expr := entity (.simple name)

def text (s : String) : Expr := .literal (.string s)

def construct (t : TypeName) (items : List Expr) : Expr :=
  .call (.reference t) (items.map fun e => ⟨none, e⟩)

def named (callee : QualifiedName) (args : List (String × Expr)) : Expr :=
  .call (entity callee) (args.map fun (n, e) => ⟨some n, e⟩)

end Expr

structure Annotation where
  name : QualifiedName
  args : List (Argument Expr)
  deriving Repr

abbrev AnnotationBlock := List Annotation

structure ParameterDecl where
  type : TypeName
  name : String
  default? : Option Expr := none
  annotations : Option AnnotationBlock := none
  deriving Repr

structure FunctionDecl where
  returnType : TypeName
  name : String
  parameters : List ParameterDecl
  /-- A clone takes over the signature of the definition that its body calls. -/
  isClone : Bool := false
  body : Expr
  annotations : Option AnnotationBlock := none
  exported : Bool := true
  deriving Repr

inductive Declaration where
  | importing (name : QualifiedName)
  | function (f : FunctionDecl)
  deriving Repr

structure Module where
  name : String
  version : Version
  declarations : List Declaration := []
  deriving Repr

namespace Module

def imports (m : Module) : List QualifiedName :=
  m.declarations.filterMap fun
    | .importing n => some n
    | .function _ => none

def functions (m : Module) : List FunctionDecl :=
  m.declarations.filterMap fun
    | .importing _ => none
    | .function f => some f

def append (m : Module) (f : FunctionDecl) : Module :=
  { m with declarations := m.declarations ++ [.function f] }

end Module

end MaterialModules.Source
