import MaterialModules.Registry.Basic
import MaterialModules.Source.Tree
import MaterialModules.Synthesis.Mentioning

/-!
Registry expressions and values as source. What is mentioned on the way are the user types, which the
source has to import even where only a value of the type occurs in it.
-/

set_option autoImplicit false

namespace MaterialModules

open Source (TypeName ArraySize)

/-- The source name of a kind. Of nested arrays only the outer size is written. -/
def Kind.sourceName : Kind → TypeName
  | .array elem _ size =>
    elem.sourceName.arrayed (match size with
      | some n => .fixed n
      | none => .deferred)
  | .enumeration user | .struct user => { name := .ofText user }
  | kind => .builtin kind.spelling

def Kind.userTypes : Kind → List QualifiedName
  | .array elem _ _ => elem.userTypes
  | .enumeration user | .struct user => [.ofText user]
  | _ => []

namespace Ty

def sourceName (t : Ty) : TypeName :=
  if t.isUniform then t.kind.sourceName.qualified .uniform
  else if t.isVarying then t.kind.sourceName.qualified .varying
  else t.kind.sourceName

def written (t : Ty) : Mentioning TypeName := ⟨.ok t.sourceName, t.kind.userTypes⟩

end Ty

def temporaryName (i : Nat) : String := "__tmp" ++ toString i

namespace Definition

/-- The member that a field access or selection takes: what follows the last dot of the name. -/
def memberName (d : Definition) : String :=
  match Text.cutLast '.' d.plainName.toList with
  | some (_, after) => String.ofList after
  | none => d.simpleName

end Definition

def gammaMode (gamma : Float32) : QualifiedName :=
  if gamma == 1.0 then ⟨true, ["tex", "gamma_linear"]⟩
  else if gamma == 2.2 then ⟨true, ["tex", "gamma_srgb"]⟩
  else ⟨true, ["tex", "gamma_default"]⟩

namespace Registry

def resourcePath (r : Registry) : Option Tag → Except ModuleError (Option String)
  | none => .ok none
  | some t =>
    match r.resource? t with
    | some x => .ok (some x.filePath)
    | none => .error (.conversion (.missingResource t))

def resourceItems (r : Registry) (t : Option Tag) : Mentioning (List Source.Expr) := do
  let path ← Mentioning.ofExcept (r.resourcePath t)
  pure (path.toList.map Source.Expr.text)

mutual

def valueSource (r : Registry) : Value → Mentioning Source.Expr
  | .bool b => pure (.literal (.bool b))
  | .int n => pure (.literal (.int n))
  | .float x => pure (.literal (.float x))
  | .double x => pure (.literal (.double x))
  | .string s => pure (.literal (.string s))
  | .color red green blue =>
    pure (.construct (.builtin "color") ([red, green, blue].map fun x => .literal (.float x)))
  | .vector items => do
    let type ← (Value.vector items).type.written
    let es ← valueSources r items
    pure (.construct type es)
  | .enumeration typeName name _ => do
    Mentioning.mention [.ofText typeName]
    pure (.entity ((QualifiedName.ofText typeName).withLast name))
  | .struct typeName fields => do
    Mentioning.mention [.ofText typeName]
    let es ← fieldSources r fields
    pure (.named (.ofText typeName) es)
  | .array elem items => do
    let type ← elem.unqualified.written
    let es ← valueSources r items
    pure (.construct (type.arrayed .deferred) es)
  | .texture shape resource gamma => do
    let path ← Mentioning.ofExcept (r.resourcePath resource)
    pure (.construct (.builtin shape.typeName)
      (match path with
        | some p => [.text p, .entity (gammaMode gamma)]
        | none => []))
  | .lightProfile resource => do
    let items ← r.resourceItems resource
    pure (.construct (.builtin "light_profile") items)
  | .bsdfMeasurement resource => do
    let items ← r.resourceItems resource
    pure (.construct (.builtin "bsdf_measurement") items)
  | .emptyDistribution kind => pure (.construct (.builtin kind.spelling) [])
termination_by structural v => v

def valueSources (r : Registry) : List Value → Mentioning (List Source.Expr)
  | [] => pure []
  | v :: rest => do
    let e ← valueSource r v
    let es ← valueSources r rest
    pure (e :: es)
termination_by structural vs => vs

def fieldSources (r : Registry) : List (String × Value) → Mentioning (List (String × Source.Expr))
  | [] => pure []
  | (n, v) :: rest => do
    let e ← valueSource r v
    let es ← fieldSources r rest
    pure ((n, e) :: es)
termination_by structural vs => vs

end

end Registry

/-- Expressions that are to be read as references to new parameters, the earlier ones first. -/
abbrev Promotions := List (Expression × String)

def Promotions.name? (ps : Promotions) (e : Expression) : Option String :=
  (ps.find? fun p => p.1 = e).map (·.2)

def Promotions.replacing (ps : Promotions) (e : Expression) (source : Unit → Mentioning Source.Expr) :
    Mentioning Source.Expr :=
  match ps.name? e with
  | some p => pure (.ofName p)
  | none => source ()

def Operator.binary? : Operator → Option Source.BinaryOp
  | .multiply => some .mul
  | .divide => some .div
  | .modulo => some .rem
  | .plus => some .add
  | .minus => some .sub
  | .shiftLeft => some .shl
  | .shiftRight => some .shr
  | .less => some .lt
  | .lessOrEqual => some .le
  | .greater => some .gt
  | .greaterOrEqual => some .ge
  | .equal => some .eq
  | .notEqual => some .ne
  | .bitwiseAnd => some .bitAnd
  | .bitwiseXor => some .bitXor
  | .bitwiseOr => some .bitOr
  | .logicalAnd => some .and
  | .logicalOr => some .or
  | .positive | .negative | .logicalNot | .bitwiseComplement | .ternary | .select => none

namespace Definition

/-- The source of a call, given how to get the sources of its arguments by place, and of all of them.
Operators are written with their operands, which they take by place. -/
def callSource (d : Definition) (operand : Nat → Mentioning Source.Expr)
    (all : Unit → Mentioning (List (String × Source.Expr))) : Mentioning Source.Expr := do
  match d.returnType.kind with
  | .enumeration user | .struct user => Mentioning.mention [.ofText user]
  | _ => pure ()
  match d.semantic with
  | .operator op =>
    match op.binary? with
    | some binary => do
      let a ← operand 0
      let b ← operand 1
      pure (.binary binary a b)
    | none =>
      match op with
      | .negative => do
        let a ← operand 0
        pure (.unary .neg a)
      | .logicalNot => do
        let a ← operand 0
        pure (.unary .not a)
      | .bitwiseComplement => do
        let a ← operand 0
        pure (.unary .bitNot a)
      | .ternary => do
        let a ← operand 0
        let b ← operand 1
        let c ← operand 2
        pure (.conditional a b c)
      | .select => do
        let a ← operand 0
        pure (.field a d.memberName)
      | _ => operand 0
  | .fieldAccess => do
    let a ← operand 0
    pure (.field a d.memberName)
  | .indexAccess => do
    let a ← operand 0
    let b ← operand 1
    pure (.index a b)
  | .arrayConstructor =>
    match d.returnType.kind with
    | .array elem _ _ => do
      let type ← (Ty.mk elem {}).written
      let es ← all ()
      pure (.construct (type.arrayed .deferred) (es.map (·.2)))
    | _ => .fail (.conversion (.notAnArray d.name))
  | _ => do
    let es ← all ()
    pure (.named (.ofText d.plainName) es)

end Definition

namespace Registry

mutual

/-- The source of an expression, given that of stored calls. A promoted expression is replaced by a
reference before anything else is asked of it. -/
def sourceAmong (r : Registry) (ps : Promotions) (stored : Tag → Mentioning Source.Expr) :
    Expression → Mentioning Source.Expr
  | .constant l t v => ps.replacing (.constant l t v) fun _ => r.valueSource v
  | .call l t target => ps.replacing (.call l t target) fun _ => stored target
  | .direct l t target args => ps.replacing (.direct l t target args) fun _ =>
    match r.definition? target with
    | none => .fail (.internal (.missingDefinition target))
    | some d =>
      d.callSource (fun i => operandSource r ps stored i i args)
        fun _ => argumentSources r ps stored args
  | .parameter l t i => ps.replacing (.parameter l t i) fun _ =>
    .fail (.conversion (.outsideDefinition .parameter))
  | .temporary l t i => ps.replacing (.temporary l t i) fun _ =>
    .fail (.conversion (.outsideDefinition .temporary))
termination_by structural e => e

def argumentSources (r : Registry) (ps : Promotions) (stored : Tag → Mentioning Source.Expr) :
    List (String × Expression) → Mentioning (List (String × Source.Expr))
  | [] => pure []
  | (n, e) :: rest => do
    let x ← sourceAmong r ps stored e
    let xs ← argumentSources r ps stored rest
    pure ((n, x) :: xs)
termination_by structural es => es

/-- The source of the argument at a place, which an operator needs whatever the argument's name. -/
def operandSource (r : Registry) (ps : Promotions) (stored : Tag → Mentioning Source.Expr)
    (wanted : Nat) : Nat → List (String × Expression) → Mentioning Source.Expr
  | _, [] => .fail (.conversion (.missingOperand wanted))
  | 0, (_, e) :: _ => sourceAmong r ps stored e
  | i + 1, _ :: rest => operandSource r ps stored wanted i rest
termination_by structural _ es => es

end

/-- The source of a stored call inside the given other ones; a call inside itself has none. No chain of
different calls is longer than the registry, so `depth` does not run out before a call comes up again. -/
def storedSource (r : Registry) (ps : Promotions) : Nat → List Tag → Tag → Mentioning Source.Expr
  | 0, _, t => .fail (.internal (.recursiveCall t))
  | depth + 1, enclosing, t =>
    if t ∈ enclosing then .fail (.internal (.recursiveCall t))
    else
      match r.call? t with
      | none => .fail (.internal (.notACall t))
      | some c =>
        match r.definition? c.definition with
        | none => .fail (.internal (.missingDefinition c.definition))
        | some d =>
          let stored := r.storedSource ps depth (t :: enclosing)
          d.callSource (fun i => r.operandSource ps stored i i c.arguments)
            fun _ => r.argumentSources ps stored c.arguments

def source (r : Registry) (ps : Promotions) (e : Expression) : Mentioning Source.Expr :=
  r.sourceAmong ps (r.storedSource ps (r.size + 1) []) e

end Registry

end MaterialModules
