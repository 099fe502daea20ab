import MaterialModules.Decimal.Layout
import MaterialModules.Source.Tree

/-!
Source as text. Parentheses stand only where an operand would otherwise be read as part of something
else.
-/

set_option autoImplicit false

namespace MaterialModules.Source

/-- Numbers in source are written without an exponent from `0.0001` up to below ten to the sixteenth,
and always with a point or an exponent. -/
def numberLayout : Decimal.Layout := ⟨some (-4, 15), true⟩

def commaSeparated : List (List Char) → List Char
  | [] => []
  | [s] => s
  | s :: rest => s ++ ',' :: ' ' :: commaSeparated rest

def TypeName.chars (t : TypeName) : List Char :=
  let qualifier :=
    match t.qualifier with
    | .none => []
    | .uniform => "uniform ".toList
    | .varying => "varying ".toList
  let array :=
    match t.array with
    | none => []
    | some (.fixed n) => '[' :: Nat.toDigits 10 n ++ [']']
    | some .deferred => ['[', ']']
  qualifier ++ t.name.chars ++ array

def escaped : Char → List Char
  | '"' => ['\\', '"']
  | '\\' => ['\\', '\\']
  | '\n' => ['\\', 'n']
  | '\t' => ['\\', 't']
  | c => [c]

def quoted (s : String) : List Char := '"' :: s.toList.flatMap escaped ++ ['"']

def Literal.chars : Literal → List Char
  | .bool true => "true".toList
  | .bool false => "false".toList
  | .int n => (toString n.toInt).toList
  | .float x => numberLayout.single x
  | .double x => numberLayout.double x ++ ['d']
  | .string s => quoted s

def UnaryOp.char : UnaryOp → Char
  | .neg => '-'
  | .not => '!'
  | .bitNot => '~'

def BinaryOp.text : BinaryOp → String
  | .mul => "*"
  | .div => "/"
  | .rem => "%"
  | .add => "+"
  | .sub => "-"
  | .shl => "<<"
  | .shr => ">>"
  | .lt => "<"
  | .le => "<="
  | .gt => ">"
  | .ge => ">="
  | .eq => "=="
  | .ne => "!="
  | .bitAnd => "&"
  | .bitXor => "^"
  | .bitOr => "|"
  | .and => "&&"
  | .or => "||"

/-- How tightly an expression holds together. An operand that holds less tightly than its place asks
for stands in parentheses. -/
def BinaryOp.strength : BinaryOp → Nat
  | .or => 2
  | .and => 3
  | .bitOr => 4
  | .bitXor => 5
  | .bitAnd => 6
  | .eq | .ne => 7
  | .lt | .le | .gt | .ge => 8
  | .shl | .shr => 9
  | .add | .sub => 10
  | .mul | .div | .rem => 11

namespace Expr

def within (outer strength : Nat) (s : List Char) : List Char :=
  if strength < outer then '(' :: s ++ [')'] else s

mutual

/-- The text of an expression in a place that asks for the given strength: 0 for any expression, 1 for
a conditional, 12 for an operand of a unary operator, 13 for what calls, members and indices are taken
of. Operators of one strength group to the left, so a right operand has to be stronger. -/
def chars (outer : Nat) : Expr → List Char
  | .literal l => l.chars
  | .reference t => t.chars
  | .call callee args => chars 13 callee ++ '(' :: commaSeparated (argumentChars args) ++ [')']
  | .unary op e => within outer 12 (op.char :: chars 12 e)
  | .binary op a b =>
    within outer op.strength
      (chars op.strength a ++ ' ' :: op.text.toList ++ ' ' :: chars (op.strength + 1) b)
  | .conditional c a b =>
    within outer 1 (chars 2 c ++ " ? ".toList ++ chars 1 a ++ " : ".toList ++ chars 1 b)
  | .field e member => chars 13 e ++ '.' :: member.toList
  | .index e i => chars 13 e ++ '[' :: chars 0 i ++ [']']
  | .letIn bs e =>
    within outer 0 ("let \x7b\n".toList ++ bindingChars bs ++ "\x7d in ".toList ++ chars 0 e)
termination_by structural e => e

def argumentChars : List (Argument Expr) → List (List Char)
  | [] => []
  | ⟨none, e⟩ :: rest => chars 0 e :: argumentChars rest
  | ⟨some n, e⟩ :: rest => (n.toList ++ ':' :: ' ' :: chars 0 e) :: argumentChars rest
termination_by structural as => as

def bindingChars : List (Binding Expr) → List Char
  | [] => []
  | ⟨t, n, e⟩ :: rest =>
    "    ".toList ++ t.chars ++ ' ' :: n.toList ++ " = ".toList ++ chars 0 e ++ ";\n".toList
      ++ bindingChars rest
termination_by structural bs => bs

end

def format (e : Expr) : String := String.ofList (e.chars 0)

end Expr

def Annotation.chars (a : Annotation) : List Char :=
  a.name.chars ++ '(' :: commaSeparated (Expr.argumentChars a.args) ++ [')']

def AnnotationBlock.chars (b : AnnotationBlock) : List Char :=
  "[[ ".toList ++ commaSeparated (b.map Annotation.chars) ++ " ]]".toList

def ParameterDecl.chars (p : ParameterDecl) : List Char :=
  p.type.chars ++ ' ' :: p.name.toList
    ++ (match p.default? with
      | none => []
      | some e => " = ".toList ++ e.chars 0)
    ++ (match p.annotations with
      | none => []
      | some b => ' ' :: AnnotationBlock.chars b)

def parameterLines : List ParameterDecl → List Char
  | [] => []
  | [p] => "    ".toList ++ p.chars ++ ['\n']
  | p :: rest => "    ".toList ++ p.chars ++ ',' :: '\n' :: parameterLines rest

def FunctionDecl.chars (f : FunctionDecl) : List Char :=
  (if f.exported then "export ".toList else [])
    ++ f.returnType.chars ++ ' ' :: f.name.toList
    ++ (if f.isClone then "(*)".toList
      else if f.parameters.isEmpty then "()".toList
      else '(' :: '\n' :: parameterLines f.parameters ++ [')'])
    ++ (match f.annotations with
      | none => []
      | some b => '\n' :: AnnotationBlock.chars b)
    ++ "\n= ".toList ++ f.body.chars 0 ++ ";\n".toList

namespace Module

/-- The version, then the imports, then the functions, with a blank line before each of these parts and
between functions. -/
def chars (m : Module) : List Char :=
  "mdl ".toList ++ Nat.toDigits 10 m.version.major ++ '.' :: Nat.toDigits 10 m.version.minor
    ++ ";\n".toList
    ++ (if m.imports.isEmpty then [] else ['\n'])
    ++ m.imports.flatMap (fun n => "import ".toList ++ n.chars ++ ";\n".toList)
    ++ m.functions.flatMap fun f => '\n' :: f.chars

def format (m : Module) : String := String.ofList m.chars

end Module

end MaterialModules.Source
