import MaterialModules.Text.Pieces

set_option autoImplicit false

namespace MaterialModules

/-- A name made of components. An absolute one starts at the root of all modules. -/
structure QualifiedName where
  absolute : Bool
  components : List String
  deriving DecidableEq, Repr, Inhabited

namespace QualifiedName

def simple (name : String) : QualifiedName := ⟨false, [name]⟩

/-- Reads `::a::b` or `a::b`. Empty components are dropped. -/
def ofText (s : String) : QualifiedName :=
  let (absolute, body) :=
    match s.toList with
    | ':' :: ':' :: r => (true, r)
    | cs => (false, cs)
  ⟨absolute, ((Text.scopePieces body).filter (· ≠ [])).map String.ofList⟩

def joined : List String → List Char
  | [] => []
  | [c] => c.toList
  | c :: cs => c.toList ++ ':' :: ':' :: joined cs

def chars (q : QualifiedName) : List Char :=
  (if q.absolute then [':', ':'] else []) ++ joined q.components

def text (q : QualifiedName) : String := String.ofList q.chars

def last? (q : QualifiedName) : Option String := q.components.getLast?

def modulePart? (q : QualifiedName) : Option String :=
  if q.absolute ∧ 2 ≤ q.components.length then
    some (text ⟨true, q.components.dropLast⟩)
  else none

def withLast (q : QualifiedName) (c : String) : QualifiedName :=
  { q with components := q.components.dropLast ++ [c] }

/-- Relative names come before absolute ones; then the components decide, from the left. -/
instance : Ord QualifiedName :=
  ⟨compareLex (compareOn absolute) (compareOn components)⟩

end QualifiedName

/-- A set of names, kept in increasing order and without repetition. -/
structure NameSet where
  toList : List QualifiedName
  deriving DecidableEq, Repr

namespace NameSet

def empty : NameSet := ⟨[]⟩

def insertInto (q : QualifiedName) : List QualifiedName → List QualifiedName
  | [] => [q]
  | x :: xs =>
    match compare q x with
    | .lt => q :: x :: xs
    | .eq => x :: xs
    | .gt => x :: insertInto q xs

def insert (s : NameSet) (q : QualifiedName) : NameSet := ⟨insertInto q s.toList⟩

def insertAll (s : NameSet) (qs : List QualifiedName) : NameSet := qs.foldl insert s

def size (s : NameSet) : Nat := s.toList.length

end NameSet

end MaterialModules
