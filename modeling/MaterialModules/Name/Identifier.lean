import MaterialModules.Text.Pieces

set_option autoImplicit false

namespace MaterialModules.Name

def isLetter (c : Char) : Bool := c.isAlpha || c = '_'

def isIdentifier (s : String) : Bool :=
  match s.toList with
  | [] => false
  | c :: r => isLetter c && r.all fun d => isLetter d || d.isDigit

/-- Components between `::`, each of them valid; one `::` may stand in front. -/
def isModuleName (valid : String → Bool) (s : String) : Bool :=
  let body :=
    match s.toList with
    | ':' :: ':' :: r => r
    | cs => cs
  (Text.scopePieces body).all fun c => valid (String.ofList c)

end MaterialModules.Name
