set_option autoImplicit false

namespace MaterialModules.Text

def consFirst (c : Char) : List (List Char) → List (List Char)
  | [] => [[c]]
  | p :: ps => (c :: p) :: ps

/-- The pieces between the occurrences of `sep`; there is one more piece than there are occurrences. -/
def pieces (sep : Char) : List Char → List (List Char)
  | [] => [[]]
  | c :: r => if c = sep then [] :: pieces sep r else consFirst c (pieces sep r)

theorem pieces_ne_nil (sep : Char) (s : List Char) : pieces sep s ≠ [] := by
  cases s with
  | nil => simp [pieces]
  | cons c r =>
    unfold pieces
    split
    · simp
    · cases pieces sep r <;> simp [consFirst]

theorem consFirst_append (c : Char) {ps : List (List Char)} (h : ps ≠ []) (qs : List (List Char)) :
    consFirst c (ps ++ qs) = consFirst c ps ++ qs := by
  cases ps with
  | nil => exact absurd rfl h
  | cons p ps => rfl

theorem pieces_append (sep : Char) (s t : List Char) :
    pieces sep (s ++ sep :: t) = pieces sep s ++ pieces sep t := by
  induction s with
  | nil => simp [pieces]
  | cons c r ih =>
    by_cases h : c = sep
    · simp [pieces, h, ih]
    · simp [pieces, h, ih, consFirst_append c (pieces_ne_nil sep r)]

/-- The pieces between the occurrences of `::`, found from the left and without overlap. -/
def scopePieces : List Char → List (List Char)
  | [] => [[]]
  | ':' :: ':' :: r => [] :: scopePieces r
  | c :: r => consFirst c (scopePieces r)

def cutLast (sep : Char) : List Char → Option (List Char × List Char)
  | [] => none
  | c :: r =>
    match cutLast sep r with
    | some (before, after) => some (c :: before, after)
    | none => if c = sep then some ([], r) else none

/-- What stands before and after the last `::`. Of three colons the last two count. -/
def cutLastScope : List Char → Option (List Char × List Char)
  | [] => none
  | c :: r =>
    match cutLastScope r with
    | some (before, after) => some (c :: before, after)
    | none =>
      match c, r with
      | ':', ':' :: after => some ([], after)
      | _, _ => none

def beforeFirst (mark : List Char) : List Char → Option (List Char)
  | [] => if mark = [] then some [] else none
  | c :: r => if mark.isPrefixOf (c :: r) then some [] else (beforeFirst mark r).map (c :: ·)

def dropTrailing (c : Char) (s : List Char) : List Char :=
  (s.reverse.dropWhile (· = c)).reverse

end MaterialModules.Text
