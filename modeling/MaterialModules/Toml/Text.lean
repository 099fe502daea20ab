set_option autoImplicit false

namespace MaterialModules.Toml.Text

def isPlain (c : Char) : Bool := c = '\t' || (0x20 ≤ c.toNat && c.toNat ≠ 0x7f)

def charOf (digits : List Char) : Option Char :=
  let digit (c : Char) : Option Nat :=
    if c.isDigit then some (c.toNat - '0'.toNat)
    else if 'a' ≤ c ∧ c ≤ 'f' then some (c.toNat - 'a'.toNat + 10)
    else if 'A' ≤ c ∧ c ≤ 'F' then some (c.toNat - 'A'.toNat + 10)
    else none
  let n := digits.foldl (fun n c => n.bind fun n => (digit c).map fun d => n * 16 + d) (some 0)
  n.bind fun n => if n.isValidChar then some (Char.ofNat n) else none

def unescape : List Char → Option (Char × Nat)
  | 'b' :: _ => some ('\x08', 1)
  | 't' :: _ => some ('\t', 1)
  | 'n' :: _ => some ('\n', 1)
  | 'f' :: _ => some ('\x0c', 1)
  | 'r' :: _ => some ('\r', 1)
  | '"' :: _ => some ('"', 1)
  | '\\' :: _ => some ('\\', 1)
  | 'u' :: r => if r.length < 4 then none else (charOf (r.take 4)).map fun c => (c, 5)
  | 'U' :: r => if r.length < 8 then none else (charOf (r.take 8)).map fun c => (c, 9)
  | _ => none

def readBasic : Nat → List Char → Option (List Char × List Char)
  | _, [] => none
  | skip + 1, _ :: r => readBasic skip r
  | 0, '"' :: r => some ([], r)
  | 0, '\\' :: r =>
    match unescape r with
    | none => none
    | some (c, n) => (readBasic n r).map fun (s, rest) => (c :: s, rest)
  | 0, c :: r => if isPlain c then (readBasic 0 r).map fun (s, rest) => (c :: s, rest) else none

def readLiteral : List Char → Option (List Char × List Char)
  | [] => none
  | '\'' :: r => some ([], r)
  | c :: r => if isPlain c then (readLiteral r).map fun (s, rest) => (c :: s, rest) else none

/-- Three quotes close a string of several lines; one or two more before them belong to the string. -/
def closing (q : Char) : List Char → Option (List Char × List Char)
  | a :: b :: c :: r =>
    if a = q ∧ b = q ∧ c = q then
      match r with
      | d :: e :: rest =>
        if d = q ∧ e = q then some ([q, q], rest)
        else if d = q then some ([q], e :: rest)
        else some ([], r)
      | [d] => if d = q then some ([q], []) else some ([], r)
      | [] => some ([], [])
    else none
  | _ => none

def endsLine : List Char → Bool
  | [] => false
  | '\n' :: _ | '\r' :: '\n' :: _ => true
  | c :: r => (c = ' ' || c = '\t') && endsLine r

def isBlank (c : Char) : Bool := c = ' ' || c = '\t' || c = '\n'

/-- Reads up to three closing quotes. After a backslash at the end of a line, `joining` leaves out all
blanks and line ends. -/
def readLines (joining : Bool) : Nat → List Char → Option (List Char × List Char)
  | _, [] => none
  | skip + 1, _ :: r => readLines joining skip r
  | 0, '\r' :: '\n' :: r =>
    (readLines joining 0 r).map fun (s, rest) => (if joining then s else '\n' :: s, rest)
  | 0, c :: r =>
    if joining && isBlank c then readLines true 0 r
    else
      match closing '"' (c :: r) with
      | some ended => some ended
      | none =>
        if c = '\\' then
          if endsLine r then readLines true 0 r
          else
            match unescape r with
            | none => none
            | some (d, n) => (readLines false n r).map fun (s, rest) => (d :: s, rest)
        else if isPlain c || c = '\n' then
          (readLines false 0 r).map fun (s, rest) => (c :: s, rest)
        else none

def readLiteralLines : List Char → Option (List Char × List Char)
  | [] => none
  | '\r' :: '\n' :: r => (readLiteralLines r).map fun (s, rest) => ('\n' :: s, rest)
  | c :: r =>
    match closing '\'' (c :: r) with
    | some ended => some ended
    | none =>
      if isPlain c || c = '\n' then (readLiteralLines r).map fun (s, rest) => (c :: s, rest) else none

def dropLineEnd : List Char → List Char
  | '\n' :: r | '\r' :: '\n' :: r => r
  | cs => cs

def readLine : List Char → Option (String × List Char)
  | '"' :: r => (readBasic 0 r).map fun (s, rest) => (String.ofList s, rest)
  | '\'' :: r => (readLiteral r).map fun (s, rest) => (String.ofList s, rest)
  | _ => none

def read : List Char → Option (String × List Char)
  | '"' :: '"' :: '"' :: r =>
    (readLines false 0 (dropLineEnd r)).map fun (s, rest) => (String.ofList s, rest)
  | '\'' :: '\'' :: '\'' :: r =>
    (readLiteralLines (dropLineEnd r)).map fun (s, rest) => (String.ofList s, rest)
  | cs => readLine cs

def longestRun (q : Char) : Nat → List Char → Nat
  | n, [] => n
  | n, c :: r => if c = q then longestRun q (n + 1) r else max n (longestRun q 0 r)

def hex4 (n : Nat) : List Char :=
  let ds := (Nat.toDigits 16 n).map Char.toUpper
  List.replicate (4 - ds.length) '0' ++ ds

/-- Writes between basic quotes. `run` counts the quotes just written; a string of several lines keeps
its line feeds and may hold two quotes in a row. -/
def escape (several : Bool) : Nat → List Char → List Char
  | _, [] => []
  | run, c :: r =>
    if c = '"' then
      if several && run < 2 then c :: escape several (run + 1) r
      else '\\' :: '"' :: escape several 0 r
    else if c = '\n' && several then c :: escape several 0 r
    else
      let written :=
        if c = '\x08' then ['\\', 'b']
        else if c = '\t' then ['\\', 't']
        else if c = '\n' then ['\\', 'n']
        else if c = '\x0c' then ['\\', 'f']
        else if c = '\r' then ['\\', 'r']
        else if c = '\\' then ['\\', '\\']
        else if isPlain c then [c]
        else '\\' :: 'u' :: hex4 c.toNat
      written ++ escape several 0 r

/-- Writes a string in the first form that shows it without escapes: in quotes, in apostrophes, on
several lines in either; and with escapes if there is none. -/
def write (s : String) : List Char :=
  let cs := s.toList
  let control := cs.any fun c => !isPlain c && c ≠ '\n'
  let backslash := cs.contains '\\'
  let lines := cs.contains '\n'
  let quotes := longestRun '"' 0 cs
  let apostrophes := longestRun '\'' 0 cs
  let three (q : Char) : List Char := [q, q, q]
  let start := if lines then ['\n'] else []
  if !control && !backslash && quotes = 0 && !lines then '"' :: escape false 0 cs ++ ['"']
  else if !control && apostrophes = 0 && !lines then '\'' :: cs ++ ['\'']
  else if !control && !backslash && quotes ≤ 2 then
    three '"' ++ start ++ escape true 0 cs ++ three '"'
  else if !control && apostrophes ≤ 2 then three '\'' ++ start ++ cs ++ three '\''
  else if lines then three '"' ++ start ++ escape true 0 cs ++ three '"'
  else '"' :: escape false 0 cs ++ ['"']

end MaterialModules.Toml.Text
