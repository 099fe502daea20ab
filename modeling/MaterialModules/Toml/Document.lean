import MaterialModules.Toml.Text
import MaterialModules.Toml.Word

/-!
TOML documents. What cannot be read gives no document; nothing is said about where it went wrong.
-/

set_option autoImplicit false

namespace MaterialModules.Toml

def dropBlanks (cs : List Char) : List Char := cs.dropWhile fun c => c = ' ' || c = '\t'

def endLine (cs : List Char) : Option (List Char) :=
  let afterComment :=
    match dropBlanks cs with
    | '#' :: r => r.dropWhile Text.isPlain
    | r => r
  match afterComment with
  | [] => some []
  | '\n' :: r | '\r' :: '\n' :: r => some r
  | _ => none

def dropLines (comment : Bool) : List Char → Option (List Char)
  | [] => some []
  | '\n' :: r | '\r' :: '\n' :: r => dropLines false r
  | c :: r =>
    if comment then if Text.isPlain c then dropLines true r else none
    else if c = ' ' ∨ c = '\t' then dropLines false r
    else if c = '#' then dropLines true r
    else some (c :: r)

def isBare (c : Char) : Bool := c.isAlphanum || c = '_' || c = '-'

def readKeyPart (cs : List Char) : Option (String × List Char) :=
  match cs with
  | '"' :: _ | '\'' :: _ => Text.readLine cs
  | _ =>
    match cs.takeWhile isBare with
    | [] => none
    | name => some (String.ofList name, cs.dropWhile isBare)

/-- The most parts that a key may have, and the most arrays and inline tables that may stand inside each
other. -/
def nesting : Nat := 79

def readParts : Nat → List Char → Option (List String × String × List Char)
  | 0, _ => none
  | most + 1, cs => do
    let (part, rest) ← readKeyPart (dropBlanks cs)
    match dropBlanks rest with
    | '.' :: r => do
      let (parts, last, rest) ← readParts most r
      some (part :: parts, last, rest)
    | rest => some ([], part, rest)

def readKey : List Char → Option (List String × String × List Char) := readParts nesting

mutual

/-- Reads a value in which at most `room` arrays and inline tables stand inside each other. Each value
inside another one is shorter than the text, whose length is the fuel. -/
def readValue : Nat → Nat → List Char → Option (Value × List Char)
  | 0, _, _ => none
  | fuel + 1, room, cs =>
    match cs, room with
    | '"' :: _, _ | '\'' :: _, _ => (Text.read cs).map fun (s, rest) => (.string s, rest)
    | '[' :: r, room + 1 => (readItems fuel room r).map fun (vs, rest) => (.array vs, rest)
    | '{' :: r, room + 1 =>
      match dropBlanks r with
      | '}' :: rest => some (.table [], rest)
      | r => (readPairs fuel room [] r).map fun (es, rest) => (.table (entryValues es), rest)
    | _, _ => Word.read cs

def readItems : Nat → Nat → List Char → Option (List Value × List Char)
  | 0, _, _ => none
  | fuel + 1, room, cs => do
    let cs ← dropLines false cs
    match cs with
    | ']' :: rest => some ([], rest)
    | _ => do
      let (v, rest) ← readValue fuel room cs
      match ← dropLines false rest with
      | ',' :: rest => do
        let (vs, rest) ← readItems fuel room rest
        some (v :: vs, rest)
      | ']' :: rest => some ([v], rest)
      | _ => none

def readPairs : Nat → Nat → Entries → List Char → Option (Entries × List Char)
  | 0, _, _, _ => none
  | fuel + 1, room, es, cs => do
    let (parts, last, rest) ← readKey cs
    match dropBlanks rest with
    | '=' :: rest => do
      let (v, rest) ← readValue fuel room (dropBlanks rest)
      let es ← es.enter v last parts
      match dropBlanks rest with
      | ',' :: rest => readPairs fuel room es rest
      | '}' :: rest => some (es, rest)
      | _ => none
    | _ => none

end

/-- Reads the statements of a document. The current table is the one of the last header. -/
def readStatements : Nat → List String → Entries → List Char → Option Entries
  | 0, _, _, _ => none
  | fuel + 1, current, es, cs =>
    match dropBlanks cs with
    | [] => some es
    | '[' :: '[' :: r => do
      let (parts, last, rest) ← readKey r
      match rest with
      | ']' :: ']' :: rest => do
        let es ← es.within (Entries.openElement last) parts
        readStatements fuel (parts ++ [last]) es (← endLine rest)
      | _ => none
    | '[' :: r => do
      let (parts, last, rest) ← readKey r
      match rest with
      | ']' :: rest => do
        let es ← es.within (Entries.openTable last) parts
        readStatements fuel (parts ++ [last]) es (← endLine rest)
      | _ => none
    | c :: r =>
      if c = '#' ∨ c = '\n' ∨ c = '\r' then do
        readStatements fuel current es (← endLine (c :: r))
      else do
        let (parts, last, rest) ← readKey (c :: r)
        match rest with
        | '=' :: rest => do
          let (v, rest) ← readValue (fuel + 1) nesting (dropBlanks rest)
          let es ← es.within (Entries.enter v last parts) current
          readStatements fuel current es (← endLine rest)
        | _ => none

def read (s : String) : Option (List (String × Value)) :=
  let cs :=
    match s.toList with
    | '\ufeff' :: r => r
    | cs => cs
  (readStatements (cs.length + 1) [] [] cs).map entryValues

end MaterialModules.Toml
