set_option autoImplicit false

namespace MaterialModules.Toml

inductive Value where
  | string (s : String)
  | integer (text : String)
  | float (text : String)
  | boolean (b : Bool)
  | time (text : String)
  | array (items : List Value)
  | table (entries : List (String × Value))
  deriving Repr

/-- How a table came about. A table in the middle of a header is implicit until a header of its own makes
it explicit; a table in the middle of a dotted key takes further keys from its own table only. -/
inductive Origin where
  | implicit | dotted | explicit
  deriving DecidableEq, Repr

inductive Node where
  | leaf (v : Value)
  | table (origin : Origin) (entries : List (String × Node))
  /-- The tables of an array of tables, the newest first. -/
  | tables (newestFirst : List (List (String × Node)))
  deriving Repr

abbrev Entries := List (String × Node)

namespace Entries

def get? (k : String) (es : Entries) : Option Node := (es.find? fun e => e.1 = k).map (·.2)

def set (k : String) (n : Node) : Entries → Entries
  | [] => [(k, n)]
  | e :: rest => if e.1 = k then (k, n) :: rest else e :: set k n rest

def addNew (k : String) (n : Node) (es : Entries) : Option Entries :=
  if (es.get? k).isSome then none else some (es ++ [(k, n)])

/-- Changes the table that a header path leads to. Tables on the way that are not there yet come about
implicitly, and of an array of tables the newest one counts. -/
def within (change : Entries → Option Entries) : List String → Entries → Option Entries
  | [], es => change es
  | k :: ks, es =>
    match es.get? k with
    | none => (within change ks []).map fun inner => es.set k (.table .implicit inner)
    | some (.leaf _) => none
    | some (.table o inner) => (within change ks inner).map fun inner => es.set k (.table o inner)
    | some (.tables (newest :: older)) =>
      (within change ks newest).map fun newest => es.set k (.tables (newest :: older))
    | some (.tables []) => none

def enter (v : Value) (last : String) : List String → Entries → Option Entries
  | [], es => es.addNew last (.leaf v)
  | k :: ks, es =>
    match es.get? k with
    | none => (enter v last ks []).map fun inner => es.set k (.table .dotted inner)
    | some (.table .dotted inner) =>
      (enter v last ks inner).map fun inner => es.set k (.table .dotted inner)
    | some (.table .implicit inner) =>
      if ks = [] then none
      else (enter v last ks inner).map fun inner => es.set k (.table .implicit inner)
    | some (.tables (newest :: older)) =>
      if ks = [] then none
      else (enter v last ks newest).map fun newest => es.set k (.tables (newest :: older))
    | _ => none

/-- Opens the table of a header. Only a table that was implicit until now may be there already. -/
def openTable (last : String) (es : Entries) : Option Entries :=
  match es.get? last with
  | none => some (es.set last (.table .explicit []))
  | some (.table .implicit inner) => some (es.set last (.table .explicit inner))
  | _ => none

def openElement (last : String) (es : Entries) : Option Entries :=
  match es.get? last with
  | none => some (es.set last (.tables [[]]))
  | some (.tables older) => some (es.set last (.tables ([] :: older)))
  | _ => none

end Entries

mutual

def Node.value : Node → Value
  | .leaf v => v
  | .table _ es => .table (entryValues es)
  | .tables all => .array (tableValues all).reverse
termination_by structural n => n

def entryValues : List (String × Node) → List (String × Value)
  | [] => []
  | (k, n) :: rest => (k, n.value) :: entryValues rest
termination_by structural es => es

def tableValues : List (List (String × Node)) → List Value
  | [] => []
  | es :: rest => .table (entryValues es) :: tableValues rest
termination_by structural all => all

end

end MaterialModules.Toml
