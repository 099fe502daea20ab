import MaterialModules.Name.Registered
import MaterialModules.Registry.Element
import MaterialModules.Registry.Table

/-!
The registry: records under tags, and tags under names. What an operation does to it is said through
`record?` and `tag?`.
-/

set_option autoImplicit false

namespace MaterialModules

/-- Records by tag, and tags by name. A name keeps its last binding. -/
structure Registry where
  records : Table Tag Record := []
  names : Table String Tag := []
  /-- The tag handed out last; zero is never handed out. -/
  lastTag : Nat := 0
  deriving Repr

namespace Registry

def empty : Registry := {}

def size (r : Registry) : Nat := r.records.length

def tag? (r : Registry) (name : String) : Option Tag := r.names.get? name

def record? (r : Registry) (t : Tag) : Option Record := r.records.get? t

def element? (r : Registry) (t : Tag) : Option Element := (r.record? t).map (·.element)

def name? (r : Registry) (t : Tag) : Option String := (r.record? t).map (·.name)

def kind? (r : Registry) (t : Tag) : Option ElementKind := (r.element? t).map (·.kind)

def module? (r : Registry) (t : Tag) : Option ModuleRecord :=
  match r.element? t with
  | some (.module m) => some m
  | _ => none

def definition? (r : Registry) (t : Tag) : Option Definition :=
  match r.element? t with
  | some (.definition d) => some d
  | _ => none

def call? (r : Registry) (t : Tag) : Option StoredCall :=
  match r.element? t with
  | some (.call c) => some c
  | _ => none

def resource? (r : Registry) (t : Tag) : Option Resource :=
  match r.element? t with
  | some (.resource x) => some x
  | _ => none

def fresh (r : Registry) : Tag := ⟨r.lastTag + 1⟩

def reserve (r : Registry) : Registry := { r with lastTag := r.lastTag + 1 }

def put (r : Registry) (t : Tag) (x : Record) : Registry :=
  { r with records := r.records.set t x, names := r.names.set x.name t }

def add (r : Registry) (x : Record) : Registry := r.reserve.put r.fresh x

def browsableNames (r : Registry) : List String :=
  ((r.records.filter fun (_, x) => x.visibility = .browsable).map fun (_, x) => x.name).mergeSort
    fun a b => decide (a ≤ b)

def compiled? (r : Registry) (name : String) : Option CompiledModule :=
  ((r.tag? (Name.registered name)).bind r.module?).map (·.compiled)

@[simp] theorem record?_put_self (r : Registry) (t : Tag) (x : Record) :
    (r.put t x).record? t = some x := Table.get?_set_self t x r.records

theorem record?_put_of_ne {t u : Tag} (h : u ≠ t) (r : Registry) (x : Record) :
    (r.put t x).record? u = r.record? u := Table.get?_set_of_ne h x r.records

@[simp] theorem tag?_put_self (r : Registry) (t : Tag) (x : Record) :
    (r.put t x).tag? x.name = some t := Table.get?_set_self x.name t r.names

theorem tag?_put_of_ne {n : String} {x : Record} (h : n ≠ x.name) (r : Registry) (t : Tag) :
    (r.put t x).tag? n = r.tag? n := Table.get?_set_of_ne h t r.names

@[simp] theorem record?_reserve (r : Registry) (t : Tag) : r.reserve.record? t = r.record? t := rfl

@[simp] theorem tag?_reserve (r : Registry) (n : String) : r.reserve.tag? n = r.tag? n := rfl

end Registry

end MaterialModules
