import MaterialModules.Compiler.Toolchain
import MaterialModules.Registry.Basic
import MaterialModules.Report.Failure

/-!
Steps of a registration: each one may enter records, report messages, ask the toolchain, and fail.
-/

set_option autoImplicit false

namespace MaterialModules

/-- Where a registration stands: the registry, the messages for the caller and the requests that the
toolchain was sent, both in order. -/
structure Progress where
  registry : Registry := {}
  messages : List Message := []
  events : List Event := []
  deriving Repr

/-- A step of a registration. A step that fails leaves what it did until then in place. -/
def Work (α : Type) : Type := Progress → Except ModuleError α × Progress

namespace Work

variable {α β : Type}

def pure (a : α) : Work α := fun p => (.ok a, p)

def fail (e : ModuleError) : Work α := fun p => (.error e, p)

def bind (x : Work α) (f : α → Work β) : Work β := fun p =>
  match x p with
  | (.ok a, q) => f a q
  | (.error e, q) => (.error e, q)

instance : Monad Work where
  pure := pure
  bind := bind

def ofExcept (x : Except ModuleError α) : Work α := fun p => (x, p)

def registry : Work Registry := fun p => (.ok p.registry, p)

def report (ms : List Message) : Work Unit := fun p => (.ok (), { p with messages := p.messages ++ ms })

def log (e : Event) : Work Unit := fun p => (.ok (), { p with events := p.events ++ [e] })

def onRegistry (f : Registry → Except ModuleError α × Registry) : Work α := fun p =>
  match f p.registry with
  | (x, r) => (x, { p with registry := r })

/-- Asks the toolchain, which sees the requests so far and the registered modules, and logs the request
with what came of it. -/
def ask (question : List Event → ModuleLookup → α) (event : α → Event) : Work α := fun p =>
  let answer := question p.events p.registry.compiled?
  (.ok answer, { p with events := p.events ++ [event answer] })

def accept (e : ModuleError) : Except (List Message) α → Work α
  | .ok a => pure a
  | .error diagnostics => do
    report diagnostics
    fail e

def closedBy (x : Work α) (e : Event) : Work α := fun p =>
  match x p with
  | (a, q) => (a, { q with events := q.events ++ [e] })

def failingWith (x : Work α) (outer : ModuleError) : Work α := fun p =>
  match x p with
  | (.ok a, q) => (.ok a, q)
  | (.error e, q) =>
    (.error outer, { q with messages := q.messages ++ [Message.failure e.message] })

def reported (x : Work α) : Work α := fun p =>
  match x p with
  | (.ok a, q) => (.ok a, q)
  | (.error e, q) => (.error e, { q with messages := q.messages ++ [Message.failure e.message] })

@[simp] theorem pure_apply (a : α) (p : Progress) : (Pure.pure a : Work α) p = (.ok a, p) := rfl

@[simp] theorem fail_apply (e : ModuleError) (p : Progress) : (fail e : Work α) p = (.error e, p) := rfl

theorem bind_apply (x : Work α) (f : α → Work β) (p : Progress) :
    (x >>= f) p = match x p with
      | (.ok a, q) => f a q
      | (.error e, q) => (.error e, q) := rfl

end Work

end MaterialModules
