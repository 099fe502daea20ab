import MaterialModules.Source.Imports

/-!
Source with the names of locals replaced by what they stand for, local constants as well as whatever
else an environment knows.
-/

set_option autoImplicit false

namespace MaterialModules.Source

def TypeName.localName? : TypeName → Option String
  | ⟨.none, ⟨false, [n]⟩, none⟩ => some n
  | _ => none

theorem TypeName.name_of_localName {t : TypeName} {n : String} (h : t.localName? = some n) :
    t.name = .simple n := by
  unfold localName? at h
  split at h
  · cases h
    rfl
  · cases h

abbrev Locals := String → Option Expr

def Locals.bind (env : Locals) (n : String) (e : Expr) : Locals := fun k => if k = n then some e else env k

@[simp] theorem Locals.bind_self (env : Locals) (n : String) (e : Expr) : env.bind n e n = some e :=
  if_pos rfl

theorem Locals.bind_of_ne {k n : String} (h : k ≠ n) (env : Locals) (e : Expr) :
    env.bind n e k = env k := if_neg h

namespace Expr

mutual

/-- Replaces locals, and those in the place of a callee only on demand. What they stand for is not
looked into again. -/
def inlined (callees : Bool) (env : Locals) : Expr → Expr
  | .literal l => .literal l
  | .reference t => (t.localName?.bind env).getD (.reference t)
  | .call callee args =>
    .call (if callees then callee.inlined callees env else callee) (inlinedArguments callees env args)
  | .unary op e => .unary op (e.inlined callees env)
  | .binary op a b => .binary op (a.inlined callees env) (b.inlined callees env)
  | .conditional c a b =>
    .conditional (c.inlined callees env) (a.inlined callees env) (b.inlined callees env)
  | .field e m => .field (e.inlined callees env) m
  | .index e i => .index (e.inlined callees env) (i.inlined callees env)
  | .letIn bs e => e.inlined callees (bound callees env bs)
termination_by structural e => e

def inlinedArguments (callees : Bool) (env : Locals) : List (Argument Expr) → List (Argument Expr)
  | [] => []
  | ⟨n, e⟩ :: rest => ⟨n, e.inlined callees env⟩ :: inlinedArguments callees env rest
termination_by structural as => as

def bound (callees : Bool) (env : Locals) : List (Binding Expr) → Locals
  | [] => env
  | ⟨_, n, e⟩ :: rest => bound callees (env.bind n (e.inlined callees env)) rest
termination_by structural bs => bs

end

def Untouched (env : Locals) (e : Expr) : Prop := ∀ n, .simple n ∈ e.names → env n = none

variable {callees : Bool} {env : Locals}

theorem inlined_ofName (n : String) : (ofName n).inlined callees env = (env n).getD (ofName n) := rfl

theorem inlined_reference {t : TypeName} (h : (reference t).Untouched env) :
    (reference t).inlined callees env = reference t := by
  unfold inlined
  cases ht : t.localName? with
  | none => rfl
  | some n =>
    have hn : env n = none := h n (by simp [names, TypeName.name_of_localName ht])
    simp [hn]

theorem inlinedArguments_eq_map (args : List (Argument Expr)) :
    inlinedArguments callees env args = args.map fun a => ⟨a.name, a.value.inlined callees env⟩ := by
  induction args with
  | nil => rfl
  | cons a rest ih => rw [inlinedArguments, ih, List.map_cons]

theorem mem_argumentNames {q : QualifiedName} {args : List (Argument Expr)} :
    q ∈ argumentNames args ↔ ∃ a ∈ args, q ∈ a.value.names := by
  induction args with
  | nil => simp [argumentNames]
  | cons a rest ih => simp [argumentNames, ih]

theorem inlined_call (callee : Expr) (hcallee : callees = true → callee.inlined callees env = callee)
    (args : List (Argument Expr)) :
    (call callee args).inlined callees env =
      .call callee (args.map fun a => ⟨a.name, a.value.inlined callees env⟩) := by
  rw [inlined, inlinedArguments_eq_map]
  cases callees with
  | false => rfl
  | true => rw [if_pos rfl, hcallee rfl]

theorem untouched_callee_of_named {q : QualifiedName} {args : List (String × Expr)}
    (h : (named q args).Untouched env) : (entity q).Untouched env := fun n hn =>
  h n (List.mem_append_left _ hn)

theorem untouched_argument_of_named {q : QualifiedName} {args : List (String × Expr)}
    (h : (named q args).Untouched env) {a : String × Expr} (ha : a ∈ args) : a.2.Untouched env :=
  fun n hn => h n (List.mem_append_right _ (mem_argumentNames.mpr
    ⟨⟨some a.1, a.2⟩, List.mem_map_of_mem ha, hn⟩))

theorem untouched_type_of_construct {t : TypeName} {items : List Expr}
    (h : (construct t items).Untouched env) : (reference t).Untouched env := fun n hn =>
  h n (List.mem_append_left _ hn)

theorem untouched_item_of_construct {t : TypeName} {items : List Expr}
    (h : (construct t items).Untouched env) {e : Expr} (he : e ∈ items) : e.Untouched env :=
  fun n hn => h n (List.mem_append_right _ (mem_argumentNames.mpr
    ⟨⟨none, e⟩, List.mem_map_of_mem he, hn⟩))

theorem inlined_named_eq {q : QualifiedName} (h : callees = true → (entity q).Untouched env)
    {args args' : List (String × Expr)}
    (hargs : (args'.map fun a => (a.1, a.2.inlined callees env)) = args) :
    (named q args').inlined callees env = named q args := by
  rw [named, inlined_call (entity q) fun hcallees => inlined_reference (h hcallees), ← hargs]
  simp [named, Function.comp_def]

theorem inlined_construct_eq {t : TypeName} {items : List Expr}
    (h : (construct t items).Untouched env) {items' : List Expr}
    (hitems : items'.map (inlined callees env) = items) :
    (construct t items').inlined callees env = construct t items := by
  rw [construct, inlined_call (reference t) fun _ => inlined_reference (untouched_type_of_construct h),
    ← hitems]
  simp [construct, Function.comp_def]

end Expr

end MaterialModules.Source
