import MaterialModules.Proofs.Source.Scope

set_option autoImplicit false

namespace MaterialModules.Source

namespace Expr

/-- `x.Within e`: the value of `x` goes into that of `e`, not through a local constant. -/
inductive Within (x : Expr) : Expr → Prop
  | self : Within x x
  | argument {e : Expr} {args : List (Argument Expr)} {a : Argument Expr} (place : a ∈ args)
      (inside : Within x a.value) : Within x (.call e args)
  | operand {e : Expr} (op : UnaryOp) (inside : Within x e) : Within x (.unary op e)
  | left {a : Expr} (op : BinaryOp) (b : Expr) (inside : Within x a) : Within x (.binary op a b)
  | right {b : Expr} (op : BinaryOp) (a : Expr) (inside : Within x b) : Within x (.binary op a b)
  | cond {c : Expr} (a b : Expr) (inside : Within x c) : Within x (.conditional c a b)
  | yes {a : Expr} (c b : Expr) (inside : Within x a) : Within x (.conditional c a b)
  | no {b : Expr} (c a : Expr) (inside : Within x b) : Within x (.conditional c a b)
  | base {e : Expr} (member : String) (inside : Within x e) : Within x (.field e member)
  | indexed {e : Expr} (i : Expr) (inside : Within x e) : Within x (.index e i)
  | position {i : Expr} (e : Expr) (inside : Within x i) : Within x (.index e i)

variable {x y e : Expr} {callees : Bool} {env env' : Locals}

theorem Within.trans (hxy : x.Within y) (hye : y.Within e) : x.Within e := by
  induction hye with
  | self => exact hxy
  | argument place _ ih => exact .argument place ih
  | operand op _ ih => exact .operand op ih
  | left op b _ ih => exact .left op b ih
  | right op a _ ih => exact .right op a ih
  | cond a b _ ih => exact .cond a b ih
  | yes c b _ ih => exact .yes c b ih
  | no c a _ ih => exact .no c a ih
  | base member _ ih => exact .base member ih
  | indexed i _ ih => exact .indexed i ih
  | position e _ ih => exact .position e ih

theorem Within.named {q : QualifiedName} {args : List (String × Expr)} {a : String × Expr}
    (place : a ∈ args) (inside : x.Within a.2) : x.Within (.named q args) :=
  .argument (a := ⟨some a.1, a.2⟩) (List.mem_map_of_mem place) inside

theorem Within.construct {t : TypeName} {items : List Expr} (place : e ∈ items)
    (inside : x.Within e) : x.Within (.construct t items) :=
  .argument (a := ⟨none, e⟩) (List.mem_map_of_mem place) inside

theorem Within.refers {sc sc' : Scope} {n : String} (h : x.Within e) (hx : x.Refers sc n sc') :
    e.Refers sc n sc' := by
  induction h with
  | self => exact hx
  | argument place _ ih => exact .argument place ih
  | operand _ _ ih => exact .operand ih
  | left _ _ _ ih => exact .left ih
  | right _ _ _ ih => exact .right ih
  | cond _ _ _ ih => exact .cond ih
  | yes _ _ _ ih => exact .yes ih
  | no _ _ _ ih => exact .no ih
  | base _ _ ih => exact .base ih
  | indexed _ _ ih => exact .indexed ih
  | position _ _ ih => exact .position ih

theorem Within.inlined_eq (h : x.Within e) (heq : e.inlined callees env = e.inlined callees env') :
    x.inlined callees env = x.inlined callees env' := by
  induction h with
  | self => exact heq
  | argument place _ ih =>
    simp only [inlined, inlinedArguments_eq_map, call.injEq, List.map_inj_left] at heq
    exact ih (congrArg Argument.value (heq.2 _ place))
  | operand _ _ ih =>
    simp only [inlined, unary.injEq] at heq
    exact ih heq.2
  | left _ _ _ ih =>
    simp only [inlined, binary.injEq] at heq
    exact ih heq.2.1
  | right _ _ _ ih =>
    simp only [inlined, binary.injEq] at heq
    exact ih heq.2.2
  | cond _ _ _ ih =>
    simp only [inlined, conditional.injEq] at heq
    exact ih heq.1
  | yes _ _ _ ih =>
    simp only [inlined, conditional.injEq] at heq
    exact ih heq.2.1
  | no _ _ _ ih =>
    simp only [inlined, conditional.injEq] at heq
    exact ih heq.2.2
  | base _ _ ih =>
    simp only [inlined, field.injEq] at heq
    exact ih heq.1
  | indexed _ _ ih =>
    simp only [inlined, index.injEq] at heq
    exact ih heq.1
  | position _ _ ih =>
    simp only [inlined, index.injEq] at heq
    exact ih heq.2

/-- Where the name of a local goes into a value, the value tells what the local stands for. -/
theorem Within.eq_of_inlined {n : String} {v w : Expr} (h : (ofName n).Within e) (hv : env n = some v)
    (hw : env' n = some w) (heq : e.inlined callees env = e.inlined callees env') : v = w := by
  have hname := h.inlined_eq heq
  rwa [inlined_ofName, inlined_ofName, hv, hw] at hname

section Bound

variable {bs : List (Binding Expr)}

theorem bound_append (before after : List (Binding Expr)) (env : Locals) :
    bound callees env (before ++ after) = bound callees (bound callees env before) after := by
  induction before generalizing env with
  | nil => rfl
  | cons b before ih => exact ih _

theorem bound_of_notMem {n : String} (h : n ∉ bs.map (·.name)) (env : Locals) :
    bound callees env bs n = env n := by
  induction bs generalizing env with
  | nil => rfl
  | cons b rest ih =>
    rw [List.map_cons, List.mem_cons, not_or] at h
    rw [bound, ih h.2, Locals.bind_of_ne h.1]

theorem bound_of_nodup {before after : List (Binding Expr)} {b : Binding Expr}
    (h : ((before ++ b :: after).map (·.name)).Nodup) (env : Locals) :
    bound callees env (before ++ b :: after) b.name =
      some (b.init.inlined callees (bound callees env before)) := by
  have hafter : b.name ∉ after.map (·.name) := by
    rw [List.map_append, List.map_cons] at h
    exact (List.nodup_cons.mp (List.Nodup.of_append_right h)).1
  rw [bound_append, bound, bound_of_notMem hafter, Locals.bind_self]

theorem eq_of_inlined_letIn {before after : List (Binding Expr)} {b : Binding Expr} {inner : Expr}
    {n : String} {v w : Expr} (hnames : ((before ++ b :: after).map (·.name)).Nodup)
    (hn : n ∉ (before ++ b :: after).map (·.name)) (hinit : (ofName n).Within b.init)
    (hinner : (ofName b.name).Within inner) (env : Locals)
    (heq : (letIn (before ++ b :: after) inner).inlined callees (env.bind n v) =
      (letIn (before ++ b :: after) inner).inlined callees (env.bind n w)) : v = w := by
  have hbefore : n ∉ before.map (·.name) := fun h => hn (by
    rw [List.map_append]
    exact List.mem_append_left _ h)
  -- the constants before this one leave the local to its initialiser
  have hpassed : ∀ x : Expr, bound callees (env.bind n x) before n = some x := fun x => by
    rw [bound_of_notMem hbefore, Locals.bind_self]
  simp only [inlined] at heq
  have hvalues := hinner.eq_of_inlined (bound_of_nodup hnames _) (bound_of_nodup hnames _) heq
  exact hinit.eq_of_inlined (hpassed v) (hpassed w) hvalues

end Bound

end Expr

end MaterialModules.Source
