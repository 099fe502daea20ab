import MaterialModules.Proofs.Source.Inlining
import Mathlib.Data.List.Nodup

/-!
What the names in the body of a function refer to: a parameter, or a local constant in front of it.
-/

set_option autoImplicit false

namespace MaterialModules.Source

inductive Local where
  | parameter (d : ParameterDecl)
  | constant (b : Binding Expr)

abbrev Scope := List (String × Local)

def Scope.enter (sc : Scope) (bs : List (Binding Expr)) : Scope :=
  (bs.reverse.map fun b => (b.name, Local.constant b)) ++ sc

theorem lookup_eq_of_nodup {α β : Type} {f : α → String} {g : α → β} {xs : List α}
    (h : (xs.map f).Nodup) {x : α} (hx : x ∈ xs) :
    (xs.map fun x => (f x, g x)).lookup (f x) = some (g x) := by
  induction xs with
  | nil => cases hx
  | cons y ys ih =>
    obtain ⟨hy, hys⟩ := List.nodup_cons.mp h
    rw [List.map_cons, List.lookup_cons]
    rcases List.mem_cons.mp hx with rfl | hx
    · rw [beq_self_eq_true]
    · have hne : f x ≠ f y := fun heq => hy (heq ▸ List.mem_map_of_mem hx)
      rw [beq_false_of_ne hne]
      exact ih hys hx

namespace Scope

variable {sc : Scope} {bs : List (Binding Expr)}

theorem lookup_enter_of_ne {n : String} (h : ∀ b ∈ bs, n ≠ b.name) :
    (sc.enter bs).lookup n = sc.lookup n := by
  have hnone : (bs.reverse.map fun b => (b.name, Local.constant b)).lookup n = none := by
    rw [List.lookup_eq_none_iff]
    intro x hx
    obtain ⟨b, hb, rfl⟩ := List.mem_map.mp hx
    exact bne_iff_ne.mpr (h b (List.mem_reverse.mp hb))
  rw [enter, List.lookup_append, hnone, Option.none_or]

theorem lookup_enter_of_mem (h : (bs.map (·.name)).Nodup) {b : Binding Expr} (hb : b ∈ bs) :
    (sc.enter bs).lookup b.name = some (.constant b) := by
  have hnodup : (bs.reverse.map (·.name)).Nodup := by rwa [List.map_reverse, List.nodup_reverse]
  rw [enter, List.lookup_append, lookup_eq_of_nodup hnodup (List.mem_reverse.mpr hb), Option.some_or]

end Scope

namespace Expr

/-- `e.Refers sc n sc'`: in `e`, at a place that `sc` can be seen from, the name `n` stands where `sc'`
can be seen. -/
inductive Refers : Scope → Expr → String → Scope → Prop
  | reference {sc : Scope} {t : TypeName} {n : String} (name : t.localName? = some n) :
      Refers sc (.reference t) n sc
  | callee {sc sc' : Scope} {e : Expr} {args : List (Argument Expr)} {n : String}
      (inside : Refers sc e n sc') : Refers sc (.call e args) n sc'
  | argument {sc sc' : Scope} {e : Expr} {args : List (Argument Expr)} {a : Argument Expr} {n : String}
      (place : a ∈ args) (inside : Refers sc a.value n sc') : Refers sc (.call e args) n sc'
  | operand {sc sc' : Scope} {op : UnaryOp} {e : Expr} {n : String} (inside : Refers sc e n sc') :
      Refers sc (.unary op e) n sc'
  | left {sc sc' : Scope} {op : BinaryOp} {a b : Expr} {n : String} (inside : Refers sc a n sc') :
      Refers sc (.binary op a b) n sc'
  | right {sc sc' : Scope} {op : BinaryOp} {a b : Expr} {n : String} (inside : Refers sc b n sc') :
      Refers sc (.binary op a b) n sc'
  | cond {sc sc' : Scope} {c a b : Expr} {n : String} (inside : Refers sc c n sc') :
      Refers sc (.conditional c a b) n sc'
  | yes {sc sc' : Scope} {c a b : Expr} {n : String} (inside : Refers sc a n sc') :
      Refers sc (.conditional c a b) n sc'
  | no {sc sc' : Scope} {c a b : Expr} {n : String} (inside : Refers sc b n sc') :
      Refers sc (.conditional c a b) n sc'
  | base {sc sc' : Scope} {e : Expr} {member n : String} (inside : Refers sc e n sc') :
      Refers sc (.field e member) n sc'
  | indexed {sc sc' : Scope} {e i : Expr} {n : String} (inside : Refers sc e n sc') :
      Refers sc (.index e i) n sc'
  | position {sc sc' : Scope} {e i : Expr} {n : String} (inside : Refers sc i n sc') :
      Refers sc (.index e i) n sc'
  /-- The value of a local constant sees the constants before it. -/
  | init {sc sc' : Scope} {before after : List (Binding Expr)} {b : Binding Expr} {e : Expr} {n : String}
      (inside : Refers (sc.enter before) b.init n sc') : Refers sc (.letIn (before ++ b :: after) e) n sc'
  | body {sc sc' : Scope} {bs : List (Binding Expr)} {e : Expr} {n : String}
      (inside : Refers (sc.enter bs) e n sc') : Refers sc (.letIn bs e) n sc'

inductive Flat : Expr → Prop
  | literal (l : Literal) : Flat (.literal l)
  | reference (t : TypeName) : Flat (.reference t)
  | call {e : Expr} {args : List (Argument Expr)} (callee : Flat e) (values : ∀ a ∈ args, Flat a.value) :
      Flat (.call e args)
  | unary {e : Expr} (op : UnaryOp) (operand : Flat e) : Flat (.unary op e)
  | binary {a b : Expr} (op : BinaryOp) (left : Flat a) (right : Flat b) : Flat (.binary op a b)
  | conditional {c a b : Expr} (cond : Flat c) (yes : Flat a) (no : Flat b) : Flat (.conditional c a b)
  | field {e : Expr} (member : String) (base : Flat e) : Flat (.field e member)
  | index {e i : Expr} (base : Flat e) (position : Flat i) : Flat (.index e i)

theorem Flat.named {q : QualifiedName} {args : List (String × Expr)} (h : ∀ a ∈ args, Flat a.2) :
    Flat (.named q args) := by
  refine .call (.reference _) fun a ha => ?_
  obtain ⟨x, hx, rfl⟩ := List.mem_map.mp ha
  exact h x hx

theorem Flat.construct {t : TypeName} {items : List Expr} (h : ∀ e ∈ items, Flat e) :
    Flat (.construct t items) := by
  refine .call (.reference _) fun a ha => ?_
  obtain ⟨x, hx, rfl⟩ := List.mem_map.mp ha
  exact h x hx

theorem Flat.scope_eq {e : Expr} (hflat : e.Flat) {sc sc' : Scope} {n : String} (h : e.Refers sc n sc') :
    sc' = sc := by
  induction h with
  | reference => rfl
  | callee _ ih =>
    cases hflat with
    | call hcallee _ => exact ih hcallee
  | argument place _ ih =>
    cases hflat with
    | call _ hvalues => exact ih (hvalues _ place)
  | operand _ ih =>
    cases hflat with
    | unary _ h => exact ih h
  | left _ ih =>
    cases hflat with
    | binary _ ha _ => exact ih ha
  | right _ ih =>
    cases hflat with
    | binary _ _ hb => exact ih hb
  | cond _ ih =>
    cases hflat with
    | conditional hc _ _ => exact ih hc
  | yes _ ih =>
    cases hflat with
    | conditional _ ha _ => exact ih ha
  | no _ ih =>
    cases hflat with
    | conditional _ _ hb => exact ih hb
  | base _ ih =>
    cases hflat with
    | field _ h => exact ih h
  | indexed _ ih =>
    cases hflat with
    | index h _ => exact ih h
  | position _ ih =>
    cases hflat with
    | index _ hi => exact ih hi
  | init | body => cases hflat

def locals : Expr → List (Binding Expr)
  | .letIn bs _ => bs
  | _ => []

def Shallow (e : Expr) : Prop :=
  e.Flat ∨ ∃ bs inner, e = .letIn bs inner ∧ (∀ b ∈ bs, b.init.Flat) ∧ inner.Flat

theorem Shallow.scope_eq {e : Expr} (hshallow : e.Shallow) {sc sc' : Scope} {n : String}
    (h : e.Refers sc n sc') : ∃ bs, (∀ b ∈ bs, b ∈ e.locals) ∧ sc' = sc.enter bs := by
  rcases hshallow with hflat | ⟨bs, inner, rfl, hbs, hinner⟩
  · exact ⟨[], nofun, hflat.scope_eq h⟩
  · cases h with
    | @init _ _ before _ b _ _ inside =>
      have hinit := hbs b (List.mem_append_right _ List.mem_cons_self)
      exact ⟨before, fun b hb => List.mem_append_left _ hb, hinit.scope_eq inside⟩
    | body inside => exact ⟨bs, fun b hb => hb, hinner.scope_eq inside⟩

end Expr

namespace FunctionDecl

variable {f : FunctionDecl}

def scope (f : FunctionDecl) : Scope := f.parameters.map fun d => (d.name, .parameter d)

structure Hygienic (f : FunctionDecl) : Prop where
  distinct : (f.parameters.map (·.name)).Nodup
  apart : ∀ d ∈ f.parameters, ∀ b ∈ f.body.locals, d.name ≠ b.name

/-- Anywhere in a hygienic function the name of a parameter refers to that parameter. -/
theorem Hygienic.lookup_parameter (h : f.Hygienic) (hshallow : f.body.Shallow) {d : ParameterDecl}
    (hd : d ∈ f.parameters) {sc : Scope} (hrefers : f.body.Refers f.scope d.name sc) :
    sc.lookup d.name = some (.parameter d) := by
  obtain ⟨bs, hbs, rfl⟩ := hshallow.scope_eq hrefers
  rw [Scope.lookup_enter_of_ne fun b hb => h.apart d hd b (hbs b hb)]
  exact lookup_eq_of_nodup h.distinct hd

end FunctionDecl

end MaterialModules.Source
