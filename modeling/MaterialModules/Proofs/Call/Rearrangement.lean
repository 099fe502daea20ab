import MaterialModules.Proofs.Call.Acyclic
import MaterialModules.Proofs.Call.Bisimulation
import Mathlib.Data.List.Perm.Basic

/-!
Arguments go to parameters by name, so their order hardly matters. The same expression with the arguments
of its calls in another order leads to the same demands, through stored calls as well. The one place that
counts is the first one of a choice, where its condition stands.
-/

set_option autoImplicit false

namespace MaterialModules

namespace Expression

def label : Expression → Nat
  | constant l _ _ | call l _ _ | direct l _ _ _ | parameter l _ _ | temporary l _ _ => l

mutual

/-- The same expression under the same labels, with the arguments of direct calls in any order. Calls of
the definitions that satisfy `keeps` have their first argument where it was. -/
inductive Rearranged (keeps : Tag → Prop) : Expression → Expression → Prop
  | constant (l : Nat) (ty : Ty) (v : Value) : Rearranged keeps (constant l ty v) (constant l ty v)
  | call (l : Nat) (ty : Ty) (t : Tag) : Rearranged keeps (call l ty t) (call l ty t)
  | direct (l : Nat) (ty : Ty) (t : Tag) {args inside args' : List (String × Expression)}
      (values : RearrangedAll keeps args inside) (order : inside.Perm args')
      (first : keeps t → (args.map (·.1)).head? = (args'.map (·.1)).head?) :
      Rearranged keeps (direct l ty t args) (direct l ty t args')
  | parameter (l : Nat) (ty : Ty) (i : Nat) : Rearranged keeps (parameter l ty i) (parameter l ty i)
  | temporary (l : Nat) (ty : Ty) (i : Nat) : Rearranged keeps (temporary l ty i) (temporary l ty i)

inductive RearrangedAll (keeps : Tag → Prop) :
    List (String × Expression) → List (String × Expression) → Prop
  | nil : RearrangedAll keeps [] []
  | cons (n : String) {x y : Expression} {args inside : List (String × Expression)}
      (value : Rearranged keeps x y) (rest : RearrangedAll keeps args inside) :
      RearrangedAll keeps ((n, x) :: args) ((n, y) :: inside)

end

variable {keeps : Tag → Prop}

theorem Rearranged.label_eq {e e' : Expression} (h : Rearranged keeps e e') : e.label = e'.label := by
  cases h <;> rfl

theorem RearrangedAll.names : {args inside : List (String × Expression)} →
    RearrangedAll keeps args inside → args.map (·.1) = inside.map (·.1)
  | _, _, .nil => rfl
  | _, _, .cons n _ rest => congrArg (n :: ·) rest.names

theorem RearrangedAll.exists_right {n : String} {x : Expression} :
    {args inside : List (String × Expression)} → RearrangedAll keeps args inside →
    (n, x) ∈ args → ∃ y, (n, y) ∈ inside ∧ Rearranged keeps x y
  | _, _, .nil, hx => by cases hx
  | _, _, .cons _ value rest, hx => by
    rcases List.mem_cons.mp hx with hx | hx
    · cases hx
      exact ⟨_, List.mem_cons_self, value⟩
    · obtain ⟨y, hy, hxy⟩ := rest.exists_right hx
      exact ⟨y, List.mem_cons_of_mem _ hy, hxy⟩

theorem RearrangedAll.exists_left {n : String} {y : Expression} :
    {args inside : List (String × Expression)} → RearrangedAll keeps args inside →
    (n, y) ∈ inside → ∃ x, (n, x) ∈ args ∧ Rearranged keeps x y
  | _, _, .nil, hy => by cases hy
  | _, _, .cons _ value rest, hy => by
    rcases List.mem_cons.mp hy with hy | hy
    · cases hy
      exact ⟨_, List.mem_cons_self, value⟩
    · obtain ⟨x, hx, hxy⟩ := rest.exists_left hy
      exact ⟨x, List.mem_cons_of_mem _ hx, hxy⟩

end Expression

structure Arguments.Rearranged (keeps : Tag → Prop) (first : Prop) (args args' : Arguments) : Prop where
  values : ∃ inside : Arguments, Expression.RearrangedAll keeps args inside ∧ inside.Perm args'
  first : first → (args.map (·.1)).head? = (args'.map (·.1)).head?

structure StoredCall.Rearranged (keeps : Tag → Prop) (c c' : StoredCall) : Prop where
  kind : c.kind = c'.kind
  definition : c.definition = c'.definition
  arguments : Arguments.Rearranged keeps (keeps c.definition) c.arguments c'.arguments

/-- What a call asks of a definition: all of it but its defaults and annotations, which may have calls
inside. -/
structure Definition.SameHead (f f' : Definition) : Prop where
  kind : f.kind = f'.kind
  name : f.name = f'.name
  parameterTypes : f.parameterTypes = f'.parameterTypes
  semantic : f.semantic = f'.semantic
  varying : f.varying = f'.varying

structure Registry.Rearranged (keeps : Tag → Prop) (r r' : Registry) : Prop where
  calls : ∀ t, Option.Rel (StoredCall.Rearranged keeps) (r.call? t) (r'.call? t)
  definitions : ∀ t, Option.Rel Definition.SameHead (r.definition? t) (r'.definition? t)

/-- The arguments of a call name the parameters of its definition, each of them once. -/
structure Definition.Binds (f : Definition) (args : Arguments) : Prop where
  names : (args.map (·.1)).Perm (f.parameters.map (·.name))
  distinct : (f.parameters.map (·.name)).Nodup

namespace Arguments

variable {keeps : Tag → Prop} {first : Prop} {args args' : Arguments}

theorem Rearranged.names (h : Rearranged keeps first args args') :
    (args.map (·.1)).Perm (args'.map (·.1)) := by
  obtain ⟨inside, hvalues, horder⟩ := h.values
  rw [hvalues.names]
  exact horder.map _

theorem Rearranged.exists_right (h : Rearranged keeps first args args') {n : String} {x : Expression}
    (hx : (n, x) ∈ args) : ∃ y, (n, y) ∈ args' ∧ x.Rearranged keeps y := by
  obtain ⟨inside, hvalues, horder⟩ := h.values
  obtain ⟨y, hy, hxy⟩ := hvalues.exists_right hx
  exact ⟨y, horder.mem_iff.mp hy, hxy⟩

theorem Rearranged.exists_left (h : Rearranged keeps first args args') {n : String} {y : Expression}
    (hy : (n, y) ∈ args') : ∃ x, (n, x) ∈ args ∧ x.Rearranged keeps y := by
  obtain ⟨inside, hvalues, horder⟩ := h.values
  exact hvalues.exists_left (horder.mem_iff.mpr hy)

theorem place_eq_zero_iff (distinct : (args.map (·.1)).Nodup) {i : Nat} {n : String} {x : Expression}
    (hi : args[i]? = some (n, x)) : i = 0 ↔ (args.map (·.1)).head? = some n := by
  have hname : (args.map (·.1))[i]? = some n := by simp [hi]
  rw [List.head?_eq_getElem?]
  constructor
  · rintro rfl
    exact hname
  · intro hfirst
    obtain ⟨hlt, -⟩ := List.getElem?_eq_some_iff.mp hfirst
    exact ((List.getElem?_inj hlt distinct).mp (hfirst.trans hname.symm)).symm

theorem Rearranged.place_iff (h : Rearranged keeps first args args')
    (distinct : (args.map (·.1)).Nodup) (hfirst : first) {i j : Nat} {n : String} {x y : Expression}
    (hi : args[i]? = some (n, x)) (hj : args'[j]? = some (n, y)) : i = 0 ↔ j = 0 := by
  rw [place_eq_zero_iff distinct hi, place_eq_zero_iff (h.names.nodup_iff.mp distinct) hj,
    h.first hfirst]

end Arguments

namespace Definition

variable {f f' : Definition} {n : String}

theorem parameter?_type (f : Definition) (n : String) :
    (f.parameter? n).map (·.type) = (f.parameterTypes.find? (·.1 = n)).map (·.2) := by
  simp [parameter?, parameterTypes, List.find?_map, Function.comp_def]

theorem parameterFor_of_named (named : n ∈ f.parameters.map (·.name)) (i : Nat) :
    f.parameterFor n i = f.parameter? n := by
  obtain ⟨p, hp, hname⟩ := List.mem_map.mp named
  have hfound : (f.parameter? n).isSome := by
    rw [parameter?, List.find?_isSome]
    exact ⟨p, hp, decide_eq_true hname⟩
  unfold parameterFor
  cases hq : f.parameter? n with
  | none => simp [hq] at hfound
  | some q => rfl

theorem names_parameterTypes (f : Definition) :
    f.parameterTypes.map (·.1) = f.parameters.map (·.name) := by
  simp [parameterTypes]

theorem argumentRequired_eq (f : Definition) (ofAll : Bool) (n : String) (i : Nat) :
    f.argumentRequired ofAll n i =
      ((f.semantic.isTernary && decide (i = 0)) ||
        ((f.parameterFor n i).map (·.type)).elim ofAll fun ty =>
          !ty.isVarying && (ofAll || ty.isUniform)) := by
  unfold argumentRequired
  by_cases hcondition : (f.semantic.isTernary && decide (i = 0)) = true
  · rw [if_pos hcondition, hcondition, Bool.true_or]
  · rw [if_neg hcondition, Bool.eq_false_iff.mpr hcondition, Bool.false_or]
    cases f.parameterFor n i <;> rfl

/-- What is required of a named argument does not depend on its place, unless its place is that of a
condition. -/
theorem SameHead.argumentRequired_eq (h : f.SameHead f') (named : n ∈ f.parameters.map (·.name))
    {i j : Nat} (place : f.semantic.isTernary = true → (i = 0 ↔ j = 0)) (ofAll : Bool) :
    f.argumentRequired ofAll n i = f'.argumentRequired ofAll n j := by
  have hnames : f.parameters.map (·.name) = f'.parameters.map (·.name) := by
    rw [← names_parameterTypes, ← names_parameterTypes, h.parameterTypes]
  have htype : (f.parameterFor n i).map (·.type) = (f'.parameterFor n j).map (·.type) := by
    rw [parameterFor_of_named named, parameterFor_of_named (hnames ▸ named), parameter?_type,
      parameter?_type, h.parameterTypes]
  have hcondition : (f.semantic.isTernary && decide (i = 0)) =
      (f'.semantic.isTernary && decide (j = 0)) := by
    rw [← h.semantic]
    cases hternary : f.semantic.isTernary with
    | false => rfl
    | true => simp [place hternary]
  rw [f.argumentRequired_eq, f'.argumentRequired_eq, htype, hcondition]

theorem SameHead.isUniformFunction (h : f.SameHead f') : f.isUniformFunction = f'.isUniformFunction := by
  rw [Definition.isUniformFunction, Definition.isUniformFunction, h.semantic, h.varying]

theorem SameHead.plainName (h : f.SameHead f') : f.plainName = f'.plainName := by
  rw [Definition.plainName, Definition.plainName, h.name]

end Definition

structure Demand.Rearranged (keeps : Tag → Prop) (d d' : Demand) : Prop where
  expression : d.expression.Rearranged keeps d'.expression
  uniform : d.uniform = d'.uniform

variable {keeps : Tag → Prop}

theorem Definition.SameHead.demands {f f' : Definition} (h : f.SameHead f') {first : Prop}
    {args args' : Arguments} (hargs : args.Rearranged keeps first args')
    (hfirst : f.semantic.isTernary = true → first) (hbinds : f.Binds args) (type : Ty) (uniform : Bool) :
    MatchingDemands (Demand.Rearranged keeps) (f.demands type uniform args)
      (f'.demands type uniform args') := by
  have hdistinct : (args.map (·.1)).Nodup := hbinds.names.nodup_iff.mpr hbinds.distinct
  have hrequired : ∀ {i j : Nat} {n : String} {x y : Expression}, args[i]? = some (n, x) →
      args'[j]? = some (n, y) → ∀ ofAll : Bool,
      f.argumentRequired ofAll n i = f'.argumentRequired ofAll n j := by
    intro i j n x y hi hj ofAll
    have hnamed : n ∈ f.parameters.map (·.name) :=
      hbinds.names.mem_iff.mp (List.mem_map_of_mem (List.mem_of_getElem? hi))
    exact h.argumentRequired_eq hnamed
      (fun hternary => hargs.place_iff hdistinct (hfirst hternary) hi hj) ofAll
  simp only [Definition.demands, ← h.isUniformFunction, ← h.plainName]
  split
  · exact .fail _
  · refine .lead (fun d hd => ?forth) (fun d' hd' => ?back)
    case forth =>
      obtain ⟨i, hi, rfl⟩ := List.mem_mapIdx.mp hd
      obtain ⟨y, hy, hxy⟩ := hargs.exists_right (List.getElem_mem hi)
      obtain ⟨j, hj, hplace⟩ := List.mem_iff_getElem.mp hy
      refine ⟨_, List.mem_mapIdx.mpr ⟨j, hj, rfl⟩, ?_⟩
      rw [hplace]
      exact ⟨hxy, hrequired (List.getElem?_eq_getElem hi) (List.getElem?_eq_some_iff.mpr ⟨hj, hplace⟩) _⟩
    case back =>
      obtain ⟨j, hj, rfl⟩ := List.mem_mapIdx.mp hd'
      obtain ⟨x, hx, hxy⟩ := hargs.exists_left (List.getElem_mem hj)
      obtain ⟨i, hi, hplace⟩ := List.mem_iff_getElem.mp hx
      refine ⟨_, List.mem_mapIdx.mpr ⟨i, hi, rfl⟩, ?_⟩
      rw [hplace]
      exact ⟨hxy, hrequired (List.getElem?_eq_some_iff.mpr ⟨hi, hplace⟩) (List.getElem?_eq_getElem hj) _⟩

namespace Registry

variable {r r' : Registry}

/-- One step: demands on the same occurrence in two orders lead to demands on the same occurrences. -/
theorem Rearranged.demandsOf (h : r.Rearranged keeps r') {d d' : Demand} (hd : d.Rearranged keeps d')
    (hternary : ∀ t f, r.definition? t = some f → f.semantic.isTernary = true → keeps t)
    (hbinds : ∀ f args, r.FunctionCall d.expression f args → f.Binds args) :
    MatchingDemands (Demand.Rearranged keeps) (r.demandsOf d) (r'.demandsOf d') := by
  obtain ⟨e, uniform⟩ := d
  obtain ⟨e', uniform'⟩ := d'
  obtain ⟨hexpression, huniform⟩ := hd
  -- both sides look up the same tags, so they fail together or come to definitions with one head
  cases (huniform : uniform = uniform')
  cases (hexpression : e.Rearranged keeps e') with
  | constant l ty v => exact .lead (by simp) (by simp)
  | parameter l ty i | temporary l ty i => exact .fail _
  | call l ty t =>
    simp only [Registry.demandsOf]
    have hcall := h.calls t
    generalize hc : r.call? t = stored at hcall ⊢
    generalize r'.call? t = stored' at hcall ⊢
    cases hcall with
    | none => exact .fail _
    | @some c c' hcall =>
      simp only [← hcall.kind, ← hcall.definition]
      cases hkind : c.kind with
      | material =>
        cases uniform with
        | false => exact .lead (by simp) (by simp)
        | true => exact .fail _
      | function =>
        have hdefinition := h.definitions c.definition
        generalize hf : r.definition? c.definition = found at hdefinition ⊢
        generalize r'.definition? c.definition = found' at hdefinition ⊢
        cases hdefinition with
        | none => exact .fail _
        | some hhead =>
          exact hhead.demands hcall.arguments (hternary _ _ hf) (hbinds _ _ (.stored hc hkind hf)) ty
            uniform
  | direct l ty t values order first =>
    simp only [Registry.demandsOf]
    have hdefinition := h.definitions t
    generalize hf : r.definition? t = found at hdefinition ⊢
    generalize r'.definition? t = found' at hdefinition ⊢
    cases hdefinition with
    | none => exact .fail _
    | @some f f' hhead =>
      have hmaterial : f'.isMaterial = f.isMaterial := by
        rw [Definition.isMaterial, Definition.isMaterial, hhead.kind]
      simp only [hmaterial]
      cases hkind : f.isMaterial with
      | true => exact .fail _
      | false =>
        have hfunction : f.kind = .function := by
          cases hk : f.kind with
          | function => rfl
          | material => simp [Definition.isMaterial, hk] at hkind
        exact hhead.demands ⟨⟨_, values, order⟩, first⟩ (hternary t f hf)
          (hbinds _ _ (.direct hf hfunction)) ty uniform

structure Corresponds (r r' : Registry) (keeps : Tag → Prop) (root root' : Expression)
    (d d' : Demand) : Prop extends d.Rearranged keeps d' where
  below : r.Below root d.expression
  below' : r'.Below root' d'.expression

theorem Rearranged.bisimulation (h : r.Rearranged keeps r') (root root' : Expression)
    (hternary : ∀ t f, r.definition? t = some f → f.semantic.isTernary = true → keeps t)
    (hbinds : ∀ e, r.Below root e → ∀ f args, r.FunctionCall e f args → f.Binds args) :
    r.Bisimulation r' (r.Corresponds r' keeps root root') := by
  intro d d' hd
  have hstep := h.demandsOf hd.toRearranged hternary (hbinds _ hd.below)
  generalize hds : r.demandsOf d = following at hstep ⊢
  generalize hds' : r'.demandsOf d' = following' at hstep ⊢
  cases hstep with
  | fail err => exact .fail err
  | lead forth back =>
    have hbelow : ∀ {x x' : Demand}, x ∈ _ → x' ∈ _ → x.Rearranged keeps x' →
        r.Corresponds r' keeps root root' x x' := fun hx hx' hxx' =>
      ⟨hxx', hd.below.tail ((mem_demandsOf_iff hds).mp hx).argument_of,
        hd.below'.tail ((mem_demandsOf_iff hds').mp hx').argument_of⟩
    refine .lead (fun x hx => ?_) (fun x' hx' => ?_)
    · obtain ⟨x', hx', hxx'⟩ := forth x hx
      exact ⟨x', hx', hbelow hx hx' hxx'⟩
    · obtain ⟨x, hx, hxx'⟩ := back x' hx'
      exact ⟨x, hx, hbelow hx hx' hxx'⟩

/-- The order of arguments makes no difference to the analysis, in the registry or in the root, if the
conditions of choices stay where they are: it gives the same answer, or fails, in both orders. Below the
root, arguments name the parameters of the definitions, and the target is told by its label. -/
theorem mustBeUniform_rearranged {root root' target target' : Expression}
    (h : r.Rearranged keeps r') (hroot : root.Rearranged keeps root')
    (hternary : ∀ t f, r.definition? t = some f → f.semantic.isTernary = true → keeps t)
    (hbinds : ∀ e, r.Below root e → ∀ f args, r.FunctionCall e f args → f.Binds args)
    (hsame : target.label = target'.label)
    (hlabel : ∀ e, r.Below root e → e.label = target.label → e = target)
    (hlabel' : ∀ e, r'.Below root' e → e.label = target'.label → e = target') (uniform : Bool) :
    (∃ required, r.mustBeUniform root uniform target = .ok required ∧
      r'.mustBeUniform root' uniform target' = .ok required) ∨
    ∃ err err', r.mustBeUniform root uniform target = .error err ∧
      r'.mustBeUniform root' uniform target' = .error err' := by
  refine (h.bisimulation root root' hternary hbinds).mustBeUniform
    ⟨⟨hroot, rfl⟩, .refl, .refl⟩ fun x x' hxx' => ?_
  -- corresponding occurrences have one label, which tells the targets from the others
  obtain ⟨e, strong⟩ := x
  obtain ⟨e', strong'⟩ := x'
  have hlabels : e.label = e'.label := hxx'.expression.label_eq
  cases (hxx'.uniform : strong = strong')
  simp only [Demand.mk.injEq, and_congr_left_iff]
  intro _
  constructor
  · rintro rfl
    exact hlabel' e' hxx'.below' (hlabels.symm.trans hsame)
  · rintro rfl
    exact hlabel e hxx'.below (hlabels.trans hsame.symm)

def condition : Expression := .constant 1 ⟨.bool, {}⟩ (.bool true)

def branch : Expression := .constant 2 ⟨.int, {}⟩ (.int 5)

def otherBranch : Expression := .constant 3 ⟨.int, {}⟩ (.int 6)

def choiceArguments : Arguments := [("c", condition), ("x", branch), ("y", otherBranch)]

def choiceDefinition : Definition where
  kind := .function
  module := ⟨0⟩
  name := "::m::choose(bool,int,int)"
  returnType := ⟨.int, {}⟩
  semantic := .operator .ternary
  parameters :=
    [{ name := "c", type := ⟨.bool, {}⟩ }, { name := "x", type := ⟨.int, {}⟩ },
      { name := "y", type := ⟨.int, {}⟩ }]

def storedChoice (args : Arguments) : Registry where
  records :=
    [(⟨2⟩, ⟨"call", .call ⟨.function, ⟨1⟩, args⟩, .referenceCounted⟩),
     (⟨1⟩, ⟨"mdl::m::choose(bool,int,int)", .definition choiceDefinition, .browsable⟩)]
  lastTag := 2

def storedCall : Expression := .call 0 ⟨.int, {}⟩ ⟨2⟩

theorem storedChoice_call? (args : Arguments) (t : Tag) :
    (storedChoice args).call? t = if ⟨2⟩ = t then some ⟨.function, ⟨1⟩, args⟩ else none := by
  unfold call? element? record? storedChoice Table.get?
  by_cases h₂ : (⟨2⟩ : Tag) = t
  · simp [h₂]
  · by_cases h₁ : (⟨1⟩ : Tag) = t
    · simp [h₂, Table.get?, h₁]
    · simp [h₂, Table.get?, h₁]

theorem storedChoice_definition? (args : Arguments) (t : Tag) :
    (storedChoice args).definition? t = if ⟨1⟩ = t then some choiceDefinition else none := by
  unfold definition? element? record? storedChoice Table.get?
  by_cases h₂ : (⟨2⟩ : Tag) = t
  · have h₁ : ¬ (⟨1⟩ : Tag) = t := fun h₁ => by cases h₁.trans h₂.symm
    simp [h₂, h₁]
  · by_cases h₁ : (⟨1⟩ : Tag) = t
    · simp [h₂, Table.get?, h₁]
    · simp [h₂, Table.get?, h₁]

theorem storedChoice_rearranged {args : Arguments} (order : choiceArguments.Perm args)
    (first : keeps ⟨1⟩ → some "c" = (args.map (·.1)).head?) :
    (storedChoice choiceArguments).Rearranged keeps (storedChoice args) where
  calls t := by
    rw [storedChoice_call?, storedChoice_call?]
    split
    · have hvalues : Expression.RearrangedAll keeps choiceArguments choiceArguments :=
        .cons "c" (.constant _ _ _) (.cons "x" (.constant _ _ _) (.cons "y" (.constant _ _ _) .nil))
      exact .some ⟨rfl, rfl, ⟨_, hvalues, order⟩, first⟩
    · exact .none
  definitions t := by
    rw [storedChoice_definition?, storedChoice_definition?]
    split
    · exact .some ⟨rfl, rfl, rfl, rfl, rfl⟩
    · exact .none

theorem storedChoice_binds : ∀ e ∈ (storedChoice choiceArguments).occurrences storedCall,
    ∀ f args, (storedChoice choiceArguments).FunctionCall e f args → f.Binds args := by
  intro e he f args hf
  have hoccurrences : (storedChoice choiceArguments).occurrences storedCall =
      [storedCall, condition, branch, otherBranch] := rfl
  simp only [hoccurrences, List.mem_cons, List.not_mem_nil, or_false] at he
  rcases he with rfl | rfl | rfl | rfl
  · cases hf with
    | stored call kind definition =>
      rw [storedChoice_call?] at call
      cases call
      rw [storedChoice_definition?] at definition
      cases definition
      exact ⟨.refl _, by decide⟩
  all_goals cases hf

theorem acyclic_storedChoice {args : Arguments} (h : (Expression.partsOfAll args).all fun e =>
    decide (e.form ≠ .call)) : (storedChoice args).Acyclic := by
  refine acyclic_of_decreasing fun x hx l ty u hu => ?_
  simp only [storedChoice, List.mem_cons, List.not_mem_nil, or_false] at hx
  rcases hx with rfl | rfl
  · have := List.all_eq_true.mp h _ hu
    simp [Expression.form] at this
  · cases hu

def branchesSwapped : Arguments := [("c", condition), ("y", otherBranch), ("x", branch)]

def conditionSecond : Arguments := [("x", branch), ("c", condition), ("y", otherBranch)]

theorem branch_of_label {e : Expression} (he : e ∈ [storedCall, condition, branch, otherBranch])
    (hlabel : e.label = branch.label) : e = branch := by
  simp only [List.mem_cons, List.not_mem_nil, or_false] at he
  rcases he with rfl | rfl | rfl | rfl
  · cases hlabel
  · cases hlabel
  · rfl
  · cases hlabel

theorem mustBeUniform_choice :
    (storedChoice choiceArguments).mustBeUniform storedCall false branch = .ok false := by
  have hqueue : (storedChoice choiceArguments).WorksOff ([⟨storedCall, false⟩] ++ []) _ :=
    .go rfl (.go rfl (.go rfl (.go rfl .done)))
  exact (hqueue.mustBeUniform_eq branch).trans (by rfl)

theorem mustBeUniform_branchesSwapped :
    (storedChoice choiceArguments).mustBeUniform storedCall false branch = .ok false ∧
    (storedChoice branchesSwapped).mustBeUniform storedCall false branch = .ok false := by
  have horder : choiceArguments.Perm branchesSwapped := (List.Perm.swap _ _ _).cons _
  have hroot : storedCall.Rearranged (fun _ => True) storedCall := .call _ _ _
  have hswapped : ∀ e, (storedChoice branchesSwapped).Below storedCall e → e.label = branch.label →
      e = branch := by
    intro e he
    have hmem := he.mem_occurrences
    have hoccurrences : (storedChoice branchesSwapped).occurrences storedCall =
        [storedCall, condition, otherBranch, branch] := rfl
    rw [hoccurrences] at hmem
    exact branch_of_label ((((List.Perm.swap _ _ _).cons _).cons _).mem_iff.mp hmem)
  rcases mustBeUniform_rearranged (storedChoice_rearranged horder fun _ => rfl) hroot
    (fun _ _ _ _ => trivial) (fun e he => storedChoice_binds e he.mem_occurrences) rfl
    (fun e he => branch_of_label he.mem_occurrences) hswapped false with
    ⟨required, hchoice, hother⟩ | ⟨err, _, hchoice, -⟩
  · rw [mustBeUniform_choice] at hchoice
    cases hchoice
    exact ⟨mustBeUniform_choice, hother⟩
  · rw [mustBeUniform_choice] at hchoice
    cases hchoice

/-- With its first branch in front, a choice requires a uniform branch, and none otherwise: what is
required of an argument is not a matter of its name. -/
theorem mustBeUniform_conditionSecond :
    (storedChoice choiceArguments).Acyclic ∧ (storedChoice conditionSecond).Acyclic ∧
    (storedChoice choiceArguments).Rearranged (fun _ => False) (storedChoice conditionSecond) ∧
    (∀ e ∈ (storedChoice choiceArguments).occurrences storedCall,
      ∀ f args, (storedChoice choiceArguments).FunctionCall e f args → f.Binds args) ∧
    (∀ e ∈ (storedChoice choiceArguments).occurrences storedCall, e.label = branch.label → e = branch) ∧
    (∀ e ∈ (storedChoice conditionSecond).occurrences storedCall, e.label = branch.label → e = branch) ∧
    (storedChoice choiceArguments).mustBeUniform storedCall false branch = .ok false ∧
    (storedChoice conditionSecond).mustBeUniform storedCall false branch = .ok true := by
  refine ⟨acyclic_storedChoice rfl, acyclic_storedChoice rfl,
    storedChoice_rearranged (List.Perm.swap _ _ _) (fun h => h.elim), storedChoice_binds,
    fun e he => branch_of_label he, fun e he => branch_of_label ?_, ?_, ?_⟩
  · have hoccurrences : (storedChoice conditionSecond).occurrences storedCall =
        [storedCall, branch, condition, otherBranch] := rfl
    rw [hoccurrences] at he
    exact ((List.Perm.swap _ _ _).cons _).mem_iff.mp he
  · exact mustBeUniform_choice
  · have hqueue : (storedChoice conditionSecond).WorksOff ([⟨storedCall, false⟩] ++ []) _ :=
      .go rfl (.go rfl (.go rfl (.go rfl .done)))
    exact (hqueue.mustBeUniform_eq branch).trans (by rfl)

end Registry

end MaterialModules
