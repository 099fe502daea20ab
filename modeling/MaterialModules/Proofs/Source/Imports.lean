import MaterialModules.Proofs.Source.Inlining
import MaterialModules.Source.Imports

set_option autoImplicit false

namespace MaterialModules

instance : Std.TransOrd QualifiedName :=
  inferInstanceAs (Std.TransCmp
    (compareLex (compareOn QualifiedName.absolute) (compareOn QualifiedName.components)))

namespace QualifiedName

theorem eq_of_compare_eq {a b : QualifiedName} (h : compare a b = .eq) : a = b := by
  have hparts : (compare a.absolute b.absolute).then (compare a.components b.components) = .eq := h
  obtain ⟨habsolute, hcomponents⟩ := Ordering.then_eq_eq.mp hparts
  cases a
  cases b
  cases Std.LawfulEqOrd.eq_of_compare habsolute
  cases Std.LawfulEqOrd.eq_of_compare hcomponents
  rfl

theorem isSome_modulePart?_iff {q : QualifiedName} :
    q.modulePart?.isSome = true ↔ q.absolute = true ∧ 2 ≤ q.components.length := by
  unfold modulePart?
  split <;> simp_all

end QualifiedName

namespace NameSet

def Increasing (qs : List QualifiedName) : Prop := qs.Pairwise fun a b => compare a b = .lt

theorem mem_insertInto {q x : QualifiedName} {qs : List QualifiedName} :
    x ∈ insertInto q qs ↔ x = q ∨ x ∈ qs := by
  induction qs with
  | nil => simp [insertInto]
  | cons y qs ih =>
    unfold insertInto
    split
    · exact List.mem_cons
    · rename_i heq
      rw [QualifiedName.eq_of_compare_eq heq]
      simp
    · rw [List.mem_cons, ih, List.mem_cons]
      exact or_left_comm

theorem increasing_insertInto {q : QualifiedName} {qs : List QualifiedName} (h : Increasing qs) :
    Increasing (insertInto q qs) := by
  induction qs with
  | nil => exact List.pairwise_singleton _ _
  | cons y qs ih =>
    obtain ⟨hy, hqs⟩ := List.pairwise_cons.mp h
    unfold insertInto
    split
    · rename_i hlt
      refine List.pairwise_cons.mpr ⟨fun x hx => ?_, h⟩
      rcases List.mem_cons.mp hx with rfl | hx
      · exact hlt
      · exact Std.TransCmp.lt_trans hlt (hy x hx)
    · exact h
    · rename_i hgt
      refine List.pairwise_cons.mpr ⟨fun x hx => ?_, ih hqs⟩
      rcases mem_insertInto.mp hx with rfl | hx
      · exact Std.OrientedCmp.lt_of_gt hgt
      · exact hy x hx

theorem mem_insertAll {s : NameSet} {qs : List QualifiedName} {x : QualifiedName} :
    x ∈ (s.insertAll qs).toList ↔ x ∈ s.toList ∨ x ∈ qs := by
  unfold insertAll
  induction qs generalizing s with
  | nil => simp
  | cons q qs ih =>
    rw [List.foldl_cons, ih, List.mem_cons, insert, mem_insertInto, or_assoc]
    exact or_left_comm

theorem increasing_insertAll {s : NameSet} (h : Increasing s.toList) (qs : List QualifiedName) :
    Increasing (s.insertAll qs).toList := by
  unfold insertAll
  induction qs generalizing s with
  | nil => exact h
  | cons q qs ih => exact ih (increasing_insertInto h)

theorem mem_collect {qs : List QualifiedName} {x : QualifiedName} :
    x ∈ (empty.collect qs).toList ↔ x ∈ qs ∧ x.absolute = true ∧ 2 ≤ x.components.length := by
  unfold collect
  rw [mem_insertAll, List.mem_filter, QualifiedName.isSome_modulePart?_iff]
  simp [empty]

theorem increasing_collect (qs : List QualifiedName) : Increasing (empty.collect qs).toList :=
  increasing_insertAll List.Pairwise.nil _

end NameSet

namespace Source

inductive Expr.Mentions : Expr → QualifiedName → Prop
  | reference (t : TypeName) : Mentions (.reference t) t.name
  | callee {f : Expr} {args : List (Argument Expr)} {q : QualifiedName} (h : Mentions f q) :
      Mentions (.call f args) q
  | argument {f : Expr} {args : List (Argument Expr)} {a : Argument Expr} {q : QualifiedName}
      (place : a ∈ args) (h : Mentions a.value q) : Mentions (.call f args) q
  | unary {op : UnaryOp} {e : Expr} {q : QualifiedName} (h : Mentions e q) : Mentions (.unary op e) q
  | left {op : BinaryOp} {a b : Expr} {q : QualifiedName} (h : Mentions a q) :
      Mentions (.binary op a b) q
  | right {op : BinaryOp} {a b : Expr} {q : QualifiedName} (h : Mentions b q) :
      Mentions (.binary op a b) q
  | cond {c a b : Expr} {q : QualifiedName} (h : Mentions c q) : Mentions (.conditional c a b) q
  | yes {c a b : Expr} {q : QualifiedName} (h : Mentions a q) : Mentions (.conditional c a b) q
  | no {c a b : Expr} {q : QualifiedName} (h : Mentions b q) : Mentions (.conditional c a b) q
  | field {e : Expr} {m : String} {q : QualifiedName} (h : Mentions e q) : Mentions (.field e m) q
  | indexed {e i : Expr} {q : QualifiedName} (h : Mentions e q) : Mentions (.index e i) q
  | position {e i : Expr} {q : QualifiedName} (h : Mentions i q) : Mentions (.index e i) q
  | type {bs : List (Binding Expr)} {e : Expr} {b : Binding Expr} (place : b ∈ bs) :
      Mentions (.letIn bs e) b.type.name
  | init {bs : List (Binding Expr)} {e : Expr} {b : Binding Expr} {q : QualifiedName} (place : b ∈ bs)
      (h : Mentions b.init q) : Mentions (.letIn bs e) q
  | body {bs : List (Binding Expr)} {e : Expr} {q : QualifiedName} (h : Mentions e q) :
      Mentions (.letIn bs e) q

inductive Annotation.Mentions (a : Annotation) : QualifiedName → Prop
  | name : Mentions a a.name
  | argument {x : Argument Expr} {q : QualifiedName} (place : x ∈ a.args) (h : x.value.Mentions q) :
      Mentions a q

inductive ParameterDecl.Mentions (p : ParameterDecl) : QualifiedName → Prop
  | type : Mentions p p.type.name
  | default {e : Expr} {q : QualifiedName} (given : p.default? = some e) (h : e.Mentions q) :
      Mentions p q
  | annotation {block : AnnotationBlock} {a : Annotation} {q : QualifiedName}
      (given : p.annotations = some block) (place : a ∈ block) (h : a.Mentions q) : Mentions p q

inductive FunctionDecl.Mentions (f : FunctionDecl) : QualifiedName → Prop
  | returnType : Mentions f f.returnType.name
  | parameter {p : ParameterDecl} {q : QualifiedName} (place : p ∈ f.parameters) (h : p.Mentions q) :
      Mentions f q
  | body {q : QualifiedName} (h : f.body.Mentions q) : Mentions f q
  | annotation {block : AnnotationBlock} {a : Annotation} {q : QualifiedName}
      (given : f.annotations = some block) (place : a ∈ block) (h : a.Mentions q) : Mentions f q

theorem Expr.mem_bindingNames {q : QualifiedName} {bs : List (Binding Expr)} :
    q ∈ bindingNames bs ↔ ∃ b ∈ bs, q = b.type.name ∨ q ∈ b.init.names := by
  induction bs with
  | nil => simp [bindingNames]
  | cons b rest ih => simp [bindingNames, ih, or_assoc]

theorem Expr.Mentions.mem_names {e : Expr} {q : QualifiedName} (h : e.Mentions q) : q ∈ e.names := by
  induction h with
  | reference t => exact List.mem_cons_self
  | callee h ih => exact List.mem_append_left _ ih
  | argument place h ih => exact List.mem_append_right _ (mem_argumentNames.mpr ⟨_, place, ih⟩)
  | unary h ih | field h ih => exact ih
  | left h ih | indexed h ih => exact List.mem_append_left _ ih
  | right h ih | position h ih => exact List.mem_append_right _ ih
  | cond h ih => exact List.mem_append_left _ (List.mem_append_left _ ih)
  | yes h ih => exact List.mem_append_left _ (List.mem_append_right _ ih)
  | no h ih => exact List.mem_append_right _ ih
  | type place => exact List.mem_append_left _ (mem_bindingNames.mpr ⟨_, place, .inl rfl⟩)
  | init place h ih => exact List.mem_append_left _ (mem_bindingNames.mpr ⟨_, place, .inr ih⟩)
  | body h ih => exact List.mem_append_right _ ih

theorem AnnotationBlock.mem_names {block : AnnotationBlock} {a : Annotation} {q : QualifiedName}
    (place : a ∈ block) (h : a.Mentions q) : q ∈ AnnotationBlock.names block := by
  refine List.mem_flatMap.mpr ⟨a, place, ?_⟩
  cases h with
  | name => exact List.mem_cons_self
  | argument place h =>
    exact List.mem_cons_of_mem _ (Expr.mem_argumentNames.mpr ⟨_, place, h.mem_names⟩)

/-- A module has its imports in front, in order and without repetition, each of them from another module;
and nothing that its functions mention is missing among them. -/
structure Module.WellImported (m : Module) : Prop where
  inFront : m.declarations = m.imports.map .importing ++ m.functions.map .function
  increasing : NameSet.Increasing m.imports
  foreign : ∀ q ∈ m.imports,
    q.absolute = true ∧ 2 ≤ q.components.length ∧ q.modulePart? ≠ some m.ownName
  complete : ∀ f ∈ m.functions, ∀ q, f.Mentions q → q.absolute = true → 2 ≤ q.components.length →
    q.modulePart? ≠ some m.ownName → q ∈ m.imports

namespace Module

variable {m : Module} {qs : List QualifiedName} {fs : List FunctionDecl}

theorem imports_of_inFront (h : m.declarations = qs.map .importing ++ fs.map .function) :
    m.imports = qs := by
  unfold imports
  rw [h, List.filterMap_append, List.filterMap_map, List.filterMap_map]
  show qs.filterMap some ++ fs.filterMap (fun _ => none) = qs
  simp

theorem functions_of_inFront (h : m.declarations = qs.map .importing ++ fs.map .function) :
    m.functions = fs := by
  unfold functions
  rw [h, List.filterMap_append, List.filterMap_map, List.filterMap_map]
  show qs.filterMap (fun _ => none) ++ fs.filterMap some = fs
  simp

theorem withImports_of_functions (h : m.declarations = fs.map .function) (s : NameSet) :
    (m.withImports s).declarations =
      (s.toList.filter fun q => q.modulePart? ≠ some m.ownName).map .importing ++ fs.map .function := by
  rw [withImports, h]

theorem wellImported_withImports (h : m.declarations = fs.map .function) {names : List QualifiedName}
    (hnames : ∀ f ∈ fs, ∀ q, f.Mentions q → q.absolute = true → q ∈ names) :
    (m.withImports (NameSet.empty.collect names)).WellImported := by
  have hdeclarations := withImports_of_functions h (NameSet.empty.collect names)
  have himports := imports_of_inFront hdeclarations
  have hfunctions := functions_of_inFront hdeclarations
  refine ⟨?inFront, ?increasing, ?foreign, ?complete⟩
  case inFront => rw [himports, hfunctions, hdeclarations]
  case increasing =>
    rw [himports]
    exact (NameSet.increasing_collect names).filter _
  case foreign =>
    intro q hq
    rw [himports, List.mem_filter, NameSet.mem_collect, decide_eq_true_iff] at hq
    exact ⟨hq.1.2.1, hq.1.2.2, hq.2⟩
  case complete =>
    intro f hf q hq habsolute hlength hforeign
    rw [hfunctions] at hf
    rw [himports, List.mem_filter, NameSet.mem_collect, decide_eq_true_iff]
    exact ⟨⟨hnames f hf q hq habsolute, habsolute, hlength⟩, hforeign⟩

end Module

end Source

end MaterialModules
