import MaterialModules.Call.Demand
import Mathlib.Logic.Relation

set_option autoImplicit false

namespace MaterialModules

/-- A uniform argument is required. `ofAll` says that the call requires it wherever it may; an argument
without a parameter is neither declared uniform nor allowed to vary. -/
def Definition.Requires (f : Definition) (ofAll : Prop) (name : String) (index : Nat) : Prop :=
  (f.semantic = .operator .ternary ∧ index = 0) ∨
    ((∀ p, f.parameterFor name index = some p → p.type.isVarying = false) ∧
      (ofAll ∨ ∃ p, f.parameterFor name index = some p ∧ p.type.isUniform = true))

theorem Definition.argumentRequired_iff (f : Definition) (ofAll : Bool) (name : String) (index : Nat) :
    f.argumentRequired ofAll name index = true ↔ f.Requires (ofAll = true) name index := by
  unfold argumentRequired Requires
  by_cases hternary : f.semantic = .operator .ternary ∧ index = 0
  · simp [Semantic.isTernary, hternary]
  · rw [if_neg (by simpa [Semantic.isTernary] using hternary)]
    cases f.parameterFor name index with
    | none => simp [hternary]
    | some p => simp [hternary]

namespace Registry

inductive FunctionCall (r : Registry) : Expression → Definition → Arguments → Prop
  | stored {l : Nat} {ty : Ty} {t : Tag} {c : StoredCall} {f : Definition}
      (call : r.call? t = some c) (kind : c.kind = .function)
      (definition : r.definition? c.definition = some f) :
      FunctionCall r (.call l ty t) f c.arguments
  | direct {l : Nat} {ty : Ty} {t : Tag} {args : Arguments} {f : Definition}
      (definition : r.definition? t = some f) (kind : f.kind = .function) :
      FunctionCall r (.direct l ty t args) f args

/-- The demand on an argument that follows from the demand on a function call. A call that has to be
uniform, and is not so by its type, requires it of all arguments. -/
inductive Follows (r : Registry) : Demand → Demand → Prop
  | argument {e x : Expression} {f : Definition} {args : Arguments} {uniform required : Bool}
      {n : String} {i : Nat} (call : r.FunctionCall e f args) (place : args[i]? = some (n, x))
      (requires : required = true ↔ f.Requires (uniform = true ∧ e.type.isUniform = false) n i) :
      Follows r ⟨e, uniform⟩ ⟨x, required⟩

def Reach (r : Registry) : Demand → Demand → Prop := Relation.ReflTransGen r.Follows

/-- A demand that cannot be met, and why. -/
inductive Fault (r : Registry) : Demand → UniformError → Prop
  | parameter (l : Nat) (ty : Ty) (i : Nat) (uniform : Bool) :
      Fault r ⟨.parameter l ty i, uniform⟩ (.internal (.unexpected .parameter))
  | temporary (l : Nat) (ty : Ty) (i : Nat) (uniform : Bool) :
      Fault r ⟨.temporary l ty i, uniform⟩ (.internal (.unexpected .temporary))
  | notACall {l : Nat} {ty : Ty} {t : Tag} {uniform : Bool} (missing : r.call? t = none) :
      Fault r ⟨.call l ty t, uniform⟩ (.internal (.notACall t))
  | storedWithoutDefinition {l : Nat} {ty : Ty} {t : Tag} {c : StoredCall} {uniform : Bool}
      (call : r.call? t = some c) (kind : c.kind = .function)
      (missing : r.definition? c.definition = none) :
      Fault r ⟨.call l ty t, uniform⟩ (.internal (.missingDefinition c.definition))
  | materialInstance {l : Nat} {ty : Ty} {t : Tag} {c : StoredCall} (call : r.call? t = some c)
      (kind : c.kind = .material) : Fault r ⟨.call l ty t, true⟩ (.conflict .material)
  | directWithoutDefinition {l : Nat} {ty : Ty} {t : Tag} {args : Arguments} {uniform : Bool}
      (missing : r.definition? t = none) :
      Fault r ⟨.direct l ty t args, uniform⟩ (.internal (.missingDefinition t))
  | directMaterial {l : Nat} {ty : Ty} {t : Tag} {args : Arguments} {f : Definition} {uniform : Bool}
      (definition : r.definition? t = some f) (kind : f.kind = .material) :
      Fault r ⟨.direct l ty t args, uniform⟩ (.conflict .material)
  | notUniform {e : Expression} {f : Definition} {args : Arguments} (call : r.FunctionCall e f args)
      (type : e.type.isUniform = false) (function : f.isUniformFunction = false) :
      Fault r ⟨e, true⟩ (.conflict (.notUniform f.plainName))

theorem FunctionCall.demandsOf_eq {r : Registry} {e : Expression} {f : Definition} {args : Arguments}
    (h : r.FunctionCall e f args) (uniform : Bool) :
    r.demandsOf ⟨e, uniform⟩ = f.demands e.type uniform args := by
  cases h with
  | stored call kind definition => simp only [demandsOf, call, kind, definition, Expression.type]
  | direct definition kind =>
    have hkind : f.isMaterial = false := by simp [Definition.isMaterial, kind]
    simp only [demandsOf, definition, hkind, Expression.type]
    rfl

theorem expression_cases (r : Registry) (e : Expression) :
    (∃ l ty v, e = .constant l ty v) ∨
    (∃ f args, r.FunctionCall e f args) ∨
    (∃ l ty t c, e = .call l ty t ∧ r.call? t = some c ∧ c.kind = .material) ∨
    ∃ err, ∀ uniform, r.Fault ⟨e, uniform⟩ err := by
  cases e with
  | constant l ty v => exact .inl ⟨l, ty, v, rfl⟩
  | parameter l ty i => exact .inr (.inr (.inr ⟨_, fun uniform => .parameter l ty i uniform⟩))
  | temporary l ty i => exact .inr (.inr (.inr ⟨_, fun uniform => .temporary l ty i uniform⟩))
  | call l ty t =>
    cases hc : r.call? t with
    | none => exact .inr (.inr (.inr ⟨_, fun _ => .notACall hc⟩))
    | some c =>
      cases hk : c.kind with
      | material => exact .inr (.inr (.inl ⟨l, ty, t, c, rfl, hc, hk⟩))
      | function =>
        cases hd : r.definition? c.definition with
        | none => exact .inr (.inr (.inr ⟨_, fun _ => .storedWithoutDefinition hc hk hd⟩))
        | some f => exact .inr (.inl ⟨f, c.arguments, .stored hc hk hd⟩)
  | direct l ty t args =>
    cases hd : r.definition? t with
    | none => exact .inr (.inr (.inr ⟨_, fun _ => .directWithoutDefinition hd⟩))
    | some f =>
      cases hk : f.kind with
      | function => exact .inr (.inl ⟨f, args, .direct hd hk⟩)
      | material => exact .inr (.inr (.inr ⟨_, fun _ => .directMaterial hd hk⟩))

theorem Fault.demandsOf_eq {r : Registry} {d : Demand} {err : UniformError} (h : r.Fault d err) :
    r.demandsOf d = .error err := by
  cases h with
  | parameter l ty i uniform | temporary l ty i uniform => rfl
  | notACall missing => simp only [demandsOf, missing]
  | storedWithoutDefinition call kind missing => simp only [demandsOf, call, kind, missing]
  | materialInstance call kind => simp [demandsOf, call, kind]
  | directWithoutDefinition missing => simp only [demandsOf, missing]
  | directMaterial definition kind => simp [demandsOf, definition, Definition.isMaterial, kind]
  | notUniform call type function =>
    rw [call.demandsOf_eq, Definition.demands]
    simp [type, function]

theorem FunctionCall.demandsOf_cases {r : Registry} {e : Expression} {f : Definition}
    {args : Arguments} (h : r.FunctionCall e f args) (uniform : Bool) :
    (∃ err, r.Fault ⟨e, uniform⟩ err ∧ r.demandsOf ⟨e, uniform⟩ = .error err) ∨
      r.demandsOf ⟨e, uniform⟩ =
        .ok (args.mapIdx fun i (n, x) =>
          ⟨x, f.argumentRequired (uniform && !e.type.isUniform) n i⟩) := by
  rw [h.demandsOf_eq, Definition.demands]
  by_cases hconflict : (uniform && !e.type.isUniform && !f.isUniformFunction) = true
  · simp only [Bool.and_eq_true, Bool.not_eq_true'] at hconflict
    obtain ⟨⟨rfl, htype⟩, hfunction⟩ := hconflict
    exact .inl ⟨_, .notUniform h htype hfunction, by simp [htype, hfunction]⟩
  · exact .inr (if_neg hconflict)

theorem demandsOf_eq_error_iff {r : Registry} {d : Demand} {err : UniformError} :
    r.demandsOf d = .error err ↔ r.Fault d err := by
  refine ⟨fun h => ?_, Fault.demandsOf_eq⟩
  obtain ⟨e, uniform⟩ := d
  rcases r.expression_cases e with
    ⟨l, ty, v, rfl⟩ | ⟨f, args, hf⟩ | ⟨l, ty, t, c, rfl, hc, hk⟩ | ⟨err', hfault⟩
  · cases h
  · rcases hf.demandsOf_cases uniform with ⟨err', hfault, herr⟩ | hok
    · rw [h] at herr
      cases herr
      exact hfault
    · rw [h] at hok
      cases hok
  · cases uniform with
    | false => simp [demandsOf, hc, hk] at h
    | true =>
      have hfault : r.Fault ⟨.call l ty t, true⟩ _ := .materialInstance hc hk
      rw [hfault.demandsOf_eq] at h
      cases h
      exact hfault
  · have := (hfault uniform).demandsOf_eq
    rw [h] at this
    cases this
    exact hfault uniform

theorem mem_demandsOf_iff {r : Registry} {d x : Demand} {ds : List Demand}
    (h : r.demandsOf d = .ok ds) : x ∈ ds ↔ r.Follows d x := by
  obtain ⟨e, uniform⟩ := d
  have hcall : ∀ {f args}, r.FunctionCall e f args →
      ds = args.mapIdx fun i (n, x) => ⟨x, f.argumentRequired (uniform && !e.type.isUniform) n i⟩ := by
    intro f args hf
    rcases hf.demandsOf_cases uniform with ⟨err, -, herr⟩ | hok
    · rw [h] at herr
      cases herr
    · rw [h] at hok
      cases hok
      rfl
  have hrequires : ∀ (f : Definition) (n : String) (i : Nat),
      f.argumentRequired (uniform && !e.type.isUniform) n i = true ↔
        f.Requires (uniform = true ∧ e.type.isUniform = false) n i := by
    intro f n i
    rw [f.argumentRequired_iff]
    simp
  constructor
  · intro hx
    rcases r.expression_cases e with
      ⟨l, ty, v, rfl⟩ | ⟨f, args, hf⟩ | ⟨l, ty, t, c, rfl, hc, hk⟩ | ⟨err, hfault⟩
    · cases h
      cases hx
    · rw [hcall hf] at hx
      obtain ⟨i, hi, rfl⟩ := List.mem_mapIdx.mp hx
      exact .argument hf (List.getElem?_eq_getElem hi) (hrequires f _ i)
    · cases uniform with
      | false =>
        simp only [demandsOf, hc, hk] at h
        cases h
        cases hx
      | true =>
        rw [Fault.demandsOf_eq (.materialInstance hc hk)] at h
        cases h
    · rw [(hfault uniform).demandsOf_eq] at h
      cases h
  · intro hx
    cases hx with
    | @argument _ y f args _ required n i hf place requires =>
      rw [hcall hf]
      obtain ⟨hi, hplace⟩ := List.getElem?_eq_some_iff.mp place
      refine List.mem_mapIdx.mpr ⟨i, hi, ?_⟩
      have : required = f.argumentRequired (uniform && !e.type.isUniform) n i :=
        Bool.eq_iff_iff.mpr (requires.trans (hrequires f n i).symm)
      rw [hplace, this]

end Registry

end MaterialModules
