import MaterialModules.Proofs.Language.Fits
import MaterialModules.Registry.Overloads
import MaterialModules.Synthesis.Variant
import Mathlib.Data.List.Forall2

set_option autoImplicit false

namespace MaterialModules

section Lists

variable {α β : Type} {R : α → β → Prop} {p : α → Bool} {q : β → Bool} {xs : List α} {ys : List β}

theorem rel_find? (h : List.Forall₂ R xs ys) (hpq : ∀ x y, R x y → p x = q y) :
    Option.Rel R (xs.find? p) (ys.find? q) := by
  induction h with
  | nil => exact .none
  | @cons x y xs ys hxy _ ih =>
    rw [List.find?_cons, List.find?_cons, hpq x y hxy]
    cases q y with
    | true => exact .some hxy
    | false => exact ih

theorem all_eq_all (h : List.Forall₂ R xs ys) (hpq : ∀ x y, R x y → p x = q y) : xs.all p = ys.all q := by
  induction h with
  | nil => rfl
  | @cons x y xs ys hxy _ ih => rw [List.all_cons, List.all_cons, hpq x y hxy, ih]

end Lists

def Arguments.Alike (as bs : Arguments) : Prop :=
  List.Forall₂ (fun a b => a.1 = b.1 ∧ a.2.type.Alike b.2.type) as bs

structure Parameter.Alike (p q : Parameter) : Prop where
  name : p.name = q.name
  type : p.type.Alike q.type
  optional : p.default?.isSome = q.default?.isSome

structure Definition.Alike (d e : Definition) : Prop where
  kind : d.kind = e.kind
  parameters : List.Forall₂ Parameter.Alike d.parameters e.parameters

def AnnotationDefinition.Alike (d e : AnnotationDefinition) : Prop :=
  List.Forall₂ (fun p q => p.1 = q.1 ∧ p.2.Alike q.2) d.parameters e.parameters

/-- The functions of a module have alike definitions, or none, in both registries. -/
def Registry.DefinesAlike (r s : Registry) (m : ModuleRecord) : Prop :=
  ∀ f ∈ m.functions,
    Option.Rel Definition.Alike ((r.tag? f).bind r.definition?) ((s.tag? f).bind s.definition?)

variable {as bs : Arguments} {d e : Definition}

theorem Arguments.Alike.isSome_get? (h : as.Alike bs) (n : String) :
    (as.get? n).isSome = (bs.get? n).isSome := by
  induction h with
  | nil => rfl
  | @cons a b _ _ hab _ ih =>
    obtain ⟨m, x⟩ := a
    obtain ⟨m', y⟩ := b
    obtain rfl : m = m' := hab.1
    by_cases hm : m = n
    · simp [get?, hm]
    · simpa [get?, hm] using ih

theorem Definition.Alike.rel_parameter? (h : d.Alike e) (n : String) :
    Option.Rel Parameter.Alike (d.parameter? n) (e.parameter? n) :=
  rel_find? h.parameters fun p q hpq => by rw [hpq.name]

theorem Definition.Alike.accepts_eq (hd : d.Alike e) (h : as.Alike bs) :
    Registry.accepts d as = Registry.accepts e bs := by
  have hfits : ∀ a b : String × Expression, a.1 = b.1 ∧ a.2.type.Alike b.2.type →
      (d.parameter? a.1).any (fun p => a.2.type.fits p.type) =
        (e.parameter? b.1).any fun p => b.2.type.fits p.type := by
    intro a b hab
    have hparameter := hd.rel_parameter? a.1
    rw [← hab.1]
    generalize d.parameter? a.1 = p, e.parameter? a.1 = q at hparameter ⊢
    cases hparameter with
    | none => rfl
    | some hpq => exact hab.2.fits_eq hpq.type
  have hsupplied : ∀ p q : Parameter, p.Alike q →
      (p.default?.isSome || (as.get? p.name).isSome) = (q.default?.isSome || (bs.get? q.name).isSome) :=
    fun p q hpq => by rw [hpq.optional, hpq.name, h.isSome_get?]
  exact congrArg₂ (· && ·) (all_eq_all h hfits) (all_eq_all hd.parameters hsupplied)

theorem Registry.DefinesAlike.overloads_eq {r s : Registry} {m : ModuleRecord} (hr : r.DefinesAlike s m)
    (name : String) (h : as.Alike bs) : r.overloads m name (some as) = s.overloads m name (some bs) := by
  refine List.filter_congr fun f hf => congrArg _ ?_
  have hdefined := hr f hf
  simp only
  generalize (r.tag? f).bind r.definition? = d, (s.tag? f).bind s.definition? = e at hdefined ⊢
  cases hdefined with
  | none => rfl
  | some hd => simp only [hd.kind, hd.accepts_eq h]

theorem Definition.Alike.checkOverrides_eq (hd : d.Alike e) (h : as.Alike bs) :
    d.checkOverrides as = e.checkOverrides bs := by
  induction h with
  | nil => rfl
  | @cons a b _ _ hab _ ih =>
    have hparameter := hd.rel_parameter? a.1
    unfold checkOverrides
    rw [← hab.1]
    generalize d.parameter? a.1 = p, e.parameter? a.1 = q at hparameter ⊢
    cases hparameter with
    | none => rfl
    | some hpq => simp only [hab.2.fits_eq hpq.type, ih]

/-- A value is converted alike to alike types. -/
theorem Ty.Alike.convert?_eq {s t : Ty} (h : s.Alike t) (v : Value) : v.convert? s = v.convert? t := by
  obtain ⟨k, q⟩ := s
  obtain ⟨k', q'⟩ := t
  have hfits : v.type.fits (Ty.unqualified ⟨k, q⟩) = v.type.fits (Ty.unqualified ⟨k', q'⟩) :=
    (Ty.Alike.refl v.type).fits_eq ⟨rfl, h.kind⟩
  rcases h.kind.eq_or_array with hkind | ⟨elem, p, p', size, hk, hk'⟩
  · obtain rfl : k = k' := hkind
    rfl
  · obtain rfl : k = .array elem p size := hk
    obtain rfl : k' = .array elem p' size := hk'
    simp only [Value.convert?, hfits]

theorem Value.convert?_array (elem : Ty) (items : List Value) (t : Ty) :
    (array elem items).convert? t =
      if (array elem items).type.fits t.unqualified then some (array elem items) else none := by
  cases t with
  | mk kind qualifiers => cases kind <;> rfl

variable {f g : AnnotationDefinition}

theorem AnnotationDefinition.Alike.rel_parameterType? (h : f.Alike g) (n : String) :
    Option.Rel Ty.Alike (f.parameterType? n) (g.parameterType? n) := by
  have hfound : Option.Rel (fun p q => p.1 = q.1 ∧ p.2.Alike q.2) (f.parameters.find? (·.1 = n))
      (g.parameters.find? (·.1 = n)) := rel_find? h fun p q hpq => by rw [hpq.1]
  unfold parameterType?
  generalize f.parameters.find? (·.1 = n) = p, g.parameters.find? (·.1 = n) = q at hfound ⊢
  cases hfound with
  | none => exact .none
  | some hpq => exact .some hpq.2

theorem AnnotationDefinition.Alike.parameterName_eq (h : f.Alike g) (a : Annotation) (n : String)
    (v : Value) : a.parameterName f n v = a.parameterName g n v := by
  unfold AnnotationDefinition.Alike at h
  unfold Annotation.parameterName
  generalize f.parameters = ps, g.parameters = qs at h ⊢
  cases h with
  | nil => rfl
  | @cons p q _ _ hpq hrest =>
    cases hrest with
    | nil =>
      obtain ⟨m, s⟩ := p
      obtain ⟨m', t⟩ := q
      obtain rfl : m = m' := hpq.1
      by_cases hn : n = "argument"
      · subst hn
        rcases a.arguments with _ | ⟨x, _ | ⟨y, rest⟩⟩ <;> cases v <;> rfl
      · simp [hn]
    | cons => simp

theorem AnnotationDefinition.Alike.annotationArgument_eq (h : f.Alike g) (r : Registry) (a : Annotation)
    (n : String) (e : Expression) : r.annotationArgument a f n e = r.annotationArgument a g n e := by
  unfold Registry.annotationArgument
  cases e with
  | constant _ _ v =>
    have htype := h.rel_parameterType? (a.parameterName g n v)
    simp only [h.parameterName_eq]
    generalize f.parameterType? (a.parameterName g n v) = s, g.parameterType? (a.parameterName g n v) = t
      at htype ⊢
    cases htype with
    | none => rfl
    | some hst => simp only [Option.bind_some, hst.convert?_eq]
  | _ => rfl

namespace Registry

theorem annotationArgument_array (r : Registry) (a : Annotation) (d : AnnotationDefinition) (n : String)
    (l : Nat) (t : Ty) (k : Kind) (q q' : Qualifiers) (items : List Value) :
    r.annotationArgument a d n (.constant l t (.array ⟨k, q⟩ items)) =
      r.annotationArgument a d n (.constant l t (.array ⟨k, q'⟩ items)) := by
  have halike : (Value.array ⟨k, q⟩ items).type.Alike (Value.array ⟨k, q'⟩ items).type := ⟨rfl, ⟨rfl, rfl⟩⟩
  have hname : a.parameterName d n (.array ⟨k, q⟩ items) = a.parameterName d n (.array ⟨k, q'⟩ items) := by
    unfold Annotation.parameterName
    simp
  have hsource : r.valueSource (.array ⟨k, q⟩ items) = r.valueSource (.array ⟨k, q'⟩ items) := rfl
  simp only [annotationArgument, hname]
  cases d.parameterType? (a.parameterName d n (.array ⟨k, q'⟩ items)) with
  | none => rfl
  | some p =>
    simp only [Option.bind_some, Value.convert?_array, halike.fits_eq (.refl p.unqualified)]
    by_cases hfits : (Value.array ⟨k, q'⟩ items).type.fits p.unqualified = true
    · simp only [hfits, if_true, hsource]
    · simp only [if_neg hfits]

/-- Qualifiers of elements are ignored wherever arguments are held against parameters: the outermost
ones, whoever has them. Those further inside have to be the same on both sides. -/
theorem accepts_up_to_inner_qualifiers (t e : Ty) :
    t.fits e = (!(e.isUniform && t.isVarying) &&
      (t.erased.fits e.erased && decide (t.kind.innerQualifiers = e.kind.innerQualifiers))) ∧
    (t.fits e = (!(e.isUniform && t.isVarying) && t.erased.fits e.erased) ↔
      ((e.isUniform && t.isVarying) = false → t.erased.fits e.erased = true →
        t.kind.innerQualifiers = e.kind.innerQualifiers)) ∧
    (∀ s : Ty, (∀ f, s.fits f = t.fits f) ↔ s.isVarying = t.isVarying ∧ s.kind.Alike t.kind) ∧
    (∀ f : Ty, (∀ s : Ty, s.fits e = s.fits f) ↔ e.isUniform = f.isUniform ∧ e.kind.Alike f.kind) ∧
    (∀ (r s : Registry) (m : ModuleRecord), r.DefinesAlike s m → ∀ (name : String) (as bs : Arguments),
      as.Alike bs → r.overloads m name (some as) = s.overloads m name (some bs)) ∧
    (∀ d d' : Definition, d.Alike d' → ∀ as bs : Arguments, as.Alike bs →
      d.checkOverrides as = d'.checkOverrides bs) ∧
    (∀ f g : AnnotationDefinition, f.Alike g → ∀ (r : Registry) (a : Annotation) (n : String) (x : Expression),
      r.annotationArgument a f n x = r.annotationArgument a g n x) ∧
    ∀ (r : Registry) (a : Annotation) (f : AnnotationDefinition) (n : String) (l : Nat) (k : Kind)
      (q q' : Qualifiers) (items : List Value),
      r.annotationArgument a f n (.constant l t (.array ⟨k, q⟩ items)) =
        r.annotationArgument a f n (.constant l t (.array ⟨k, q'⟩ items)) := by
  refine ⟨Ty.fits_eq_erased t e, ?_, fun _ => Ty.forall_fits_eq_iff, fun _ => Ty.forall_fits_expected_eq_iff,
    fun _ _ _ hr name _ _ h => hr.overloads_eq name h, fun _ _ hd _ _ h => hd.checkOverrides_eq h,
    fun _ _ hf r a n x => hf.annotationArgument_eq r a n x,
    fun r a f n l k q q' items => annotationArgument_array r a f n l t k q q' items⟩
  rw [Ty.fits_eq_erased]
  cases e.isUniform && t.isVarying <;> cases t.erased.fits e.erased <;> simp

def rows (outer inner : Qualifiers) : Ty := ⟨.array (.array .int inner (some 2)) outer (some 3), {}⟩

def sumOfRows (outer inner : Qualifiers) : Definition where
  kind := .function
  module := ⟨1⟩
  name := "::m::sum(int[2][3])"
  parameters := [⟨"rows", rows outer inner, none, none⟩]
  returnType := ⟨.int, {}⟩

def sumRegistered (outer : Qualifiers) : Registry :=
  empty.add ⟨"mdl::m::sum(int[2][3])", .definition (sumOfRows outer {}), .browsable⟩

def sumModule : ModuleRecord where
  name := "::m"
  filename := none
  archive := none
  version := .oldest
  standard := false
  imports := []
  types := []
  constants := []
  annotations := none
  annotationDefinitions := []
  functions := ["mdl::m::sum(int[2][3])"]
  materials := []
  resources := []
  compiled := { name := "::m" }

def rowsGiven (outer inner : Qualifiers) : Arguments := [("rows", .temporary 0 (rows outer inner) 0)]

def uniformly : Qualifiers := ⟨true, false⟩

theorem accepts_uniform_rows :
    (rows uniformly {}).fits (rows {} {}) = true ∧
    (sumRegistered {}).overloads sumModule "mdl::m::sum" (some (rowsGiven uniformly {})) =
      ["mdl::m::sum(int[2][3])"] ∧
    (sumRegistered uniformly).overloads sumModule "mdl::m::sum" (some (rowsGiven {} {})) =
      ["mdl::m::sum(int[2][3])"] ∧
    (sumOfRows {} {}).checkOverrides (rowsGiven uniformly {}) =
      (sumOfRows uniformly {}).checkOverrides (rowsGiven {} {}) := by
  obtain ⟨hfits, -, -, -, hoverloads, hoverrides, -⟩ :=
    accepts_up_to_inner_qualifiers (rows uniformly {}) (rows {} {})
  have hrows : (rows {} {}).Alike (rows uniformly {}) := ⟨rfl, ⟨rfl, rfl⟩⟩
  have hgiven : (rowsGiven uniformly {}).Alike (rowsGiven {} {}) :=
    .cons ⟨rfl, ⟨rfl, ⟨rfl, rfl⟩⟩⟩ .nil
  have hsum : (sumOfRows {} {}).Alike (sumOfRows uniformly {}) := ⟨rfl, .cons ⟨rfl, hrows, rfl⟩ .nil⟩
  have hregistered : (sumRegistered {}).DefinesAlike (sumRegistered uniformly) sumModule := by
    intro f hf
    obtain rfl := List.mem_singleton.mp hf
    exact .some hsum
  have hfound : (sumRegistered uniformly).overloads sumModule "mdl::m::sum" (some (rowsGiven {} {})) =
      ["mdl::m::sum(int[2][3])"] := by decide +kernel
  exact ⟨hfits.trans (by decide), (hoverloads _ _ _ hregistered _ _ _ hgiven).trans hfound, hfound, hoverrides _ _ hsum _ _ hgiven⟩

/-- Uniform numbers inside the rows do not fit plain ones, nor are they found, set or converted. -/
theorem inner_qualifiers_count :
    (rows {} uniformly).erased.fits (rows {} {}).erased = true ∧
    (rows {} uniformly).fits (rows {} {}) = false ∧
    (sumRegistered {}).overloads sumModule "mdl::m::sum" (some (rowsGiven {} uniformly)) = [] ∧
    (sumOfRows {} {}).checkOverrides (rowsGiven {} uniformly) = .error (.typeMismatch "rows") ∧
    (sumOfRows {} {}).checkOverrides (rowsGiven {} {}) = .ok () ∧
    (Value.array ⟨.array .int uniformly (some 2), {}⟩ []).convert? ⟨.array (.array .int {} (some 2)) {} none, {}⟩
      = none ∧
    ¬∀ t e : Ty, t.fits e = (!(e.isUniform && t.isVarying) && t.erased.fits e.erased) := by
  refine ⟨rfl, by decide, by decide +kernel, by decide, by decide, by decide +kernel, fun hclaim => ?_⟩
  exact absurd (hclaim (rows {} uniformly) (rows {} {})) (by decide)

end Registry

end MaterialModules
