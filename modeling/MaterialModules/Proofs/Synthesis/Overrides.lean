import MaterialModules.Proofs.Synthesis.Operands
import MaterialModules.Synthesis.Variant

set_option autoImplicit false

namespace MaterialModules

def Definition.Accepts (d : Definition) (overrides : Arguments) : Prop :=
  ∀ n e, (n, e) ∈ overrides → ∃ p, d.parameter? n = some p ∧ e.type.fits p.type = true

theorem Definition.checkOverrides_ok_iff {d : Definition} {overrides : Arguments} :
    d.checkOverrides overrides = .ok () ↔ d.Accepts overrides := by
  induction overrides with
  | nil => simp [checkOverrides, Accepts]
  | cons a rest ih =>
    obtain ⟨n, e⟩ := a
    have hcons : d.Accepts ((n, e) :: rest) ↔
        (∃ p, d.parameter? n = some p ∧ e.type.fits p.type = true) ∧ d.Accepts rest := by
      simp only [Accepts, List.mem_cons, Prod.mk.injEq]
      constructor
      · intro h
        exact ⟨h n e (.inl ⟨rfl, rfl⟩), fun m x hx => h m x (.inr hx)⟩
      · rintro ⟨hhead, hrest⟩ m x (⟨rfl, rfl⟩ | hx)
        · exact hhead
        · exact hrest m x hx
    rw [hcons, checkOverrides]
    cases hp : d.parameter? n with
    | none => simp
    | some p =>
      by_cases hfits : e.type.fits p.type = true
      · simp [hfits, ih]
      · simp [hfits]

theorem Definition.mem_of_parameter? {d : Definition} {n : String} {p : Parameter}
    (h : d.parameter? n = some p) : p ∈ d.parameters ∧ p.name = n := by
  unfold parameter? at h
  exact ⟨List.mem_of_find?_eq_some h, by simpa using List.find?_some h⟩

theorem Definition.Accepts.perm {d : Definition} {overrides order : Arguments}
    (h : d.Accepts overrides) (horder : overrides.Perm order) : d.Accepts order := fun n e he =>
  h n e (horder.mem_iff.mpr he)

theorem Arguments.get?_perm {overrides order : Arguments} (hnames : (overrides.map (·.1)).Nodup)
    (horder : overrides.Perm order) (n : String) : overrides.get? n = order.get? n := by
  have hnames' : (order.map (·.1)).Nodup := (horder.map _).nodup_iff.mp hnames
  refine Option.ext fun e => ⟨fun h => ?_, fun h => ?_⟩
  · exact get?_of_mem hnames' (horder.mem_iff.mp (mem_of_get? h))
  · exact get?_of_mem hnames (horder.mem_iff.mpr (mem_of_get? h))

def Definition.overridden (d : Definition) (overrides : Arguments) : List Parameter :=
  d.parameters.filter fun p => (overrides.get? p.name).isSome

theorem Definition.mem_overridden_iff {d : Definition} {overrides : Arguments} {p : Parameter} :
    p ∈ d.overridden overrides ↔ p ∈ d.parameters ∧ ∃ e, overrides.get? p.name = some e := by
  rw [overridden, List.mem_filter, Option.isSome_iff_exists]

theorem Definition.Accepts.names_overridden {d : Definition} {overrides : Arguments}
    (h : d.Accepts overrides) (hoverrides : (overrides.map (·.1)).Nodup)
    (hparameters : (d.parameters.map (·.name)).Nodup) :
    ((d.overridden overrides).map (·.name)).Perm (overrides.map (·.1)) := by
  have hdistinct : ((d.overridden overrides).map (·.name)).Nodup :=
    hparameters.sublist (List.filter_sublist.map _)
  refine (List.perm_ext_iff_of_nodup hdistinct hoverrides).mpr fun n => ⟨fun hn => ?_, fun hn => ?_⟩
  · obtain ⟨p, hp, rfl⟩ := List.mem_map.mp hn
    obtain ⟨-, e, he⟩ := mem_overridden_iff.mp hp
    exact List.mem_map.mpr ⟨_, Arguments.mem_of_get? he, rfl⟩
  · obtain ⟨⟨n, e⟩, he, rfl⟩ := List.mem_map.mp hn
    obtain ⟨p, hp, -⟩ := h n e he
    obtain ⟨hmem, rfl⟩ := mem_of_parameter? hp
    have hget := Arguments.get?_of_mem hoverrides he
    exact List.mem_map.mpr ⟨p, mem_overridden_iff.mpr ⟨hmem, e, hget⟩, rfl⟩

namespace Registry

variable {r : Registry} {overrides : Arguments}

def WritesOverride (r : Registry) (overrides : Arguments) (p : Parameter)
    (a : String × Source.Expr) : Prop :=
  a.1 = p.name ∧ ∃ e, overrides.get? p.name = some e ∧ (r.source [] e).result = .ok a.2

theorem forall₂_of_overrideSources {ps : List Parameter} {args : List (String × Source.Expr)}
    (h : (r.overrideSources overrides ps).result = .ok args) :
    List.Forall₂ (r.WritesOverride overrides)
      (ps.filter fun p => (overrides.get? p.name).isSome) args := by
  induction ps generalizing args with
  | nil =>
    cases h
    exact .nil
  | cons p ps ih =>
    unfold overrideSources at h
    cases he : overrides.get? p.name with
    | none =>
      simp only [he] at h
      rw [List.filter_cons_of_neg (by simp [he])]
      exact ih h
    | some e =>
      simp only [he] at h
      obtain ⟨x, hx, h⟩ := Mentioning.bind_ok h
      obtain ⟨xs, hxs, h⟩ := Mentioning.bind_ok h
      cases h
      rw [List.filter_cons_of_pos (by simp [he])]
      exact .cons ⟨rfl, e, he, hx⟩ (ih hxs)

theorem overrideSources_ok (ps : List Parameter)
    (h : ∀ p ∈ ps, ∀ e, overrides.get? p.name = some e → ∃ x, (r.source [] e).result = .ok x) :
    ∃ args, (r.overrideSources overrides ps).result = .ok args := by
  induction ps with
  | nil => exact ⟨[], rfl⟩
  | cons p ps ih =>
    obtain ⟨xs, hxs⟩ := ih fun q hq => h q (List.mem_cons_of_mem _ hq)
    unfold overrideSources
    cases he : overrides.get? p.name with
    | none => exact ⟨xs, hxs⟩
    | some e =>
      obtain ⟨x, hx⟩ := h p List.mem_cons_self e he
      refine ⟨(p.name, x) :: xs, ?_⟩
      simp only [Mentioning.result_bind, hx, hxs]
      rfl

theorem overrideSources_congr {order : Arguments} (h : ∀ n, overrides.get? n = order.get? n)
    (ps : List Parameter) : r.overrideSources overrides ps = r.overrideSources order ps := by
  induction ps with
  | nil => rfl
  | cons p ps ih => simp only [overrideSources, h, ih]

/-- Arguments that carry overrides: each of them once and as source, in the order of the parameters. -/
structure Carries (r : Registry) (overrides : Arguments) (base : Definition)
    (args : List (String × Source.Expr)) : Prop where
  ordered : (args.map (·.1)).Sublist (base.parameters.map (·.name))
  complete : (args.map (·.1)).Perm (overrides.map (·.1))
  converted : ∀ n x, (n, x) ∈ args → ∃ e, (n, e) ∈ overrides ∧ (r.source [] e).result = .ok x

theorem carries_of_overrideSources {base : Definition} {args : List (String × Source.Expr)}
    (h : (r.overrideSources overrides base.parameters).result = .ok args)
    (haccepts : base.Accepts overrides) (hoverrides : (overrides.map (·.1)).Nodup)
    (hparameters : (base.parameters.map (·.name)).Nodup) : r.Carries overrides base args := by
  have hwrites : List.Forall₂ (r.WritesOverride overrides) (base.overridden overrides) args :=
    forall₂_of_overrideSources h
  have hnames : args.map (·.1) = (base.overridden overrides).map (·.name) := by
    refine List.forall₂_eq_eq_eq ▸ ?_
    rw [List.forall₂_map_left_iff, List.forall₂_map_right_iff]
    exact hwrites.flip.imp fun a p hp => hp.1
  refine ⟨?_, ?_, fun n x hx => ?_⟩
  · rw [hnames]
    exact List.filter_sublist.map _
  · rw [hnames]
    exact haccepts.names_overridden hoverrides hparameters
  · obtain ⟨p, -, hname, e, he, hsource⟩ := exists_mem_right hwrites.flip hx
    obtain rfl : n = p.name := hname
    exact ⟨e, Arguments.mem_of_get? he, hsource⟩

/-- The declaration of a variant, part by part: a clone without parameters, named as requested, whose body
is a call of the base. -/
structure Clones (r : Registry) (v : VariantRequest) (base : Definition) (f : Source.FunctionDecl) :
    Prop where
  found : r.variantBase v.prototype = .ok base
  accepts : base.Accepts v.overrides
  name : f.name = v.name
  parameters : f.parameters = []
  isClone : f.isClone = true
  exported : f.exported = true
  returnType : f.returnType = if base.isMaterial then .material else base.returnType.sourceName
  body : ∃ args, f.body = .named (.ofText base.plainName) args ∧
    (r.overrideSources v.overrides base.parameters).result = .ok args
  annotations : (r.annotationBlock v.annotations).result = .ok f.annotations

variable {v : VariantRequest} {f : Source.FunctionDecl}

theorem clones_of_variant (h : (r.variant v).result = .ok f) : ∃ base, r.Clones v base f := by
  unfold variant at h
  obtain ⟨base, hbase, h⟩ := Mentioning.bind_ok h
  obtain ⟨_, hcheck, h⟩ := Mentioning.bind_ok h
  obtain ⟨⟨args, userTypes⟩, hargs, h⟩ := Mentioning.bind_ok h
  obtain ⟨annotations, hannotations, h⟩ := Mentioning.bind_ok h
  obtain ⟨_, -, h⟩ := Mentioning.bind_ok h
  obtain ⟨_, -, h⟩ := Mentioning.bind_ok h
  obtain ⟨_, -, h⟩ := Mentioning.bind_ok h
  cases h
  exact ⟨base, hbase, Definition.checkOverrides_ok_iff.mp hcheck, rfl, rfl, rfl, rfl, rfl,
    ⟨args, rfl, Mentioning.held_ok hargs⟩, hannotations⟩

theorem Clones.carries {base : Definition} (h : r.Clones v base f)
    (hoverrides : (v.overrides.map (·.1)).Nodup) (hparameters : (base.parameters.map (·.name)).Nodup) :
    ∃ args, f.body = .named (.ofText base.plainName) args ∧ r.Carries v.overrides base args := by
  obtain ⟨args, hbody, hargs⟩ := h.body
  exact ⟨args, hbody, carries_of_overrideSources hargs h.accepts hoverrides hparameters⟩

/-- What a variant takes: a base, overrides that it accepts and that have sources, and annotations that
have one. -/
structure Admits (r : Registry) (v : VariantRequest) (base : Definition) : Prop where
  found : r.variantBase v.prototype = .ok base
  accepts : base.Accepts v.overrides
  convertible : ∀ n e, (n, e) ∈ v.overrides → ∃ x, (r.source [] e).result = .ok x
  annotations : ∃ block, (r.annotationBlock v.annotations).result = .ok block

theorem Admits.variant_ok {base : Definition} (h : r.Admits v base) :
    ∃ f, (r.variant v).result = .ok f := by
  obtain ⟨args, hargs⟩ := overrideSources_ok base.parameters
    fun p _ e he => h.convertible p.name e (Arguments.mem_of_get? he)
  obtain ⟨block, hblock⟩ := h.annotations
  have hheld : (r.overrideSources v.overrides base.parameters).held.result =
      .ok (args, (r.overrideSources v.overrides base.parameters).names) := by
    simp only [Mentioning.held, hargs]
    rfl
  unfold variant
  simp only [Mentioning.result_bind, Mentioning.ofExcept, h.found, Except.bind,
    Definition.checkOverrides_ok_iff.mpr h.accepts, hheld, hblock]
  exact ⟨_, rfl⟩

theorem Clones.admits {base : Definition} (h : r.Clones v base f)
    (hoverrides : (v.overrides.map (·.1)).Nodup) (hparameters : (base.parameters.map (·.name)).Nodup) :
    r.Admits v base := by
  refine ⟨h.found, h.accepts, fun n e he => ?_, f.annotations, h.annotations⟩
  obtain ⟨args, -, hcarries⟩ := h.carries hoverrides hparameters
  -- the override is among the arguments, which have sources
  have hn : n ∈ args.map (·.1) := hcarries.complete.mem_iff.mpr (List.mem_map.mpr ⟨(n, e), he, rfl⟩)
  obtain ⟨⟨n, x⟩, hx, rfl⟩ := List.mem_map.mp hn
  obtain ⟨e', he', hsource⟩ := hcarries.converted n x hx
  have hsame := (Arguments.get?_of_mem hoverrides he).symm.trans (Arguments.get?_of_mem hoverrides he')
  cases hsame
  exact ⟨x, hsource⟩

/-- The order of the overrides makes no difference to a variant that there is. -/
theorem variant_perm (h : (r.variant v).result = .ok f) (hoverrides : (v.overrides.map (·.1)).Nodup)
    {order : Arguments} (horder : v.overrides.Perm order) :
    r.variant { v with overrides := order } = r.variant v := by
  obtain ⟨base, hclones⟩ := clones_of_variant h
  have hcheck := Definition.checkOverrides_ok_iff.mpr hclones.accepts
  have hcheck' := Definition.checkOverrides_ok_iff.mpr (hclones.accepts.perm horder)
  have hsources := overrideSources_congr (r := r) (Arguments.get?_perm hoverrides horder) base.parameters
  unfold variant
  simp only [hclones.found, Mentioning.ofExcept_ok, pure_bind, hcheck, hcheck', hsources]

theorem annotationBlock_failsSilently (block : Option AnnotationBlock) :
    (r.annotationBlock block).FailsSilently := by
  unfold annotationBlock
  split
  · exact .of_names rfl
  · exact .of_names rfl
  · exact .bind_of_ok (.of_names rfl) fun converted => ⟨some converted, rfl⟩

theorem variant_failsSilently (v : VariantRequest) : (r.variant v).FailsSilently := by
  unfold variant
  refine .bind rfl fun base _ => .bind rfl fun _ _ => .bind (Mentioning.names_held _) fun args _ => ?_
  exact (annotationBlock_failsSilently v.annotations).bind_of_ok fun block => ⟨_, rfl⟩

end Registry

end MaterialModules
