import MaterialModules.Proofs.Registration.Analysis
import MaterialModules.Proofs.Synthesis.Overrides

set_option autoImplicit false

namespace MaterialModules

theorem Source.Draft.add_of_failsSilently {x : Mentioning FunctionDecl} {e : ModuleError}
    (h : x.result = .error e) (hx : x.FailsSilently) (d : Draft) : d.add x = (.error e, d) := by
  rw [add_of_error h, hx e h]
  rfl

namespace Registrar

open Work

variable {g : Registrar} {name : String} {vs : List VariantRequest} {p : Progress}
  {source : Source.Module}

def Analyzes (g : Registrar) (q : CreationRequest) (p : Progress) (source : Source.Module) : Prop :=
  ∃ accepted es, (g.perform q p).2.events = p.events ++ es ∧ .analyze source accepted ∈ es

theorem acquire_variants (g : Registrar) (name : String) (vs : List VariantRequest) (p : Progress) :
    g.acquire (.variants name vs) p =
      match p.registry.newestVersion false (vs.map (·.prototype)), (p.registry.variants vs).result with
      | .error e, _ | .ok _, .error e => (.error e, p)
      | .ok version, .ok fs =>
        g.analysis name ((g.toolchain.blank name version).extend fs (p.registry.variants vs).names) p := by
  cases hversion : p.registry.newestVersion false (vs.map (·.prototype)) with
  | error e => simp only [acquire, bind_apply, Work.registry, Work.ofExcept, hversion]
  | ok version =>
    cases hfs : (p.registry.variants vs).result with
    | error e => simp only [acquire, assemble, bind_apply, Work.registry, Work.ofExcept, hversion, hfs]
    | ok fs => exact acquire_of_builds (.variants hversion) hfs

theorem events_perform (g : Registrar) (q : CreationRequest) (p : Progress) :
    (g.perform q p).2.events =
      match g.allows q, p.registry.registeredModule q.name with
      | true, .ok none => ((g.acquire q >>= g.finalize []) p).2.events
      | _, _ => p.events := by
  rw [perform_eq, reported_events, unlessRegistered]
  cases g.allows q with
  | false => rfl
  | true =>
    rw [if_pos rfl, bind_apply, registered_apply]
    cases p.registry.registeredModule q.name with
    | error e => rfl
    | ok found =>
      cases found with
      | some t => rfl
      | none => rfl

theorem analyzes_variants_iff :
    g.Analyzes (.variants name vs) p source ↔
      g.isModuleName name = true ∧ p.registry.registeredModule name = .ok none ∧
        ∃ version fs, p.registry.newestVersion false (vs.map (·.prototype)) = .ok version ∧
          (p.registry.variants vs).result = .ok fs ∧
          source = (g.toolchain.blank name version).extend fs (p.registry.variants vs).names := by
  have hnothing : ∀ es accepted, p.events = p.events ++ es → Event.analyze source accepted ∉ es := by
    intro es accepted h
    rw [List.append_right_eq_self.mp h.symm]
    exact List.not_mem_nil
  constructor
  · rintro ⟨accepted, es, hevents, hmem⟩
    rw [events_perform] at hevents
    split at hevents
    · rename_i hallows hfree
      refine ⟨hallows, hfree, ?_⟩
      rw [bind_apply, acquire_variants] at hevents
      cases hversion : p.registry.newestVersion false (vs.map (·.prototype)) with
      | error e =>
        rw [hversion] at hevents
        exact absurd hmem (hnothing es accepted hevents)
      | ok version =>
        cases hfs : (p.registry.variants vs).result with
        | error e =>
          rw [hversion, hfs] at hevents
          exact absurd hmem (hnothing es accepted hevents)
        | ok fs =>
          rw [hversion, hfs] at hevents
          obtain ⟨accepted', es', hanalysis, hkind⟩ := g.analysis_apply name
            ((g.toolchain.blank name version).extend fs (p.registry.variants vs).names) p
          rw [bind_apply] at hanalysis
          refine ⟨version, fs, rfl, rfl, ?_⟩
          rw [List.append_cancel_left (hevents.symm.trans hanalysis)] at hmem
          rcases List.mem_cons.mp hmem with heq | hlater
          · cases heq
            rfl
          · cases hkind _ hlater
    · exact absurd hmem (hnothing es accepted hevents)
  · rintro ⟨hallows, hfree, version, fs, hversion, hfs, rfl⟩
    obtain ⟨accepted, es, hanalysis, -⟩ := g.analysis_apply name
      ((g.toolchain.blank name version).extend fs (p.registry.variants vs).names) p
    let analyzed := (g.toolchain.blank name version).extend fs (p.registry.variants vs).names
    refine ⟨accepted, .analyze analyzed accepted :: es, ?_, List.mem_cons_self⟩
    rw [events_perform]
    simp only [allows, CreationRequest.name, hallows, hfree]
    rw [← hanalysis, bind_apply, bind_apply, acquire_variants, hversion, hfs]

/-- The module that is handed over is what the variants add to an empty one in turn. -/
theorem Analyzes.finished (h : g.Analyzes (.variants name vs) p source) :
    ∃ version d, Source.Draft.addAll { module := g.toolchain.blank name version }
        (vs.map p.registry.variant) = (.ok (), d) ∧ source = d.finished := by
  obtain ⟨-, -, version, fs, -, hfs, rfl⟩ := analyzes_variants_iff.mp h
  exact ⟨version, _, Source.Draft.addAll_of_mapM hfs _, rfl⟩

/-- With a variant that fails no module is handed over, and nothing enters. -/
theorem perform_of_variant_error {v : VariantRequest} {e : ModuleError} (hv : v ∈ vs)
    (he : (p.registry.variant v).result = .error e) :
    (g.perform (.variants name vs) p).2.registry = p.registry ∧
      (∀ t, (g.perform (.variants name vs) p).1 ≠ .ok (.new t)) ∧
      ∀ source, ¬ g.Analyzes (.variants name vs) p source := by
  have hfails : ∀ fs, (p.registry.variants vs).result ≠ .ok fs := by
    intro fs hfs
    obtain ⟨f, hf⟩ := Mentioning.mapM_ok_iff.mp ⟨fs, hfs⟩ v hv
    cases he.symm.trans hf
  rcases perform_cases (g := g) (q := .variants name vs) (p := p) rfl with
    ⟨-, hregistry, hnew⟩ | ⟨m, u, _, hhanded, -, -⟩
  · refine ⟨hregistry, hnew, fun source hsource => ?_⟩
    obtain ⟨-, -, version, fs, -, hfs, -⟩ := analyzes_variants_iff.mp hsource
    exact hfails fs hfs
  · have hacquire := acquire_of_handed hhanded
    rw [acquire_variants] at hacquire
    split at hacquire
    · cases hacquire
    · cases hacquire
    · rename_i fs _ hfs
      exact absurd hfs (hfails fs)

/-- A variant that is admitted adds one declaration, a clone without parameters that carries exactly the
overrides, in the order of the parameters and whatever their own order. Any other one adds nothing, and
nothing enters with any module that it is to be part of. -/
theorem add_variant_exact (p : Progress) (v : VariantRequest)
    (hoverrides : (v.overrides.map (·.1)).Nodup)
    (hparameters : ∀ base, p.registry.variantBase v.prototype = .ok base →
      (base.parameters.map (·.name)).Nodup) (d : Source.Draft) :
    (∃ f base args,
      d.add (p.registry.variant v) =
        (.ok (), ⟨d.module.append f, d.names.collect (p.registry.variant v).names⟩) ∧
      p.registry.Admits v base ∧ p.registry.Clones v base f ∧
      f.body = .named (.ofText base.plainName) args ∧ p.registry.Carries v.overrides base args ∧
      ∀ order, v.overrides.Perm order →
        p.registry.variant { v with overrides := order } = p.registry.variant v) ∨
    ∃ e, d.add (p.registry.variant v) = (.error e, d) ∧ (∀ base, ¬ p.registry.Admits v base) ∧
      ∀ (g : Registrar) name vs, v ∈ vs →
        (g.perform (.variants name vs) p).2.registry = p.registry ∧
          (∀ t, (g.perform (.variants name vs) p).1 ≠ .ok (.new t)) ∧
          ∀ source, ¬ g.Analyzes (.variants name vs) p source := by
  cases hresult : (p.registry.variant v).result with
  | ok f =>
    obtain ⟨base, hclones⟩ := Registry.clones_of_variant hresult
    have hdistinct := hparameters base hclones.found
    obtain ⟨args, hbody, hcarries⟩ := hclones.carries hoverrides hdistinct
    exact .inl ⟨f, base, args, d.add_of_ok hresult, hclones.admits hoverrides hdistinct, hclones, hbody,
      hcarries, fun order horder => Registry.variant_perm hresult hoverrides horder⟩
  | error e =>
    refine .inr ⟨e, Source.Draft.add_of_failsSilently hresult (Registry.variant_failsSilently v) d,
      fun base hadmits => ?_, fun g name vs hv => perform_of_variant_error hv hresult⟩
    obtain ⟨f, hf⟩ := hadmits.variant_ok
    cases hresult.symm.trans hf

def mixing : Progress where
  registry :=
    { records := [(⟨1⟩, ⟨"mdl::m::mix(int,bool)", .definition mix, .browsable⟩)]
      lastTag := 1 }
where
  mix : Definition :=
    { kind := .function, module := ⟨0⟩, name := "::m::mix(int,bool)", returnType := ⟨.int, {}⟩
      parameters := [{ name := "x", type := ⟨.int, {}⟩ }, { name := "y", type := ⟨.bool, {}⟩ }] }

def mixed : VariantRequest where
  prototype := ⟨1⟩
  name := "mixed"
  overrides := [("y", .constant 0 ⟨.bool, {}⟩ (.bool true)), ("x", .constant 0 ⟨.int, {}⟩ (.int 5))]

def blankDraft : Source.Draft where
  module := { name := "::out", version := .oldest }

theorem add_variant_exact_mixed :
    ∃ f, (blankDraft.add (mixing.registry.variant mixed)).2.module = blankDraft.module.append f ∧
      f.body = .named (.ofText "::m::mix") [("x", .literal (.int 5)), ("y", .literal (.bool true))] := by
  have hbase : mixing.registry.variantBase mixed.prototype = .ok mixing.mix := rfl
  have hresult : (mixing.registry.variant mixed).result.isOk = true := rfl
  have hoverrides : (mixed.overrides.map (·.1)).Nodup := by decide
  have hparameters : ∀ base, mixing.registry.variantBase mixed.prototype = .ok base →
      (base.parameters.map (·.name)).Nodup := by
    intro base h
    cases hbase.symm.trans h
    decide
  rcases add_variant_exact mixing mixed hoverrides hparameters blankDraft with
    ⟨f, base, args, hadd, -, hclones, hbody, hcarries, -⟩ | ⟨e, hadd, -⟩
  · cases hbase.symm.trans hclones.found
    have hnames : args.map (·.1) = ["x", "y"] :=
      hcarries.ordered.eq_of_length hcarries.complete.length_eq
    obtain ⟨⟨_, x⟩, rest, rfl, rfl, hrest⟩ := List.map_eq_cons_iff.mp hnames
    obtain ⟨⟨_, y⟩, none, rfl, rfl, hnone⟩ := List.map_eq_cons_iff.mp hrest
    obtain rfl := List.map_eq_nil_iff.mp hnone
    -- each name has one override, which decides the value
    obtain ⟨e, he, hx⟩ := hcarries.converted "x" x (by simp)
    obtain ⟨e', he', hy⟩ := hcarries.converted "y" y (by simp)
    obtain rfl : e = .constant 0 ⟨.int, {}⟩ (.int 5) := by simpa [mixed] using he
    obtain rfl : e' = .constant 0 ⟨.bool, {}⟩ (.bool true) := by simpa [mixed] using he'
    cases hx
    cases hy
    exact ⟨f, by rw [hadd], hbody⟩
  · cases hadd

end Registrar

end MaterialModules
