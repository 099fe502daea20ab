import MaterialModules.Proofs.Registration.Naming
import MaterialModules.Proofs.Registration.Session
import Mathlib.Data.List.Forall2

set_option autoImplicit false

namespace MaterialModules

namespace Registry

structure Defines (r : Registry) (module : Tag) (kind : DefinitionKind) (e : GeneratedEntity)
    (name : String) : Prop where
  named : name = Name.registered e.name
  found : ∃ t prototype, r.tag? name = some t ∧ r.record? t = some (e.record module kind prototype)
  listed : name ∈ r.browsableNames ↔ e.exported = true

/-- A module is found by its name, and what it lists are the definitions of its code, in order. -/
structure Represents (r : Registry) (t : Tag) (m : ModuleRecord) (code : GeneratedCode) : Prop where
  found : r.tag? (Name.registered m.compiled.name) = some t
  held : r.module? t = some m
  functions : List.Forall₂ (r.Defines t .function) code.functions m.functions
  materials : List.Forall₂ (r.Defines t .material) code.materials m.materials

section Represents

variable {r : Registry} {xs : List Record} {t : Tag} {m : ModuleRecord} {code : GeneratedCode}

theorem Represents.compiled? (h : r.Represents t m code) :
    r.compiled? m.compiled.name = some m.compiled := by
  unfold Registry.compiled?
  rw [h.found, Option.bind_some, h.held, Option.map_some]

theorem Defines.addAll (hr : r.Bounded) (hxs : r.Free xs) {kind : DefinitionKind} {e : GeneratedEntity}
    {name : String} (h : r.Defines t kind e name) : (r.addAll xs).Defines t kind e name := by
  have hextends : r.Extends (r.addAll xs) := (Extends.refl r).addAll hr hxs.unbound
  obtain ⟨u, prototype, hu, hrecord⟩ := h.found
  refine ⟨h.named, ⟨u, prototype, hextends.binding _ _ hu, hextends.record _ _ hrecord⟩, ?_⟩
  rw [hxs.listed_iff_of_bound hr (by rw [hu]; simp)]
  exact h.listed

theorem Represents.addAll (hr : r.Bounded) (hxs : r.Free xs) (h : r.Represents t m code) :
    (r.addAll xs).Represents t m code where
  found := ((Extends.refl r).addAll hr hxs.unbound).binding _ _ h.found
  held := module?_of_record (fun _ _ hx => hr.record?_addAll xs hx) h.held
  functions := h.functions.imp fun _ _ he => he.addAll hr hxs
  materials := h.materials.imp fun _ _ he => he.addAll hr hxs

theorem Free.defines (hxs : r.Free xs) (hr : r.Bounded) (hn : r.NamesBound) {kind : DefinitionKind}
    {e : GeneratedEntity} {prototype : Option Tag} (he : e.record t kind prototype ∈ xs) :
    (r.addAll xs).Defines t kind e (Name.registered e.name) := by
  obtain ⟨u, hu, hrecord⟩ := hxs.found he
  refine ⟨rfl, ⟨u, prototype, hu, hrecord⟩, (hxs.listed_iff hr hn he).trans ?_⟩
  cases hexported : e.exported <;> simp [GeneratedEntity.record, hexported]

theorem Free.defines_all (hxs : r.Free xs) (hr : r.Bounded) (hn : r.NamesBound) {kind : DefinitionKind}
    {es : List GeneratedEntity} (h : ∀ e ∈ es, ∃ prototype, e.record t kind prototype ∈ xs) :
    List.Forall₂ ((r.addAll xs).Defines t kind) es (es.map fun e => Name.registered e.name) := by
  rw [List.forall₂_map_right_iff, List.forall₂_same]
  intro e he
  obtain ⟨prototype, hmem⟩ := h e he
  exact hxs.defines hr hn hmem

end Represents

end Registry

namespace Registrar

variable {g : Registrar} {m top : CompiledModule} {r r' : Registry} {first last : List Event}

theorem Enters.represents (hg : g.resolver.EntersResources) (hs : g.toolchain.SignsEntities)
    (hm : Name.OfModule m.name) (hfree : r.tag? (Name.registered m.name) = none) (hr : r.Bounded)
    (hn : r.NamesBound) {code : GeneratedCode} (hd : code.registeredNames.Nodup) {imports : List Tag}
    {t : Tag} (h : g.Enters r m code imports t r') :
    ∃ e : ModuleEntry, e.Whole r ∧ t = e.tag r ∧ r' = r.addAll e.records ∧ r.Free e.records ∧
      e.module.compiled = m ∧ r'.Represents t e.module code := by
  obtain ⟨e, hwhole, rfl, rfl, he, hpresents, hrecords⟩ := h.entry_free hg hs hm hfree
  have hxs := hrecords hd
  have hcompiled : e.module.compiled = m := by rw [he]; rfl
  have hname : e.module.name = e.module.compiled.name := by rw [he]; rfl
  have hfunctions : e.module.functions = code.functionNames := by rw [he]; rfl
  have hmaterials : e.module.materials = code.materialNames := by rw [he]; rfl
  obtain ⟨hfunction, hmaterial⟩ := Registry.exists_mem_codeRecords
    ((r.addAll e.resources).add ⟨Name.registered e.module.name, .module e.module, .browsable⟩)
    (e.tag r) code
  rw [← hpresents.definitions] at hfunction hmaterial
  have hdefinition : ∀ x ∈ e.definitions, x ∈ e.records := fun x hx =>
    List.mem_append_right _ (List.mem_cons_of_mem _ hx)
  refine ⟨e, hwhole, rfl, rfl, hxs, hcompiled, ?found, ?held, ?functions, ?materials⟩
  case found =>
    rw [← hname]
    exact Registry.tag?_addAll_of_distinct hxs.distinct e.getElem?_records_module r
  case held => exact Registry.module?_eq_some_iff.mpr ⟨_, (e.added_module hr).1, rfl⟩
  case functions =>
    rw [hfunctions]
    exact hxs.defines_all hr hn fun f hf => (hfunction f hf).imp fun _ hmem => hdefinition _ hmem
  case materials =>
    rw [hmaterials]
    exact hxs.defines_all hr hn fun f hf => (hmaterial f hf).imp fun _ hmem => hdefinition _ hmem

theorem Grows.namesBound (hg : g.resolver.EntersResources) (h : g.Grows top first last r r')
    (hr : r.Bounded) (hn : r.NamesBound) : r'.NamesBound := by
  induction h with
  | refl => exact hn
  | enters before reached unbound free imported asked enters ih =>
    obtain ⟨e, -, -, rfl, -⟩ := enters.entry hg
    exact ih.addAll (before.bounded hg hr) e.records

/-- Of what a registered module came: it was valid, and between two points of the log there was code for
it, without an error. -/
structure CameFrom (g : Registrar) (first last : List Event) (m : CompiledModule)
    (code : GeneratedCode) : Prop where
  valid : m.valid = true
  generated : g.Generated first last m code
  errorless : code.errorCount = 0

theorem CameFrom.later {m : CompiledModule} {code : GeneratedCode} (h : g.CameFrom first last m code)
    {last' : List Event} (hlast : last <+: last') : g.CameFrom first last' m code :=
  ⟨h.valid, h.generated.mono List.prefix_rfl hlast, h.errorless⟩

theorem Grows.represents (hg : g.resolver.EntersResources) (hs : g.toolchain.SignsEntities)
    (hd : g.toolchain.ListsDistinct) (htop : top.WellNamed) (h : g.Grows top first last r r')
    (hr : r.Bounded) (hn : r.NamesBound) {t : Tag} {x : Record} {n : ModuleRecord}
    (hx : Registry.Added r r' t x) (hxn : x.element = .module n) :
    ∃ code, g.CameFrom first last n.compiled code ∧ r'.Represents t n code := by
  induction h with
  | refl => exact absurd hx.1 hx.2
  | @enters r₁ _ m code _ _ before reached unbound free imported asked enters ih =>
    have hr₁ := before.bounded hg hr
    obtain ⟨events, hcode⟩ := asked.exists_events
    obtain ⟨e, hwhole, rfl, rfl, hfree, hcompiled, hrepresents⟩ := enters.represents hg hs
      (htop m reached) (free hs htop) hr₁ (before.namesBound hg hr hn) (hd _ _ _ _ hcode)
    -- the latest module is represented now, and those before it still are, as what entered was free
    by_cases hold : r₁.record? t = some x
    · obtain ⟨code', hcame, hrep⟩ := ih ⟨hold, hx.2⟩
      exact ⟨code', hcame, hrep.addAll hr₁ hfree⟩
    · obtain ⟨rfl, rfl⟩ := hwhole.added_module_eq hr₁ ⟨hx.1, hold⟩ hxn
      exact ⟨code, hcompiled ▸ ⟨enters.valid, asked, enters.errorless⟩, hrepresents⟩

theorem Registers.lastTag_le (hg : g.resolver.EntersResources) {ms : List CompiledModule}
    (h : g.Registers r ms r') : r.lastTag ≤ r'.lastTag := by
  induction h with
  | nil => exact Nat.le_refl _
  | snoc before unbound enters ih =>
    obtain ⟨e, -, -, rfl, -⟩ := enters.entry hg
    exact ih.trans (by rw [Registry.lastTag_addAll]; exact Nat.le_add_right _ _)

theorem perform_issued (hg : g.resolver.EntersResources) {q : CreationRequest} {p s : Progress} {t : Tag}
    (h : g.perform q p = (.ok (.new t), s)) :
    p.registry.Issued s.registry t ∧ ∃ n u, s.registry.module? t = some n ∧
      g.handed? q p = some (n.compiled, u) := by
  rcases perform_cases h with ⟨-, -, hnew⟩ | ⟨m, u, v, hhanded, hfinal, hv⟩
  · exact absurd rfl (hnew t)
  · rw [hv.registry, ← (idle_of_handed hhanded).registry]
    cases finalize_finalizes hg m hfinal with
    | entered unbound before below enters =>
      obtain ⟨e, -, rfl, hr', he, -⟩ := enters.entry hg
      obtain ⟨hlt, hle⟩ := e.tag_le_lastTag _
      rw [← hr'] at hle
      have hcompiled : e.module.compiled = m := by rw [he]; rfl
      refine ⟨⟨Nat.lt_of_le_of_lt (before.lastTag_le hg) hlt, hle⟩, e.module, u, ?_, hcompiled ▸ hhanded⟩
      rw [hr']
      exact Registry.module?_eq_some_iff.mpr ⟨_, e.record?_module _, rfl⟩

/-- A module that is said to be new has been added, under the tag that is given. -/
theorem perform_new (hg : g.resolver.EntersResources) {q : CreationRequest} {p s : Progress} {t : Tag}
    (hp : p.registry.Bounded) (h : g.perform q p = (.ok (.new t), s)) :
    ∃ x n u, Registry.Added p.registry s.registry t x ∧ x.element = .module n ∧
      g.handed? q p = some (n.compiled, u) := by
  obtain ⟨hissued, n, u, hn, hhanded⟩ := perform_issued hg h
  obtain ⟨x, hx, hxn⟩ := Registry.module?_eq_some_iff.mp hn
  exact ⟨x, n, u, hp.added_of_issued hissued hx, hxn, hhanded⟩

/-- When a request is over, whatever came of it, each module that it added is found by its name and is
represented: there was code for it in the course of the request, and what it lists are the definitions of
that code. A module that is said to be new is among those added, and it is the one that was handed over. -/
theorem perform_represents (hg : g.resolver.EntersResources) (hs : g.toolchain.SignsEntities)
    (hm : g.toolchain.NamesModules) (hd : g.toolchain.ListsDistinct) {q : CreationRequest}
    {p s : Progress} {x : Except ModuleError Created} (hp : p.registry.Bounded)
    (hn : p.registry.Named) (hb : p.registry.NamesBound) (h : g.perform q p = (x, s)) :
    (∀ t y n, Registry.Added p.registry s.registry t y → y.element = .module n →
      s.registry.compiled? n.compiled.name = some n.compiled ∧
      ∃ code, g.CameFrom p.events s.events n.compiled code ∧ s.registry.Represents t n code) ∧
    ∀ t, x = .ok (.new t) → ∃ y n u, Registry.Added p.registry s.registry t y ∧
      y.element = .module n ∧ g.handed? q p = some (n.compiled, u) := by
  constructor
  · intro t y n hy hyn
    rcases perform_grows hg hp hn h with ⟨-, heq⟩ | ⟨m, u, hhanded, hgrows⟩
    · exact absurd (heq ▸ hy.1) hy.2
    · obtain ⟨code, hcame, hrep⟩ := hgrows.represents hg hs hd (hm.wellNamed hhanded) hp hb hy hyn
      exact ⟨hrep.compiled?, code, hcame, hrep⟩
  · rintro t rfl
    exact perform_new hg hp h

def matteShading : Registrar where
  toolchain := PreparedToolchain.closed
    { modules := [("::shade", { name := "::shade", imports := [{ name := "::tint" }] })]
      codes := [("::tint", .ok { functions := [
          { name := "::tint::mix(float)", parameters := [{ name := "a", type := ⟨.float, {}⟩ }]
            returnType := ⟨.color, {}⟩, exported := false }] }),
        ("::shade", .ok
          { functions := [{ name := "::shade::id(int)", returnType := ⟨.int, {}⟩, varying := true }]
            materials := [{ name := "::shade::matte()", returnType := .material }] })] }

def spotted : Progress where
  registry := Registry.empty.addAll [⟨"mdlr::light_profile::/spot.ies",
    .resource ⟨.lightProfile, "/spot.ies", none, false⟩, .browsable⟩]

theorem perform_matteShading :
    let s := matteShading.perform (.loaded "::shade") spotted
    s.1 = .ok (.new ⟨4⟩) ∧
    s.2.registry.records.map (fun e => (e.2.name, e.2.visibility)) =
      [("mdl::shade::matte()", .browsable), ("mdl::shade::id(int)", .browsable), ("mdl::shade", .browsable),
        ("mdl::tint::mix(float)", .referenceCounted), ("mdl::tint", .browsable),
        ("mdlr::light_profile::/spot.ies", .browsable)] ∧
    ∃ n code, matteShading.CameFrom spotted.events s.2.events n.compiled code ∧
      s.2.registry.Represents ⟨4⟩ n code := by
  have hmodules : matteShading.toolchain.NamesModules := by
    refine PreparedToolchain.namesModules_closed fun e he => ?_
    cases List.mem_singleton.mp he
    refine CompiledModule.wellNamed_of_imports ⟨⟨"shade", rfl⟩, by decide⟩ fun i hi => ?_
    cases List.mem_singleton.mp hi
    exact CompiledModule.wellNamed_of_imports ⟨⟨"tint", rfl⟩, by decide⟩ (by simp)
  have hentities : matteShading.toolchain.SignsEntities := by
    refine PreparedToolchain.signsEntities_closed fun c hc code hcode e he => ?_
    rcases List.mem_pair.mp hc with rfl | rfl
    · cases hcode
      cases List.mem_singleton.mp he
      decide
    · cases hcode
      rcases List.mem_pair.mp he with rfl | rfl <;> decide
  have hdistinct : matteShading.toolchain.ListsDistinct := by
    refine PreparedToolchain.listsDistinct_closed fun c hc code hcode => ?_
    rcases List.mem_pair.mp hc with rfl | rfl <;> cases hcode <;> decide
  have hcreated : (matteShading.perform (.loaded "::shade") spotted).1 = .ok (.new ⟨4⟩) := by
    decide +kernel
  refine ⟨hcreated, by decide +kernel, ?_⟩
  obtain ⟨hadded, hnew⟩ := perform_represents Resolver.registry_entersResources hentities hmodules
    hdistinct (Registry.bounded_empty.addAll _) (Registry.named_empty.addAll Registry.bounded_empty _)
    (Registry.namesBound_empty.addAll Registry.bounded_empty _) (p := spotted)
    (Prod.mk.eta (p := matteShading.perform (.loaded "::shade") spotted)).symm
  obtain ⟨y, n, u, hy, hn, -⟩ := hnew ⟨4⟩ hcreated
  obtain ⟨-, code, hcame, hrep⟩ := hadded _ _ _ hy hn
  exact ⟨n, code, hcame, hrep⟩

end Registrar

end MaterialModules
