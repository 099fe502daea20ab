import MaterialModules.Compiler.Prepared
import MaterialModules.Proofs.Name.Registered
import MaterialModules.Proofs.Registration.Nested
import MaterialModules.Proofs.Registration.Requests

set_option autoImplicit false

namespace MaterialModules

/-- The names of a module and of all that it imports, directly or not, are absolute and without a
signature. -/
def CompiledModule.WellNamed (m : CompiledModule) : Prop := ∀ n, m.Reaches n → Name.OfModule n.name

theorem CompiledModule.wellNamed_of_imports {m : CompiledModule} (hm : Name.OfModule m.name)
    (himports : ∀ i ∈ m.imports, i.WellNamed) : m.WellNamed :=
  of_imports hm himports

def Toolchain.SignsEntities (t : Toolchain) : Prop :=
  ∀ events m options code, t.generate events m options = .ok code →
    ∀ e ∈ code.functions ++ code.materials, Name.OfEntity e.name

theorem PreparedToolchain.signsEntities {p : PreparedToolchain}
    (h : ∀ c ∈ p.codes, ∀ code, c.2 = .ok code →
      ∀ e ∈ code.functions ++ code.materials, Name.OfEntity e.name) :
    p.toolchain.SignsEntities := by
  intro events m options code hcode e he
  simp only [toolchain] at hcode
  split at hcode
  · rename_i answer hanswer
    obtain ⟨l₁, l₂, hl, -⟩ := List.lookup_eq_some_iff.mp hanswer
    exact h (m.name, answer) (hl ▸ List.mem_append_right _ List.mem_cons_self) code hcode e he
  · have hmade : ∀ f : Source.FunctionDecl, ∀ module, Name.OfEntity (entity module f).name := by
      intro f module
      simp [Name.OfEntity, entity]
    cases hcode
    cases hlast : lastAnalyzed? m.name events with
    | none => simp [hlast] at he
    | some source =>
      simp only [hlast, Option.map_some, Option.getD_some, codeOf, List.mem_append,
        List.mem_map] at he
      rcases he with ⟨f, -, rfl⟩ | ⟨f, -, rfl⟩ <;> exact hmade f source.name

/-- No module was added under the name of a module, and the name stands for what it stood for before. -/
structure Registry.LeavesOut (base r : Registry) (m : CompiledModule) : Prop where
  binding : r.tag? (Name.registered m.name) = base.tag? (Name.registered m.name)
  others : ∀ t x n, Registry.Added base r t x → x.element = .module n → n.name ≠ m.name

namespace ModuleEntry

variable {e : ModuleEntry} {r : Registry}

section Added

variable {t : Tag} {x : Record} (h : e.Whole r) (hr : r.Bounded)
  (hx : Registry.Added r (r.addAll e.records) t x)

include h hr hx

theorem Whole.added_resource {y : Resource} (hy : x.element = .resource y) :
    ∃ i < e.resources.length, t = ⟨r.lastTag + 1 + i⟩ := by
  obtain ⟨i, hi, rfl⟩ := (hr.added_addAll_iff _ _ _).mp hx
  exact ⟨i, h.place_of_resource hi hy, rfl⟩

theorem Whole.added_module_eq {n : ModuleRecord} (hn : x.element = .module n) :
    t = e.tag r ∧ n = e.module := by
  obtain ⟨i, hi, rfl⟩ := (hr.added_addAll_iff _ _ _).mp hx
  obtain ⟨rfl, hmodule⟩ := h.place_of_module hi hn
  exact ⟨rfl, hmodule⟩

theorem Whole.added_definition {d : Definition} (hd : x.element = .definition d) :
    (∃ j < e.definitions.length, t = ⟨r.lastTag + 1 + (e.resources.length + 1 + j)⟩) ∧
      d.module = e.tag r := by
  obtain ⟨i, hi, rfl⟩ := (hr.added_addAll_iff _ _ _).mp hx
  obtain ⟨⟨j, hj, rfl⟩, hmodule⟩ := h.place_of_definition hi hd
  exact ⟨⟨j, hj, rfl⟩, hmodule⟩

end Added

theorem added_module (e : ModuleEntry) (hr : r.Bounded) :
    Registry.Added r (r.addAll e.records) (e.tag r)
      ⟨Name.registered e.module.name, .module e.module, .browsable⟩ :=
  (hr.added_addAll_iff _ _ _).mpr ⟨_, e.getElem?_records_module, rfl⟩

theorem Whole.definitionsAdded_eq (h : e.Whole r) (hr : r.Bounded) :
    Registry.definitionsAdded r (r.addAll e.records) (e.tag r) =
      (fun j => (⟨r.lastTag + 1 + (e.resources.length + 1 + j)⟩ : Tag)) ''
        (Finset.range e.definitions.length : Set Nat) := by
  ext u
  constructor
  · rintro ⟨x, d, hx, hd, -⟩
    obtain ⟨⟨j, hj, rfl⟩, -⟩ := h.added_definition hr hx hd
    exact ⟨j, by simpa using hj, rfl⟩
  · rintro ⟨j, hj, rfl⟩
    have hlt : j < e.definitions.length := by simpa using hj
    obtain ⟨d, hd, hmod⟩ := h.definition _ (List.getElem_mem hlt)
    refine ⟨e.definitions[j], d, (hr.added_addAll_iff _ _ _).mpr ⟨_, ?_, rfl⟩, hd, hmod⟩
    rw [e.getElem?_records_definition, List.getElem?_eq_getElem hlt]

theorem Whole.addedWhole (h : e.Whole r) (hr : r.Bounded) :
    Registry.AddedWhole r (r.addAll e.records) where
  kept _ _ hx := hr.record?_addAll _ hx
  owned := by
    intro t x d hx hd
    obtain ⟨-, hmod⟩ := h.added_definition hr hx hd
    exact ⟨_, e.module, hmod ▸ e.added_module hr, rfl⟩
  counted := by
    intro t x m hx hm
    obtain ⟨rfl, rfl⟩ := h.added_module_eq hr hx hm
    have hinj : Function.Injective
        fun j => (⟨r.lastTag + 1 + (e.resources.length + 1 + j)⟩ : Tag) := by
      intro i j hij
      have := Tag.mk.inj hij
      omega
    rw [h.definitionsAdded_eq hr, hinj.encard_image, Set.encard_coe_eq_coe_finsetCard,
      Finset.card_range, h.length_definitions, Nat.cast_add]
  listed := by
    intro t x y hx hy
    obtain ⟨i, hi, rfl⟩ := h.added_resource hr hx hy
    exact ⟨_, _, e.module, e.added_module hr, rfl, h.listed i hi⟩

end ModuleEntry

namespace Registrar

variable {g : Registrar} {r r' : Registry}

theorem Registers.bounded (hg : g.resolver.EntersResources) {ms : List CompiledModule}
    (h : g.Registers r ms r') (hr : r.Bounded) : r'.Bounded := by
  induction h with
  | nil => exact hr
  | snoc before unbound enters ih =>
    obtain ⟨e, -, -, rfl, -⟩ := enters.entry hg
    exact ih.addAll e.records

theorem Registers.addedWhole (hg : g.resolver.EntersResources) {ms : List CompiledModule}
    (h : g.Registers r ms r') (hr : r.Bounded) : Registry.AddedWhole r r' := by
  induction h with
  | nil => exact .refl r
  | snoc before unbound enters ih =>
    obtain ⟨e, hwhole, -, rfl, -⟩ := enters.entry hg
    exact ih.trans (hwhole.addedWhole (before.bounded hg hr))

theorem Registers.compiled_of_added (hg : g.resolver.EntersResources) {ms : List CompiledModule}
    (h : g.Registers r ms r') (hr : r.Bounded) {t : Tag} {x : Record} {n : ModuleRecord}
    (hx : Registry.Added r r' t x) (hn : x.element = .module n) :
    n.compiled ∈ ms ∧ n.name = n.compiled.name := by
  induction h with
  | nil => exact absurd hx.1 hx.2
  | @snoc ms r₁ _ m code imports _ before unbound enters ih =>
    obtain ⟨e, hwhole, -, rfl, he, -⟩ := enters.entry hg
    by_cases hold : r₁.record? t = some x
    · obtain ⟨hmem, hname⟩ := ih ⟨hold, hx.2⟩
      exact ⟨List.mem_append_left _ hmem, hname⟩
    · obtain ⟨-, rfl⟩ := hwhole.added_module_eq (before.bounded hg hr) ⟨hx.1, hold⟩ hn
      rw [he]
      exact ⟨List.mem_append_right _ List.mem_cons_self, rfl⟩

theorem Registers.tag?_eq (hg : g.resolver.EntersResources) (hs : g.toolchain.SignsEntities)
    {ms : List CompiledModule} (h : g.Registers r ms r') {name : String} (hname : Name.OfModule name)
    (hms : ∀ m ∈ ms, Name.OfModule m.name ∧ m.name ≠ name) :
    r'.tag? (Name.registered name) = r.tag? (Name.registered name) := by
  induction h with
  | nil => rfl
  | @snoc ms r₁ _ m code imports _ before unbound enters ih =>
    obtain ⟨e, hwhole, -, rfl, he, -⟩ := enters.entry hg
    rw [Registry.tag?_addAll_of_notMem _ r₁, ih fun n hn => hms n (List.mem_append_left _ hn)]
    obtain ⟨hm, hne⟩ := hms m (List.mem_append_right _ List.mem_cons_self)
    intro x hx
    rcases List.mem_append.mp hx with hx | hx
    · obtain ⟨resource, -, hresource, -⟩ := hwhole.resource x hx
      rw [hresource]
      exact Name.registered_ne_resource name resource
    · rcases List.mem_cons.mp hx with rfl | hx
      · intro heq
        have hmod : e.module.name = m.name := by rw [he]; rfl
        exact hne (hm.registered_injective hname (hmod ▸ heq))
      · obtain ⟨events, hgen⟩ := enters.generated
        obtain ⟨entity, hentity, hx⟩ :=
          GeneratedCode.mem_registeredNames.mp (hwhole.name_mem_registeredNames he hx)
        rw [← hx]
        exact hname.registered_ne_entity (hs _ _ _ _ hgen entity hentity)

theorem Finalizes.addedWhole (hg : g.resolver.EntersResources) {enclosing : List String}
    {m : CompiledModule} {x : Except ModuleError Created} (h : g.Finalizes enclosing m r x r')
    (hr : r.Bounded) : Registry.AddedWhole r r' := by
  cases h with
  | existing => exact .refl r
  | entered unbound before below enters => exact (before.snoc unbound enters).addedWhole hg hr
  | failed before below => exact before.addedWhole hg hr

/-- A module whose finalization fails, wherever in the run of another one, is left out in the end. -/
theorem Visits.leavesOut (hg : g.resolver.EntersResources) (hs : g.toolchain.SignsEntities)
    {m n : CompiledModule} {p v w : Progress} {enclosing enclosing' : List String} {e : ModuleError}
    (h : g.Visits enclosing m p enclosing' n v) (hn : g.finalize enclosing' n v = (.error e, w))
    (hp : p.registry.Bounded) (hm : m.WellNamed) : Registry.LeavesOut p.registry w.registry n := by
  obtain ⟨ms, hms, hbefore⟩ := h.registers hg
  cases finalize_finalizes hg n hn with
  | @failed _ ns _ after below =>
    -- what entered before the failure, on the way there and below it, is reached from `m` and is not `n`
    have hrun := hms.trans hg after
    have hname : Name.OfModule n.name := hm n h.reaches
    have hother : ∀ k ∈ ms ++ ns, m.Reaches k ∧ k.name ≠ n.name := by
      intro k hk
      rcases List.mem_append.mp hk with hk | hk
      · exact hbefore k hk
      · obtain ⟨hbelow, hname⟩ := below k hk
        exact ⟨h.reaches.trans hbelow.reaches,
          fun heq => hname (heq ▸ List.mem_append_right _ List.mem_cons_self)⟩
    refine ⟨hrun.tag?_eq hg hs hname fun k hk =>
      ⟨hm k (hother k hk).1, (hother k hk).2⟩, ?_⟩
    intro t x k hx hk
    obtain ⟨hmem, hk'⟩ := hrun.compiled_of_added hg hp hx hk
    exact hk' ▸ (hother _ hmem).2

/-- Whatever comes of a request, the modules that it leaves are there as a whole. If it fails then either
no module was handed over and the registry is as before, or only modules below the one that was handed
over have entered, and every module that failed on the way, this one included, is left out. -/
theorem perform_allOrNothing {g : Registrar} (hg : g.resolver.EntersResources)
    (hs : g.toolchain.SignsEntities) {q : CreationRequest} {p s : Progress}
    {x : Except ModuleError Created} (hp : p.registry.Bounded)
    (hm : ∀ m u, g.handed? q p = some (m, u) → m.WellNamed) (h : g.perform q p = (x, s)) :
    Registry.AddedWhole p.registry s.registry ∧
    (x.isOk = false →
      (g.handed? q p = none ∧ s.registry = p.registry) ∨
      ∃ m u, g.handed? q p = some (m, u) ∧
        (∀ t y n, Registry.Added p.registry s.registry t y → y.element = .module n →
          m.Below n.compiled) ∧
        Registry.LeavesOut p.registry s.registry m ∧
        ∀ enclosing n v e w, g.Visits [] m u enclosing n v →
          g.finalize enclosing n v = (.error e, w) → Registry.LeavesOut p.registry s.registry n) := by
  rcases perform_cases h with ⟨hnone, heq, -⟩ | ⟨m, u, v, hhanded, hfinal, hv⟩
  · rw [heq]
    exact ⟨.refl _, fun _ => .inl ⟨hnone, rfl⟩⟩
  · have hu : u.registry = p.registry := (idle_of_handed hhanded).registry
    have hfin := finalize_finalizes hg m hfinal
    have hnamed := hm m u hhanded
    rw [hv.registry]
    rw [← hu] at hp ⊢
    refine ⟨hfin.addedWhole hg hp, fun hfail => .inr ⟨m, u, hhanded, ?_, ?_, ?_⟩⟩
    · cases x with
      | ok a => cases hfail
      | error e =>
        cases hfin with
        | failed before below =>
          intro t y n hy hn
          exact (below _ (before.compiled_of_added hg hp hy hn).1).1
    · cases x with
      | ok a => cases hfail
      | error e => exact (Visits.self [] m u).leavesOut hg hs hfinal hp hnamed
    · intro enclosing n v' e w hvisit hn
      obtain ⟨e', w', hmain, hw⟩ := hvisit.fails hn
      rw [hfinal] at hmain
      cases hmain
      rw [hw]
      exact hvisit.leavesOut hg hs hn hp hnamed

def halfRefused : Registrar where
  toolchain := PreparedToolchain.toolchain
    { modules := [("::top", { name := "::top", imports := [{ name := "::left" }, { name := "::right" }] })]
      codes := [("::left", .ok { functions := [{ name := "::left::f()", returnType := .material }] })]
      refusedRestores := ["::right"] }

theorem perform_halfRefused :
    let s := halfRefused.perform (.loaded "::top") {}
    s.1 = .error (.importFailed "::top" "::right") ∧
    s.2.registry.records.map (·.2.name) = ["mdl::left::f()", "mdl::left"] ∧
    Registry.AddedWhole {} s.2.registry ∧
    ∃ m u, halfRefused.handed? (.loaded "::top") {} = some (m, u) ∧
      Registry.LeavesOut {} s.2.registry m := by
  have hfail : (halfRefused.perform (.loaded "::top") {}).1 =
      .error (.importFailed "::top" "::right") := by decide +kernel
  have hnames : (halfRefused.perform (.loaded "::top") {}).2.registry.records.map (·.2.name) =
      ["mdl::left::f()", "mdl::left"] := by decide +kernel
  have hhanded : (halfRefused.handed? (.loaded "::top") {}).isSome := by decide +kernel
  have hs : halfRefused.toolchain.SignsEntities := by
    refine PreparedToolchain.signsEntities fun c hc code hcode e he => ?_
    cases List.mem_singleton.mp hc
    cases hcode
    cases List.mem_singleton.mp he
    decide
  have hm : ∀ m u, halfRefused.handed? (.loaded "::top") {} = some (m, u) → m.WellNamed := by
    intro m u h
    cases load_of_handed h
    have hleaf : ∀ name, Name.OfModule name → CompiledModule.WellNamed { name } := fun name h =>
      CompiledModule.wellNamed_of_imports h (by simp)
    refine CompiledModule.wellNamed_of_imports ⟨⟨"top", rfl⟩, by decide⟩ fun i hi => ?_
    rcases List.mem_cons.mp hi with rfl | hi
    · exact hleaf _ ⟨⟨"left", rfl⟩, by decide⟩
    · cases List.mem_singleton.mp hi
      exact hleaf _ ⟨⟨"right", rfl⟩, by decide⟩
  rcases hrun : halfRefused.perform (.loaded "::top") {} with ⟨x, s⟩
  rw [hrun] at hfail hnames
  obtain ⟨hwhole, hleft⟩ := perform_allOrNothing Resolver.registry_entersResources hs
    Registry.bounded_empty hm hrun
  refine ⟨hfail, hnames, hwhole, ?_⟩
  cases hfail
  rcases hleft rfl with ⟨hnone, -⟩ | ⟨m, u, hhanded, -, hout, -⟩
  · rw [hnone] at hhanded
    cases hhanded
  · exact ⟨m, u, hhanded, hout⟩

end Registrar

end MaterialModules
