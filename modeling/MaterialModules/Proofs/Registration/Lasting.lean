import MaterialModules.Proofs.Registration.Naming
import MaterialModules.Proofs.Registration.Session

/-!
Modules that are created last. From the request on that registers a module under its name, the name leads
to the module, whatever else is requested; and a request to create it again is answered with its tag and
does nothing.
-/

set_option autoImplicit false

namespace MaterialModules

namespace Registry

structure Leads (r : Registry) (name : String) (t : Tag) : Prop where
  binding : r.tag? (Name.registered name) = some t
  kind : r.kind? t = some .module
  handedOut : t.id ≤ r.lastTag

section Leads

variable {r : Registry} {name : String} {t : Tag}

theorem Leads.registeredModule (h : r.Leads name t) : r.registeredModule name = .ok (some t) := by
  unfold Registry.registeredModule
  rw [h.binding]
  exact if_pos h.kind

theorem Leads.respelled (h : r.Leads name t) {other : String}
    (hother : Name.registered other = Name.registered name) : r.Leads other t :=
  ⟨hother ▸ h.binding, h.kind, h.handedOut⟩

theorem kind?_addAll_of_le (h : t.id ≤ r.lastTag) (xs : List Record) :
    (r.addAll xs).kind? t = r.kind? t := by
  rw [kind?, kind?, element?, element?, record?_addAll_of_le h]

theorem Leads.ne_of_unbound (h : r.Leads name t) {n : String} (hn : r.tag? n = none) :
    n ≠ Name.registered name := by
  rintro rfl
  rw [h.binding] at hn
  cases hn

theorem Leads.addAll (h : r.Leads name t) {xs : List Record}
    (hxs : ∀ x ∈ xs, x.name ≠ Name.registered name) : (r.addAll xs).Leads name t where
  binding := (tag?_addAll_of_notMem hxs r).trans h.binding
  kind := (kind?_addAll_of_le h.handedOut xs).trans h.kind
  handedOut := by
    rw [lastTag_addAll]
    exact Nat.le_trans h.handedOut (Nat.le_add_right _ _)

end Leads

end Registry

namespace Registrar

variable {g : Registrar} {m : CompiledModule} {r r' : Registry} {name : String} {t : Tag}

theorem Enters.leads (hg : g.resolver.EntersResources) (hs : g.toolchain.SignsEntities)
    (hm : Name.OfModule m.name) {code : GeneratedCode} {imports : List Tag}
    (h : g.Enters r m code imports t r') : r'.Leads m.name t := by
  obtain ⟨e, hwhole, rfl, rfl, he, -⟩ := h.entry hg
  have hname : e.module.name = m.name := by rw [he]; rfl
  have hlt : e.resources.length < e.records.length :=
    (List.getElem?_eq_some_iff.mp e.getElem?_records_module).1
  refine ⟨?binding, ?kind, ?handedOut⟩
  case binding =>
    have hdefinitions : ∀ x ∈ e.definitions, x.name ≠ Name.registered m.name := by
      intro x hx
      obtain ⟨events, hgen⟩ := h.generated
      obtain ⟨entity, hentity, hx⟩ :=
        GeneratedCode.mem_registeredNames.mp (hwhole.name_mem_registeredNames he hx)
      rw [← hx]
      exact hm.registered_ne_entity (hs _ _ _ _ hgen entity hentity)
    rw [ModuleEntry.records, Registry.addAll_append, Registry.addAll_cons,
      Registry.tag?_addAll_of_notMem hdefinitions, ← hname, Registry.tag?_add_self]
    show some (⟨(r.addAll e.resources).lastTag + 1⟩ : Tag) = some (e.tag r)
    rw [Registry.lastTag_addAll, ModuleEntry.tag, Nat.add_right_comm]
  case kind =>
    have hrecord : (r.addAll e.records).record? (e.tag r) = _ :=
      Registry.record?_addAll_fresh r e.records _ hlt
    rw [Registry.kind?, Registry.element?, hrecord,
      (List.getElem_eq_iff hlt).mpr e.getElem?_records_module]
    rfl
  case handedOut =>
    rw [Registry.lastTag_addAll]
    show r.lastTag + 1 + e.resources.length ≤ _
    omega

theorem Registers.leads (hg : g.resolver.EntersResources) {ms : List CompiledModule}
    (h : g.Registers r ms r') (hr : r.Leads name t) : r'.Leads name t := by
  induction h with
  | nil => exact hr
  | snoc before unbound enters ih =>
    obtain ⟨xs, rfl, hxs⟩ := before.entry hg unbound enters
    exact ih.addAll fun x hx => hr.ne_of_unbound (hxs x hx)

theorem after_leads (hg : g.resolver.EntersResources) (q : Request) {p : Progress}
    (hp : p.registry.Leads name t) : (g.after q p).registry.Leads name t := by
  rcases after_registers hg q p with ⟨ms, hms⟩ | ⟨x, y, -, hunbound, hnew⟩
  · exact hms.leads hg hp
  · rw [hnew]
    have hnames : ∀ z ∈ [x], z.name ≠ Name.registered name := by
      intro z hz
      cases List.mem_singleton.mp hz
      exact hp.ne_of_unbound hunbound
    exact hp.addAll hnames

/-- A name that leads to a module leads to it for ever. -/
theorem run_leads (hg : g.resolver.EntersResources) (qs : List Request) {p : Progress}
    (hp : p.registry.Leads name t) : (g.run qs p).registry.Leads name t := by
  induction qs generalizing p with
  | nil => exact hp
  | cons q qs ih => exact ih (after_leads hg q hp)

theorem perform_leads (hg : g.resolver.EntersResources) (hs : g.toolchain.SignsEntities)
    {q : CreationRequest} {p s u : Progress} (h : g.perform q p = (.ok (.new t), s))
    (hhanded : g.handed? q p = some (m, u)) (hm : Name.OfModule m.name) :
    s.registry.Leads m.name t := by
  rcases perform_cases h with ⟨-, -, hnew⟩ | ⟨m', u', v, hhanded', hfinal, hv⟩
  · exact absurd rfl (hnew t)
  · rw [hhanded] at hhanded'
    cases hhanded'
    rw [hv.registry]
    cases finalize_finalizes hg m hfinal with
    | entered unbound before below enters => exact enters.leads hg hs hm

theorem perform_of_leads {q : CreationRequest} {p : Progress} (hallowed : g.allows q = true)
    (h : p.registry.Leads q.name t) : g.perform q p = (.ok (.existing t), p) := by
  rw [perform_eq, Work.reported, unlessRegistered, if_pos hallowed, Work.bind_apply, registered_apply,
    h.registeredModule]
  rfl

theorem allows_of_isModuleName {q : CreationRequest} (h : g.isModuleName q.name = true) :
    g.allows q = true := by
  cases q with
  | text name text => exact Bool.or_eq_true_iff.mpr (.inr h)
  | loaded name | variants name vs | materials name ms => exact h

/-- Once a request has registered a module under the name that it was made under, and whatever is requested
after that, another one under this name, however that may be written, is answered with the tag of the
module and leaves everything as it is. -/
theorem perform_again (hg : g.resolver.EntersResources) (hs : g.toolchain.SignsEntities)
    (hm : g.toolchain.NamesModules) {q : CreationRequest} (hvalid : g.isModuleName q.name = true)
    {p s u : Progress} (hnew : g.perform q p = (.ok (.new t), s))
    (hhanded : g.handed? q p = some (m, u)) (hname : Name.Spells q.name m.name) (later : List Request)
    {again : CreationRequest} (hagain : Name.Spells q.name again.name) :
    g.perform again (g.run later s) = (.ok (.existing t), g.run later s) := by
  have hleads := perform_leads hg hs hnew hhanded (hm.wellNamed hhanded m .refl)
  refine perform_of_leads (allows_of_isModuleName ?_) ((run_leads hg later hleads).respelled ?_)
  · rw [isModuleName, hagain.isModuleName_eq]
    exact hvalid
  · rw [hagain.registered_eq, hname.registered_eq]

def plainShading : Registrar where
  toolchain := PreparedToolchain.closed
    { modules := [("shade", { name := "::shade", imports := [{ name := "::tint" }] }),
        ("::tint", { name := "::tint" })]
      codes := [("::shade", .ok
        { functions := [{ name := "::shade::id(int)", returnType := ⟨.int, {}⟩ }] })] }

def interlude : List Request :=
  [.creation (.loaded "::lost"), .creation (.loaded "::tint"), .lightProfile "/spot.ies" false]

def shadedAfterInterlude : Progress :=
  plainShading.run interlude (plainShading.perform (.loaded "shade") {}).2

theorem perform_again_plainShading :
    (plainShading.perform (.loaded "shade") {}).1 = .ok (.new ⟨2⟩) ∧
    shadedAfterInterlude.registry.records.map (·.2.name) =
      ["mdlr::light_profile::/spot.ies", "mdl::shade::id(int)", "mdl::shade", "mdl::tint"] ∧
    plainShading.perform (.materials "::shade" [⟨⟨9⟩, "w", [], none⟩]) shadedAfterInterlude =
      (.ok (.existing ⟨2⟩), shadedAfterInterlude) := by
  have hmodules : plainShading.toolchain.NamesModules := by
    have htint : CompiledModule.WellNamed { name := "::tint" } :=
      CompiledModule.wellNamed_of_imports ⟨⟨"tint", rfl⟩, by decide⟩ (by simp)
    refine PreparedToolchain.namesModules_closed fun e he => ?_
    rcases List.mem_pair.mp he with rfl | rfl
    · refine CompiledModule.wellNamed_of_imports ⟨⟨"shade", rfl⟩, by decide⟩ fun i hi => ?_
      cases List.mem_singleton.mp hi
      exact htint
    · exact htint
  have hentities : plainShading.toolchain.SignsEntities := by
    refine PreparedToolchain.signsEntities_closed fun c hc code hcode e he => ?_
    cases List.mem_singleton.mp hc
    cases hcode
    cases List.mem_singleton.mp he
    decide
  have hcreated : (plainShading.perform (.loaded "shade") {}).1 = .ok (.new ⟨2⟩) := by decide +kernel
  have hnew : plainShading.perform (.loaded "shade") {} =
      (.ok (.new ⟨2⟩), (plainShading.perform (.loaded "shade") {}).2) := by rw [← hcreated]
  have hname : (plainShading.handed? (.loaded "shade") {}).map (·.1.name) = some "::shade" := by
    decide +kernel
  obtain ⟨⟨m, u⟩, hhanded, hm⟩ := Option.map_eq_some_iff.mp hname
  have hrelative : Name.Relative "shade" := by decide
  have hspells : Name.Spells "shade" "::shade" := .absolute hrelative
  refine ⟨hcreated, by decide +kernel, ?_⟩
  exact perform_again Resolver.registry_entersResources hentities hmodules (by decide +kernel) hnew
    hhanded (hm ▸ hspells) interlude hspells

end Registrar

end MaterialModules
