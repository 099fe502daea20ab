import MaterialModules.Proofs.Registration.Wholeness

set_option autoImplicit false

namespace MaterialModules

inductive Request where
  | creation (q : CreationRequest)
  | texture (path : String) (shape : TextureShape) (gamma : Float32) (shared : Bool)
  | lightProfile (path : String) (shared : Bool)
  | bsdfMeasurement (path : String) (shared : Bool)

namespace Resolver

theorem EntersResources.absolute {resolve : Resolver} (h : resolve.EntersResources) (r : Registry)
    (q : ResourceQuery) :
    (resolve.absolute r q).2 = r ∨
      ∃ x y, x.element = .resource y ∧ r.tag? x.name = none ∧ (resolve.absolute r q).2 = r.add x := by
  unfold Resolver.absolute
  cases isAbsolutePath q.path with
  | false => exact .inl rfl
  | true =>
    rw [if_pos rfl]
    rcases h r q with hsame | ⟨name, y, hunbound, hnew⟩
    · rcases hq : resolve r q with ⟨_ | t, r'⟩
      · rw [hq] at hsame
        exact .inl hsame
      · rw [hq] at hsame
        exact .inl hsame
    · rw [hnew]
      exact .inr ⟨_, y, rfl, hunbound, rfl⟩

end Resolver

namespace Registrar

variable {g : Registrar}

def after (g : Registrar) : Request → Progress → Progress
  | .creation q, p => (g.perform q p).2
  | .texture path shape gamma shared, p =>
    { p with registry := (g.resolver.texture p.registry path shape gamma shared).2 }
  | .lightProfile path shared, p =>
    { p with registry := (g.resolver.lightProfile p.registry path shared).2 }
  | .bsdfMeasurement path shared, p =>
    { p with registry := (g.resolver.bsdfMeasurement p.registry path shared).2 }

def run (g : Registrar) (qs : List Request) (p : Progress) : Progress :=
  qs.foldl (fun p q => g.after q p) p

@[simp] theorem run_nil (g : Registrar) (p : Progress) : g.run [] p = p := rfl

@[simp] theorem run_cons (g : Registrar) (q : Request) (qs : List Request) (p : Progress) :
    g.run (q :: qs) p = g.run qs (g.after q p) := rfl

theorem after_cases (hg : g.resolver.EntersResources) (q : Request) (p : Progress) :
    (∃ c, q = .creation c) ∨ (g.after q p).registry = p.registry ∨
      ∃ x y, x.element = .resource y ∧ p.registry.tag? x.name = none ∧
        (g.after q p).registry = p.registry.add x := by
  cases q with
  | creation c => exact .inl ⟨c, rfl⟩
  | texture path shape gamma shared => exact .inr (hg.absolute _ _)
  | lightProfile path shared => exact .inr (hg.absolute _ _)
  | bsdfMeasurement path shared => exact .inr (hg.absolute _ _)

theorem Registers.entry (hg : g.resolver.EntersResources) {r r₁ r₂ : Registry}
    {ms : List CompiledModule} (before : g.Registers r ms r₁) {m : CompiledModule}
    (unbound : r.tag? (Name.registered m.name) = none) {code : GeneratedCode} {imports : List Tag}
    {t : Tag} (enters : g.Enters r₁ m code imports t r₂) :
    ∃ xs : List Record, r₂ = r₁.addAll xs ∧ ∀ x ∈ xs, r.tag? x.name = none := by
  obtain ⟨e, hwhole, -, hr₂, he, hcode, hpresents⟩ := enters.entry hg
  refine ⟨e.records, hr₂, fun x hx => ?_⟩
  rcases List.mem_append.mp hx with hx | hx
  · exact before.tag?_eq_none hg (hpresents.free.unbound x hx)
  · rcases List.mem_cons.mp hx with rfl | hx
    · rw [he]
      exact unbound
    · exact before.tag?_eq_none hg (hcode _ (hwhole.name_mem_registeredNames he hx))

theorem Registers.extends {r r' : Registry} (hg : g.resolver.EntersResources)
    {ms : List CompiledModule} (h : g.Registers r ms r') (hr : r.Bounded) : r.Extends r' := by
  induction h with
  | nil => exact .refl r
  | snoc before unbound enters ih =>
    obtain ⟨xs, rfl, hxs⟩ := before.entry hg unbound enters
    exact ih.addAll (before.bounded hg hr) hxs

theorem perform_registers (hg : g.resolver.EntersResources) (q : CreationRequest) (p : Progress) :
    ∃ ms, g.Registers p.registry ms (g.perform q p).2.registry := by
  rcases hrun : g.perform q p with ⟨x, s⟩
  rcases perform_cases hrun with ⟨-, heq, -⟩ | ⟨m, u, v, hhanded, hfinal, hv⟩
  · rw [heq]
    exact ⟨[], .nil⟩
  · rw [hv.registry, ← (idle_of_handed hhanded).registry]
    obtain ⟨ms, hms, -⟩ := (finalize_finalizes hg m hfinal).registers (by simp)
    exact ⟨ms, hms⟩

/-- What one request does to the registry: modules enter in order, or one resource under a free name. -/
theorem after_registers (hg : g.resolver.EntersResources) (q : Request) (p : Progress) :
    (∃ ms, g.Registers p.registry ms (g.after q p).registry) ∨
      ∃ x y, x.element = .resource y ∧ p.registry.tag? x.name = none ∧
        (g.after q p).registry = p.registry.add x := by
  rcases after_cases hg q p with ⟨c, rfl⟩ | hsame | hnew
  · exact .inl (perform_registers hg c p)
  · rw [hsame]
    exact .inl ⟨[], .nil⟩
  · exact .inr hnew

theorem after_extends (hg : g.resolver.EntersResources) (q : Request) {p : Progress}
    (hp : p.registry.Bounded) :
    (g.after q p).registry.Bounded ∧ p.registry.Extends (g.after q p).registry := by
  rcases after_registers hg q p with ⟨ms, hms⟩ | ⟨x, y, -, hunbound, hnew⟩
  · exact ⟨hms.bounded hg hp, hms.extends hg hp⟩
  · rw [hnew]
    have hnames : ∀ z ∈ [x], p.registry.tag? z.name = none := by
      intro z hz
      cases List.mem_singleton.mp hz
      exact hunbound
    exact ⟨hp.addAll [x], (Registry.Extends.refl _).addAll hp hnames⟩

/-- Requests, whatever they are and whatever comes of them, keep every binding and every record and take
back no tag. -/
theorem run_extends (hg : g.resolver.EntersResources) (qs : List Request) {p : Progress}
    (hp : p.registry.Bounded) : p.registry.Extends (g.run qs p).registry := by
  induction qs generalizing p with
  | nil => exact .refl _
  | cons q qs ih =>
    obtain ⟨hbounded, hextends⟩ := after_extends hg q hp
    exact hextends.trans (ih hbounded)

def collidingTop : Registrar where
  toolchain := PreparedToolchain.toolchain
    { modules := [("::left", { name := "::left" }),
        ("::top", { name := "::top", imports := [{ name := "::left" }] })]
      codes := [("::left", .ok { functions := [{ name := "::left::f()", returnType := .material }] }),
        ("::top", .ok { functions := [{ name := "::top::f()", returnType := .material }] })] }
  resolver := Resolver.refusing (· == "/refused.ies") Resolver.registry

def takenName : Progress where
  registry := Registry.empty.addAll
    [⟨"mdl::top::f()", .resource ⟨.lightProfile, "/spot.ies", none, false⟩, .browsable⟩]

theorem run_collidingTop :
    let s := collidingTop.run [.creation (.loaded "::top"), .lightProfile "/refused.ies" false,
      .lightProfile "/spot.ies" true, .creation (.loaded "::left")] takenName
    takenName.registry.Bounded ∧
    s.registry.records.map (·.2.name) =
      ["mdlr::light_profile::/spot.ies", "mdl::left::f()", "mdl::left", "mdl::top::f()"] ∧
    takenName.registry.Extends s.registry := by
  have hbounded : takenName.registry.Bounded := Registry.bounded_empty.addAll _
  refine ⟨hbounded, by decide +kernel, ?_⟩
  exact run_extends (Resolver.refusing_entersResources Resolver.registry_entersResources _) _ hbounded

end Registrar

end MaterialModules
