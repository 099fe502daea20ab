import MaterialModules.Proofs.Registration.Order

set_option autoImplicit false

namespace MaterialModules

structure Toolchain.NamesModules (t : Toolchain) : Prop where
  load : ∀ events lookup name m, t.load events lookup name = .ok m → m.WellNamed
  loadText : ∀ events lookup name text m, t.loadText events lookup name text = .ok m → m.WellNamed
  analyze : ∀ events lookup source m, t.analyze events lookup source = .ok m → m.WellNamed

theorem Toolchain.NamesModules.wellNamed {g : Registrar} (h : g.toolchain.NamesModules)
    {q : CreationRequest} {p u : Progress} {m : CompiledModule} (hm : g.handed? q p = some (m, u)) :
    m.WellNamed := by
  cases q with
  | loaded name => exact h.load _ _ _ _ (Registrar.load_of_handed hm)
  | text name text => exact h.loadText _ _ _ _ _ (Registrar.loadText_of_handed hm)
  | variants name vs | materials name ms =>
    obtain ⟨r, _, -, hm⟩ := Work.bind_ok (Registrar.acquire_of_handed hm)
    obtain ⟨version, _, -, hm⟩ := Work.bind_ok hm
    obtain ⟨events, lookup, source, hm⟩ := Registrar.analyze_of_assemble hm
    exact h.analyze _ _ _ _ hm

def Toolchain.ListsDistinct (t : Toolchain) : Prop :=
  ∀ events m options code, t.generate events m options = .ok code → code.registeredNames.Nodup

def PreparedToolchain.closed (p : PreparedToolchain) : Toolchain :=
  { p.toolchain with
    loadText := fun _ _ _ _ => .error []
    analyze := fun _ _ _ => .error []
    generate := fun _ m _ => (p.codes.lookup m.name).getD (.ok {}) }

namespace PreparedToolchain

variable {p : PreparedToolchain}

theorem namesModules_closed (h : ∀ e ∈ p.modules, e.2.WellNamed) : p.closed.NamesModules where
  load := by
    intro events lookup name m hm
    simp only [closed, toolchain] at hm
    split at hm
    · rename_i n hn
      cases hm
      obtain ⟨l₁, l₂, hl, -⟩ := List.lookup_eq_some_iff.mp hn
      exact h (name, m) (List.mem_reverse.mp (hl ▸ List.mem_append_right _ List.mem_cons_self))
    · cases hm
  loadText := by
    intro events lookup name text m hm
    cases hm
  analyze := by
    intro events lookup source m hm
    cases hm

theorem code_of_generate_closed {events : List Event} {m : CompiledModule} {options : GenerationOptions}
    {code : GeneratedCode} (h : p.closed.generate events m options = .ok code) :
    code = {} ∨ ∃ c ∈ p.codes, c.2 = .ok code := by
  simp only [closed] at h
  cases hlookup : p.codes.lookup m.name with
  | none =>
    rw [hlookup] at h
    exact .inl (Except.ok.inj h).symm
  | some answer =>
    rw [hlookup] at h
    obtain ⟨l₁, l₂, hl, -⟩ := List.lookup_eq_some_iff.mp hlookup
    exact .inr ⟨(m.name, answer), hl ▸ List.mem_append_right _ List.mem_cons_self, h⟩

theorem signsEntities_closed (h : ∀ c ∈ p.codes, ∀ code, c.2 = .ok code →
    ∀ e ∈ code.functions ++ code.materials, Name.OfEntity e.name) : p.closed.SignsEntities := by
  intro events m options code hcode e he
  rcases code_of_generate_closed hcode with rfl | ⟨c, hc, hcode⟩
  · cases he
  · exact h c hc code hcode e he

theorem listsDistinct_closed (h : ∀ c ∈ p.codes, ∀ code, c.2 = .ok code → code.registeredNames.Nodup) :
    p.closed.ListsDistinct := by
  intro events m options code hcode
  rcases code_of_generate_closed hcode with rfl | ⟨c, hc, hcode⟩
  · exact List.nodup_nil
  · exact h c hc code hcode

end PreparedToolchain

namespace ModuleEntry

variable {e : ModuleEntry} {r : Registry} {code : GeneratedCode}

theorem Whole.map_name_records (h : e.Whole r) :
    e.records.map (·.name) = e.resources.map (·.name) ++
      Name.registered e.module.name :: (e.module.functions ++ e.module.materials) := by
  rw [records, List.map_append, List.map_cons, h.names]

/-- The records of a module are free if its own name and those that it lists are, and the names that it
lists differ. -/
theorem Whole.free (h : e.Whole r) (hresources : r.Free e.resources)
    (hmodule : r.tag? (Name.registered e.module.name) = none)
    (hentities : ∀ n ∈ e.module.functions ++ e.module.materials,
      (∃ name, n = Name.registered name) ∧ n ≠ Name.registered e.module.name ∧ r.tag? n = none)
    (hdistinct : (e.module.functions ++ e.module.materials).Nodup) : r.Free e.records where
  unbound x hx := by
    have hname : x.name ∈ e.records.map (·.name) := List.mem_map_of_mem hx
    rw [h.map_name_records] at hname
    rcases List.mem_append.mp hname with hname | hname
    · obtain ⟨y, hy, heq⟩ := List.mem_map.mp hname
      exact heq ▸ hresources.unbound y hy
    · rcases List.mem_cons.mp hname with heq | hname
      · exact heq ▸ hmodule
      · exact (hentities _ hname).2.2
  distinct := by
    rw [h.map_name_records]
    refine hresources.distinct.append ?_ fun n hn hn' => ?_
    · exact List.nodup_cons.mpr ⟨fun hmem => (hentities _ hmem).2.1 rfl, hdistinct⟩
    · obtain ⟨y, hy, rfl⟩ := List.mem_map.mp hn
      obtain ⟨name, z, hname, -⟩ := h.resource y hy
      have hregistered : ∃ m, y.name = Name.registered m := by
        rcases List.mem_cons.mp hn' with heq | hmem
        · exact ⟨_, heq⟩
        · exact (hentities _ hmem).1
      obtain ⟨m, hm⟩ := hregistered
      exact Name.registered_ne_resource m name (hname ▸ hm)

end ModuleEntry

namespace Registrar

variable {g : Registrar} {m top : CompiledModule} {r r' : Registry} {first last : List Event}

theorem Enters.entry_free (hg : g.resolver.EntersResources) (hs : g.toolchain.SignsEntities)
    (hm : Name.OfModule m.name) (hfree : r.tag? (Name.registered m.name) = none) {code : GeneratedCode}
    {imports : List Tag} {t : Tag} (h : g.Enters r m code imports t r') :
    ∃ e : ModuleEntry, e.Whole r ∧ t = e.tag r ∧ r' = r.addAll e.records ∧
      e.module = m.record (g.toolchain.isBuiltin m.name) code imports e.module.resources ∧
      e.Presents r code ∧ (code.registeredNames.Nodup → r.Free e.records) := by
  obtain ⟨e, hwhole, ht, hr', he, hcode, hpresents⟩ := h.entry hg
  refine ⟨e, hwhole, ht, hr', he, hpresents, fun hdistinct => ?_⟩
  have hname : e.module.name = m.name := by rw [he]; rfl
  have hlisted : e.module.functions ++ e.module.materials = code.registeredNames := by rw [he]; rfl
  refine hwhole.free hpresents.free (hname ▸ hfree) (fun n hn => ?_) (hlisted ▸ hdistinct)
  rw [hlisted] at hn
  obtain ⟨entity, hentity, rfl⟩ := GeneratedCode.mem_registeredNames.mp hn
  obtain ⟨events, hgen⟩ := h.generated
  exact ⟨⟨_, rfl⟩, hname ▸ hm.registered_ne_entity (hs _ _ _ _ hgen entity hentity), hcode _ hn⟩

theorem Grows.exists_free (hg : g.resolver.EntersResources) (hs : g.toolchain.SignsEntities)
    (htop : top.WellNamed) (h : g.Grows top first last r r') (hr : r.Bounded)
    (hd : ∀ t x n, Registry.Added r r' t x → x.element = .module n →
      (n.functions ++ n.materials).Nodup) : ∃ xs, r' = r.addAll xs ∧ r.Free xs := by
  induction h with
  | refl => exact ⟨[], rfl, .nil⟩
  | @enters r₁ _ n _ _ _ before reached unbound free imported asked enters ih =>
    obtain ⟨e, hwhole, -, rfl, he, hpresents, hfree⟩ :=
      enters.entry_free hg hs (htop n reached) (free hs htop)
    have hr₁ := before.bounded hg hr
    have hlisted : (e.module.functions ++ e.module.materials).Nodup := by
      have hadded := e.added_module hr₁
      refine hd _ _ e.module ⟨hadded.1, fun hold => hadded.2 (before.kept hg hr _ _ hold)⟩ rfl
    obtain ⟨xs, rfl, hxs⟩ := ih fun t x n hx hn =>
      hd t x n (hx.of_kept fun _ _ hold => hr₁.record?_addAll _ hold) hn
    refine ⟨xs ++ e.records, (r.addAll_append xs e.records).symm, hxs.append (hfree ?_)⟩
    rw [he] at hlisted
    exact hlisted

end Registrar

end MaterialModules
