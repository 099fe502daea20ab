import MaterialModules.Proofs.Registration.Naming
import MaterialModules.Proofs.Registration.Session

set_option autoImplicit false

namespace MaterialModules

namespace Registry

/-- Names identify records. -/
structure UniquelyNamed (r : Registry) : Prop where
  distinct : ∀ t u x y, r.record? t = some x → r.record? u = some y → x.name = y.name → t = u
  inverse : ∀ n t, r.tag? n = some t ↔ r.name? t = some n
  listed : r.browsableNames.Nodup

def Followed (r : Registry) : Prop := ∀ t m, r.module? t = some m →
  ∀ i n, (m.functions ++ m.materials)[i]? = some n → r.name? ⟨t.id + 1 + i⟩ = some n

theorem UniquelyNamed.nodup_of_followed {r : Registry} (h : r.UniquelyNamed) (hr : r.Followed) {t : Tag}
    {m : ModuleRecord} (hm : r.module? t = some m) : (m.functions ++ m.materials).Nodup := by
  rw [List.nodup_iff_getElem?_ne_getElem?]
  intro i j hij hj heq
  have hn := List.getElem?_eq_getElem hj
  have hi := (h.inverse _ _).mpr (hr t m hm i _ (heq.trans hn))
  have hj := (h.inverse _ _).mpr (hr t m hm j _ hn)
  have := Tag.mk.inj (Option.some.inj (hi.symm.trans hj))
  omega

theorem uniquelyNamed_of_nodup {r : Registry} (hn : r.Named) (hb : r.NamesBound)
    (h : (r.records.map fun e => e.2.name).Nodup) : r.UniquelyNamed := by
  have distinct : ∀ t u x y, r.record? t = some x → r.record? u = some y → x.name = y.name → t = u := by
    intro t u x y hx hy hxy
    have := List.inj_on_of_nodup_map h (mem_records hx) (mem_records hy) hxy
    exact congrArg Prod.fst this
  refine ⟨distinct, fun n t => ⟨hn n t, fun ht => ?_⟩, ?_⟩
  · -- the name leads to a record that has it too, which can only be this one
    obtain ⟨x, hx, rfl⟩ := record?_of_name ht
    obtain ⟨u, hu⟩ := Option.ne_none_iff_exists'.mp (hb t x (mem_records hx))
    obtain ⟨y, hy, hxy⟩ := record?_of_name (hn _ u hu)
    rw [hu, distinct t u x y hx hy hxy.symm]
  · unfold browsableNames
    refine (List.mergeSort_perm _ _).nodup_iff.mpr (h.sublist ?_)
    exact (List.filter_sublist).map _

theorem Free.nodup_names {r : Registry} {xs : List Record} (h : r.Free xs) (hr : r.Bounded)
    (hb : r.NamesBound) (hnames : (r.records.map fun e => e.2.name).Nodup) :
    ((r.addAll xs).records.map fun e => e.2.name).Nodup := by
  obtain ⟨es, hes, hmap⟩ := hr.records_addAll xs
  have hnew : (es.map fun e => e.2.name) = (xs.map (·.name)).reverse := by
    rw [← List.map_reverse, ← hmap, List.map_map]
    rfl
  rw [hes, List.map_append, hnew]
  refine (List.nodup_reverse.mpr h.distinct).append hnames fun n hn hn' => ?_
  obtain ⟨x, hx, rfl⟩ := List.mem_map.mp (List.mem_reverse.mp hn)
  obtain ⟨⟨t, y⟩, hy, heq⟩ := List.mem_map.mp hn'
  exact hb t y hy (heq ▸ h.unbound x hx)

/-- What holds of the names and tags in a registry whatever toolchains answer. -/
structure Tidy (r : Registry) : Prop where
  bounded : r.Bounded
  named : r.Named
  namesBound : r.NamesBound
  followed : r.Followed

theorem Tidy.empty : Tidy {} where
  bounded := bounded_empty
  named := named_empty
  namesBound := namesBound_empty
  followed := by
    intro t m h
    cases h

theorem Tidy.addAll {r : Registry} (h : r.Tidy) {xs : List Record}
    (hxs : ∀ t x m, Added r (r.addAll xs) t x → x.element = .module m →
      ∀ i n, (m.functions ++ m.materials)[i]? = some n →
        (r.addAll xs).name? ⟨t.id + 1 + i⟩ = some n) : (r.addAll xs).Tidy where
  bounded := h.bounded.addAll xs
  named := h.named.addAll h.bounded xs
  namesBound := h.namesBound.addAll h.bounded xs
  followed := by
    intro t m hm i n hn
    obtain ⟨x, hx, hxm⟩ := module?_eq_some_iff.mp hm
    by_cases hold : r.record? t = some x
    · have hname := h.followed t m (module?_eq_some_iff.mpr ⟨x, hold, hxm⟩) i n hn
      obtain ⟨y, hy, rfl⟩ := record?_of_name hname
      exact name?_of_record (h.bounded.record?_addAll xs hy)
    · exact hxs t x m ⟨hx, hold⟩ hxm i n hn

theorem Tidy.add_resource {r : Registry} (h : r.Tidy) {x : Record} {y : Resource}
    (hx : x.element = .resource y) : (r.add x).Tidy := by
  have hnew : ∀ t z m, Added r (r.addAll [x]) t z → z.element ≠ .module m := by
    intro t z m hz hm
    obtain ⟨i, hi, -⟩ := (h.bounded.added_addAll_iff _ _ _).mp hz
    cases List.mem_singleton.mp (List.mem_of_getElem? hi)
    rw [hx] at hm
    cases hm
  exact h.addAll fun t z m hz hm => absurd hm (hnew t z m hz)

end Registry

theorem ModuleEntry.Whole.name?_definition {e : ModuleEntry} {r : Registry} (h : e.Whole r) {i : Nat}
    {n : String} (hn : (e.module.functions ++ e.module.materials)[i]? = some n) :
    (r.addAll e.records).name? ⟨(e.tag r).id + 1 + i⟩ = some n := by
  rw [← h.names, List.getElem?_map] at hn
  obtain ⟨x, hx, rfl⟩ := Option.map_eq_some_iff.mp hn
  rw [← e.getElem?_records_definition] at hx
  obtain ⟨hlt, rfl⟩ := List.getElem?_eq_some_iff.mp hx
  have hfound := Registry.record?_addAll_fresh r e.records _ hlt
  rw [show r.lastTag + 1 + (e.resources.length + 1 + i) = (e.tag r).id + 1 + i by
    show _ = r.lastTag + 1 + e.resources.length + 1 + i
    omega] at hfound
  exact Registry.name?_of_record hfound

namespace Registrar

variable {g : Registrar} {r r' : Registry}

theorem Registers.tidy (hg : g.resolver.EntersResources) {ms : List CompiledModule}
    (h : g.Registers r ms r') (hr : r.Tidy) : r'.Tidy := by
  induction h with
  | nil => exact hr
  | snoc before unbound enters ih =>
    obtain ⟨e, hwhole, -, rfl, -⟩ := enters.entry hg
    refine ih.addAll fun t x m hx hm i n hn => ?_
    obtain ⟨rfl, rfl⟩ := hwhole.added_module_eq ih.bounded hx hm
    exact hwhole.name?_definition hn

theorem after_tidy (hg : g.resolver.EntersResources) (q : Request) {p : Progress}
    (hp : p.registry.Tidy) : (g.after q p).registry.Tidy := by
  rcases after_registers hg q p with ⟨ms, hms⟩ | ⟨x, y, hy, -, hnew⟩
  · exact hms.tidy hg hp
  · exact hnew ▸ hp.add_resource hy

theorem run_tidy (hg : g.resolver.EntersResources) (qs : List Request) {p : Progress}
    (hp : p.registry.Tidy) : (g.run qs p).registry.Tidy := by
  induction qs generalizing p with
  | nil => exact hp
  | cons q qs ih => exact ih (after_tidy hg q hp)

/-- What a request enters is free, if no module that it leaves lists a name twice. -/
theorem after_free (hg : g.resolver.EntersResources) (hs : g.toolchain.SignsEntities)
    (hm : g.toolchain.NamesModules) (q : Request) {p : Progress} (hp : p.registry.Tidy)
    (hd : ∀ t m, (g.after q p).registry.module? t = some m → (m.functions ++ m.materials).Nodup) :
    ∃ xs, (g.after q p).registry = p.registry.addAll xs ∧ p.registry.Free xs := by
  rcases after_cases hg q p with ⟨c, rfl⟩ | hsame | ⟨x, y, -, hunbound, hnew⟩
  · rcases hrun : g.perform c p with ⟨a, s⟩
    have hs' : (g.after (.creation c) p).registry = s.registry := congrArg (·.2.registry) hrun
    rw [hs'] at hd ⊢
    rcases perform_grows hg hp.bounded hp.named hrun with ⟨-, heq⟩ | ⟨m, u, hhanded, hgrows⟩
    · exact ⟨[], heq, .nil⟩
    · exact hgrows.exists_free hg hs (hm.wellNamed hhanded) hp.bounded fun t x n hx hn =>
        hd t n (Registry.module?_eq_some_iff.mpr ⟨x, hx.1, hn⟩)
  · exact ⟨[], hsame, .nil⟩
  · exact ⟨[x], hnew, .singleton hunbound⟩

theorem run_nodup_names (hg : g.resolver.EntersResources) (hs : g.toolchain.SignsEntities)
    (hm : g.toolchain.NamesModules) (qs : List Request) {p : Progress} (hp : p.registry.Tidy)
    (hnames : (p.registry.records.map fun e => e.2.name).Nodup)
    (hd : ∀ t m, (g.run qs p).registry.module? t = some m → (m.functions ++ m.materials).Nodup) :
    ((g.run qs p).registry.records.map fun e => e.2.name).Nodup := by
  induction qs generalizing p with
  | nil => exact hnames
  | cons q qs ih =>
    have htidy := after_tidy hg q hp
    have hlater := run_extends hg qs htidy.bounded
    obtain ⟨xs, hxs, hfree⟩ := after_free hg hs hm q hp fun t m ht =>
      hd t m (Registry.module?_of_record hlater.record ht)
    refine ih htidy ?_ hd
    rw [hxs]
    exact hfree.nodup_names hp.bounded hp.namesBound hnames

/-- In a registry that requests lead to, names identify records exactly if no module lists a name
twice. -/
theorem run_uniquelyNamed_iff (hg : g.resolver.EntersResources) (hs : g.toolchain.SignsEntities)
    (hm : g.toolchain.NamesModules) (qs : List Request) :
    (g.run qs {}).registry.UniquelyNamed ↔
      ∀ t m, (g.run qs {}).registry.module? t = some m → (m.functions ++ m.materials).Nodup := by
  have htidy := run_tidy hg qs (p := {}) .empty
  constructor
  · intro h t m ht
    exact h.nodup_of_followed htidy.followed ht
  · intro hd
    exact Registry.uniquelyNamed_of_nodup htidy.named htidy.namesBound
      (run_nodup_names hg hs hm qs .empty List.nodup_nil hd)

def namesakes (second : String) : PreparedToolchain where
  modules := [("::m", { name := "::m", imports := [{ name := "::n" }] })]
  codes := [("::n", .ok { functions := [{ name := "::n::f(int)", returnType := .material }] }),
    ("::m", .ok
      { functions := [{ name := "::m::f(int)", returnType := ⟨.int, {}⟩ },
          { name := second, returnType := ⟨.int, {}⟩, exported := false }]
        materials := [{ name := "::m::f()", returnType := .material }] })]

theorem namesModules_namesakes (second : String) : (namesakes second).closed.NamesModules := by
  refine PreparedToolchain.namesModules_closed fun e he => ?_
  cases List.mem_singleton.mp he
  refine CompiledModule.wellNamed_of_imports ⟨⟨"m", rfl⟩, by decide⟩ fun i hi => ?_
  cases List.mem_singleton.mp hi
  exact CompiledModule.wellNamed_of_imports ⟨⟨"n", rfl⟩, by decide⟩ (by simp)

theorem signsEntities_namesakes {second : String} (h : Name.OfEntity second) :
    (namesakes second).closed.SignsEntities := by
  refine PreparedToolchain.signsEntities_closed fun c hc code hcode e he => ?_
  rcases List.mem_cons.mp hc with rfl | hc
  · cases hcode
    cases List.mem_singleton.mp he
    decide
  · cases List.mem_singleton.mp hc
    cases hcode
    have hnames : ∀ name ∈ ["::m::f(int)", second, "::m::f()"], Name.OfEntity name := by
      simp only [List.forall_mem_cons]
      exact ⟨by decide, h, by decide, by simp⟩
    exact hnames e.name (List.mem_map_of_mem (f := (·.name)) he)

def namesakesRegistered (second : String) : Progress :=
  Registrar.run { toolchain := (namesakes second).closed }
    [.creation (.loaded "::m"), .lightProfile "/spot.ies" false] {}

theorem uniquelyNamed_namesakes :
    (namesakesRegistered "::m::g(int)").registry.size = 7 ∧
    (namesakesRegistered "::m::g(int)").registry.UniquelyNamed := by
  have hlists : ((namesakesRegistered "::m::g(int)").registry.records.all fun e =>
      ((namesakesRegistered "::m::g(int)").registry.module? e.1).all fun m =>
        decide (m.functions ++ m.materials).Nodup) = true := by decide +kernel
  refine ⟨by decide +kernel, ?_⟩
  have hiff : (namesakesRegistered "::m::g(int)").registry.UniquelyNamed ↔
      ∀ t m, (namesakesRegistered "::m::g(int)").registry.module? t = some m →
        (m.functions ++ m.materials).Nodup :=
    run_uniquelyNamed_iff Resolver.registry_entersResources (signsEntities_namesakes (by decide))
      (namesModules_namesakes _) _
  refine hiff.mpr fun t m hm => ?_
  obtain ⟨x, hx, -⟩ := Registry.module?_eq_some_iff.mp hm
  have := List.all_eq_true.mp hlists (t, x) (Registry.mem_records hx)
  rw [hm] at this
  exact of_decide_eq_true this

/-- A function that comes twice is registered twice, and its name leads to the second record only. -/
theorem not_uniquelyNamed_namesakes :
    (namesakes "::m::f(int)").closed.NamesModules ∧ (namesakes "::m::f(int)").closed.SignsEntities ∧
    ¬ (namesakesRegistered "::m::f(int)").registry.UniquelyNamed := by
  refine ⟨namesModules_namesakes _, signsEntities_namesakes (by decide), fun h => ?_⟩
  have hname : (namesakesRegistered "::m::f(int)").registry.name? ⟨4⟩ = some "mdl::m::f(int)" := by
    decide +kernel
  have htag : (namesakesRegistered "::m::f(int)").registry.tag? "mdl::m::f(int)" = some ⟨5⟩ := by
    decide +kernel
  rw [(h.inverse _ _).mpr hname] at htag
  cases htag

end Registrar

end MaterialModules
