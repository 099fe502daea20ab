import MaterialModules.Proofs.Registration.Variants
import MaterialModules.Proofs.Synthesis.Originals
import Mathlib.Data.List.Perm.Basic

set_option autoImplicit false

namespace MaterialModules

namespace Version

theorem foldl_newer (vs : List Version) (v : Version) :
    (vs.foldl newer v = v ∨ vs.foldl newer v ∈ vs) ∧ v.minor ≤ (vs.foldl newer v).minor ∧
      ∀ w ∈ vs, w.minor ≤ (vs.foldl newer v).minor := by
  induction vs generalizing v with
  | nil => simp
  | cons w vs ih =>
    obtain ⟨hmem, hle, hall⟩ := ih (v.newer w)
    rw [minor_newer] at hle
    rw [List.foldl_cons, List.forall_mem_cons]
    refine ⟨?_, by omega, by omega, hall⟩
    rcases hmem with hmem | hmem
    · rw [hmem]
      unfold newer
      split
      · exact .inr List.mem_cons_self
      · exact .inl rfl
    · exact .inr (List.mem_cons_of_mem _ hmem)

theorem minor_le_newest {vs : List Version} {v : Version} (h : v ∈ vs) :
    v.minor ≤ (newest vs).minor := (foldl_newer vs oldest).2.2 v h

theorem newest_mem {vs : List Version} (h : vs ≠ []) : newest vs ∈ vs := by
  obtain ⟨v, hv⟩ := List.exists_mem_of_ne_nil vs h
  rcases (foldl_newer vs oldest).1 with holdest | hmem
  · -- then all of them are the oldest version
    have hle := minor_le_newest hv
    rw [newest, holdest] at hle ⊢
    rwa [← minor_injective (v := v) (w := oldest) (Nat.le_antisymm hle (Nat.zero_le _))]
  · exact hmem

theorem newest_perm {vs ws : List Version} (h : vs.Perm ws) : newest vs = newest ws := by
  by_cases hvs : vs = []
  · obtain rfl := hvs
    rw [h.nil_eq]
  · have hws : ws ≠ [] := fun hws => hvs (hws ▸ h).eq_nil
    refine minor_injective (Nat.le_antisymm ?_ ?_)
    · exact minor_le_newest (h.mem_iff.mp (newest_mem hvs))
    · exact minor_le_newest (h.mem_iff.mpr (newest_mem hws))

end Version

namespace Registry

def ownerVersion (r : Registry) (t : Tag) : Except ModuleError Version :=
  match r.ownerVersion? t with
  | some v => .ok v
  | none => .error (.invalidPrototype (.unusable t))

theorem mapM_ownerVersion {r : Registry} {ts : List Tag} {vs : List Version} :
    ts.mapM r.ownerVersion = .ok vs ↔
      (∀ t ∈ ts, ∃ w, r.ownerVersion? t = some w) ∧ vs = ts.filterMap r.ownerVersion? := by
  induction ts generalizing vs with
  | nil => simp [pure, Except.pure, eq_comm]
  | cons t ts ih =>
    rw [List.mapM_cons, List.forall_mem_cons]
    cases ht : r.ownerVersion? t with
    | none => simp [ownerVersion, ht, bind, Except.bind]
    | some w =>
      rw [List.filterMap_cons_some ht]
      have hw : r.ownerVersion t = .ok w := by simp [ownerVersion, ht]
      rw [hw]
      constructor
      · intro h
        cases hts : ts.mapM r.ownerVersion with
        | error e =>
          rw [hts] at h
          cases h
        | ok ws =>
          rw [hts] at h
          obtain ⟨hall, rfl⟩ := ih.mp hts
          cases h
          exact ⟨⟨⟨w, rfl⟩, hall⟩, rfl⟩
      · rintro ⟨⟨-, hall⟩, rfl⟩
        rw [ih.mpr ⟨hall, rfl⟩]
        rfl

theorem newestVersion_ok_iff {r : Registry} {ts : List Tag} {version : Version} :
    r.newestVersion false ts = .ok version ↔
      (∀ t ∈ ts, ∃ w, r.ownerVersion? t = some w) ∧
        version = Version.newest (ts.filterMap r.ownerVersion?) := by
  have hdef : r.newestVersion false ts = (ts.mapM r.ownerVersion).map Version.newest := by
    show (ts.mapM r.ownerVersion).bind (fun vs => .ok (Version.newest vs)) = _
    cases ts.mapM r.ownerVersion <;> rfl
  rw [hdef]
  constructor
  · intro h
    cases hvs : ts.mapM r.ownerVersion with
    | error e =>
      rw [hvs] at h
      cases h
    | ok vs =>
      rw [hvs] at h
      obtain ⟨hall, rfl⟩ := mapM_ownerVersion.mp hvs
      cases h
      exact ⟨hall, rfl⟩
  · rintro ⟨hall, rfl⟩
    rw [mapM_ownerVersion.mpr ⟨hall, rfl⟩]
    rfl

end Registry

namespace Registrar

variable {g : Registrar} {name : String} {vs : List VariantRequest} {p : Progress}
  {source : Source.Module}

theorem mem_ownerVersions {v : VariantRequest} (hv : v ∈ vs) {w : Version}
    (hw : p.registry.ownerVersion? v.prototype = some w) :
    w ∈ vs.filterMap fun v => p.registry.ownerVersion? v.prototype :=
  List.mem_filterMap.mpr ⟨v, hv, hw⟩

theorem version_of_analyzes (hblank : g.toolchain.blank = fun name version => { name, version })
    (h : g.Analyzes (.variants name vs) p source) :
    (∀ v ∈ vs, ∃ w, p.registry.ownerVersion? v.prototype = some w) ∧
      source.version = Version.newest (vs.filterMap fun v => p.registry.ownerVersion? v.prototype) := by
  obtain ⟨-, -, version, fs, hversion, -, rfl⟩ := analyzes_variants_iff.mp h
  obtain ⟨howned, rfl⟩ := Registry.newestVersion_ok_iff.mp hversion
  rw [List.forall_mem_map] at howned
  rw [List.filterMap_map, Source.Module.extend_eq, hblank]
  exact ⟨howned, rfl⟩

theorem functions_of_analyzes (hblank : g.toolchain.blank = fun name version => { name, version })
    (h : g.Analyzes (.variants name vs) p source) :
    List.Forall₂ (fun v f => ∃ base, p.registry.Clones v base f) vs source.functions := by
  obtain ⟨-, -, version, fs, -, hfs, rfl⟩ := analyzes_variants_iff.mp h
  have hblank' : (g.toolchain.blank name version).declarations = [] := by rw [hblank]
  rw [((p.registry.coversAll_variants vs).wellImported hfs hblank').2]
  exact (Mentioning.forall₂_of_mapM_ok hfs).imp fun v f => Registry.clones_of_variant

theorem Analyzes.perm (h : g.Analyzes (.variants name vs) p source) {order : List VariantRequest}
    (horder : vs.Perm order) : ∃ source', g.Analyzes (.variants name order) p source' := by
  obtain ⟨hallows, hfree, version, fs, hversion, hfs, -⟩ := analyzes_variants_iff.mp h
  obtain ⟨howned, -⟩ := Registry.newestVersion_ok_iff.mp hversion
  have hmade := Mentioning.mapM_ok_iff.mp ⟨fs, hfs⟩
  obtain ⟨fs', hfs'⟩ := Mentioning.mapM_ok_iff.mpr fun v hv => hmade v (horder.mem_iff.mpr hv)
  have hversion' := Registry.newestVersion_ok_iff.mpr
    ⟨fun t ht => howned t ((horder.map _).mem_iff.mpr ht), rfl⟩
  exact ⟨_, analyzes_variants_iff.mpr ⟨hallows, hfree, _, fs', hversion', hfs', rfl⟩⟩

/-- The module of variants that is handed over has the newest version among the modules that own the given
definitions, and the oldest version if there are none, whatever the order. So it has at least the version
of the module that owns what a declaration calls if the given definition is an original, and in general
exactly if that module is no newer than some of those. -/
theorem variants_version (hblank : g.toolchain.blank = fun name version => { name, version })
    (h : g.Analyzes (.variants name vs) p source) :
    (vs = [] → source.version = .v1_0) ∧
    (vs ≠ [] → ∃ v ∈ vs, p.registry.ownerVersion? v.prototype = some source.version) ∧
    (∀ v ∈ vs, ∃ w, p.registry.ownerVersion? v.prototype = some w ∧ w.minor ≤ source.version.minor) ∧
    (∀ f ∈ source.functions, ∃ v ∈ vs, ∃ d base, p.registry.definition? v.prototype = some d ∧
      p.registry.Clones v base f ∧
      (d.prototype = none →
        ∃ m, p.registry.module? base.module = some m ∧ m.version.minor ≤ source.version.minor) ∧
      ∀ m, p.registry.module? base.module = some m →
        (m.version.minor ≤ source.version.minor ↔ ∃ u ∈ vs, ∃ w,
          p.registry.ownerVersion? u.prototype = some w ∧ m.version.minor ≤ w.minor)) ∧
    ∀ order, vs.Perm order → (∃ source', g.Analyzes (.variants name order) p source') ∧
      ∀ source', g.Analyzes (.variants name order) p source' → source'.version = source.version := by
  obtain ⟨howned, hversion⟩ := version_of_analyzes hblank h
  have hle : ∀ v ∈ vs, ∀ w, p.registry.ownerVersion? v.prototype = some w →
      w.minor ≤ source.version.minor := by
    intro v hv w hw
    rw [hversion]
    exact Version.minor_le_newest (mem_ownerVersions hv hw)
  have hreached : vs ≠ [] → ∃ v ∈ vs, p.registry.ownerVersion? v.prototype = some source.version := by
    intro hvs
    obtain ⟨v, hv⟩ := List.exists_mem_of_ne_nil vs hvs
    obtain ⟨w, hw⟩ := howned v hv
    have hmem := Version.newest_mem (List.ne_nil_of_mem (mem_ownerVersions hv hw))
    rw [← hversion] at hmem
    exact List.mem_filterMap.mp hmem
  refine ⟨?_, hreached, fun v hv => ?_, fun f hf => ?_, fun order horder =>
    ⟨h.perm horder, fun source' h' => ?_⟩⟩
  · rintro rfl
    exact hversion
  · obtain ⟨w, hw⟩ := howned v hv
    exact ⟨w, hw, hle v hv w hw⟩
  · obtain ⟨v, hv, base, hclones⟩ := exists_mem_right (functions_of_analyzes hblank h).flip hf
    obtain ⟨d, hd, hbase⟩ := Registry.variantBase_ok_iff.mp hclones.found
    refine ⟨v, hv, d, base, hd, hclones, fun hlast => ?_, fun m _ => ⟨fun hsuffices => ?_, ?_⟩⟩
    · -- the base is the given definition itself
      obtain rfl : base = d := (hbase.original_iff (.original hlast)).2.mpr (Nat.zero_le 1)
      obtain ⟨w, hw⟩ := howned v hv
      obtain ⟨d, hd', hmodule⟩ := Option.bind_eq_some_iff.mp hw
      cases hd.symm.trans hd'
      obtain ⟨m, hm, rfl⟩ := Option.map_eq_some_iff.mp hmodule
      exact ⟨m, hm, hle v hv _ hw⟩
    · obtain ⟨u, hu, hnewest⟩ := hreached (List.ne_nil_of_mem hv)
      exact ⟨u, hu, _, hnewest, hsuffices⟩
    · rintro ⟨u, hu, w, hw, hmw⟩
      exact hmw.trans (hle u hu w hw)
  · obtain ⟨-, hversion'⟩ := version_of_analyzes hblank h'
    rw [hversion', hversion]
    exact (Version.newest_perm (horder.filterMap _)).symm

def olderReexport : Registrar where
  toolchain := PreparedToolchain.toolchain
    { modules := [("::old", { name := "::old", imports := [{ name := "::new", version := .v1_5 }] })]
      codes := [("::new", .ok { materials := [{ name := "::new::base()", returnType := .material }] }),
        ("::old", .ok { materials :=
          [{ name := "::old::copy()", returnType := .material, prototype := some "::new::base()" }] })] }

def newerBase : Definition :=
  { kind := .material, module := ⟨1⟩, name := "::new::base()", returnType := .material, parameters := [] }

def olderLoaded : Progress := (olderReexport.perform (.loaded "::old") {}).2

theorem analyzes_olderReexport (vs : List VariantRequest) (version : Version)
    (hversion : olderLoaded.registry.newestVersion false (vs.map (·.prototype)) = .ok version)
    (hmade : (olderLoaded.registry.variants vs).result.isOk = true) :
    ∃ source, olderReexport.Analyzes (.variants "::out" vs) olderLoaded source ∧
      source.version = version := by
  cases hfs : (olderLoaded.registry.variants vs).result with
  | error e =>
    rw [hfs] at hmade
    cases hmade
  | ok fs =>
    have hallows : olderReexport.isModuleName "::out" = true := by decide +kernel
    have hfree : olderLoaded.registry.registeredModule "::out" = .ok none := by decide +kernel
    refine ⟨_, analyzes_variants_iff.mpr ⟨hallows, hfree, version, fs, hversion, hfs, rfl⟩, ?_⟩
    rw [Source.Module.extend_eq]
    rfl

theorem variants_version_both :
    ∃ source, olderReexport.Analyzes
        (.variants "::out" [Registry.variantOf ⟨4⟩ [], Registry.variantOf ⟨2⟩ []]) olderLoaded source ∧
      Version.v1_5.minor ≤ source.version.minor := by
  obtain ⟨source, hsource, -⟩ := analyzes_olderReexport
    [Registry.variantOf ⟨4⟩ [], Registry.variantOf ⟨2⟩ []] .v1_5
    (by decide +kernel) (by decide +kernel)
  obtain ⟨-, -, hle, -⟩ := variants_version rfl hsource
  obtain ⟨w, hw, hle⟩ := hle (Registry.variantOf ⟨2⟩ []) (by simp)
  have howner : olderLoaded.registry.ownerVersion? ⟨2⟩ = some .v1_5 := by decide +kernel
  cases hw.symm.trans howner
  exact ⟨source, hsource, hle⟩

/-- A module of variants may be older than the module that owns what they call. -/
theorem variants_version_older :
    ∃ source f base m, olderReexport.Analyzes (.variants "::out" [Registry.variantOf ⟨4⟩ []]) olderLoaded
        source ∧ f ∈ source.functions ∧
      (∃ args, f.body = .named (.ofText base.plainName) args) ∧
      olderLoaded.registry.definition? ⟨2⟩ = some base ∧
      olderLoaded.registry.module? base.module = some m ∧ source.version.minor < m.version.minor := by
  obtain ⟨source, hsource, hversion⟩ := analyzes_olderReexport
    [Registry.variantOf ⟨4⟩ []] .v1_0 (by decide +kernel) (by decide +kernel)
  have hbase : olderLoaded.registry.variantBase ⟨4⟩ = .ok newerBase := by decide +kernel
  have hfound : olderLoaded.registry.definition? ⟨2⟩ = some newerBase := by decide +kernel
  have howner : (olderLoaded.registry.module? ⟨1⟩).map (·.version) = some .v1_5 := by decide +kernel
  obtain ⟨m, hm, hversion'⟩ := Option.map_eq_some_iff.mp howner
  have hdeclared := functions_of_analyzes (g := olderReexport) rfl hsource
  cases hfunctions : source.functions with
  | nil =>
    rw [hfunctions] at hdeclared
    cases hdeclared
  | cons f fs =>
    rw [hfunctions] at hdeclared
    obtain ⟨⟨base, hclones⟩, -⟩ := List.forall₂_cons.mp hdeclared
    cases hbase.symm.trans hclones.found
    obtain ⟨args, hbody, -⟩ := hclones.body
    refine ⟨source, f, _, m, hsource, hfunctions ▸ List.mem_cons_self, ⟨args, hbody⟩, hfound, hm, ?_⟩
    rw [hversion, hversion']
    decide

end Registrar

end MaterialModules
