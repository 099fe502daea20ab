import MaterialModules.Proofs.Registration.Faithful

set_option autoImplicit false

namespace MaterialModules

def GeneratedCode.entities (c : GeneratedCode) : List GeneratedEntity := c.functions ++ c.materials

namespace Registry

/-- What a name leads to, if that was entered before the tag was handed out. -/
def earlier? (r : Registry) (name : String) (t : Tag) : Option Tag :=
  (r.tag? name).filter fun u => decide (u.id < t.id)

section Earlier

variable {r : Registry} {xs : List Record} {n : String} {t u : Tag}

theorem earlier?_of_lt (h : r.tag? n = some u) (hu : u.id < t.id) : r.earlier? n t = some u := by
  simp [earlier?, h, hu]

theorem earlier?_of_le (h : r.tag? n = some u) (hu : t.id ≤ u.id) : r.earlier? n t = none := by
  simp [earlier?, h, hu]

theorem earlier?_of_unbound (h : r.tag? n = none) : r.earlier? n t = none := by
  simp [earlier?, h]

theorem bind_earlier?_eq_iff {prototype : Option String} :
    (prototype.bind fun p => r.earlier? (Name.registered p) t) =
        (prototype.bind fun p => r.tag? (Name.registered p)) ↔
      ∀ p u, prototype = some p → r.tag? (Name.registered p) = some u → u.id < t.id := by
  cases prototype with
  | none => simp
  | some p =>
    cases hu : r.tag? (Name.registered p) with
    | none =>
      refine ⟨fun _ p' u hp hu' => ?_, fun _ => by simp [earlier?, hu]⟩
      cases hp
      rw [hu] at hu'
      cases hu'
    | some u =>
      refine ⟨fun h p' u' hp hu' => ?_, fun h => ?_⟩
      · cases hp
        rw [hu] at hu'
        cases hu'
        simpa [earlier?, hu] using h
      · simp [earlier?, hu, h p u rfl hu]

theorem Named.id_le_lastTag (hn : r.Named) (hr : r.Bounded) (h : r.tag? n = some u) :
    u.id ≤ r.lastTag := by
  obtain ⟨x, hx, -⟩ := record?_of_name (hn n u h)
  exact hr u x hx

theorem Free.tag?_take (hxs : r.Free xs) (hr : r.Bounded) (hn : r.Named) (i : Nat) (n : String) :
    (r.addAll (xs.take i)).tag? n = (r.addAll xs).earlier? n ⟨r.lastTag + 1 + i⟩ := by
  have hsplit : r.addAll xs = (r.addAll (xs.take i)).addAll (xs.drop i) := by
    rw [← addAll_append, List.take_append_drop]
  cases hu : (r.addAll xs).tag? n with
  | none =>
    rw [earlier?_of_unbound hu]
    exact tag?_of_tag?_addAll (hsplit ▸ hu)
  | some u =>
    rcases tag?_addAll_cases hu with hold | ⟨k, x, hk, rfl, rfl⟩
    · -- the name was bound before the first of the records
      have hle := hn.id_le_lastTag hr hold
      rw [earlier?_of_lt hu (by simp only; omega)]
      have hunbound : ∀ x ∈ xs.take i, r.tag? x.name = none := fun x hx =>
        hxs.unbound x (List.mem_of_mem_take hx)
      exact ((Extends.refl r).addAll hr hunbound).binding n u hold
    · by_cases hki : k < i
      · rw [earlier?_of_lt hu (by simp only; omega)]
        have hdistinct : ((xs.take i).map (·.name)).Nodup :=
          hxs.distinct.sublist ((List.take_sublist i xs).map _)
        exact tag?_addAll_of_distinct hdistinct ((List.getElem?_take_of_lt hki).trans hk) r
      · rw [earlier?_of_le hu (by simp only; omega), tag?_addAll_of_notMem]
        · exact hxs.unbound x (List.mem_of_getElem? hk)
        · -- the record of that name is one of the others
          intro y hy hname
          obtain ⟨j, hj, rfl⟩ := List.mem_iff_getElem.mp hy
          rw [List.length_take] at hj
          rw [List.getElem_take] at hname
          have hkj : (xs.map (·.name))[j]? = (xs.map (·.name))[k]? := by
            rw [List.getElem?_map, List.getElem?_map, hk, List.getElem?_eq_getElem (by omega)]
            exact congrArg some hname
          have := (List.getElem?_inj (by rw [List.length_map]; omega) hxs.distinct).mp hkj
          omega

theorem Free.earlier?_addAll (hxs : r.Free xs) (ht : t.id ≤ r.lastTag + 1) (n : String) :
    (r.addAll xs).earlier? n t = r.earlier? n t := by
  cases hu : (r.addAll xs).tag? n with
  | none => rw [earlier?_of_unbound hu, earlier?_of_unbound (tag?_of_tag?_addAll hu)]
  | some u =>
    rcases tag?_addAll_cases hu with hold | ⟨k, x, hk, rfl, rfl⟩
    · simp only [earlier?, hu, hold]
    · rw [earlier?_of_le hu (by simp only; omega),
        earlier?_of_unbound (hxs.unbound x (List.mem_of_getElem? hk))]

end Earlier

theorem getElem?_entityRecords {module : Tag} {kind : DefinitionKind} {es : List GeneratedEntity}
    {i : Nat} {e : GeneratedEntity} (h : es[i]? = some e) (r : Registry) :
    (r.entityRecords module kind es)[i]? = some (e.record module kind
      (e.prototype.bind fun p =>
        (r.addAll ((r.entityRecords module kind es).take i)).tag? (Name.registered p))) := by
  induction es generalizing r i with
  | nil => cases h
  | cons f fs ih =>
    rw [entityRecords]
    cases i with
    | zero =>
      cases h
      rfl
    | succ i =>
      rw [List.getElem?_cons_succ, ih h, List.take_succ_cons, addAll_cons]

theorem length_entityRecords (r : Registry) (module : Tag) (kind : DefinitionKind)
    (es : List GeneratedEntity) : (r.entityRecords module kind es).length = es.length := by
  have := congrArg List.length (r.map_name_entityRecords module kind es)
  simpa using this

/-- Each entity enters with the prototype that its name leads to at its turn. -/
theorem getElem?_codeRecords {code : GeneratedCode} {i : Nat} {e : GeneratedEntity}
    (h : code.entities[i]? = some e) (r : Registry) (module : Tag) :
    ∃ kind, (r.codeRecords module code)[i]? = some (e.record module kind
      (e.prototype.bind fun p =>
        (r.addAll ((r.codeRecords module code).take i)).tag? (Name.registered p))) := by
  unfold GeneratedCode.entities at h
  unfold codeRecords
  have hlength := r.length_entityRecords module .function code.functions
  by_cases hi : i < code.functions.length
  · rw [List.getElem?_append_left hi] at h
    refine ⟨.function, ?_⟩
    rw [List.getElem?_append_left (hlength ▸ hi), List.take_append_of_le_length (by omega)]
    exact getElem?_entityRecords h r
  · obtain ⟨k, rfl⟩ := Nat.exists_eq_add_of_le (Nat.le_of_not_lt hi)
    rw [List.getElem?_append_right (Nat.le_add_right _ _), Nat.add_sub_cancel_left] at h
    refine ⟨.material, ?_⟩
    rw [List.getElem?_append_right (by omega), ← hlength, Nat.add_sub_cancel_left,
      List.take_length_add_append, addAll_append]
    exact getElem?_entityRecords h _

/-- Every definition of a module has the tag of its turn, and as its prototype what the name leads to if
that was entered before. -/
def LinksPrototypes (r : Registry) (t : Tag) (code : GeneratedCode) : Prop :=
  ∀ i e, code.entities[i]? = some e → ∃ kind,
    r.tag? (Name.registered e.name) = some ⟨t.id + 1 + i⟩ ∧
    r.record? ⟨t.id + 1 + i⟩ = some (e.record t kind
      (e.prototype.bind fun p => r.earlier? (Name.registered p) ⟨t.id + 1 + i⟩))

theorem LinksPrototypes.addAll {r : Registry} {xs : List Record} {t : Tag} {code : GeneratedCode}
    (h : r.LinksPrototypes t code) (hr : r.Bounded) (hxs : r.Free xs) :
    (r.addAll xs).LinksPrototypes t code := by
  intro i e he
  obtain ⟨kind, hname, hrecord⟩ := h i e he
  have hextends : r.Extends (r.addAll xs) := (Extends.refl r).addAll hr hxs.unbound
  have hle : t.id + 1 + i ≤ r.lastTag := hr _ _ hrecord
  refine ⟨kind, hextends.binding _ _ hname, ?_⟩
  simp only [hxs.earlier?_addAll (t := ⟨t.id + 1 + i⟩) (Nat.le_succ_of_le hle)]
  exact hextends.record _ _ hrecord

end Registry

theorem ModuleEntry.take_records (e : ModuleEntry) (i : Nat) :
    e.records.take (e.resources.length + 1 + i) =
      e.resources ++ ⟨Name.registered e.module.name, .module e.module, .browsable⟩ ::
        e.definitions.take i := by
  rw [records, Nat.add_assoc, Nat.add_comm 1, List.take_length_add_append, List.take_succ_cons]

theorem ModuleEntry.Presents.linksPrototypes {e : ModuleEntry} {r : Registry} {code : GeneratedCode}
    (h : e.Presents r code) (hfree : r.Free e.records) (hr : r.Bounded) (hn : r.Named) :
    (r.addAll e.records).LinksPrototypes (e.tag r) code := by
  intro i f hf
  obtain ⟨kind, hplace⟩ := Registry.getElem?_codeRecords hf
    ((r.addAll e.resources).add ⟨Name.registered e.module.name, .module e.module, .browsable⟩) (e.tag r)
  rw [← h.definitions] at hplace
  have hrecord := (e.getElem?_records_definition i).trans hplace
  have htag : (⟨(e.tag r).id + 1 + i⟩ : Tag) = ⟨r.lastTag + 1 + (e.resources.length + 1 + i)⟩ := by
    simp only [tag, Tag.mk.injEq]
    omega
  -- at the turn of the definition, all records before it are in the registry
  have hturn : ∀ n, (((r.addAll e.resources).add
      ⟨Name.registered e.module.name, .module e.module, .browsable⟩).addAll
        (e.definitions.take i)).tag? n =
      (r.addAll e.records).earlier? n ⟨(e.tag r).id + 1 + i⟩ := by
    intro n
    rw [htag, ← hfree.tag?_take hr hn, e.take_records, Registry.addAll_append, Registry.addAll_cons]
  simp only [hturn] at hrecord
  refine ⟨kind, ?_, ?_⟩
  · rw [htag]
    exact Registry.tag?_addAll_of_distinct hfree.distinct hrecord r
  · obtain ⟨hlt, hrecord⟩ := List.getElem?_eq_some_iff.mp hrecord
    rw [htag, Registry.record?_addAll_fresh r e.records _ hlt, hrecord, htag]

namespace Registrar

variable {g : Registrar} {m top : CompiledModule} {r r' : Registry} {first last : List Event}

theorem Grows.linksPrototypes (hg : g.resolver.EntersResources) (hs : g.toolchain.SignsEntities)
    (hd : g.toolchain.ListsDistinct) (htop : top.WellNamed) (h : g.Grows top first last r r')
    (hr : r.Bounded) (hn : r.Named) {t : Tag} {x : Record} {n : ModuleRecord}
    (hx : Registry.Added r r' t x) (hxn : x.element = .module n) :
    ∃ code, g.CameFrom first last n.compiled code ∧ r'.LinksPrototypes t code := by
  induction h with
  | refl => exact absurd hx.1 hx.2
  | @enters r₁ _ m code _ _ before reached unbound free imported asked enters ih =>
    have hr₁ := before.bounded hg hr
    obtain ⟨events, hcode⟩ := asked.exists_events
    obtain ⟨e, hwhole, rfl, rfl, he, hpresents, hrecords⟩ :=
      enters.entry_free hg hs (htop m reached) (free hs htop)
    have hfree := hrecords (hd _ _ _ _ hcode)
    have hcompiled : e.module.compiled = m := by rw [he]; rfl
    by_cases hold : r₁.record? t = some x
    · obtain ⟨code', hcame, hlinks⟩ := ih ⟨hold, hx.2⟩
      exact ⟨code', hcame, hlinks.addAll hr₁ hfree⟩
    · obtain ⟨rfl, rfl⟩ := hwhole.added_module_eq hr₁ ⟨hx.1, hold⟩ hxn
      exact ⟨code, hcompiled ▸ ⟨enters.valid, asked, enters.errorless⟩,
        hpresents.linksPrototypes hfree hr₁ (before.named hg hr hn)⟩

/-- When a request is over, each definition of a module that it added has the tag of its turn, and as its
prototype what the name leads to if that was entered before it. So a definition is linked to what its
prototype's name leads to, unless that comes after it. -/
theorem perform_prototypes (hg : g.resolver.EntersResources) (hs : g.toolchain.SignsEntities)
    (hm : g.toolchain.NamesModules) (hd : g.toolchain.ListsDistinct) {q : CreationRequest}
    {p s : Progress} {x : Except ModuleError Created} (hp : p.registry.Bounded)
    (hn : p.registry.Named) (h : g.perform q p = (x, s)) :
    ∀ t y n, Registry.Added p.registry s.registry t y → y.element = .module n →
      ∃ code, g.CameFrom p.events s.events n.compiled code ∧
        ∀ i e, code.entities[i]? = some e → ∃ kind prototype,
          s.registry.tag? (Name.registered e.name) = some ⟨t.id + 1 + i⟩ ∧
          s.registry.record? ⟨t.id + 1 + i⟩ = some (e.record t kind prototype) ∧
          (prototype = e.prototype.bind fun name =>
            s.registry.earlier? (Name.registered name) ⟨t.id + 1 + i⟩) ∧
          ((prototype = e.prototype.bind fun name => s.registry.tag? (Name.registered name)) ↔
            ∀ name u, e.prototype = some name → s.registry.tag? (Name.registered name) = some u →
              u.id < t.id + 1 + i) := by
  intro t y n hy hyn
  rcases perform_grows hg hp hn h with ⟨-, heq⟩ | ⟨m, u, hhanded, hgrows⟩
  · exact absurd (heq ▸ hy.1) hy.2
  · obtain ⟨code, hcame, hlinks⟩ :=
      hgrows.linksPrototypes hg hs hd (hm.wellNamed hhanded) hp hn hy hyn
    refine ⟨code, hcame, fun i e he => ?_⟩
    obtain ⟨kind, hname, hrecord⟩ := hlinks i e he
    exact ⟨kind, _, hname, hrecord, rfl, Registry.bind_earlier?_eq_iff⟩

def original : GeneratedEntity := { name := "::m::f(int)", returnType := ⟨.int, {}⟩ }

def reexport : GeneratedEntity :=
  { name := "::m::g(int)", returnType := ⟨.int, {}⟩, prototype := some "::m::f(int)" }

def listing (functions : List GeneratedEntity) : Registrar where
  toolchain := PreparedToolchain.closed
    { modules := [("::m", { name := "::m" })], codes := [("::m", .ok { functions })] }

def prototypesOf (functions : List GeneratedEntity) :
    Except ModuleError Created × List (String × Tag × Option Tag) :=
  let (x, s) := (listing functions).perform (.loaded "::m") {}
  (x, s.registry.records.filterMap fun (t, y) =>
    match y.element with
    | .definition d => some (y.name, t, d.prototype)
    | _ => none)

theorem perform_prototypes_reexport :
    let (x, s) := (listing [original, reexport]).perform (.loaded "::m") {}
    x = .ok (.new ⟨1⟩) ∧ ∃ n code,
      (listing [original, reexport]).CameFrom [] s.events (n : ModuleRecord).compiled code ∧
      ∀ i e, code.entities[i]? = some e → ∃ kind prototype,
        s.registry.record? ⟨1 + 1 + i⟩ = some (e.record ⟨1⟩ kind prototype) ∧
        prototype = e.prototype.bind fun name =>
          s.registry.earlier? (Name.registered name) ⟨1 + 1 + i⟩ := by
  have hmodules : (listing [original, reexport]).toolchain.NamesModules := by
    refine PreparedToolchain.namesModules_closed fun e he => ?_
    cases List.mem_singleton.mp he
    exact CompiledModule.wellNamed_of_imports ⟨⟨"m", rfl⟩, by decide⟩ (by simp)
  have hentities : (listing [original, reexport]).toolchain.SignsEntities := by
    refine PreparedToolchain.signsEntities_closed fun c hc code hcode e he => ?_
    cases List.mem_singleton.mp hc
    cases hcode
    rcases List.mem_pair.mp he with rfl | rfl <;> decide
  have hdistinct : (listing [original, reexport]).toolchain.ListsDistinct := by
    refine PreparedToolchain.listsDistinct_closed fun c hc code hcode => ?_
    cases List.mem_singleton.mp hc
    cases hcode
    decide
  have hcreated : ((listing [original, reexport]).perform (.loaded "::m") {}).1 = .ok (.new ⟨1⟩) := by
    decide +kernel
  refine ⟨hcreated, ?_⟩
  obtain ⟨y, n, u, hy, hyn, -⟩ := perform_new Resolver.registry_entersResources
    (g := listing [original, reexport]) Registry.bounded_empty
    (Prod.ext hcreated rfl : (listing [original, reexport]).perform (.loaded "::m") {} = (_, _))
  obtain ⟨code, hcame, hcode⟩ := perform_prototypes Resolver.registry_entersResources hentities hmodules
    hdistinct Registry.bounded_empty Registry.named_empty
    (Prod.mk.eta (p := (listing [original, reexport]).perform (.loaded "::m") {})).symm ⟨1⟩ y n hy hyn
  refine ⟨n, code, hcame, fun i e he => ?_⟩
  obtain ⟨kind, prototype, -, hrecord, hprototype, -⟩ := hcode i e he
  exact ⟨kind, prototype, hrecord, hprototype⟩

/-- Listed after its prototype, a definition has it; listed before, it has none, though the name of the
prototype leads to it. -/
theorem prototypes_depend_on_order :
    prototypesOf [original, reexport] =
      (.ok (.new ⟨1⟩), [("mdl::m::g(int)", ⟨3⟩, some ⟨2⟩), ("mdl::m::f(int)", ⟨2⟩, none)]) ∧
    prototypesOf [reexport, original] =
      (.ok (.new ⟨1⟩), [("mdl::m::f(int)", ⟨3⟩, none), ("mdl::m::g(int)", ⟨2⟩, none)]) ∧
    ((listing [reexport, original]).perform (.loaded "::m") {}).2.registry.tag? "mdl::m::f(int)" =
      some ⟨3⟩ := by
  decide +kernel

end Registrar

end MaterialModules
