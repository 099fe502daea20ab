import MaterialModules.Proofs.Registry.Extension
import MaterialModules.Proofs.Registry.Whole
import MaterialModules.Registration.Enrolment

set_option autoImplicit false

namespace MaterialModules

/-- A resolver that at most enters one resource record, under a name that is not bound. -/
def Resolver.EntersResources (resolve : Resolver) : Prop :=
  ∀ r q, (resolve r q).2 = r ∨
    ∃ name x, r.tag? ("mdlr::" ++ name) = none ∧
      resolve r q = (some r.fresh, r.add ⟨"mdlr::" ++ name, .resource x, .browsable⟩)

theorem ResourceQuery.recordName_eq (q : ResourceQuery) (filePath : String) :
    ∃ name, q.recordName filePath = "mdlr::" ++ name := by
  simp only [recordName, String.append_assoc]
  exact ⟨_, rfl⟩

namespace Resolver

theorem registry_entersResources : registry.EntersResources := by
  intro r q
  unfold registry
  cases q.filePath? with
  | none => exact .inl rfl
  | some filePath =>
    obtain ⟨name, hname⟩ := q.recordName_eq filePath
    simp only [hname]
    cases ht : r.tag? ("mdlr::" ++ name) with
    | some t => exact .inl rfl
    | none => exact .inr ⟨name, _, ht, rfl⟩

theorem refusing_entersResources {next : Resolver} (h : next.EntersResources)
    (refused : String → Bool) : (refusing refused next).EntersResources := by
  intro r q
  unfold refusing
  cases refused q.path with
  | true => exact .inl rfl
  | false => exact h r q

end Resolver

namespace ResourceReference

theorem lists_enter_of_lists {xs : List ResourceReference} {u : Tag} (h : Lists xs u) (url : String)
    (t : Tag) : Lists (enter url t xs) u := by
  induction xs with
  | nil => exact h
  | cons x rest ih =>
    obtain ⟨y, hy, hu⟩ := h
    unfold enter
    by_cases hurl : x.url = url
    · rw [if_pos hurl]
      rcases List.mem_cons.mp hy with rfl | hy
      · refine ⟨_, List.mem_cons_self, ?_⟩
        split
        · exact hu
        · exact List.mem_append_left _ hu
      · exact ⟨y, List.mem_cons_of_mem _ hy, hu⟩
    · rw [if_neg hurl]
      rcases List.mem_cons.mp hy with rfl | hy
      · exact ⟨y, List.mem_cons_self, hu⟩
      · obtain ⟨z, hz, hu⟩ := ih ⟨y, hy, hu⟩
        exact ⟨z, List.mem_cons_of_mem _ hz, hu⟩

theorem lists_enter_self {xs : List ResourceReference} {url : String}
    (h : (xs.any fun x => x.url = url) = true) (t : Tag) : Lists (enter url t xs) t := by
  induction xs with
  | nil => simp at h
  | cons x rest ih =>
    unfold enter
    by_cases hurl : x.url = url
    · rw [if_pos hurl]
      refine ⟨_, List.mem_cons_self, ?_⟩
      split
      · assumption
      · exact List.mem_append_right _ List.mem_cons_self
    · rw [if_neg hurl]
      obtain ⟨z, hz, ht⟩ := ih (by simpa [hurl] using h)
      exact ⟨z, List.mem_cons_of_mem _ hz, ht⟩

theorem resolve_cons {resolver : Resolver} {owner : Option String} {l : ResourceLiteral}
    {ls : List ResourceLiteral} {xs : List ResourceReference} {r : Registry}
    (h : (xs.any fun x => x.url = l.url) = true) :
    resolve resolver owner (l :: ls) xs r =
      match resolver r { kind := l.kind, path := l.url, gamma := l.gamma, owner } with
      | (some t, r) => resolve resolver owner ls (enter l.url t xs) r
      | (none, r) => resolve resolver owner ls xs r := if_pos h

/-- Resolving literals only enters resource records under free names, and the references come to list each
of them. -/
theorem resolve_addAll {resolver : Resolver} (hr : resolver.EntersResources) (owner : Option String)
    (ls : List ResourceLiteral) (xs : List ResourceReference) (r : Registry) :
    ∃ rs : List Record,
      (resolve resolver owner ls xs r).2 = r.addAll rs ∧ r.Free rs ∧
      (∀ x ∈ rs, ∃ name y, x.name = "mdlr::" ++ name ∧ x.element = .resource y) ∧
      (∀ t, Lists xs t → Lists (resolve resolver owner ls xs r).1 t) ∧
      ∀ i < rs.length, Lists (resolve resolver owner ls xs r).1 ⟨r.lastTag + 1 + i⟩ := by
  induction ls generalizing xs r with
  | nil => exact ⟨[], rfl, .nil, by simp, fun _ h => h, by simp⟩
  | cons l ls ih =>
    let q : ResourceQuery := { kind := l.kind, path := l.url, gamma := l.gamma, owner }
    by_cases hany : (xs.any fun x => x.url = l.url) = true
    · rw [resolve_cons hany]
      obtain hsame | ⟨name, y, hunbound, hnew⟩ := hr r q
      · cases hq : resolver r q with
        | mk answer r' =>
          rw [hq] at hsame
          cases hsame
          cases answer with
          | none => exact ih xs r'
          | some t =>
            obtain ⟨rs, h₁, hfree, h₂, h₃, h₄⟩ := ih (enter l.url t xs) r'
            exact ⟨rs, h₁, hfree, h₂, fun u hu => h₃ u (lists_enter_of_lists hu l.url t), h₄⟩
      · -- the record of this literal comes first, and its reference keeps it to the end
        rw [hnew]
        let x : Record := ⟨"mdlr::" ++ name, .resource y, .browsable⟩
        obtain ⟨rs, h₁, hfree, h₂, h₃, h₄⟩ := ih (enter l.url r.fresh xs) (r.add x)
        refine ⟨x :: rs, h₁, .cons hunbound hfree, fun z hz => ?_, fun u hu => ?_, fun i hi => ?_⟩
        · rcases List.mem_cons.mp hz with rfl | hz
          · exact ⟨name, y, rfl, rfl⟩
          · exact h₂ z hz
        · exact h₃ u (lists_enter_of_lists hu l.url r.fresh)
        · cases i with
          | zero => exact h₃ _ (lists_enter_self hany r.fresh)
          | succ i =>
            have h := h₄ i (by simpa using hi)
            rwa [Registry.lastTag_add,
              show r.lastTag + 1 + 1 + i = r.lastTag + 1 + (i + 1) by omega] at h
    · rw [resolve, if_neg hany]
      exact ih xs r

end ResourceReference

def GeneratedEntity.record (e : GeneratedEntity) (module : Tag) (kind : DefinitionKind)
    (prototype : Option Tag) : Record :=
  { name := Name.registered e.name
    element := .definition
      { kind
        module
        name := e.name
        parameters := e.parameters
        returnType := e.returnType
        semantic := e.semantic
        exported := e.exported
        varying := e.varying
        prototype
        annotations := e.annotations }
    visibility := if e.exported then .browsable else .referenceCounted }

theorem GeneratedCode.mem_registeredNames {c : GeneratedCode} {n : String} :
    n ∈ c.registeredNames ↔ ∃ e ∈ c.functions ++ c.materials, Name.registered e.name = n := by
  simp only [registeredNames, functionNames, materialNames, ← List.map_append, List.mem_map]

namespace Registry

def entityRecords (r : Registry) (module : Tag) (kind : DefinitionKind) :
    List GeneratedEntity → List Record
  | [] => []
  | e :: es =>
    let x := e.record module kind (e.prototype.bind fun p => r.tag? (Name.registered p))
    x :: (r.add x).entityRecords module kind es

theorem addEntities_eq_addAll (r : Registry) (module : Tag) (kind : DefinitionKind)
    (es : List GeneratedEntity) :
    r.addEntities module kind es = r.addAll (r.entityRecords module kind es) := by
  induction es generalizing r with
  | nil => rfl
  | cons e es ih =>
    rw [entityRecords, addAll_cons, ← ih]
    rfl

theorem map_name_entityRecords (r : Registry) (module : Tag) (kind : DefinitionKind)
    (es : List GeneratedEntity) :
    (r.entityRecords module kind es).map (·.name) = es.map fun e => Name.registered e.name := by
  induction es generalizing r with
  | nil => rfl
  | cons e es ih =>
    rw [entityRecords, List.map_cons, ih, List.map_cons]
    rfl

theorem definition_of_mem_entityRecords {r : Registry} {module : Tag} {kind : DefinitionKind}
    {es : List GeneratedEntity} {x : Record} (h : x ∈ r.entityRecords module kind es) :
    ∃ d, x.element = .definition d ∧ d.module = module := by
  induction es generalizing r with
  | nil => simp [entityRecords] at h
  | cons e es ih =>
    rw [entityRecords] at h
    rcases List.mem_cons.mp h with rfl | h
    · exact ⟨_, rfl, rfl⟩
    · exact ih h

theorem exists_mem_entityRecords {e : GeneratedEntity} {es : List GeneratedEntity} (h : e ∈ es)
    (r : Registry) (module : Tag) (kind : DefinitionKind) :
    ∃ prototype, e.record module kind prototype ∈ r.entityRecords module kind es := by
  induction es generalizing r with
  | nil => cases h
  | cons f fs ih =>
    rw [entityRecords]
    rcases List.mem_cons.mp h with rfl | h
    · exact ⟨_, List.mem_cons_self⟩
    · obtain ⟨prototype, hmem⟩ := ih h (r.add _)
      exact ⟨prototype, List.mem_cons_of_mem _ hmem⟩

def codeRecords (r : Registry) (module : Tag) (code : GeneratedCode) : List Record :=
  let functions := r.entityRecords module .function code.functions
  functions ++ (r.addAll functions).entityRecords module .material code.materials

theorem map_name_codeRecords (r : Registry) (module : Tag) (code : GeneratedCode) :
    (r.codeRecords module code).map (·.name) = code.registeredNames := by
  rw [codeRecords, List.map_append, map_name_entityRecords, map_name_entityRecords]
  rfl

theorem definition_of_mem_codeRecords {r : Registry} {module : Tag} {code : GeneratedCode} {x : Record}
    (h : x ∈ r.codeRecords module code) : ∃ d, x.element = .definition d ∧ d.module = module := by
  rcases List.mem_append.mp h with h | h
  · exact definition_of_mem_entityRecords h
  · exact definition_of_mem_entityRecords h

theorem exists_mem_codeRecords (r : Registry) (module : Tag) (code : GeneratedCode) :
    (∀ e ∈ code.functions, ∃ prototype,
      e.record module .function prototype ∈ r.codeRecords module code) ∧
    ∀ e ∈ code.materials, ∃ prototype,
      e.record module .material prototype ∈ r.codeRecords module code := by
  constructor
  · intro e he
    obtain ⟨prototype, hmem⟩ := exists_mem_entityRecords he r module .function
    exact ⟨prototype, List.mem_append_left _ hmem⟩
  · intro e he
    obtain ⟨prototype, hmem⟩ := exists_mem_entityRecords he _ module .material
    exact ⟨prototype, List.mem_append_right _ hmem⟩

theorem addModule_eq_addAll (r : Registry) (x : ModuleRecord) (code : GeneratedCode) :
    let named : Record := ⟨Name.registered x.name, .module x, .browsable⟩
    r.addModule x code = r.addAll (named :: (r.add named).codeRecords r.fresh code) := by
  intro named
  rw [addModule, addEntities_eq_addAll, addEntities_eq_addAll, addAll_cons, codeRecords, addAll_append]

end Registry

structure ModuleEntry where
  resources : List Record
  module : ModuleRecord
  definitions : List Record

namespace ModuleEntry

def records (e : ModuleEntry) : List Record :=
  e.resources ++ ⟨Name.registered e.module.name, .module e.module, .browsable⟩ :: e.definitions

def tag (e : ModuleEntry) (r : Registry) : Tag := ⟨r.lastTag + 1 + e.resources.length⟩

/-- The records hang together: the module lists every resource, and the definitions are its own, one
for each name that it lists. -/
structure Whole (e : ModuleEntry) (r : Registry) : Prop where
  resource : ∀ x ∈ e.resources, ∃ name y, x.name = "mdlr::" ++ name ∧ x.element = .resource y
  listed : ∀ i < e.resources.length,
    ResourceReference.Lists e.module.resources ⟨r.lastTag + 1 + i⟩
  definition : ∀ x ∈ e.definitions, ∃ d, x.element = .definition d ∧ d.module = e.tag r
  names : e.definitions.map (·.name) = e.module.functions ++ e.module.materials

structure Presents (e : ModuleEntry) (r : Registry) (code : GeneratedCode) : Prop where
  free : r.Free e.resources
  definitions : e.definitions = ((r.addAll e.resources).add
    ⟨Name.registered e.module.name, .module e.module, .browsable⟩).codeRecords (e.tag r) code

theorem Whole.length_definitions {e : ModuleEntry} {r : Registry} (h : e.Whole r) :
    e.definitions.length = e.module.functions.length + e.module.materials.length := by
  rw [← List.length_append, ← h.names, List.length_map]

theorem Whole.name_mem_registeredNames {e : ModuleEntry} {r : Registry} (h : e.Whole r)
    {m : CompiledModule} {builtin : Bool} {code : GeneratedCode} {imports : List Tag}
    {resources : List ResourceReference} (he : e.module = m.record builtin code imports resources)
    {x : Record} (hx : x ∈ e.definitions) : x.name ∈ code.registeredNames := by
  have := List.mem_map_of_mem hx (f := (·.name))
  rw [h.names, he] at this
  exact this

theorem getElem?_records {e : ModuleEntry} {i : Nat} {x : Record} (h : e.records[i]? = some x) :
    (i < e.resources.length ∧ e.resources[i]? = some x) ∨
    (i = e.resources.length ∧
      x = ⟨Name.registered e.module.name, .module e.module, .browsable⟩) ∨
    ∃ j, i = e.resources.length + 1 + j ∧ e.definitions[j]? = some x := by
  unfold records at h
  rcases Nat.lt_trichotomy i e.resources.length with hi | rfl | hi
  · rw [List.getElem?_append_left hi] at h
    exact .inl ⟨hi, h⟩
  · rw [List.getElem?_append_right (Nat.le_refl _), Nat.sub_self] at h
    cases h
    exact .inr (.inl ⟨rfl, rfl⟩)
  · obtain ⟨j, rfl⟩ := Nat.exists_eq_add_of_lt hi
    rw [List.getElem?_append_right (by omega),
      show e.resources.length + j + 1 - e.resources.length = j + 1 by omega] at h
    exact .inr (.inr ⟨j, by omega, h⟩)

theorem getElem?_records_module (e : ModuleEntry) :
    e.records[e.resources.length]? =
      some ⟨Name.registered e.module.name, .module e.module, .browsable⟩ := by
  rw [records, List.getElem?_append_right (Nat.le_refl _), Nat.sub_self, List.getElem?_cons_zero]

theorem getElem?_records_definition (e : ModuleEntry) (i : Nat) :
    e.records[e.resources.length + 1 + i]? = e.definitions[i]? := by
  rw [records, List.getElem?_append_right (by omega),
    show e.resources.length + 1 + i - e.resources.length = i + 1 by omega, List.getElem?_cons_succ]

theorem tag_le_lastTag (e : ModuleEntry) (r : Registry) :
    r.lastTag < (e.tag r).id ∧ (e.tag r).id ≤ (r.addAll e.records).lastTag := by
  simp only [Registry.lastTag_addAll, tag, records, List.length_append, List.length_cons]
  omega

theorem record?_module (e : ModuleEntry) (r : Registry) :
    (r.addAll e.records).record? (e.tag r) =
      some ⟨Name.registered e.module.name, .module e.module, .browsable⟩ := by
  obtain ⟨hlt, hmodule⟩ := List.getElem?_eq_some_iff.mp e.getElem?_records_module
  rw [← hmodule]
  exact Registry.record?_addAll_fresh r e.records _ hlt

section Places

variable {e : ModuleEntry} {r : Registry} {i : Nat} {x : Record}

theorem Whole.place_of_resource (h : e.Whole r) (hi : e.records[i]? = some x) {y : Resource}
    (hy : x.element = .resource y) : i < e.resources.length := by
  rcases getElem?_records hi with ⟨hlt, -⟩ | ⟨-, rfl⟩ | ⟨j, -, hj⟩
  · exact hlt
  · cases hy
  · obtain ⟨d, hd, -⟩ := h.definition x (List.mem_of_getElem? hj)
    rw [hy] at hd
    cases hd

theorem Whole.place_of_module (h : e.Whole r) (hi : e.records[i]? = some x) {n : ModuleRecord}
    (hn : x.element = .module n) : i = e.resources.length ∧ n = e.module := by
  rcases getElem?_records hi with ⟨-, hi⟩ | ⟨rfl, rfl⟩ | ⟨j, -, hj⟩
  · obtain ⟨-, y, -, hy⟩ := h.resource x (List.mem_of_getElem? hi)
    rw [hn] at hy
    cases hy
  · exact ⟨rfl, (Element.module.inj hn).symm⟩
  · obtain ⟨d, hd, -⟩ := h.definition x (List.mem_of_getElem? hj)
    rw [hn] at hd
    cases hd

theorem Whole.place_of_definition (h : e.Whole r) (hi : e.records[i]? = some x) {d : Definition}
    (hd : x.element = .definition d) :
    (∃ j < e.definitions.length, i = e.resources.length + 1 + j) ∧ d.module = e.tag r := by
  rcases getElem?_records hi with ⟨-, hi⟩ | ⟨-, rfl⟩ | ⟨j, rfl, hj⟩
  · obtain ⟨-, y, -, hy⟩ := h.resource x (List.mem_of_getElem? hi)
    rw [hd] at hy
    cases hy
  · cases hd
  · obtain ⟨hlt, -⟩ := List.getElem?_eq_some_iff.mp hj
    obtain ⟨d', hd', hmod⟩ := h.definition x (List.mem_of_getElem? hj)
    cases hd.symm.trans hd'
    exact ⟨⟨j, hlt, rfl⟩, hmod⟩

end Places

end ModuleEntry

namespace Registry

theorem enrol_error {r r' : Registry} {resolver : Resolver} {builtin : Bool} {m : CompiledModule}
    {code : GeneratedCode} {imports : List Tag} {e : ModuleError}
    (h : r.enrol resolver builtin m code imports = (.error e, r')) : r' = r := by
  unfold enrol at h
  split at h <;> cases h
  rfl

theorem new_of_enrol {r r' : Registry} {resolver : Resolver} {builtin : Bool} {m : CompiledModule}
    {code : GeneratedCode} {imports : List Tag} {c : Created}
    (h : r.enrol resolver builtin m code imports = (.ok c, r')) : ∃ t, c = .new t := by
  unfold enrol at h
  split at h <;> cases h
  exact ⟨_, rfl⟩

/-- A module that is let in enters as a whole, and none of its names was bound. -/
theorem enrol_ok {r r' : Registry} {resolver : Resolver} (hr : resolver.EntersResources)
    {builtin : Bool} {m : CompiledModule} {code : GeneratedCode} {imports : List Tag} {c : Created}
    (h : r.enrol resolver builtin m code imports = (.ok c, r')) :
    ∃ e : ModuleEntry, e.Whole r ∧ c = .new (e.tag r) ∧ r' = r.addAll e.records ∧
      e.module = m.record builtin code imports e.module.resources ∧
      (∀ n ∈ code.registeredNames, r.tag? n = none) ∧ e.Presents r code := by
  unfold enrol at h
  split at h
  · cases h
  · rename_i hfree
    extract_lets urls at h
    obtain ⟨rs, hreg, hrsfree, hrs, -, hlisted⟩ := ResourceReference.resolve_addAll hr m.filename
      code.resourceLiterals urls r
    rcases hres : ResourceReference.resolve resolver m.filename code.resourceLiterals urls r
      with ⟨references, r₁⟩
    simp only [hres] at h hreg hlisted
    subst hreg
    have hfresh : (r.addAll rs).fresh = ⟨r.lastTag + 1 + rs.length⟩ := by
      rw [fresh, lastTag_addAll]
      congr 1
      omega
    let x := m.record builtin code imports references
    let named : Record := ⟨Name.registered x.name, .module x, .browsable⟩
    let e : ModuleEntry :=
      ⟨rs, x, ((r.addAll rs).add named).codeRecords ⟨r.lastTag + 1 + rs.length⟩ code⟩
    have hunbound : ∀ n ∈ code.registeredNames, r.tag? n = none := by
      intro n hn
      have := List.find?_eq_none.mp hfree n hn
      simpa using this
    cases h
    refine ⟨e, ⟨hrs, hlisted, fun y hy => definition_of_mem_codeRecords hy, map_name_codeRecords _ _ _⟩,
      ?_, ?_, rfl, hunbound, ⟨hrsfree, rfl⟩⟩
    · rw [hfresh]
      rfl
    · rw [addModule_eq_addAll, hfresh, ModuleEntry.records, addAll_append]

end Registry

end MaterialModules
