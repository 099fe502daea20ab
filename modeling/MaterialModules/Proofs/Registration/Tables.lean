import MaterialModules.Proofs.Registration.Invariants
import MaterialModules.Proofs.Registry.Filing

/-!
The resources of a module. Its table has an entry for each url that the module mentions, and the literals of
its code are gathered under the first entry for their url, whatever kind that entry is of. Nothing else that a
request registers is a resource.
-/

set_option autoImplicit false

namespace MaterialModules

open Text (Unbroken)

def ResourceLiteral.query (l : ResourceLiteral) (owner : Option String) : ResourceQuery :=
  { kind := l.kind, path := l.url, gamma := l.gamma, owner }

namespace ResourceReference

section Enter

variable {url v : String} {t : Tag} {xs : List ResourceReference} {y : ResourceReference}

theorem map_enter (url : String) (t : Tag) (xs : List ResourceReference) :
    (enter url t xs).map (fun x => (x.url, x.kind)) = xs.map fun x => (x.url, x.kind) := by
  induction xs with
  | nil => rfl
  | cons x rest ih =>
    unfold enter
    split
    · split <;> rfl
    · rw [List.map_cons, List.map_cons, ih]

theorem mem_enter (h : y ∈ enter url t xs) :
    y ∈ xs ∨ ∃ x ∈ xs, x.url = url ∧ t ∉ x.tags ∧ y = { x with tags := x.tags ++ [t] } := by
  induction xs with
  | nil => cases h
  | cons x rest ih =>
    unfold enter at h
    split at h
    · rename_i hurl
      split at h
      · exact .inl h
      · rename_i hnew
        rcases List.mem_cons.mp h with rfl | h
        · exact .inr ⟨x, List.mem_cons_self, hurl, hnew, rfl⟩
        · exact .inl (List.mem_cons_of_mem _ h)
    · rcases List.mem_cons.mp h with rfl | h
      · exact .inl List.mem_cons_self
      · rcases ih h with h | ⟨z, hz, hzurl⟩
        · exact .inl (List.mem_cons_of_mem _ h)
        · exact .inr ⟨z, List.mem_cons_of_mem _ hz, hzurl⟩

/-- The first entry for a url keeps its tags, and gets the new one if it is the entry that is meant. -/
theorem find?_enter (h : (enter url t xs).find? (fun x => x.url = v) = some y) :
    ∃ x, xs.find? (fun x => x.url = v) = some x ∧ x.tags ⊆ y.tags ∧ (v = url → t ∈ y.tags) := by
  induction xs with
  | nil => cases h
  | cons x rest ih =>
    unfold enter at h
    by_cases hv : x.url = v
    · rw [List.find?_cons_of_pos (by simpa using hv)]
      refine ⟨x, rfl, ?_⟩
      by_cases hurl : x.url = url
      · rw [if_pos hurl, List.find?_cons_of_pos (by split <;> simpa using hv)] at h
        cases h
        split
        · rename_i hold
          exact ⟨List.Subset.refl _, fun _ => hold⟩
        · exact ⟨List.subset_append_left _ _, fun _ => List.mem_append_right _ List.mem_cons_self⟩
      · rw [if_neg hurl, List.find?_cons_of_pos (by simpa using hv)] at h
        cases h
        exact ⟨List.Subset.refl _, fun heq => absurd (hv.trans heq) hurl⟩
    · rw [List.find?_cons_of_neg (by simpa using hv)]
      by_cases hurl : x.url = url
      · rw [if_pos hurl, List.find?_cons_of_neg (by split <;> simpa using hv)] at h
        exact ⟨y, h, List.Subset.refl _, fun heq => absurd (hurl.trans heq.symm) hv⟩
      · rw [if_neg hurl, List.find?_cons_of_neg (by simpa using hv)] at h
        exact ih h

theorem pairwise_enter (h : xs.Pairwise fun x y => x.url = y.url → y.tags = []) (url : String) (t : Tag) :
    (enter url t xs).Pairwise fun x y => x.url = y.url → y.tags = [] := by
  induction xs with
  | nil => exact h
  | cons x rest ih =>
    obtain ⟨hx, hrest⟩ := List.pairwise_cons.mp h
    unfold enter
    split
    · refine List.pairwise_cons.mpr ⟨fun y hy => ?_, hrest⟩
      split <;> exact hx y hy
    · rename_i hurl
      refine List.pairwise_cons.mpr ⟨fun y hy => ?_, ih hrest⟩
      rcases mem_enter hy with hy | ⟨z, -, hz, -, rfl⟩
      · exact hx y hy
      · exact fun heq => absurd (heq.trans hz) hurl

end Enter

/-- What a table that was made for some references has gathered from literals. -/
structure Gathers (r : Registry) (references : List (String × ResourceKind)) (owner : Option String)
    (ls : List ResourceLiteral) (xs : List ResourceReference) : Prop where
  entries : xs.map (fun x => (x.url, x.kind)) = references
  distinct : ∀ x ∈ xs, x.tags.Nodup
  denotes : ∀ x ∈ xs, ∀ t ∈ x.tags, ∃ l ∈ ls, l.url = x.url ∧ r.Answers (l.query owner) (some t)
  complete : ∀ l ∈ ls, ∀ x, xs.find? (fun x => x.url = l.url) = some x →
    ∀ k, (l.query owner).key? = some k → ∃ t ∈ x.tags, r.tag? k.recordName = some t
  first : xs.Pairwise fun x y => x.url = y.url → y.tags = []

variable {r r' : Registry} {references : List (String × ResourceKind)} {owner : Option String}
  {ls : List ResourceLiteral} {l : ResourceLiteral} {xs : List ResourceReference} {t : Tag}

theorem gathers_nil (r : Registry) (references : List (String × ResourceKind)) (owner : Option String) :
    Gathers r references owner [] (references.map fun (url, kind) => ⟨url, kind, []⟩) where
  entries := by simp [Function.comp_def]
  distinct x hx := by
    obtain ⟨_, -, rfl⟩ := List.mem_map.mp hx
    exact List.nodup_nil
  denotes x hx t ht := by
    obtain ⟨_, -, rfl⟩ := List.mem_map.mp hx
    cases ht
  complete := nofun
  first := List.pairwise_map.mpr (List.pairwise_of_forall fun _ _ _ => rfl)

theorem Gathers.later (h : Gathers r references owner ls xs) (hkept : r.KeepsTags r') :
    Gathers r' references owner ls xs where
  entries := h.entries
  distinct := h.distinct
  denotes x hx t ht := by
    obtain ⟨l, hl, hurl, hanswers⟩ := h.denotes x hx t ht
    exact ⟨l, hl, hurl, hanswers.later hkept⟩
  complete l hl x hx k hk := by
    obtain ⟨t, ht, hbound⟩ := h.complete l hl x hx k hk
    exact ⟨t, ht, hkept k t hbound⟩
  first := h.first

theorem Gathers.skip (h : Gathers r references owner ls xs)
    (hl : (∀ x ∈ xs, x.url ≠ l.url) ∨ (l.query owner).key? = none) :
    Gathers r references owner (ls ++ [l]) xs where
  entries := h.entries
  distinct := h.distinct
  denotes x hx t ht := by
    obtain ⟨l', hl', hurl, hanswers⟩ := h.denotes x hx t ht
    exact ⟨l', List.mem_append_left _ hl', hurl, hanswers⟩
  complete l' hl' x hx k hk := by
    rcases List.mem_append.mp hl' with hl' | hl'
    · exact h.complete l' hl' x hx k hk
    · cases List.mem_singleton.mp hl'
      rcases hl with hnone | hnone
      · have hurl := List.find?_some hx
        exact absurd (of_decide_eq_true hurl) (hnone x (List.mem_of_find?_eq_some hx))
      · rw [hnone] at hk
        cases hk
  first := h.first

theorem Gathers.gather (h : Gathers r references owner ls xs)
    (ht : r.Answers (l.query owner) (some t)) :
    Gathers r references owner (ls ++ [l]) (enter l.url t xs) where
  entries := (map_enter l.url t xs).trans h.entries
  distinct x hx := by
    rcases mem_enter hx with hx | ⟨z, hz, -, hnew, rfl⟩
    · exact h.distinct x hx
    · exact (h.distinct z hz).append (List.nodup_singleton t) (List.disjoint_singleton.mpr hnew)
  denotes x hx u hu := by
    have hold : ∀ z ∈ xs, u ∈ z.tags → ∃ l' ∈ ls ++ [l], l'.url = z.url ∧
        r.Answers (l'.query owner) (some u) := by
      intro z hz hu
      obtain ⟨l', hl', hurl, hanswers⟩ := h.denotes z hz u hu
      exact ⟨l', List.mem_append_left _ hl', hurl, hanswers⟩
    rcases mem_enter hx with hx | ⟨z, hz, hurl, -, rfl⟩
    · exact hold x hx hu
    · rcases List.mem_append.mp hu with hu | hu
      · exact hold z hz hu
      · cases List.mem_singleton.mp hu
        exact ⟨l, List.mem_append_right _ List.mem_cons_self, hurl.symm, ht⟩
  complete l' hl' y hy k hk := by
    obtain ⟨x, hx, hkept, hnew⟩ := find?_enter hy
    rcases List.mem_append.mp hl' with hl' | hl'
    · obtain ⟨u, hu, hbound⟩ := h.complete l' hl' x hx k hk
      exact ⟨u, hkept hu, hbound⟩
    · cases List.mem_singleton.mp hl'
      exact ⟨t, hnew rfl, ht.bound hk⟩
  first := pairwise_enter h.first l.url t

theorem Gathers.run {more : List ResourceLiteral} {ys : List ResourceReference}
    (hplain : ∀ l ∈ more, ∀ k, (l.query owner).key? = some k → k.Plain) (hr : r.Filed)
    (h : Gathers r references owner ls xs)
    (hresolve : resolve Resolver.registry owner more xs r = (ys, r')) :
    r'.Filed ∧ r.KeepsTags r' ∧ Gathers r' references owner (ls ++ more) ys := by
  induction more generalizing r ls xs with
  | nil =>
    cases hresolve
    rw [List.append_nil]
    exact ⟨hr, fun _ _ ht => ht, h⟩
  | cons l more ih =>
    obtain ⟨hl, hmore⟩ := List.forall_mem_cons.mp hplain
    rw [List.append_cons]
    by_cases hany : (xs.any fun x => x.url = l.url) = true
    · obtain ⟨hfiled, htags, hanswers⟩ := hr.registry hl
      rcases hquery : Resolver.registry r (l.query owner) with ⟨answer, r₁⟩
      rw [hquery] at hfiled hanswers htags
      rw [ResourceLiteral.query] at hquery
      rw [resolve_cons hany, hquery] at hresolve
      have hlater := h.later htags
      have hrest : ∀ {zs}, Gathers r₁ references owner (ls ++ [l]) zs →
          resolve Resolver.registry owner more zs r₁ = (ys, r') →
          r'.Filed ∧ r.KeepsTags r' ∧ Gathers r' references owner (ls ++ [l] ++ more) ys := by
        intro zs hzs hresolve
        obtain ⟨hfiled', htags', hgathers⟩ := ih hmore hfiled hzs hresolve
        exact ⟨hfiled', fun k t ht => htags' k t (htags k t ht), hgathers⟩
      cases answer with
      | some t => exact hrest (hlater.gather hanswers) hresolve
      | none =>
        cases hanswers with
        | noFile file => exact hrest (hlater.skip (.inr file)) hresolve
    · rw [resolve, if_neg hany] at hresolve
      refine ih hmore hr (h.skip (.inl fun x hx hurl => hany ?_)) hresolve
      exact List.any_eq_true.mpr ⟨x, hx, decide_eq_true hurl⟩

end ResourceReference

open ResourceReference (Gathers Lists)

namespace Registry

variable {r r' : Registry} {t : Tag} {m : CompiledModule} {code : GeneratedCode} {builtin : Bool}
  {imports : List Tag}

theorem enrol_parts {resolver : Resolver} {c : Created} {table : List ResourceReference} {r₁ : Registry}
    (h : r.enrol resolver builtin m code imports = (.ok c, r'))
    (hresolve : ResourceReference.resolve resolver m.filename code.resourceLiterals
      (m.referencedResources.map fun (url, kind) => ⟨url, kind, []⟩) r = (table, r₁)) :
    c = .new r₁.fresh ∧ r' = r₁.addModule (m.record builtin code imports table) code := by
  unfold enrol at h
  split at h
  · cases h
  · simp only [hresolve] at h
    cases h
    exact ⟨rfl, rfl⟩

theorem codeRecords_otherwise (x : ModuleRecord) (code : GeneratedCode) (r : Registry) :
    ∀ y ∈ (⟨Name.registered x.name, .module x, .browsable⟩ : Record) ::
        (r.add ⟨Name.registered x.name, .module x, .browsable⟩).codeRecords r.fresh code,
      ∀ k : ResourceKey, y.name ≠ k.recordName := by
  intro y hy k
  rcases List.mem_cons.mp hy with rfl | hy
  · exact k.recordName_ne_registered x.name
  · have hname := List.mem_map_of_mem hy (f := (·.name))
    rw [map_name_codeRecords] at hname
    obtain ⟨e, -, he⟩ := GeneratedCode.mem_registeredNames.mp hname
    exact he ▸ k.recordName_ne_registered e.name

/-- A module enters with the table that its literals were gathered in. -/
theorem enrol_gathers (hr : r.Filed)
    (hplain : ∀ l ∈ code.resourceLiterals, ∀ k, (l.query m.filename).key? = some k → k.Plain)
    (h : r.enrol Resolver.registry builtin m code imports = (.ok (.new t), r')) :
    r'.Filed ∧ r.KeepsTags r' ∧ ∃ e : ModuleEntry, e.Whole r ∧ t = e.tag r ∧ r' = r.addAll e.records ∧
      e.module.compiled = m ∧
      Gathers r' m.referencedResources m.filename code.resourceLiterals e.module.resources := by
  obtain ⟨e, hwhole, htag, hr', -⟩ := enrol_ok Resolver.registry_entersResources h
  rcases hresolve : ResourceReference.resolve Resolver.registry m.filename code.resourceLiterals
    (m.referencedResources.map fun (url, kind) => ⟨url, kind, []⟩) r with ⟨table, r₁⟩
  obtain ⟨hfiled, htags, hgathers⟩ :=
    (ResourceReference.gathers_nil r m.referencedResources m.filename).run hplain hr hresolve
  obtain ⟨hfresh, hmodule⟩ := enrol_parts h hresolve
  rw [addModule_eq_addAll] at hmodule
  have hother := codeRecords_otherwise (m.record builtin code imports table) code r₁
  have hkept := keepsTags_addAll (r := r₁) hother
  rw [← hmodule] at hkept
  -- the module's record is found under the one tag that both descriptions of the outcome give it
  have hrecord : e.module = m.record builtin code imports table := by
    have hlast := e.record?_module r
    rw [← hr', ← Created.new.inj htag] at hlast
    have hfirst : r'.record? t = some
        ⟨Name.registered m.name, .module (m.record builtin code imports table), .browsable⟩ := by
      rw [hmodule, Created.new.inj hfresh]
      exact record?_addAll_fresh r₁ (_ :: _) 0 (Nat.succ_pos _)
    have helement := congrArg Record.element (Option.some.inj (hlast.symm.trans hfirst))
    exact Element.module.inj helement
  refine ⟨hmodule ▸ hfiled.addAll hother, fun k u hu => hkept k u (htags k u hu), e, hwhole,
    Created.new.inj htag, hr', ?_, ?_⟩
  · rw [hrecord]
    rfl
  · rw [hrecord]
    rw [List.nil_append] at hgathers
    exact hgathers.later hkept

/-- A tag is that of the record for a literal: it is found by the name of the record, which is about the file
of the literal, of its kind and with its gamma. -/
def Denotes (r : Registry) (owner : Option String) (l : ResourceLiteral) (t : Tag) : Prop :=
  ∃ file, (l.query owner).filePath? = some file ∧ r.tag? ((l.query owner).recordName file) = some t ∧
    ∃ y, r.resource? t = some y ∧ y.kind = l.kind ∧ y.filePath = file ∧ y.gamma = l.gamma

/-- The table of a module is that of its references, in order, and each entry lists tags of literals with its
url, none twice. A literal that has a file is listed by the first entry for its url, and by this one only. -/
structure Tabulates (r : Registry) (n : ModuleRecord) (code : GeneratedCode) : Prop where
  entries : n.resources.map (fun x => (x.url, x.kind)) = n.compiled.referencedResources
  distinct : ∀ x ∈ n.resources, x.tags.Nodup
  denotes : ∀ x ∈ n.resources, ∀ t ∈ x.tags, ∃ l ∈ code.resourceLiterals, l.url = x.url ∧
    r.Denotes n.compiled.filename l t
  kinds : ∀ x ∈ n.resources, (∀ l ∈ code.resourceLiterals, l.url = x.url → l.kind = x.kind) →
    ∀ t ∈ x.tags, ∃ y, r.resource? t = some y ∧ y.kind = x.kind
  complete : ∀ l ∈ code.resourceLiterals, ∀ x, n.resources.find? (fun x => x.url = l.url) = some x →
    ∀ file, (l.query n.compiled.filename).filePath? = some file →
      ∃ t ∈ x.tags, r.Denotes n.compiled.filename l t
  first : n.resources.Pairwise fun x y => x.url = y.url → y.tags = []

theorem Filed.denotes (h : r.Filed) {owner : Option String} {l : ResourceLiteral} {k : ResourceKey}
    (hk : (l.query owner).key? = some k) (hplain : k.Plain) (ht : r.tag? k.recordName = some t) :
    r.Denotes owner l t := by
  obtain ⟨y, hy, hkey⟩ := h.resource? hplain ht
  obtain ⟨file, hfile, rfl⟩ := Option.map_eq_some_iff.mp hk
  exact ⟨file, hfile, ht, y, hy, congrArg ResourceKey.kind hkey, congrArg ResourceKey.filePath hkey,
    congrArg ResourceKey.gamma hkey⟩

theorem Filed.tabulates (hr : r.Filed) {n : ModuleRecord}
    (hplain : ∀ l ∈ code.resourceLiterals, ∀ k, (l.query n.compiled.filename).key? = some k → k.Plain)
    (h : Gathers r n.compiled.referencedResources n.compiled.filename code.resourceLiterals n.resources) :
    r.Tabulates n code := by
  have hdenotes : ∀ x ∈ n.resources, ∀ t ∈ x.tags, ∃ l ∈ code.resourceLiterals, l.url = x.url ∧
      r.Denotes n.compiled.filename l t := by
    intro x hx t ht
    obtain ⟨l, hl, hurl, hanswers⟩ := h.denotes x hx t ht
    cases hanswers with
    | found key bound => exact ⟨l, hl, hurl, hr.denotes key (hplain l hl _ key) bound⟩
  refine ⟨h.entries, h.distinct, hdenotes, fun x hx hkinds t ht => ?_, fun l hl x hx file hfile => ?_,
    h.first⟩
  · obtain ⟨l, hl, hurl, -, -, -, y, hy, hkind, -⟩ := hdenotes x hx t ht
    exact ⟨y, hy, hkind.trans (hkinds l hl hurl)⟩
  · have hkey := congrArg (Option.map fun file => (⟨l.kind, file, l.gamma⟩ : ResourceKey)) hfile
    obtain ⟨t, ht, hbound⟩ := h.complete l hl x hx _ hkey
    exact ⟨t, ht, hr.denotes hkey (hplain l hl _ hkey) hbound⟩

end Registry

def Toolchain.PlainUrls (t : Toolchain) : Prop :=
  ∀ events m options code, t.generate events m options = .ok code →
    ∀ l ∈ code.resourceLiterals, Unbroken l.url.toList

def CompiledModule.PlainFiles (m : CompiledModule) : Prop :=
  ∀ n, m.Reaches n → ∀ file, n.filename = some file → Unbroken file.toList

namespace Registrar

variable {g : Registrar} {m : CompiledModule} {first last : List Event} {r₀ r r' : Registry} {t : Tag}

theorem CameFrom.plain_keys (hurls : g.toolchain.PlainUrls) {code : GeneratedCode}
    (hfile : ∀ file, m.filename = some file → Unbroken file.toList) (h : g.CameFrom first last m code) :
    ∀ l ∈ code.resourceLiterals, ∀ k, (l.query m.filename).key? = some k → k.Plain := by
  obtain ⟨events, hcode⟩ := h.generated.exists_events
  exact fun l hl k hk => ResourceQuery.plain_of_key (hurls _ _ _ _ hcode l hl) hfile hk

/-- What a run has made of a registry without resources: those that it registered are listed by modules that
it registered, with the tables that literals of their code were gathered in. -/
structure Tabled (g : Registrar) (first : List Event) (r₀ : Registry) (last : List Event) (r : Registry) :
    Prop where
  filed : r.Filed
  grown : r₀.lastTag ≤ r.lastTag
  modules : ∀ t n, r₀.Issued r t → r.module? t = some n → ∃ code, g.CameFrom first last n.compiled code ∧
    (∀ l ∈ code.resourceLiterals, ∀ k, (l.query n.compiled.filename).key? = some k → k.Plain) ∧
    Gathers r n.compiled.referencedResources n.compiled.filename code.resourceLiterals n.resources
  resources : ∀ t y, r₀.Issued r t → r.resource? t = some y →
    ∃ u n, r₀.Issued r u ∧ r.module? u = some n ∧ Lists n.resources t

theorem tabled_refl (g : Registrar) (first : List Event)
    (hfree : ∀ n, "mdlr::".toList <+: n.toList → r.tag? n = none) : g.Tabled first r first r where
  filed := Registry.filed_of_free hfree
  grown := Nat.le_refl _
  modules _ _ ht := absurd (Nat.lt_of_lt_of_le ht.1 ht.2) (Nat.lt_irrefl _)
  resources _ _ ht := absurd (Nat.lt_of_lt_of_le ht.1 ht.2) (Nat.lt_irrefl _)

theorem Tabled.later (h : g.Tabled first r₀ last r) {last' : List Event} (hlast : last <+: last') :
    g.Tabled first r₀ last' r where
  filed := h.filed
  grown := h.grown
  modules t n ht hn := by
    obtain ⟨code, hcame, hgathers⟩ := h.modules t n ht hn
    exact ⟨code, hcame.later hlast, hgathers⟩
  resources := h.resources

/-- A module that enters brings its table, and resources that this table lists. -/
theorem Tabled.enters (hg : g.resolver = Resolver.registry) {code : GeneratedCode} {imports : List Tag}
    (hplain : ∀ l ∈ code.resourceLiterals, ∀ k, (l.query m.filename).key? = some k → k.Plain)
    (hcame : g.CameFrom first last m code) (h : g.Tabled first r₀ last r)
    (henters : g.Enters r m code imports t r') : g.Tabled first r₀ last r' := by
  have henrolled := henters.enrolled
  rw [hg] at henrolled
  obtain ⟨hfiled, htags, e, hwhole, -, rfl, hcompiled, hgathers⟩ :=
    Registry.enrol_gathers h.filed hplain henrolled
  obtain ⟨hlt, hle⟩ := e.tag_le_lastTag r
  have hgrown : r.lastTag ≤ (r.addAll e.records).lastTag := (Nat.le_of_lt hlt).trans hle
  refine ⟨hfiled, h.grown.trans hgrown, fun u n hu hn => ?_, fun u y hu hy => ?_⟩
  · obtain ⟨x, hx, hxn⟩ := Registry.module?_eq_some_iff.mp hn
    rcases Registry.record?_addAll_of_le_lastTag hu.2 with ⟨hold, hsame⟩ | ⟨i, z, hi, -, hnew⟩
    · obtain ⟨code', hcame', hplain', hgathers'⟩ :=
        h.modules u n ⟨hu.1, hold⟩ (Registry.module?_eq_some_iff.mpr ⟨x, hsame ▸ hx, hxn⟩)
      exact ⟨code', hcame', hplain', hgathers'.later htags⟩
    · cases hx.symm.trans hnew
      rw [(hwhole.place_of_module hi hxn).2, hcompiled]
      exact ⟨code, hcame, hplain, hgathers⟩
  · obtain ⟨x, hx, hxy⟩ := Registry.resource?_eq_some_iff.mp hy
    rcases Registry.record?_addAll_of_le_lastTag hu.2 with ⟨hold, hsame⟩ | ⟨i, z, hi, rfl, hnew⟩
    · obtain ⟨v, n, hv, hn, hlists⟩ :=
        h.resources u y ⟨hu.1, hold⟩ (Registry.resource?_eq_some_iff.mpr ⟨x, hsame ▸ hx, hxy⟩)
      obtain ⟨z, hz, hzn⟩ := Registry.module?_eq_some_iff.mp hn
      exact ⟨v, n, ⟨hv.1, hv.2.trans hgrown⟩, Registry.module?_eq_some_iff.mpr
        ⟨z, (Registry.record?_addAll_of_le hv.2 e.records).trans hz, hzn⟩, hlists⟩
    · cases hx.symm.trans hnew
      exact ⟨e.tag r, e.module, ⟨Nat.lt_of_le_of_lt h.grown hlt, hle⟩,
        Registry.module?_eq_some_iff.mpr ⟨_, e.record?_module r, rfl⟩,
        hwhole.listed i (hwhole.place_of_resource hi hxy)⟩

theorem steady_tabled (hg : g.resolver = Resolver.registry) (hurls : g.toolchain.PlainUrls)
    (hfiles : m.PlainFiles) (first : List Event) (r₀ : Registry) :
    g.Steady m first (g.Tabled first r₀) where
  log hlast h := h.later hlast
  enters hreached hcame h henters :=
    h.enters hg (hcame.plain_keys hurls (hfiles _ hreached)) hcame henters

/-- Over a registry without names of resources, and as long as there is no `::` in urls and files, each module
that a request registers has the table of its references, with the tags of its literals under the first entry
for their url; and each resource that the request registers is listed by such a module. A module that is said
to be new is among them, and it is the one that was handed over. -/
theorem perform_tabulates (hg : g.resolver = Resolver.registry) (hurls : g.toolchain.PlainUrls)
    {q : CreationRequest} {p s : Progress} {x : Except ModuleError Created}
    (hfiles : ∀ m u, g.handed? q p = some (m, u) → m.PlainFiles)
    (hfree : ∀ n, "mdlr::".toList <+: n.toList → p.registry.tag? n = none) (h : g.perform q p = (x, s)) :
    (∀ t n, p.registry.Issued s.registry t → s.registry.module? t = some n →
      ∃ code, g.CameFrom p.events s.events n.compiled code ∧ s.registry.Tabulates n code) ∧
    (∀ t y, p.registry.Issued s.registry t → s.registry.resource? t = some y →
      ∃ u n, p.registry.Issued s.registry u ∧ s.registry.module? u = some n ∧ Lists n.resources t) ∧
    ∀ t, x = .ok (.new t) → p.registry.Issued s.registry t ∧ ∃ n u, s.registry.module? t = some n ∧
      g.handed? q p = some (n.compiled, u) := by
  have hnew : ∀ t, x = .ok (.new t) → p.registry.Issued s.registry t ∧
      ∃ n u, s.registry.module? t = some n ∧ g.handed? q p = some (n.compiled, u) := by
    rintro t rfl
    exact perform_issued (hg ▸ Resolver.registry_entersResources) h
  rcases perform_cases h with ⟨-, hsame, -⟩ | ⟨m, u, v, hhanded, -, -⟩
  · have hnone : ∀ t, ¬p.registry.Issued s.registry t := fun t ht =>
      Nat.lt_irrefl _ (Nat.lt_of_lt_of_le ht.1 (hsame ▸ ht.2))
    exact ⟨fun t _ ht => absurd ht (hnone t), fun t _ ht => absurd ht (hnone t), hnew⟩
  · have hrun := (steady_tabled hg hurls (hfiles m u hhanded) p.events p.registry).perform hhanded
      (tabled_refl g p.events hfree) h
    refine ⟨fun t n ht hn => ?_, hrun.resources, hnew⟩
    obtain ⟨code, hcame, hplain, hgathers⟩ := hrun.modules t n ht hn
    exact ⟨code, hcame, hrun.filed.tabulates hplain hgathers⟩

end Registrar

theorem CompiledModule.plainFiles_of_imports {m : CompiledModule}
    (hm : ∀ file, m.filename = some file → Unbroken file.toList)
    (himports : ∀ i ∈ m.imports, i.PlainFiles) : m.PlainFiles :=
  of_imports hm himports

theorem PreparedToolchain.plainUrls_closed {p : PreparedToolchain}
    (h : ∀ c ∈ p.codes, ∀ code, c.2 = .ok code → ∀ l ∈ code.resourceLiterals, Unbroken l.url.toList) :
    p.closed.PlainUrls := by
  intro events m options code hcode l hl
  rcases code_of_generate_closed hcode with rfl | ⟨c, hc, hcode⟩
  · cases hl
  · exact h c hc code hcode l hl

namespace Registrar

def mentioning (references : List (String × ResourceKind)) (literals : List ResourceLiteral) : Registrar where
  toolchain := PreparedToolchain.closed
    { modules := [("::lamp", { name := "::lamp", filename := some "/lib/lamp.mdl"
                               referencedResources := references })]
      codes := [("::lamp", .ok { resourceLiterals := literals })] }

def lampLiterals : List ResourceLiteral :=
  [⟨"/beam.ies", .lightProfile, none⟩, ⟨"/rust.png", .texture .flat, none⟩, ⟨"glass.png", .texture .flat, none⟩]

theorem perform_tabulates_lamp :
    let g := mentioning [("glass.png", .texture .flat), ("/beam.ies", .lightProfile)] lampLiterals
    let s := (g.perform (.loaded "::lamp") {}).2
    (g.perform (.loaded "::lamp") {}).1 = .ok (.new ⟨3⟩) ∧ ∃ n code, s.registry.module? ⟨3⟩ = some n ∧
      n.resources = [⟨"glass.png", .texture .flat, [⟨2⟩]⟩, ⟨"/beam.ies", .lightProfile, [⟨1⟩]⟩] ∧
      g.CameFrom [] s.events n.compiled code ∧ s.registry.Tabulates n code := by
  intro g s
  have hnew : (g.perform (.loaded "::lamp") {}).1 = .ok (.new ⟨3⟩) := by decide +kernel
  have htable : (s.registry.module? ⟨3⟩).map (·.resources) =
      some [⟨"glass.png", .texture .flat, [⟨2⟩]⟩, ⟨"/beam.ies", .lightProfile, [⟨1⟩]⟩] := by decide +kernel
  have hurls : g.toolchain.PlainUrls := by
    refine PreparedToolchain.plainUrls_closed fun c hc code hcode => ?_
    cases List.mem_singleton.mp hc
    cases hcode
    show ∀ l ∈ lampLiterals, Unbroken l.url.toList
    decide
  have hfiles : ∀ m u, g.handed? (.loaded "::lamp") {} = some (m, u) → m.PlainFiles := by
    intro m u h
    cases load_of_handed h
    refine CompiledModule.plainFiles_of_imports (fun file hfile => ?_) nofun
    cases hfile
    decide
  have hrun : g.perform (.loaded "::lamp") {} = ((g.perform (.loaded "::lamp") {}).1, s) := Prod.ext rfl rfl
  obtain ⟨htables, -, hissued⟩ := perform_tabulates rfl hurls hfiles (fun _ _ => rfl) hrun
  obtain ⟨ht, n, -, hn, -⟩ := hissued _ hnew
  obtain ⟨code, hcame, htabulates⟩ := htables _ n ht hn
  rw [hn] at htable
  exact ⟨hnew, n, code, hn, Option.some.inj htable, hcame, htabulates⟩

/-- A module that refers to one url as a texture and as a light profile, with a literal for the light profile:
the entry for the texture lists it, and the one for the light profile is empty. -/
theorem table_mixes_kinds :
    let literal : ResourceLiteral := ⟨"/beam", .lightProfile, none⟩
    let g := mentioning [("/beam", .texture .flat), ("/beam", .lightProfile)] [literal]
    let s := (g.perform (.loaded "::lamp") {}).2
    (g.perform (.loaded "::lamp") {}).1 = .ok (.new ⟨2⟩) ∧ ∃ n, s.registry.module? ⟨2⟩ = some n ∧
      n.resources = [⟨"/beam", .texture .flat, [⟨1⟩]⟩, ⟨"/beam", .lightProfile, []⟩] ∧
      s.registry.resource? ⟨1⟩ = some ⟨.lightProfile, "/beam", none, false⟩ ∧
      (¬∀ x ∈ n.resources, ∀ t ∈ x.tags, ∃ y, s.registry.resource? t = some y ∧ y.kind = x.kind) ∧
      ¬∀ x ∈ n.resources, x.url = literal.url → x.kind = literal.kind →
        ∃ t ∈ x.tags, s.registry.Denotes n.compiled.filename literal t := by
  intro literal g s
  have htable : (s.registry.module? ⟨2⟩).map (·.resources) =
      some [⟨"/beam", .texture .flat, [⟨1⟩]⟩, ⟨"/beam", .lightProfile, []⟩] := by decide +kernel
  have hresource : s.registry.resource? ⟨1⟩ = some ⟨.lightProfile, "/beam", none, false⟩ := by
    decide +kernel
  obtain ⟨n, hn, hresources⟩ := Option.map_eq_some_iff.mp htable
  refine ⟨by decide +kernel, n, hn, hresources, hresource, ?_, ?_⟩
  · intro hkinds
    rw [hresources] at hkinds
    obtain ⟨y, hy, hkind⟩ := hkinds _ List.mem_cons_self ⟨1⟩ List.mem_cons_self
    cases hresource.symm.trans hy
    cases hkind
  · intro hlisted
    rw [hresources] at hlisted
    obtain ⟨t, ht, -⟩ := hlisted _ (List.mem_cons_of_mem _ List.mem_cons_self) rfl rfl
    cases ht

end Registrar

end MaterialModules
