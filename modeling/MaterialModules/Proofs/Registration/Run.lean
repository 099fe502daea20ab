import MaterialModules.Proofs.Registration.Entry
import MaterialModules.Proofs.Registration.Steps
import Mathlib.Logic.Relation

/-!
What a finalization does to the registry, whatever comes of it: modules enter one after another, each of
them as a whole. When it fails, the module that it was about is not among them.
-/

set_option autoImplicit false

namespace MaterialModules

def CompiledModule.Reaches : CompiledModule → CompiledModule → Prop :=
  Relation.ReflTransGen fun m i => i ∈ m.imports

theorem CompiledModule.of_imports {P : CompiledModule → Prop} {m : CompiledModule} (hm : P m)
    (himports : ∀ i ∈ m.imports, ∀ n, i.Reaches n → P n) : ∀ n, m.Reaches n → P n := by
  intro n hn
  rcases Relation.ReflTransGen.cases_head hn with rfl | ⟨i, hi, hn⟩
  · exact hm
  · exact himports i hi n hn

def CompiledModule.Below (m n : CompiledModule) : Prop := ∃ i ∈ m.imports, i.Reaches n

theorem CompiledModule.Below.reaches {m n : CompiledModule} (h : m.Below n) : m.Reaches n := by
  obtain ⟨i, hi, hn⟩ := h
  exact Relation.ReflTransGen.head hi hn

namespace Registrar

/-- A module enters the registry: it is valid, its code has no error, and none of its names is taken. -/
structure Enters (g : Registrar) (r : Registry) (m : CompiledModule) (code : GeneratedCode)
    (imports : List Tag) (t : Tag) (r' : Registry) : Prop where
  valid : m.valid = true
  generated : ∃ events, g.toolchain.generate events m g.settings.generation = .ok code
  errorless : code.errorCount = 0
  enrolled : r.enrol g.resolver (g.toolchain.isBuiltin m.name) m code imports = (.ok (.new t), r')

theorem Enters.entry {g : Registrar} (hg : g.resolver.EntersResources) {r r' : Registry}
    {m : CompiledModule} {code : GeneratedCode} {imports : List Tag} {t : Tag}
    (h : g.Enters r m code imports t r') :
    ∃ e : ModuleEntry, e.Whole r ∧ t = e.tag r ∧ r' = r.addAll e.records ∧
      e.module = m.record (g.toolchain.isBuiltin m.name) code imports e.module.resources ∧
      (∀ n ∈ code.registeredNames, r.tag? n = none) ∧ e.Presents r code := by
  obtain ⟨e, hwhole, ht, hr', he⟩ := Registry.enrol_ok hg h.enrolled
  exact ⟨e, hwhole, Created.new.inj ht, hr', he⟩

/-- Modules enter in order. Before the first of them, none of their own names is bound. -/
inductive Registers (g : Registrar) (r : Registry) : List CompiledModule → Registry → Prop
  | nil : Registers g r [] r
  | snoc {ms : List CompiledModule} {r₁ r₂ : Registry} {m : CompiledModule} {code : GeneratedCode}
      {imports : List Tag} {t : Tag} (before : Registers g r ms r₁)
      (unbound : r.tag? (Name.registered m.name) = none)
      (enters : g.Enters r₁ m code imports t r₂) : Registers g r (ms ++ [m]) r₂

theorem Registers.tag?_eq_none {g : Registrar} (hg : g.resolver.EntersResources) {r r' : Registry}
    {ms : List CompiledModule} (h : g.Registers r ms r') {n : String} (hn : r'.tag? n = none) :
    r.tag? n = none := by
  induction h with
  | nil => exact hn
  | snoc before unbound enters ih =>
    obtain ⟨e, -, -, rfl, -⟩ := enters.entry hg
    exact ih (Registry.tag?_of_tag?_addAll hn)

theorem Registers.tag?_ne_none {g : Registrar} (hg : g.resolver.EntersResources) {r r' : Registry}
    {ms : List CompiledModule} (h : g.Registers r ms r') {m : CompiledModule} (hm : m ∈ ms) :
    r'.tag? (Name.registered m.name) ≠ none := by
  induction h with
  | nil => simp at hm
  | snoc before unbound enters ih =>
    obtain ⟨e, -, -, rfl, he, -⟩ := enters.entry hg
    rcases List.mem_append.mp hm with hm | hm
    · exact fun hn => ih hm (Registry.tag?_of_tag?_addAll hn)
    · cases List.mem_singleton.mp hm
      have hname : e.module.name = m.name := by rw [he]; rfl
      have hmem : (⟨Name.registered e.module.name, .module e.module, .browsable⟩ : Record) ∈ e.records :=
        List.mem_append_right _ List.mem_cons_self
      exact hname ▸ Registry.tag?_addAll_ne_none hmem _

theorem Registers.trans {g : Registrar} (hg : g.resolver.EntersResources) {r r₁ r₂ : Registry}
    {ms ns : List CompiledModule} (h₁ : g.Registers r ms r₁) (h₂ : g.Registers r₁ ns r₂) :
    g.Registers r (ms ++ ns) r₂ := by
  induction h₂ with
  | nil => simpa using h₁
  | snoc before unbound enters ih =>
    rw [← List.append_assoc]
    exact .snoc ih (h₁.tag?_eq_none hg unbound) enters

inductive Finalizes (g : Registrar) (enclosing : List String) (m : CompiledModule) (r : Registry) :
    Except ModuleError Created → Registry → Prop
  | existing {t : Tag} (registered : r.registeredModule m.name = .ok (some t)) :
      Finalizes g enclosing m r (.ok (.existing t)) r
  | entered {ms : List CompiledModule} {r₁ r₂ : Registry} {code : GeneratedCode}
      {imports : List Tag} {t : Tag} (unbound : r.tag? (Name.registered m.name) = none)
      (before : g.Registers r ms r₁)
      (below : ∀ n ∈ ms, m.Below n ∧ n.name ∉ enclosing ++ [m.name])
      (enters : g.Enters r₁ m code imports t r₂) :
      Finalizes g enclosing m r (.ok (.new t)) r₂
  | failed {e : ModuleError} {ms : List CompiledModule} {r₁ : Registry}
      (before : g.Registers r ms r₁)
      (below : ∀ n ∈ ms, m.Below n ∧ n.name ∉ enclosing ++ [m.name]) :
      Finalizes g enclosing m r (.error e) r₁

theorem Finalizes.registers {g : Registrar} {enclosing : List String} {m : CompiledModule}
    {r r' : Registry} {x : Except ModuleError Created} (hm : m.name ∉ enclosing)
    (h : g.Finalizes enclosing m r x r') :
    ∃ ms, g.Registers r ms r' ∧ ∀ n ∈ ms, m.Reaches n ∧ n.name ∉ enclosing := by
  have weaken : ∀ {ms : List CompiledModule},
      (∀ n ∈ ms, m.Below n ∧ n.name ∉ enclosing ++ [m.name]) →
      ∀ n ∈ ms, m.Reaches n ∧ n.name ∉ enclosing := fun h n hn =>
    ⟨(h n hn).1.reaches, fun hmem => (h n hn).2 (List.mem_append_left _ hmem)⟩
  cases h with
  | existing => exact ⟨[], .nil, by simp⟩
  | @entered ms r₁ _ _ _ _ unbound before below enters =>
    refine ⟨ms ++ [m], .snoc before unbound enters, fun n hn => ?_⟩
    rcases List.mem_append.mp hn with hn | hn
    · exact weaken below n hn
    · cases List.mem_singleton.mp hn
      exact ⟨Relation.ReflTransGen.refl, hm⟩
  | failed before below => exact ⟨_, before, weaken below⟩

theorem finalize_eq (g : Registrar) (enclosing : List String) (m : CompiledModule) :
    g.finalize enclosing m = (do
      Work.report m.messages
      if m.valid then
        match ← registered m.name with
        | some t => Work.pure (.existing t)
        | none => do
          g.restore m
          Work.closedBy (do
            let code ← g.generate m
            let tags ← g.finalizeAll (enclosing ++ [m.name]) m.name m.imports
            g.enrol m code tags) (.drop m.name)
      else Work.fail (.loadFailed m.name)) := by
  cases m
  rfl

def importTag (g : Registrar) (enclosing : List String) (owner : String) (i : CompiledModule) :
    Option Tag → Work Tag
  | some t => Work.pure t
  | none =>
    if i.name ∈ enclosing then Work.fail (.importFailed owner i.name)
    else do
      let created ← Work.failingWith (g.finalize enclosing i) (.importFailed owner i.name)
      Work.pure created.tag

theorem finalizeAll_cons (g : Registrar) (enclosing : List String) (owner : String)
    (i : CompiledModule) (rest : List CompiledModule) :
    g.finalizeAll enclosing owner (i :: rest) = (do
      let found ← registered i.name
      let tag ← g.importTag enclosing owner i found
      let tags ← g.finalizeAll enclosing owner rest
      Work.pure (tag :: tags)) := by
  funext p
  rw [finalizeAll, Work.bind_apply, Work.bind_apply]
  rcases registered i.name p with ⟨_ | found, s⟩
  · rfl
  · cases found with
    | some t => rfl
    | none =>
      show (if i.name ∈ enclosing then _ else _ : Work (List Tag)) s =
        (g.importTag enclosing owner i none >>= _) s
      unfold importTag
      split
      · rfl
      · rw [bind_assoc]

/-- What a finalization comes to: the module is registered already; something is wrong before it comes to
the imports; the imports are gone through and the module does not enter; or it enters after them. -/
inductive Outcome (g : Registrar) (enclosing : List String) (m : CompiledModule) (p : Progress) :
    Except ModuleError Created → Progress → Prop
  | existing {t : Tag} {q : Progress} (registered : p.registry.registeredModule m.name = .ok (some t))
      (idle : p.Idle q) : Outcome g enclosing m p (.ok (.existing t)) q
  | refused {q : Progress} (e : ModuleError) (idle : p.Idle q) : Outcome g enclosing m p (.error e) q
  | stopped {e : ModuleError} {x : Except ModuleError (List Tag)} {s u q : Progress} (start : p.Idle s)
      (imports : g.finalizeAll (enclosing ++ [m.name]) m.name m.imports s = (x, u)) (rest : u.Idle q) :
      Outcome g enclosing m p (.error e) q
  | entered {s u q : Progress} {code : GeneratedCode} {tags : List Tag} {t : Tag}
      (unbound : p.registry.tag? (Name.registered m.name) = none) (start : p.Idle s)
      (asked : g.Generated p.events s.events m code)
      (imports : g.finalizeAll (enclosing ++ [m.name]) m.name m.imports s = (.ok tags, u))
      (enters : g.Enters u.registry m code tags t q.registry) (log : u.events <+: q.events) :
      Outcome g enclosing m p (.ok (.new t)) q

section Outcome

variable {g : Registrar} {enclosing : List String} {m i : CompiledModule} {p q s : Progress}

theorem Outcome.after_idle {x : Except ModuleError Created} (hs : p.Idle s)
    (h : g.Outcome enclosing m s x q) : g.Outcome enclosing m p x q := by
  cases h with
  | existing registered idle => exact .existing (hs.registry ▸ registered) (hs.trans idle)
  | refused e idle => exact .refused e (hs.trans idle)
  | stopped start imports rest => exact .stopped (hs.trans start) imports rest
  | entered unbound start asked imports enters log =>
    exact .entered (hs.registry ▸ unbound) (hs.trans start) (asked.mono hs.events List.prefix_rfl)
      imports enters log

theorem Outcome.before_idle {x : Except ModuleError Created} (h : g.Outcome enclosing m p x s)
    (hs : s.Idle q) : g.Outcome enclosing m p x q := by
  cases h with
  | existing registered idle => exact .existing registered (idle.trans hs)
  | refused e idle => exact .refused e (idle.trans hs)
  | stopped start imports rest => exact .stopped start imports (rest.trans hs)
  | entered unbound start asked imports enters log =>
    exact .entered unbound start asked imports (hs.registry.symm ▸ enters) (log.trans hs.events)

theorem enter_outcome {x : Except ModuleError Created} (hvalid : m.valid = true)
    (hunbound : p.registry.tag? (Name.registered m.name) = none)
    (h : (do
      let code ← g.generate m
      let tags ← g.finalizeAll (enclosing ++ [m.name]) m.name m.imports
      g.enrol m code tags) p = (x, q)) :
    g.Outcome enclosing m p x q := by
  rcases (idles_generate g m).bind_cases h with ⟨code, s, hcode, hs, h⟩ | ⟨e, rfl, hq⟩
  · obtain ⟨hgen, herr⟩ := generate_ok hcode
    rcases Work.bind_cases h with ⟨tags, u, htags, h⟩ | ⟨e, htags, rfl⟩
    · rcases henrol : u.registry.enrol g.resolver (g.toolchain.isBuiltin m.name) m code tags
        with ⟨y, r₁⟩
      rw [enrol, Work.onRegistry, henrol] at h
      cases h
      cases x with
      | error e => exact .stopped hs htags ⟨Registry.enrol_error henrol, List.prefix_rfl⟩
      | ok created =>
        obtain ⟨t, rfl⟩ := Registry.new_of_enrol henrol
        exact .entered hunbound hs hgen htags ⟨hvalid, hgen.exists_events, herr, henrol⟩ List.prefix_rfl
    · exact .stopped hs htags (.refl _)
  · exact .refused e hq

theorem finalize_outcome {x : Except ModuleError Created} (h : g.finalize enclosing m p = (x, q)) :
    g.Outcome enclosing m p x q := by
  rw [finalize_eq] at h
  rcases (Work.idles_report _).bind_cases h with ⟨-, s, -, hs, h⟩ | ⟨e, rfl, hq⟩
  · refine .after_idle hs ?_
    by_cases hvalid : m.valid = true
    · rw [if_pos hvalid] at h
      rcases (idles_registered _).bind_cases h with ⟨found, u, hfound, hu, h⟩ | ⟨e, rfl, hq⟩
      · rw [registered_apply] at hfound
        cases found with
        | some t =>
          cases h
          exact .existing (Prod.mk.inj hfound).1 hu
        | none =>
          have hunbound := Registry.tag?_of_registeredModule (Prod.mk.inj hfound).1
          rcases (idles_restore g _).bind_cases h with ⟨-, v, -, hv, h⟩ | ⟨e, rfl, hq⟩
          · obtain ⟨w, h, hw⟩ := Work.closedBy_cases h
            have hidle := hu.trans hv
            rw [← hidle.registry] at hunbound
            exact ((enter_outcome hvalid hunbound h).before_idle hw).after_idle hidle
          · exact .refused e (hu.trans hq)
      · exact .refused e hq
    · rw [if_neg hvalid] at h
      cases h
      exact .refused _ (.refl _)
  · exact .refused e hq

inductive ImportOutcome (g : Registrar) (enclosing : List String) (i : CompiledModule) (p : Progress) :
    Except ModuleError Tag → Progress → Prop
  | found {t : Tag} (registered : p.registry.registeredModule i.name = .ok (some t)) :
      ImportOutcome g enclosing i p (.ok t) p
  | refused (e : ModuleError) : ImportOutcome g enclosing i p (.error e) p
  | failed {s q : Progress} {e e' : ModuleError} (allowed : i.name ∉ enclosing)
      (run : g.finalize enclosing i p = (.error e, s)) (rest : s.Idle q) :
      ImportOutcome g enclosing i p (.error e') q
  | finalized {s : Progress} {c : Created} (allowed : i.name ∉ enclosing)
      (run : g.finalize enclosing i p = (.ok c, s)) :
      ImportOutcome g enclosing i p (.ok c.tag) s

theorem importTag_outcome {owner : String} {found : Option Tag} {x : Except ModuleError Tag}
    (hfound : p.registry.registeredModule i.name = .ok found)
    (h : g.importTag enclosing owner i found p = (x, q)) :
    g.ImportOutcome enclosing i p x q := by
  unfold importTag at h
  split at h
  · cases h
    exact .found hfound
  · split at h
    · cases h
      exact .refused _
    · rename_i hname
      rcases Work.bind_cases h with ⟨created, s, hs, h⟩ | ⟨e, he, rfl⟩
      · cases h
        exact .finalized hname (Work.failingWith_ok hs)
      · obtain ⟨e', s, hs, hq⟩ := Work.failingWith_error he
        exact .failed hname hs hq

theorem finalizeAll_cons_outcome {owner : String} {rest : List CompiledModule}
    {x : Except ModuleError (List Tag)}
    (h : g.finalizeAll enclosing owner (i :: rest) p = (x, q)) :
    (∃ e e', g.ImportOutcome enclosing i p (.error e) q ∧ x = .error e') ∨
      ∃ t s y, g.ImportOutcome enclosing i p (.ok t) s ∧
        g.finalizeAll enclosing owner rest s = (y, q) ∧ x = y.map (t :: ·) := by
  rw [finalizeAll_cons, Work.bind_apply, registered_apply] at h
  cases hfound : p.registry.registeredModule i.name with
  | error e =>
    rw [hfound] at h
    cases h
    exact .inl ⟨e, e, .refused e, rfl⟩
  | ok found =>
    rw [hfound] at h
    rcases Work.bind_cases h with ⟨t, s, hs, h⟩ | ⟨e, he, rfl⟩
    · have hhead := importTag_outcome hfound hs
      rcases Work.bind_cases h with ⟨ts, v, hv, h⟩ | ⟨e, he, rfl⟩
      · cases h
        exact .inr ⟨t, s, _, hhead, hv, rfl⟩
      · exact .inr ⟨t, s, _, hhead, he, rfl⟩
    · exact .inl ⟨e, e, importTag_outcome hfound he, rfl⟩

end Outcome

theorem Outcome.finalizes {g : Registrar} {enclosing : List String} {m : CompiledModule}
    {p q : Progress} {x : Except ModuleError Created}
    (himports : ∀ {p q : Progress} {x : Except ModuleError (List Tag)},
      g.finalizeAll (enclosing ++ [m.name]) m.name m.imports p = (x, q) →
      ∃ ms, g.Registers p.registry ms q.registry ∧
        ∀ n ∈ ms, m.Below n ∧ n.name ∉ enclosing ++ [m.name])
    (h : g.Outcome enclosing m p x q) : g.Finalizes enclosing m p.registry x q.registry := by
  cases h with
  | existing registered idle => exact idle.registry.symm ▸ .existing registered
  | refused e idle => exact idle.registry.symm ▸ .failed .nil (by simp)
  | stopped start imports rest =>
    obtain ⟨ms, hms, hbelow⟩ := himports imports
    rw [rest.registry]
    exact .failed (start.registry ▸ hms) hbelow
  | entered unbound start asked imports enters log =>
    obtain ⟨ms, hms, hbelow⟩ := himports imports
    exact .entered unbound (start.registry ▸ hms) hbelow enters

theorem ImportOutcome.registers {g : Registrar} {enclosing : List String} {i : CompiledModule}
    {p q : Progress} {x : Except ModuleError Tag}
    (hi : ∀ {p q : Progress} {x : Except ModuleError Created},
      g.finalize enclosing i p = (x, q) → g.Finalizes enclosing i p.registry x q.registry)
    (h : g.ImportOutcome enclosing i p x q) :
    ∃ ms, g.Registers p.registry ms q.registry ∧ ∀ n ∈ ms, i.Reaches n ∧ n.name ∉ enclosing := by
  cases h with
  | found | refused => exact ⟨[], .nil, by simp⟩
  | failed allowed run rest => exact rest.registry.symm ▸ (hi run).registers allowed
  | finalized allowed run => exact (hi run).registers allowed

mutual

-- the recursion is that of the tree of imports
theorem finalize_finalizes {g : Registrar} (hg : g.resolver.EntersResources)
    {enclosing : List String} : (m : CompiledModule) → {p q : Progress} →
    {x : Except ModuleError Created} → g.finalize enclosing m p = (x, q) →
    g.Finalizes enclosing m p.registry x q.registry
  | ⟨_, _, _, _, _, _, imports, _, _⟩, _, _, _, h =>
    (finalize_outcome h).finalizes (finalizeAll_registers hg imports)

theorem finalizeAll_registers {g : Registrar} (hg : g.resolver.EntersResources)
    {enclosing : List String} {owner : String} : (is : List CompiledModule) → {p q : Progress} →
    {x : Except ModuleError (List Tag)} → g.finalizeAll enclosing owner is p = (x, q) →
    ∃ ms, g.Registers p.registry ms q.registry ∧
      ∀ n ∈ ms, (∃ i ∈ is, i.Reaches n) ∧ n.name ∉ enclosing
  | [], p, q, x, h => by
    cases h
    exact ⟨[], .nil, by simp⟩
  | i :: rest, p, q, x, h => by
    rcases finalizeAll_cons_outcome h with ⟨e, e', head, -⟩ | ⟨t, s, y, head, hrest, -⟩
    · obtain ⟨ms, hms, hi⟩ := head.registers (finalize_finalizes hg i)
      exact ⟨ms, hms, fun n hn => ⟨⟨i, List.mem_cons_self, (hi n hn).1⟩, (hi n hn).2⟩⟩
    · obtain ⟨ms, hms, hi⟩ := head.registers (finalize_finalizes hg i)
      obtain ⟨ns, hns, hr⟩ := finalizeAll_registers hg rest hrest
      refine ⟨ms ++ ns, hms.trans hg hns, fun n hn => ?_⟩
      rcases List.mem_append.mp hn with hn | hn
      · exact ⟨⟨i, List.mem_cons_self, (hi n hn).1⟩, (hi n hn).2⟩
      · obtain ⟨⟨j, hj, hjn⟩, hname⟩ := hr n hn
        exact ⟨⟨j, List.mem_cons_of_mem _ hj, hjn⟩, hname⟩

end

end Registrar

end MaterialModules
