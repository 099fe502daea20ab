import MaterialModules.Proofs.Registration.Wholeness

/-!
The order in which modules enter. Each one enters after its imports and refers to them by their tags. As
long as the names of modules and entities have their own shapes, nothing takes the name of a module while
its imports enter.
-/

set_option autoImplicit false

namespace MaterialModules

namespace Registry

def HoldsModule (r : Registry) (t : Tag) (name : String) : Prop :=
  r.kind? t = some .module ∧ r.name? t = some (Name.registered name)

section HoldsModule

variable {r later : Registry} {t : Tag} {name : String}

theorem holdsModule_of_record {m : ModuleRecord} {v : Visibility}
    (h : r.record? t = some ⟨Name.registered name, .module m, v⟩) : r.HoldsModule t name := by
  unfold HoldsModule kind? element? name?
  rw [h]
  exact ⟨rfl, rfl⟩

theorem HoldsModule.record (h : r.HoldsModule t name) : ∃ x, r.record? t = some x := by
  obtain ⟨x, hx, -⟩ := record?_of_name h.2
  exact ⟨x, hx⟩

theorem HoldsModule.le_lastTag (h : r.HoldsModule t name) (hr : r.Bounded) : t.id ≤ r.lastTag := by
  obtain ⟨x, hx⟩ := h.record
  exact hr t x hx

theorem HoldsModule.of_kept (h : r.HoldsModule t name)
    (kept : ∀ t x, r.record? t = some x → later.record? t = some x) : later.HoldsModule t name := by
  obtain ⟨x, hx⟩ := h.record
  unfold HoldsModule kind? element? name? at h ⊢
  rwa [kept t x hx, ← hx]

theorem Named.holdsModule (hr : r.Named) (h : r.registeredModule name = .ok (some t)) :
    r.HoldsModule t name := by
  unfold registeredModule at h
  split at h
  · cases h
  · rename_i u hu
    split at h
    · rename_i hkind
      cases h
      exact ⟨hkind, hr _ _ hu⟩
    · cases h

end HoldsModule

end Registry

namespace Registrar

/-- Modules below `top` enter one after another, each with its imports in place and with code that was
asked for between two points of the log. Its name was not bound at the start; it is not bound either when
its turn comes, if all names have their shapes. -/
inductive Grows (g : Registrar) (top : CompiledModule) (first last : List Event) (r : Registry) :
    Registry → Prop
  | refl : Grows g top first last r r
  | enters {r₁ r₂ : Registry} {m : CompiledModule} {code : GeneratedCode} {imports : List Tag} {t : Tag}
      (before : Grows g top first last r r₁) (reached : top.Reaches m)
      (unbound : r.tag? (Name.registered m.name) = none)
      (free : g.toolchain.SignsEntities → top.WellNamed → r₁.tag? (Name.registered m.name) = none)
      (imported : List.Forall₂ (fun u i => r₁.HoldsModule u i.name) imports m.imports)
      (asked : g.Generated first last m code) (enters : g.Enters r₁ m code imports t r₂) :
      Grows g top first last r r₂

variable {g : Registrar} {top m i : CompiledModule} {enclosing : List String} {r r' r₁ r₂ : Registry}
  {first first' last last' : List Event}

theorem Grows.mono (h : g.Grows top first last r r') (hfirst : first' <+: first)
    (hlast : last <+: last') : g.Grows top first' last' r r' := by
  induction h with
  | refl => exact .refl
  | enters before reached unbound free imported asked enters ih =>
    exact .enters ih reached unbound free imported (asked.mono hfirst hlast) enters

theorem Grows.registers (h : g.Grows top first last r r') : ∃ ms, g.Registers r ms r' := by
  induction h with
  | refl => exact ⟨[], .nil⟩
  | enters before reached unbound free imported asked enters ih =>
    obtain ⟨ms, hms⟩ := ih
    exact ⟨_, hms.snoc unbound enters⟩

theorem Grows.trans (hg : g.resolver.EntersResources) (h₁ : g.Grows top first last r r₁)
    (h₂ : g.Grows top first last r₁ r₂) : g.Grows top first last r r₂ := by
  obtain ⟨ms, hms⟩ := h₁.registers
  induction h₂ with
  | refl => exact h₁
  | enters before reached unbound free imported asked enters ih =>
    -- a name that is not bound in between was not bound at the start either
    exact .enters ih reached (hms.tag?_eq_none hg unbound) free imported asked enters

theorem Grows.bounded (hg : g.resolver.EntersResources) (h : g.Grows top first last r r')
    (hr : r.Bounded) : r'.Bounded := by
  obtain ⟨ms, hms⟩ := h.registers
  exact hms.bounded hg hr

theorem Grows.kept (hg : g.resolver.EntersResources) (h : g.Grows top first last r r')
    (hr : r.Bounded) : ∀ t x, r.record? t = some x → r'.record? t = some x := by
  obtain ⟨ms, hms⟩ := h.registers
  exact (hms.addedWhole hg hr).kept

theorem Registers.named (hg : g.resolver.EntersResources) {ms : List CompiledModule}
    (h : g.Registers r ms r') (hr : r.Bounded) (hn : r.Named) : r'.Named := by
  induction h with
  | nil => exact hn
  | snoc before unbound enters ih =>
    obtain ⟨e, -, -, rfl, -⟩ := enters.entry hg
    exact ih.addAll (before.bounded hg hr) e.records

theorem Grows.named (hg : g.resolver.EntersResources) (h : g.Grows top first last r r')
    (hr : r.Bounded) (hn : r.Named) : r'.Named := by
  obtain ⟨ms, hms⟩ := h.registers
  exact hms.named hg hr hn

theorem Enters.holdsModule (hg : g.resolver.EntersResources) (hr : r.Bounded) {code : GeneratedCode}
    {imports : List Tag} {t : Tag} (h : g.Enters r m code imports t r') : r'.HoldsModule t m.name := by
  obtain ⟨e, -, rfl, rfl, he, -⟩ := h.entry hg
  have hname : e.module.name = m.name := by rw [he]; rfl
  exact Registry.holdsModule_of_record (hname ▸ (e.added_module hr).1)

structure Establishes {α : Type} (g : Registrar) (top : CompiledModule) (p : Progress)
    (x : Except ModuleError α) (q : Progress) (Answers : α → Prop) : Prop where
  log : p.events <+: q.events
  grows : g.Grows top p.events q.events p.registry q.registry
  answer : ∀ a, x = .ok a → Answers a

def Finalized (r : Registry) (m : CompiledModule) (c : Created) : Prop := r.HoldsModule c.tag m.name

def Imported (r : Registry) (is : List CompiledModule) (ts : List Tag) : Prop :=
  List.Forall₂ (fun t i => r.HoldsModule t i.name) ts is

variable {p q : Progress}

theorem grows_of_idle (h : p.Idle q) : g.Grows top first last p.registry q.registry :=
  h.registry.symm ▸ .refl

theorem Outcome.establishes (hg : g.resolver.EntersResources) (hm : top.Reaches m)
    (hp : p.registry.Bounded) (hn : p.registry.Named) {x : Except ModuleError Created}
    (himports : ∀ {p q : Progress} {x : Except ModuleError (List Tag)}, p.registry.Bounded →
      p.registry.Named → g.finalizeAll (enclosing ++ [m.name]) m.name m.imports p = (x, q) →
      g.Establishes top p x q (Imported q.registry m.imports))
    (h : g.Outcome enclosing m p x q) : g.Establishes top p x q (Finalized q.registry m) := by
  cases h with
  | existing registered idle =>
    refine ⟨idle.events, grows_of_idle idle, fun c hc => ?_⟩
    cases hc
    show q.registry.HoldsModule _ _
    rw [idle.registry]
    exact hn.holdsModule registered
  | refused e idle => exact ⟨idle.events, grows_of_idle idle, fun c hc => by cases hc⟩
  | @stopped e x s u _ start imports rest =>
    have hall := himports (start.registry ▸ hp) (start.registry ▸ hn) imports
    refine ⟨start.events.trans (hall.log.trans rest.events), ?_, fun c hc => by cases hc⟩
    rw [rest.registry, ← start.registry]
    exact hall.grows.mono start.events rest.events
  | @entered s u _ code tags t unbound start asked imports enters log =>
    have hall := himports (start.registry ▸ hp) (start.registry ▸ hn) imports
    have hgrows : g.Grows top p.events q.events p.registry u.registry :=
      start.registry ▸ hall.grows.mono start.events log
    have hfree : g.toolchain.SignsEntities → top.WellNamed →
        u.registry.tag? (Name.registered m.name) = none := by
      intro hs hw
      -- what entered is below `m` and has another name, as `m` was among those that were waiting
      obtain ⟨ms, hms, hbelow⟩ := finalizeAll_registers hg m.imports imports
      rw [hms.tag?_eq hg hs (hw m hm) fun n hn => ?_, start.registry, unbound]
      obtain ⟨⟨j, hj, hjn⟩, hname⟩ := hbelow n hn
      have hreached : m.Reaches n := Relation.ReflTransGen.head hj hjn
      exact ⟨hw n (hm.trans hreached),
        fun heq => hname (heq ▸ List.mem_append_right _ List.mem_cons_self)⟩
    have hasked := asked.mono List.prefix_rfl (hall.log.trans log)
    refine ⟨start.events.trans (hall.log.trans log),
      .enters hgrows hm unbound hfree (hall.answer tags rfl) hasked enters, fun c hc => ?_⟩
    cases hc
    exact enters.holdsModule hg (hgrows.bounded hg hp)

theorem ImportOutcome.establishes (hn : p.registry.Named) {x : Except ModuleError Tag}
    (hi : ∀ {q : Progress} {x : Except ModuleError Created}, g.finalize enclosing i p = (x, q) →
      g.Establishes top p x q (Finalized q.registry i))
    (h : g.ImportOutcome enclosing i p x q) :
    g.Establishes top p x q (q.registry.HoldsModule · i.name) := by
  cases h with
  | found registered =>
    refine ⟨List.prefix_rfl, .refl, fun t ht => ?_⟩
    cases ht
    exact hn.holdsModule registered
  | refused e => exact ⟨List.prefix_rfl, .refl, fun t ht => by cases ht⟩
  | failed allowed run rest =>
    have hrun := hi run
    refine ⟨hrun.log.trans rest.events, ?_, fun t ht => by cases ht⟩
    rw [rest.registry]
    exact hrun.grows.mono List.prefix_rfl rest.events
  | finalized allowed run =>
    have hrun := hi run
    refine ⟨hrun.log, hrun.grows, fun t ht => ?_⟩
    cases ht
    exact hrun.answer _ rfl

mutual

-- the recursion is that of the tree of imports
theorem finalize_establishes (hg : g.resolver.EntersResources) {enclosing : List String} :
    (m : CompiledModule) → top.Reaches m → {p q : Progress} → {x : Except ModuleError Created} →
    p.registry.Bounded → p.registry.Named → g.finalize enclosing m p = (x, q) →
    g.Establishes top p x q (Finalized q.registry m)
  | ⟨_, _, _, _, _, _, imports, _, _⟩, hm, _, _, _, hp, hn, h =>
    (finalize_outcome h).establishes hg hm hp hn
      (finalizeAll_establishes hg imports fun _ hi => hm.tail hi)

theorem finalizeAll_establishes (hg : g.resolver.EntersResources) {enclosing : List String}
    {owner : String} : (is : List CompiledModule) → (∀ i ∈ is, top.Reaches i) → {p q : Progress} →
    {x : Except ModuleError (List Tag)} → p.registry.Bounded → p.registry.Named →
    g.finalizeAll enclosing owner is p = (x, q) → g.Establishes top p x q (Imported q.registry is)
  | [], _, p, q, x, _, _, h => by
    cases h
    refine ⟨List.prefix_rfl, .refl, fun ts hts => ?_⟩
    cases hts
    exact .nil
  | i :: rest, his, p, q, x, hp, hn, h => by
    have hi : ∀ {q : Progress} {x : Except ModuleError Created}, g.finalize enclosing i p = (x, q) →
        g.Establishes top p x q (Finalized q.registry i) :=
      finalize_establishes hg i (his i List.mem_cons_self) hp hn
    rcases finalizeAll_cons_outcome h with ⟨e, e', head, rfl⟩ | ⟨t, s, y, head, hrest, rfl⟩
    · have hhead := head.establishes hn hi
      exact ⟨hhead.log, hhead.grows, fun ts hts => by cases hts⟩
    · have hhead := head.establishes hn hi
      have hs := hhead.grows.bounded hg hp
      have htail := finalizeAll_establishes hg rest (fun j hj => his j (List.mem_cons_of_mem _ hj)) hs
        (hhead.grows.named hg hp hn) hrest
      refine ⟨hhead.log.trans htail.log, (hhead.grows.mono List.prefix_rfl htail.log).trans hg
        (htail.grows.mono hhead.log List.prefix_rfl), fun ts hts => ?_⟩
      cases y with
      | error e => cases hts
      | ok us =>
        cases hts
        exact .cons ((hhead.answer t rfl).of_kept (htail.grows.kept hg hs)) (htail.answer us rfl)

end

/-- What a request makes of a sound registry: nothing enters, or the registry grows by modules below the
one that is handed over. -/
theorem perform_grows (hg : g.resolver.EntersResources) {q : CreationRequest} {p s : Progress}
    {x : Except ModuleError Created} (hp : p.registry.Bounded) (hn : p.registry.Named)
    (h : g.perform q p = (x, s)) :
    (g.handed? q p = none ∧ s.registry = p.registry) ∨
      ∃ m u, g.handed? q p = some (m, u) ∧ g.Grows m p.events s.events p.registry s.registry := by
  rcases perform_cases h with ⟨hnone, heq, -⟩ | ⟨m, u, v, hhanded, hfinal, hv⟩
  · exact .inl ⟨hnone, heq⟩
  · have hu := idle_of_handed hhanded
    rw [← hu.registry] at hp hn
    have hgrows := (finalize_establishes hg m .refl hp hn hfinal).grows
    rw [hv.registry, ← hu.registry]
    exact .inr ⟨m, u, hhanded, hgrows.mono hu.events hv.events⟩

end Registrar

end MaterialModules
