import MaterialModules.Proofs.Registration.Order
import MaterialModules.Proofs.Registration.Session
import Mathlib.Data.List.Forall2

set_option autoImplicit false

namespace MaterialModules

namespace Registry

/-- The import tags of every module stand for its compiled imports, in order, and are smaller than its
own tag. -/
def Linked (r : Registry) : Prop := ∀ t m, r.module? t = some m →
  List.Forall₂ (fun u i => u.id < t.id ∧ r.HoldsModule u i.name) m.imports m.compiled.imports

def Imports (r : Registry) (u t : Tag) : Prop := ∃ m, r.module? t = some m ∧ u ∈ m.imports

theorem Linked.wellFounded_imports {r : Registry} (h : r.Linked) : WellFounded r.Imports := by
  refine Subrelation.wf (r := fun u t : Tag => u.id < t.id) ?_ (measure Tag.id).wf
  rintro u t ⟨m, hm, hu⟩
  exact ((List.forall₂_and_left _ _).mp (h t m hm)).1 u hu

structure Sound (r : Registry) : Prop where
  bounded : r.Bounded
  named : r.Named
  linked : r.Linked

namespace Sound

variable {r : Registry}

theorem empty : Sound {} where
  bounded := bounded_empty
  named := named_empty
  linked := by
    intro t m h
    cases h

theorem reserve (h : r.Sound) : r.reserve.Sound where
  bounded t x hx := Nat.le_succ_of_le (h.bounded t x hx)
  named := h.named
  linked := h.linked

theorem put (h : r.Sound) {t : Tag} {x : Record} (reserved : t.id ≤ r.lastTag)
    (unused : r.record? t = none) (foreign : ∀ m, x.element ≠ .module m) : (r.put t x).Sound := by
  have kept : ∀ u y, r.record? u = some y → (r.put t x).record? u = some y := by
    intro u y hy
    have hne : u ≠ t := by
      rintro rfl
      rw [unused] at hy
      cases hy
    rwa [record?_put_of_ne hne]
  refine ⟨fun u y hy => ?bounded, fun n u hu => ?named, fun u m hm => ?linked⟩
  case bounded =>
    by_cases hut : u = t
    · exact hut ▸ reserved
    · rw [record?_put_of_ne hut] at hy
      exact h.bounded u y hy
  case named =>
    by_cases hn : n = x.name
    · subst hn
      rw [tag?_put_self] at hu
      cases hu
      exact name?_of_record (record?_put_self r t x)
    · rw [tag?_put_of_ne hn] at hu
      obtain ⟨y, hy, rfl⟩ := record?_of_name (h.named n u hu)
      exact name?_of_record (kept u y hy)
  case linked =>
    obtain ⟨y, hy, hym⟩ := module?_eq_some_iff.mp hm
    by_cases hut : u = t
    · subst hut
      rw [record?_put_self] at hy
      cases hy
      exact absurd hym (foreign m)
    · rw [record?_put_of_ne hut] at hy
      have hold := h.linked u m (module?_eq_some_iff.mpr ⟨y, hy, hym⟩)
      exact hold.imp fun v i hv => ⟨hv.1, hv.2.of_kept kept⟩

theorem add (h : r.Sound) {x : Record} (foreign : ∀ m, x.element ≠ .module m) : (r.add x).Sound := by
  refine h.reserve.put (Nat.le_refl _) ?_ foreign
  rw [record?_reserve]
  by_contra hne
  obtain ⟨y, hy⟩ := Option.ne_none_iff_exists'.mp hne
  exact Nat.not_succ_le_self _ (h.bounded r.fresh y hy)

end Sound

end Registry

namespace Registrar

variable {g : Registrar} {m top : CompiledModule} {r r' : Registry} {first last : List Event}

theorem Enters.linked (hg : g.resolver.EntersResources) (hr : r.Bounded) (hl : r.Linked)
    {code : GeneratedCode} {imports : List Tag} {t : Tag}
    (imported : List.Forall₂ (fun u i => r.HoldsModule u i.name) imports m.imports)
    (h : g.Enters r m code imports t r') : r'.Linked := by
  obtain ⟨e, hwhole, -, rfl, he, -⟩ := h.entry hg
  have kept : ∀ t x, r.record? t = some x → (r.addAll e.records).record? t = some x :=
    fun _ _ hx => hr.record?_addAll _ hx
  intro u n hn
  obtain ⟨x, hx, hxn⟩ := Registry.module?_eq_some_iff.mp hn
  by_cases hold : r.record? u = some x
  · have holdLinked := hl u n (Registry.module?_eq_some_iff.mpr ⟨x, hold, hxn⟩)
    exact holdLinked.imp fun v i hv => ⟨hv.1, hv.2.of_kept kept⟩
  · obtain ⟨rfl, rfl⟩ := hwhole.added_module_eq hr ⟨hx, hold⟩ hxn
    rw [he]
    refine imported.imp fun v i hv => ⟨?_, hv.of_kept kept⟩
    have hle : v.id ≤ r.lastTag := hv.le_lastTag hr
    show v.id < r.lastTag + 1 + e.resources.length
    omega

theorem Grows.sound (hg : g.resolver.EntersResources) (h : g.Grows top first last r r') (hr : r.Sound) :
    r'.Sound := by
  refine ⟨h.bounded hg hr.bounded, h.named hg hr.bounded hr.named, ?_⟩
  induction h with
  | refl => exact hr.linked
  | enters before reached unbound free imported asked enters ih =>
    exact enters.linked hg (before.bounded hg hr.bounded) ih imported

theorem after_sound (hg : g.resolver.EntersResources) (q : Request) {p : Progress}
    (hp : p.registry.Sound) : (g.after q p).registry.Sound := by
  rcases after_cases hg q p with ⟨c, rfl⟩ | hsame | ⟨x, y, hy, -, hnew⟩
  · rcases hrun : g.perform c p with ⟨a, s⟩
    show (g.perform c p).2.registry.Sound
    rw [hrun]
    rcases perform_grows hg hp.bounded hp.named hrun with ⟨-, heq⟩ | ⟨m, u, -, hgrows⟩
    · exact heq ▸ hp
    · exact hgrows.sound hg hp
  · exact hsame ▸ hp
  · rw [hnew]
    refine hp.add fun m hm => ?_
    rw [hy] at hm
    cases hm

end Registrar

/-- A registry that comes about from the empty one by requests to any registrars, which may have been
asked anything before, and by storing what is no module under tags that were reserved for it. -/
inductive Registry.Reachable : Registry → Prop
  | empty : Reachable {}
  | request {g : Registrar} (hg : g.resolver.EntersResources) (q : Request) {p : Progress}
      (before : Reachable p.registry) : Reachable (g.after q p).registry
  | reserved {r : Registry} (before : Reachable r) : Reachable r.reserve
  | stored {r : Registry} {t : Tag} {x : Record} (before : Reachable r) (reserved : t.id ≤ r.lastTag)
      (unused : r.record? t = none) (foreign : ∀ m, x.element ≠ .module m) : Reachable (r.put t x)

theorem Registry.Reachable.sound {r : Registry} (h : r.Reachable) : r.Sound := by
  induction h with
  | empty => exact .empty
  | request hg q before ih => exact Registrar.after_sound hg q ih
  | reserved before ih => exact ih.reserve
  | stored before reserved unused foreign ih => exact ih.put reserved unused foreign

/-- In every reachable registry the import tags of each module are those of its compiled imports, in
order, and smaller than its own; so following them ends. -/
theorem Registry.Reachable.linked_and_wellFounded {r : Registry} (h : r.Reachable) :
    r.Linked ∧ WellFounded r.Imports :=
  ⟨h.sound.linked, h.sound.linked.wellFounded_imports⟩

namespace Registrar

def diamond (refused : List String) : Registrar where
  toolchain := PreparedToolchain.toolchain
    { modules := [("::top", { name := "::top", imports :=
        [{ name := "::left", imports := [{ name := "::base" }] },
          { name := "::right", imports := [{ name := "::base" }, { name := "::left" }] }] })]
      codes := [("::base", .ok { functions := [{ name := "::base::f()", returnType := .material }] })]
      refusedRestores := refused }

def diamondAfterRetry : Registry :=
  let first := ((diamond ["::right"]).after (.creation (.loaded "::top")) {}).registry
  let between := first.reserve.put first.fresh ⟨"call", .call ⟨.function, ⟨2⟩, []⟩, .browsable⟩
  ((diamond []).after (.creation (.loaded "::top")) { registry := between }).registry

theorem linked_diamondAfterRetry :
    diamondAfterRetry.Reachable ∧
    [1, 3, 5, 6].map (fun i => (diamondAfterRetry.module? ⟨i⟩).map fun m => (m.name, m.imports)) =
      [some ("::base", []), some ("::left", [⟨1⟩]), some ("::right", [⟨1⟩, ⟨3⟩]),
        some ("::top", [⟨3⟩, ⟨5⟩])] ∧
    diamondAfterRetry.Linked ∧ WellFounded diamondAfterRetry.Imports := by
  have hreachable : diamondAfterRetry.Reachable := by
    refine .request (p := { registry := _ }) Resolver.registry_entersResources _ ?_
    refine .stored (.reserved (.request Resolver.registry_entersResources _ .empty)) (by decide +kernel)
      (by decide +kernel) fun m hm => by cases hm
  exact ⟨hreachable, by decide +kernel, hreachable.linked_and_wellFounded⟩

end Registrar

end MaterialModules
