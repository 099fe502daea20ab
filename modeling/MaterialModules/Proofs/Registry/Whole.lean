import MaterialModules.Proofs.Registry.Growth
import Mathlib.Data.Set.Card

set_option autoImplicit false

namespace MaterialModules

def ResourceReference.Lists (xs : List ResourceReference) (t : Tag) : Prop := ∃ x ∈ xs, t ∈ x.tags

namespace Registry

theorem Added.of_kept {base r later : Registry} {t : Tag} {x : Record} (h : Added base r t x)
    (kept : ∀ t x, r.record? t = some x → later.record? t = some x) : Added base later t x :=
  ⟨kept t x h.1, h.2⟩

def definitionsAdded (base r : Registry) (t : Tag) : Set Tag :=
  {u | ∃ x d, Added base r u x ∧ x.element = .definition d ∧ d.module = t}

/-- The old records are all there, and the new ones are modules as a whole. -/
structure AddedWhole (base r : Registry) : Prop where
  kept : ∀ t x, base.record? t = some x → r.record? t = some x
  owned : ∀ t x d, Added base r t x → x.element = .definition d →
    ∃ y m, Added base r d.module y ∧ y.element = .module m
  counted : ∀ t x m, Added base r t x → x.element = .module m →
    (definitionsAdded base r t).encard = m.functions.length + m.materials.length
  listed : ∀ t x y, Added base r t x → x.element = .resource y →
    ∃ u z m, Added base r u z ∧ z.element = .module m ∧ ResourceReference.Lists m.resources t

theorem AddedWhole.refl (r : Registry) : AddedWhole r r where
  kept _ _ h := h
  owned _ _ _ h := absurd h.1 h.2
  counted _ _ _ h := absurd h.1 h.2
  listed _ _ _ h := absurd h.1 h.2

/-- Of a module that came with the first addition, all definitions came with it; those of a later one
came later. -/
theorem AddedWhole.trans {base r later : Registry} (h₁ : AddedWhole base r) (h₂ : AddedWhole r later) :
    AddedWhole base later := by
  have split : ∀ {t x}, Added base later t x → Added base r t x ∨ Added r later t x := by
    intro t x h
    by_cases hx : r.record? t = some x
    · exact .inl ⟨hx, h.2⟩
    · exact .inr ⟨h.1, hx⟩
  have first : ∀ {t x}, Added base r t x → Added base later t x := fun h => h.of_kept h₂.kept
  have second : ∀ {t x}, Added r later t x → Added base later t x := fun h =>
    ⟨h.1, fun hx => h.2 (h₁.kept _ _ hx)⟩
  -- no record can be of both additions
  have apart : ∀ {t x y}, Added base r t x → ¬ Added r later t y := by
    intro t x y hx hy
    have hxy : x = y := Option.some.inj ((h₂.kept t x hx.1).symm.trans hy.1)
    exact hy.2 (hxy ▸ hx.1)
  refine ⟨fun t x h => h₂.kept t x (h₁.kept t x h), ?owned, ?counted, ?listed⟩
  case owned =>
    intro t x d h hd
    rcases split h with h | h
    · obtain ⟨y, m, hy, hm⟩ := h₁.owned t x d h hd
      exact ⟨y, m, first hy, hm⟩
    · obtain ⟨y, m, hy, hm⟩ := h₂.owned t x d h hd
      exact ⟨y, m, second hy, hm⟩
  case counted =>
    intro t x m h hm
    rcases split h with h | h
    · rw [← h₁.counted t x m h hm]
      congr 1
      ext u
      constructor
      · rintro ⟨y, d, hy, hd, rfl⟩
        rcases split hy with hy | hy
        · exact ⟨y, d, hy, hd, rfl⟩
        · obtain ⟨z, n, hz, -⟩ := h₂.owned u y d hy hd
          exact absurd hz (apart h)
      · rintro ⟨y, d, hy, hd, rfl⟩
        exact ⟨y, d, first hy, hd, rfl⟩
    · rw [← h₂.counted t x m h hm]
      congr 1
      ext u
      constructor
      · rintro ⟨y, d, hy, hd, rfl⟩
        rcases split hy with hy | hy
        · obtain ⟨z, n, hz, -⟩ := h₁.owned u y d hy hd
          exact absurd h (apart hz)
        · exact ⟨y, d, hy, hd, rfl⟩
      · rintro ⟨y, d, hy, hd, rfl⟩
        exact ⟨y, d, second hy, hd, rfl⟩
  case listed =>
    intro t x y h hy
    rcases split h with h | h
    · obtain ⟨u, z, m, hz, hm, hlist⟩ := h₁.listed t x y h hy
      exact ⟨u, z, m, first hz, hm, hlist⟩
    · obtain ⟨u, z, m, hz, hm, hlist⟩ := h₂.listed t x y h hy
      exact ⟨u, z, m, second hz, hm, hlist⟩

end Registry

end MaterialModules
