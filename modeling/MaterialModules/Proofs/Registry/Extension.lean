import MaterialModules.Proofs.Registry.Growth
import Mathlib.Data.List.Nodup

set_option autoImplicit false

namespace MaterialModules

namespace Registry

/-- Whatever the earlier registry has, the later one has as well: bindings, records, and tags that are
handed out. -/
structure Extends (earlier later : Registry) : Prop where
  binding : ∀ n t, earlier.tag? n = some t → later.tag? n = some t
  record : ∀ t x, earlier.record? t = some x → later.record? t = some x
  lastTag : earlier.lastTag ≤ later.lastTag

theorem Extends.refl (r : Registry) : Extends r r := ⟨fun _ _ h => h, fun _ _ h => h, Nat.le_refl _⟩

theorem Extends.trans {a b c : Registry} (h₁ : Extends a b) (h₂ : Extends b c) : Extends a c where
  binding n t h := h₂.binding n t (h₁.binding n t h)
  record t x h := h₂.record t x (h₁.record t x h)
  lastTag := Nat.le_trans h₁.lastTag h₂.lastTag

theorem module?_of_record {r later : Registry} (kept : ∀ t x, r.record? t = some x →
    later.record? t = some x) {t : Tag} {m : ModuleRecord} (h : r.module? t = some m) :
    later.module? t = some m := by
  unfold module? element? at h ⊢
  cases hx : r.record? t with
  | none =>
    rw [hx] at h
    cases h
  | some x => rwa [kept t x hx, ← hx]

theorem module?_eq_some_iff {r : Registry} {t : Tag} {m : ModuleRecord} :
    r.module? t = some m ↔ ∃ x, r.record? t = some x ∧ x.element = .module m := by
  unfold module? element?
  cases r.record? t with
  | none => simp
  | some x => cases hx : x.element <;> simp [hx]

theorem definition?_eq_some_iff {r : Registry} {t : Tag} {d : Definition} :
    r.definition? t = some d ↔ ∃ x, r.record? t = some x ∧ x.element = .definition d := by
  unfold definition? element?
  cases r.record? t with
  | none => simp
  | some x => cases hx : x.element <;> simp [hx]

theorem resource?_eq_some_iff {r : Registry} {t : Tag} {y : Resource} :
    r.resource? t = some y ↔ ∃ x, r.record? t = some x ∧ x.element = .resource y := by
  unfold resource? element?
  cases r.record? t with
  | none => simp
  | some x => cases hx : x.element <;> simp [hx]

section Names

/-- Every bound name leads to a record that has it. -/
def Named (r : Registry) : Prop := ∀ n t, r.tag? n = some t → r.name? t = some n

def NamesBound (r : Registry) : Prop := ∀ t x, (t, x) ∈ r.records → r.tag? x.name ≠ none

theorem named_empty : Named {} := by
  intro n t h
  cases h

theorem namesBound_empty : NamesBound {} := by
  intro t x h
  cases h

theorem tag?_addAll_cases {r : Registry} {xs : List Record} {n : String} {t : Tag}
    (h : (r.addAll xs).tag? n = some t) :
    r.tag? n = some t ∨ ∃ i x, xs[i]? = some x ∧ x.name = n ∧ t = ⟨r.lastTag + 1 + i⟩ := by
  induction xs generalizing r with
  | nil => exact .inl h
  | cons y ys ih =>
    rcases ih h with h | ⟨i, x, hi, hx, ht⟩
    · by_cases hn : n = y.name
      · subst hn
        rw [tag?_add_self] at h
        exact .inr ⟨0, y, rfl, rfl, (Option.some.inj h).symm⟩
      · rw [tag?_add_of_ne hn] at h
        exact .inl h
    · refine .inr ⟨i + 1, x, hi, hx, ?_⟩
      rw [ht, lastTag_add]
      congr 1
      omega

theorem tag?_addAll_of_distinct {xs : List Record} (h : (xs.map (·.name)).Nodup) {i : Nat} {x : Record}
    (hi : xs[i]? = some x) (r : Registry) : (r.addAll xs).tag? x.name = some ⟨r.lastTag + 1 + i⟩ := by
  induction xs generalizing r i with
  | nil => cases hi
  | cons y ys ih =>
    rw [List.map_cons, List.nodup_cons] at h
    rw [addAll_cons]
    cases i with
    | zero =>
      obtain rfl : y = x := Option.some.inj hi
      have hne : ∀ z ∈ ys, z.name ≠ y.name := fun z hz heq =>
        h.1 (heq ▸ List.mem_map_of_mem hz)
      rw [tag?_addAll_of_notMem hne, tag?_add_self]
      rfl
    | succ i =>
      rw [ih h.2 hi, lastTag_add]
      congr 2
      omega

theorem name?_of_record {r : Registry} {t : Tag} {x : Record} (h : r.record? t = some x) :
    r.name? t = some x.name := by
  rw [name?, h, Option.map_some]

theorem record?_of_name {r : Registry} {t : Tag} {n : String} (h : r.name? t = some n) :
    ∃ x, r.record? t = some x ∧ x.name = n := Option.map_eq_some_iff.mp h

theorem Named.addAll {r : Registry} (h : r.Named) (hr : r.Bounded) (xs : List Record) :
    (r.addAll xs).Named := by
  intro n t ht
  rcases tag?_addAll_cases ht with ht | ⟨i, x, hi, rfl, rfl⟩
  · obtain ⟨x, hx, rfl⟩ := record?_of_name (h n t ht)
    exact name?_of_record (hr.record?_addAll xs hx)
  · obtain ⟨hlt, rfl⟩ := List.getElem?_eq_some_iff.mp hi
    exact name?_of_record (record?_addAll_fresh r xs i hlt)

end Names

section Entries

theorem Bounded.records_add {r : Registry} (hr : r.Bounded) (x : Record) :
    (r.add x).records = (r.fresh, x) :: r.records := by
  show (r.fresh, x) :: Table.erase r.fresh r.records = _
  congr 1
  refine List.filter_eq_self.mpr fun e he => ?_
  have hne : e.1 ≠ r.fresh := by
    intro heq
    obtain ⟨y, hy⟩ := Table.get?_of_mem he
    rw [heq] at hy
    exact Nat.not_succ_le_self _ (hr r.fresh y hy)
  simpa using hne

theorem Bounded.records_addAll {r : Registry} (hr : r.Bounded) (xs : List Record) :
    ∃ es : List (Tag × Record), (r.addAll xs).records = es ++ r.records ∧ es.map (·.2) = xs.reverse := by
  induction xs generalizing r with
  | nil => exact ⟨[], rfl, rfl⟩
  | cons x xs ih =>
    obtain ⟨es, hes, hmap⟩ := ih (hr.addAll [x])
    refine ⟨es ++ [(r.fresh, x)], ?_, by simp [hmap]⟩
    rw [addAll_cons]
    have hx : (r.addAll [x]).records = (r.fresh, x) :: r.records := hr.records_add x
    rw [show r.add x = r.addAll [x] from rfl, hes, hx, List.append_assoc]
    rfl

theorem mem_records {r : Registry} {t : Tag} {x : Record} (h : r.record? t = some x) :
    (t, x) ∈ r.records := Table.mem_of_get? h

theorem NamesBound.addAll {r : Registry} (h : r.NamesBound) (hr : r.Bounded) (xs : List Record) :
    (r.addAll xs).NamesBound := by
  intro t x hx
  obtain ⟨es, hes, hmap⟩ := hr.records_addAll xs
  rw [hes] at hx
  rcases List.mem_append.mp hx with hx | hx
  · have hmem : x ∈ xs := by
      have := List.mem_map_of_mem (f := (·.2)) hx
      rwa [hmap, List.mem_reverse] at this
    exact tag?_addAll_ne_none hmem r
  · exact fun hn => h t x hx (tag?_of_tag?_addAll hn)

theorem mem_browsableNames {r : Registry} {n : String} :
    n ∈ r.browsableNames ↔ ∃ x ∈ r.records.map (·.2), x.visibility = .browsable ∧ x.name = n := by
  simp only [browsableNames, List.mem_mergeSort, List.mem_map, List.mem_filter, decide_eq_true_eq]
  constructor
  · rintro ⟨e, ⟨he, hvis⟩, rfl⟩
    exact ⟨e.2, ⟨e, he, rfl⟩, hvis, rfl⟩
  · rintro ⟨-, ⟨e, he, rfl⟩, hvis, rfl⟩
    exact ⟨e, ⟨he, hvis⟩, rfl⟩

end Entries

/-- Records that may enter one after another: their names are not bound and differ from each other. -/
structure Free (r : Registry) (xs : List Record) : Prop where
  unbound : ∀ x ∈ xs, r.tag? x.name = none
  distinct : (xs.map (·.name)).Nodup

namespace Free

variable {r : Registry} {x : Record} {xs ys : List Record}

theorem nil : r.Free [] := ⟨by simp, List.nodup_nil⟩

theorem append (h₁ : r.Free xs) (h₂ : (r.addAll xs).Free ys) : r.Free (xs ++ ys) where
  unbound x hx := by
    rcases List.mem_append.mp hx with hx | hx
    · exact h₁.unbound x hx
    · exact tag?_of_tag?_addAll (h₂.unbound x hx)
  distinct := by
    rw [List.map_append]
    refine h₁.distinct.append h₂.distinct fun n hn hn' => ?_
    obtain ⟨x, hx, rfl⟩ := List.mem_map.mp hn
    obtain ⟨y, hy, heq⟩ := List.mem_map.mp hn'
    exact tag?_addAll_ne_none hx r (heq ▸ h₂.unbound y hy)

theorem singleton (h : r.tag? x.name = none) : r.Free [x] :=
  ⟨fun y hy => by cases List.mem_singleton.mp hy; exact h, List.nodup_singleton _⟩

theorem cons (hx : r.tag? x.name = none) (h : (r.add x).Free xs) : r.Free (x :: xs) :=
  (singleton hx).append h

theorem found (h : r.Free xs) (hx : x ∈ xs) :
    ∃ t, (r.addAll xs).tag? x.name = some t ∧ (r.addAll xs).record? t = some x := by
  obtain ⟨i, hlt, rfl⟩ := List.mem_iff_getElem.mp hx
  exact ⟨_, tag?_addAll_of_distinct h.distinct (List.getElem?_eq_getElem hlt) r,
    record?_addAll_fresh r xs i hlt⟩

theorem listed_iff (h : r.Free xs) (hr : r.Bounded) (hn : r.NamesBound) (hx : x ∈ xs) :
    x.name ∈ (r.addAll xs).browsableNames ↔ x.visibility = .browsable := by
  obtain ⟨es, hes, hmap⟩ := hr.records_addAll xs
  rw [mem_browsableNames, hes, List.map_append, hmap]
  constructor
  · rintro ⟨y, hy, hvis, hname⟩
    rcases List.mem_append.mp hy with hy | hy
    · have hxy : y = x := List.inj_on_of_nodup_map h.distinct (List.mem_reverse.mp hy) hx hname
      exact hxy ▸ hvis
    · -- the name of an old record is bound
      obtain ⟨⟨t, y⟩, he, rfl⟩ := List.mem_map.mp hy
      exact absurd (h.unbound x hx) (hname ▸ hn t y he)
  · intro hvis
    exact ⟨x, List.mem_append_left _ (List.mem_reverse.mpr hx), hvis, rfl⟩

theorem listed_iff_of_bound (h : r.Free xs) (hr : r.Bounded) {n : String} (hn : r.tag? n ≠ none) :
    n ∈ (r.addAll xs).browsableNames ↔ n ∈ r.browsableNames := by
  obtain ⟨es, hes, hmap⟩ := hr.records_addAll xs
  rw [mem_browsableNames, mem_browsableNames, hes, List.map_append, hmap]
  constructor
  · rintro ⟨y, hy, hvis, rfl⟩
    rcases List.mem_append.mp hy with hy | hy
    · exact absurd (h.unbound y (List.mem_reverse.mp hy)) hn
    · exact ⟨y, hy, hvis, rfl⟩
  · rintro ⟨y, hy, hvis, rfl⟩
    exact ⟨y, List.mem_append_right _ hy, hvis, rfl⟩

end Free

/-- Records leave the earlier registry as it is if none of their names was bound in it; in between, they
may have been bound. -/
theorem Extends.addAll {r r₁ : Registry} (h : r.Extends r₁) (hr : r₁.Bounded) {xs : List Record}
    (hxs : ∀ x ∈ xs, r.tag? x.name = none) : r.Extends (r₁.addAll xs) where
  binding n t ht := by
    have hne : ∀ x ∈ xs, x.name ≠ n := by
      rintro x hx rfl
      rw [hxs x hx] at ht
      cases ht
    rw [tag?_addAll_of_notMem hne]
    exact h.binding n t ht
  record t x hx := hr.record?_addAll xs (h.record t x hx)
  lastTag := by
    rw [lastTag_addAll]
    exact Nat.le_trans h.lastTag (Nat.le_add_right _ _)

end Registry

end MaterialModules
