import MaterialModules.Registry.Basic

/-!
Registries that grow: records entered one after another under fresh tags. Everything that a driver call
does to a registry is of this form.
-/

set_option autoImplicit false

namespace MaterialModules

namespace Registry

def Bounded (r : Registry) : Prop := ∀ t x, r.record? t = some x → t.id ≤ r.lastTag

theorem bounded_empty : Bounded {} := by
  intro t x h
  cases h

/-- A record is in the later registry and was not in the earlier one, at least not under this tag and
with these contents. -/
def Added (earlier later : Registry) (t : Tag) (x : Record) : Prop :=
  later.record? t = some x ∧ earlier.record? t ≠ some x

def Issued (earlier later : Registry) (t : Tag) : Prop := earlier.lastTag < t.id ∧ t.id ≤ later.lastTag

def addAll (r : Registry) (xs : List Record) : Registry := xs.foldl add r

@[simp] theorem addAll_nil (r : Registry) : r.addAll [] = r := rfl

@[simp] theorem addAll_cons (r : Registry) (x : Record) (xs : List Record) :
    r.addAll (x :: xs) = (r.add x).addAll xs := rfl

theorem addAll_append (r : Registry) (xs ys : List Record) :
    r.addAll (xs ++ ys) = (r.addAll xs).addAll ys := List.foldl_append

@[simp] theorem lastTag_add (r : Registry) (x : Record) : (r.add x).lastTag = r.lastTag + 1 := rfl

theorem lastTag_addAll (r : Registry) (xs : List Record) :
    (r.addAll xs).lastTag = r.lastTag + xs.length := by
  induction xs generalizing r with
  | nil => rfl
  | cons x xs ih =>
    rw [addAll_cons, ih, lastTag_add, List.length_cons]
    omega

theorem record?_add_fresh (r : Registry) (x : Record) : (r.add x).record? r.fresh = some x :=
  record?_put_self r.reserve r.fresh x

theorem record?_add_of_ne {r : Registry} {t : Tag} (h : t ≠ r.fresh) (x : Record) :
    (r.add x).record? t = r.record? t := record?_put_of_ne h r.reserve x

theorem record?_addAll_of_le {r : Registry} {t : Tag} (h : t.id ≤ r.lastTag) (xs : List Record) :
    (r.addAll xs).record? t = r.record? t := by
  induction xs generalizing r with
  | nil => rfl
  | cons x xs ih =>
    have hne : t ≠ r.fresh := by
      rintro rfl
      exact Nat.not_succ_le_self _ h
    rw [addAll_cons, ih (by rw [lastTag_add]; omega), record?_add_of_ne hne]

theorem record?_addAll_fresh (r : Registry) (xs : List Record) (i : Nat) (h : i < xs.length) :
    (r.addAll xs).record? ⟨r.lastTag + 1 + i⟩ = some xs[i] := by
  induction xs generalizing r i with
  | nil => simp at h
  | cons x xs ih =>
    rw [addAll_cons]
    cases i with
    | zero =>
      rw [record?_addAll_of_le (Nat.le_refl _)]
      exact record?_add_fresh r x
    | succ i =>
      have hi := ih (r.add x) i (by simpa using h)
      rw [lastTag_add] at hi
      rw [show r.lastTag + 1 + (i + 1) = r.lastTag + 1 + 1 + i by omega, hi]
      rfl

theorem record?_addAll_of_le_lastTag {r : Registry} {xs : List Record} {t : Tag}
    (h : t.id ≤ (r.addAll xs).lastTag) :
    (t.id ≤ r.lastTag ∧ (r.addAll xs).record? t = r.record? t) ∨
      ∃ i x, xs[i]? = some x ∧ t = ⟨r.lastTag + 1 + i⟩ ∧ (r.addAll xs).record? t = some x := by
  rcases Nat.lt_or_ge r.lastTag t.id with hlt | hle
  · obtain ⟨i, hi⟩ := Nat.exists_eq_add_of_lt hlt
    obtain rfl : t = ⟨r.lastTag + 1 + i⟩ := by
      obtain ⟨id⟩ := t
      congr 1
      simp only at hi
      omega
    rw [lastTag_addAll] at h
    simp only at h
    have hlength : i < xs.length := by omega
    exact .inr ⟨i, xs[i], List.getElem?_eq_getElem hlength, rfl, record?_addAll_fresh r xs i hlength⟩
  · exact .inl ⟨hle, record?_addAll_of_le hle xs⟩

/-- A record is either an old one or one of those entered, under the tag of its turn. -/
theorem record?_addAll_cases {r : Registry} {xs : List Record} {t : Tag} {x : Record}
    (h : (r.addAll xs).record? t = some x) :
    r.record? t = some x ∨ ∃ i, xs[i]? = some x ∧ t = ⟨r.lastTag + 1 + i⟩ := by
  induction xs generalizing r with
  | nil => exact .inl h
  | cons y ys ih =>
    rcases ih h with h | ⟨i, hi, ht⟩
    · by_cases hf : t = r.fresh
      · subst hf
        rw [record?_add_fresh] at h
        exact .inr ⟨0, h, rfl⟩
      · rw [record?_add_of_ne hf] at h
        exact .inl h
    · refine .inr ⟨i + 1, hi, ?_⟩
      rw [ht, lastTag_add]
      congr 1
      omega

theorem tag?_add_self (r : Registry) (x : Record) : (r.add x).tag? x.name = some r.fresh :=
  tag?_put_self r.reserve r.fresh x

theorem tag?_add_of_ne {n : String} {x : Record} (h : n ≠ x.name) (r : Registry) :
    (r.add x).tag? n = r.tag? n := tag?_put_of_ne h r.reserve r.fresh

theorem tag?_addAll_of_notMem {n : String} {xs : List Record} (h : ∀ x ∈ xs, x.name ≠ n)
    (r : Registry) : (r.addAll xs).tag? n = r.tag? n := by
  induction xs generalizing r with
  | nil => rfl
  | cons x xs ih =>
    rw [addAll_cons, ih (fun y hy => h y (List.mem_cons_of_mem _ hy)),
      tag?_add_of_ne (h x List.mem_cons_self).symm]

theorem tag?_of_tag?_addAll {n : String} {xs : List Record} {r : Registry}
    (h : (r.addAll xs).tag? n = none) : r.tag? n = none := by
  induction xs generalizing r with
  | nil => exact h
  | cons x xs ih =>
    have hx := ih h
    by_cases hn : n = x.name
    · subst hn
      rw [tag?_add_self] at hx
      cases hx
    · rwa [tag?_add_of_ne hn] at hx

theorem tag?_addAll_ne_none {x : Record} {xs : List Record} (hx : x ∈ xs) (r : Registry) :
    (r.addAll xs).tag? x.name ≠ none := by
  induction xs generalizing r with
  | nil => simp at hx
  | cons y ys ih =>
    rcases List.mem_cons.mp hx with rfl | hx
    · intro h
      cases (tag?_add_self r _).symm.trans (tag?_of_tag?_addAll h)
    · exact ih hx (r.add y)

theorem Bounded.addAll {r : Registry} (h : r.Bounded) (xs : List Record) : (r.addAll xs).Bounded := by
  intro t x hx
  rw [lastTag_addAll]
  rcases record?_addAll_cases hx with hx | ⟨i, hi, rfl⟩
  · have := h t x hx
    omega
  · have := (List.getElem?_eq_some_iff.mp hi).1
    show r.lastTag + 1 + i ≤ _
    omega

theorem Bounded.record?_addAll {r : Registry} (h : r.Bounded) (xs : List Record) {t : Tag}
    {x : Record} (hx : r.record? t = some x) : (r.addAll xs).record? t = some x := by
  rw [record?_addAll_of_le (h t x hx), hx]

/-- What is added by entering records is just those records. -/
theorem Bounded.added_addAll_iff {r : Registry} (h : r.Bounded) (xs : List Record) (t : Tag)
    (x : Record) :
    Added r (r.addAll xs) t x ↔ ∃ i, xs[i]? = some x ∧ t = ⟨r.lastTag + 1 + i⟩ := by
  constructor
  · rintro ⟨hx, hne⟩
    exact (record?_addAll_cases hx).resolve_left hne
  · rintro ⟨i, hi, rfl⟩
    obtain ⟨hlt, rfl⟩ := List.getElem?_eq_some_iff.mp hi
    refine ⟨record?_addAll_fresh r xs i hlt, fun hold => ?_⟩
    have := h _ _ hold
    simp only at this
    omega

theorem Bounded.added_of_issued {earlier later : Registry} (h : earlier.Bounded) {t : Tag} {x : Record}
    (ht : earlier.Issued later t) (hx : later.record? t = some x) : Added earlier later t x :=
  ⟨hx, fun hold => Nat.not_le_of_lt ht.1 (h t x hold)⟩

end Registry

end MaterialModules
