import MaterialModules.Language.Ty

/-!
How much of a type counts where it is compared with an expected one. The qualifiers of the elements of an
array do not; those of what stands inside the elements do, because elements are compared as they are.
-/

set_option autoImplicit false

namespace MaterialModules

namespace Kind

def erased : Kind → Kind
  | array elem _ size => array elem.erased {} size
  | kind => kind

def elementQualifiers : Kind → List Qualifiers
  | array elem qualifiers _ => qualifiers :: elem.elementQualifiers
  | _ => []

/-- The qualifiers inside the elements of an array, which are not those of the elements themselves. -/
def innerQualifiers (k : Kind) : List Qualifiers := k.elementQualifiers.tail

variable {a b e : Kind}

theorem eq_iff_erased : a = e ↔ a.erased = e.erased ∧ a.elementQualifiers = e.elementQualifiers := by
  induction a generalizing e with
  | array elem qualifiers size ih =>
    cases e with
    | array elem' qualifiers' size' =>
      simp only [array.injEq, ih, erased, elementQualifiers, List.cons.injEq, true_and]
      constructor
      · rintro ⟨⟨helem, hqualifiers⟩, rfl, hsize⟩
        exact ⟨⟨helem, hsize⟩, rfl, hqualifiers⟩
      · rintro ⟨⟨helem, hsize⟩, rfl, hqualifiers⟩
        exact ⟨⟨helem, hqualifiers⟩, rfl, hsize⟩
    | _ => simp [erased]
  | _ => cases e <;> simp [erased, elementQualifiers]

theorem fits_self (a : Kind) : a.fits a = true := by
  cases a <;> simp [fits]

/-- Of qualifiers the inner ones count, and these have to be the same. -/
theorem fits_iff_erased :
    a.fits e = true ↔ a.erased.fits e.erased = true ∧ a.innerQualifiers = e.innerQualifiers := by
  cases a with
  | array elem qualifiers size =>
    cases e with
    | array elem' qualifiers' size' =>
      have helem := eq_iff_erased (a := elem) (e := elem')
      simp only [fits, erased, Bool.and_eq_true, decide_eq_true_eq, innerQualifiers, elementQualifiers,
        List.tail_cons]
      rw [helem, and_right_comm]
    | _ => simp [fits, erased]
  | _ => cases e <;> simp [fits, erased, innerQualifiers, elementQualifiers]

/-- Kinds that differ in the qualifiers of the elements of an array at most. -/
structure Alike (a b : Kind) : Prop where
  erased : a.erased = b.erased
  inner : a.innerQualifiers = b.innerQualifiers

theorem Alike.refl (a : Kind) : a.Alike a := ⟨rfl, rfl⟩

theorem Alike.fits_eq {f : Kind} (h : a.Alike b) (he : e.Alike f) : a.fits e = b.fits f := by
  rw [Bool.eq_iff_iff, fits_iff_erased (a := a), fits_iff_erased (a := b), h.erased, h.inner, he.erased,
    he.inner]

theorem Alike.eq_or_array (h : a.Alike b) :
    a = b ∨ ∃ elem q q' size, a = array elem q size ∧ b = array elem q' size := by
  obtain ⟨herased, hinner⟩ := h
  cases a with
  | array elem qualifiers size =>
    cases b with
    | array elem' qualifiers' size' =>
      obtain ⟨helem, -, rfl⟩ := array.inj herased
      obtain rfl : elem = elem' := eq_iff_erased.mpr ⟨helem, hinner⟩
      exact .inr ⟨elem, qualifiers, qualifiers', size, rfl, rfl⟩
    | _ => cases herased
  | _ =>
    cases b <;> cases herased
    all_goals exact .inl rfl

theorem alike_of_fits (hab : a.fits b = true) (hba : b.fits a = true) : a.Alike b := by
  cases a with
  | array elem qualifiers size =>
    cases b with
    | array elem' qualifiers' size' =>
      simp only [fits, Bool.and_eq_true, decide_eq_true_eq, Bool.or_eq_true] at hab hba
      obtain ⟨rfl, hsize⟩ := hab
      obtain rfl : size = size' := by
        rcases hsize with rfl | hsize
        · exact hba.2.elim id Eq.symm
        · exact hsize
      exact ⟨rfl, rfl⟩
    | _ => simp [fits] at hab
  | _ =>
    have heq := hab
    unfold fits at heq
    obtain rfl := of_decide_eq_true heq
    exact ⟨rfl, rfl⟩

end Kind

namespace Ty

def erased (t : Ty) : Ty := ⟨t.kind.erased, {}⟩

structure Alike (s t : Ty) : Prop where
  qualifiers : s.qualifiers = t.qualifiers
  kind : s.kind.Alike t.kind

variable {s t e f : Ty}

theorem fits_eq_erased (t e : Ty) : t.fits e =
    (!(e.isUniform && t.isVarying) && (t.erased.fits e.erased &&
      decide (t.kind.innerQualifiers = e.kind.innerQualifiers))) := by
  have hkind : t.kind.fits e.kind = (t.kind.erased.fits e.kind.erased &&
      decide (t.kind.innerQualifiers = e.kind.innerQualifiers)) := by
    rw [Bool.eq_iff_iff, Kind.fits_iff_erased]
    simp
  unfold fits
  rw [hkind]
  rfl

theorem Alike.refl (t : Ty) : t.Alike t := ⟨rfl, .refl t.kind⟩

theorem Alike.isUniform_eq (h : s.Alike t) : s.isUniform = t.isUniform := congrArg (·.uniform) h.qualifiers

theorem Alike.isVarying_eq (h : s.Alike t) : s.isVarying = t.isVarying := congrArg (·.varying) h.qualifiers

/-- Neither of an argument nor of a parameter do the qualifiers of elements make a difference. -/
theorem Alike.fits_eq (h : s.Alike t) (he : e.Alike f) : s.fits e = t.fits f := by
  unfold fits
  rw [h.isVarying_eq, he.isUniform_eq, h.kind.fits_eq he.kind]

/-- Whatever else two types differ in, there is an expected type that tells them apart. -/
theorem forall_fits_eq_iff :
    (∀ e, s.fits e = t.fits e) ↔ s.isVarying = t.isVarying ∧ s.kind.Alike t.kind := by
  constructor
  · intro h
    have hplain : ∀ k, s.kind.fits k = t.kind.fits k := fun k => by simpa [fits, isUniform] using h ⟨k, {}⟩
    have hs : s.kind.fits t.kind = true := (hplain t.kind).trans t.kind.fits_self
    have ht : t.kind.fits s.kind = true := (hplain s.kind).symm.trans s.kind.fits_self
    have huniform := h ⟨s.kind, ⟨true, false⟩⟩
    exact ⟨by simpa [fits, isUniform, s.kind.fits_self, ht] using huniform, Kind.alike_of_fits hs ht⟩
  · rintro ⟨hvarying, hkind⟩ e
    unfold fits
    rw [hvarying, hkind.fits_eq (.refl e.kind)]

theorem forall_fits_expected_eq_iff :
    (∀ t : Ty, t.fits e = t.fits f) ↔ e.isUniform = f.isUniform ∧ e.kind.Alike f.kind := by
  constructor
  · intro h
    have hplain : ∀ k : Kind, k.fits e.kind = k.fits f.kind := fun k => by simpa [fits, isVarying] using h ⟨k, {}⟩
    have he : e.kind.fits f.kind = true := (hplain e.kind).symm.trans e.kind.fits_self
    have hf : f.kind.fits e.kind = true := (hplain f.kind).trans f.kind.fits_self
    have hvarying := h ⟨e.kind, ⟨false, true⟩⟩
    exact ⟨by simpa [fits, isVarying, e.kind.fits_self, he] using hvarying, Kind.alike_of_fits he hf⟩
  · rintro ⟨huniform, hkind⟩ t
    unfold fits
    rw [huniform, (Kind.Alike.refl t.kind).fits_eq hkind]

end Ty

end MaterialModules
