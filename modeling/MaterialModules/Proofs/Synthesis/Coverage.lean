import MaterialModules.Proofs.Source.Imports
import MaterialModules.Proofs.Synthesis.Mentioning
import MaterialModules.Registration.Creation

set_option autoImplicit false

namespace MaterialModules

namespace Mentioning

variable {α β : Type}

theorem names_of_mapM {f : α → Mentioning β} {xs : List α} {ys : List β}
    (h : (xs.mapM f).result = .ok ys) {y : β} (hy : y ∈ ys) :
    ∃ x, (f x).result = .ok y ∧ ∀ q ∈ (f x).names, q ∈ (xs.mapM f).names := by
  induction xs generalizing ys with
  | nil =>
    cases h
    cases hy
  | cons x xs ih =>
    rw [List.mapM_cons] at h ⊢
    obtain ⟨z, hz, h, hnames⟩ := names_of_bind h
    obtain ⟨zs, hzs, h, hrest⟩ := names_of_bind h
    rw [hnames, hrest]
    cases h
    rcases List.mem_cons.mp hy with rfl | hy
    · exact ⟨x, hz, fun q hq => List.mem_append_left _ hq⟩
    · obtain ⟨x', hx', hmem⟩ := ih hzs hy
      exact ⟨x', hx', fun q hq => List.mem_append_right _ (List.mem_append_left _ (hmem q hq))⟩

/-- The absolute names in a declaration are among those that were mentioned. -/
def Covers (x : Mentioning Source.FunctionDecl) : Prop :=
  ∀ f, x.result = .ok f → ∀ q, f.Mentions q → q.absolute = true → q ∈ x.names

def CoversAll (x : Mentioning (List Source.FunctionDecl)) : Prop :=
  ∀ fs, x.result = .ok fs → ∀ f ∈ fs, ∀ q, f.Mentions q → q.absolute = true → q ∈ x.names

theorem coversAll_mapM {f : α → Mentioning Source.FunctionDecl} (h : ∀ x, (f x).Covers)
    (xs : List α) : CoversAll (xs.mapM f) := by
  intro ys hys y hy q hq habsolute
  obtain ⟨x, hx, hnames⟩ := names_of_mapM hys hy
  exact hnames q (h x y hx q hq habsolute)

end Mentioning

namespace Registry

open Mentioning

variable {r : Registry}

theorem annotationBlock_names {b : Option AnnotationBlock} {block : Source.AnnotationBlock}
    (h : (r.annotationBlock b).result = .ok (some block)) {a : Source.Annotation} {q : QualifiedName}
    (place : a ∈ block) (hq : a.Mentions q) : q ∈ (r.annotationBlock b).names := by
  unfold annotationBlock at h ⊢
  split at h
  · cases h
  · cases h
  · obtain ⟨converted, -, h, hnames⟩ := names_of_bind h
    rw [hnames]
    obtain ⟨_, -, h, hnames⟩ := names_of_bind h
    rw [hnames]
    cases h
    have hmentioned := Source.AnnotationBlock.mem_names place hq
    exact List.mem_append_right _ (List.mem_append_left _ hmentioned)

theorem covers_variant (v : VariantRequest) : (r.variant v).Covers := by
  intro f h q hq _
  unfold variant at h ⊢
  obtain ⟨base, -, h, hbase⟩ := names_of_bind h
  obtain ⟨_, -, h, hoverrides⟩ := names_of_bind h
  obtain ⟨⟨args, userTypes⟩, -, h, hargs⟩ := names_of_bind h
  obtain ⟨annotations, hblock, h, hannotations⟩ := names_of_bind h
  obtain ⟨_, -, h, hbody⟩ := names_of_bind h
  obtain ⟨_, -, h, hreturnType⟩ := names_of_bind h
  obtain ⟨_, -, h, huserTypes⟩ := names_of_bind h
  rw [hbase, hoverrides, hargs, hannotations, hbody, hreturnType, huserTypes]
  cases h
  simp only [List.mem_append]
  cases hq with
  | returnType => exact .inr (.inr (.inr (.inr (.inr (.inl List.mem_cons_self)))))
  | parameter place => cases place
  | body hq => exact .inr (.inr (.inr (.inr (.inl hq.mem_names))))
  | annotation given place hq =>
    subst given
    exact .inr (.inr (.inr (.inl (annotationBlock_names hblock place hq))))

theorem promotionDecl_names {p : Promotion} {d : Source.ParameterDecl} {users : List QualifiedName}
    (h : (r.promotionDecl p).result = .ok (d, users)) {q : QualifiedName} (hq : d.Mentions q) :
    q ∈ (r.promotionDecl p).names := by
  unfold promotionDecl at h ⊢
  obtain ⟨⟨plain, typeUsers⟩, -, h, hplain⟩ := names_of_bind h
  obtain ⟨⟨init, valueUsers⟩, -, h, hinit⟩ := names_of_bind h
  obtain ⟨annotations, hblock, h, hannotations⟩ := names_of_bind h
  obtain ⟨_, -, h, htype⟩ := names_of_bind h
  obtain ⟨_, -, h, hdefault⟩ := names_of_bind h
  rw [hplain, hinit, hannotations, htype, hdefault]
  cases h
  simp only [List.mem_append]
  cases hq with
  | type => exact .inr (.inr (.inr (.inl List.mem_cons_self)))
  | default given hq =>
    cases given
    exact .inr (.inr (.inr (.inr (.inl hq.mem_names))))
  | annotation given place hq =>
    subst given
    exact .inr (.inr (.inl (annotationBlock_names hblock place hq)))

theorem covers_material (c : Callee) (m : MaterialRequest) : (r.material c m).Covers := by
  intro f h q hq habsolute
  unfold material at h ⊢
  dsimp only at h ⊢
  split at h
  · obtain ⟨_, hfail, -⟩ := Mentioning.bind_ok h
    cases hfail
  rename_i harguments
  rw [if_neg harguments]
  obtain ⟨ps, -, h, hps⟩ := names_of_bind h
  obtain ⟨annotations, hblock, h, hannotations⟩ := names_of_bind h
  obtain ⟨⟨body, bodyUsers⟩, -, h, hwrapped⟩ := names_of_bind h
  obtain ⟨_, -, h, hbody⟩ := names_of_bind h
  obtain ⟨decls, hdecls, h, hparameters⟩ := names_of_bind h
  obtain ⟨_, -, h, hbodyUsers⟩ := names_of_bind h
  obtain ⟨_, -, h, hdeclUsers⟩ := names_of_bind h
  rw [hps, hannotations, hwrapped, hbody, hparameters, hbodyUsers, hdeclUsers]
  cases h
  simp only [List.mem_append]
  cases hq with
  | returnType => cases habsolute
  | parameter place hq =>
    obtain ⟨⟨d, users⟩, hd, rfl⟩ := List.mem_map.mp place
    obtain ⟨p, hp, hnames⟩ := names_of_mapM hdecls hd
    exact .inr (.inr (.inr (.inr (.inl (hnames q (promotionDecl_names hp hq))))))
  | body hq => exact .inr (.inr (.inr (.inl hq.mem_names)))
  | annotation given place hq =>
    subst given
    exact .inr (.inl (annotationBlock_names hblock place hq))

theorem covers_materialOfCall (m : MaterialRequest) : (r.materialOfCall m).Covers := by
  intro f h q hq habsolute
  unfold materialOfCall at h ⊢
  obtain ⟨c, -, h, hnames⟩ := names_of_bind h
  rw [hnames]
  exact List.mem_append_right _ (covers_material c m f h q hq habsolute)

end Registry

end MaterialModules
