import MaterialModules.Proofs.Name.Registered
import MaterialModules.Proofs.Registry.Resources
import MaterialModules.Proofs.Text.Scopes

set_option autoImplicit false

namespace MaterialModules

namespace Text

theorem eq_of_cutLast {sep : Char} {a b s : List Char} (h : cutLast sep s = some (b, a)) : s = b ++ sep :: a := by
  induction s generalizing b with
  | nil => cases h
  | cons c r ih =>
    unfold cutLast at h
    split at h
    · rename_i hr
      cases h
      rw [List.cons_append, ← ih hr]
    · split at h
      · rename_i hc
        cases h
        rw [hc, List.nil_append]
      · cases h

end Text

open Text (Unbroken)

namespace ResourceKey

variable {k l : ResourceKey}

def Plain (k : ResourceKey) : Prop := Unbroken k.filePath.toList

theorem Plain.not_imitates (h : k.Plain) : ¬k.Imitates l := by
  rintro ⟨-, -, g, -, hpath⟩
  refine h ?_
  rw [hpath, String.toList_append, String.toList_append]
  exact ⟨l.filePath.toList, (String.ofList (gammaLayout.single g)).toList, rfl⟩

theorem Plain.recordName_injective (hk : k.Plain) (hl : l.Plain) (h : k.recordName = l.recordName) :
    k = l := by
  rcases recordName_eq_iff.mp h with h | h | h
  · exact h
  · exact absurd h hk.not_imitates
  · exact absurd h hl.not_imitates

theorem recordName_ne_registered (k : ResourceKey) (name : String) :
    Name.registered name ≠ k.recordName := by
  intro h
  have hmark : k.recordName = "mdlr::" ++ (k.kind.name ++ "::" ++ k.filePath ++
      String.ofList (suffix k.gamma)) := by
    refine String.toList_inj.mp ?_
    rw [toList_recordName]
    simp
  exact Name.registered_ne_resource name _ (hmark.symm.trans h.symm)

end ResourceKey

theorem ResourceQuery.plain_of_key {q : ResourceQuery} (hpath : Unbroken q.path.toList)
    (howner : ∀ file, q.owner = some file → Unbroken file.toList) {k : ResourceKey}
    (h : q.key? = some k) : k.Plain := by
  obtain ⟨file, hfile, rfl⟩ := Option.map_eq_some_iff.mp h
  show Unbroken file.toList
  unfold filePath? at hfile
  split at hfile
  · cases hfile
    exact hpath
  · obtain ⟨owner, howned, rfl⟩ := Option.map_eq_some_iff.mp hfile
    have hfolder : ∀ folder : List Char, Unbroken folder →
        Unbroken (String.ofList folder ++ "/" ++ q.path).toList := by
      intro folder h
      rw [String.toList_append, String.toList_append, String.toList_ofList, List.append_assoc]
      exact h.append_cons (by decide) hpath
    dsimp only
    split
    · rename_i before last hcut
      have hunbroken := howner owner howned
      rw [Text.eq_of_cutLast hcut] at hunbroken
      exact hfolder before hunbroken.left
    · exact hfolder [] (by decide)

namespace Registry

variable {r : Registry} {asked asked' : List ResourceKey} {k : ResourceKey} {q : ResourceQuery} {t : Tag}
  {xs : List Record}

theorem Keeps.mono (h : r.Keeps asked) (hsub : asked ⊆ asked') : r.Keeps asked' := by
  intro k t ht
  obtain ⟨hle, x, hasked, hx⟩ := h k t ht
  exact ⟨hle, x, hsub hasked, hx⟩

theorem keepsTags_addAll (h : ∀ x ∈ xs, ∀ k : ResourceKey, x.name ≠ k.recordName) :
    r.KeepsTags (r.addAll xs) := fun k _ ht =>
  (tag?_addAll_of_notMem (fun x hx => h x hx k) r).trans ht

theorem Keeps.addAll (h : r.Keeps asked) (hother : ∀ x ∈ xs, ∀ k : ResourceKey, x.name ≠ k.recordName) :
    (r.addAll xs).Keeps asked := by
  intro k t ht
  rw [tag?_addAll_of_notMem fun x hx => hother x hx k] at ht
  obtain ⟨hle, x, hasked, hname, hx⟩ := h k t ht
  refine ⟨?_, x, hasked, hname, (record?_addAll_of_le hle xs).trans hx⟩
  rw [lastTag_addAll]
  exact Nat.le_add_right_of_le hle

/-- Resources are filed under names that are free of other `::` than their own. -/
def Filed (r : Registry) : Prop := ∃ asked : List ResourceKey, (∀ k ∈ asked, k.Plain) ∧ r.Keeps asked

theorem filed_of_free (h : ∀ n, "mdlr::".toList <+: n.toList → r.tag? n = none) : r.Filed :=
  ⟨[], nofun, keeps_of_free h⟩

theorem Filed.addAll (h : r.Filed) (hother : ∀ x ∈ xs, ∀ k : ResourceKey, x.name ≠ k.recordName) :
    (r.addAll xs).Filed := by
  obtain ⟨asked, hasked, hkeeps⟩ := h
  exact ⟨asked, hasked, hkeeps.addAll hother⟩

theorem Filed.resource? (h : r.Filed) (hk : k.Plain) (ht : r.tag? k.recordName = some t) :
    ∃ x : Resource, r.resource? t = some x ∧ x.key = k := by
  obtain ⟨asked, hasked, hkeeps⟩ := h
  obtain ⟨x, hx, hname, hrecord⟩ := hkeeps.resource? ht
  exact ⟨x, hrecord, (hasked _ hx).recordName_injective hk hname⟩

/-- A query for a plain key is answered with its tag. -/
theorem Filed.registry (h : r.Filed) (hq : ∀ k, q.key? = some k → k.Plain) :
    (Resolver.registry r q).2.Filed ∧ r.KeepsTags (Resolver.registry r q).2 ∧
      (Resolver.registry r q).2.Answers q (Resolver.registry r q).1 := by
  obtain ⟨asked, hasked, hkeeps⟩ := h
  have hmore : r.Keeps (q.key?.toList ++ asked) := hkeeps.mono (List.subset_append_right _ _)
  obtain ⟨hkept, htags, hanswers⟩ := hmore.registry fun k hk =>
    List.mem_append_left _ (Option.mem_toList.mpr hk)
  refine ⟨⟨_, fun k hk => ?_, hkept⟩, htags, hanswers⟩
  rcases List.mem_append.mp hk with hk | hk
  · exact hq k (Option.mem_toList.mp hk)
  · exact hasked k hk

end Registry

end MaterialModules
