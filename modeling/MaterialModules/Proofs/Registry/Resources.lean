import MaterialModules.Proofs.Decimal.Written
import MaterialModules.Proofs.Registry.Growth
import MaterialModules.Registry.Resources

/-!
The records of resources, one for each name, over any number of queries. A name stands for kind, file and
gamma, but a file without a gamma may be called like another file with one; these two share a record.
-/

set_option autoImplicit false

namespace MaterialModules

theorem append_colon_inj {as bs cs ds : List Char} (has : ':' ∉ as) (hbs : ':' ∉ bs)
    (h : as ++ ':' :: cs = bs ++ ':' :: ds) : as = bs ∧ cs = ds := by
  induction as generalizing bs with
  | nil =>
    cases bs with
    | nil => exact ⟨rfl, (List.cons.inj h).2⟩
    | cons b bs => exact absurd ((List.cons.inj h).1 ▸ List.mem_cons_self) hbs
  | cons a as ih =>
    cases bs with
    | nil => exact absurd ((List.cons.inj h).1 ▸ List.mem_cons_self) has
    | cons b bs =>
      rw [List.mem_cons, not_or] at has hbs
      rw [List.cons_append, List.cons_append, List.cons.injEq] at h
      obtain ⟨rfl, rfl⟩ := ih has.2 hbs.2 h.2
      exact ⟨by rw [h.1], rfl⟩

theorem append_colon_inj_right {as bs cs ds : List Char} (hcs : ':' ∉ cs) (hds : ':' ∉ ds)
    (h : as ++ ':' :: cs = bs ++ ':' :: ds) : as = bs ∧ cs = ds := by
  have hreverse := congrArg List.reverse h
  simp only [List.reverse_append, List.reverse_cons, List.append_assoc, List.cons_append,
    List.nil_append] at hreverse
  obtain ⟨hcd, hab⟩ := append_colon_inj (mt List.mem_reverse.mp hcs) (mt List.mem_reverse.mp hds) hreverse
  exact ⟨List.reverse_injective hab, List.reverse_injective hcd⟩

namespace ResourceKind

theorem colon_notMem_name (k : ResourceKind) : ':' ∉ k.name.toList := by
  cases k with
  | texture shape => cases shape <;> decide
  | lightProfile | bsdfMeasurement => decide

theorem name_injective : Function.Injective name := by
  intro k l h
  cases k with
  | texture shape =>
    cases l with
    | texture shape' => cases shape <;> cases shape' <;> first | rfl | exact absurd h (by decide)
    | lightProfile | bsdfMeasurement => cases shape <;> exact absurd h (by decide)
  | lightProfile | bsdfMeasurement =>
    cases l with
    | texture shape' => cases shape' <;> exact absurd h (by decide)
    | lightProfile | bsdfMeasurement => first | rfl | exact absurd h (by decide)

end ResourceKind

/-- What a resource is known by. Two gammas are the same if their bits are. -/
@[ext]
structure ResourceKey where
  kind : ResourceKind
  filePath : String
  gamma : Option Float32 := none
  deriving DecidableEq, Repr

def Resource.key (x : Resource) : ResourceKey := ⟨x.kind, x.filePath, x.gamma⟩

def ResourceKey.resource (k : ResourceKey) (shared : Bool) : Resource :=
  ⟨k.kind, k.filePath, k.gamma, shared⟩

def ResourceQuery.key? (q : ResourceQuery) : Option ResourceKey :=
  q.filePath?.map fun filePath => ⟨q.kind, filePath, q.gamma⟩

namespace ResourceKey

variable {k l : ResourceKey}

def recordName (k : ResourceKey) : String :=
  ({ kind := k.kind, path := k.filePath, gamma := k.gamma } : ResourceQuery).recordName k.filePath

theorem recordName_of_query (q : ResourceQuery) (filePath : String) :
    q.recordName filePath = recordName ⟨q.kind, filePath, q.gamma⟩ := rfl

def suffix : Option Float32 → List Char
  | some g => ':' :: ':' :: gammaLayout.single g
  | none => []

theorem toList_recordName (k : ResourceKey) :
    k.recordName.toList =
      "mdlr::".toList ++ (k.kind.name.toList ++ ':' :: ':' :: (k.filePath.toList ++ suffix k.gamma)) := by
  unfold recordName ResourceQuery.recordName suffix
  cases k.gamma <;> simp

/-- A key without a gamma is called like one with a gamma if its file ends like the name of the other. -/
def Imitates (k l : ResourceKey) : Prop :=
  k.kind = l.kind ∧ k.gamma = none ∧
    ∃ g, l.gamma = some g ∧ k.filePath = l.filePath ++ "::" ++ String.ofList (gammaLayout.single g)

/-- Keys that share a record. -/
def Alike (k l : ResourceKey) : Prop := k = l ∨ k.Imitates l ∨ l.Imitates k

theorem gammaLayout_positional : gammaLayout.Positional := rfl

theorem recordName_eq_iff_chars : k.recordName = l.recordName ↔
    k.kind = l.kind ∧ k.filePath.toList ++ suffix k.gamma = l.filePath.toList ++ suffix l.gamma := by
  rw [← String.toList_inj, toList_recordName, toList_recordName, List.append_cancel_left_eq]
  constructor
  · intro h
    obtain ⟨hkind, hrest⟩ := append_colon_inj k.kind.colon_notMem_name l.kind.colon_notMem_name h
    exact ⟨ResourceKind.name_injective (String.toList_inj.mp hkind), (List.cons.inj hrest).2⟩
  · rintro ⟨hkind, hrest⟩
    rw [hkind, hrest]

theorem Imitates.recordName_eq (h : k.Imitates l) : k.recordName = l.recordName := by
  obtain ⟨hkind, hnone, g, hsome, hpath⟩ := h
  refine recordName_eq_iff_chars.mpr ⟨hkind, ?_⟩
  rw [hnone, hsome, hpath]
  simp [suffix]

theorem Imitates.colon_mem (h : k.Imitates l) : ':' ∈ k.filePath.toList := by
  obtain ⟨-, -, g, -, hpath⟩ := h
  rw [hpath]
  simp

/-- A file and a gamma can be told apart, as there is no colon in the text of a gamma. -/
theorem suffix_some_inj {as bs : List Char} {g g' : Float32}
    (h : as ++ suffix (some g) = bs ++ suffix (some g')) : as = bs ∧ g = g' := by
  have hassoc : ∀ (cs : List Char) x,
      cs ++ suffix (some x) = (cs ++ [':']) ++ ':' :: gammaLayout.single x := fun cs x => by simp [suffix]
  rw [hassoc, hassoc] at h
  obtain ⟨hfiles, htexts⟩ := append_colon_inj_right (gammaLayout_positional.colon_notMem g)
    (gammaLayout_positional.colon_notMem g') h
  exact ⟨List.append_cancel_right hfiles, gammaLayout_positional.single_injective htexts⟩

theorem imitates_of_chars {g : Float32} (hkind : k.kind = l.kind) (hnone : k.gamma = none)
    (hsome : l.gamma = some g)
    (h : k.filePath.toList ++ suffix k.gamma = l.filePath.toList ++ suffix l.gamma) : k.Imitates l := by
  refine ⟨hkind, hnone, g, hsome, String.toList_inj.mp ?_⟩
  rw [hnone, hsome] at h
  simpa [suffix] using h

theorem recordName_eq_iff : k.recordName = l.recordName ↔ k.Alike l := by
  constructor
  · intro h
    obtain ⟨hkind, hchars⟩ := recordName_eq_iff_chars.mp h
    cases hk : k.gamma with
    | none =>
      cases hl : l.gamma with
      | none =>
        rw [hk, hl, suffix, List.append_nil, List.append_nil, String.toList_inj] at hchars
        exact .inl (ResourceKey.ext hkind hchars (hk.trans hl.symm))
      | some g => exact .inr (.inl (imitates_of_chars hkind hk hl hchars))
    | some g =>
      cases hl : l.gamma with
      | none => exact .inr (.inr (imitates_of_chars hkind.symm hl hk hchars.symm))
      | some g' =>
        rw [hk, hl] at hchars
        obtain ⟨hpath, hgamma⟩ := suffix_some_inj hchars
        exact .inl (ResourceKey.ext hkind (String.toList_inj.mp hpath) (by rw [hk, hl, hgamma]))
  · rintro (rfl | h | h)
    · rfl
    · exact h.recordName_eq
    · exact h.recordName_eq.symm

end ResourceKey

namespace Resolver

def answers (resolve : Resolver) : Registry → List ResourceQuery → List (ResourceQuery × Option Tag)
  | _, [] => []
  | r, q :: qs => (q, (resolve r q).1) :: answers resolve (resolve r q).2 qs

def Gives (resolve : Resolver) (r : Registry) (qs : List ResourceQuery) (k : ResourceKey) (t : Tag) :
    Prop :=
  ∃ q, (q, some t) ∈ resolve.answers r qs ∧ q.key? = some k

def after (resolve : Resolver) (r : Registry) (qs : List ResourceQuery) : Registry :=
  qs.foldl (fun r q => (resolve r q).2) r

theorem mem_of_mem_answers {resolve : Resolver} {r : Registry} {qs : List ResourceQuery}
    {q : ResourceQuery} {a : Option Tag} (h : (q, a) ∈ resolve.answers r qs) : q ∈ qs := by
  induction qs generalizing r with
  | nil => cases h
  | cons q' qs ih =>
    rcases List.mem_cons.mp h with heq | h
    · cases heq
      exact List.mem_cons_self
    · exact List.mem_cons_of_mem _ (ih h)

end Resolver

namespace Registry

variable {r : Registry} {asked : List ResourceKey} {k : ResourceKey} {q : ResourceQuery} {t : Tag}

/-- Every name of a key leads to the record of a resource that was entered under this name, for a key that
was asked for. -/
def Keeps (r : Registry) (asked : List ResourceKey) : Prop :=
  ∀ (k : ResourceKey) (t : Tag), r.tag? k.recordName = some t → t.id ≤ r.lastTag ∧
    ∃ x : Resource, x.key ∈ asked ∧ x.key.recordName = k.recordName ∧
      r.record? t = some ⟨k.recordName, .resource x, .browsable⟩

theorem keeps_of_free (h : ∀ n, "mdlr::".toList <+: n.toList → r.tag? n = none) : r.Keeps asked := by
  intro k t ht
  have hfree := h k.recordName (by
    rw [ResourceKey.toList_recordName]
    exact List.prefix_append _ _)
  rw [hfree] at ht
  cases ht

theorem Keeps.add (h : r.Keeps asked) (hk : k ∈ asked) (shared : Bool) :
    (r.add ⟨k.recordName, .resource (k.resource shared), .browsable⟩).Keeps asked := by
  intro l t ht
  by_cases hname : l.recordName = k.recordName
  · rw [hname] at ht ⊢
    obtain rfl : r.fresh = t := Option.some.inj ((tag?_add_self r _).symm.trans ht)
    exact ⟨le_refl _, k.resource shared, hk, rfl, record?_add_fresh r _⟩
  · have hearlier : r.tag? l.recordName = some t := (tag?_add_of_ne (by exact hname) r).symm.trans ht
    obtain ⟨hle, x, hasked, hxname, hrecord⟩ := h l t hearlier
    have hne : t ≠ r.fresh := by
      rintro rfl
      exact Nat.not_succ_le_self _ hle
    exact ⟨Nat.le_succ_of_le hle, x, hasked, hxname, (record?_add_of_ne hne _).trans hrecord⟩

theorem Keeps.resource? (h : r.Keeps asked) (ht : r.tag? k.recordName = some t) :
    ∃ x : Resource, x.key ∈ asked ∧ x.key.recordName = k.recordName ∧ r.resource? t = some x := by
  obtain ⟨-, x, hasked, hname, hrecord⟩ := h k t ht
  refine ⟨x, hasked, hname, ?_⟩
  rw [Registry.resource?, element?, hrecord]
  rfl

/-- Of the tags that names of keys lead to, each belongs to one name. -/
theorem Keeps.tag_eq_iff {l : ResourceKey} {u : Tag} (h : r.Keeps asked)
    (ht : r.tag? k.recordName = some t) (hu : r.tag? l.recordName = some u) :
    t = u ↔ k.recordName = l.recordName := by
  constructor
  · rintro rfl
    obtain ⟨-, x, -, -, hx⟩ := h k t ht
    obtain ⟨-, y, -, -, hy⟩ := h l t hu
    exact congrArg Record.name (Option.some.inj (hx.symm.trans hy))
  · intro hname
    rw [hname] at ht
    exact Option.some.inj (ht.symm.trans hu)

inductive Answers (r : Registry) (q : ResourceQuery) : Option Tag → Prop
  | noFile (file : q.key? = none) : Answers r q none
  | found {k : ResourceKey} {t : Tag} (key : q.key? = some k) (bound : r.tag? k.recordName = some t) :
    Answers r q (some t)

def KeepsTags (r later : Registry) : Prop :=
  ∀ (k : ResourceKey) (t : Tag), r.tag? k.recordName = some t → later.tag? k.recordName = some t

theorem Answers.later {later : Registry} {a : Option Tag} (h : r.Answers q a)
    (hkept : r.KeepsTags later) : later.Answers q a := by
  cases h with
  | noFile file => exact .noFile file
  | found key bound => exact .found key (hkept _ _ bound)

theorem registry_of_key (hk : q.key? = some k) (r : Registry) :
    Resolver.registry r q =
      match r.tag? k.recordName with
      | some t => (if (r.resource? t).isSome then some t else none, r)
      | none =>
        (some r.fresh, r.add ⟨k.recordName, .resource (k.resource q.shared), .browsable⟩) := by
  obtain ⟨filePath, hfile, rfl⟩ := Option.map_eq_some_iff.mp hk
  simp only [Resolver.registry, hfile, ResourceKey.recordName_of_query]
  rfl

theorem registry_of_noFile (hk : q.key? = none) (r : Registry) : Resolver.registry r q = (none, r) := by
  simp only [Resolver.registry, Option.map_eq_none_iff.mp hk]

theorem Keeps.registry (h : r.Keeps asked) (hasked : ∀ k, q.key? = some k → k ∈ asked) :
    (Resolver.registry r q).2.Keeps asked ∧ r.KeepsTags (Resolver.registry r q).2 ∧
      (Resolver.registry r q).2.Answers q (Resolver.registry r q).1 := by
  cases hkey : q.key? with
  | none =>
    rw [registry_of_noFile hkey]
    exact ⟨h, fun _ _ ht => ht, .noFile hkey⟩
  | some k =>
    rw [registry_of_key hkey]
    cases ht : r.tag? k.recordName with
    | some t =>
      obtain ⟨x, -, -, hx⟩ := h.resource? ht
      simp only [hx, Option.isSome_some, if_pos]
      exact ⟨h, fun _ _ ht => ht, .found hkey ht⟩
    | none =>
      refine ⟨h.add (hasked k hkey) q.shared, fun l t hl => ?_, .found hkey (tag?_add_self r _)⟩
      have hne : l.recordName ≠ k.recordName := by
        intro heq
        rw [heq, ht] at hl
        cases hl
      exact (tag?_add_of_ne (by exact hne) r).trans hl

/-- What a sequence of queries does. -/
theorem Keeps.after (h : r.Keeps asked) (qs : List ResourceQuery)
    (hasked : ∀ q ∈ qs, ∀ k, q.key? = some k → k ∈ asked) :
    (Resolver.registry.after r qs).Keeps asked ∧ r.KeepsTags (Resolver.registry.after r qs) ∧
      ∀ q a, (q, a) ∈ Resolver.registry.answers r qs → (Resolver.registry.after r qs).Answers q a := by
  induction qs generalizing r with
  | nil => exact ⟨h, fun _ _ ht => ht, fun q a hmem => nomatch hmem⟩
  | cons q qs ih =>
    rw [List.forall_mem_cons] at hasked
    obtain ⟨hstep, hkept, hanswers⟩ := h.registry hasked.1
    obtain ⟨hrun, hlast, hrest⟩ := ih hstep hasked.2
    refine ⟨hrun, fun k t ht => hlast k t (hkept k t ht), fun q' a hmem => ?_⟩
    rcases List.mem_cons.mp hmem with heq | hmem
    · cases heq
      exact hanswers.later hlast
    · exact hrest q' a hmem

theorem Answers.eq_none_iff {a : Option Tag} (h : r.Answers q a) : a = none ↔ q.filePath? = none := by
  rw [← Option.map_eq_none_iff (f := fun filePath => (⟨q.kind, filePath, q.gamma⟩ : ResourceKey))]
  cases h with
  | noFile file => exact iff_of_true rfl file
  | found key bound => exact iff_of_false nofun fun hnone => nomatch hnone.symm.trans key

theorem Answers.bound (h : r.Answers q (some t)) (hk : q.key? = some k) :
    r.tag? k.recordName = some t := by
  cases h with
  | found key bound =>
    cases hk.symm.trans key
    exact bound

/-- In a registry without names of resources, every query for a file is answered, with the record of a
query whose key is alike; this lasts, and two answers agree exactly if their keys are alike. So there is
one record for each kind, file and gamma where no key that is asked for imitates another one. -/
theorem answers_alike (hfree : ∀ n, "mdlr::".toList <+: n.toList → r.tag? n = none)
    (qs : List ResourceQuery) :
    (∀ q a, (q, a) ∈ Resolver.registry.answers r qs → (a = none ↔ q.filePath? = none)) ∧
    (∀ k t, Resolver.registry.Gives r qs k t →
      ∃ x, (Resolver.registry.after r qs).resource? t = some x ∧ x.key.Alike k ∧
        x.key ∈ qs.filterMap ResourceQuery.key?) ∧
    (∀ k t l u, Resolver.registry.Gives r qs k t → Resolver.registry.Gives r qs l u →
      (t = u ↔ k.Alike l)) ∧
    ((∀ k ∈ qs.filterMap ResourceQuery.key?, ∀ l ∈ qs.filterMap ResourceQuery.key?, ¬ k.Imitates l) →
      (∀ k t, Resolver.registry.Gives r qs k t →
        ∃ x, (Resolver.registry.after r qs).resource? t = some x ∧ x.key = k) ∧
      ∀ k t l u, Resolver.registry.Gives r qs k t → Resolver.registry.Gives r qs l u →
        (t = u ↔ k = l)) := by
  have hkeeps : r.Keeps (qs.filterMap ResourceQuery.key?) := keeps_of_free hfree
  obtain ⟨hrun, -, hanswers⟩ := hkeeps.after qs fun q hq k hk =>
    List.mem_filterMap.mpr ⟨q, hq, hk⟩
  have hbound : ∀ {k t}, Resolver.registry.Gives r qs k t →
      (Resolver.registry.after r qs).tag? k.recordName = some t := by
    rintro k t ⟨q, hmem, hk⟩
    exact (hanswers q _ hmem).bound hk
  have hkey : ∀ {k t}, Resolver.registry.Gives r qs k t → k ∈ qs.filterMap ResourceQuery.key? := by
    rintro k t ⟨q, hmem, hk⟩
    exact List.mem_filterMap.mpr ⟨q, Resolver.mem_of_mem_answers hmem, hk⟩
  have hrecord : ∀ k t, Resolver.registry.Gives r qs k t →
      ∃ x, (Resolver.registry.after r qs).resource? t = some x ∧ x.key.Alike k ∧
        x.key ∈ qs.filterMap ResourceQuery.key? := by
    intro k t h
    obtain ⟨x, hasked, hname, hx⟩ := hrun.resource? (hbound h)
    exact ⟨x, hx, ResourceKey.recordName_eq_iff.mp hname, hasked⟩
  have hsame : ∀ k t l u, Resolver.registry.Gives r qs k t → Resolver.registry.Gives r qs l u →
      (t = u ↔ k.Alike l) := fun k t l u hk hl =>
    (hrun.tag_eq_iff (hbound hk) (hbound hl)).trans ResourceKey.recordName_eq_iff
  refine ⟨fun q a hmem => (hanswers q a hmem).eq_none_iff, hrecord, hsame, fun hdistinct => ?_⟩
  have heq : ∀ {k l}, k ∈ qs.filterMap ResourceQuery.key? → l ∈ qs.filterMap ResourceQuery.key? →
      (k.Alike l ↔ k = l) := by
    intro k l hk hl
    have h := hdistinct k hk l hl
    have h' := hdistinct l hl k hk
    simp only [ResourceKey.Alike, h, h', or_false]
  refine ⟨fun k t h => ?_, fun k t l u hk hl => (hsame k t l u hk hl).trans (heq (hkey hk) (hkey hl))⟩
  obtain ⟨x, hx, halike, hasked⟩ := hrecord k t h
  exact ⟨x, hx, (heq hasked (hkey h)).mp halike⟩

def flatTexture (path : String) (gamma : Option Float32) : ResourceQuery :=
  { kind := .texture .flat, path, gamma }

def gamma22 : Float32 := .ofBits 0x400ccccd

def apart : List ResourceQuery := [flatTexture "/a" none, flatTexture "/a" (some gamma22)]

theorem answers_alike_apart :
    ∃ x y, (Resolver.registry.after {} apart).resource? ⟨1⟩ = some x ∧
      (Resolver.registry.after {} apart).resource? ⟨2⟩ = some y ∧
      x.key = ⟨.texture .flat, "/a", none⟩ ∧ y.key = ⟨.texture .flat, "/a", some gamma22⟩ := by
  have hanswers : Resolver.registry.answers {} apart =
      [(flatTexture "/a" none, some ⟨1⟩), (flatTexture "/a" (some gamma22), some ⟨2⟩)] := by
    decide +kernel
  have hplain : ∀ k ∈ apart.filterMap ResourceQuery.key?, ':' ∉ k.filePath.toList := by decide +kernel
  obtain ⟨-, -, -, hexact⟩ := answers_alike (r := {}) (fun _ _ => rfl) apart
  obtain ⟨hrecord, -⟩ := hexact fun k hk l _ himitates => hplain k hk himitates.colon_mem
  obtain ⟨x, hx, hxkey⟩ := hrecord ⟨.texture .flat, "/a", none⟩ ⟨1⟩
    ⟨flatTexture "/a" none, by rw [hanswers]; simp, by decide⟩
  obtain ⟨y, hy, hykey⟩ := hrecord ⟨.texture .flat, "/a", some gamma22⟩ ⟨2⟩
    ⟨flatTexture "/a" (some gamma22), by rw [hanswers]; simp, by decide⟩
  exact ⟨x, y, hx, hy, hxkey, hykey⟩

def confused : List ResourceQuery := [flatTexture "/a::2.2" none, flatTexture "/a" (some gamma22)]

/-- The two of them share a record. -/
theorem answers_confused :
    ∃ t x, Resolver.registry.answers {} confused =
        [(flatTexture "/a::2.2" none, some t), (flatTexture "/a" (some gamma22), some t)] ∧
      (Resolver.registry.after {} confused).resource? t = some x ∧
      x.key ≠ ⟨.texture .flat, "/a", some gamma22⟩ := by
  refine ⟨⟨1⟩, ⟨.texture .flat, "/a::2.2", none, false⟩, ?_, ?_, ?_⟩
  · decide +kernel
  · decide +kernel
  · decide +kernel

end Registry

end MaterialModules
