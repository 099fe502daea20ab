import MaterialModules.Name.Qualified
import MaterialModules.Proofs.Name.Registered
import MaterialModules.Proofs.Text.Scopes

set_option autoImplicit false

namespace MaterialModules

namespace Name

def isWordChar (c : Char) : Bool := isLetter c || c.isDigit

theorem exists_letter_of_isIdentifier {s : String} (h : isIdentifier s = true) :
    ∃ c r, s.toList = c :: r ∧ isLetter c = true := by
  unfold isIdentifier at h
  split at h
  · cases h
  · rename_i c r hs
    exact ⟨c, r, hs, (Bool.and_eq_true_iff.mp h).1⟩

theorem isWordChar_of_mem {s : String} (h : isIdentifier s = true) {c : Char} (hc : c ∈ s.toList) :
    isWordChar c = true := by
  unfold isIdentifier at h
  split at h
  · cases h
  · rename_i d r hs
    obtain ⟨hd, hr⟩ := Bool.and_eq_true_iff.mp h
    rw [hs] at hc
    rcases List.mem_cons.mp hc with rfl | hc
    · exact Bool.or_eq_true_iff.mpr (.inl hd)
    · exact List.all_eq_true.mp hr c hc

theorem ne_colon_of_isWordChar {c : Char} (h : isWordChar c = true) : c ≠ ':' := by
  rintro rfl
  exact absurd h (by decide)

theorem colon_notMem {s : String} (h : isIdentifier s = true) : ':' ∉ s.toList := fun hmem =>
  ne_colon_of_isWordChar (isWordChar_of_mem h hmem) rfl

def front (absolute : Bool) : List Char := if absolute then [':', ':'] else []

/-- A name is what is left of it behind a leading `::`, and that itself does not start with `::` where there
was none. -/
structure Starts (s : List Char) (absolute : Bool) (body : List Char) : Prop where
  chars : s = front absolute ++ body
  relative : absolute = false → ¬ [':', ':'] <+: body

theorem exists_starts (s : List Char) : ∃ absolute body, Starts s absolute body := by
  by_cases h : [':', ':'] <+: s
  · obtain ⟨body, hbody⟩ := h
    exact ⟨true, body, hbody.symm, nofun⟩
  · exact ⟨false, s, rfl, fun _ => h⟩

section Starts

variable {s : String} {absolute : Bool} {body : List Char}

theorem Starts.isModuleName_eq (h : Starts s.toList absolute body) (valid : String → Bool) :
    isModuleName valid s = (Text.scopePieces body).all fun c => valid (String.ofList c) := by
  unfold isModuleName
  rw [h.chars]
  cases absolute with
  | true => rfl
  | false =>
    simp only [front, Bool.false_eq_true, if_false, List.nil_append]
    split
    · exact absurd (List.prefix_append [':', ':'] _) (h.relative rfl)
    · rfl

theorem Starts.ofText_eq (h : Starts s.toList absolute body) : QualifiedName.ofText s =
    ⟨absolute, ((Text.scopePieces body).filter (· ≠ [])).map String.ofList⟩ := by
  unfold QualifiedName.ofText
  rw [h.chars]
  cases absolute with
  | true => rfl
  | false =>
    simp only [front, Bool.false_eq_true, if_false, List.nil_append]
    split
    · exact absurd (List.prefix_append [':', ':'] _) (h.relative rfl)
    · rfl

theorem Starts.registered_eq (h : Starts s.toList absolute body) :
    registered s = "mdl::" ++ String.ofList body := by
  cases absolute with
  | true =>
    have hs : s = "::" ++ String.ofList body := String.toList_inj.mp (by simpa [front] using h.chars)
    rw [hs, registered_of_absolute, ← String.append_assoc]
    rfl
  | false =>
    have hs : s.toList = body := h.chars
    have hrelative : ¬ [':', ':'].isPrefixOf s.toList = true := by
      rw [List.isPrefixOf_iff_prefix, hs]
      exact h.relative rfl
    rw [registered, if_neg hrelative, ← hs, String.ofList_toList]

end Starts

end Name

namespace QualifiedName

open Name Text

variable {q : QualifiedName} {s t : String}

structure Regular (q : QualifiedName) : Prop where
  tight : Tight (q.components.map String.toList)
  nonempty : ∀ c ∈ q.components, c.toList ≠ []

structure OfIdentifiers (q : QualifiedName) : Prop where
  nonempty : q.components ≠ []
  identifiers : ∀ c ∈ q.components, isIdentifier c = true

theorem joined_cons_cons (c d : String) (ds : List String) :
    joined (c :: d :: ds) = c.toList ++ ':' :: ':' :: joined (d :: ds) := rfl

theorem joined_eq (cs : List String) : joined cs = joinScopes (cs.map String.toList) := by
  induction cs with
  | nil => rfl
  | cons c cs ih =>
    cases cs with
    | nil => rw [List.map_singleton, joinScopes_singleton, joined]
    | cons d ds => simp only [joined_cons_cons, ih, List.map_cons, joinScopes_cons_cons]

theorem toList_text (q : QualifiedName) : q.text.toList = front q.absolute ++ joined q.components := by
  rw [text, chars, String.toList_ofList, front]

theorem regular_ofText (s : String) : (ofText s).Regular := by
  obtain ⟨absolute, body, hs⟩ := exists_starts s.toList
  rw [hs.ofText_eq]
  refine ⟨?_, fun c hc => ?_⟩
  · simpa [Function.comp_def] using (tight_scopePieces body).filter (· ≠ [])
  · obtain ⟨w, hw, rfl⟩ := List.mem_map.mp hc
    simpa using (List.mem_filter.mp hw).2

theorem OfIdentifiers.regular (h : q.OfIdentifiers) : q.Regular where
  tight := by
    refine tight_of_notMem fun w hw => ?_
    obtain ⟨c, hc, rfl⟩ := List.mem_map.mp hw
    exact colon_notMem (h.identifiers c hc)
  nonempty c hc := by
    obtain ⟨d, r, hdr, -⟩ := exists_letter_of_isIdentifier (h.identifiers c hc)
    simp [hdr]

theorem Regular.pieces_joined (h : q.Regular) :
    ((scopePieces (joined q.components)).filter (· ≠ [])).map String.ofList = q.components := by
  have hne : ∀ w ∈ q.components.map String.toList, w ≠ [] := by
    intro w hw
    obtain ⟨c, hc, rfl⟩ := List.mem_map.mp hw
    exact h.nonempty c hc
  rw [joined_eq, h.tight.filter_scopePieces hne, List.map_map]
  simp [Function.comp_def]

theorem Regular.starts (h : q.Regular) :
    Starts q.text.toList q.absolute (joined q.components) where
  chars := q.toList_text
  relative _ := by
    rw [joined_eq]
    refine h.tight.not_prefix_joinScopes fun w hw => ?_
    obtain ⟨c, hc, rfl⟩ := List.mem_map.mp hw
    exact h.nonempty c hc

theorem Regular.ofText_text (h : q.Regular) : ofText q.text = q := by
  rw [h.starts.ofText_eq, h.pieces_joined]

theorem OfIdentifiers.scopePieces_joined (h : q.OfIdentifiers) :
    scopePieces (joined q.components) = q.components.map String.toList := by
  have htight := h.regular.tight
  obtain ⟨c, cs, hcs⟩ := List.exists_cons_of_ne_nil h.nonempty
  rw [hcs, List.map_cons] at htight
  rw [hcs, joined_eq, List.map_cons, htight.scopePieces_joinScopes]

theorem OfIdentifiers.isModuleName_text (h : q.OfIdentifiers) :
    isModuleName isIdentifier q.text = true := by
  rw [h.regular.starts.isModuleName_eq, h.scopePieces_joined, List.all_map, List.all_eq_true]
  intro c hc
  simpa using h.identifiers c hc

theorem ofIdentifiers_of_isModuleName (h : isModuleName isIdentifier s = true) :
    (ofText s).OfIdentifiers ∧ (ofText s).text = s := by
  obtain ⟨absolute, body, hs⟩ := exists_starts s.toList
  rw [hs.isModuleName_eq, List.all_eq_true] at h
  have hkept : (scopePieces body).filter (· ≠ []) = scopePieces body := by
    refine List.filter_eq_self.mpr fun w hw => decide_eq_true ?_
    rintro rfl
    exact absurd (h [] hw) (by decide)
  rw [hs.ofText_eq, hkept]
  refine ⟨⟨?_, ?_⟩, String.toList_inj.mp ?_⟩
  · simpa using scopePieces_ne_nil body
  · simpa using h
  · rw [toList_text, joined_eq, List.map_map, hs.chars]
    simp [Function.comp_def, joinScopes_scopePieces]

theorem Regular.registered_text (h : q.Regular) :
    registered q.text = "mdl::" ++ String.ofList (joined q.components) := by
  rw [h.starts.registered_eq]

/-- Names of the same components, and only these, are registered alike. -/
theorem Regular.registered_eq_iff {r : QualifiedName} (hq : q.Regular) (hr : r.Regular) :
    registered q.text = registered r.text ↔ q.components = r.components := by
  rw [hq.registered_text, hr.registered_text]
  refine ⟨fun h => ?_, fun h => by rw [h]⟩
  have hjoined : joined q.components = joined r.components :=
    String.ofList_injective (String.append_right_inj _ |>.mp h)
  rw [← hq.pieces_joined, hjoined, hr.pieces_joined]

/-- Names of modules are the texts of the names that are made of identifiers, and each such text is read as
that name; two names of modules are registered alike if they have the same components, absolute or not; and
the text of a name that was read, of whatever text, is read as the same name. -/
theorem one_grammar :
    (∀ s, isModuleName isIdentifier s = true ↔ ∃ q : QualifiedName, q.OfIdentifiers ∧ q.text = s) ∧
      (∀ (q : QualifiedName) (s : String), q.OfIdentifiers → q.text = s → ofText s = q) ∧
      (∀ s t, isModuleName isIdentifier s = true → isModuleName isIdentifier t = true →
        (registered s = registered t ↔ (ofText s).components = (ofText t).components)) ∧
      ∀ s, ofText (ofText s).text = ofText s := by
  refine ⟨fun s => ⟨fun h => ⟨ofText s, ofIdentifiers_of_isModuleName h⟩, ?_⟩, ?_, ?_, ?_⟩
  · rintro ⟨q, hq, rfl⟩
    exact hq.isModuleName_text
  · rintro q s hq rfl
    exact hq.regular.ofText_text
  · intro s t hs ht
    obtain ⟨hsOf, hsText⟩ := ofIdentifiers_of_isModuleName hs
    obtain ⟨htOf, htText⟩ := ofIdentifiers_of_isModuleName ht
    have hiff := hsOf.regular.registered_eq_iff htOf.regular
    rwa [hsText, htText] at hiff
  · exact fun s => (regular_ofText s).ofText_text

/-- `::a::b` and `a::b` name one registered module; `a:::b`, whose second piece starts with a colon, names
none, but is read and printed all the same. -/
theorem one_grammar_absolute_or_not :
    registered "::a::b" = registered "a::b" ∧ ofText "::a::b" = ⟨true, ["a", "b"]⟩ ∧
      isModuleName isIdentifier "a:::b" = false ∧ ofText (ofText ":::a::::b:").text = ofText ":::a::::b:" := by
  obtain ⟨hvalid, hread, hregistered, hagain⟩ := one_grammar
  have hab : OfIdentifiers ⟨true, ["a", "b"]⟩ := ⟨by decide, by decide⟩
  have habsolute : isModuleName isIdentifier "::a::b" = true := (hvalid _).mpr ⟨_, hab, by decide⟩
  refine ⟨(hregistered _ _ habsolute (by decide)).mpr (by decide), hread _ _ hab (by decide), by decide, ?_⟩
  exact hagain _

end QualifiedName

end MaterialModules
