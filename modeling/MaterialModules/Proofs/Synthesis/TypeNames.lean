import MaterialModules.Proofs.Synthesis.Hygiene
import MaterialModules.Source.Print

set_option autoImplicit false

namespace MaterialModules

open Source (Qualifier TypeName Expr)

namespace Source

def Qualifier.front : Qualifier → List Char
  | none => []
  | uniform => "uniform ".toList
  | varying => "varying ".toList

theorem Qualifier.eq_none_of_blank_notMem {q : Qualifier} {xs : List Char} (h : ' ' ∉ q.front ++ xs) :
    q = none := by
  cases q with
  | none => rfl
  | _ => exact absurd (List.mem_append_left xs (by decide)) h

theorem Qualifier.head?_front_inj {p q : Qualifier} (h : p.front.head? = q.front.head?) : p = q := by
  cases p <;> cases q <;> first | rfl | exact absurd h (by decide)

theorem Qualifier.head?_front_append {q : Qualifier} (hq : q ≠ none) (xs : List Char) :
    (q.front ++ xs).head? = q.front.head? := by
  refine List.head?_append_of_ne_nil _ ?_
  cases q with
  | none => exact absurd rfl hq
  | _ => decide

theorem Qualifier.front_append_inj {p q : Qualifier} {xs ys : List Char} (hxs : ' ' ∉ xs) (hys : ' ' ∉ ys) :
    p.front ++ xs = q.front ++ ys ↔ p = q ∧ xs = ys := by
  constructor
  · intro h
    by_cases hp : p = none
    · subst hp
      obtain rfl := eq_none_of_blank_notMem (h ▸ hxs : ' ' ∉ q.front ++ ys)
      exact ⟨rfl, h⟩
    by_cases hq : q = none
    · subst hq
      exact absurd (eq_none_of_blank_notMem (h ▸ hys : ' ' ∉ p.front ++ xs)) hp
    have hhead := congrArg List.head? h
    rw [head?_front_append hp, head?_front_append hq] at hhead
    obtain rfl := head?_front_inj hhead
    exact ⟨rfl, List.append_cancel_left h⟩
  · rintro ⟨rfl, rfl⟩
    rfl

namespace TypeName

def text (n : TypeName) : String := String.ofList n.chars

def plainText (n : TypeName) : String := (n.qualified .none).text

theorem chars_eq_front_append (n : TypeName) : n.chars = n.qualifier.front ++ (n.qualified .none).chars := by
  cases n with
  | mk qualifier name array => cases qualifier <;> rfl

end TypeName

end Source

namespace Kind

def innermost : Kind → Kind
  | array elem _ _ => elem.innermost
  | k => k

def flattened : Kind → Kind
  | array elem qualifiers size => array elem.innermost qualifiers size
  | k => k

def isNested : Kind → Bool
  | array (array _ _ _) _ _ => true
  | _ => false

def userName? : Kind → Option String
  | array elem _ _ => elem.userName?
  | enumeration n | struct n => some n
  | _ => none

/-- The user type goes by the text of the name that is read from it. -/
def Canonical (k : Kind) : Prop := ∀ n ∈ k.userName?, (QualifiedName.ofText n).text = n

def brackets : Option Nat → List Char
  | none => ['[', ']']
  | some n => '[' :: Nat.toDigits 10 n ++ [']']

variable {k : Kind}

theorem toList_spelling_array (elem : Kind) (q : Qualifiers) (size : Option Nat) :
    (array elem q size).spelling.toList = elem.spelling.toList ++ brackets size := by
  cases size with
  | none => simp [spelling, brackets]
  | some n => simp [spelling, brackets]

theorem chars_name_sourceName (h : k.Canonical) :
    k.sourceName.name.chars = k.innermost.spelling.toList := by
  induction k with
  | array elem q size ih => exact ih h
  | enumeration n => exact String.toList_ofList.symm.trans (congrArg String.toList (h n rfl))
  | struct n => exact String.toList_ofList.symm.trans (congrArg String.toList (h n rfl))
  | _ => rfl

theorem plainText_sourceName (h : k.Canonical) : k.sourceName.plainText = k.flattened.spelling := by
  have hname := chars_name_sourceName h
  rw [TypeName.plainText, TypeName.text, ← String.toList_inj, String.toList_ofList]
  cases k with
  | array elem q size =>
    rw [flattened, toList_spelling_array, ← show _ = elem.innermost.spelling.toList from hname]
    cases size <;> rfl
  | _ => exact (List.append_nil _).trans hname

theorem length_innermost_spelling_le (k : Kind) :
    k.innermost.spelling.toList.length ≤ k.spelling.toList.length := by
  induction k with
  | array elem q size ih =>
    rw [toList_spelling_array, List.length_append]
    exact ih.trans (Nat.le_add_right _ _)
  | _ => exact le_refl _

theorem flattened_spelling_eq_iff : k.flattened.spelling = k.spelling ↔ k.isNested = false := by
  cases k with
  | array elem q size =>
    rw [← String.toList_inj, flattened, toList_spelling_array, toList_spelling_array, List.append_left_inj]
    cases elem with
    | array elem q size =>
      -- The brackets of the inner array are missing.
      have hlength := length_innermost_spelling_le elem
      have hbrackets : 0 < (brackets size).length := by cases size <;> simp [brackets]
      refine iff_of_false (fun h => ?_) (by simp [isNested])
      have heq := congrArg List.length h
      rw [toList_spelling_array, List.length_append] at heq
      simp only [innermost] at heq
      omega
    | _ => exact iff_of_true rfl rfl
  | _ => exact iff_of_true rfl rfl

theorem userName?_innermost (k : Kind) : k.innermost.userName? = k.userName? := by
  induction k with
  | array elem q size ih => exact ih
  | _ => rfl

theorem userName?_flattened (k : Kind) : k.flattened.userName? = k.userName? := by
  cases k with
  | array elem q size => exact userName?_innermost elem
  | _ => rfl

theorem blank_notMem_digits (n : Nat) : ' ' ∉ Nat.toDigits 10 n := fun h =>
  absurd (Nat.isDigit_of_mem_toDigits (by decide) (by decide) h) (by decide)

theorem blank_notMem_spelling (h : ∀ n ∈ k.userName?, ' ' ∉ n.toList) : ' ' ∉ k.spelling.toList := by
  induction k with
  | array elem q size ih =>
    rw [toList_spelling_array, List.mem_append]
    rintro (helem | hbrackets)
    · exact ih h helem
    · cases size with
      | none => exact absurd hbrackets (by decide)
      | some n => simp [brackets, blank_notMem_digits] at hbrackets
  | vector elem size =>
    have hdigits : (toString size).toList = Nat.toDigits 10 size := Nat.toList_repr
    rw [spelling, String.toList_append, hdigits, List.mem_append]
    rintro (helem | hsize)
    · cases elem <;> exact absurd helem (by decide)
    · exact blank_notMem_digits size hsize
  | enumeration n => exact h n rfl
  | struct n => exact h n rfl
  | texture shape => cases shape <;> decide
  | _ => decide

end Kind

namespace Source.TypeName

/-- A name that, its qualifier apart, reads as a type does in a signature, less the inner sizes. -/
structure Reads (n : TypeName) (t : Ty) : Prop where
  flattened : n.plainText = t.kind.flattened.spelling
  exact_iff : n.plainText = t.spelling ↔ t.kind.isNested = false

theorem reads_of_qualified {n : TypeName} {t : Ty} (hn : n.qualified .none = t.kind.sourceName)
    (ht : t.kind.Canonical) : n.Reads t := by
  have htext : n.plainText = t.kind.flattened.spelling := by
    rw [← Kind.plainText_sourceName ht, ← hn]
    rfl
  exact ⟨htext, htext ▸ Kind.flattened_spelling_eq_iff⟩

end Source.TypeName

namespace Ty

variable {s t : Ty}

theorem qualified_sourceName (t : Ty) : t.sourceName.qualified .none = t.kind.sourceName := by
  have hplain : t.kind.sourceName.qualified .none = t.kind.sourceName := by
    rw [← Registry.Kind.qualifier_sourceName t.kind]
    rfl
  unfold sourceName
  split
  · exact hplain
  · split <;> exact hplain

theorem sourceName_text_eq_iff (hs : s.kind.Canonical) (ht : t.kind.Canonical)
    (hsBlank : ∀ n ∈ s.kind.userName?, ' ' ∉ n.toList) (htBlank : ∀ n ∈ t.kind.userName?, ' ' ∉ n.toList) :
    s.sourceName.text = t.sourceName.text ↔
      s.sourceName.qualifier = t.sourceName.qualifier ∧
        s.kind.flattened.spelling = t.kind.flattened.spelling := by
  have hchars : ∀ {t : Ty}, t.kind.Canonical →
      (t.sourceName.qualified .none).chars = t.kind.flattened.spelling.toList := fun ht =>
    String.ofList_injective ((TypeName.reads_of_qualified (qualified_sourceName _) ht).flattened.trans
      String.ofList_toList.symm)
  rw [TypeName.text, TypeName.text, String.ofList_inj, TypeName.chars_eq_front_append s.sourceName,
    TypeName.chars_eq_front_append t.sourceName, hchars hs, hchars ht, ← String.toList_inj]
  refine Qualifier.front_append_inj (Kind.blank_notMem_spelling ?_) (Kind.blank_notMem_spelling ?_)
  · rwa [Kind.userName?_flattened]
  · rwa [Kind.userName?_flattened]

end Ty

namespace Registry

variable {r : Registry} {c : Callee}

theorem reads_locals_of_wrappedCall {ps : Promotions} {body : Expr}
    (h : (r.wrappedCall ps c).result = .ok body) :
    c.arguments.all (fun a => (ps.name? a.2).isSome) = true ∧ body.locals = [] ∨
      List.Forall₂ (fun a b => a.2.type.kind.Canonical → b.type.Reads a.2.type) c.arguments body.locals := by
  rcases wrappedCall_cases h with ⟨hall, xs, -, rfl⟩ | ⟨-, bs, hbs, rfl⟩
  · exact .inl ⟨hall, rfl⟩
  · refine .inr ((forall₂_of_argumentBindings hbs).imp fun a b ⟨htype, _⟩ ha =>
      TypeName.reads_of_qualified ?_ ha)
    rw [htype]
    exact a.2.type.unqualified.qualified_sourceName

theorem reads_of_promotionDecl {p : Promotion} {d : Source.ParameterDecl} {names : List QualifiedName}
    (h : (r.promotionDecl p).result = .ok (d, names)) (hp : p.init.type.kind.Canonical) :
    d.type.Reads p.init.type := by
  refine TypeName.reads_of_qualified ?_ hp
  have hplain : p.init.type.kind.sourceName.qualified .none = p.init.type.kind.sourceName :=
    p.init.type.unqualified.qualified_sourceName
  rw [type_of_promotionDecl h]
  cases p.uniform <;> exact hplain

/-- A type is written as it is spelled in signatures but for the inner sizes of nested arrays, and two
types read alike just if they differ in these at most. So it is with the local constants and the
parameters of a wrapping material. -/
theorem declared_types_read {t : Ty} (ht : t.kind.Canonical) :
    t.sourceName.Reads t ∧
    (∀ s : Ty, s.kind.Canonical → (∀ n ∈ s.kind.userName?, ' ' ∉ n.toList) →
      (∀ n ∈ t.kind.userName?, ' ' ∉ n.toList) →
      (s.sourceName.text = t.sourceName.text ↔ s.sourceName.qualifier = t.sourceName.qualifier ∧
        s.kind.flattened.spelling = t.kind.flattened.spelling)) ∧
    ∀ (r : Registry) (c : Callee) (m : MaterialRequest) (decl : Source.FunctionDecl),
      (r.material c m).result = .ok decl →
      (c.arguments.all (fun a => ((r.reading c m).name? a.2).isSome) = true ∧ decl.body.locals = [] ∨
        List.Forall₂ (fun a b => a.2.type = t → b.type.Reads t) c.arguments decl.body.locals) ∧
      List.Forall₂ (fun q d => ∃ x, r.find? q.path c.arguments = some x ∧ (x.type = t → d.type.Reads t))
        m.promotions decl.parameters := by
  refine ⟨TypeName.reads_of_qualified t.qualified_sourceName ht, fun s hs => Ty.sourceName_text_eq_iff hs ht,
    fun r c m decl h => ?_⟩
  obtain ⟨ps, hpromotions, hbody, hdecls⟩ := promotionDecls_of_material h
  have hwraps : r.Wraps c m ps decl :=
    ⟨hpromotions, hbody, hdecls.imp fun _ _ ⟨_, hd⟩ => declaresParameter_of_promotionDecl hd⟩
  rw [← hwraps.reading_eq]
  constructor
  · refine (reads_locals_of_wrappedCall hbody).imp_right fun hlocals => hlocals.imp ?_
    rintro a b hab rfl
    exact hab ht
  · refine (forall₂_comp hpromotions hdecls).imp ?_
    rintro q d ⟨p, hp, names, hd⟩
    refine ⟨p.init, hp.found, ?_⟩
    rintro rfl
    exact reads_of_promotionDecl hd ht

def matrix (k : Kind) (columns rows : Nat) : Ty := ⟨.array (.array k {} (some columns)) {} (some rows), {}⟩

def pair : Kind := .struct "::m::pair"

theorem canonical_pair : pair.Canonical := by
  rintro n ⟨⟩
  decide +kernel

theorem blank_notMem_pair : ∀ n ∈ pair.userName?, ' ' ∉ n.toList := by
  rintro n ⟨⟩
  decide

def overMatrix : Callee where
  kind := .material
  name := "::m::over"
  arguments := [
    ("m", .constant 1 (matrix .int 2 1) (.array ⟨.array .int {} (some 2), {}⟩ [.array ⟨.int, {}⟩ [.int 7, .int 8]])),
    ("n", .constant 2 ⟨.int, {}⟩ (.int 5))]
  parameterTypes := [("m", matrix .int 2 1), ("n", ⟨.int, {}⟩)]

theorem material_overMatrix :
    ∃ decl, (empty.material overMatrix (promote "n")).result = .ok decl ∧
      decl.body.locals.map (·.type.text) = ["int[1]", "int"] ∧
      decl.parameters.map (·.type.text) = ["int"] := by
  have hqueue : empty.WorksOff ([⟨.constant 2 ⟨.int, {}⟩ (.int 5), false⟩] ++ []) _ := .go rfl .done
  have hpromotion := promotion_of_worksOff (c := overMatrix) (q := { name := "p", path := "n" })
    rfl rfl hqueue
  unfold material
  simp only [promote, List.mapM_cons, List.mapM_nil, hpromotion]
  exact ⟨_, rfl, by decide +kernel, by decide +kernel⟩

theorem declared_types_read_overMatrix :
    (matrix pair 5 3).sourceName.text = (matrix pair 2 3).sourceName.text ∧
    ∃ decl, (empty.material overMatrix (promote "n")).result = .ok decl ∧
      (∃ b ∈ decl.body.locals, b.type.Reads (matrix .int 2 1)) ∧
      ∃ d ∈ decl.parameters, d.type.Reads ⟨.int, {}⟩ := by
  have hpairs : ∀ columns, (matrix pair columns 3).kind.Canonical := fun _ => canonical_pair
  have hmatrix : (matrix .int 2 1).kind.Canonical := nofun
  have hint : (Ty.mk .int {}).kind.Canonical := nofun
  obtain ⟨decl, hdecl, -, -⟩ := material_overMatrix
  obtain ⟨-, htext, -⟩ := declared_types_read (hpairs 2)
  obtain ⟨-, -, hrow⟩ := declared_types_read hmatrix
  obtain ⟨-, -, hplain⟩ := declared_types_read hint
  refine ⟨(htext _ (hpairs 5) blank_notMem_pair blank_notMem_pair).mpr ⟨rfl, rfl⟩, decl, hdecl, ?_, ?_⟩
  · rcases (hrow _ _ _ decl hdecl).1 with ⟨hall, -⟩ | hlocals
    · exact absurd hall (by decide)
    · obtain ⟨b, hb, hreads⟩ := exists_mem_right hlocals List.mem_cons_self
      exact ⟨b, hb, hreads rfl⟩
  · obtain ⟨d, hd, x, hx, hreads⟩ := exists_mem_right (hplain _ _ _ decl hdecl).2 List.mem_cons_self
    cases hx
    exact ⟨d, hd, hreads rfl⟩

/-- Types that signatures keep apart are written alike, and not as in signatures. -/
theorem inner_sizes_unwritten :
    (matrix .int 2 3).spelling = "int[2][3]" ∧ (matrix .int 2 3).sourceName.text = "int[3]" ∧
    (matrix .int 5 3).spelling = "int[5][3]" ∧ (matrix .int 5 3).sourceName.text = "int[3]" ∧
    (∃ decl, (empty.material overMatrix (promote "n")).result = .ok decl ∧
      overMatrix.arguments.map (·.2.type.spelling) = ["int[2][1]", "int"] ∧
      decl.body.locals.map (·.type.text) = ["int[1]", "int"]) ∧
    ¬∀ t : Ty, t.kind.Canonical → t.sourceName.plainText = t.spelling := by
  obtain ⟨decl, hdecl, hlocals, -⟩ := material_overMatrix
  refine ⟨by decide, by decide, by decide, by decide, ⟨decl, hdecl, by decide, hlocals⟩, fun hclaim => ?_⟩
  exact absurd (hclaim (matrix .int 2 3) nofun) (by decide)

end Registry

end MaterialModules
