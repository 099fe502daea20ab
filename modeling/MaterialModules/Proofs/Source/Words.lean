import MaterialModules.Proofs.Name.Grammar
import MaterialModules.Source.Print

set_option autoImplicit false

namespace MaterialModules

def Text.after? (mark s : List Char) : Option (List Char) :=
  if mark.isPrefixOf s then some (s.drop mark.length) else none

theorem Text.after?_append (mark s : List Char) : after? mark (mark ++ s) = some s := by
  rw [after?, if_pos (List.isPrefixOf_iff_prefix.mpr (List.prefix_append mark s)), List.drop_left]

namespace Name

def reserved : List String := ["true", "false", "let", "in", "uniform", "varying"]

def isFree (s : String) : Bool := isIdentifier s && !reserved.contains s

theorem le_of_isLetter {c : Char} (h : isLetter c = true) : 'A' ≤ c := by
  rcases Bool.or_eq_true_iff.mp h with h | h
  · rcases Bool.or_eq_true_iff.mp h with h | h
    · have hupper : 'A' ≤ c ∧ c ≤ 'Z' := of_decide_eq_true h
      exact hupper.1
    · have hlower : 'a' ≤ c := of_decide_eq_true (Bool.and_eq_true_iff.mp h).1
      exact Char.le_trans (by decide) hlower
  · cases of_decide_eq_true h
    decide

theorem isDigit_of_isLetter {c : Char} (h : isLetter c = true) : c.isDigit = false := by
  have hnine : ¬c ≤ '9' := fun hle => absurd (Char.le_trans (le_of_isLetter h) hle) (by decide)
  exact Bool.and_eq_false_iff.mpr (.inr (decide_eq_false hnine))

def word : List Char → List Char × List Char
  | [] => ([], [])
  | ':' :: ':' :: r => (':' :: ':' :: (word r).1, (word r).2)
  | c :: r => if isWordChar c then (c :: (word r).1, (word r).2) else ([], c :: r)

def EndsWord (s : List Char) : Prop := word s = ([], s)

theorem word_append {w : List Char} (hw : ∀ c ∈ w, isWordChar c = true) (s : List Char) :
    word (w ++ s) = (w ++ (word s).1, (word s).2) := by
  induction w with
  | nil => rfl
  | cons c w ih =>
    obtain ⟨hc, hw⟩ := List.forall_mem_cons.mp hw
    rw [List.cons_append, word.eq_3 _ _ fun r h _ => ne_colon_of_isWordChar hc h, if_pos hc, ih hw]
    rfl

theorem word_of_ends {w s : List Char} (hw : ∀ c ∈ w, isWordChar c = true) (hs : EndsWord s) :
    word (w ++ s) = (w, s) := by
  rw [word_append hw, hs, List.append_nil]

theorem word_identifier {n : String} (hn : isIdentifier n = true) {s : List Char} (hs : EndsWord s) :
    word (n.toList ++ s) = (n.toList, s) := word_of_ends (fun _ => isWordChar_of_mem hn) hs

end Name

namespace QualifiedName

open Name Text

def isFree (q : QualifiedName) : Bool := !q.components.isEmpty && q.components.all Name.isFree

variable {q : QualifiedName} {c : String} {cs : List String} {s : List Char}

theorem isIdentifier_of_isFree (h : q.isFree = true) : ∀ c ∈ q.components, isIdentifier c = true :=
  fun c hc => (Bool.and_eq_true_iff.mp
    (List.all_eq_true.mp (Bool.and_eq_true_iff.mp h).2 c hc)).1

theorem notMem_reserved_of_isFree (h : q.isFree = true) : ∀ c ∈ q.components, c ∉ reserved := by
  intro c hc
  simpa using (Bool.and_eq_true_iff.mp (List.all_eq_true.mp (Bool.and_eq_true_iff.mp h).2 c hc)).2

theorem exists_components_of_isFree (h : q.isFree = true) : ∃ c cs, q.components = c :: cs := by
  cases hq : q.components with
  | nil => simp [isFree, hq] at h
  | cons c cs => exact ⟨c, cs, rfl⟩

theorem word_joined (hcs : ∀ c ∈ cs, isIdentifier c = true) (hs : EndsWord s) :
    word (joined cs ++ s) = (joined cs, s) := by
  induction cs with
  | nil => exact hs
  | cons c cs ih =>
    obtain ⟨hc, hcs⟩ := List.forall_mem_cons.mp hcs
    cases cs with
    | nil => exact word_identifier hc hs
    | cons d ds =>
      rw [joined_cons_cons, List.append_assoc, word_append fun _ => isWordChar_of_mem hc]
      simp only [List.cons_append, word, ih hcs]

theorem word_chars (hq : q.isFree = true) (hs : EndsWord s) : word (q.chars ++ s) = (q.chars, s) := by
  have hjoined := word_joined (isIdentifier_of_isFree hq) hs
  unfold chars
  split
  · simp only [List.cons_append, List.nil_append, word, hjoined]
  · exact hjoined

theorem exists_letter_joined (hc : isIdentifier c = true) (cs : List String) :
    ∃ d r, joined (c :: cs) = d :: r ∧ isLetter d = true := by
  obtain ⟨d, r, hdr, hd⟩ := exists_letter_of_isIdentifier hc
  cases cs with
  | nil => exact ⟨d, r, hdr, hd⟩
  | cons e es => exact ⟨d, _, by rw [joined_cons_cons, hdr, List.cons_append], hd⟩

theorem ofIdentifiers_of_isFree (h : q.isFree = true) : q.OfIdentifiers where
  nonempty := by
    obtain ⟨c, cs, hcs⟩ := exists_components_of_isFree h
    rw [hcs]
    exact List.cons_ne_nil c cs
  identifiers := isIdentifier_of_isFree h

theorem ofText_chars (hq : q.isFree = true) : ofText (String.ofList q.chars) = q :=
  (ofIdentifiers_of_isFree hq).regular.ofText_text

end QualifiedName

namespace Source

def unescaped : Char → Char
  | 'n' => '\n'
  | 't' => '\t'
  | c => c

def unquoted : List Char → Option (List Char × List Char)
  | [] => none
  | '"' :: r => some ([], r)
  | '\\' :: c :: r => (unquoted r).map fun (s, r) => (unescaped c :: s, r)
  | c :: r => (unquoted r).map fun (s, r) => (c :: s, r)

theorem unquoted_escaped (c : Char) (t : List Char) :
    unquoted (escaped c ++ t) = (unquoted t).map fun (s, r) => (c :: s, r) := by
  unfold escaped
  split
  · rfl
  · rfl
  · rfl
  · rfl
  · rename_i hquote hbackslash _ _
    rw [List.cons_append, List.nil_append, unquoted.eq_4 _ _ hquote fun _ _ h _ => hbackslash h]

theorem unquoted_flatMap_escaped (s r : List Char) :
    unquoted (s.flatMap escaped ++ '"' :: r) = some (s, r) := by
  induction s with
  | nil => rfl
  | cons c s ih => rw [List.flatMap_cons, List.append_assoc, unquoted_escaped, ih, Option.map_some]

end Source

end MaterialModules
