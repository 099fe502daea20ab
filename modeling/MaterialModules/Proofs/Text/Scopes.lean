import MaterialModules.Text.Pieces
import Mathlib.Data.List.Infix

set_option autoImplicit false

namespace MaterialModules

namespace Text

def Unbroken (w : List Char) : Prop := ¬ [':', ':'] <:+: w

instance : DecidablePred Unbroken := fun _ => inferInstanceAs (Decidable (¬ _))

/-- Pieces that a cut at `::` may give: there is no `::` in any of them, and none that starts in a piece and
ends in the separator behind it. -/
def Tight : List (List Char) → Prop
  | [] => True
  | [w] => Unbroken w
  | w :: v :: ws => Unbroken (w ++ [':']) ∧ Tight (v :: ws)

def joinScopes (ws : List (List Char)) : List Char := [':', ':'].intercalate ws

variable {c : Char} {a b v w s : List Char} {ws : List (List Char)}

theorem Unbroken.left (h : Unbroken (w ++ v)) : Unbroken w := fun hw =>
  h (hw.trans (List.prefix_append w v).isInfix)

theorem Unbroken.tail (h : Unbroken (c :: w)) : Unbroken w := fun hw =>
  h (hw.trans (List.suffix_cons c w).isInfix)

theorem Unbroken.cons (h : Unbroken w) (hc : c = ':' → ¬ [':'] <+: w) : Unbroken (c :: w) := by
  intro hbroken
  rcases List.infix_cons_iff.mp hbroken with hfront | hlater
  · obtain ⟨hcolon, hfirst⟩ := List.cons_prefix_cons.mp hfront
    exact hc hcolon.symm hfirst
  · exact h hlater

theorem Unbroken.append_cons (ha : Unbroken a) (hc : c ≠ ':') (hb : Unbroken b) :
    Unbroken (a ++ c :: b) := by
  induction a with
  | nil => exact hb.cons fun h => absurd h hc
  | cons d a ih =>
    refine (ih ha.tail).cons ?_
    rintro rfl hcolon
    cases a with
    | nil => exact hc (List.cons_prefix_cons.mp hcolon).1.symm
    | cons e a =>
      obtain rfl := (List.cons_prefix_cons.mp hcolon).1
      exact ha (List.prefix_append [':', ':'] a).isInfix

theorem unbroken_separated (h : ':' ∉ w) : Unbroken (w ++ [':']) := by
  induction w with
  | nil => decide
  | cons c w ih =>
    rw [List.mem_cons, not_or] at h
    exact (ih h.2).cons fun hc => absurd hc.symm h.1

theorem Tight.head (h : Tight (w :: ws)) : Unbroken w := by
  cases ws with
  | nil => exact h
  | cons v ws => exact h.1.left

theorem Tight.tail (h : Tight (w :: ws)) : Tight ws := by
  cases ws with
  | nil => trivial
  | cons v ws => exact h.2

theorem tight_of_notMem (h : ∀ w ∈ ws, ':' ∉ w) : Tight ws := by
  induction ws with
  | nil => trivial
  | cons w ws ih =>
    obtain ⟨hw, hws⟩ := List.forall_mem_cons.mp h
    cases ws with
    | nil => exact (unbroken_separated hw).left
    | cons v ws => exact ⟨unbroken_separated hw, ih hws⟩

theorem Tight.filter (h : Tight ws) (p : List Char → Bool) : Tight (ws.filter p) := by
  induction ws with
  | nil => trivial
  | cons w ws ih =>
    have hrest := ih h.tail
    rw [List.filter_cons]
    split
    · -- a piece in front of a separator may come last now, but not the other way round
      cases hfiltered : ws.filter p with
      | nil => exact h.head
      | cons u us =>
        rw [hfiltered] at hrest
        cases ws with
        | nil => cases hfiltered
        | cons v vs => exact ⟨h.1, hrest⟩
    · exact hrest

theorem scopePieces_ne_nil (s : List Char) : scopePieces s ≠ [] := by
  fun_cases scopePieces s with
  | case1 => simp
  | case2 => simp
  | case3 c r => cases scopePieces r <;> simp [consFirst]

@[simp] theorem joinScopes_singleton (w : List Char) : joinScopes [w] = w := by simp [joinScopes]

theorem joinScopes_cons_cons (w v : List Char) (ws : List (List Char)) :
    joinScopes (w :: v :: ws) = w ++ ':' :: ':' :: joinScopes (v :: ws) := by
  simp [joinScopes, List.intercalate_cons_cons]

theorem joinScopes_scopePieces (s : List Char) : joinScopes (scopePieces s) = s := by
  fun_induction scopePieces s with
  | case1 => rfl
  | case2 r ih =>
    obtain ⟨p, ps, hr⟩ := List.exists_cons_of_ne_nil (scopePieces_ne_nil r)
    rw [hr] at ih ⊢
    rw [joinScopes_cons_cons, ih]
    rfl
  | case3 c r hc ih =>
    obtain ⟨p, ps, hr⟩ := List.exists_cons_of_ne_nil (scopePieces_ne_nil r)
    rw [hr] at ih ⊢
    cases ps with
    | nil => rw [← ih]; rfl
    | cons q qs =>
      rw [joinScopes_cons_cons] at ih
      rw [consFirst, joinScopes_cons_cons, List.cons_append, ih]

theorem tight_scopePieces (s : List Char) : Tight (scopePieces s) := by
  fun_induction scopePieces s with
  | case1 => exact (by decide : Unbroken [])
  | case2 r ih =>
    obtain ⟨p, ps, hr⟩ := List.exists_cons_of_ne_nil (scopePieces_ne_nil r)
    rw [hr] at ih ⊢
    exact ⟨by decide, ih⟩
  | case3 c r hc ih =>
    -- the first piece goes on with `c`; if that is a colon then the rest does not start with one
    have hjoin := joinScopes_scopePieces r
    obtain ⟨p, ps, hr⟩ := List.exists_cons_of_ne_nil (scopePieces_ne_nil r)
    rw [hr] at ih hjoin ⊢
    have hfirst : ∀ w, w <+: r → c = ':' → ¬ [':'] <+: w := by
      rintro w hw rfl hcolon
      obtain ⟨r', hr'⟩ := hcolon.trans hw
      exact hc r' rfl hr'.symm
    cases ps with
    | nil => exact ih.cons (hfirst p (by simp [← hjoin]))
    | cons q qs =>
      rw [joinScopes_cons_cons] at hjoin
      refine ⟨ih.1.cons (hfirst _ ⟨':' :: joinScopes (q :: qs), ?_⟩), ih.2⟩
      rw [← hjoin, List.append_assoc]
      rfl

/-- In front of a separator, a piece that does not run into it is cut off. -/
theorem Unbroken.scopePieces_append (h : Unbroken (w ++ [':'])) (s : List Char) :
    scopePieces (w ++ ':' :: ':' :: s) = w :: scopePieces s := by
  induction w with
  | nil => rfl
  | cons c w ih =>
    have hc : ∀ r, c = ':' → w ++ ':' :: ':' :: s = ':' :: r → False := by
      rintro r rfl hr
      cases w with
      | nil => exact h (by simp)
      | cons d w =>
        obtain ⟨rfl, -⟩ := List.cons.inj hr
        exact h (List.prefix_append [':', ':'] (w ++ [':'])).isInfix
    rw [List.cons_append, scopePieces.eq_3 _ _ hc, ih h.tail]
    rfl

theorem Unbroken.scopePieces_eq (h : Unbroken w) : scopePieces w = [w] := by
  induction w with
  | nil => rfl
  | cons c w ih =>
    have hc : ∀ r, c = ':' → w = ':' :: r → False := by
      rintro r rfl rfl
      exact h (List.prefix_append [':', ':'] r).isInfix
    rw [scopePieces.eq_3 _ _ hc, ih h.tail]
    rfl

/-- Tight pieces are found again in the text that they make up. -/
theorem Tight.scopePieces_joinScopes (h : Tight (w :: ws)) :
    scopePieces (joinScopes (w :: ws)) = w :: ws := by
  induction ws generalizing w with
  | nil => rw [joinScopes_singleton, Unbroken.scopePieces_eq h]
  | cons v ws ih => rw [joinScopes_cons_cons, h.1.scopePieces_append, ih h.2]

theorem Tight.filter_scopePieces (h : Tight ws) (hne : ∀ w ∈ ws, w ≠ []) :
    (scopePieces (joinScopes ws)).filter (· ≠ []) = ws := by
  cases ws with
  | nil => rfl
  | cons w ws =>
    rw [h.scopePieces_joinScopes, List.filter_eq_self]
    simpa using hne

theorem Tight.not_prefix_joinScopes (h : Tight ws) (hne : ∀ w ∈ ws, w ≠ []) :
    ¬ [':', ':'] <+: joinScopes ws := by
  cases ws with
  | nil => decide
  | cons w ws =>
    cases ws with
    | nil => exact fun hfront => h (by simpa using hfront.isInfix)
    | cons v ws =>
      intro hfront
      have hlength : 1 ≤ w.length := List.length_pos_iff.mpr (hne w List.mem_cons_self)
      refine h.1 (List.prefix_of_prefix_length_le hfront ?_ ?_).isInfix
      · rw [joinScopes_cons_cons]
        exact ⟨':' :: joinScopes (v :: ws), by simp⟩
      · simp only [List.length_append, List.length_cons, List.length_nil]
        omega

theorem cutLastScope_eq_none_iff : cutLastScope s = none ↔ Unbroken s := by
  induction s with
  | nil => exact ⟨fun _ => by decide, fun _ => rfl⟩
  | cons c r ih =>
    unfold cutLastScope
    split
    · rename_i hr
      rw [hr] at ih
      exact ⟨nofun, fun h => absurd h.tail fun hr => nomatch ih.mpr hr⟩
    · rename_i hr
      have hunbroken := ih.mp hr
      split
      · rename_i after
        exact ⟨nofun, fun h => absurd (List.prefix_append [':', ':'] after).isInfix h⟩
      · rename_i hc
        refine ⟨fun _ => hunbroken.cons ?_, fun _ => rfl⟩
        rintro rfl ⟨after, rfl⟩
        exact hc after rfl rfl

/-- The last `::` is the one behind which there is no other, not even one that overlaps it. -/
theorem cutLastScope_eq_some_iff :
    cutLastScope s = some (b, a) ↔ s = b ++ ':' :: ':' :: a ∧ Unbroken (':' :: a) := by
  constructor
  · intro h
    induction s generalizing b with
    | nil => cases h
    | cons c r ih =>
      unfold cutLastScope at h
      split at h
      · rename_i before after hr
        cases h
        obtain ⟨rfl, hlast⟩ := ih hr
        exact ⟨rfl, hlast⟩
      · rename_i hr
        split at h
        · cases h
          exact ⟨rfl, cutLastScope_eq_none_iff.mp hr⟩
        · cases h
  · rintro ⟨rfl, hlast⟩
    induction b with
    | nil => rw [List.nil_append, cutLastScope, cutLastScope_eq_none_iff.mpr hlast]
    | cons c b ih =>
      rw [List.cons_append]
      unfold cutLastScope
      rw [ih]

end Text

end MaterialModules
