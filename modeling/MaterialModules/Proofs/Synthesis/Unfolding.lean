import MaterialModules.Proofs.Call.Acyclic
import MaterialModules.Proofs.Synthesis.Mentioning
import MaterialModules.Synthesis.Promotion

set_option autoImplicit false

namespace MaterialModules

open Mentioning (Refines)

namespace Definition

theorem callSource_refines (d : Definition) {operand operand' : Nat → Mentioning Source.Expr}
    {all all' : Unit → Mentioning (List (String × Source.Expr))}
    (hone : ∀ i, (operand i).Refines (operand' i)) (hall : (all ()).Refines (all' ())) :
    (d.callSource operand all).Refines (d.callSource operand' all') := by
  unfold callSource
  extract_lets rest rest'
  have hrest : (rest ()).Refines (rest' ()) := by
    simp only [rest, rest']
    split
    · split
      · exact (hone 0).bind fun _ => (hone 1).bind fun _ => .refl _
      · split
        · exact (hone 0).bind fun _ => .refl _
        · exact (hone 0).bind fun _ => .refl _
        · exact (hone 0).bind fun _ => .refl _
        · exact (hone 0).bind fun _ => (hone 1).bind fun _ => (hone 2).bind fun _ => .refl _
        · exact (hone 0).bind fun _ => .refl _
        · exact hone 0
    · exact (hone 0).bind fun _ => .refl _
    · exact (hone 0).bind fun _ => (hone 1).bind fun _ => .refl _
    · split
      · exact (Refines.refl _).bind fun _ => hall.bind fun _ => .refl _
      · exact .refl _
    · exact hall.bind fun _ => .refl _
  split
  · exact (Refines.refl _).bind fun _ => hrest
  · exact (Refines.refl _).bind fun _ => hrest
  · exact hrest

end Definition

namespace Registry

variable {r : Registry}

section Congruence

variable {ps : Promotions} {stored stored' : Tag → Mentioning Source.Expr}

mutual

theorem sourceAmong_congr : (e : Expression) →
    (∀ l ty t, Expression.call l ty t ∈ e.parts → stored t = stored' t) →
    r.sourceAmong ps stored e = r.sourceAmong ps stored' e
  | .constant _ _ _, _ | .parameter _ _ _, _ | .temporary _ _ _, _ => rfl
  | .call l ty t, h => by
    have ht := h l ty t (Expression.mem_parts_self _)
    simp only [sourceAmong, ht]
  | .direct l ty t args, h => by
    have hargs : ∀ l ty t, Expression.call l ty t ∈ Expression.partsOfAll args →
        stored t = stored' t := fun l ty t ht => h l ty t (List.mem_cons_of_mem _ ht)
    have hall := argumentSources_congr args hargs
    have hone : ∀ w i, r.operandSource ps stored w i args = r.operandSource ps stored' w i args :=
      fun w i => operandSource_congr args w i hargs
    simp only [sourceAmong, hall, hone]

theorem argumentSources_congr : (args : Arguments) →
    (∀ l ty t, Expression.call l ty t ∈ Expression.partsOfAll args → stored t = stored' t) →
    r.argumentSources ps stored args = r.argumentSources ps stored' args
  | [], _ => rfl
  | (_, e) :: rest, h => by
    have he := sourceAmong_congr e fun l ty t ht => h l ty t (List.mem_append_left _ ht)
    have hrest := argumentSources_congr rest fun l ty t ht => h l ty t (List.mem_append_right _ ht)
    simp only [argumentSources, he, hrest]

theorem operandSource_congr : (args : Arguments) → (w i : Nat) →
    (∀ l ty t, Expression.call l ty t ∈ Expression.partsOfAll args → stored t = stored' t) →
    r.operandSource ps stored w i args = r.operandSource ps stored' w i args
  | [], _, _, _ => rfl
  | (_, e) :: _, _, 0, h =>
    sourceAmong_congr e fun l ty t ht => h l ty t (List.mem_append_left _ ht)
  | _ :: rest, w, i + 1, h =>
    operandSource_congr rest w i fun l ty t ht => h l ty t (List.mem_append_right _ ht)

end

end Congruence

section Refinement

variable {ps : Promotions} {stored stored' : Tag → Mentioning Source.Expr}

theorem replacing_refines {e : Expression} {plain plain' : Unit → Mentioning Source.Expr}
    (h : (plain ()).Refines (plain' ())) : (ps.replacing e plain).Refines (ps.replacing e plain') := by
  unfold Promotions.replacing
  split
  · exact .refl _
  · exact h

mutual

theorem sourceAmong_refines (h : ∀ t, (stored t).Refines (stored' t)) : (e : Expression) →
    (r.sourceAmong ps stored e).Refines (r.sourceAmong ps stored' e)
  | .constant _ _ _ | .parameter _ _ _ | .temporary _ _ _ => .refl _
  | .call _ _ t => replacing_refines (h t)
  | .direct l ty t args => by
    simp only [sourceAmong]
    refine replacing_refines ?_
    cases r.definition? t with
    | none => exact .refl _
    | some d =>
      exact d.callSource_refines (fun i => operandSource_refines h args i i)
        (argumentSources_refines h args)

theorem argumentSources_refines (h : ∀ t, (stored t).Refines (stored' t)) : (args : Arguments) →
    (r.argumentSources ps stored args).Refines (r.argumentSources ps stored' args)
  | [] => .refl _
  | (_, e) :: rest =>
    (sourceAmong_refines h e).bind fun _ => (argumentSources_refines h rest).bind fun _ => .refl _

theorem operandSource_refines (h : ∀ t, (stored t).Refines (stored' t)) : (args : Arguments) →
    (w i : Nat) → (r.operandSource ps stored w i args).Refines (r.operandSource ps stored' w i args)
  | [], _, _ => .refl _
  | (_, e) :: _, _, 0 => sourceAmong_refines h e
  | _ :: rest, w, i + 1 => operandSource_refines h rest w i

end

end Refinement

theorem storedSource_refines (ps : Promotions) {depth depth' : Nat} {enclosing enclosing' : List Tag}
    (hdepth : depth ≤ depth') (habove : ∀ u ∈ enclosing', u ∈ enclosing) (t : Tag) :
    (r.storedSource ps depth enclosing t).Refines (r.storedSource ps depth' enclosing' t) := by
  induction depth generalizing depth' enclosing enclosing' t with
  | zero => exact Mentioning.refines_fail _ _
  | succ depth ih =>
    cases depth' with
    | zero => omega
    | succ depth' =>
      rw [storedSource, storedSource]
      by_cases ht : t ∈ enclosing
      · rw [if_pos ht]
        exact Mentioning.refines_fail _ _
      · rw [if_neg ht, if_neg fun h => ht (habove t h)]
        cases r.call? t with
        | none => exact .refl _
        | some c =>
          have hbelow : ∀ u, (r.storedSource ps depth (t :: enclosing) u).Refines
              (r.storedSource ps depth' (t :: enclosing') u) :=
            ih (by omega) fun u hu => List.mem_cons.mpr ((List.mem_cons.mp hu).imp_right (habove u))
          cases hd : r.definition? c.definition with
          | none =>
            simp only [hd]
            exact .refl _
          | some d =>
            simp only [hd]
            exact d.callSource_refines (fun i => operandSource_refines hbelow c.arguments i i)
              (argumentSources_refines hbelow c.arguments)

open Classical in
noncomputable def downward (r : Registry) (t : Tag) : Finset Tag :=
  (r.records.map (·.1)).toFinset.filter fun u => Relation.ReflTransGen r.Calls t u

theorem mem_downward {t u : Tag} :
    u ∈ r.downward t ↔ u ∈ r.records.map (·.1) ∧ Relation.ReflTransGen r.Calls t u := by
  simp only [downward, Finset.mem_filter, List.mem_toFinset]

theorem Acyclic.card_downward_lt (h : r.Acyclic) {t u : Tag} (htu : r.Calls t u) :
    (r.downward u).card < (r.downward t).card := by
  apply Finset.card_lt_card
  refine Finset.ssubset_iff_subset_ne.mpr ⟨fun v hv => ?_, fun heq => ?_⟩
  · obtain ⟨hkey, huv⟩ := mem_downward.mp hv
    exact mem_downward.mpr ⟨hkey, Relation.ReflTransGen.head htu huv⟩
  · have hkey : t ∈ r.records.map (·.1) := by
      obtain ⟨c, hc, -⟩ := htu
      exact mem_keys_of_call hc
    have ht : t ∈ r.downward t := mem_downward.mpr ⟨hkey, .refl⟩
    rw [← heq] at ht
    exact h t (Relation.TransGen.head' htu (mem_downward.mp ht).2)

theorem card_downward_le (r : Registry) (t : Tag) : (r.downward t).card ≤ r.size := by
  have hsubset : r.downward t ⊆ (r.records.map (·.1)).toFinset := fun u hu =>
    List.mem_toFinset.mpr (mem_downward.mp hu).1
  have hkeys := List.toFinset_card_le (r.records.map (·.1))
  rw [List.length_map] at hkeys
  exact (Finset.card_le_card hsubset).trans hkeys

theorem Acyclic.storedSource_congr (h : r.Acyclic) (ps : Promotions) (depth depth' : Nat)
    (enclosing enclosing' : List Tag) (t : Tag) (hdepth : (r.downward t).card < depth)
    (hdepth' : (r.downward t).card < depth')
    (habove : ∀ u ∈ enclosing, Relation.TransGen r.Calls u t)
    (habove' : ∀ u ∈ enclosing', Relation.TransGen r.Calls u t) :
    r.storedSource ps depth enclosing t = r.storedSource ps depth' enclosing' t := by
  -- everything around a call leads to it, so it cannot come up again, and below it there is less to go
  induction depth generalizing depth' enclosing enclosing' t with
  | zero => omega
  | succ depth ih =>
    cases depth' with
    | zero => omega
    | succ depth' =>
      have hout : t ∉ enclosing := fun ht => h t (habove t ht)
      have hout' : t ∉ enclosing' := fun ht => h t (habove' t ht)
      rw [storedSource, storedSource, if_neg hout, if_neg hout']
      cases hc : r.call? t with
      | none => rfl
      | some c =>
        have hbelow : ∀ l ty u, Expression.call l ty u ∈ Expression.partsOfAll c.arguments →
            r.storedSource ps depth (t :: enclosing) u =
              r.storedSource ps depth' (t :: enclosing') u := by
          intro l ty u hu
          have htu : r.Calls t u := ⟨c, hc, l, ty, hu⟩
          have hless := h.card_downward_lt htu
          have hup : ∀ vs : List Tag, (∀ v ∈ vs, Relation.TransGen r.Calls v t) →
              ∀ v ∈ t :: vs, Relation.TransGen r.Calls v u := by
            intro vs hvs v hv
            rcases List.mem_cons.mp hv with rfl | hv
            · exact .single htu
            · exact (hvs v hv).tail htu
          exact ih depth' (t :: enclosing) (t :: enclosing') u (by omega) (by omega)
            (hup enclosing habove) (hup enclosing' habove')
        simp only [argumentSources_congr c.arguments hbelow,
          operandSource_congr c.arguments _ _ hbelow]

def operandAt (r : Registry) (ps : Promotions) (args : Arguments) (i : Nat) : Mentioning Source.Expr :=
  match args[i]? with
  | some (_, e) => r.source ps e
  | none => .fail (.conversion (.missingOperand i))

theorem operandSource_eq (ps : Promotions) (args : Arguments) (w i : Nat) :
    r.operandSource ps (r.storedSource ps (r.size + 1) []) w i args =
      match args[i]? with
      | some (_, e) => r.source ps e
      | none => .fail (.conversion (.missingOperand w)) := by
  induction args generalizing i with
  | nil => rfl
  | cons a rest ih =>
    cases i with
    | zero => rfl
    | succ i => exact ih i

theorem argumentSources_eq (ps : Promotions) (args : Arguments) :
    r.argumentSources ps (r.storedSource ps (r.size + 1) []) args = r.promotedArguments ps args := by
  induction args with
  | nil => rfl
  | cons a rest ih =>
    rw [argumentSources, ih]
    rfl

/-- A stored call reads like any other one, wherever it stands. -/
theorem Acyclic.storedSource_eq (h : r.Acyclic) (ps : Promotions) {t : Tag} {c : StoredCall}
    (hc : r.call? t = some c) :
    r.storedSource ps (r.size + 1) [] t =
      match r.definition? c.definition with
      | none => .fail (.internal (.missingDefinition c.definition))
      | some d => d.callSource (r.operandAt ps c.arguments) fun _ => r.promotedArguments ps c.arguments := by
  have hsize := r.card_downward_le t
  have hbelow : ∀ l ty u, Expression.call l ty u ∈ Expression.partsOfAll c.arguments →
      r.storedSource ps r.size [t] u = r.storedSource ps (r.size + 1) [] u := by
    intro l ty u hu
    have htu : r.Calls t u := ⟨c, hc, l, ty, hu⟩
    have hless := h.card_downward_lt htu
    refine h.storedSource_congr ps _ _ _ _ u (by omega) (by omega) (fun v hv => ?_) (by simp)
    cases List.mem_singleton.mp hv
    exact .single htu
  rw [storedSource, if_neg List.not_mem_nil, hc]
  simp only [argumentSources_congr c.arguments hbelow, operandSource_congr c.arguments _ _ hbelow,
    operandSource_eq, argumentSources_eq]
  rfl

theorem source_direct (r : Registry) {ps : Promotions} {l : Nat} {ty : Ty} {t : Tag} {args : Arguments}
    (h : ps.name? (.direct l ty t args) = none) :
    r.source ps (.direct l ty t args) =
      match r.definition? t with
      | none => .fail (.internal (.missingDefinition t))
      | some d => d.callSource (r.operandAt ps args) fun _ => r.promotedArguments ps args := by
  simp only [source, sourceAmong, Promotions.replacing, h, operandSource_eq, argumentSources_eq]
  rfl

end Registry

end MaterialModules
