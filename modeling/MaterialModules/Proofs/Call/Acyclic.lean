import MaterialModules.Call.Occurrence
import MaterialModules.Call.Path
import Mathlib.Data.Fintype.EquivFin
import Mathlib.Data.Set.Finite.List
import Mathlib.Logic.Relation
import Mathlib.Order.WellFounded

set_option autoImplicit false

namespace MaterialModules

namespace Registry

def Calls (r : Registry) (t u : Tag) : Prop :=
  ∃ c, r.call? t = some c ∧ ∃ l ty, Expression.call l ty u ∈ Expression.partsOfAll c.arguments

/-- No stored call leads back to itself. -/
def Acyclic (r : Registry) : Prop := ∀ t, ¬ Relation.TransGen r.Calls t t

def Argument (r : Registry) (x e : Expression) : Prop :=
  ∃ args n, r.argumentsOf? e = some args ∧ (n, x) ∈ args

/-- An occurrence that the arguments of `root` lead to, those of stored calls among them. -/
def Below (r : Registry) (root : Expression) : Expression → Prop :=
  Relation.ReflTransGen (fun e x => r.Argument x e) root

theorem Below.mem_occurrences {r : Registry} {root e : Expression} (h : r.Below root e) :
    e ∈ r.occurrences root := by
  induction h with
  | refl => exact r.root_mem_occurrences root
  | @tail e x _ hx ih =>
    obtain ⟨args, n, hargs, hx⟩ := hx
    cases e with
    | call l ty t =>
      obtain ⟨c, hc, rfl⟩ := Option.map_eq_some_iff.mp hargs
      exact r.mem_occurrences_of_call hc hx root
    | direct l ty t args' =>
      cases hargs
      exact r.mem_occurrences_of_argument ih hx
    | _ => cases hargs

theorem mem_keys_of_call {r : Registry} {t : Tag} {c : StoredCall} (h : r.call? t = some c) :
    t ∈ r.records.map (·.1) := by
  unfold call? element? record? at h
  cases hr : r.records.get? t with
  | none => simp [hr] at h
  | some x => exact List.mem_map_of_mem (Table.mem_of_get? hr)

theorem Acyclic.wellFounded_calls {r : Registry} (h : r.Acyclic) :
    WellFounded fun u t => r.Calls t u := by
  -- only stored calls lead anywhere, and there are only so many of them
  let Key := {t // t ∈ r.records.map (·.1)}
  have hfinite : Finite Key := List.finite_toSet (r.records.map (·.1)) |>.to_subtype
  have hkeys : WellFounded fun u t : Key => Relation.TransGen r.Calls t.1 u.1 := by
    have : IsTrans Key fun u t => Relation.TransGen r.Calls t.1 u.1 := ⟨fun _ _ _ h₁ h₂ => h₂.trans h₁⟩
    have : Std.Irrefl fun u t : Key => Relation.TransGen r.Calls t.1 u.1 := ⟨fun t => h t.1⟩
    exact Finite.wellFounded_of_trans_of_irrefl _
  -- what is not stored calls nothing
  have hother : ∀ t, t ∉ r.records.map (·.1) → Acc (fun u t => r.Calls t u) t := fun t ht =>
    ⟨_, fun u ⟨c, hc, _⟩ => absurd (mem_keys_of_call hc) ht⟩
  have hkey : ∀ k : Key, Acc (fun u t => r.Calls t u) k.1 := by
    intro k
    induction k using hkeys.induction with
    | h k ih =>
      refine ⟨_, fun u hu => ?_⟩
      by_cases hmem : u ∈ r.records.map (·.1)
      · exact ih ⟨u, hmem⟩ (.single hu)
      · exact hother u hmem
  refine ⟨fun t => ?_⟩
  by_cases hmem : t ∈ r.records.map (·.1)
  · exact hkey ⟨t, hmem⟩
  · exact hother t hmem

mutual

theorem acc_argument_of_parts {r : Registry} : (e : Expression) →
    (∀ l ty t, Expression.call l ty t ∈ e.parts → Acc r.Argument (.call l ty t)) → Acc r.Argument e
  | .call l ty t, h => h l ty t (Expression.mem_parts_self _)
  | .direct _ _ _ args, h => by
    refine ⟨_, fun x ⟨as, n, has, hx⟩ => ?_⟩
    cases has
    exact acc_argument_of_partsOfAll args
      (fun l ty t ht => h l ty t (List.mem_cons_of_mem _ ht)) n x hx
  | .constant _ _ _, _ | .parameter _ _ _, _ | .temporary _ _ _, _ =>
    ⟨_, fun x ⟨as, n, has, _⟩ => by cases has⟩

theorem acc_argument_of_partsOfAll {r : Registry} : (args : Arguments) →
    (∀ l ty t, Expression.call l ty t ∈ Expression.partsOfAll args →
      Acc r.Argument (.call l ty t)) →
    ∀ n x, (n, x) ∈ args → Acc r.Argument x
  | [], _, _, _, hx => by cases hx
  | (_, e) :: rest, h, n, x, hx => by
    rcases List.mem_cons.mp hx with hx | hx
    · cases hx
      exact acc_argument_of_parts e fun l ty t ht => h l ty t (List.mem_append_left _ ht)
    · exact acc_argument_of_partsOfAll rest
        (fun l ty t ht => h l ty t (List.mem_append_right _ ht)) n x hx

end

/-- Arguments of arguments come to an end, through stored calls as well. -/
theorem Acyclic.wellFounded_argument {r : Registry} (h : r.Acyclic) : WellFounded r.Argument := by
  have hcall : ∀ t l ty, Acc r.Argument (.call l ty t) := by
    intro t
    induction t using h.wellFounded_calls.induction with
    | h t ih =>
      intro l ty
      refine ⟨_, fun x ⟨args, n, hargs, hx⟩ => ?_⟩
      obtain ⟨c, hc, rfl⟩ := Option.map_eq_some_iff.mp hargs
      exact acc_argument_of_partsOfAll c.arguments
        (fun l' ty' u hu => ih u ⟨c, hc, l', ty', hu⟩ l' ty') n x hx
  exact ⟨fun e => acc_argument_of_parts e fun l ty t _ => hcall t l ty⟩

theorem acyclic_of_decreasing {r : Registry}
    (h : ∀ x ∈ r.records, ∀ l ty u, Expression.call l ty u ∈ x.2.element.occurrences → u.id < x.1.id) :
    r.Acyclic := by
  have hstep : ∀ {t u}, r.Calls t u → u.id < t.id := by
    rintro t u ⟨c, hc, l, ty, hu⟩
    unfold call? element? record? at hc
    cases hr : r.records.get? t with
    | none => simp [hr] at hc
    | some x =>
      refine h (t, x) (Table.mem_of_get? hr) l ty u ?_
      have hx : x.element = .call c := by
        cases hx : x.element <;> simp_all
      simpa only [hx, Element.occurrences] using hu
  have hlt : ∀ {t u}, Relation.TransGen r.Calls t u → u.id < t.id := by
    intro t u htu
    induction htu with
    | single hu => exact hstep hu
    | tail _ hu ih => exact Nat.lt_trans (hstep hu) ih
  exact fun t ht => Nat.lt_irrefl _ (hlt ht)

end Registry

end MaterialModules
