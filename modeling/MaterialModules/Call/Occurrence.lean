import MaterialModules.Call.Demand

set_option autoImplicit false

namespace MaterialModules

namespace Expression

mutual

/-- An expression and what stands inside it. Stored calls are not looked into. -/
def parts : Expression → List Expression
  | constant l t v => [constant l t v]
  | call l t target => [call l t target]
  | direct l t d args => direct l t d args :: partsOfAll args
  | parameter l t i => [parameter l t i]
  | temporary l t i => [temporary l t i]
termination_by structural e => e

def partsOfAll : List (String × Expression) → List Expression
  | [] => []
  | (_, e) :: rest => parts e ++ partsOfAll rest
termination_by structural es => es

end

theorem mem_parts_self (e : Expression) : e ∈ e.parts := by
  cases e <;> simp [parts]

theorem mem_partsOfAll {n : String} {e x : Expression} {args : List (String × Expression)}
    (hx : x ∈ e.parts) (he : (n, e) ∈ args) : x ∈ partsOfAll args := by
  induction args with
  | nil => cases he
  | cons a rest ih =>
    rcases List.mem_cons.mp he with rfl | h
    · exact List.mem_append_left _ hx
    · exact List.mem_append_right _ (ih h)

mutual

theorem mem_parts_of_argument {l : Nat} {t : Ty} {d : Tag} {args : List (String × Expression)}
    {n : String} {x : Expression} (hx : (n, x) ∈ args) :
    (e : Expression) → direct l t d args ∈ e.parts → x ∈ e.parts
  | constant _ _ _, h | call _ _ _, h | parameter _ _ _, h | temporary _ _ _, h => by
    simp [parts] at h
  | direct _ _ _ as, h => by
    rcases List.mem_cons.mp h with h | h
    · cases h
      exact List.mem_cons_of_mem _ (mem_partsOfAll (mem_parts_self x) hx)
    · exact List.mem_cons_of_mem _ (mem_partsOfAll_of_argument hx as h)

theorem mem_partsOfAll_of_argument {l : Nat} {t : Ty} {d : Tag} {args : List (String × Expression)}
    {n : String} {x : Expression} (hx : (n, x) ∈ args) :
    (as : List (String × Expression)) → direct l t d args ∈ partsOfAll as → x ∈ partsOfAll as
  | [], h => by simp [partsOfAll] at h
  | (_, e) :: rest, h => by
    rcases List.mem_append.mp h with h | h
    · exact List.mem_append_left _ (mem_parts_of_argument hx e h)
    · exact List.mem_append_right _ (mem_partsOfAll_of_argument hx rest h)

end

end Expression

namespace Element

def occurrences : Element → List Expression
  | call c => Expression.partsOfAll c.arguments
  | _ => []

end Element

namespace Registry

def occurrences (r : Registry) (root : Expression) : List Expression :=
  root.parts ++ r.records.flatMap fun (_, x) => x.element.occurrences

theorem root_mem_occurrences (r : Registry) (root : Expression) : root ∈ r.occurrences root :=
  List.mem_append_left _ (Expression.mem_parts_self root)

theorem mem_occurrences_of_call {r : Registry} {t : Tag} {c : StoredCall} (hc : r.call? t = some c)
    {n : String} {x : Expression} (hx : (n, x) ∈ c.arguments) (root : Expression) :
    x ∈ r.occurrences root := by
  unfold call? element? at hc
  cases hr : r.record? t with
  | none => simp [hr] at hc
  | some record =>
    have he : record.element = .call c := by
      cases h : record.element <;> simp_all
    refine List.mem_append_right _ (List.mem_flatMap.mpr ⟨(t, record), Table.mem_of_get? hr, ?_⟩)
    simp only [he]
    exact Expression.mem_partsOfAll (Expression.mem_parts_self x) hx

theorem mem_occurrences_of_argument {r : Registry} {root : Expression} {l : Nat} {t : Ty} {d : Tag}
    {args : List (String × Expression)} (h : Expression.direct l t d args ∈ r.occurrences root)
    {n : String} {x : Expression} (hx : (n, x) ∈ args) : x ∈ r.occurrences root := by
  rcases List.mem_append.mp h with h | h
  · exact List.mem_append_left _ (Expression.mem_parts_of_argument hx root h)
  · obtain ⟨entry, hentry, h⟩ := List.mem_flatMap.mp h
    refine List.mem_append_right _ (List.mem_flatMap.mpr ⟨entry, hentry, ?_⟩)
    cases he : entry.2.element with
    | call c =>
      simp only [he, Element.occurrences] at h ⊢
      exact Expression.mem_partsOfAll_of_argument hx _ h
    | _ => simp [he, Element.occurrences] at h

end Registry

theorem Definition.mem_of_mem_demands {f : Definition} {type : Ty} {uniform : Bool} {args : Arguments}
    {ds : List Demand} (h : f.demands type uniform args = .ok ds) {d : Demand} (hd : d ∈ ds) :
    ∃ n, (n, d.expression) ∈ args := by
  simp only [demands] at h
  split at h
  · cases h
  · cases h
    obtain ⟨i, hi, rfl⟩ := List.mem_mapIdx.mp hd
    exact ⟨args[i].1, List.getElem_mem hi⟩

theorem Registry.mem_occurrences_of_demandsOf {r : Registry} {root : Expression} {d : Demand}
    {ds : List Demand} (hd : d.expression ∈ r.occurrences root) (h : r.demandsOf d = .ok ds)
    {x : Demand} (hx : x ∈ ds) : x.expression ∈ r.occurrences root := by
  unfold demandsOf at h
  split at h
  · cases h; cases hx
  · split at h
    · cases h
    · rename_i c hc
      split at h
      · split at h <;> cases h
        cases hx
      · split at h
        · cases h
        · obtain ⟨_, hn⟩ := Definition.mem_of_mem_demands h hx
          exact r.mem_occurrences_of_call hc hn root
  · rename_i he
    split at h
    · cases h
    · split at h
      · cases h
      · obtain ⟨_, hn⟩ := Definition.mem_of_mem_demands h hx
        exact r.mem_occurrences_of_argument (he ▸ hd) hn
  · cases h

end MaterialModules
