import MaterialModules.Name.Identifier
import MaterialModules.Name.Registered

set_option autoImplicit false

namespace MaterialModules.Name

def OfModule (name : String) : Prop := (∃ body, name = "::" ++ body) ∧ '(' ∉ name.toList

def OfEntity (name : String) : Prop := '(' ∈ name.toList

instance : DecidablePred OfEntity := fun name => inferInstanceAs (Decidable ('(' ∈ name.toList))

theorem registered_of_absolute (body : String) :
    registered ("::" ++ body) = "mdl" ++ ("::" ++ body) := by
  have h : [':', ':'].isPrefixOf ("::" ++ body).toList = true := by
    rw [String.toList_append]
    rfl
  unfold registered
  rw [if_pos h]

theorem OfModule.registered_eq {name : String} (h : OfModule name) : registered name = "mdl" ++ name := by
  obtain ⟨⟨body, rfl⟩, -⟩ := h
  exact registered_of_absolute body

theorem OfModule.registered_injective {m n : String} (hm : OfModule m) (hn : OfModule n)
    (h : registered m = registered n) : m = n := by
  rw [hm.registered_eq, hn.registered_eq] at h
  have := congrArg String.toList h
  rw [String.toList_append, String.toList_append] at this
  exact String.toList_inj.mp (List.append_cancel_left this)

theorem paren_mem_registered_iff (name : String) :
    '(' ∈ (registered name).toList ↔ '(' ∈ name.toList := by
  unfold registered
  split <;> simp

theorem OfModule.registered_ne_entity {m n : String} (hm : OfModule m) (hn : OfEntity n) :
    registered n ≠ registered m := by
  intro h
  have hm' := mt (paren_mem_registered_iff m).mp hm.2
  rw [← h] at hm'
  exact hm' ((paren_mem_registered_iff n).mpr hn)

theorem registered_ne_resource (m name : String) : "mdlr::" ++ name ≠ registered m := by
  intro h
  have := congrArg String.toList h
  unfold registered at this
  split at this
  · rename_i habsolute
    obtain ⟨rest, hrest⟩ := List.isPrefixOf_iff_prefix.mp habsolute
    rw [String.toList_append, String.toList_append, ← hrest] at this
    simp at this
  · simp at this

def Relative (name : String) : Prop := ¬ [':', ':'].isPrefixOf name.toList = true

instance : DecidablePred Relative := fun _ => inferInstanceAs (Decidable (¬ _))

/-- The same name, or the name with the leading `::` where it was left out, or without it. -/
inductive Spells : String → String → Prop
  | same (name : String) : Spells name name
  | absolute {body : String} (relative : Relative body) : Spells body ("::" ++ body)
  | relative {body : String} (relative : Relative body) : Spells ("::" ++ body) body

theorem Relative.registered_eq {body : String} (h : Relative body) :
    registered ("::" ++ body) = registered body := by
  rw [registered_of_absolute, registered, if_neg h, ← String.append_assoc]
  rfl

theorem Spells.registered_eq {m n : String} (h : Spells m n) : registered n = registered m := by
  cases h with
  | same => rfl
  | absolute h => exact h.registered_eq
  | relative h => exact h.registered_eq.symm

theorem Relative.isModuleName_eq {body : String} (h : Relative body) (valid : String → Bool) :
    isModuleName valid ("::" ++ body) = isModuleName valid body := by
  have hchars : ("::" ++ body).toList = ':' :: ':' :: body.toList := by
    rw [String.toList_append]
    rfl
  unfold isModuleName
  rw [hchars]
  split
  · -- the leading `::` of the longer name is the one that was put in front
    rename_i r hr
    cases hr
    split
    · rename_i s hs
      simp [Relative, hs] at h
    · rfl
  · rename_i hother
    exact absurd rfl (hother body.toList)

theorem Spells.isModuleName_eq {m n : String} (h : Spells m n) (valid : String → Bool) :
    isModuleName valid n = isModuleName valid m := by
  cases h with
  | same => rfl
  | absolute h => exact h.isModuleName_eq valid
  | relative h => exact (h.isModuleName_eq valid).symm

end MaterialModules.Name
