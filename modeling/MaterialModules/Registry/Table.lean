set_option autoImplicit false

namespace MaterialModules

/-- Entries under distinct keys; their order means nothing. -/
abbrev Table (κ α : Type) := List (κ × α)

namespace Table

variable {κ α : Type} [DecidableEq κ]

def get? (k : κ) : Table κ α → Option α
  | [] => none
  | (j, a) :: r => if j = k then some a else get? k r

def erase (k : κ) (t : Table κ α) : Table κ α := t.filter fun e => !decide (e.1 = k)

def set (k : κ) (a : α) (t : Table κ α) : Table κ α := (k, a) :: t.erase k

@[simp] theorem get?_set_self (k : κ) (a : α) (t : Table κ α) : (t.set k a).get? k = some a := by
  simp [set, get?]

theorem mem_of_get? {k : κ} {a : α} {t : Table κ α} (h : t.get? k = some a) : (k, a) ∈ t := by
  induction t with
  | nil => simp [get?] at h
  | cons e r ih =>
    unfold get? at h
    split at h
    · rename_i hk
      cases h
      exact hk ▸ List.mem_cons_self
    · exact List.mem_cons_of_mem _ (ih h)

theorem get?_of_mem {k : κ} {a : α} {t : Table κ α} (h : (k, a) ∈ t) : ∃ b, t.get? k = some b := by
  induction t with
  | nil => cases h
  | cons e r ih =>
    unfold get?
    by_cases hk : e.1 = k
    · exact ⟨e.2, if_pos hk⟩
    · rw [if_neg hk]
      rcases List.mem_cons.mp h with rfl | h
      · exact absurd rfl hk
      · exact ih h

theorem get?_erase_of_ne {j k : κ} (h : j ≠ k) (t : Table κ α) : (t.erase k).get? j = t.get? j := by
  induction t with
  | nil => rfl
  | cons e r ih =>
    unfold erase at ih ⊢
    by_cases hk : e.1 = k
    · simp [hk, get?, ih, h.symm]
    · by_cases hj : e.1 = j <;> simp [hk, hj, h, get?, ih]

theorem get?_set_of_ne {j k : κ} (h : j ≠ k) (a : α) (t : Table κ α) :
    (t.set k a).get? j = t.get? j := by
  simp [set, get?, h.symm, get?_erase_of_ne h]

end Table

end MaterialModules
