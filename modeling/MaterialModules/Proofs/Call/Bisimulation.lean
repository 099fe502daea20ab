import MaterialModules.Proofs.Call.Queue

/-!
Two analyses that run side by side. If the demands of two registries match such that what follows from
matching demands matches again, in whatever order, the analyses give the same answer or fail together.
-/

set_option autoImplicit false

namespace MaterialModules

/-- Both fail, or both give demands that match, each one of either side. -/
inductive MatchingDemands (same : Demand → Demand → Prop) :
    Except UniformError (List Demand) → Except UniformError (List Demand) → Prop
  | fail (err : UniformError) : MatchingDemands same (.error err) (.error err)
  | lead {ds ds' : List Demand} (forth : ∀ x ∈ ds, ∃ x' ∈ ds', same x x')
      (back : ∀ x' ∈ ds', ∃ x ∈ ds, same x x') : MatchingDemands same (.ok ds) (.ok ds')

variable {same : Demand → Demand → Prop}

theorem MatchingDemands.flip {x y : Except UniformError (List Demand)} (h : MatchingDemands same x y) :
    MatchingDemands (flip same) y x := by
  cases h with
  | fail err => exact .fail err
  | lead forth back => exact .lead back forth

namespace Registry

variable {r r' : Registry} {a a' d d' : Demand}

def Bisimulation (r r' : Registry) (same : Demand → Demand → Prop) : Prop :=
  ∀ d d', same d d' → MatchingDemands same (r.demandsOf d) (r'.demandsOf d')

theorem Bisimulation.flip (h : r.Bisimulation r' same) : r'.Bisimulation r (flip same) :=
  fun d' d hd => (h d d' hd).flip

theorem Bisimulation.of_fine (h : r.Bisimulation r' same) (hd : same d d')
    (fine : ∀ err, ¬ r.Fault d err) :
    (∀ err, ¬ r'.Fault d' err) ∧
    (∀ x, r.Follows d x → ∃ x', r'.Follows d' x' ∧ same x x') ∧
    ∀ x', r'.Follows d' x' → ∃ x, r.Follows d x ∧ same x x' := by
  have hstep := h d d' hd
  generalize hds : r.demandsOf d = following at hstep
  generalize hds' : r'.demandsOf d' = following' at hstep
  cases hstep with
  | fail err => exact absurd (demandsOf_eq_error_iff.mp hds) (fine err)
  | lead forth back =>
    refine ⟨fun err herr => ?_, fun x hx => ?_, fun x' hx' => ?_⟩
    · rw [herr.demandsOf_eq] at hds'
      cases hds'
    · obtain ⟨x', hx', hsame⟩ := forth x ((mem_demandsOf_iff hds).mpr hx)
      exact ⟨x', (mem_demandsOf_iff hds').mp hx', hsame⟩
    · obtain ⟨x, hx, hsame⟩ := back x' ((mem_demandsOf_iff hds').mpr hx')
      exact ⟨x, (mem_demandsOf_iff hds).mp hx, hsame⟩

theorem Bisimulation.reach (h : r.Bisimulation r' same) (ha : same a a')
    (fine : ∀ d err, r.Reach a d → ¬ r.Fault d err) {x : Demand} (hx : r.Reach a x) :
    ∃ x', r'.Reach a' x' ∧ same x x' := by
  induction hx with
  | refl => exact ⟨a', .refl, ha⟩
  | tail hy hstep ih =>
    obtain ⟨y', hy', hsame⟩ := ih
    obtain ⟨z', hz', hsame⟩ := (h.of_fine hsame fun err => fine _ err hy).2.1 _ hstep
    exact ⟨z', hy'.tail hz', hsame⟩

theorem Bisimulation.reach_back (h : r.Bisimulation r' same) (ha : same a a')
    (fine : ∀ d err, r.Reach a d → ¬ r.Fault d err) {x' : Demand} (hx' : r'.Reach a' x') :
    ∃ x, r.Reach a x ∧ same x x' := by
  induction hx' with
  | refl => exact ⟨a, .refl, ha⟩
  | tail _ hstep ih =>
    obtain ⟨y, hy, hsame⟩ := ih
    obtain ⟨z, hz, hsame⟩ := (h.of_fine hsame fun err => fine _ err hy).2.2 _ hstep
    exact ⟨z, hy.tail hz, hsame⟩

theorem Bisimulation.mustBeUniform_ok (h : r.Bisimulation r' same)
    {root root' target target' : Expression} {uniform uniform' required : Bool}
    (hroot : same ⟨root, uniform⟩ ⟨root', uniform'⟩)
    (htarget : ∀ x x', same x x' → (x = ⟨target, true⟩ ↔ x' = ⟨target', true⟩))
    (hok : r.mustBeUniform root uniform target = .ok required) :
    r'.mustBeUniform root' uniform' target' = .ok required := by
  rcases r.mustBeUniform_spec root uniform target with ⟨_, hrun, hreach, fine⟩ | ⟨err, d, hrun, -⟩
  · rw [hok] at hrun
    cases hrun
    rcases r'.mustBeUniform_spec root' uniform' target' with
      ⟨required', hrun', hreach', -⟩ | ⟨err, d', -, hd', hfault⟩
    · have hiff : required = true ↔ required' = true := by
        rw [hreach, hreach']
        constructor
        · intro hx
          obtain ⟨x', hx', hsame⟩ := h.reach hroot fine hx
          rwa [(htarget _ _ hsame).mp rfl] at hx'
        · intro hx'
          obtain ⟨x, hx, hsame⟩ := h.reach_back hroot fine hx'
          rwa [(htarget _ _ hsame).mpr rfl] at hx
      rw [hrun', Bool.eq_iff_iff.mpr hiff]
    · -- a fault of the second analysis would be one of the first
      obtain ⟨d, hd, hsame⟩ := h.reach_back hroot fine hd'
      exact absurd hfault ((h.of_fine hsame fun err => fine d err hd).1 err)
  · rw [hok] at hrun
    cases hrun

/-- Two analyses that start at matching demands both give the same answer, or both fail. -/
theorem Bisimulation.mustBeUniform (h : r.Bisimulation r' same)
    {root root' target target' : Expression} {uniform uniform' : Bool}
    (hroot : same ⟨root, uniform⟩ ⟨root', uniform'⟩)
    (htarget : ∀ x x', same x x' → (x = ⟨target, true⟩ ↔ x' = ⟨target', true⟩)) :
    (∃ required, r.mustBeUniform root uniform target = .ok required ∧
      r'.mustBeUniform root' uniform' target' = .ok required) ∨
    ∃ err err', r.mustBeUniform root uniform target = .error err ∧
      r'.mustBeUniform root' uniform' target' = .error err' := by
  cases hrun : r.mustBeUniform root uniform target with
  | ok required => exact .inl ⟨required, rfl, h.mustBeUniform_ok hroot htarget hrun⟩
  | error err =>
    cases hrun' : r'.mustBeUniform root' uniform' target' with
    | error err' => exact .inr ⟨err, err', rfl, rfl⟩
    | ok required =>
      have hok := h.flip.mustBeUniform_ok hroot (fun x' x hsame => (htarget x x' hsame).symm) hrun'
      rw [hrun] at hok
      cases hok

end Registry

end MaterialModules
