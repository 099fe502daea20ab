import MaterialModules.Call.Callee
import MaterialModules.Call.Occurrence
import MaterialModules.Call.Path

/-!
Whether a uniform value is required of an occurrence inside an argument. Demands are worked off in the
order in which they come up, each of them once: working one off again would lead nowhere new, and calls
may well stand inside themselves.
-/

set_option autoImplicit false

namespace MaterialModules

namespace Registry

def unmet (r : Registry) (root : Expression) (met : List Demand) : List Demand :=
  ((r.occurrences root).flatMap fun e => [⟨e, false⟩, ⟨e, true⟩]).filter fun d => decide (d ∉ met)

/-- Every demand met is one less to meet. -/
theorem length_unmet_cons_lt {r : Registry} {root : Expression} {met : List Demand} {d : Demand}
    (inside : d.expression ∈ r.occurrences root) (h : d ∉ met) :
    (r.unmet root (d :: met)).length < (r.unmet root met).length := by
  have hd : d ∈ r.unmet root met := by
    refine List.mem_filter.mpr ⟨List.mem_flatMap.mpr ⟨d.expression, inside, ?_⟩, by simp [h]⟩
    obtain ⟨e, uniform⟩ := d
    cases uniform <;> simp
  have split : r.unmet root (d :: met) = (r.unmet root met).filter fun x => decide (x ≠ d) := by
    simp [unmet, List.filter_filter, not_or]
  rw [split]
  exact List.length_filter_lt_length_iff_exists.mpr ⟨d, hd, by simp⟩

/-- Works off a queue of demands and gives all demands that are met, the last one first. The first one
that cannot be met decides the error. -/
def meet (r : Registry) (root : Expression) (met queue : List Demand)
    (inside : ∀ d ∈ queue, d.expression ∈ r.occurrences root) : Except UniformError (List Demand) :=
  match queue, inside with
  | [], _ => .ok met
  | d :: rest, inside =>
    if d ∈ met then r.meet root met rest fun x hx => inside x (List.mem_cons_of_mem _ hx)
    else
      match h : r.demandsOf d with
      | .error e => .error e
      | .ok following =>
        r.meet root (d :: met) (rest ++ following) fun x hx =>
          (List.mem_append.mp hx).elim (fun hx => inside x (List.mem_cons_of_mem _ hx))
            (r.mem_occurrences_of_demandsOf (inside d List.mem_cons_self) h)
termination_by ((r.unmet root met).length, queue.length)
decreasing_by
  · exact Prod.Lex.right _ (Nat.lt_succ_self _)
  · exact Prod.Lex.left _ _ (r.length_unmet_cons_lt (inside d List.mem_cons_self) ‹_›)

def demandsFrom (r : Registry) (root : Expression) (uniform : Bool) :
    Except UniformError (List Demand) :=
  r.meet root [] [⟨root, uniform⟩] fun _ h => by
    cases List.mem_singleton.mp h
    exact r.root_mem_occurrences root

/-- Whether a uniform value is required of `target` when `root` stands where it is uniform, or not. -/
def mustBeUniform (r : Registry) (root : Expression) (uniform : Bool) (target : Expression) :
    Except UniformError Bool :=
  (r.demandsFrom root uniform).map fun met => decide (⟨target, true⟩ ∈ met)

/-- The same for a path into the arguments of a callee: the root is the argument that the path starts
with, and its parameter's declaration decides what is required of it. -/
def mustBeUniformAt (r : Registry) (c : Callee) (path : String) (target : Expression) :
    Except UniformError Bool :=
  let name := (pathSteps path).headD path
  match c.arguments.get? name with
  | none => .error (.internal (.missingArgument name))
  | some root => r.mustBeUniform root ((c.parameterType? name).any Ty.isUniform) target

end Registry

end MaterialModules
