import MaterialModules.Proofs.Call.Queue

/-!
Requiring less. A root that stands where nothing is required leads to the same occurrences as one that
has to be uniform, as far as the material instances let it, and requires no more of any of them: no
answer turns from no to yes and no fault comes up. What can go wrong does not depend on the occurrence
that is asked for.
-/

set_option autoImplicit false

namespace MaterialModules

structure Demand.Weaker (a b : Demand) : Prop where
  expression : a.expression = b.expression
  uniform : a.uniform = true → b.uniform = true

theorem Demand.weaker_false_true (e : Expression) : Demand.Weaker ⟨e, false⟩ ⟨e, true⟩ :=
  ⟨rfl, fun h => by cases h⟩

theorem Demand.Weaker.eq_of_uniform {e : Expression} {b : Demand} (h : Demand.Weaker ⟨e, true⟩ b) :
    b = ⟨e, true⟩ := by
  obtain ⟨e', uniform⟩ := b
  have hexpression : e = e' := h.expression
  have huniform : uniform = true := h.uniform rfl
  rw [hexpression, huniform]

theorem Definition.Requires.mono {f : Definition} {few many : Prop} (h : few → many) {n : String}
    {i : Nat} (hf : f.Requires few n i) : f.Requires many n i := by
  rcases hf with hcondition | ⟨hvarying, hrequired⟩
  · exact .inl hcondition
  · exact .inr ⟨hvarying, hrequired.imp_left h⟩

namespace Registry

variable {r : Registry} {a b x : Demand}

theorem Follows.strengthen (h : r.Follows a x) (hab : a.Weaker b) :
    ∃ y, r.Follows b y ∧ x.Weaker y := by
  obtain ⟨e, strong⟩ := b
  cases h with
  | @argument _ x f args weak required n i call place requires =>
    cases (hab.expression : _ = e)
    -- the same argument, with what the stronger demand requires of it
    let ofAll := strong && !e.type.isUniform
    refine ⟨⟨x, f.argumentRequired ofAll n i⟩, .argument call place ?_, rfl, fun hx => ?_⟩
    · rw [f.argumentRequired_iff]
      simp [ofAll]
    · rw [f.argumentRequired_iff]
      refine (requires.mp hx).mono fun ⟨hweak, htype⟩ => ?_
      have hstrong : strong = true := hab.uniform hweak
      simp [ofAll, hstrong, htype]

/-- Step by step, what the weaker demand leads to stays below something that the stronger one leads to. -/
theorem Reach.strengthen (h : r.Reach a x) (hab : a.Weaker b) : ∃ y, r.Reach b y ∧ x.Weaker y := by
  induction h with
  | refl => exact ⟨b, .refl, hab⟩
  | tail _ hstep ih =>
    obtain ⟨y, hy, hweaker⟩ := ih
    obtain ⟨z, hz, hweaker⟩ := hstep.strengthen hweaker
    exact ⟨z, hy.tail hz, hweaker⟩

theorem Fault.strengthen {err : UniformError} (h : r.Fault a err) (hab : a.Weaker b) :
    r.Fault b err := by
  obtain ⟨e, strong⟩ := b
  cases (hab.expression : _ = e)
  cases h with
  | parameter l ty i _ => exact .parameter l ty i strong
  | temporary l ty i _ => exact .temporary l ty i strong
  | notACall missing => exact .notACall missing
  | storedWithoutDefinition call kind missing => exact .storedWithoutDefinition call kind missing
  | materialInstance call kind =>
    cases (hab.uniform rfl : strong = true)
    exact .materialInstance call kind
  | directWithoutDefinition missing => exact .directWithoutDefinition missing
  | directMaterial definition kind => exact .directMaterial definition kind
  | notUniform call type function =>
    cases (hab.uniform rfl : strong = true)
    exact .notUniform call type function

theorem mustBeUniform_ok_of_weaker {root target : Expression} {weak strong required : Bool}
    (hle : Demand.Weaker ⟨root, weak⟩ ⟨root, strong⟩)
    (h : r.mustBeUniform root strong target = .ok required) :
    ∃ required', r.mustBeUniform root weak target = .ok required' ∧
      (required' = true → required = true) := by
  rcases r.mustBeUniform_spec root strong target with ⟨_, hrun, hreach, hfine⟩ | ⟨err, d, hrun, -⟩
  · rw [h] at hrun
    cases hrun
    rcases r.mustBeUniform_spec root weak target with ⟨required', hrun', hreach', -⟩ | ⟨err, d, -, hd, hfault⟩
    · -- a uniform demand on the target stays below nothing but itself
      refine ⟨required', hrun', fun hrequired => hreach.mpr ?_⟩
      obtain ⟨y, hy, hweaker⟩ := (hreach'.mp hrequired).strengthen hle
      rwa [hweaker.eq_of_uniform] at hy
    · obtain ⟨y, hy, hweaker⟩ := hd.strengthen hle
      exact absurd (hfault.strengthen hweaker) (hfine y err hy)
  · rw [h] at hrun
    cases hrun

theorem mustBeUniform_eq_error_iff_demandsFrom {root target : Expression} {uniform : Bool}
    {err : UniformError} :
    r.mustBeUniform root uniform target = .error err ↔ r.demandsFrom root uniform = .error err := by
  unfold mustBeUniform
  cases r.demandsFrom root uniform <;> simp [Except.map]

/-- The analysis is monotone in what is required of the root: if it answers where a uniform value is
required it answers where none is, and says that the target has to be uniform only if it said so before.
Whether it answers, and the failure if it does not, are the same for all targets. -/
theorem mustBeUniform_monotone (r : Registry) (root target : Expression) :
    (∀ required, r.mustBeUniform root true target = .ok required →
      ∃ required', r.mustBeUniform root false target = .ok required' ∧
        (required' = true → required = true)) ∧
    ∀ (uniform : Bool) (other : Expression),
      ((∃ required, r.mustBeUniform root uniform target = .ok required) ↔
        ∃ required, r.mustBeUniform root uniform other = .ok required) ∧
      ∀ err, r.mustBeUniform root uniform target = .error err ↔
        r.mustBeUniform root uniform other = .error err := by
  refine ⟨fun required h => mustBeUniform_ok_of_weaker (Demand.weaker_false_true root) h,
    fun uniform other => ⟨?_, fun err => ?_⟩⟩
  · unfold mustBeUniform
    cases r.demandsFrom root uniform <;> simp [Except.map]
  · rw [mustBeUniform_eq_error_iff_demandsFrom, mustBeUniform_eq_error_iff_demandsFrom]

def storedMixedCall : Registry where
  records :=
    [(⟨2⟩, ⟨"call", .call ⟨.function, ⟨1⟩,
        [("x", .constant 1 ⟨.int, {}⟩ (.int 5)), ("y", .constant 2 ⟨.int, {}⟩ (.int 6))]⟩,
        .referenceCounted⟩),
     (⟨1⟩, ⟨"mdl::m::f(int,int)", .definition
        { kind := .function, module := ⟨0⟩, name := "::m::f(int,int)", returnType := ⟨.int, {}⟩
          parameters :=
            [{ name := "x", type := ⟨.int, ⟨true, false⟩⟩ }, { name := "y", type := ⟨.int, {}⟩ }] },
        .browsable⟩)]
  lastTag := 2

def mixedCallArguments : List Expression :=
  [.constant 1 ⟨.int, {}⟩ (.int 5), .constant 2 ⟨.int, {}⟩ (.int 6)]

theorem storedMixedCall_demandsOf (uniform : Bool) :
    storedMixedCall.demandsOf ⟨.call 0 ⟨.int, {}⟩ ⟨2⟩, uniform⟩ =
      .ok [⟨.constant 1 ⟨.int, {}⟩ (.int 5), true⟩, ⟨.constant 2 ⟨.int, {}⟩ (.int 6), uniform⟩] := by
  cases uniform <;> rfl

theorem storedMixedCall_mustBeUniform (uniform : Bool) (target : Expression) :
    storedMixedCall.mustBeUniform (.call 0 ⟨.int, {}⟩ ⟨2⟩) uniform target =
      .ok (decide (⟨target, true⟩ ∈ [(⟨.call 0 ⟨.int, {}⟩ ⟨2⟩, uniform⟩ : Demand),
        ⟨.constant 1 ⟨.int, {}⟩ (.int 5), true⟩, ⟨.constant 2 ⟨.int, {}⟩ (.int 6), uniform⟩])) := by
  have hqueue : storedMixedCall.WorksOff ([⟨.call 0 ⟨.int, {}⟩ ⟨2⟩, uniform⟩] ++ []) _ :=
    .go (storedMixedCall_demandsOf uniform) (.go rfl (.go rfl .done))
  exact hqueue.mustBeUniform_eq target

/-- The first argument has to be uniform anyway, the second one with the call only, and a constant that
stands elsewhere not at all. A call of what is not there fails in one way, whatever it is asked for. -/
theorem storedMixedCall_monotone :
    mixedCallArguments.map (storedMixedCall.mustBeUniform (.call 0 ⟨.int, {}⟩ ⟨2⟩) true) =
      [.ok true, .ok true] ∧
    mixedCallArguments.map (storedMixedCall.mustBeUniform (.call 0 ⟨.int, {}⟩ ⟨2⟩) false) =
      [.ok true, .ok false] ∧
    storedMixedCall.mustBeUniform (.call 0 ⟨.int, {}⟩ ⟨2⟩) false (.constant 3 ⟨.int, {}⟩ (.int 7)) =
      .ok false ∧
    ∃ err, ∀ target, storedMixedCall.mustBeUniform (.call 0 ⟨.int, {}⟩ ⟨9⟩) false target = .error err := by
  refine ⟨by simp [mixedCallArguments, storedMixedCall_mustBeUniform],
    by simp [mixedCallArguments, storedMixedCall_mustBeUniform], ?elsewhere, ?missing⟩
  case elsewhere =>
    have hstrong : storedMixedCall.mustBeUniform (.call 0 ⟨.int, {}⟩ ⟨2⟩) true
        (.constant 3 ⟨.int, {}⟩ (.int 7)) = .ok false := by
      simp [storedMixedCall_mustBeUniform]
    obtain ⟨required, hweak, hrequired⟩ := (storedMixedCall.mustBeUniform_monotone _ _).1 false hstrong
    rw [hweak, Bool.eq_false_iff.mpr fun h => Bool.false_ne_true (hrequired h)]
  case missing =>
    have hmissing : storedMixedCall.mustBeUniform (.call 0 ⟨.int, {}⟩ ⟨9⟩) false
        (.call 0 ⟨.int, {}⟩ ⟨9⟩) = .error _ := WorksOff.mustBeUniform_eq (.stop rfl) _
    exact ⟨_, fun target =>
      (((storedMixedCall.mustBeUniform_monotone _ _).2 false target).2 _).mp hmissing⟩

end Registry

end MaterialModules
