import MaterialModules.Proofs.Source.Containment
import MaterialModules.Proofs.Synthesis.Operands
import MaterialModules.Proofs.Synthesis.Preservation

/-!
What the source of an expression shows: the arguments of its calls, as far as they are written and no call
on the way is a parameter itself. A promoted expression that is shown is there by its name; what is not
shown makes no difference.
-/

set_option autoImplicit false

namespace MaterialModules

open Source (Expr)

namespace Definition

/-- How many operands a call is written with. Without an operand form, all of its arguments are written. -/
def operandCount? (d : Definition) : Option Nat :=
  match d.semantic with
  | .operator op => if op.binary?.isSome then some 2 else if op = .ternary then some 3 else some 1
  | .fieldAccess => some 1
  | .indexAccess => some 2
  | _ => none

def Writes (d : Definition) (i : Nat) : Prop := ∀ k, d.operandCount? = some k → i < k

variable {d : Definition} {operand operand' : Nat → Mentioning Expr}
  {all all' : Unit → Mentioning (List (String × Expr))}

theorem callSource_congr_of_writes (hone : ∀ i, d.Writes i → operand i = operand' i)
    (hall : d.operandCount? = none → all () = all' ()) :
    d.callSource operand all = d.callSource operand' all' := by
  have hwrites : ∀ {i k}, d.operandCount? = some k → i < k → operand i = operand' i := by
    intro i k hk hi
    refine hone i fun k' hk' => ?_
    cases hk.symm.trans hk'
    exact hi
  unfold callSource
  cases hsemantic : d.semantic with
  | operator op =>
    cases hbinary : op.binary? with
    | some b =>
      have hcount : d.operandCount? = some 2 := by simp [operandCount?, hsemantic, hbinary]
      simp only [hbinary, hwrites hcount Nat.zero_lt_two, hwrites hcount Nat.one_lt_two]
    | none =>
      cases op with
      | ternary =>
        have hcount : d.operandCount? = some 3 := by simp [operandCount?, hsemantic, Operator.binary?]
        have hfirst := hwrites hcount (i := 0) (by decide)
        have hsecond := hwrites hcount (i := 1) (by decide)
        have hthird := hwrites hcount (i := 2) (by decide)
        simp only [Operator.binary?, hfirst, hsecond, hthird]
      | positive | negative | logicalNot | bitwiseComplement | select =>
        have hcount : d.operandCount? = some 1 := by simp [operandCount?, hsemantic, Operator.binary?]
        simp only [Operator.binary?, hwrites hcount Nat.zero_lt_one]
      | _ => cases hbinary
  | fieldAccess =>
    have hcount : d.operandCount? = some 1 := by simp [operandCount?, hsemantic]
    simp only [hwrites hcount Nat.zero_lt_one]
  | indexAccess =>
    have hcount : d.operandCount? = some 2 := by simp [operandCount?, hsemantic]
    simp only [hwrites hcount Nat.zero_lt_two, hwrites hcount Nat.one_lt_two]
  | _ =>
    have hcount : d.operandCount? = none := by simp [operandCount?, hsemantic]
    simp only [hall hcount]

theorem operands_within {xs : List Expr} {z : Expr} (h : d.applied? xs = some z) :
    d.operandCount? = some xs.length ∧ ∀ x ∈ xs, x.Within z := by
  unfold applied? at h
  unfold operandCount?
  split at h
  · rename_i op hsemantic
    rw [hsemantic]
    unfold Operator.applied? at h
    split at h
    · cases h
      exact ⟨rfl, by simpa using Expr.Within.self⟩
    · cases h
      exact ⟨rfl, by simpa using Expr.Within.operand _ .self⟩
    · cases h
      exact ⟨rfl, by simpa using Expr.Within.operand _ .self⟩
    · cases h
      exact ⟨rfl, by simpa using Expr.Within.operand _ .self⟩
    · rename_i c x y
      cases h
      refine ⟨rfl, ?_⟩
      simpa using ⟨Expr.Within.cond x y .self, Expr.Within.yes c y .self, Expr.Within.no c x .self⟩
    · rename_i x y
      obtain ⟨b, hb, rfl⟩ := Option.map_eq_some_iff.mp h
      refine ⟨by simp [hb], ?_⟩
      simpa using ⟨Expr.Within.left b y .self, Expr.Within.right b x .self⟩
    · cases h
  · rename_i hsemantic
    cases h
    rw [hsemantic]
    exact ⟨rfl, by simpa using Expr.Within.base _ .self⟩
  · rename_i x y hsemantic
    cases h
    rw [hsemantic]
    exact ⟨rfl, by simpa using ⟨Expr.Within.indexed y .self, Expr.Within.position x .self⟩⟩
  · cases h

theorem callSource_within {z : Expr} (h : (d.callSource operand all).result = .ok z) :
    (∃ xs, d.operandCount? = some xs.length ∧ Reads operand 0 xs ∧ ∀ x ∈ xs, x.Within z) ∨
    (d.operandCount? = none ∧ ∃ xs, (all ()).result = .ok xs ∧ ∀ x ∈ xs, x.2.Within z) := by
  by_cases hd : d.TakesOperands
  · obtain ⟨xs, happlied, hreads⟩ := callSource_operands hd h
    exact .inl ⟨xs, (operands_within happlied).1, hreads, (operands_within happlied).2⟩
  unfold callSource at h
  extract_lets rest at h
  have hrest : (rest ()).result = .ok z := result_of_mentioningType h
  simp only [rest] at hrest
  unfold operandCount?
  cases hsemantic : d.semantic with
  | operator op =>
    obtain rfl : op = .select := by
      by_contra hop
      exact hd (.inr (.inr ⟨op, hop, hsemantic⟩))
    rw [hsemantic] at hrest
    obtain ⟨x, rfl, hx⟩ := reads_one hrest
    exact .inl ⟨[x], rfl, hx, by simpa using Expr.Within.base _ .self⟩
  | fieldAccess => exact absurd (.inl hsemantic) hd
  | indexAccess => exact absurd (.inr (.inl hsemantic)) hd
  | arrayConstructor =>
    rw [hsemantic] at hrest
    refine .inr ⟨rfl, ?_⟩
    simp only at hrest
    split at hrest
    · obtain ⟨_, -, hrest⟩ := Mentioning.bind_ok hrest
      obtain ⟨xs, hxs, hrest⟩ := Mentioning.bind_ok hrest
      cases hrest
      exact ⟨xs, hxs, fun x hx => .construct (List.mem_map_of_mem hx) .self⟩
    · cases hrest
  | _ =>
    rw [hsemantic] at hrest
    obtain ⟨xs, hxs, hrest⟩ := Mentioning.bind_ok hrest
    cases hrest
    exact .inr ⟨rfl, xs, hxs, fun x hx => .named hx .self⟩

end Definition

namespace Registry

variable {r : Registry} {ps ps' : Promotions} {e x : Expression} {d : Definition} {args : Arguments}

/-- `r.Shows ps e x`: the source of `e` has that of `x` in it. Calls that are not promoted themselves show
the arguments that they write. -/
inductive Shows (r : Registry) (ps : Promotions) : Expression → Expression → Prop
  | self (e : Expression) : Shows r ps e e
  | argument {e y x : Expression} {d : Definition} {args : Arguments} {i : Nat} {n : String}
      (call : r.CallOf e d args) (kept : ps.name? e = none) (place : args[i]? = some (n, y))
      (written : d.Writes i) (inside : Shows r ps y x) : Shows r ps e x

theorem CallOf.source_within (h : r.CallOf e d args) (hps : ps.name? e = none) {z : Expr}
    (hz : (r.source ps e).result = .ok z) {i : Nat} {n : String} {y : Expression}
    (hplace : args[i]? = some (n, y)) (hwritten : d.Writes i) :
    ∃ u, (r.source ps y).result = .ok u ∧ u.Within z := by
  rcases Definition.callSource_within (h.source_refines hps z hz) with
    ⟨xs, hcount, hreads, hxs⟩ | ⟨hcount, xs, hall, hxs⟩
  · have hi : i < xs.length := hwritten _ hcount
    have hoperand := hreads i xs[i] (List.getElem?_eq_getElem hi)
    rw [Nat.zero_add] at hoperand
    obtain ⟨n', y', hplace', hy⟩ := operandAt_of_ok hoperand
    cases hplace.symm.trans hplace'
    exact ⟨_, hy, hxs _ (List.getElem_mem hi)⟩
  · obtain ⟨u, hu, -, hy⟩ :=
      exists_mem_right (forall₂_of_promotedArguments hall) (List.mem_of_getElem? hplace)
    exact ⟨u.2, hy, hxs u hu⟩

/-- A promoted expression that is shown is there as the name of its parameter. -/
theorem Shows.within (h : r.Shows ps e x) {n : String} (hx : ps.name? x = some n) {z : Expr}
    (hz : (r.source ps e).result = .ok z) : (Expr.ofName n).Within z := by
  induction h generalizing z with
  | self e =>
    rw [source_of_promoted hx] at hz
    cases hz
    exact .self
  | argument call kept place written _ ih =>
    obtain ⟨u, hu, hwithin⟩ := call.source_within kept hz place written
    exact (ih hx hu).trans hwithin

theorem promotedArguments_congr (h : ∀ a ∈ args, r.source ps a.2 = r.source ps' a.2) :
    r.promotedArguments ps args = r.promotedArguments ps' args := by
  induction args with
  | nil => rfl
  | cons a rest ih =>
    rw [promotedArguments, promotedArguments, h a List.mem_cons_self,
      ih fun b hb => h b (List.mem_cons_of_mem _ hb)]

theorem argumentBindings_congr (h : ∀ a ∈ args, r.source ps a.2 = r.source ps' a.2) (i : Nat) :
    r.argumentBindings ps i args = r.argumentBindings ps' i args := by
  induction args generalizing i with
  | nil => rfl
  | cons a rest ih =>
    rw [argumentBindings, argumentBindings, h a List.mem_cons_self,
      ih fun b hb => h b (List.mem_cons_of_mem _ hb)]

theorem CallOf.argumentsOf?_eq (h : r.CallOf e d args) : r.argumentsOf? e = some args := by
  cases h with
  | stored call definition => simp [argumentsOf?, call]
  | direct definition => rfl

theorem CallOf.argument_of (h : r.CallOf e d args) {a : String × Expression} (ha : a ∈ args) :
    r.Argument a.2 e :=
  ⟨args, a.1, h.argumentsOf?_eq, ha⟩

theorem Acyclic.source_call (h : r.Acyclic) (hcall : r.CallOf e d args) (hps : ps.name? e = none) :
    r.source ps e = d.callSource (r.operandAt ps args) fun _ => r.promotedArguments ps args := by
  cases hcall with
  | stored call definition =>
    have hstored := h.storedSource_eq ps call
    simp only [definition] at hstored
    rw [← hstored]
    simp only [source, sourceAmong, Promotions.replacing, hps]
  | direct definition => rw [r.source_direct hps, definition]

theorem callOf_or_source_eq (r : Registry) (e : Expression) :
    (∃ d args, r.CallOf e d args) ∨
      ∀ ps ps' : Promotions, ps.name? e = none → ps'.name? e = none →
        r.source ps e = r.source ps' e := by
  cases e with
  | constant l ty v | parameter l ty i | temporary l ty i =>
    refine .inr fun ps ps' hps hps' => ?_
    simp only [source, sourceAmong, Promotions.replacing, hps, hps']
  | call l ty t =>
    cases hc : r.call? t with
    | none =>
      refine .inr fun ps ps' hps hps' => ?_
      simp only [source, sourceAmong, Promotions.replacing, hps, hps', storedSource, hc]
    | some c =>
      cases hd : r.definition? c.definition with
      | none =>
        refine .inr fun ps ps' hps hps' => ?_
        simp only [source, sourceAmong, Promotions.replacing, hps, hps', storedSource, hc, hd]
      | some d => exact .inl ⟨d, c.arguments, .stored hc hd⟩
  | direct l ty t args =>
    cases hd : r.definition? t with
    | none => exact .inr fun ps ps' hps hps' => by rw [r.source_direct hps, r.source_direct hps', hd]
    | some d => exact .inl ⟨d, args, .direct hd⟩

/-- The source of an expression depends on nothing but what it shows. -/
theorem Acyclic.source_congr (h : r.Acyclic) (e : Expression)
    (hagree : ∀ y, r.Shows ps e y → ps.name? y = ps'.name? y) : r.source ps e = r.source ps' e := by
  induction e using h.wellFounded_argument.induction with
  | h e ih =>
    cases hname : ps.name? e with
    | some n => rw [source_of_promoted hname, source_of_promoted ((hagree e (.self e)).symm.trans hname)]
    | none =>
      have hname' : ps'.name? e = none := (hagree e (.self e)).symm.trans hname
      -- what is no call has no arguments to differ in
      rcases r.callOf_or_source_eq e with ⟨d, args, hcall⟩ | hsource
      · have hwritten : ∀ i n y, args[i]? = some (n, y) → d.Writes i →
            r.source ps y = r.source ps' y := fun i n y hplace hi =>
          ih y (hcall.argument_of (List.mem_of_getElem? hplace)) fun z hz =>
            hagree z (.argument hcall hname hplace hi hz)
        rw [h.source_call hcall hname, h.source_call hcall hname']
        refine d.callSource_congr_of_writes (fun i hi => ?_) fun hcount => promotedArguments_congr ?_
        · unfold operandAt
          cases hplace : args[i]? with
          | none => rfl
          | some a => exact hwritten i a.1 a.2 hplace hi
        · intro a ha
          obtain ⟨i, hi, rfl⟩ := List.mem_iff_getElem.mp ha
          refine hwritten i _ _ (List.getElem?_eq_getElem hi) fun k hk => ?_
          rw [hcount] at hk
          cases hk
      · exact hsource ps ps' hname hname'

end Registry

end MaterialModules
