import MaterialModules.Proofs.Synthesis.Unfolding
import Mathlib.Data.List.Nodup

set_option autoImplicit false

namespace MaterialModules

def Operator.applied? : Operator → List Source.Expr → Option Source.Expr
  | .positive, [x] => some x
  | .negative, [x] => some (.unary .neg x)
  | .logicalNot, [x] => some (.unary .not x)
  | .bitwiseComplement, [x] => some (.unary .bitNot x)
  | .ternary, [c, x, y] => some (.conditional c x y)
  | op, [x, y] => op.binary?.map fun b => .binary b x y
  | _, _ => none

theorem Operator.applied?_pair (op : Operator) (x y : Source.Expr) :
    op.applied? [x, y] = op.binary?.map fun b => .binary b x y := by
  cases op <;> rfl

namespace Definition

def TakesOperands (d : Definition) : Prop :=
  d.semantic = .fieldAccess ∨ d.semantic = .indexAccess ∨
    ∃ op, op ≠ .select ∧ d.semantic = .operator op

def applied? (d : Definition) (xs : List Source.Expr) : Option Source.Expr :=
  match d.semantic, xs with
  | .operator op, xs => op.applied? xs
  | .fieldAccess, [x] => some (.field x d.memberName)
  | .indexAccess, [x, y] => some (.index x y)
  | _, _ => none

def Reads (operand : Nat → Mentioning Source.Expr) (i : Nat) (xs : List Source.Expr) : Prop :=
  ∀ j y, xs[j]? = some y → (operand (i + j)).result = .ok y

variable {d : Definition} {operand : Nat → Mentioning Source.Expr}
  {all : Unit → Mentioning (List (String × Source.Expr))} {x z : Source.Expr}

theorem reads_nil (i : Nat) : Reads operand i [] := fun j y h => by
  rw [List.getElem?_nil] at h
  cases h

theorem Reads.cons {i : Nat} {xs : List Source.Expr} (hx : (operand i).result = .ok x)
    (hxs : Reads operand (i + 1) xs) : Reads operand i (x :: xs) := by
  intro j y h
  cases j with
  | zero =>
    cases h
    exact hx
  | succ j =>
    have hy := hxs j y h
    rwa [Nat.add_assoc, Nat.add_comm 1 j] at hy

theorem reads_one {K : Source.Expr → Source.Expr}
    (h : (operand 0 >>= fun x => pure (K x)).result = .ok z) :
    ∃ x, K x = z ∧ Reads operand 0 [x] := by
  obtain ⟨x, hx, h⟩ := Mentioning.bind_ok h
  cases h
  exact ⟨x, rfl, .cons hx (reads_nil _)⟩

theorem reads_two {K : Source.Expr → Source.Expr → Source.Expr}
    (h : (operand 0 >>= fun x => operand 1 >>= fun y => pure (K x y)).result = .ok z) :
    ∃ x y, K x y = z ∧ Reads operand 0 [x, y] := by
  obtain ⟨x, hx, h⟩ := Mentioning.bind_ok h
  obtain ⟨y, hy, h⟩ := Mentioning.bind_ok h
  cases h
  exact ⟨x, y, rfl, .cons hx (.cons hy (reads_nil _))⟩

theorem reads_three {K : Source.Expr → Source.Expr → Source.Expr → Source.Expr}
    (h : (operand 0 >>= fun c => operand 1 >>= fun x => operand 2 >>= fun y =>
      pure (K c x y)).result = .ok z) :
    ∃ c x y, K c x y = z ∧ Reads operand 0 [c, x, y] := by
  obtain ⟨c, hc, h⟩ := Mentioning.bind_ok h
  obtain ⟨x, hx, h⟩ := Mentioning.bind_ok h
  obtain ⟨y, hy, h⟩ := Mentioning.bind_ok h
  cases h
  exact ⟨c, x, y, rfl, .cons hc (.cons hx (.cons hy (reads_nil _)))⟩

theorem result_of_mentioningType {k : Kind} {rest : Unit → Mentioning Source.Expr}
    {z : Source.Expr} (h : (match k with
      | .enumeration user | .struct user => Mentioning.mention [.ofText user] >>= rest
      | _ => rest ()).result = .ok z) : (rest ()).result = .ok z := by
  split at h
  · obtain ⟨_, -, h⟩ := Mentioning.bind_ok h
    exact h
  · obtain ⟨_, -, h⟩ := Mentioning.bind_ok h
    exact h
  · exact h

theorem callSource_operands (hd : d.TakesOperands) (h : (d.callSource operand all).result = .ok x) :
    ∃ xs, d.applied? xs = some x ∧ Reads operand 0 xs := by
  unfold callSource at h
  extract_lets rest at h
  have hrest : (rest ()).result = .ok x := result_of_mentioningType h
  simp only [rest] at hrest
  unfold applied?
  obtain hfield | hindex | ⟨op, hselect, hop⟩ := hd
  · rw [hfield] at hrest ⊢
    obtain ⟨y, rfl, hy⟩ := reads_one hrest
    exact ⟨[y], rfl, hy⟩
  · rw [hindex] at hrest ⊢
    obtain ⟨y, z, rfl, hyz⟩ := reads_two hrest
    exact ⟨[y, z], rfl, hyz⟩
  · rw [hop] at hrest ⊢
    cases hb : op.binary? with
    | some b =>
      simp only [hb] at hrest
      obtain ⟨y, z, rfl, hyz⟩ := reads_two hrest
      refine ⟨[y, z], (op.applied?_pair y z).trans ?_, hyz⟩
      rw [hb]
      rfl
    | none =>
      simp only [hb] at hrest
      cases op with
      | positive => exact ⟨[x], rfl, .cons hrest (reads_nil _)⟩
      | negative | logicalNot | bitwiseComplement =>
        obtain ⟨y, rfl, hy⟩ := reads_one hrest
        exact ⟨[y], rfl, hy⟩
      | ternary =>
        obtain ⟨c, y, z, rfl, hcyz⟩ := reads_three hrest
        exact ⟨[c, y, z], rfl, hcyz⟩
      | select => exact absurd rfl hselect
      | _ => cases hb

theorem callSource_congr (hd : d.TakesOperands)
    (all' : Unit → Mentioning (List (String × Source.Expr))) :
    d.callSource operand all = d.callSource operand all' := by
  unfold callSource
  obtain hfield | hindex | ⟨op, -, hop⟩ := hd
  · simp only [hfield]
  · simp only [hindex]
  · simp only [hop]

end Definition

theorem Arguments.get?_of_mem {args : Arguments} (hnames : (args.map (·.1)).Nodup) {n : String}
    {e : Expression} (h : (n, e) ∈ args) : args.get? n = some e := by
  induction args with
  | nil => cases h
  | cons a rest ih =>
    obtain ⟨hout, hrest⟩ := List.nodup_cons.mp hnames
    rcases List.mem_cons.mp h with rfl | h
    · simp [get?]
    · have hne : a.1 ≠ n := fun hn => hout (List.mem_map.mpr ⟨(n, e), h, hn.symm⟩)
      rw [get?, if_neg hne]
      exact ih hrest h

theorem Arguments.mem_of_get? {args : Arguments} {n : String} {e : Expression}
    (h : args.get? n = some e) : (n, e) ∈ args := by
  induction args with
  | nil => cases h
  | cons a rest ih =>
    unfold get? at h
    split at h
    · rename_i hn
      cases h
      exact hn ▸ List.mem_cons_self
    · exact List.mem_cons_of_mem _ (ih h)

namespace Registry

variable {r : Registry} {ps : Promotions} {e : Expression} {d : Definition} {args : Arguments}

inductive CallOf (r : Registry) : Expression → Definition → Arguments → Prop
  | stored {l : Nat} {ty : Ty} {t : Tag} {c : StoredCall} {d : Definition} (call : r.call? t = some c)
      (definition : r.definition? c.definition = some d) : CallOf r (.call l ty t) d c.arguments
  | direct {l : Nat} {ty : Ty} {t : Tag} {args : Arguments} {d : Definition}
      (definition : r.definition? t = some d) : CallOf r (.direct l ty t args) d args

/-- A call with a source reads as its definition makes of the sources of its arguments. -/
theorem CallOf.source_refines (h : r.CallOf e d args) (hps : ps.name? e = none) :
    (r.source ps e).Refines
      (d.callSource (r.operandAt ps args) fun _ => r.promotedArguments ps args) := by
  cases h with
  | @stored l ty t c d call definition =>
    have hbelow : ∀ u, (r.storedSource ps r.size [t] u).Refines
        (r.storedSource ps (r.size + 1) [] u) :=
      storedSource_refines ps (Nat.le_succ _) (by simp)
    have hsource : r.source ps (.call l ty t) =
        d.callSource (fun i => r.operandSource ps (r.storedSource ps r.size [t]) i i c.arguments)
          fun _ => r.argumentSources ps (r.storedSource ps r.size [t]) c.arguments := by
      simp only [source, sourceAmong, Promotions.replacing, hps, storedSource, List.not_mem_nil,
        if_false, call, definition]
    rw [hsource]
    refine d.callSource_refines (fun i => ?_) ?_
    · rw [operandAt, ← operandSource_eq]
      exact operandSource_refines hbelow c.arguments i i
    · rw [← argumentSources_eq]
      exact argumentSources_refines hbelow c.arguments
  | direct definition =>
    rw [r.source_direct hps, definition]
    exact .refl _

theorem operandAt_of_ok {i : Nat} {y : Source.Expr} (h : (r.operandAt ps args i).result = .ok y) :
    ∃ n a, args[i]? = some (n, a) ∧ (r.source ps a).result = .ok y := by
  unfold operandAt at h
  split at h
  · rename_i n a ha
    exact ⟨n, a, ha, h⟩
  · cases h

theorem operandAt_congr {args' : Arguments} (h : args'.map (·.2) = args.map (·.2)) (i : Nat) :
    r.operandAt ps args' i = r.operandAt ps args i := by
  have hplace := congrArg (·[i]?) h
  simp only [List.getElem?_map] at hplace
  unfold operandAt
  rcases hx : args[i]? with _ | ⟨n, a⟩
  · rw [hx] at hplace
    rw [Option.map_eq_none_iff.mp hplace]
  · rw [hx] at hplace
    obtain ⟨⟨n', a'⟩, hx', rfl⟩ := Option.map_eq_some_iff.mp hplace
    rw [hx']

/-- Operands are bound to parameters by name: each of them is the argument of its parameter. -/
def BindsOperands (r : Registry) (ps : Promotions) (e : Expression) (d : Definition)
    (args : Arguments) : Prop :=
  ∀ x, (r.source ps e).result = .ok x →
    ∃ xs, d.applied? xs = some x ∧ ∀ (i : Nat) (y : Source.Expr), xs[i]? = some y →
      ∃ (p : Parameter) (a : Expression), d.parameters[i]? = some p ∧ args.get? p.name = some a ∧
        (r.source ps a).result = .ok y

/-- The operands of a call are its arguments in the order of the list. They are those of the parameters
in their order if the list has this order too; other names in it make no difference. -/
theorem CallOf.source_operands (h : r.CallOf e d args) (hd : d.TakesOperands)
    (hps : ps.name? e = none) :
    (∀ x, (r.source ps e).result = .ok x →
      ∃ xs, d.applied? xs = some x ∧ ∀ (i : Nat) (y : Source.Expr), xs[i]? = some y →
        ∃ n a, args[i]? = some (n, a) ∧ (r.source ps a).result = .ok y) ∧
    (args.map (·.1) = d.parameters.map (·.name) → (d.parameters.map (·.name)).Nodup →
      r.BindsOperands ps e d args) ∧
    ∀ e' args' x x', r.CallOf e' d args' → ps.name? e' = none → args'.map (·.2) = args.map (·.2) →
      (r.source ps e).result = .ok x → (r.source ps e').result = .ok x' → x' = x := by
  have hplaces : ∀ x, (r.source ps e).result = .ok x →
      ∃ xs, d.applied? xs = some x ∧ ∀ (i : Nat) (y : Source.Expr), xs[i]? = some y →
        ∃ n a, args[i]? = some (n, a) ∧ (r.source ps a).result = .ok y := by
    intro x hx
    obtain ⟨xs, hxs, hread⟩ := Definition.callSource_operands hd (h.source_refines hps x hx)
    refine ⟨xs, hxs, fun i y hy => operandAt_of_ok ?_⟩
    have hoperand := hread i y hy
    rwa [Nat.zero_add] at hoperand
  refine ⟨hplaces, fun hnames hdistinct x hx => ?_, fun e' args' x x' h' hps' hargs hx hx' => ?_⟩
  · obtain ⟨xs, hxs, hread⟩ := hplaces x hx
    refine ⟨xs, hxs, fun i y hy => ?_⟩
    obtain ⟨n, a, ha, hsource⟩ := hread i y hy
    have hname : (d.parameters.map (·.name))[i]? = some n := by
      rw [← hnames, List.getElem?_map, ha]
      rfl
    rw [List.getElem?_map] at hname
    obtain ⟨p, hp, rfl⟩ := Option.map_eq_some_iff.mp hname
    rw [← hnames] at hdistinct
    exact ⟨p, a, hp, Arguments.get?_of_mem hdistinct (List.mem_of_getElem? ha), hsource⟩
  · have hcall := h.source_refines hps x hx
    have hcall' := h'.source_refines hps' x' hx'
    rw [funext (operandAt_congr hargs),
      Definition.callSource_congr hd fun _ => r.promotedArguments ps args, hcall] at hcall'
    exact (Except.ok.inj hcall').symm

def difference : Definition where
  kind := .function
  module := ⟨0⟩
  name := "::m::operator-(int,int)"
  parameters := [{ name := "x", type := ⟨.int, {}⟩ }, { name := "y", type := ⟨.int, {}⟩ }]
  returnType := ⟨.int, {}⟩
  semantic := .operator .minus

def swappedArguments : Arguments :=
  [("y", .constant 2 ⟨.int, {}⟩ (.int 2)), ("x", .constant 1 ⟨.int, {}⟩ (.int 1))]

def storedDifference : Registry where
  records :=
    [(⟨2⟩, ⟨"call", .call ⟨.function, ⟨1⟩, swappedArguments⟩, .referenceCounted⟩),
     (⟨1⟩, ⟨"mdl::m::operator-(int,int)", .definition difference, .browsable⟩)]
  lastTag := 2

theorem takesOperands_difference : difference.TakesOperands := .inr (.inr ⟨.minus, by decide, rfl⟩)

theorem bindsOperands_in_order :
    storedDifference.BindsOperands [] (.direct 3 ⟨.int, {}⟩ ⟨1⟩ swappedArguments.reverse) difference
        swappedArguments.reverse ∧
      (storedDifference.source [] (.direct 3 ⟨.int, {}⟩ ⟨1⟩ swappedArguments.reverse)).result =
        .ok (.binary .sub (.literal (.int 1)) (.literal (.int 2))) := by
  have hcall : storedDifference.CallOf (.direct 3 ⟨.int, {}⟩ ⟨1⟩ swappedArguments.reverse) difference
      swappedArguments.reverse := .direct rfl
  have hpromoted : Promotions.name? [] (.direct 3 ⟨.int, {}⟩ ⟨1⟩ swappedArguments.reverse) = none := rfl
  have hoperands := hcall.source_operands takesOperands_difference hpromoted
  exact ⟨hoperands.2.1 rfl (by decide), rfl⟩

theorem not_bindsOperands {e : Expression}
    (h : (storedDifference.source [] e).result =
      .ok (.binary .sub (.literal (.int 2)) (.literal (.int 1)))) :
    ¬ storedDifference.BindsOperands [] e difference swappedArguments := by
  intro hbinds
  obtain ⟨xs, hxs, hread⟩ := hbinds _ h
  rcases xs with _ | ⟨x, _ | ⟨y, _ | _⟩⟩
  · cases hxs
  · cases hxs
  · cases hxs
    obtain ⟨p, a, hp, ha, hsource⟩ := hread 0 _ rfl
    cases hp
    cases ha
    cases hsource
  · cases hxs

/-- With the second parameter's argument first, the operands of a difference change places, in a stored
call and in a direct one. -/
theorem operands_not_bound_by_name :
    difference.TakesOperands ∧ (difference.parameters.map (·.name)).Nodup ∧
    (swappedArguments.map (·.1)).Perm (difference.parameters.map (·.name)) ∧
    (storedDifference.CallOf (.call 3 ⟨.int, {}⟩ ⟨2⟩) difference swappedArguments ∧
      ¬ storedDifference.BindsOperands [] (.call 3 ⟨.int, {}⟩ ⟨2⟩) difference swappedArguments) ∧
    storedDifference.CallOf (.direct 3 ⟨.int, {}⟩ ⟨1⟩ swappedArguments) difference swappedArguments ∧
      ¬ storedDifference.BindsOperands [] (.direct 3 ⟨.int, {}⟩ ⟨1⟩ swappedArguments) difference
        swappedArguments := by
  have hstored : storedDifference.CallOf (.call 3 ⟨.int, {}⟩ ⟨2⟩) difference swappedArguments :=
    .stored (c := ⟨.function, ⟨1⟩, swappedArguments⟩) rfl rfl
  have hdirect : storedDifference.CallOf (.direct 3 ⟨.int, {}⟩ ⟨1⟩ swappedArguments) difference
      swappedArguments := .direct rfl
  exact ⟨takesOperands_difference, by decide, List.Perm.swap _ _ _, ⟨hstored, not_bindsOperands rfl⟩,
    hdirect, not_bindsOperands rfl⟩

end Registry

end MaterialModules
