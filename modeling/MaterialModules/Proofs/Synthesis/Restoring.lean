import MaterialModules.Proofs.Source.Inlining
import MaterialModules.Proofs.Synthesis.Declaration
import MaterialModules.Proofs.Synthesis.Unfolding

set_option autoImplicit false

namespace MaterialModules

open Source (Locals Expr)

namespace Mentioning

/-- `env` takes source with references to parameters back to the plain source. -/
def Restores (callees : Bool) (env : Locals) (promoted plain : Mentioning Expr) : Prop :=
  ∀ y, promoted.result = .ok y →
    ∃ x, plain.result = .ok x ∧ (x.Untouched env → y.inlined callees env = x)

def RestoresAll (callees : Bool) (env : Locals)
    (promoted plain : Mentioning (List (String × Expr))) : Prop :=
  ∀ ys, promoted.result = .ok ys →
    ∃ xs, plain.result = .ok xs ∧
      ((∀ x ∈ xs, x.2.Untouched env) → (ys.map fun y => (y.1, y.2.inlined callees env)) = xs)

variable {callees : Bool} {env : Locals} {a a' b b' c c' : Mentioning Expr}

theorem result_bind_of_ok {α β : Type} {x : Mentioning α} {v : α} (h : x.result = .ok v)
    (f : α → Mentioning β) : (x >>= f).result = (f v).result := by
  rw [result_bind, h]
  rfl

theorem restores_fail (e : ModuleError) : Restores callees env (fail e) b := fun y h => by cases h

theorem Restores.after {α : Type} {x : Mentioning α} {f f' : α → Mentioning Expr}
    (h : ∀ v, Restores callees env (f v) (f' v)) : Restores callees env (x >>= f) (x >>= f') := by
  intro y hy
  obtain ⟨v, hv, hy⟩ := bind_ok hy
  rw [result_bind_of_ok hv]
  exact h v y hy

theorem Restores.one (ha : Restores callees env a a') {K : Expr → Expr}
    (hinlined : ∀ y, (K y).inlined callees env = K (y.inlined callees env))
    (hnames : ∀ x, (K x).Untouched env → x.Untouched env) :
    Restores callees env (a >>= fun x => pure (K x)) (a' >>= fun x => pure (K x)) := by
  intro z hz
  obtain ⟨y, hy, hz⟩ := bind_ok hz
  cases hz
  obtain ⟨x, hx, hxy⟩ := ha y hy
  refine ⟨K x, by rw [result_bind_of_ok hx]; rfl, fun h => ?_⟩
  rw [hinlined, hxy (hnames x h)]

theorem Restores.two (ha : Restores callees env a a') (hb : Restores callees env b b')
    {K : Expr → Expr → Expr}
    (hinlined : ∀ y z, (K y z).inlined callees env = K (y.inlined callees env) (z.inlined callees env))
    (hnames : ∀ x y, (K x y).Untouched env → x.Untouched env ∧ y.Untouched env) :
    Restores callees env (a >>= fun x => b >>= fun y => pure (K x y))
      (a' >>= fun x => b' >>= fun y => pure (K x y)) := by
  intro w hw
  obtain ⟨y, hy, hw⟩ := bind_ok hw
  obtain ⟨z, hz, hw⟩ := bind_ok hw
  cases hw
  obtain ⟨x, hx, hxy⟩ := ha y hy
  obtain ⟨v, hv, hvz⟩ := hb z hz
  refine ⟨K x v, by rw [result_bind_of_ok hx, result_bind_of_ok hv]; rfl, fun h => ?_⟩
  obtain ⟨hx', hv'⟩ := hnames x v h
  rw [hinlined, hxy hx', hvz hv']

theorem Restores.three (ha : Restores callees env a a') (hb : Restores callees env b b')
    (hc : Restores callees env c c') {K : Expr → Expr → Expr → Expr}
    (hinlined : ∀ y z w, (K y z w).inlined callees env =
      K (y.inlined callees env) (z.inlined callees env) (w.inlined callees env))
    (hnames : ∀ x y z, (K x y z).Untouched env →
      x.Untouched env ∧ y.Untouched env ∧ z.Untouched env) :
    Restores callees env (a >>= fun x => b >>= fun y => c >>= fun z => pure (K x y z))
      (a' >>= fun x => b' >>= fun y => c' >>= fun z => pure (K x y z)) := by
  intro t ht
  obtain ⟨y, hy, ht⟩ := bind_ok ht
  obtain ⟨z, hz, ht⟩ := bind_ok ht
  obtain ⟨w, hw, ht⟩ := bind_ok ht
  cases ht
  obtain ⟨x, hx, hxy⟩ := ha y hy
  obtain ⟨v, hv, hvz⟩ := hb z hz
  obtain ⟨u, hu, huw⟩ := hc w hw
  refine ⟨K x v u, ?_, fun h => ?_⟩
  · rw [result_bind_of_ok hx, result_bind_of_ok hv, result_bind_of_ok hu]
    rfl
  · obtain ⟨hx', hv', hu'⟩ := hnames x v u h
    rw [hinlined, hxy hx', hvz hv', huw hu']

theorem RestoresAll.named {all all' : Mentioning (List (String × Expr))}
    (h : RestoresAll callees env all all') (q : QualifiedName) :
    Restores callees env (all >>= fun es => pure (.named q es))
      (all' >>= fun es => pure (.named q es)) := by
  intro z hz
  obtain ⟨ys, hys, hz⟩ := bind_ok hz
  cases hz
  obtain ⟨xs, hxs, hrestore⟩ := h ys hys
  refine ⟨.named q xs, by rw [result_bind_of_ok hxs]; rfl, fun hnames => ?_⟩
  exact Expr.inlined_named_eq (fun _ => Expr.untouched_callee_of_named hnames)
    (hrestore fun x hx => Expr.untouched_argument_of_named hnames hx)

theorem RestoresAll.construct {all all' : Mentioning (List (String × Expr))}
    (h : RestoresAll callees env all all') (t : Source.TypeName) :
    Restores callees env (all >>= fun es => pure (.construct t (es.map (·.2))))
      (all' >>= fun es => pure (.construct t (es.map (·.2)))) := by
  intro z hz
  obtain ⟨ys, hys, hz⟩ := bind_ok hz
  cases hz
  obtain ⟨xs, hxs, hrestore⟩ := h ys hys
  refine ⟨.construct t (xs.map (·.2)), by rw [result_bind_of_ok hxs]; rfl, fun hnames => ?_⟩
  refine Expr.inlined_construct_eq hnames ?_
  rw [← hrestore fun x hx => Expr.untouched_item_of_construct hnames (List.mem_map_of_mem hx)]
  simp [Function.comp_def]

end Mentioning

namespace Definition

open Mentioning

variable {callees : Bool} {env : Locals}

theorem callSource_restores (d : Definition) {operand operand' : Nat → Mentioning Expr}
    {all all' : Unit → Mentioning (List (String × Expr))}
    (hone : ∀ i, Restores callees env (operand i) (operand' i))
    (hall : RestoresAll callees env (all ()) (all' ())) :
    Restores callees env (d.callSource operand all) (d.callSource operand' all') := by
  unfold callSource
  extract_lets rest rest'
  have hrest : Restores callees env (rest ()) (rest' ()) := by
    simp only [rest, rest']
    split
    · split
      · exact (hone 0).two (hone 1) (fun _ _ => rfl) fun x y h =>
          ⟨fun n hn => h n (List.mem_append_left _ hn), fun n hn => h n (List.mem_append_right _ hn)⟩
      · split
        · exact (hone 0).one (fun _ => rfl) fun x h => h
        · exact (hone 0).one (fun _ => rfl) fun x h => h
        · exact (hone 0).one (fun _ => rfl) fun x h => h
        · exact (hone 0).three (hone 1) (hone 2) (fun _ _ _ => rfl) fun x y z h =>
            ⟨fun n hn => h n (List.mem_append_left _ (List.mem_append_left _ hn)),
              fun n hn => h n (List.mem_append_left _ (List.mem_append_right _ hn)),
              fun n hn => h n (List.mem_append_right _ hn)⟩
        · exact (hone 0).one (fun _ => rfl) fun x h => h
        · exact hone 0
    · exact (hone 0).one (fun _ => rfl) fun x h => h
    · exact (hone 0).two (hone 1) (fun _ _ => rfl) fun x y h =>
        ⟨fun n hn => h n (List.mem_append_left _ hn), fun n hn => h n (List.mem_append_right _ hn)⟩
    · split
      · exact Restores.after fun type => hall.construct _
      · exact restores_fail _
    · exact hall.named _
  split
  · exact Restores.after fun _ => hrest
  · exact Restores.after fun _ => hrest
  · exact hrest

end Definition

namespace Registry

open Mentioning

variable {r : Registry} {callees : Bool} {env : Locals}

mutual

theorem inlined_valueSource : (v : Value) → {x : Expr} → (r.valueSource v).result = .ok x →
    x.Untouched env → x.inlined callees env = x
  | .bool _, _, h, _ | .int _, _, h, _ | .float _, _, h, _ | .double _, _, h, _ | .string _, _, h, _ => by
    cases h
    rfl
  | .color _ _ _, _, h, hx | .emptyDistribution _, _, h, hx => by
    cases h
    exact Expr.inlined_construct_eq hx rfl
  | .vector items, _, h, hx | .array _ items, _, h, hx => by
    obtain ⟨type, -, h⟩ := bind_ok h
    obtain ⟨es, hes, h⟩ := bind_ok h
    cases h
    exact Expr.inlined_construct_eq hx
      (inlined_valueSources items hes fun e he => Expr.untouched_item_of_construct hx he)
  | .enumeration _ _ _, _, h, hx => by
    obtain ⟨_, -, h⟩ := bind_ok h
    cases h
    exact Expr.inlined_reference hx
  | .struct _ fields, _, h, hx => by
    obtain ⟨_, -, h⟩ := bind_ok h
    obtain ⟨es, hes, h⟩ := bind_ok h
    cases h
    exact Expr.inlined_named_eq (fun _ => Expr.untouched_callee_of_named hx)
      (inlined_fieldSources fields hes fun e he => Expr.untouched_argument_of_named hx he)
  | .texture _ _ gamma, _, h, hx => by
    obtain ⟨path, -, h⟩ := bind_ok h
    cases h
    refine Expr.inlined_construct_eq hx ?_
    cases path with
    | none => rfl
    | some p =>
      have hgamma : (Expr.entity (gammaMode gamma)).inlined callees env = .entity (gammaMode gamma) :=
        Expr.inlined_reference (Expr.untouched_item_of_construct hx
          (List.mem_cons_of_mem _ List.mem_cons_self))
      rw [List.map_cons, List.map_cons, hgamma]
      rfl
  | .lightProfile _, _, h, hx | .bsdfMeasurement _, _, h, hx => by
    obtain ⟨items, hitems, h⟩ := bind_ok h
    obtain ⟨path, -, hitems⟩ := bind_ok hitems
    cases hitems
    cases h
    refine Expr.inlined_construct_eq hx ?_
    cases path <;> rfl

theorem inlined_valueSources : (vs : List Value) → {xs : List Expr} →
    (r.valueSources vs).result = .ok xs → (∀ x ∈ xs, x.Untouched env) →
    xs.map (Expr.inlined callees env) = xs
  | [], _, h, _ => by
    cases h
    rfl
  | v :: vs, _, h, hx => by
    obtain ⟨e, he, h⟩ := bind_ok h
    obtain ⟨es, hes, h⟩ := bind_ok h
    cases h
    rw [List.map_cons, inlined_valueSource v he (hx e List.mem_cons_self),
      inlined_valueSources vs hes fun x h => hx x (List.mem_cons_of_mem _ h)]

theorem inlined_fieldSources : (vs : List (String × Value)) → {xs : List (String × Expr)} →
    (r.fieldSources vs).result = .ok xs → (∀ x ∈ xs, x.2.Untouched env) →
    (xs.map fun x => (x.1, x.2.inlined callees env)) = xs
  | [], _, h, _ => by
    cases h
    rfl
  | (n, v) :: vs, _, h, hx => by
    obtain ⟨e, he, h⟩ := bind_ok h
    obtain ⟨es, hes, h⟩ := bind_ok h
    cases h
    rw [List.map_cons, inlined_valueSource v he (hx (n, e) List.mem_cons_self),
      inlined_fieldSources vs hes fun x h => hx x (List.mem_cons_of_mem _ h)]

end

def Backs (r : Registry) (env : Locals) (ps : Promotions) : Prop :=
  ∀ e n, ps.name? e = some n → ∃ x, (r.source [] e).result = .ok x ∧ env n = some x

theorem source_of_promoted {ps : Promotions} {e : Expression} {n : String} (h : ps.name? e = some n) :
    r.source ps e = Pure.pure (Expr.ofName n) := by
  cases e <;> simp only [source, sourceAmong, Promotions.replacing, h]

theorem operandAt_restores {ps : Promotions} {args : Arguments}
    (hargs : ∀ n x, (n, x) ∈ args → Restores callees env (r.source ps x) (r.source [] x)) (i : Nat) :
    Restores callees env (r.operandAt ps args i) (r.operandAt [] args i) := by
  unfold operandAt
  cases hi : args[i]? with
  | none => exact restores_fail _
  | some a => exact hargs a.1 a.2 (List.mem_of_getElem? hi)

theorem promotedArguments_restores {ps : Promotions} {args : Arguments}
    (hargs : ∀ n x, (n, x) ∈ args → Restores callees env (r.source ps x) (r.source [] x)) :
    RestoresAll callees env (r.promotedArguments ps args) (r.promotedArguments [] args) := by
  induction args with
  | nil =>
    intro ys hys
    cases hys
    exact ⟨[], rfl, fun _ => rfl⟩
  | cons a rest ih =>
    intro ys hys
    obtain ⟨y, hy, hys⟩ := bind_ok hys
    obtain ⟨zs, hzs, hys⟩ := bind_ok hys
    cases hys
    obtain ⟨x, hx, hxy⟩ := hargs a.1 a.2 List.mem_cons_self y hy
    obtain ⟨xs, hxs, hrest⟩ := ih (fun n x hx => hargs n x (List.mem_cons_of_mem _ hx)) zs hzs
    refine ⟨(a.1, x) :: xs, ?_, fun hnames => ?_⟩
    · rw [promotedArguments, result_bind_of_ok hx, result_bind_of_ok hxs]
      rfl
    · rw [List.map_cons, hxy (hnames _ List.mem_cons_self),
        hrest fun x hx => hnames x (List.mem_cons_of_mem _ hx)]

/-- Whatever is promoted inside an expression, putting the defaults in gives its plain source. -/
theorem Acyclic.source_restores (h : r.Acyclic) {ps : Promotions} (hback : r.Backs env ps)
    (e : Expression) : Restores callees env (r.source ps e) (r.source [] e) := by
  induction e using h.wellFounded_argument.induction with
  | h e ih =>
    cases hps : ps.name? e with
    | some n =>
      -- the reference stands for the default, which is not looked into again
      intro y hy
      rw [source_of_promoted hps] at hy
      cases hy
      obtain ⟨x, hx, hn⟩ := hback e n hps
      refine ⟨x, hx, fun _ => ?_⟩
      rw [Expr.inlined_ofName, hn]
      rfl
    | none =>
      cases e with
      | constant l ty v =>
        have hplain : r.source ps (.constant l ty v) = r.valueSource v := by
          simp only [source, sourceAmong, Promotions.replacing, hps]
        rw [hplain]
        exact fun y hy => ⟨y, hy, fun hnames => inlined_valueSource v hy hnames⟩
      | parameter l ty i | temporary l ty i =>
        simp only [source, sourceAmong, Promotions.replacing, hps]
        exact restores_fail _
      | call l ty t =>
        have hargs : ∀ c, r.call? t = some c → ∀ n x, (n, x) ∈ c.arguments →
            Restores callees env (r.source ps x) (r.source [] x) := fun c hc n x hx =>
          ih x ⟨c.arguments, n, by simp [argumentsOf?, hc], hx⟩
        have hplain : ∀ qs : Promotions, qs.name? (.call l ty t) = none →
            r.source qs (.call l ty t) = r.storedSource qs (r.size + 1) [] t := fun qs hqs => by
          simp only [source, sourceAmong, Promotions.replacing, hqs]
        rw [hplain ps hps, hplain [] rfl]
        cases hc : r.call? t with
        | none =>
          rw [storedSource, if_neg List.not_mem_nil, hc]
          exact restores_fail _
        | some c =>
          rw [h.storedSource_eq ps hc, h.storedSource_eq [] hc]
          cases r.definition? c.definition with
          | none => exact restores_fail _
          | some d =>
            exact d.callSource_restores (operandAt_restores (hargs c hc))
              (promotedArguments_restores (hargs c hc))
      | direct l ty t args =>
        have hargs : ∀ n x, (n, x) ∈ args → Restores callees env (r.source ps x) (r.source [] x) :=
          fun n x hx => ih x ⟨args, n, rfl, hx⟩
        have hplain : Promotions.name? [] (.direct l ty t args) = none := rfl
        rw [r.source_direct hps, r.source_direct hplain]
        cases r.definition? t with
        | none => exact restores_fail _
        | some d =>
          exact d.callSource_restores (operandAt_restores hargs) (promotedArguments_restores hargs)

end Registry

end MaterialModules
