import MaterialModules.Proofs.Synthesis.Restoring
import MaterialModules.Proofs.Synthesis.Uniformity
import Mathlib.Data.List.Nodup

set_option autoImplicit false

namespace MaterialModules

open Source (Locals Expr)

theorem temporaryName_injective {i j : Nat} (h : temporaryName i = temporaryName j) : i = j := by
  have hlist := congrArg String.toList h
  simp only [temporaryName, String.toList_append] at hlist
  have hdigits := List.append_cancel_left hlist
  rw [show (toString i).toList = Nat.toDigits 10 i from Nat.toList_repr,
    show (toString j).toList = Nat.toDigits 10 j from Nat.toList_repr] at hdigits
  have hvalue := congrArg (fun ds => Nat.ofDigitChars 10 ds 0) hdigits
  simpa only [Nat.ofDigitChars_ten_toDigits] using hvalue

def Source.FunctionDecl.defaults (decl : Source.FunctionDecl) : Locals := fun n =>
  (decl.parameters.find? (·.name = n)).bind (·.default?)

/-- The names that come into a wrapping material from outside the call that it wraps. -/
def MaterialRequest.Brings (m : MaterialRequest) (n : String) : Prop :=
  (∃ q ∈ m.promotions, q.name = n) ∨ ∃ i, temporaryName i = n

namespace Registry

open Mentioning

variable {r : Registry} {c : Callee} {m : MaterialRequest} {callees : Bool} {env : Locals} {ps : Promotions}

theorem forall₂_of_promotedArguments {args : Arguments} {xs : List (String × Expr)}
    (h : (r.promotedArguments ps args).result = .ok xs) :
    List.Forall₂ (fun a x => x.1 = a.1 ∧ (r.source ps a.2).result = .ok x.2) args xs := by
  induction args generalizing xs with
  | nil =>
    cases h
    exact .nil
  | cons a rest ih =>
    obtain ⟨x, hx, h⟩ := bind_ok h
    obtain ⟨ys, hys, h⟩ := bind_ok h
    cases h
    exact .cons ⟨rfl, hx⟩ (ih hys)

/-- Local constants stand for the plain arguments, each under its own name, and for nothing else. -/
theorem Acyclic.bound_argumentBindings (h : r.Acyclic) {args : Arguments} {i : Nat}
    {bs : List (Source.Binding Expr)}
    (hbs : (r.argumentBindings ps i args).result = .ok bs) (hback : r.Backs env ps)
    (hnames : ∀ e n, ps.name? e = some n → ∀ j, n ≠ temporaryName j)
    (hlocals : ∀ n, env n ≠ none → m.Brings n)
    (hclear : ∀ a ∈ args, ∀ x, (r.source [] a.2).result = .ok x →
      ∀ n, m.Brings n → .simple n ∉ x.names) :
    ∃ xs, (r.promotedArguments [] args).result = .ok xs ∧
      (∀ j x, xs[j]? = some x → Expr.bound callees env bs (temporaryName (i + j)) = some x.2) ∧
      (∀ n, (∀ j, i ≤ j → n ≠ temporaryName j) → Expr.bound callees env bs n = env n) := by
  induction args generalizing i bs env with
  | nil =>
    cases hbs
    exact ⟨[], rfl, by simp, fun _ _ => rfl⟩
  | cons a rest ih =>
    obtain ⟨type, -, hbs⟩ := bind_ok hbs
    obtain ⟨y, hy, hbs⟩ := bind_ok hbs
    obtain ⟨bs, hrest, hbs⟩ := bind_ok hbs
    cases hbs
    obtain ⟨x, hx, hxy⟩ := h.source_restores hback a.2 y hy
    have huntouched : x.Untouched env := by
      intro n hn
      by_contra hsome
      exact hclear a List.mem_cons_self x hx n (hlocals n hsome) hn
    have hinlined : y.inlined callees env = x := hxy huntouched
    have hback' : r.Backs (env.bind (temporaryName i) x) ps := by
      intro e n hn
      obtain ⟨z, hz, hnz⟩ := hback e n hn
      exact ⟨z, hz, (Locals.bind_of_ne (hnames e n hn i) env x).trans hnz⟩
    have hlocals' : ∀ n, env.bind (temporaryName i) x n ≠ none → m.Brings n := by
      intro n hn
      by_cases hi : n = temporaryName i
      · exact .inr ⟨i, hi.symm⟩
      · exact hlocals n (by rwa [Locals.bind_of_ne hi] at hn)
    obtain ⟨xs, hxs, htemporaries, hothers⟩ := ih hrest hback' hlocals'
      fun b hb => hclear b (List.mem_cons_of_mem _ hb)
    refine ⟨(a.1, x) :: xs, ?_, fun j z hz => ?_, fun n hn => ?_⟩
    · rw [promotedArguments, result_bind_of_ok hx, result_bind_of_ok hxs]
      rfl
    · rw [Expr.bound, hinlined]
      cases j with
      | zero =>
        cases hz
        rw [hothers _ fun j hj heq => by have := temporaryName_injective heq; omega]
        exact Locals.bind_self env _ x
      | succ j =>
        rw [show i + (j + 1) = i + 1 + j by omega]
        exact htemporaries j z hz
    · rw [Expr.bound, hinlined, hothers n fun j hj => hn j (by omega)]
      exact Locals.bind_of_ne (hn i (Nat.le_refl i)) env x

/-- The body of a wrapping material is the plain call, whether it binds the arguments or not. -/
theorem Acyclic.inlined_wrappedCall (h : r.Acyclic) {body : Expr}
    (hbody : (r.wrappedCall ps c).result = .ok body) (hback : r.Backs env ps)
    (hnames : ∀ e n, ps.name? e = some n → ∀ j, n ≠ temporaryName j)
    (hlocals : ∀ n, env n ≠ none → m.Brings n)
    (hcallee : callees = true → ∀ n, m.Brings n → QualifiedName.ofText c.name ≠ .simple n)
    (hclear : ∀ a ∈ c.arguments, ∀ x, (r.source [] a.2).result = .ok x →
      ∀ n, m.Brings n → .simple n ∉ x.names) :
    ∃ xs, (r.promotedArguments [] c.arguments).result = .ok xs ∧
      body.inlined callees env = .named (.ofText c.name) xs := by
  have huntouched : ∀ {x : Expr}, (∀ n, m.Brings n → .simple n ∉ x.names) → x.Untouched env := by
    intro x hx n hn
    by_contra hsome
    exact hx n (hlocals n hsome) hn
  unfold wrappedCall at hbody
  split at hbody
  · obtain ⟨ys, hys, hbody⟩ := bind_ok hbody
    cases hbody
    obtain ⟨xs, hxs, hrestore⟩ :=
      promotedArguments_restores (fun _ e _ => h.source_restores hback e) ys hys
    refine ⟨xs, hxs, Expr.inlined_named_eq (fun hcallees n hn => ?_) (hrestore fun x hx => ?_)⟩
    · by_contra hsome
      exact hcallee hcallees n (hlocals n hsome) (List.mem_singleton.mp hn).symm
    · obtain ⟨a, ha, -, hax⟩ := exists_mem_right (forall₂_of_promotedArguments hxs).flip hx
      exact huntouched (hclear a ha x.2 hax)
  · obtain ⟨bs, hbs, hbody⟩ := bind_ok hbody
    cases hbody
    obtain ⟨xs, hxs, htemporaries, hothers⟩ :=
      h.bound_argumentBindings hbs hback hnames hlocals hclear
    refine ⟨xs, hxs, ?_⟩
    rw [Expr.inlined]
    refine Expr.inlined_named_eq (fun hcallees n hn => ?_) (List.ext_getElem? fun j => ?_)
    · have hname : QualifiedName.ofText c.name = .simple n := (List.mem_singleton.mp hn).symm
      have hforeign : ¬ m.Brings n := fun hbrings => hcallee hcallees n hbrings hname
      rw [hothers n fun j _ hj => hforeign (.inr ⟨j, hj.symm⟩)]
      by_contra hsome
      exact hforeign (hlocals n hsome)
    · have hargs := forall₂_of_promotedArguments hxs
      rw [List.getElem?_map, List.getElem?_mapIdx]
      by_cases hj : j < xs.length
      · have hj' : j < c.arguments.length := by rwa [hargs.length_eq]
        obtain ⟨hname, -⟩ := hargs.get hj' hj
        have hvalue := htemporaries j xs[j] (List.getElem?_eq_getElem hj)
        rw [Nat.zero_add] at hvalue
        rw [List.getElem?_eq_getElem hj, List.getElem?_eq_getElem hj', Option.map_some, Option.map_some,
          Expr.inlined_ofName, hvalue]
        exact congrArg some (Prod.ext hname.symm rfl)
      · have hj' : ¬ j < c.arguments.length := by rwa [hargs.length_eq]
        rw [List.getElem?_eq_none (Nat.le_of_not_lt hj), List.getElem?_eq_none (Nat.le_of_not_lt hj')]
        rfl

theorem defaults_of_mem {decl : Source.FunctionDecl} (hnames : (decl.parameters.map (·.name)).Nodup)
    {d : Source.ParameterDecl} (hd : d ∈ decl.parameters) : decl.defaults d.name = d.default? := by
  have hfind : ∃ d', decl.parameters.find? (·.name = d.name) = some d' := by
    rw [← Option.isSome_iff_exists, List.find?_isSome]
    exact ⟨d, hd, by simp⟩
  obtain ⟨d', hd'⟩ := hfind
  have hname : d'.name = d.name := by simpa using List.find?_some hd'
  have hsame := List.inj_on_of_nodup_map hnames (List.mem_of_find?_eq_some hd') hd hname
  rw [Source.FunctionDecl.defaults, hd', hsame]
  rfl

section Wrapping

variable {ps : List Promotion} {decl : Source.FunctionDecl}

theorem Wraps.requests (h : r.Wraps c m ps decl) : ps.map (·.request) = m.promotions := by
  rw [← List.forall₂_eq_eq_eq, List.forall₂_map_left_iff]
  exact (h.promotions.imp fun _ _ hq => hq.request).flip

theorem Wraps.parameterNames (h : r.Wraps c m ps decl) :
    decl.parameters.map (·.name) = m.promotions.map (·.name) := by
  rw [← h.requests, List.map_map, ← List.forall₂_eq_eq_eq, List.forall₂_map_left_iff,
    List.forall₂_map_right_iff]
  exact (h.parameters.imp fun _ _ hd => hd.name).flip

theorem promotion_of_name {e : Expression} {n : String} (h : (promotionsOf ps).name? e = some n) :
    ∃ p ∈ ps, p.init = e ∧ p.request.name = n := by
  unfold Promotions.name? at h
  obtain ⟨x, hx, rfl⟩ := Option.map_eq_some_iff.mp h
  obtain ⟨p, hp, rfl⟩ := List.mem_map.mp (List.mem_of_find?_eq_some hx)
  exact ⟨p, hp, by simpa using List.find?_some hx, rfl⟩

theorem Wraps.request_mem (h : r.Wraps c m ps decl) {p : Promotion} (hp : p ∈ ps) :
    p.request ∈ m.promotions := by
  rw [← h.requests]
  exact List.mem_map_of_mem hp

theorem Wraps.backs (h : r.Wraps c m ps decl) (hdistinct : (m.promotions.map (·.name)).Nodup) :
    r.Backs decl.defaults (promotionsOf ps) := by
  intro e n hn
  obtain ⟨p, hp, rfl, rfl⟩ := promotion_of_name hn
  obtain ⟨d, hd, hdp⟩ := exists_mem_right h.parameters hp
  obtain ⟨x, hx, hsource⟩ := hdp.init
  refine ⟨x, hsource, ?_⟩
  rw [← hdp.name, defaults_of_mem (by rwa [h.parameterNames]) hd, hx]

theorem Wraps.brings_of_defaults (h : r.Wraps c m ps decl) {n : String} (hn : decl.defaults n ≠ none) :
    m.Brings n := by
  obtain ⟨x, hx⟩ := Option.ne_none_iff_exists'.mp hn
  obtain ⟨d, hd, -⟩ := Option.bind_eq_some_iff.mp hx
  have hname : d.name = n := by simpa using List.find?_some hd
  have hmem : n ∈ m.promotions.map (·.name) := by
    rw [← h.parameterNames, ← hname]
    exact List.mem_map_of_mem (List.mem_of_find?_eq_some hd)
  obtain ⟨q, hq, hqn⟩ := List.mem_map.mp hmem
  exact .inl ⟨q, hq, hqn⟩

end Wrapping

/-- If the new names are distinct and new to the arguments then a wrapping material, read with its
defaults, is the call that it wraps with the plain source of each argument. Where callees are looked at,
the wrapped one has to have a name of its own as well. -/
theorem Acyclic.inlined_material (h : r.Acyclic) {decl : Source.FunctionDecl}
    (hmaterial : (r.material c m).result = .ok decl)
    (hdistinct : (m.promotions.map (·.name)).Nodup)
    (htemporary : ∀ q ∈ m.promotions, ∀ i, q.name ≠ temporaryName i)
    (hclear : ∀ a ∈ c.arguments, ∀ x, (r.source [] a.2).result = .ok x →
      ∀ n, m.Brings n → .simple n ∉ x.names) :
    ∃ args, List.Forall₂ (fun a x => x.1 = a.1 ∧ (r.source [] a.2).result = .ok x.2) c.arguments args ∧
      decl.body.inlined false decl.defaults = .named (.ofText c.name) args ∧
      ((∀ n, m.Brings n → QualifiedName.ofText c.name ≠ .simple n) →
        decl.body.inlined true decl.defaults = .named (.ofText c.name) args) := by
  obtain ⟨ps, hwraps⟩ := wraps_of_material hmaterial
  have hnames : ∀ e n, (promotionsOf ps).name? e = some n → ∀ j, n ≠ temporaryName j := by
    intro e n hn
    obtain ⟨p, hp, -, rfl⟩ := promotion_of_name hn
    exact htemporary p.request (hwraps.request_mem hp)
  have hbody : ∀ callees : Bool,
      (callees = true → ∀ n, m.Brings n → QualifiedName.ofText c.name ≠ .simple n) →
      ∃ args, (r.promotedArguments [] c.arguments).result = .ok args ∧
        decl.body.inlined callees decl.defaults = .named (.ofText c.name) args := fun callees hcallee =>
    h.inlined_wrappedCall hwraps.body (hwraps.backs hdistinct) hnames
      (fun _ => hwraps.brings_of_defaults) hcallee hclear
  obtain ⟨args, hargs, hfalse⟩ := hbody false nofun
  refine ⟨args, forall₂_of_promotedArguments hargs, hfalse, fun hcallee => ?_⟩
  obtain ⟨args', hargs', htrue⟩ := hbody true fun _ => hcallee
  rw [hargs] at hargs'
  cases hargs'
  exact htrue

theorem overGlossy_inlined :
    ∃ decl, (storedGlossy.material overGlossy (promote "base.x")).result = .ok decl ∧
      decl.body.inlined true decl.defaults =
        .named (.ofText "::m::over")
          [("base", .named (.ofText "::m::glossy") [("x", .literal (.int 5))])] := by
  have hplain : (storedGlossy.source [] (.call 2 .material ⟨2⟩)).result =
      .ok (.named (.ofText "::m::glossy") [("x", .literal (.int 5))]) := rfl
  obtain ⟨args, hargs, -, hinlined⟩ :=
    acyclic_storedGlossy.inlined_material material_overGlossy (by decide)
      (fun q hq i => by
        cases List.mem_singleton.mp hq
        exact fun heq => by simpa [temporaryName] using congrArg String.toList heq)
      (fun a ha x hx n _ hn => by
        cases List.mem_singleton.mp ha
        cases hplain.symm.trans hx
        cases List.mem_singleton.mp hn)
  refine ⟨_, material_overGlossy, ?_⟩
  rw [hinlined fun n _ hn => by cases hn]
  obtain ⟨x, _, ⟨hname, hsource⟩, hrest, rfl⟩ := List.forall₂_cons_left_iff.mp hargs
  cases hrest
  have hvalue := Except.ok.inj (hplain.symm.trans hsource)
  rw [show x = ("base", _) from Prod.ext hname hvalue.symm]
  rfl

end Registry

end MaterialModules
