import MaterialModules.Proofs.Synthesis.Hygiene
import MaterialModules.Proofs.Synthesis.Shown

set_option autoImplicit false

namespace MaterialModules

open Source (Expr Local Scope)

def MaterialRequest.without (m : MaterialRequest) (i : Nat) : MaterialRequest :=
  { m with promotions := m.promotions.eraseIdx i }

namespace Registry

variable {r : Registry} {c : Callee} {m : MaterialRequest} {ps ps' : Promotions} {x : Expression} {i : Nat}
  {q : PromotionRequest}

/-- The promotion at a place is the first one of its expression, and this is shown by some argument. -/
structure Live (r : Registry) (c : Callee) (m : MaterialRequest) (i : Nat) (x : Expression) : Prop where
  first : ∀ q ∈ m.promotions.take i, r.find? q.path c.arguments ≠ some x
  shown : ∃ a ∈ c.arguments, r.Shows (r.reading c m) a.2 x

def PassesThrough (r : Registry) (args : Arguments) (path : String) (e : Expression) : Prop :=
  ∃ before after, pathSteps path = before ++ after ∧ after ≠ [] ∧ r.followIn args before = some e

section Paths

theorem exists_place_of_get? {args : Arguments} {n : String} {e : Expression}
    (h : args.get? n = some e) : ∃ i : Nat, args[i]? = some (n, e) :=
  List.mem_iff_getElem?.mp (Arguments.mem_of_get? h)

/-- A path through calls that write all their arguments shows what it leads to. -/
theorem shows_of_follow {ns : List String} {e : Expression} (h : r.follow ns e = some x)
    (hpassed : ∀ before after, ns = before ++ after → after ≠ [] → ∀ y, r.follow before e = some y →
      (∃ d args, r.CallOf y d args ∧ d.operandCount? = none) ∧ ps.name? y = none) :
    r.Shows ps e x := by
  -- on the names of the path: each leads into an argument of a call that is passed through
  induction ns generalizing e with
  | nil =>
    cases h
    exact .self x
  | cons n ns ih =>
    obtain ⟨⟨d, args, hcall, hcount⟩, hname⟩ := hpassed [] (n :: ns) rfl (List.cons_ne_nil n ns) e rfl
    rw [follow, hcall.argumentsOf?_eq] at h
    obtain ⟨y, hy, hrest⟩ := Option.bind_eq_some_iff.mp h
    obtain ⟨i, hplace⟩ := exists_place_of_get? hy
    refine .argument hcall hname hplace (fun k hk => ?_) (ih hrest fun before after hns hafter z hz => ?_)
    · rw [hcount] at hk
      cases hk
    · refine hpassed (n :: before) after (congrArg (n :: ·) hns) hafter z ?_
      rw [follow, hcall.argumentsOf?_eq]
      exact Option.bind_eq_some_iff.mpr ⟨y, hy, hz⟩

theorem shown_of_path {path : String} {args : Arguments} (h : r.find? path args = some x)
    (hpassed : ∀ y, r.PassesThrough args path y →
      (∃ d as, r.CallOf y d as ∧ d.operandCount? = none) ∧ ps.name? y = none) :
    ∃ a ∈ args, r.Shows ps a.2 x := by
  unfold find? at h
  cases hsteps : pathSteps path with
  | nil =>
    rw [hsteps] at h
    cases h
  | cons n ns =>
    rw [hsteps, followIn] at h
    obtain ⟨e, he, hrest⟩ := Option.bind_eq_some_iff.mp h
    obtain ⟨i, hplace⟩ := exists_place_of_get? he
    refine ⟨(n, e), List.mem_of_getElem? hplace, shows_of_follow hrest fun before after hns hafter y hy => ?_⟩
    refine hpassed y ⟨n :: before, after, by rw [hsteps, hns]; rfl, hafter, ?_⟩
    rw [followIn]
    exact Option.bind_eq_some_iff.mpr ⟨e, he, hy⟩

end Paths

section Reading

theorem name?_append (ps ps' : Promotions) (e : Expression) :
    Promotions.name? (ps ++ ps') e = (ps.name? e).or (ps'.name? e) := by
  simp only [Promotions.name?, List.find?_append, Option.map_or]

theorem name?_cons_of_ne {e : Expression} (h : x ≠ e) (n : String) (ps : Promotions) :
    Promotions.name? ((x, n) :: ps) e = ps.name? e := by
  simp [Promotions.name?, h]

def readingOf (r : Registry) (c : Callee) (qs : List PromotionRequest) : Promotions :=
  qs.filterMap fun q => (r.find? q.path c.arguments).map fun x => (x, q.name)

theorem readingOf_append (qs qs' : List PromotionRequest) :
    r.readingOf c (qs ++ qs') = r.readingOf c qs ++ r.readingOf c qs' := List.filterMap_append

theorem name?_readingOf_eq_none {qs : List PromotionRequest} :
    (r.readingOf c qs).name? x = none ↔ ∀ q ∈ qs, r.find? q.path c.arguments ≠ some x := by
  simp only [readingOf, Promotions.name?, Option.map_eq_none_iff, List.find?_eq_none,
    List.mem_filterMap, Option.map_eq_some_iff]
  constructor
  · intro h q hq hx
    simpa using h (x, q.name) ⟨q, hq, x, hx, rfl⟩
  · rintro h _ ⟨q, hq, y, hy, rfl⟩ hyx
    exact h q hq (by simpa using hy.trans (congrArg some (by simpa using hyx)))

theorem reading_eq (hq : m.promotions[i]? = some q) (hx : r.find? q.path c.arguments = some x) :
    r.reading c m = r.readingOf c (m.promotions.take i) ++
      (x, q.name) :: r.readingOf c (m.promotions.drop (i + 1)) := by
  obtain ⟨hi, hqi⟩ := List.getElem?_eq_some_iff.mp hq
  have hsplit : m.promotions = m.promotions.take i ++ q :: m.promotions.drop (i + 1) := by
    rw [← hqi, List.getElem_cons_drop, List.take_append_drop]
  refine (congrArg (r.readingOf c) hsplit).trans ?_
  rw [readingOf_append]
  simp only [readingOf, List.filterMap_cons, hx, Option.map_some]

theorem reading_without (r : Registry) (c : Callee) (m : MaterialRequest) (i : Nat) :
    r.reading c (m.without i) =
      r.readingOf c (m.promotions.take i) ++ r.readingOf c (m.promotions.drop (i + 1)) := by
  show r.readingOf c (m.promotions.eraseIdx i) = _
  rw [List.eraseIdx_eq_take_drop_succ, readingOf_append]

theorem name?_reading_of_first (hq : m.promotions[i]? = some q)
    (hx : r.find? q.path c.arguments = some x)
    (hfirst : ∀ q ∈ m.promotions.take i, r.find? q.path c.arguments ≠ some x) :
    (r.reading c m).name? x = some q.name := by
  rw [reading_eq hq hx, name?_append, name?_readingOf_eq_none.mpr hfirst, Option.none_or]
  simp [Promotions.name?]

theorem name?_reading_without (hq : m.promotions[i]? = some q)
    (hx : r.find? q.path c.arguments = some x) {y : Expression}
    (hy : y = x → ¬ ∀ q ∈ m.promotions.take i, r.find? q.path c.arguments ≠ some x) :
    (r.reading c m).name? y = (r.reading c (m.without i)).name? y := by
  rw [reading_eq hq hx, reading_without, name?_append, name?_append]
  by_cases hyx : x = y
  · -- an earlier request for the expression hides this one
    cases hbefore : (r.readingOf c (m.promotions.take i)).name? y with
    | some n => rfl
    | none =>
      rw [← hyx] at hbefore
      exact absurd (name?_readingOf_eq_none.mp hbefore) (hy hyx.symm)
  · rw [name?_cons_of_ne hyx]

end Reading

section Body

theorem Acyclic.wrappedCall_congr (h : r.Acyclic)
    (hagree : ∀ a ∈ c.arguments, ∀ y, r.Shows ps a.2 y → ps.name? y = ps'.name? y) :
    r.wrappedCall ps c = r.wrappedCall ps' c := by
  have hsource : ∀ a ∈ c.arguments, r.source ps a.2 = r.source ps' a.2 := fun a ha =>
    h.source_congr a.2 (hagree a ha)
  have hall : (c.arguments.all fun a => (ps.name? a.2).isSome) =
      c.arguments.all fun a => (ps'.name? a.2).isSome := by
    rw [Bool.eq_iff_iff, List.all_eq_true, List.all_eq_true]
    refine forall₂_congr fun a ha => ?_
    rw [hagree a ha a.2 (.self a.2)]
  unfold wrappedCall
  rw [hall, promotedArguments_congr hsource, argumentBindings_congr hsource]

theorem wrappedCall_shows {body : Expr} (h : (r.wrappedCall ps c).result = .ok body)
    {a : String × Expression} (ha : a ∈ c.arguments) (hshows : r.Shows ps a.2 x) {n : String}
    (hn : ps.name? x = some n) :
    (Expr.ofName n).Within body ∨
      ∃ before b after, body = .letIn (before ++ b :: after) (callOfTemporaries c) ∧
        (Expr.ofName n).Within b.init ∧ (Expr.ofName b.name).Within (callOfTemporaries c) ∧
        ((before ++ b :: after).map (·.name)).Nodup := by
  rcases wrappedCall_cases h with ⟨-, xs, hxs, rfl⟩ | ⟨-, bs, hbs, rfl⟩
  · obtain ⟨u, hu, -, hsource⟩ := exists_mem_right (forall₂_of_promotedArguments hxs) ha
    exact .inl (.named hu (hshows.within hn hsource))
  · have hnames := names_of_argumentBindings hbs
    obtain ⟨b, hb, hsource⟩ := exists_mem_right (inits_of_argumentBindings hbs) ha
    obtain ⟨before, after, rfl⟩ := List.append_of_mem hb
    refine .inr ⟨before, b, after, rfl, hshows.within hn hsource, ?_, hnames ▸ nodup_temporaryNames _⟩
    have hmem : b.name ∈ (List.range' 0 c.arguments.length).map temporaryName := by
      rw [← hnames]
      exact List.mem_map_of_mem (List.mem_append_right _ List.mem_cons_self)
    obtain ⟨k, hk, hname⟩ := List.mem_map.mp hmem
    have hlt : k < c.arguments.length := by simpa using hk
    rw [← hname]
    exact .named (List.mem_mapIdx.mpr ⟨k, hlt, rfl⟩) .self

end Body

section Wrapping

variable {promotions : List Promotion} {decl : Source.FunctionDecl}

theorem lookup_of_first {α β : Type} {f : α → String} {g : α → β} {xs : List α} {i : Nat} {x : α}
    (hi : xs[i]? = some x) (hfirst : ∀ y ∈ xs.take i, f y ≠ f x) :
    (xs.map fun x => (f x, g x)).lookup (f x) = some (g x) := by
  induction xs generalizing i with
  | nil => cases hi
  | cons y ys ih =>
    rw [List.map_cons, List.lookup_cons]
    cases i with
    | zero =>
      cases hi
      rw [beq_self_eq_true]
    | succ i =>
      rw [List.take_succ_cons, List.forall_mem_cons] at hfirst
      rw [beq_false_of_ne hfirst.1.symm]
      exact ih hi hfirst.2

theorem Wraps.parameter_at (h : r.Wraps c m promotions decl) (hq : m.promotions[i]? = some q) :
    ∃ d, decl.parameters[i]? = some d ∧ d.name = q.name ∧
      ((∀ p ∈ m.promotions.take i, p.name ≠ q.name) →
        decl.scope.lookup q.name = some (.parameter d)) := by
  have hname : (decl.parameters.map (·.name))[i]? = some q.name := by
    rw [h.parameterNames, List.getElem?_map, hq]
    rfl
  rw [List.getElem?_map] at hname
  obtain ⟨d, hd, hname⟩ := Option.map_eq_some_iff.mp hname
  refine ⟨d, hd, hname, fun hfirst => ?_⟩
  rw [← hname]
  refine lookup_of_first hd fun d' hd' hsame => ?_
  have hmem : d'.name ∈ (m.promotions.map (·.name)).take i := by
    rw [← h.parameterNames, ← List.map_take]
    exact List.mem_map_of_mem hd'
  rw [← List.map_take] at hmem
  obtain ⟨p, hp, hpd⟩ := List.mem_map.mp hmem
  exact hfirst p hp (hpd.trans (hsame.trans hname))

/-- What a live promotion brings is referred to, and nothing but a parameter before it or a local constant
may hide it. -/
theorem Wraps.refers_of_live (h : r.Wraps c m promotions decl) (hq : m.promotions[i]? = some q)
    (hx : r.find? q.path c.arguments = some x) (hlive : r.Live c m i x) :
    ∃ d sc, decl.parameters[i]? = some d ∧ d.name = q.name ∧ decl.body.Refers decl.scope q.name sc ∧
      ((∀ p ∈ m.promotions.take i, p.name ≠ q.name) → q.name ∉ r.temporaries c m →
        sc.lookup q.name = some (.parameter d)) := by
  obtain ⟨d, hd, hname, hlookup⟩ := h.parameter_at hq
  obtain ⟨a, ha, hshows⟩ := hlive.shown
  have hn := name?_reading_of_first hq hx hlive.first
  have hbody := h.body
  rw [h.reading_eq] at hbody
  rcases wrappedCall_shows hbody ha hshows hn with hwithin | ⟨before, b, after, hlet, hwithin, -, -⟩
  · exact ⟨d, decl.scope, hd, hname, hwithin.refers (.reference rfl), fun hfirst _ => hlookup hfirst⟩
  · refine ⟨d, decl.scope.enter before, hd, hname, ?_, fun hfirst hfree => ?_⟩
    · rw [hlet]
      exact .init (hwithin.refers (.reference rfl))
    · rw [Scope.lookup_enter_of_ne, hlookup hfirst]
      intro b' hb' hsame
      refine hfree ?_
      rw [← h.names_locals, hlet, hsame]
      exact List.mem_map_of_mem (List.mem_append_left _ hb')

theorem Wraps.inlined_ne_of_live (h : r.Wraps c m promotions decl) (hq : m.promotions[i]? = some q)
    (hx : r.find? q.path c.arguments = some x) (hlive : r.Live c m i x)
    (hfree : q.name ∉ r.temporaries c m) (callees : Bool) (env : Source.Locals) {v w : Expr}
    (hne : v ≠ w) :
    decl.body.inlined callees (env.bind q.name v) ≠ decl.body.inlined callees (env.bind q.name w) := by
  intro heq
  obtain ⟨a, ha, hshows⟩ := hlive.shown
  have hn := name?_reading_of_first hq hx hlive.first
  have hbody := h.body
  rw [h.reading_eq] at hbody
  rcases wrappedCall_shows hbody ha hshows hn with
    hwithin | ⟨before, b, after, hlet, hinit, hinner, hnames⟩
  · exact hne (hwithin.eq_of_inlined (Source.Locals.bind_self env _ v)
      (Source.Locals.bind_self env _ w) heq)
  · rw [← h.names_locals, hlet] at hfree
    rw [hlet] at heq
    exact hne (Expr.eq_of_inlined_letIn hnames hfree hinit hinner env heq)

theorem Wraps.without_of_not_live (h : r.Wraps c m promotions decl) (hr : r.Acyclic)
    (hq : m.promotions[i]? = some q) (hx : r.find? q.path c.arguments = some x)
    (hidle : ¬ r.Live c m i x) :
    (r.wrappedCall (r.reading c (m.without i)) c).result = .ok decl.body := by
  have hbody := h.body
  rw [h.reading_eq] at hbody
  rwa [← hr.wrappedCall_congr fun a ha y hy => ?_]
  refine name?_reading_without hq hx fun hyx hfirst => hidle ⟨hfirst, a, ha, ?_⟩
  rwa [← hyx]

end Wrapping

/-- If the first request for an expression has a path through calls that write all of their arguments,
and none of them is promoted itself, then the promotion is live. What a live promotion brings is referred
to, and with another value for it the wrapped call is another one. Any other promotion leaves the wrapped
call as it is. -/
theorem material_live (hr : r.Acyclic) {decl : Source.FunctionDecl}
    (h : (r.material c m).result = .ok decl) (hq : m.promotions[i]? = some q)
    (hx : r.find? q.path c.arguments = some x) :
    ((∀ p ∈ m.promotions.take i, r.find? p.path c.arguments ≠ some x) →
      (∀ y, r.PassesThrough c.arguments q.path y →
        (∃ d args, r.CallOf y d args ∧ d.operandCount? = none) ∧ (r.reading c m).name? y = none) →
      r.Live c m i x) ∧
    (r.Live c m i x →
      (∃ d sc, decl.parameters[i]? = some d ∧ d.name = q.name ∧
        decl.body.Refers decl.scope q.name sc ∧
        ((∀ p ∈ m.promotions.take i, p.name ≠ q.name) → q.name ∉ r.temporaries c m →
          sc.lookup q.name = some (.parameter d))) ∧
      (q.name ∉ r.temporaries c m → ∀ (callees : Bool) (env : Source.Locals) (v w : Expr), v ≠ w →
        decl.body.inlined callees (env.bind q.name v) ≠
          decl.body.inlined callees (env.bind q.name w))) ∧
    (¬ r.Live c m i x →
      (r.wrappedCall (r.reading c (m.without i)) c).result = .ok decl.body) := by
  obtain ⟨promotions, hwraps⟩ := wraps_of_material h
  refine ⟨fun hfirst hpath => ⟨hfirst, shown_of_path hx hpath⟩, fun hlive => ⟨?_, ?_⟩,
    hwraps.without_of_not_live hr hq hx⟩
  · exact hwraps.refers_of_live hq hx hlive
  · exact fun hfree callees env v w hne => hwraps.inlined_ne_of_live hq hx hlive hfree callees env hne

def storedMaterial : Expression := .call 2 .material ⟨2⟩

theorem callOf_storedMaterial : ∃ d args, storedGlossy.CallOf storedMaterial d args ∧
    d.operandCount? = none :=
  ⟨_, _, .stored (c := ⟨.material, ⟨1⟩, [("x", .constant 1 ⟨.int, {}⟩ (.int 5))]⟩) rfl rfl, rfl⟩

theorem passesThrough_base {y : Expression}
    (h : storedGlossy.PassesThrough overGlossy.arguments "base.x" y) : y = storedMaterial := by
  obtain ⟨before, after, hsteps, hafter, hy⟩ := h
  have hpath : pathSteps "base.x" = ["base", "x"] := by decide
  rw [hpath] at hsteps
  match before, hsteps, hy with
  | [], _, hy => cases hy
  | [_], rfl, hy => exact (Option.some.inj hy).symm
  | [_, _], hsteps, _ =>
    cases hsteps
    exact absurd rfl hafter

theorem material_live_overGlossy :
    ∃ decl, (storedGlossy.material overGlossy (promote "base.x")).result = .ok decl ∧
      (∃ d sc, decl.parameters[0]? = some d ∧ d.name = "p" ∧ decl.body.Refers decl.scope "p" sc ∧
        sc.lookup "p" = some (.parameter d)) ∧
      ∀ v w : Expr, v ≠ w → decl.body.inlined true (Source.Locals.bind (fun _ => none) "p" v) ≠
        decl.body.inlined true (Source.Locals.bind (fun _ => none) "p" w) := by
  obtain ⟨hpath, hlive, -⟩ := material_live acyclic_storedGlossy material_overGlossy
    (q := { name := "p", path := "base.x" }) (i := 0) (x := .constant 1 ⟨.int, {}⟩ (.int 5)) rfl rfl
  have hpassed : ∀ y, storedGlossy.PassesThrough overGlossy.arguments "base.x" y →
      (∃ d args, storedGlossy.CallOf y d args ∧ d.operandCount? = none) ∧
        (storedGlossy.reading overGlossy (promote "base.x")).name? y = none := by
    intro y hy
    cases passesThrough_base hy
    exact ⟨callOf_storedMaterial, by decide⟩
  obtain ⟨⟨d, sc, hd, hname, hrefers, hlookup⟩, hvalues⟩ := hlive (hpath (by simp) hpassed)
  exact ⟨_, material_overGlossy, ⟨d, sc, hd, hname, hrefers, hlookup (by simp) (by decide)⟩,
    hvalues (by decide) true _⟩

def sharedPair : MaterialRequest where
  callee := ⟨0⟩
  name := "w"
  promotions := [{ name := "p", path := "a" }, { name := "q", path := "b" }]

def nestedPair : MaterialRequest where
  callee := ⟨0⟩
  name := "w"
  promotions := [{ name := "p", path := "base" }, { name := "q", path := "base.x" }]

theorem material_sharedPair :
    (empty.material sharedConstant sharedPair).result =
      .ok { returnType := .material, name := "w"
            parameters := [⟨.builtin "int", "p", some (.literal (.int 5)), none⟩,
              ⟨.qualified (.builtin "int") .uniform, "q", some (.literal (.int 5)), none⟩]
            body := .named (.ofText "::m::g") [("a", .ofName "p"), ("b", .ofName "p")] } := by
  have hqueue : ∀ uniform, empty.WorksOff ([⟨.constant 1 ⟨.int, {}⟩ (.int 5), uniform⟩] ++ []) _ :=
    fun _ => .go rfl .done
  have hfirst := promotion_of_worksOff (c := sharedConstant) (q := { name := "p", path := "a" })
    rfl rfl (hqueue false)
  have hsecond := promotion_of_worksOff (c := sharedConstant) (q := { name := "q", path := "b" })
    rfl rfl (hqueue true)
  unfold material
  simp only [sharedPair, List.mapM_cons, List.mapM_nil, hfirst, hsecond]
  rfl

theorem material_nestedPair :
    (storedGlossy.material overGlossy nestedPair).result =
      .ok { returnType := .material, name := "w"
            parameters := [⟨.builtin "material", "p",
                some (.named (.ofText "::m::glossy") [("x", .literal (.int 5))]), none⟩,
              ⟨.builtin "int", "q", some (.literal (.int 5)), none⟩]
            body := .named (.ofText "::m::over") [("base", .ofName "p")] } := by
  have hqueue : storedGlossy.WorksOff ([⟨.call 2 .material ⟨2⟩, false⟩] ++ []) _ := .go rfl .done
  have houter := promotion_of_worksOff (c := overGlossy) (q := { name := "p", path := "base" })
    rfl rfl hqueue
  have hinner := promotion_of_worksOff (c := overGlossy) (q := { name := "q", path := "base.x" })
    (x := .constant 1 ⟨.int, {}⟩ (.int 5)) rfl rfl hqueue
  unfold material
  simp only [nestedPair, List.mapM_cons, List.mapM_nil, houter, hinner]
  rfl

theorem passesThrough_single {r : Registry} {args : Arguments} {path n : String} {y : Expression}
    (hpath : pathSteps path = [n]) : ¬ r.PassesThrough args path y := by
  rintro ⟨before, after, hsteps, hafter, hy⟩
  rw [hpath] at hsteps
  match before, hsteps, hy with
  | [], _, hy => cases hy
  | [_], hsteps, _ =>
    cases hsteps
    exact hafter rfl

theorem not_refers_of_names {callee : QualifiedName} {n : String} (args : List (String × String))
    (hcallee : Source.TypeName.localName? { name := callee } ≠ some n) (hargs : ∀ a ∈ args, a.2 ≠ n)
    (sc sc' : Scope) : ¬ (Expr.named callee (args.map fun a => (a.1, .ofName a.2))).Refers sc n sc' := by
  intro h
  cases h with
  | callee inside =>
    cases inside with
    | reference name => exact hcallee name
  | argument place inside =>
    obtain ⟨_, hx, rfl⟩ := List.mem_map.mp place
    obtain ⟨a, ha, rfl⟩ := List.mem_map.mp hx
    cases inside with
    | reference name => exact hargs a ha (Option.some.inj name)

/-- The parameter of a second request for an expression, or of one for a part of it, is never referred to,
and what is passed for it does not matter, though its path leads through ordinary calls only. Nor does
what is passed for a parameter that a local constant hides. -/
theorem parameters_without_use :
    (∃ decl, (empty.material sharedConstant sharedPair).result = .ok decl ∧ empty.Acyclic ∧
      (∀ y, ¬ empty.PassesThrough sharedConstant.arguments "b" y) ∧
      (∀ sc sc', ¬ decl.body.Refers sc "q" sc') ∧
      ∀ callees env v w, decl.body.inlined callees (Source.Locals.bind env "q" v) =
        decl.body.inlined callees (Source.Locals.bind env "q" w)) ∧
    (∃ decl, (storedGlossy.material overGlossy nestedPair).result = .ok decl ∧ storedGlossy.Acyclic ∧
      (∀ y, storedGlossy.PassesThrough overGlossy.arguments "base.x" y →
        ∃ d args, storedGlossy.CallOf y d args ∧ d.operandCount? = none) ∧
      (∀ sc sc', ¬ decl.body.Refers sc "q" sc') ∧
      ∀ callees env v w, decl.body.inlined callees (Source.Locals.bind env "q" v) =
        decl.body.inlined callees (Source.Locals.bind env "q" w)) ∧
    ∃ decl, (empty.material twoNumbers captured).result = .ok decl ∧ empty.Acyclic ∧
      (∀ y, ¬ empty.PassesThrough twoNumbers.arguments "b" y) ∧
      ∀ callees env v w, decl.body.inlined callees (Source.Locals.bind env "__tmp0" v) =
        decl.body.inlined callees (Source.Locals.bind env "__tmp0" w) := by
  have hempty : empty.Acyclic := acyclic_of_decreasing fun x hx => by cases hx
  refine ⟨⟨_, material_sharedPair, hempty, fun _ => passesThrough_single (n := "b") (by decide), ?_, ?_⟩,
    ⟨_, material_nestedPair, acyclic_storedGlossy, fun y hy => ?_, ?_, ?_⟩,
    ⟨_, material_captured, hempty, fun _ => passesThrough_single (n := "b") (by decide), ?_⟩⟩
  · exact not_refers_of_names [("a", "p"), ("b", "p")] (by decide) (by decide)
  · intro callees env v w
    cases callees <;> rfl
  · cases passesThrough_base hy
    exact callOf_storedMaterial
  · exact not_refers_of_names [("base", "p")] (by decide) (by decide)
  · intro callees env v w
    cases callees <;> rfl
  · intro callees env v w
    cases callees <;> rfl

end Registry

end MaterialModules
