import MaterialModules.Proofs.Call.Queue
import MaterialModules.Proofs.Synthesis.Declaration

/-!
Which parameters of a wrapping material are declared uniform. The analysis of a promotion starts at the
argument that its path starts with, and stops at stored material instances. What is required elsewhere
it does not see.
-/

set_option autoImplicit false

namespace MaterialModules

def Callee.demandOn (c : Callee) (name : String) (e : Expression) : Demand :=
  ⟨e, (c.parameterType? name).any Ty.isUniform⟩

def PromotionRequest.argumentName (q : PromotionRequest) : String := (pathSteps q.path).headD q.path

namespace Registry

variable {r : Registry} {c : Callee} {m : MaterialRequest}

theorem mustBeUniformAt_eq {q : PromotionRequest} {e : Expression}
    (he : c.arguments.get? q.argumentName = some e) (x : Expression) :
    r.mustBeUniformAt c q.path x =
      r.mustBeUniform e (c.demandOn q.argumentName e).uniform x := by
  unfold mustBeUniformAt
  rw [show (pathSteps q.path).headD q.path = q.argumentName from rfl]
  simp only [he]
  rfl

theorem mustBeUniformAt_ok {q : PromotionRequest} {x : Expression} {required : Bool}
    (h : r.mustBeUniformAt c q.path x = .ok required) :
    ∃ e, c.arguments.get? q.argumentName = some e ∧
      (required = true ↔ r.Reach (c.demandOn q.argumentName e) ⟨x, true⟩) := by
  cases he : c.arguments.get? q.argumentName with
  | none =>
    unfold mustBeUniformAt at h
    rw [show (pathSteps q.path).headD q.path = q.argumentName from rfl] at h
    simp only [he] at h
    cases h
  | some e =>
    refine ⟨e, rfl, ?_⟩
    rw [mustBeUniformAt_eq he] at h
    rcases r.mustBeUniform_spec e (c.demandOn q.argumentName e).uniform x with
      ⟨_, hok, hreach, -⟩ | ⟨err, _, herr, -⟩
    · rw [hok] at h
      cases h
      exact hreach
    · rw [herr] at h
      cases h

/-- The demand on an argument of a stored material instance: what its parameter declares. -/
inductive EntersMaterial (r : Registry) : Demand → Demand → Prop
  | argument {l : Nat} {ty : Ty} {t : Tag} {c : StoredCall} {x : Expression}
      {uniform required : Bool} {n : String} {i : Nat} (call : r.call? t = some c)
      (kind : c.kind = .material) (place : c.arguments[i]? = some (n, x))
      (requires : required = true ↔ ∃ f p, r.definition? c.definition = some f ∧
        f.parameterFor n i = some p ∧ p.type.isUniform = true) :
      EntersMaterial r ⟨.call l ty t, uniform⟩ ⟨x, required⟩

def reading (r : Registry) (c : Callee) (m : MaterialRequest) : Promotions :=
  m.promotions.filterMap fun q => (r.find? q.path c.arguments).map fun x => (x, q.name)

/-- No parameter that is not declared uniform is read where a uniform value is required. The demands that
count start at some arguments and spread in some way, but not through what is read as a parameter. -/
def SoundPromotions (r : Registry) (c : Callee) (m : MaterialRequest)
    (starts : PromotionRequest → String → Prop) (spreads : Demand → Demand → Prop) : Prop :=
  ∀ decl, (r.material c m).result = .ok decl →
    ∀ (i : Nat) (q : PromotionRequest) (d : Source.ParameterDecl) (x : Expression),
      m.promotions[i]? = some q → decl.parameters[i]? = some d →
      d.type.qualifier ≠ .uniform → r.find? q.path c.arguments = some x →
      (r.reading c m).name? x = some q.name →
      ∀ n e, starts q n → c.arguments.get? n = some e →
        ¬ Relation.ReflTransGen
          (fun d y => (r.reading c m).name? d.expression = none ∧ spreads d y)
          (c.demandOn n e) ⟨x, true⟩

theorem declared_of_material {decl : Source.FunctionDecl} (h : (r.material c m).result = .ok decl) :
    List.Forall₂ (fun q d => ∃ p, r.Promotes c q p ∧ r.DeclaresParameter p d)
      m.promotions decl.parameters := by
  obtain ⟨ps, hpromotions, -, hparameters⟩ := wraps_of_material h
  exact forall₂_comp hpromotions hparameters

/-- A parameter is declared uniform just if its request asks for that, if it stands for a resource, or if
its expression has to be uniform somewhere in the argument that the path starts with, by demands that
come down through calls of functions. -/
def DeclaredAsRequired (r : Registry) (c : Callee) (q : PromotionRequest) (d : Source.ParameterDecl) :
    Prop :=
  ∃ x e, r.find? q.path c.arguments = some x ∧ c.arguments.get? q.argumentName = some e ∧
    (d.type.qualifier = .uniform ↔
      r.Reach (c.demandOn q.argumentName e) ⟨x, true⟩ ∨ q.enforceUniform = true ∨
        x.type.isResource = true)

/-- Promotions are sound as far as the analysis goes, and no parameter is declared uniform without need. -/
theorem material_sound (r : Registry) (c : Callee) (m : MaterialRequest) :
    r.SoundPromotions c m (fun q n => n = q.argumentName) r.Follows ∧
    ∀ decl, (r.material c m).result = .ok decl →
      List.Forall₂ (r.DeclaredAsRequired c) m.promotions decl.parameters := by
  have hdeclared : ∀ decl, (r.material c m).result = .ok decl →
      List.Forall₂ (r.DeclaredAsRequired c) m.promotions decl.parameters := by
    intro decl h
    refine (declared_of_material h).imp fun q d ⟨p, hq, hd⟩ => ?_
    obtain ⟨required, hrequired, huniform⟩ := hq.uniform
    obtain ⟨e, he, hreach⟩ := mustBeUniformAt_ok hrequired
    refine ⟨p.init, e, hq.found, he, ?_⟩
    rw [← hreach, hd.qualifier, huniform]
    cases required <;> cases q.enforceUniform <;> cases p.init.type.isResource <;> simp
  refine ⟨fun decl h i q d x hq hd hplain hx _ n e hn he hdown => ?_, hdeclared⟩
  subst hn
  obtain ⟨hi, rfl⟩ := List.getElem?_eq_some_iff.mp hq
  obtain ⟨hi', rfl⟩ := List.getElem?_eq_some_iff.mp hd
  obtain ⟨x', e', hx', he', hiff⟩ := (hdeclared decl h).get hi hi'
  simp only [List.get_eq_getElem] at hx' he' hiff
  rw [hx] at hx'
  cases hx'
  rw [he] at he'
  cases he'
  have hreach := Relation.ReflTransGen.mono (fun _ _ hstep => hstep.2) _ _ hdown
  exact hplain (hiff.mpr (.inl hreach))

theorem mustBeUniformAt_of_worksOff {q : PromotionRequest} {e : Expression}
    {z : Except UniformError (List Demand)} (he : c.arguments.get? q.argumentName = some e)
    (hqueue : r.WorksOff [c.demandOn q.argumentName e] z) (x : Expression) :
    r.mustBeUniformAt c q.path x = z.map fun ds => decide (⟨x, true⟩ ∈ ds) := by
  rw [mustBeUniformAt_eq he]
  exact hqueue.mustBeUniform_eq x

theorem promotion_of_worksOff {q : PromotionRequest} {x e : Expression} {ds : List Demand}
    (hx : r.find? q.path c.arguments = some x) (he : c.arguments.get? q.argumentName = some e)
    (hqueue : r.WorksOff [c.demandOn q.argumentName e] (.ok ds)) :
    r.promotion c q =
      .ok ⟨q, x, decide (⟨x, true⟩ ∈ ds) || q.enforceUniform || x.type.isResource⟩ := by
  have hrequired : r.mustBeUniformAt c q.path x = .ok (decide (⟨x, true⟩ ∈ ds)) :=
    mustBeUniformAt_of_worksOff he hqueue x
  simp only [promotion, hx, hrequired]

def sharedConstant : Callee where
  kind := .material
  name := "::m::g"
  arguments := [("a", .constant 1 ⟨.int, {}⟩ (.int 5)), ("b", .constant 1 ⟨.int, {}⟩ (.int 5))]
  parameterTypes := [("a", ⟨.int, {}⟩), ("b", ⟨.int, ⟨true, false⟩⟩)]

def promote (path : String) : MaterialRequest where
  callee := ⟨0⟩
  name := "w"
  promotions := [{ name := "p", path }]

def mixedFunction : Registry where
  records :=
    [(⟨1⟩, ⟨"mdl::m::f(int,int)", .definition
        { kind := .function, module := ⟨0⟩, name := "::m::f(int,int)", returnType := ⟨.int, {}⟩
          parameters :=
            [{ name := "x", type := ⟨.int, ⟨true, false⟩⟩ }, { name := "y", type := ⟨.int, {}⟩ }] },
        .browsable⟩)]
  lastTag := 1

def mixedCall : Expression :=
  .direct 1 ⟨.int, {}⟩ ⟨1⟩
    [("x", .constant 2 ⟨.int, {}⟩ (.int 5)), ("y", .constant 3 ⟨.int, {}⟩ (.int 6))]

def overMixed : Callee where
  kind := .material
  name := "::m::over"
  arguments := [("k", mixedCall)]
  parameterTypes := [("k", ⟨.int, {}⟩)]

def promoteBoth : MaterialRequest where
  callee := ⟨0⟩
  name := "w"
  promotions := [{ name := "p", path := "k.x" }, { name := "q", path := "k.y" }]

theorem material_overMixed :
    (mixedFunction.material overMixed promoteBoth).result =
      .ok { returnType := .material, name := "w"
            parameters :=
              [⟨.qualified (.builtin "int") .uniform, "p", some (.literal (.int 5)), none⟩,
                ⟨.builtin "int", "q", some (.literal (.int 6)), none⟩]
            body := .letIn
              [⟨.builtin "int", "__tmp0", .named (.ofText "::m::f") [("x", .ofName "p"), ("y", .ofName "q")]⟩]
              (.named (.ofText "::m::over") [("k", .ofName "__tmp0")]) } := by
  have hqueue : mixedFunction.WorksOff ([⟨mixedCall, false⟩] ++ []) _ := .go rfl (.go rfl (.go rfl .done))
  have hfirst := promotion_of_worksOff (c := overMixed) (q := { name := "p", path := "k.x" })
    (x := .constant 2 ⟨.int, {}⟩ (.int 5)) rfl rfl hqueue
  have hsecond := promotion_of_worksOff (c := overMixed) (q := { name := "q", path := "k.y" })
    (x := .constant 3 ⟨.int, {}⟩ (.int 6)) rfl rfl hqueue
  unfold material
  simp only [promoteBoth, List.mapM_cons, List.mapM_nil, hfirst, hsecond]
  rfl

/-- By way of the second argument the parameter for the shared constant is declared uniform. Of the
parameters for the arguments of one call just the first is, and the analysis demands nothing of the other. -/
theorem sharedConstant_uniform :
    (∃ decl, (empty.material sharedConstant (promote "b")).result = .ok decl ∧
      decl.parameters.map (·.type.qualifier) = [.uniform] ∧
      List.Forall₂ (empty.DeclaredAsRequired sharedConstant) (promote "b").promotions
        decl.parameters) ∧
    ∃ decl, (mixedFunction.material overMixed promoteBoth).result = .ok decl ∧
      decl.parameters.map (·.type.qualifier) = [.uniform, .none] ∧
      List.Forall₂ (mixedFunction.DeclaredAsRequired overMixed) promoteBoth.promotions
        decl.parameters ∧
      ¬ Relation.ReflTransGen
        (fun d y => (mixedFunction.reading overMixed promoteBoth).name? d.expression = none ∧
          mixedFunction.Follows d y)
        (overMixed.demandOn "k" mixedCall) ⟨.constant 3 ⟨.int, {}⟩ (.int 6), true⟩ := by
  refine ⟨?shared, _, material_overMixed, rfl,
    (mixedFunction.material_sound overMixed promoteBoth).2 _ material_overMixed, ?unrequired⟩
  case shared =>
    have hqueue : empty.WorksOff ([⟨.constant 1 ⟨.int, {}⟩ (.int 5), true⟩] ++ []) _ := .go rfl .done
    have hpromotion := promotion_of_worksOff (c := sharedConstant) (q := { name := "p", path := "b" })
      rfl rfl hqueue
    have hmaterial : (empty.material sharedConstant (promote "b")).result =
        .ok { returnType := .material, name := "w"
              parameters :=
                [⟨.qualified (.builtin "int") .uniform, "p", some (.literal (.int 5)), none⟩]
              body := .named (.ofText "::m::g") [("a", .ofName "p"), ("b", .ofName "p")] } := by
      unfold material
      simp only [promote, List.mapM_cons, List.mapM_nil, hpromotion]
      rfl
    exact ⟨_, hmaterial, rfl, (empty.material_sound sharedConstant (promote "b")).2 _ hmaterial⟩
  case unrequired =>
    exact (mixedFunction.material_sound overMixed promoteBoth).1 _ material_overMixed 1
      { name := "q", path := "k.y" } ⟨.builtin "int", "q", some (.literal (.int 6)), none⟩ _ rfl rfl
      (by decide) rfl (by decide) "k" mixedCall rfl rfl

theorem not_sound_sharedConstant :
    ¬ empty.SoundPromotions sharedConstant (promote "a") (fun _ _ => True)
      fun d x => empty.Follows d x ∨ empty.EntersMaterial d x := by
  intro h
  have hqueue : empty.WorksOff ([⟨.constant 1 ⟨.int, {}⟩ (.int 5), false⟩] ++ []) _ := .go rfl .done
  have hpromotion := promotion_of_worksOff (c := sharedConstant) (q := { name := "p", path := "a" })
    rfl rfl hqueue
  let d : Source.ParameterDecl := ⟨.builtin "int", "p", some (.literal (.int 5)), none⟩
  have hmaterial : (empty.material sharedConstant (promote "a")).result =
      .ok { returnType := .material, name := "w", parameters := [d]
            body := .named (.ofText "::m::g") [("a", .ofName "p"), ("b", .ofName "p")] } := by
    unfold material
    simp only [promote, List.mapM_cons, List.mapM_nil, hpromotion]
    rfl
  exact h _ hmaterial 0 _ d (.constant 1 ⟨.int, {}⟩ (.int 5)) rfl rfl (by decide) rfl (by decide) "b"
    (.constant 1 ⟨.int, {}⟩ (.int 5)) trivial rfl .refl

def storedGlossy : Registry where
  records :=
    [(⟨2⟩, ⟨"glossy", .call ⟨.material, ⟨1⟩, [("x", .constant 1 ⟨.int, {}⟩ (.int 5))]⟩, .referenceCounted⟩),
     (⟨1⟩, ⟨"mdl::m::glossy(int)", .definition
        { kind := .material, module := ⟨0⟩, name := "::m::glossy(int)", returnType := .material
          parameters := [{ name := "x", type := ⟨.int, ⟨true, false⟩⟩ }] }, .browsable⟩)]
  lastTag := 2

def overGlossy : Callee where
  kind := .material
  name := "::m::over"
  arguments := [("base", .call 2 .material ⟨2⟩)]
  parameterTypes := [("base", .material)]

theorem acyclic_storedGlossy : storedGlossy.Acyclic := by
  refine acyclic_of_decreasing fun x hx l ty u hu => ?_
  simp only [storedGlossy, List.mem_cons, List.not_mem_nil, or_false] at hx
  rcases hx with rfl | rfl <;> simp [Element.occurrences, Expression.partsOfAll, Expression.parts] at hu

theorem material_overGlossy :
    (storedGlossy.material overGlossy (promote "base.x")).result =
      .ok { returnType := .material, name := "w"
            parameters := [⟨.builtin "int", "p", some (.literal (.int 5)), none⟩]
            body := .letIn
              [⟨.builtin "material", "__tmp0", .named (.ofText "::m::glossy") [("x", .ofName "p")]⟩]
              (.named (.ofText "::m::over") [("base", .ofName "__tmp0")]) } := by
  have hqueue : storedGlossy.WorksOff ([⟨.call 2 .material ⟨2⟩, false⟩] ++ []) _ := .go rfl .done
  have hpromotion := promotion_of_worksOff (c := overGlossy) (q := { name := "p", path := "base.x" })
    (x := .constant 1 ⟨.int, {}⟩ (.int 5)) rfl rfl hqueue
  unfold material
  simp only [promote, List.mapM_cons, List.mapM_nil, hpromotion]
  rfl

theorem not_sound_overGlossy :
    ¬ storedGlossy.SoundPromotions overGlossy (promote "base.x") (fun _ _ => True)
      fun d x => storedGlossy.Follows d x ∨ storedGlossy.EntersMaterial d x := by
  intro h
  refine h _ material_overGlossy 0 _ _ (.constant 1 ⟨.int, {}⟩ (.int 5)) rfl rfl (by decide) rfl
    (by decide) "base" (.call 2 .material ⟨2⟩) trivial rfl (.single ⟨by decide, .inr ?_⟩)
  exact .argument rfl rfl (i := 0) rfl ⟨fun _ => ⟨_, _, rfl, rfl, rfl⟩, fun _ => rfl⟩

/-- The analysis sees neither the demands on another argument with the same occurrence in it, nor those
inside a stored material instance. -/
theorem promotions_not_sound :
    (empty.Acyclic ∧ ¬ empty.SoundPromotions sharedConstant (promote "a") (fun _ _ => True)
      fun d x => empty.Follows d x ∨ empty.EntersMaterial d x) ∧
    storedGlossy.Acyclic ∧ ¬ storedGlossy.SoundPromotions overGlossy (promote "base.x")
      (fun _ _ => True) fun d x => storedGlossy.Follows d x ∨ storedGlossy.EntersMaterial d x :=
  ⟨⟨acyclic_of_decreasing (by simp [empty]), not_sound_sharedConstant⟩,
    acyclic_storedGlossy, not_sound_overGlossy⟩

end Registry

end MaterialModules
