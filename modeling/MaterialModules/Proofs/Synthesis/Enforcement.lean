import MaterialModules.Proofs.Synthesis.Uniformity

/-!
Uniform parameters and what can be asked of their defaults. What is demanded of an expression comes up
again below it, so that an argument does not pass the analysis unless all the expressions that it
demands to be uniform do. A parameter may be declared uniform without any demand: by its type, whatever
the analysis says of the default.
-/

set_option autoImplicit false

namespace MaterialModules

def PromotionRequest.rejection (q : PromotionRequest) : UniformError → ModuleError
  | .conflict cause => .uniformConflict q.path cause
  | .internal cause => .internal cause

namespace Registry

variable {r : Registry} {c : Callee} {m : MaterialRequest} {q : PromotionRequest} {x : Expression}

/-- The argument that the path of a request starts with leads to a demand on `x` to be uniform. -/
def Demands (r : Registry) (c : Callee) (q : PromotionRequest) (x : Expression) : Prop :=
  ∃ e, c.arguments.get? q.argumentName = some e ∧
    r.Reach (c.demandOn q.argumentName e) ⟨x, true⟩

theorem mustBeUniform_self (r : Registry) (x : Expression) :
    (r.mustBeUniform x true x = .ok true ∧ ∀ d err, r.Reach ⟨x, true⟩ d → ¬ r.Fault d err) ∨
    ∃ err d, r.mustBeUniform x true x = .error err ∧ r.Reach ⟨x, true⟩ d ∧ r.Fault d err := by
  rcases r.mustBeUniform_spec x true x with ⟨required, hok, hreach, hfine⟩ | herr
  · rw [hreach.mpr .refl] at hok
    exact .inl ⟨hok, hfine⟩
  · exact .inr herr

/-- What the analysis demands to be uniform can be uniform, if the analysis goes well. -/
theorem Demands.mustBeUniform_eq {required : Bool} (h : r.Demands c q x)
    (hrequired : r.mustBeUniformAt c q.path x = .ok required) :
    r.mustBeUniform x true x = .ok true := by
  obtain ⟨e, he, hdown⟩ := h
  rw [mustBeUniformAt_eq he] at hrequired
  rcases r.mustBeUniform_spec e (c.demandOn q.argumentName e).uniform x with
    ⟨_, -, -, hfine⟩ | ⟨err, _, herr, -⟩
  · rcases r.mustBeUniform_self x with ⟨hok, -⟩ | ⟨err, d, -, hd, hfault⟩
    · exact hok
    · exact absurd hfault (hfine d err (hdown.trans hd))
  · rw [hrequired] at herr
    cases herr

theorem promotion_eq_error {cause : UniformError} (hx : r.find? q.path c.arguments = some x)
    (hcause : r.mustBeUniformAt c q.path x = .error cause) :
    r.promotion c q = .error (q.rejection cause) := by
  unfold promotion
  simp only [hx, hcause]
  cases cause <;> rfl

theorem Demands.mustBeUniformAt_eq_error {err : UniformError} (h : r.Demands c q x)
    (herr : r.mustBeUniform x true x = .error err) :
    ∃ cause, r.mustBeUniformAt c q.path x = .error cause := by
  cases hat : r.mustBeUniformAt c q.path x with
  | error cause => exact ⟨cause, rfl⟩
  | ok required =>
    rw [h.mustBeUniform_eq hat] at herr
    cases herr

theorem fault_of_mustBeUniformAt {cause : UniformError} {e : Expression}
    (he : c.arguments.get? q.argumentName = some e)
    (hcause : r.mustBeUniformAt c q.path x = .error cause) :
    ∃ d, r.Reach (c.demandOn q.argumentName e) d ∧ r.Fault d cause := by
  rw [mustBeUniformAt_eq he] at hcause
  rcases r.mustBeUniform_spec e (c.demandOn q.argumentName e).uniform x with
    ⟨required, hok, -⟩ | ⟨err, d, herr, hd, hfault⟩
  · rw [hok] at hcause
    cases hcause
  · rw [herr] at hcause
    cases hcause
    exact ⟨d, hd, hfault⟩

/-- The analysis of a request fails where the plain queue stops. -/
theorem Acyclic.worksOff_of_mustBeUniformAt {cause : UniformError} {e : Expression} (h : r.Acyclic)
    (he : c.arguments.get? q.argumentName = some e)
    (hcause : r.mustBeUniformAt c q.path x = .error cause) :
    r.WorksOff [c.demandOn q.argumentName e] (.error cause) := by
  obtain ⟨z, hz⟩ := h.exists_worksOff [c.demandOn q.argumentName e]
  rw [mustBeUniformAt_of_worksOff he hz] at hcause
  cases z with
  | ok ds => cases hcause
  | error first =>
    cases hcause
    exact hz

theorem arguments_ne_nil_of_find? {path : String} {args : Arguments}
    (h : r.find? path args = some x) : args ≠ [] := by
  rintro rfl
  unfold find? followIn at h
  split at h
  · cases h
  · cases h

theorem material_eq_error {before after : List PromotionRequest} {e : ModuleError}
    (hm : m.promotions = before ++ q :: after)
    (hbefore : ∀ p ∈ before, ∃ y, r.promotion c p = .ok y)
    (hx : r.find? q.path c.arguments = some x) (hq : r.promotion c q = .error e) :
    (r.material c m).result = .error e := by
  have hargs : c.arguments.isEmpty = false := by simpa using arguments_ne_nil_of_find? hx
  unfold material
  simp only [hargs, hm, mapM_eq_error hbefore hq]
  rfl

/-- A parameter is declared uniform if its default has to be uniform, by request, or by its type. Where
the analysis demands it, the default can be uniform: a request for one that cannot is turned down by the
fault that comes up first below its argument. -/
theorem demanded_defaults_uniform (hacyclic : r.Acyclic) (c : Callee) (m : MaterialRequest) :
    (∀ decl, (r.material c m).result = .ok decl →
      List.Forall₂ (fun q d => ∃ x, r.find? q.path c.arguments = some x ∧
        (d.type.qualifier = .uniform ↔
          r.Demands c q x ∨ q.enforceUniform = true ∨ x.type.isResource = true) ∧
        (r.Demands c q x → r.mustBeUniform x true x = .ok true)) m.promotions decl.parameters) ∧
    ∀ before q after x err, m.promotions = before ++ q :: after →
      (∀ p ∈ before, ∃ y, r.promotion c p = .ok y) → r.find? q.path c.arguments = some x →
      r.Demands c q x → r.mustBeUniform x true x = .error err →
      ∃ e cause d, c.arguments.get? q.argumentName = some e ∧
        r.WorksOff [c.demandOn q.argumentName e] (.error cause) ∧
        r.mustBeUniformAt c q.path x = .error cause ∧
        r.Reach (c.demandOn q.argumentName e) d ∧ r.Fault d cause ∧
        (r.material c m).result = .error (q.rejection cause) := by
  refine ⟨fun decl h => ?_, fun before q after x err hm hbefore hx hdemands herr => ?_⟩
  · refine (declared_of_material h).imp fun q d ⟨p, hq, hd⟩ => ⟨p.init, hq.found, ?_⟩
    obtain ⟨required, hrequired, huniform⟩ := hq.uniform
    obtain ⟨e, he, hreach⟩ := mustBeUniformAt_ok hrequired
    have hdemands : r.Demands c q p.init ↔ required = true := by
      refine ⟨fun ⟨e', he', hdown⟩ => ?_, fun hrequired => ⟨e, he, hreach.mp hrequired⟩⟩
      rw [he] at he'
      cases he'
      exact hreach.mpr hdown
    refine ⟨?_, fun h => h.mustBeUniform_eq hrequired⟩
    rw [hdemands, hd.qualifier, huniform]
    cases required <;> cases q.enforceUniform <;> cases p.init.type.isResource <;> simp
  · obtain ⟨cause, hcause⟩ := hdemands.mustBeUniformAt_eq_error herr
    obtain ⟨e, he, -⟩ := hdemands
    obtain ⟨d, hd, hfault⟩ := fault_of_mustBeUniformAt he hcause
    exact ⟨e, cause, d, he, hacyclic.worksOff_of_mustBeUniformAt he hcause, hcause, hd, hfault,
      material_eq_error hm hbefore hx (promotion_eq_error hx hcause)⟩

def varyingFunctions : Registry where
  records :=
    [(⟨3⟩, ⟨"mdl::m::sum(int,int)", .definition
        { kind := .function, module := ⟨0⟩, name := "::m::sum(int,int)", returnType := ⟨.int, {}⟩
          parameters :=
            [{ name := "x", type := ⟨.int, ⟨true, false⟩⟩ },
              { name := "y", type := ⟨.int, ⟨true, false⟩⟩ }] },
        .browsable⟩),
     (⟨2⟩, ⟨"mdl::m::picture()", .definition
        { kind := .function, module := ⟨0⟩, name := "::m::picture()", parameters := []
          returnType := ⟨.texture .flat, {}⟩, varying := true }, .browsable⟩),
     (⟨1⟩, ⟨"mdl::m::noise()", .definition
        { kind := .function, module := ⟨0⟩, name := "::m::noise()", parameters := []
          returnType := ⟨.int, {}⟩, varying := true }, .browsable⟩)]
  lastTag := 3

def overArgument (type : Ty) (e : Expression) : Callee where
  kind := .material
  name := "::m::over"
  arguments := [("k", e)]
  parameterTypes := [("k", type)]

def noiseCall : Expression := .direct 1 ⟨.int, {}⟩ ⟨1⟩ []

def pictureCall : Expression := .direct 1 ⟨.texture .flat, {}⟩ ⟨2⟩ []

def unknownCall : Expression := .direct 3 ⟨.int, {}⟩ ⟨9⟩ []

def sumCall (l : Nat) (x y : Expression) : Expression :=
  .direct l ⟨.int, {}⟩ ⟨3⟩ [("x", x), ("y", y)]

theorem acyclic_varyingFunctions : varyingFunctions.Acyclic := by
  refine acyclic_of_decreasing fun x hx l ty u hu => ?_
  simp only [varyingFunctions, List.mem_cons, List.not_mem_nil, or_false] at hx
  rcases hx with rfl | rfl | rfl <;> simp [Element.occurrences] at hu

def innerSum : Expression :=
  sumCall 2 (.constant 3 ⟨.int, {}⟩ (.int 1)) (.constant 4 ⟨.int, {}⟩ (.int 2))

def outerSum : Expression := sumCall 1 innerSum (.constant 5 ⟨.int, {}⟩ (.int 3))

def noisySum : Expression := sumCall 2 noiseCall unknownCall

theorem mustBeUniform_noiseCall :
    varyingFunctions.mustBeUniform noiseCall true noiseCall =
      .error (.conflict (.notUniform "::m::noise")) :=
  WorksOff.mustBeUniform_eq (.stop rfl) noiseCall

/-- A first summand that is a sum itself can be uniform, and is declared so. A second summand that has no
definition is turned down for the noise before it, which comes up first. -/
theorem demanded_defaults_uniform_sums :
    (∃ decl, (varyingFunctions.material (overArgument ⟨.int, {}⟩ outerSum) (promote "k.x")).result =
        .ok decl ∧
      decl.parameters.map (·.type.qualifier) = [.uniform] ∧
      varyingFunctions.mustBeUniform innerSum true innerSum = .ok true) ∧
    (varyingFunctions.material (overArgument ⟨.int, ⟨true, false⟩⟩ noisySum) (promote "k.y")).result =
      .error (.uniformConflict "k.y" (.notUniform "::m::noise")) := by
  have houter : varyingFunctions.Demands (overArgument ⟨.int, {}⟩ outerSum)
      { name := "p", path := "k.x" } innerSum := by
    have hdemands : varyingFunctions.demandsOf ⟨outerSum, false⟩ =
        .ok [⟨innerSum, true⟩, ⟨.constant 5 ⟨.int, {}⟩ (.int 3), true⟩] := rfl
    have hfollows := (mem_demandsOf_iff hdemands).mp List.mem_cons_self
    exact ⟨outerSum, rfl, .single hfollows⟩
  refine ⟨?declared, ?turnedDown⟩
  case declared =>
    have hqueue : varyingFunctions.WorksOff ([⟨outerSum, false⟩] ++ []) _ :=
      .go rfl (.go rfl (.go rfl (.go rfl (.go rfl .done))))
    have hpromotion := promotion_of_worksOff (c := overArgument ⟨.int, {}⟩ outerSum)
      (q := { name := "p", path := "k.x" }) (x := innerSum) rfl rfl hqueue
    have hmaterial : ∃ decl, (varyingFunctions.material (overArgument ⟨.int, {}⟩ outerSum)
        (promote "k.x")).result = .ok decl ∧ decl.parameters.map (·.type.qualifier) = [.uniform] := by
      unfold material
      simp only [promote, List.mapM_cons, List.mapM_nil, hpromotion]
      exact ⟨_, rfl, rfl⟩
    obtain ⟨decl, hdecl, huniform⟩ := hmaterial
    have hdeclared : List.Forall₂ _ [_] decl.parameters :=
      (demanded_defaults_uniform acyclic_varyingFunctions (overArgument ⟨.int, {}⟩ outerSum)
        (promote "k.x")).1 decl hdecl
    refine ⟨decl, hdecl, huniform, ?_⟩
    generalize decl.parameters = ds at hdeclared
    cases hdeclared with
    | cons hparameter _ =>
      obtain ⟨x, hx, -, hdefault⟩ := hparameter
      cases hx
      exact hdefault houter
  case turnedDown =>
    have hdemands : varyingFunctions.demandsOf ⟨noisySum, true⟩ =
        .ok [⟨noiseCall, true⟩, ⟨unknownCall, true⟩] := rfl
    have hfollows := (mem_demandsOf_iff hdemands).mp (List.mem_cons_of_mem _ List.mem_cons_self)
    have hunknown : varyingFunctions.mustBeUniform unknownCall true unknownCall = .error _ :=
      WorksOff.mustBeUniform_eq (.stop rfl) unknownCall
    obtain ⟨e, cause, -, he, hfirst, -, -, -, hresult⟩ :=
      (demanded_defaults_uniform acyclic_varyingFunctions
        (overArgument ⟨.int, ⟨true, false⟩⟩ noisySum) (promote "k.y")).2 [] _ [] unknownCall _ rfl
        (by simp) rfl ⟨noisySum, rfl, .single hfollows⟩ hunknown
    cases he
    have hnoise : varyingFunctions.WorksOff ([⟨noisySum, true⟩] ++ []) _ := .go rfl (.stop rfl)
    cases hfirst.unique hnoise
    exact hresult

/-- Each parameter that is declared uniform has a default that can be uniform. -/
def UniformDefaults (r : Registry) (c : Callee) (m : MaterialRequest) : Prop :=
  ∀ decl, (r.material c m).result = .ok decl →
    List.Forall₂ (fun q d => d.type.qualifier = .uniform →
      ∃ x b, r.find? q.path c.arguments = some x ∧ r.mustBeUniform x true x = .ok b)
      m.promotions decl.parameters

/-- A request for a uniform parameter whose default cannot be uniform is turned down by a conflict. -/
def ConflictsRejected (r : Registry) (c : Callee) (m : MaterialRequest) : Prop :=
  ∀ before q after x cause, m.promotions = before ++ q :: after →
    (∀ p ∈ before, ∃ y, r.promotion c p = .ok y) → r.find? q.path c.arguments = some x →
    r.Demands c q x ∨ q.enforceUniform = true ∨ x.type.isResource = true →
    r.mustBeUniform x true x = .error (.conflict cause) →
    ∃ found, (r.material c m).result = .error (.uniformConflict q.path found)

theorem not_uniformDefaults {q : PromotionRequest} {x : Expression} {err : UniformError}
    (hm : m.promotions = [q]) (hx : r.find? q.path c.arguments = some x)
    (huniform : ∃ decl, (r.material c m).result = .ok decl ∧
      decl.parameters.map (·.type.qualifier) = [.uniform])
    (herr : r.mustBeUniform x true x = .error err) : ¬ r.UniformDefaults c m := by
  intro h
  obtain ⟨decl, hdecl, huniform⟩ := huniform
  have hdefaults := h decl hdecl
  rw [hm] at hdefaults
  generalize decl.parameters = ds at hdefaults huniform
  cases hdefaults with
  | cons hdefault _ =>
    obtain ⟨y, b, hy, hb⟩ := hdefault (List.cons.inj huniform).1
    rw [hx] at hy
    cases hy
    rw [herr] at hb
    cases hb

/-- A request makes a parameter of noise uniform, and a texture that varies from point to point becomes
uniform by its type. Where two things are wrong with an argument, the first that comes up is named. -/
theorem uniform_defaults_unchecked :
    varyingFunctions.Acyclic ∧
    ¬ varyingFunctions.UniformDefaults (overArgument ⟨.int, {}⟩ noiseCall)
      { promote "k" with promotions := [{ name := "p", path := "k", enforceUniform := true }] } ∧
    ¬ varyingFunctions.UniformDefaults (overArgument ⟨.texture .flat, {}⟩ pictureCall) (promote "k") ∧
    ¬ varyingFunctions.ConflictsRejected
      (overArgument ⟨.int, {}⟩ (sumCall 2 unknownCall noiseCall)) (promote "k.y") := by
  refine ⟨acyclic_varyingFunctions, ?enforced, ?texture, ?inconsistent⟩
  case enforced =>
    have hqueue : varyingFunctions.WorksOff ([⟨noiseCall, false⟩] ++ []) _ := .go rfl .done
    have hpromotion := promotion_of_worksOff (c := overArgument ⟨.int, {}⟩ noiseCall)
      (q := { name := "p", path := "k", enforceUniform := true }) (x := noiseCall) rfl rfl hqueue
    refine not_uniformDefaults rfl rfl ?_ mustBeUniform_noiseCall
    unfold material
    simp only [List.mapM_cons, List.mapM_nil, hpromotion]
    exact ⟨_, rfl, rfl⟩
  case texture =>
    have hqueue : varyingFunctions.WorksOff ([⟨pictureCall, false⟩] ++ []) _ := .go rfl .done
    have hpromotion := promotion_of_worksOff (c := overArgument ⟨.texture .flat, {}⟩ pictureCall)
      (q := { name := "p", path := "k" }) (x := pictureCall) rfl rfl hqueue
    have hpicture : varyingFunctions.mustBeUniform pictureCall true pictureCall = .error _ :=
      WorksOff.mustBeUniform_eq (.stop rfl) pictureCall
    refine not_uniformDefaults rfl rfl ?_ hpicture
    unfold material
    simp only [promote, List.mapM_cons, List.mapM_nil, hpromotion]
    exact ⟨_, rfl, rfl⟩
  case inconsistent =>
    intro h
    -- the first summand has no definition, and that comes up before the noise in the second one
    have hqueue : varyingFunctions.WorksOff ([⟨sumCall 2 unknownCall noiseCall, false⟩] ++ []) _ :=
      .go rfl (.stop rfl)
    have hcause := mustBeUniformAt_of_worksOff (q := { name := "p", path := "k.y" })
      (c := overArgument ⟨.int, {}⟩ (sumCall 2 unknownCall noiseCall)) rfl hqueue noiseCall
    have hrequests : (promote "k.y").promotions = [] ++ { name := "p", path := "k.y" } :: [] := rfl
    have hmaterial := material_eq_error hrequests (by simp) rfl (promotion_eq_error rfl hcause)
    have hdemands : varyingFunctions.demandsOf ⟨sumCall 2 unknownCall noiseCall, false⟩ =
        .ok [⟨unknownCall, true⟩, ⟨noiseCall, true⟩] := rfl
    have hfollows := (mem_demandsOf_iff hdemands).mp (List.mem_cons_of_mem _ List.mem_cons_self)
    obtain ⟨found, hfound⟩ := h [] { name := "p", path := "k.y" } [] noiseCall _ hrequests (by simp) rfl
      (.inl ⟨_, rfl, .single hfollows⟩) mustBeUniform_noiseCall
    rw [hmaterial] at hfound
    cases hfound

end Registry

end MaterialModules
