import MaterialModules.Proofs.Source.Scope
import MaterialModules.Proofs.Synthesis.Preservation

/-!
The names in a wrapping material. Parameters are named as the request says, and local constants are
numbered without regard to that; as long as the two do not meet, each reference means what it was made
for.
-/

set_option autoImplicit false

namespace MaterialModules

open Source (Expr Local Scope)

namespace Mentioning

variable {α β : Type} {P : α → Prop} {Q : β → Prop}

def Yields (P : α → Prop) (x : Mentioning α) : Prop := ∀ a, x.result = .ok a → P a

theorem yields_pure {a : α} (h : P a) : (Pure.pure a : Mentioning α).Yields P := fun b hb => by
  cases hb
  exact h

theorem yields_fail (e : ModuleError) : (fail e : Mentioning α).Yields P := nofun

theorem Yields.bind {x : Mentioning α} {f : α → Mentioning β} (hx : x.Yields P)
    (hf : ∀ a, P a → (f a).Yields Q) : (x >>= f).Yields Q := by
  intro b hb
  obtain ⟨a, ha, hb⟩ := bind_ok hb
  exact hf a (hx a ha) b hb

theorem Yields.after {x : Mentioning α} {f : α → Mentioning β} (hf : ∀ a, (f a).Yields Q) :
    (x >>= f).Yields Q := by
  intro b hb
  obtain ⟨a, -, hb⟩ := bind_ok hb
  exact hf a b hb

end Mentioning

open Mentioning

theorem Definition.callSource_flat (d : Definition) {operand : Nat → Mentioning Expr}
    {all : Unit → Mentioning (List (String × Expr))} (hone : ∀ i, (operand i).Yields Expr.Flat)
    (hall : (all ()).Yields fun xs => ∀ x ∈ xs, x.2.Flat) : (d.callSource operand all).Yields Expr.Flat := by
  unfold callSource
  extract_lets rest
  have hrest : (rest ()).Yields Expr.Flat := by
    simp only [rest]
    split
    · split
      · exact (hone 0).bind fun _ ha => (hone 1).bind fun _ hb => yields_pure (.binary _ ha hb)
      · split
        · exact (hone 0).bind fun _ ha => yields_pure (.unary _ ha)
        · exact (hone 0).bind fun _ ha => yields_pure (.unary _ ha)
        · exact (hone 0).bind fun _ ha => yields_pure (.unary _ ha)
        · exact (hone 0).bind fun _ ha => (hone 1).bind fun _ hb => (hone 2).bind fun _ hc =>
            yields_pure (.conditional ha hb hc)
        · exact (hone 0).bind fun _ ha => yields_pure (.field _ ha)
        · exact hone 0
    · exact (hone 0).bind fun _ ha => yields_pure (.field _ ha)
    · exact (hone 0).bind fun _ ha => (hone 1).bind fun _ hb => yields_pure (.index ha hb)
    · split
      · refine .after fun _ => hall.bind fun xs hxs => yields_pure (.construct fun e he => ?_)
        obtain ⟨x, hx, rfl⟩ := List.mem_map.mp he
        exact hxs x hx
      · exact yields_fail _
    · exact hall.bind fun _ hxs => yields_pure (.named hxs)
  split
  · exact .after fun _ => hrest
  · exact .after fun _ => hrest
  · exact hrest

namespace Registry

variable {r : Registry} {c : Callee} {m : MaterialRequest} {ps : Promotions}

theorem resourceItems_flat (r : Registry) (t : Option Tag) :
    (r.resourceItems t).Yields fun es => ∀ e ∈ es, e.Flat := by
  refine .after fun path => yields_pure fun e he => ?_
  obtain ⟨p, -, rfl⟩ := List.mem_map.mp he
  exact .literal _

mutual

theorem valueSource_flat (r : Registry) : (v : Value) → (r.valueSource v).Yields Expr.Flat
  | .bool _ | .int _ | .float _ | .double _ | .string _ => yields_pure (.literal _)
  | .color _ _ _ => by
    refine yields_pure (.construct fun e he => ?_)
    obtain ⟨x, -, rfl⟩ := List.mem_map.mp he
    exact .literal _
  | .vector items => .after fun _ => (valueSources_flat r items).bind fun _ h => yields_pure (.construct h)
  | .enumeration _ _ _ => .after fun _ => yields_pure (.reference _)
  | .struct _ fields => .after fun _ => (fieldSources_flat r fields).bind fun _ h => yields_pure (.named h)
  | .array _ items => .after fun _ => (valueSources_flat r items).bind fun _ h => yields_pure (.construct h)
  | .texture _ _ _ => by
    refine .after fun path => yields_pure (.construct fun e he => ?_)
    cases path with
    | none => cases he
    | some p =>
      rcases List.mem_cons.mp he with rfl | he
      · exact .literal _
      · cases List.mem_singleton.mp he
        exact .reference _
  | .lightProfile t | .bsdfMeasurement t =>
    (resourceItems_flat r t).bind fun _ h => yields_pure (.construct h)
  | .emptyDistribution _ => yields_pure (.construct nofun)

theorem valueSources_flat (r : Registry) : (vs : List Value) →
    (r.valueSources vs).Yields fun es => ∀ e ∈ es, e.Flat
  | [] => yields_pure nofun
  | v :: vs => (valueSource_flat r v).bind fun _ he => (valueSources_flat r vs).bind fun _ hes =>
    yields_pure (List.forall_mem_cons.mpr ⟨he, hes⟩)

theorem fieldSources_flat (r : Registry) : (vs : List (String × Value)) →
    (r.fieldSources vs).Yields fun xs => ∀ x ∈ xs, x.2.Flat
  | [] => yields_pure nofun
  | (_, v) :: vs => (valueSource_flat r v).bind fun _ he => (fieldSources_flat r vs).bind fun _ hes =>
    yields_pure (List.forall_mem_cons.mpr ⟨he, hes⟩)

end

theorem replacing_flat {e : Expression} {plain : Unit → Mentioning Expr}
    (h : (plain ()).Yields Expr.Flat) : (ps.replacing e plain).Yields Expr.Flat := by
  unfold Promotions.replacing
  split
  · exact yields_pure (.reference _)
  · exact h

section Stored

variable {stored : Tag → Mentioning Expr}

mutual

theorem sourceAmong_flat (h : ∀ t, (stored t).Yields Expr.Flat) : (e : Expression) →
    (r.sourceAmong ps stored e).Yields Expr.Flat
  | .constant _ _ v => replacing_flat (valueSource_flat r v)
  | .call _ _ t => replacing_flat (h t)
  | .direct _ _ t args => by
    simp only [sourceAmong]
    refine replacing_flat ?_
    cases r.definition? t with
    | none => exact yields_fail _
    | some d => exact d.callSource_flat (fun i => operandSource_flat h args i i) (argumentSources_flat h args)
  | .parameter _ _ _ | .temporary _ _ _ => replacing_flat (yields_fail _)

theorem argumentSources_flat (h : ∀ t, (stored t).Yields Expr.Flat) : (args : Arguments) →
    (r.argumentSources ps stored args).Yields fun xs => ∀ x ∈ xs, x.2.Flat
  | [] => yields_pure nofun
  | (_, e) :: rest => (sourceAmong_flat h e).bind fun _ he => (argumentSources_flat h rest).bind fun _ hes =>
    yields_pure (List.forall_mem_cons.mpr ⟨he, hes⟩)

theorem operandSource_flat (h : ∀ t, (stored t).Yields Expr.Flat) : (args : Arguments) → (w i : Nat) →
    (r.operandSource ps stored w i args).Yields Expr.Flat
  | [], _, _ => yields_fail _
  | (_, e) :: _, _, 0 => sourceAmong_flat h e
  | _ :: rest, w, i + 1 => operandSource_flat h rest w i

end

end Stored

theorem storedSource_flat (r : Registry) (ps : Promotions) (depth : Nat) :
    ∀ enclosing t, (r.storedSource ps depth enclosing t).Yields Expr.Flat := by
  induction depth with
  | zero => exact fun _ _ => yields_fail _
  | succ depth ih =>
    intro enclosing t
    rw [storedSource]
    split
    · exact yields_fail _
    · split
      · exact yields_fail _
      · split
        · exact yields_fail _
        · rename_i call _ _ d _
          exact d.callSource_flat (fun i => operandSource_flat (ih _) call.arguments i i)
            (argumentSources_flat (ih _) call.arguments)

theorem source_flat (r : Registry) (ps : Promotions) (e : Expression) : (r.source ps e).Yields Expr.Flat :=
  sourceAmong_flat (storedSource_flat r ps _ _) e

theorem names_of_argumentBindings {args : Arguments} {i : Nat} {bs : List (Source.Binding Expr)}
    (h : (r.argumentBindings ps i args).result = .ok bs) :
    bs.map (·.name) = (List.range' i args.length).map temporaryName := by
  induction args generalizing i bs with
  | nil =>
    cases h
    rfl
  | cons a rest ih =>
    obtain ⟨type, -, h⟩ := bind_ok h
    obtain ⟨y, -, h⟩ := bind_ok h
    obtain ⟨bs, hrest, h⟩ := bind_ok h
    cases h
    rw [List.map_cons, ih hrest]
    rfl

theorem forall₂_of_argumentBindings {args : Arguments} {i : Nat} {bs : List (Source.Binding Expr)}
    (h : (r.argumentBindings ps i args).result = .ok bs) :
    List.Forall₂ (fun a b => b.type = a.2.type.kind.sourceName ∧ (r.source ps a.2).result = .ok b.init)
      args bs := by
  induction args generalizing i bs with
  | nil =>
    cases h
    exact .nil
  | cons a rest ih =>
    obtain ⟨type, htype, h⟩ := bind_ok h
    obtain ⟨y, hy, h⟩ := bind_ok h
    obtain ⟨bs, hrest, h⟩ := bind_ok h
    cases h
    exact .cons ⟨(Except.ok.inj htype).symm, hy⟩ (ih hrest)

theorem inits_of_argumentBindings {args : Arguments} {i : Nat} {bs : List (Source.Binding Expr)}
    (h : (r.argumentBindings ps i args).result = .ok bs) :
    List.Forall₂ (fun a b => (r.source ps a.2).result = .ok b.init) args bs :=
  (forall₂_of_argumentBindings h).imp fun _ _ hab => hab.2

/-- The local constants that a wrapping material declares: one for each argument of the call, unless all
arguments are parameters themselves. -/
def temporaries (r : Registry) (c : Callee) (m : MaterialRequest) : List String :=
  if c.arguments.all fun a => ((r.reading c m).name? a.2).isSome then []
  else (List.range c.arguments.length).map temporaryName

theorem Wraps.reading_eq {promotions : List Promotion} {decl : Source.FunctionDecl}
    (h : r.Wraps c m promotions decl) : promotionsOf promotions = r.reading c m := by
  have hfound : ∀ {qs : List PromotionRequest} {ps : List Promotion}, List.Forall₂ (r.Promotes c) qs ps →
      promotionsOf ps =
        qs.filterMap fun q => (r.find? q.path c.arguments).map fun x => (x, q.name) := by
    intro qs ps hqs
    induction hqs with
    | nil => rfl
    | @cons q p _ _ hq _ ih =>
      rw [List.filterMap_cons, hq.found, ← ih]
      show (p.init, p.request.name) :: _ = _
      rw [hq.request]
      rfl
  exact hfound h.promotions

def callOfTemporaries (c : Callee) : Expr :=
  .named (.ofText c.name) (c.arguments.mapIdx fun i a => (a.1, .ofName (temporaryName i)))

theorem flat_callOfTemporaries (c : Callee) : (callOfTemporaries c).Flat := by
  refine .named fun x hx => ?_
  obtain ⟨i, hi, rfl⟩ := List.mem_mapIdx.mp hx
  exact .reference _

theorem flat_named_of_promotedArguments {args : Arguments} {xs : List (String × Expr)}
    (h : (r.promotedArguments ps args).result = .ok xs) (q : QualifiedName) :
    (Expr.named q xs).Flat := by
  refine .named fun x hx => ?_
  obtain ⟨a, -, -, ha⟩ := exists_mem_right (forall₂_of_promotedArguments h).flip hx
  exact source_flat r ps a.2 x.2 ha

/-- The two forms of a body: the call with all its arguments as parameters, or the call with local
constants for its arguments. -/
theorem wrappedCall_cases {body : Expr} (h : (r.wrappedCall ps c).result = .ok body) :
    (c.arguments.all (fun a => (ps.name? a.2).isSome) = true ∧
      ∃ xs, (r.promotedArguments ps c.arguments).result = .ok xs ∧
        body = .named (.ofText c.name) xs) ∨
      c.arguments.all (fun a => (ps.name? a.2).isSome) = false ∧
      ∃ bs, (r.argumentBindings ps 0 c.arguments).result = .ok bs ∧
        body = .letIn bs (callOfTemporaries c) := by
  unfold wrappedCall at h
  split at h
  · rename_i hall
    obtain ⟨xs, hxs, h⟩ := bind_ok h
    cases h
    exact .inl ⟨hall, xs, hxs, rfl⟩
  · rename_i hall
    obtain ⟨bs, hbs, h⟩ := bind_ok h
    cases h
    exact .inr ⟨Bool.eq_false_iff.mpr hall, bs, hbs, rfl⟩

section Wrapping

variable {promotions : List Promotion} {decl : Source.FunctionDecl}

theorem Wraps.shallow (h : r.Wraps c m promotions decl) : decl.body.Shallow := by
  rcases wrappedCall_cases h.body with ⟨-, xs, hxs, hbody⟩ | ⟨-, bs, hbs, hbody⟩
  · rw [hbody]
    exact .inl (flat_named_of_promotedArguments hxs _)
  · refine .inr ⟨bs, _, hbody, fun b hb => ?_, flat_callOfTemporaries c⟩
    obtain ⟨a, -, ha⟩ := exists_mem_right (inits_of_argumentBindings hbs).flip hb
    exact source_flat r _ a.2 b.init ha

theorem Wraps.names_locals (h : r.Wraps c m promotions decl) :
    decl.body.locals.map (·.name) = r.temporaries c m := by
  unfold temporaries
  rw [← h.reading_eq]
  rcases wrappedCall_cases h.body with ⟨hall, xs, -, hbody⟩ | ⟨hall, bs, hbs, hbody⟩
  · rw [if_pos hall, hbody]
    rfl
  · rw [if_neg (Bool.eq_false_iff.mp hall), hbody, List.range_eq_range']
    exact names_of_argumentBindings hbs

/-- A wrapping material is hygienic just if the request brings no name twice and none of the local
constants'. -/
theorem Wraps.hygienic_iff (h : r.Wraps c m promotions decl) :
    decl.Hygienic ↔
      (m.promotions.map (·.name)).Nodup ∧ ∀ q ∈ m.promotions, q.name ∉ r.temporaries c m := by
  have hnames := h.parameterNames
  have hapart : (∀ d ∈ decl.parameters, ∀ b ∈ decl.body.locals, d.name ≠ b.name) ↔
      ∀ n ∈ decl.parameters.map (·.name), n ∉ decl.body.locals.map (·.name) := by
    rw [List.forall_mem_map]
    simp only [List.mem_map, not_exists, not_and, ne_comm, ne_eq]
  rw [h.names_locals, hnames, List.forall_mem_map] at hapart
  refine ⟨fun ⟨hdistinct, hlocals⟩ => ⟨hnames ▸ hdistinct, hapart.mp hlocals⟩, fun ⟨hdistinct, hfree⟩ => ?_⟩
  exact ⟨hnames ▸ hdistinct, hapart.mpr hfree⟩

theorem nodup_temporaryNames (k : Nat) : ((List.range' 0 k).map temporaryName).Nodup :=
  (List.nodup_range' ..).map fun _ _ => temporaryName_injective

end Wrapping

/-- Each reference in a wrapping material means what it was made for. -/
structure Resolves (r : Registry) (c : Callee) (m : MaterialRequest) (decl : Source.FunctionDecl) :
    Prop where
  /-- A promoted expression is replaced by a name that refers, wherever it stands in the body, to the
  parameter with the source of the expression as its default. -/
  promoted : ∀ e n, (r.reading c m).name? e = some n →
    r.source (r.reading c m) e = Pure.pure (.ofName n) ∧
    ∃ d ∈ decl.parameters, d.name = n ∧ (∃ x, d.default? = some x ∧ (r.source [] e).result = .ok x) ∧
      ∀ sc, decl.body.Refers decl.scope n sc → sc.lookup n = some (.parameter d)
  /-- The call takes for each argument the name of a local constant, which refers to the one with the
  source of that argument as its value. -/
  temporary : ∀ bs inner, decl.body = .letIn bs inner →
    ∃ xs, inner = .named (.ofText c.name) xs ∧
      ∀ (i : Nat) (a : String × Expression), c.arguments[i]? = some a →
        ∃ b, bs[i]? = some b ∧ xs[i]? = some (a.1, .ofName b.name) ∧
          (r.source (r.reading c m) a.2).result = .ok b.init ∧
          ∀ sc, inner.Refers (decl.scope.enter bs) b.name sc → sc.lookup b.name = some (.constant b)

theorem Wraps.resolves {promotions : List Promotion} {decl : Source.FunctionDecl}
    (h : r.Wraps c m promotions decl) (hhygienic : decl.Hygienic) : r.Resolves c m decl where
  promoted := by
    intro e n hn
    refine ⟨source_of_promoted hn, ?_⟩
    rw [← h.reading_eq] at hn
    obtain ⟨p, hp, rfl, rfl⟩ := promotion_of_name hn
    obtain ⟨d, hd, hdp⟩ := exists_mem_right h.parameters hp
    exact ⟨d, hd, hdp.name, hdp.init, fun sc hsc =>
      hdp.name ▸ hhygienic.lookup_parameter h.shallow hd (hdp.name ▸ hsc)⟩
  temporary := by
    intro bs inner hbody
    rcases wrappedCall_cases h.body with ⟨-, xs, -, hbody'⟩ | ⟨-, bs', hbs, hbody'⟩
    · cases hbody.symm.trans hbody'
    · cases hbody.symm.trans hbody'
      have hinits := inits_of_argumentBindings hbs
      have hnames := names_of_argumentBindings hbs
      have hdistinct : (bs.map (·.name)).Nodup := hnames ▸ nodup_temporaryNames _
      refine ⟨_, rfl, fun i a ha => ?_⟩
      obtain ⟨hi, rfl⟩ := List.getElem?_eq_some_iff.mp ha
      have hi' : i < bs.length := by rwa [← hinits.length_eq]
      have hname : bs[i].name = temporaryName i := by
        have hi'' := congrArg (·[i]?) hnames
        simpa [hi, hi'] using hi''
      refine ⟨bs[i], List.getElem?_eq_getElem hi', ?_, ?_, fun sc hsc => ?_⟩
      · rw [List.getElem?_mapIdx, ha, hname]
        rfl
      · rw [← h.reading_eq]
        exact hinits.get hi hi'
      · rw [(flat_callOfTemporaries c).scope_eq hsc]
        exact Scope.lookup_enter_of_mem hdistinct (List.getElem_mem hi')

/-- The parameters of a wrapping material have the names that the request gives them, and its local
constants those of a numbering of their own. If no name occurs twice, which is not checked, then each
reference means what it was made for. -/
theorem material_hygiene {decl : Source.FunctionDecl} (h : (r.material c m).result = .ok decl) :
    decl.parameters.map (·.name) = m.promotions.map (·.name) ∧
    decl.body.locals.map (·.name) = r.temporaries c m ∧
    (decl.Hygienic ↔
      (m.promotions.map (·.name)).Nodup ∧ ∀ q ∈ m.promotions, q.name ∉ r.temporaries c m) ∧
    (decl.Hygienic → r.Resolves c m decl) := by
  obtain ⟨promotions, hwraps⟩ := wraps_of_material h
  exact ⟨hwraps.parameterNames, hwraps.names_locals, hwraps.hygienic_iff, hwraps.resolves⟩

theorem material_hygiene_overGlossy :
    ∃ decl, (storedGlossy.material overGlossy (promote "base.x")).result = .ok decl ∧
      decl.parameters.map (·.name) = ["p"] ∧ decl.body.locals.map (·.name) = ["__tmp0"] ∧
      decl.Hygienic ∧ storedGlossy.Resolves overGlossy (promote "base.x") decl := by
  obtain ⟨hparameters, hlocals, hiff, hresolves⟩ := material_hygiene material_overGlossy
  have hhygienic := hiff.mpr ⟨by decide, by decide⟩
  exact ⟨_, material_overGlossy, hparameters, hlocals, hhygienic, hresolves hhygienic⟩

def twoNumbers : Callee where
  kind := .material
  name := "::m::over"
  arguments := [("a", .constant 1 ⟨.int, {}⟩ (.int 1)), ("b", .constant 2 ⟨.int, {}⟩ (.int 2))]
  parameterTypes := [("a", ⟨.int, {}⟩), ("b", ⟨.int, {}⟩)]

def namesakes : MaterialRequest where
  callee := ⟨0⟩
  name := "w"
  promotions := [{ name := "p", path := "a" }, { name := "p", path := "b" }]

def captured : MaterialRequest where
  callee := ⟨0⟩
  name := "w"
  promotions := [{ name := "__tmp0", path := "b" }]

theorem material_namesakes :
    (empty.material twoNumbers namesakes).result =
      .ok { returnType := .material, name := "w"
            parameters := [⟨.builtin "int", "p", some (.literal (.int 1)), none⟩,
              ⟨.builtin "int", "p", some (.literal (.int 2)), none⟩]
            body := .named (.ofText "::m::over") [("a", .ofName "p"), ("b", .ofName "p")] } := by
  have hqueue : ∀ l n, empty.WorksOff ([⟨.constant l ⟨.int, {}⟩ (.int n), false⟩] ++ []) _ :=
    fun _ _ => .go rfl .done
  have hfirst := promotion_of_worksOff (c := twoNumbers) (q := { name := "p", path := "a" })
    rfl rfl (hqueue 1 1)
  have hsecond := promotion_of_worksOff (c := twoNumbers) (q := { name := "p", path := "b" })
    rfl rfl (hqueue 2 2)
  unfold material
  simp only [namesakes, List.mapM_cons, List.mapM_nil, hfirst, hsecond]
  rfl

theorem material_captured :
    (empty.material twoNumbers captured).result =
      .ok { returnType := .material, name := "w"
            parameters := [⟨.builtin "int", "__tmp0", some (.literal (.int 2)), none⟩]
            body := .letIn [⟨.builtin "int", "__tmp0", .literal (.int 1)⟩,
                ⟨.builtin "int", "__tmp1", .ofName "__tmp0"⟩]
              (.named (.ofText "::m::over") [("a", .ofName "__tmp0"), ("b", .ofName "__tmp1")]) } := by
  have hqueue : empty.WorksOff ([⟨.constant 2 ⟨.int, {}⟩ (.int 2), false⟩] ++ []) _ := .go rfl .done
  have hpromotion := promotion_of_worksOff (c := twoNumbers) (q := { name := "__tmp0", path := "b" })
    rfl rfl hqueue
  unfold material
  simp only [captured, List.mapM_cons, List.mapM_nil, hpromotion]
  rfl

/-- Names that meet are not refused. Of two parameters of one name the second is never referred to, and
a parameter with the name of a local constant is hidden by that. -/
theorem hygiene_unchecked :
    (∃ decl, (empty.material twoNumbers namesakes).result = .ok decl ∧ ¬decl.Hygienic ∧
      ¬empty.Resolves twoNumbers namesakes decl) ∧
    ∃ decl, (empty.material twoNumbers captured).result = .ok decl ∧ ¬decl.Hygienic ∧
      ¬empty.Resolves twoNumbers captured decl := by
  refine ⟨⟨_, material_namesakes, fun h => absurd h.distinct (by decide), fun h => ?_⟩,
    ⟨_, material_captured, fun h => ?_, fun h => ?_⟩⟩
  · obtain ⟨-, d, -, -, ⟨x, hdefault, hx⟩, hrefers⟩ :=
      h.promoted (.constant 2 ⟨.int, {}⟩ (.int 2)) "p" (by decide)
    have hfirst := hrefers _ (.argument (a := ⟨some "a", .ofName "p"⟩) List.mem_cons_self (.reference rfl))
    cases hfirst
    cases hdefault
    cases hx
  · exact h.apart _ List.mem_cons_self _ List.mem_cons_self rfl
  · obtain ⟨-, d, -, -, -, hrefers⟩ :=
      h.promoted (.constant 2 ⟨.int, {}⟩ (.int 2)) "__tmp0" (by decide)
    have hhidden := hrefers _ (@Expr.Refers.init _ _ [_] [] _ _ _ (.reference rfl))
    cases hhidden

end Registry

end MaterialModules
