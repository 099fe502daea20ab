import MaterialModules.Proofs.Synthesis.Mentioning
import MaterialModules.Synthesis.Promotion

set_option autoImplicit false

namespace MaterialModules

def promotionsOf (ps : List Promotion) : Promotions := ps.map fun p => (p.init, p.request.name)

namespace Registry

variable {r : Registry} {c : Callee}

/-- What a request comes to, part by part. -/
structure Promotes (r : Registry) (c : Callee) (q : PromotionRequest) (p : Promotion) : Prop where
  request : p.request = q
  found : r.find? q.path c.arguments = some p.init
  uniform : ∃ required, r.mustBeUniformAt c q.path p.init = .ok required ∧
    p.uniform = (required || q.enforceUniform || p.init.type.isResource)

theorem promotes_of_promotion {q : PromotionRequest} {p : Promotion} (h : r.promotion c q = .ok p) :
    r.Promotes c q p := by
  unfold promotion at h
  split at h
  · cases h
  · rename_i init hfound
    split at h
    · cases h
    · cases h
    · rename_i required hrequired
      cases h
      exact ⟨rfl, hfound, required, hrequired, rfl⟩

structure DeclaresParameter (r : Registry) (p : Promotion) (d : Source.ParameterDecl) : Prop where
  name : d.name = p.request.name
  qualifier : d.type.qualifier = if p.uniform then .uniform else .none
  init : ∃ x, d.default? = some x ∧ (r.source [] p.init).result = .ok x

theorem Kind.qualifier_sourceName (k : Kind) : k.sourceName.qualifier = .none := by
  induction k with
  | array elem qualifiers size ih => exact ih
  | _ => rfl

theorem type_of_promotionDecl {p : Promotion} {d : Source.ParameterDecl} {names : List QualifiedName}
    (h : (r.promotionDecl p).result = .ok (d, names)) :
    d.type = if p.uniform then p.init.type.kind.sourceName.qualified .uniform
      else p.init.type.kind.sourceName := by
  obtain ⟨⟨plain, typeUsers⟩, hplain, h⟩ := Mentioning.bind_ok h
  obtain ⟨_, -, h⟩ := Mentioning.bind_ok h
  obtain ⟨_, -, h⟩ := Mentioning.bind_ok h
  obtain ⟨_, -, h⟩ := Mentioning.bind_ok h
  cases h
  obtain rfl : p.init.type.kind.sourceName = plain := Except.ok.inj (Mentioning.held_ok hplain)
  rfl

theorem declaresParameter_of_promotionDecl {p : Promotion} {d : Source.ParameterDecl}
    {names : List QualifiedName} (h : (r.promotionDecl p).result = .ok (d, names)) :
    r.DeclaresParameter p d := by
  have htype := type_of_promotionDecl h
  obtain ⟨_, -, h⟩ := Mentioning.bind_ok h
  obtain ⟨⟨init, valueUsers⟩, hinit, h⟩ := Mentioning.bind_ok h
  obtain ⟨annotations, -, h⟩ := Mentioning.bind_ok h
  obtain ⟨_, -, h⟩ := Mentioning.bind_ok h
  cases h
  refine ⟨rfl, ?_, init, rfl, Mentioning.held_ok hinit⟩
  rw [htype]
  cases p.uniform with
  | true => rfl
  | false => exact Kind.qualifier_sourceName p.init.type.kind

/-- A declaration that wraps a call: its promotions, its body and its parameters. -/
structure Wraps (r : Registry) (c : Callee) (m : MaterialRequest) (ps : List Promotion)
    (decl : Source.FunctionDecl) : Prop where
  promotions : List.Forall₂ (r.Promotes c) m.promotions ps
  body : (r.wrappedCall (promotionsOf ps) c).result = .ok decl.body
  parameters : List.Forall₂ r.DeclaresParameter ps decl.parameters

theorem promotionDecls_of_material {m : MaterialRequest} {decl : Source.FunctionDecl}
    (h : (r.material c m).result = .ok decl) :
    ∃ ps, List.Forall₂ (r.Promotes c) m.promotions ps ∧
      (r.wrappedCall (promotionsOf ps) c).result = .ok decl.body ∧
      List.Forall₂ (fun p d => ∃ names, (r.promotionDecl p).result = .ok (d, names)) ps decl.parameters := by
  unfold material at h
  dsimp only at h
  split at h
  · obtain ⟨_, hfail, -⟩ := Mentioning.bind_ok h
    cases hfail
  obtain ⟨ps, hps, h⟩ := Mentioning.bind_ok h
  obtain ⟨annotations, -, h⟩ := Mentioning.bind_ok h
  obtain ⟨⟨body, bodyUsers⟩, hbody, h⟩ := Mentioning.bind_ok h
  obtain ⟨_, -, h⟩ := Mentioning.bind_ok h
  obtain ⟨decls, hdecls, h⟩ := Mentioning.bind_ok h
  obtain ⟨_, -, h⟩ := Mentioning.bind_ok h
  obtain ⟨_, -, h⟩ := Mentioning.bind_ok h
  cases h
  refine ⟨ps, (forall₂_of_mapM_ok hps).imp fun _ _ => promotes_of_promotion,
    Mentioning.held_ok hbody, ?_⟩
  rw [List.forall₂_map_right_iff]
  exact (Mentioning.forall₂_of_mapM_ok hdecls).imp fun p d hd => ⟨d.2, hd⟩

theorem wraps_of_material {m : MaterialRequest} {decl : Source.FunctionDecl}
    (h : (r.material c m).result = .ok decl) : ∃ ps, r.Wraps c m ps decl := by
  obtain ⟨ps, hpromotions, hbody, hdecls⟩ := promotionDecls_of_material h
  exact ⟨ps, hpromotions, hbody, hdecls.imp fun _ _ ⟨_, hd⟩ => declaresParameter_of_promotionDecl hd⟩

end Registry

end MaterialModules
