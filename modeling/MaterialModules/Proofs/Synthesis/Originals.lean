import MaterialModules.Proofs.Registry.Extension
import MaterialModules.Proofs.Synthesis.Overrides

/-!
Originals of definitions. A definition may export another one again, that one a third, and so on down to
an original. A variant of a definition goes one link down: so it calls the original if there is at most
one link, and a re-export if there are more.
-/

set_option autoImplicit false

namespace MaterialModules

namespace Registry

variable {r : Registry} {d base o : Definition} {n : Nat}

/-- The links from a definition down to its original, by their number. -/
inductive Reexports (r : Registry) : Nat → Definition → Definition → Prop
  | original {d : Definition} (last : d.prototype = none) : Reexports r 0 d d
  | link {n : Nat} {d e o : Definition} {p : Tag} (prototype : d.prototype = some p)
      (found : r.definition? p = some e) (rest : Reexports r n e o) : Reexports r (n + 1) d o

theorem Reexports.prototype_eq_none (h : r.Reexports n d o) : o.prototype = none := by
  induction h with
  | original last => exact last
  | link _ _ _ ih => exact ih

/-- What a variant of a definition is made of: the definition itself if it is an original, and else the
next one down, which has to be of the same kind. -/
inductive BaseOf (r : Registry) (d : Definition) : Definition → Prop
  | original (last : d.prototype = none) : BaseOf r d d
  | reexported {p : Tag} {e : Definition} (prototype : d.prototype = some p)
      (found : r.definition? p = some e) (kind : e.kind = d.kind) : BaseOf r d e

theorem variantBase_ok_iff {t : Tag} :
    r.variantBase t = .ok base ↔ ∃ d, r.definition? t = some d ∧ r.BaseOf d base := by
  unfold variantBase
  constructor
  · intro h
    cases hd : r.definition? t with
    | none => simp [hd] at h
    | some d =>
      cases hp : d.prototype with
      | none =>
        simp only [hd, hp, Except.ok.injEq] at h
        exact ⟨d, rfl, h ▸ .original hp⟩
      | some p =>
        cases he : r.definition? p with
        | none => simp [hd, hp, he] at h
        | some e =>
          by_cases hkind : e.kind = d.kind
          · simp only [hd, hp, he, if_pos hkind, Except.ok.injEq] at h
            exact ⟨d, rfl, h ▸ .reexported hp he hkind⟩
          · simp [hd, hp, he, hkind] at h
  · rintro ⟨d, hd, hbase⟩
    cases hbase with
    | original last => simp only [hd, last]
    | reexported prototype found kind => simp only [hd, prototype, found, if_pos kind]

theorem BaseOf.kind_eq (h : r.BaseOf d base) : base.kind = d.kind := by
  cases h with
  | original => rfl
  | reexported _ _ kind => exact kind

/-- One link down from a definition stands its original if there is at most one link. -/
theorem BaseOf.original_iff (h : r.BaseOf d base) (hchain : r.Reexports n d o) :
    (base.prototype = none ↔ n ≤ 1) ∧ (base = o ↔ n ≤ 1) := by
  cases hchain with
  | original last =>
    cases h with
    | original => simp [last]
    | reexported prototype =>
      rw [last] at prototype
      cases prototype
  | link prototype found rest =>
    cases h with
    | original last =>
      rw [last] at prototype
      cases prototype
    | reexported prototype' found' =>
      cases prototype.symm.trans prototype'
      cases found.symm.trans found'
      cases rest with
      | original last => simp [last]
      | link next _ rest =>
        -- the original has no prototype, but this one has
        refine ⟨by simp [next], ⟨?_, by omega⟩⟩
        rintro rfl
        rw [rest.prototype_eq_none] at next
        cases next

/-- A variant is a call of the definition at its base, of the same kind, which is also what its overrides
are checked against. It is the original of the given definition exactly if this is an original itself or
one link above it. -/
theorem variant_calls_base {v : VariantRequest} {f : Source.FunctionDecl}
    (h : (r.variant v).result = .ok f) :
    ∃ d base, r.definition? v.prototype = some d ∧ r.BaseOf d base ∧ base.kind = d.kind ∧
      base.Accepts v.overrides ∧ f.isClone = true ∧
      (∃ args, f.body = .named (.ofText base.plainName) args) ∧
      ∀ n o, r.Reexports n d o → (base.prototype = none ↔ n ≤ 1) ∧ (base = o ↔ n ≤ 1) := by
  obtain ⟨base, hclones⟩ := clones_of_variant h
  obtain ⟨d, hd, hbase⟩ := variantBase_ok_iff.mp hclones.found
  obtain ⟨args, hbody, -⟩ := hclones.body
  exact ⟨d, base, hd, hbase, hbase.kind_eq, hclones.accepts, hclones.isClone, ⟨args, hbody⟩,
    fun n o hchain => hbase.original_iff hchain⟩

def twiceReexported : Registry where
  records :=
    [(⟨3⟩, ⟨"mdl::m::h()", .definition again, .browsable⟩),
     (⟨2⟩, ⟨"mdl::m::g()", .definition once, .browsable⟩),
     (⟨1⟩, ⟨"mdl::m::f(int)", .definition first, .browsable⟩)]
  lastTag := 3
where
  first : Definition :=
    { kind := .function, module := ⟨0⟩, name := "::m::f(int)", returnType := ⟨.int, {}⟩
      parameters := [{ name := "x", type := ⟨.int, {}⟩ }] }
  once : Definition :=
    { kind := .function, module := ⟨0⟩, name := "::m::g()", returnType := ⟨.int, {}⟩, parameters := []
      prototype := some ⟨1⟩ }
  again : Definition :=
    { kind := .function, module := ⟨0⟩, name := "::m::h()", returnType := ⟨.int, {}⟩, parameters := []
      prototype := some ⟨2⟩ }

def variantOf (t : Tag) (overrides : Arguments) : VariantRequest :=
  { prototype := t, name := "w", overrides }

theorem reexports_once : twiceReexported.Reexports 1 twiceReexported.once twiceReexported.first :=
  .link rfl rfl (.original rfl)

theorem reexports_again : twiceReexported.Reexports 2 twiceReexported.again twiceReexported.first :=
  .link rfl rfl reexports_once

theorem variant_calls_base_once :
    ∃ f, (twiceReexported.variant
        (variantOf ⟨2⟩ [("x", .constant 0 ⟨.int, {}⟩ (.int 5))])).result = .ok f ∧
      (∃ args, f.body = .named (.ofText "::m::f") args) ∧ twiceReexported.first.prototype = none := by
  have hresult : (twiceReexported.variant
      (variantOf ⟨2⟩ [("x", .constant 0 ⟨.int, {}⟩ (.int 5))])).result = .ok
        { returnType := .builtin "int", name := "w", parameters := [], isClone := true
          body := .named (.ofText "::m::f") [("x", .literal (.int 5))] } := rfl
  obtain ⟨d, base, hd, -, -, -, -, ⟨args, hbody⟩, hchain⟩ := variant_calls_base hresult
  cases hd
  obtain ⟨hlast, hbase⟩ := hchain 1 _ reexports_once
  cases hbase.mpr le_rfl
  exact ⟨_, hresult, ⟨args, hbody⟩, hlast.mpr le_rfl⟩

/-- A variant of the re-export of a re-export calls no original. -/
theorem variant_calls_reexport :
    ∃ f, (twiceReexported.variant (variantOf ⟨3⟩ [])).result = .ok f ∧
      twiceReexported.Reexports 2 twiceReexported.again twiceReexported.first ∧
      ∀ t o args, twiceReexported.definition? t = some o → o.prototype = none →
        f.body ≠ .named (.ofText o.plainName) args := by
  have hresult : (twiceReexported.variant (variantOf ⟨3⟩ [])).result = .ok
      { returnType := .builtin "int", name := "w", parameters := [], isClone := true
        body := .named (.ofText "::m::g") [] } := rfl
  refine ⟨_, hresult, reexports_again, fun t o args ho hlast hbody => ?_⟩
  obtain rfl : o = twiceReexported.first := by
    obtain ⟨x, hx, hxo⟩ := definition?_eq_some_iff.mp ho
    have hmem := mem_records hx
    simp only [twiceReexported, List.mem_cons, List.not_mem_nil, or_false, Prod.mk.injEq] at hmem
    rcases hmem with ⟨-, rfl⟩ | ⟨-, rfl⟩ | ⟨-, rfl⟩
    · cases hxo
      cases hlast
    · cases hxo
      cases hlast
    · cases hxo
      rfl
  simp only [Source.Expr.named, Source.Expr.entity, Source.Expr.call.injEq,
    Source.Expr.reference.injEq, Source.TypeName.mk.injEq] at hbody
  exact absurd hbody.1.2.1 (by decide)

end Registry

end MaterialModules
