import MaterialModules.Proofs.Registration.Run

/-!
The finalizations that a finalization leads to, one inside the other. One that fails inside makes those
around it fail, and no module enters any more.
-/

set_option autoImplicit false

namespace MaterialModules

namespace Registrar

variable {g : Registrar} {enclosing : List String} {m i : CompiledModule} {p s u : Progress}
  {code : GeneratedCode}

def opening (g : Registrar) (m : CompiledModule) : Work GeneratedCode := do
  Work.report m.messages
  g.restore m
  g.generate m

theorem idles_opening (g : Registrar) (m : CompiledModule) : (g.opening m).Idles :=
  (Work.idles_report _).bind fun _ => (idles_restore g m).bind fun _ => idles_generate g m

theorem finalize_of_opening (hvalid : m.valid = true)
    (hmissing : p.registry.registeredModule m.name = .ok none)
    (h : g.opening m p = (.ok code, s)) :
    g.finalize enclosing m p =
      Work.closedBy (g.finalizeAll (enclosing ++ [m.name]) m.name m.imports >>= g.enrol m code)
        (.drop m.name) s := by
  obtain ⟨_, p₁, hp₁, h⟩ := Work.bind_ok h
  obtain ⟨_, p₂, hp₂, h⟩ := Work.bind_ok h
  have hkeep : p₁.registry = p.registry := ((Work.idles_report _).idle hp₁).registry
  rw [finalize_eq, Work.bind_apply, hp₁]
  simp only [hvalid, if_pos]
  rw [Work.bind_apply, registered_apply, hkeep, hmissing]
  simp only
  rw [Work.bind_apply, hp₂]
  simp only [Work.closedBy]
  rw [Work.bind_apply, h]

theorem finalizeAll_append (g : Registrar) (enclosing : List String) (owner : String)
    (is js : List CompiledModule) :
    g.finalizeAll enclosing owner (is ++ js) = (do
      let tags ← g.finalizeAll enclosing owner is
      let more ← g.finalizeAll enclosing owner js
      pure (tags ++ more)) := by
  induction is with
  | nil =>
    rw [List.nil_append, finalizeAll]
    show _ = (pure [] >>= _ : Work (List Tag))
    simp
  | cons i is ih =>
    rw [List.cons_append, finalizeAll_cons, finalizeAll_cons, ih]
    simp only [bind_assoc]
    rfl

/-- On its way, the finalization of a module comes to finalize one of its imports. -/
structure TurnsTo (g : Registrar) (enclosing : List String) (m : CompiledModule) (p : Progress)
    (i : CompiledModule) (u : Progress) : Prop where
  valid : m.valid = true
  unregistered : p.registry.registeredModule m.name = .ok none
  earlier : ∃ code s before after tags, g.opening m p = (.ok code, s) ∧
    m.imports = before ++ i :: after ∧
    g.finalizeAll (enclosing ++ [m.name]) m.name before s = (.ok tags, u)
  missing : u.registry.registeredModule i.name = .ok none
  allowed : i.name ∉ enclosing ++ [m.name]

theorem finalizeAll_of_fails {owner : String} (hmissing : u.registry.registeredModule i.name = .ok none)
    (hallowed : i.name ∉ enclosing) {e : ModuleError} {w : Progress}
    (hi : g.finalize enclosing i u = (.error e, w)) (after : List CompiledModule) :
    g.finalizeAll enclosing owner (i :: after) u = (.error (.importFailed owner i.name),
      { w with messages := w.messages ++ [Message.failure e.message] }) := by
  rw [finalizeAll_cons, Work.bind_apply, registered_apply, hmissing]
  simp only [importTag, if_neg hallowed]
  rw [Work.bind_apply, Work.bind_apply, Work.failingWith, hi]

/-- If the import fails then so does the module, which reports the failure and drops its imports. -/
theorem TurnsTo.fails_eq (h : g.TurnsTo enclosing m p i u) {e : ModuleError} {w : Progress}
    (hi : g.finalize (enclosing ++ [m.name]) i u = (.error e, w)) :
    g.finalize enclosing m p = (.error (.importFailed m.name i.name),
      { w with messages := w.messages ++ [Message.failure e.message]
               events := w.events ++ [.drop m.name] }) := by
  obtain ⟨code, s, before, after, tags, hopening, himports, hbefore⟩ := h.earlier
  rw [finalize_of_opening h.valid h.unregistered hopening, himports, Work.closedBy,
    Work.bind_apply, finalizeAll_append, Work.bind_apply, hbefore]
  simp only
  rw [Work.bind_apply, finalizeAll_of_fails h.missing h.allowed hi]

theorem TurnsTo.fails (h : g.TurnsTo enclosing m p i u) {e : ModuleError} {w : Progress}
    (hi : g.finalize (enclosing ++ [m.name]) i u = (.error e, w)) :
    ∃ e' w', g.finalize enclosing m p = (.error e', w') ∧ w'.registry = w.registry :=
  ⟨_, _, h.fails_eq hi, rfl⟩

theorem TurnsTo.registers (hg : g.resolver.EntersResources) (h : g.TurnsTo enclosing m p i u) :
    ∃ ms, g.Registers p.registry ms u.registry ∧ ∀ n ∈ ms, m.Reaches n := by
  obtain ⟨code, s, before, after, tags, hopening, himports, hbefore⟩ := h.earlier
  obtain ⟨ms, hms, hbelow⟩ := finalizeAll_registers hg before hbefore
  rw [((idles_opening g m).idle hopening).registry] at hms
  refine ⟨ms, hms, fun n hn => ?_⟩
  obtain ⟨⟨j, hj, hjn⟩, -⟩ := hbelow n hn
  exact Relation.ReflTransGen.head (himports ▸ List.mem_append_left _ hj) hjn

theorem TurnsTo.mem_imports (h : g.TurnsTo enclosing m p i u) : i ∈ m.imports := by
  obtain ⟨_, _, before, after, _, -, himports, -⟩ := h.earlier
  exact himports ▸ List.mem_append_right _ List.mem_cons_self

/-- The finalizations inside a finalization, itself included, each with where it starts. -/
inductive Visits (g : Registrar) : List String → CompiledModule → Progress →
    List String → CompiledModule → Progress → Prop
  | self (enclosing : List String) (m : CompiledModule) (p : Progress) :
      Visits g enclosing m p enclosing m p
  | inside {enclosing enclosing' : List String} {m i n : CompiledModule} {p u v : Progress}
      (turn : g.TurnsTo enclosing m p i u) (rest : Visits g (enclosing ++ [m.name]) i u enclosing' n v) :
      Visits g enclosing m p enclosing' n v

section Visits

variable {enclosing' : List String} {n : CompiledModule} {v : Progress}

theorem Visits.fails (h : g.Visits enclosing m p enclosing' n v) {e : ModuleError} {w : Progress}
    (hn : g.finalize enclosing' n v = (.error e, w)) :
    ∃ e' w', g.finalize enclosing m p = (.error e', w') ∧ w'.registry = w.registry := by
  induction h with
  | self => exact ⟨e, w, hn, rfl⟩
  | inside turn rest ih =>
    obtain ⟨e', w', hi, hw'⟩ := ih hn
    obtain ⟨e'', w'', hm, hw''⟩ := turn.fails hi
    exact ⟨e'', w'', hm, hw''.trans hw'⟩

theorem Visits.reaches (h : g.Visits enclosing m p enclosing' n v) : m.Reaches n := by
  induction h with
  | self => exact .refl
  | inside turn rest ih => exact Relation.ReflTransGen.head turn.mem_imports ih

theorem Visits.missing (h : g.Visits enclosing i u enclosing' n v)
    (hi : u.registry.registeredModule i.name = .ok none) :
    v.registry.registeredModule n.name = .ok none := by
  induction h with
  | self => exact hi
  | inside turn rest ih => exact ih turn.missing

/-- What has entered by the time a finalization inside starts: other modules than the one it is about. -/
theorem Visits.registers (hg : g.resolver.EntersResources)
    (h : g.Visits enclosing m p enclosing' n v) :
    ∃ ms, g.Registers p.registry ms v.registry ∧ ∀ k ∈ ms, m.Reaches k ∧ k.name ≠ n.name := by
  induction h with
  | self => exact ⟨[], .nil, by simp⟩
  | inside turn rest ih =>
    obtain ⟨ms, hms, hm⟩ := turn.registers hg
    obtain ⟨ns, hns, hi⟩ := ih
    have hrun := hms.trans hg hns
    -- the module is missing still, so none of those that have entered is it
    have hunbound := Registry.tag?_of_registeredModule (rest.missing turn.missing)
    refine ⟨ms ++ ns, hrun, fun k hk => ⟨?_, fun heq => hrun.tag?_ne_none hg hk (heq ▸ hunbound)⟩⟩
    rcases List.mem_append.mp hk with hk | hk
    · exact hm k hk
    · exact Relation.ReflTransGen.head turn.mem_imports (hi k hk).1

end Visits

end Registrar

end MaterialModules
