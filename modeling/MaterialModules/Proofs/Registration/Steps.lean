import MaterialModules.Registration.Finalization

set_option autoImplicit false

namespace MaterialModules

/-- From one point to another nothing enters, and no request is taken back. -/
structure Progress.Idle (p q : Progress) : Prop where
  registry : q.registry = p.registry
  events : p.events <+: q.events

theorem Progress.Idle.refl (p : Progress) : p.Idle p := ⟨rfl, List.prefix_rfl⟩

theorem Progress.Idle.trans {p q s : Progress} (h₁ : p.Idle q) (h₂ : q.Idle s) : p.Idle s :=
  ⟨h₂.registry.trans h₁.registry, h₁.events.trans h₂.events⟩

namespace Work

variable {α β : Type}

instance : LawfulMonad Work := LawfulMonad.mk' Work
  (by
    intro α x
    funext p
    show bind x (fun a => pure a) p = x p
    unfold bind
    rcases x p with ⟨_ | a, q⟩ <;> rfl)
  (fun _ _ => rfl)
  (by
    intro α β γ x f k
    funext p
    rw [bind_apply, bind_apply, bind_apply]
    rcases x p with ⟨_ | a, q⟩ <;> rfl)

theorem bind_cases {x : Work α} {f : α → Work β} {p q : Progress} {y : Except ModuleError β}
    (h : (x >>= f) p = (y, q)) :
    (∃ a s, x p = (.ok a, s) ∧ f a s = (y, q)) ∨ ∃ e, x p = (.error e, q) ∧ y = .error e := by
  rw [bind_apply] at h
  rcases hx : x p with ⟨a | a, s⟩
  · rw [hx] at h
    cases h
    exact .inr ⟨a, rfl, rfl⟩
  · rw [hx] at h
    exact .inl ⟨a, s, rfl, h⟩

theorem bind_ok {x : Work α} {f : α → Work β} {p q : Progress} {b : β}
    (h : (x >>= f) p = (.ok b, q)) : ∃ a s, x p = (.ok a, s) ∧ f a s = (.ok b, q) := by
  rcases bind_cases h with h | ⟨e, -, he⟩
  · exact h
  · cases he

theorem accept_ok {e : ModuleError} {x : Except (List Message) α} {p q : Progress} {a : α}
    (h : accept e x p = (.ok a, q)) : x = .ok a := by
  cases x with
  | ok b => cases h; rfl
  | error ms => cases h

theorem failingWith_ok {x : Work α} {e : ModuleError} {p q : Progress} {a : α}
    (h : failingWith x e p = (.ok a, q)) : x p = (.ok a, q) := by
  unfold failingWith at h
  split at h
  · rename_i hx
    cases h
    exact hx
  · cases h

theorem failingWith_error {x : Work α} {e e' : ModuleError} {p q : Progress}
    (h : failingWith x e p = (.error e', q)) : ∃ d s, x p = (.error d, s) ∧ s.Idle q := by
  unfold failingWith at h
  split at h
  · cases h
  · rename_i hx
    cases h
    exact ⟨_, _, hx, rfl, List.prefix_rfl⟩

theorem reported_cases {x : Work α} {p q : Progress} {y : Except ModuleError α}
    (h : reported x p = (y, q)) : ∃ s, x p = (y, s) ∧ s.Idle q := by
  unfold reported at h
  split at h
  · rename_i hx
    cases h
    exact ⟨_, hx, .refl _⟩
  · rename_i hx
    cases h
    exact ⟨_, hx, rfl, List.prefix_rfl⟩

theorem closedBy_cases {x : Work α} {e : Event} {p q : Progress} {y : Except ModuleError α}
    (h : closedBy x e p = (y, q)) : ∃ s, x p = (y, s) ∧ s.Idle q := by
  unfold closedBy at h
  split at h
  rename_i hx
  cases h
  exact ⟨_, hx, rfl, List.prefix_append _ _⟩

def Idles (x : Work α) : Prop := ∀ p : Progress, p.Idle (x p).2

theorem Idles.idle {x : Work α} (hx : Idles x) {p q : Progress} {y : Except ModuleError α}
    (h : x p = (y, q)) : p.Idle q := by
  have := hx p
  rwa [h] at this

theorem idles_pure (a : α) : Idles (Work.pure a) := fun p => .refl p

theorem idles_fail (e : ModuleError) : Idles (Work.fail e : Work α) := fun p => .refl p

theorem idles_ofExcept (x : Except ModuleError α) : Idles (ofExcept x) := fun p => .refl p

theorem idles_registry : Idles registry := fun p => .refl p

theorem idles_report (ms : List Message) : Idles (report ms) := fun _ => ⟨rfl, List.prefix_rfl⟩

theorem idles_ask (question : List Event → ModuleLookup → α) (event : α → Event) :
    Idles (ask question event) := fun _ => ⟨rfl, List.prefix_append _ _⟩

theorem Idles.bind {x : Work α} {f : α → Work β} (hx : Idles x) (hf : ∀ a, Idles (f a)) :
    Idles (x >>= f) := by
  intro p
  rcases h : (x >>= f) p with ⟨y, q⟩
  rcases bind_cases h with ⟨a, s, hs, hq⟩ | ⟨e, he, -⟩
  · exact (hx.idle hs).trans ((hf a).idle hq)
  · exact hx.idle he

theorem Idles.bind_cases {x : Work α} (hx : Idles x) {f : α → Work β} {p q : Progress}
    {y : Except ModuleError β} (h : (x >>= f) p = (y, q)) :
    (∃ a s, x p = (.ok a, s) ∧ p.Idle s ∧ f a s = (y, q)) ∨ ∃ e, y = .error e ∧ p.Idle q := by
  rcases Work.bind_cases h with ⟨a, s, hs, h⟩ | ⟨e, he, hy⟩
  · exact .inl ⟨a, s, hs, hx.idle hs, h⟩
  · exact .inr ⟨e, hy, hx.idle he⟩

theorem idles_accept (e : ModuleError) (x : Except (List Message) α) : Idles (accept e x) := by
  cases x with
  | ok a => exact idles_pure a
  | error ms => exact (idles_report ms).bind fun _ => idles_fail e

end Work

theorem Registry.tag?_of_registeredModule {r : Registry} {name : String}
    (h : r.registeredModule name = .ok none) : r.tag? (Name.registered name) = none := by
  unfold registeredModule at h
  split at h
  · assumption
  · split at h <;> cases h

namespace Registrar

theorem idles_registered (name : String) : (registered name).Idles :=
  Work.idles_registry.bind fun _ => Work.idles_ofExcept _

theorem registered_apply (name : String) (p : Progress) :
    registered name p = (p.registry.registeredModule name, p) := rfl

theorem idles_restore (g : Registrar) (m : CompiledModule) : (g.restore m).Idles := by
  refine (Work.idles_ask _ _).bind fun granted => ?_
  cases granted with
  | true => exact Work.idles_pure ()
  | false => exact Work.idles_fail _

def Generated (g : Registrar) (first last : List Event) (m : CompiledModule) (code : GeneratedCode) :
    Prop :=
  ∃ events, first <+: events ∧ events ++ [.generate m.name g.settings.generation] <+: last ∧
    g.toolchain.generate events m g.settings.generation = .ok code

theorem Generated.mono {g : Registrar} {first first' last last' : List Event} {m : CompiledModule}
    {code : GeneratedCode} (h : g.Generated first last m code) (hfirst : first' <+: first)
    (hlast : last <+: last') : g.Generated first' last' m code := by
  obtain ⟨events, hevents, hasked, hcode⟩ := h
  exact ⟨events, hfirst.trans hevents, hasked.trans hlast, hcode⟩

theorem Generated.exists_events {g : Registrar} {first last : List Event} {m : CompiledModule}
    {code : GeneratedCode} (h : g.Generated first last m code) :
    ∃ events, g.toolchain.generate events m g.settings.generation = .ok code := by
  obtain ⟨events, -, -, hcode⟩ := h
  exact ⟨events, hcode⟩

theorem generate_ok {g : Registrar} {m : CompiledModule} {p q : Progress} {code : GeneratedCode}
    (h : g.generate m p = (.ok code, q)) :
    g.Generated p.events q.events m code ∧ code.errorCount = 0 := by
  obtain ⟨answer, s, hanswer, h⟩ := Work.bind_ok h
  obtain ⟨c, u, hc, h⟩ := Work.bind_ok h
  obtain ⟨_, v, hv, h⟩ := Work.bind_ok h
  have hcode : g.toolchain.generate p.events m g.settings.generation = .ok c := by
    cases hanswer
    exact Work.accept_ok hc
  have hasked : p.events ++ [.generate m.name g.settings.generation] <+: v.events := by
    cases hanswer
    exact ((Work.idles_accept _ _).idle hc).events.trans ((Work.idles_report _).idle hv).events
  by_cases herr : c.errorCount = 0
  · rw [if_pos herr] at h
    cases h
    exact ⟨⟨p.events, List.prefix_rfl, hasked, hcode⟩, herr⟩
  · rw [if_neg herr] at h
    cases h

theorem idles_generate (g : Registrar) (m : CompiledModule) : (g.generate m).Idles := by
  refine (Work.idles_ask _ _).bind fun answer =>
    (Work.idles_accept _ _).bind fun code => (Work.idles_report _).bind fun _ => ?_
  split
  · exact Work.idles_pure code
  · exact Work.idles_fail _

end Registrar

end MaterialModules
