import MaterialModules.Proofs.Registration.Faithful

/-!
Invariants of a run. What each module that enters leaves true of the registry, and of the log of requests as
it gets longer, is true when a request is over, whatever came of it.
-/

set_option autoImplicit false

namespace MaterialModules

namespace Registrar

/-- A property that stays true as the log gets longer and as modules that are reached from `top` enter, each
with code that was asked for after `first`. -/
structure Steady (g : Registrar) (top : CompiledModule) (first : List Event)
    (I : List Event → Registry → Prop) : Prop where
  log : ∀ {es es' : List Event} {r : Registry}, es <+: es' → I es r → I es' r
  enters : ∀ {es : List Event} {r r' : Registry} {m : CompiledModule} {code : GeneratedCode}
    {imports : List Tag} {t : Tag}, top.Reaches m → g.CameFrom first es m code → I es r →
    g.Enters r m code imports t r' → I es r'

structure Carries (I : List Event → Registry → Prop) (p q : Progress) : Prop where
  log : p.events <+: q.events
  holds : I p.events p.registry → I q.events q.registry

variable {g : Registrar} {top m i : CompiledModule} {first : List Event}
  {I : List Event → Registry → Prop} {enclosing : List String} {p q s : Progress}

theorem Carries.trans (h₁ : Carries I p s) (h₂ : Carries I s q) : Carries I p q :=
  ⟨h₁.log.trans h₂.log, fun h => h₂.holds (h₁.holds h)⟩

theorem Steady.idle (hI : g.Steady top first I) (h : p.Idle q) : Carries I p q :=
  ⟨h.events, fun hp => h.registry.symm ▸ hI.log h.events hp⟩

theorem Outcome.carries (hI : g.Steady top first I) (hm : top.Reaches m) (hp : first <+: p.events)
    {x : Except ModuleError Created}
    (himports : ∀ {p q : Progress} {x : Except ModuleError (List Tag)}, first <+: p.events →
      g.finalizeAll (enclosing ++ [m.name]) m.name m.imports p = (x, q) → Carries I p q)
    (h : g.Outcome enclosing m p x q) : Carries I p q := by
  cases h with
  | existing registered idle => exact hI.idle idle
  | refused e idle => exact hI.idle idle
  | stopped start imports rest =>
    exact (hI.idle start).trans ((himports (hp.trans start.events) imports).trans (hI.idle rest))
  | entered unbound start asked imports enters log =>
    have hall := himports (hp.trans start.events) imports
    refine ⟨start.events.trans (hall.log.trans log), fun hstart => ?_⟩
    have hcame : g.CameFrom first q.events m _ :=
      ⟨enters.valid, asked.mono hp (hall.log.trans log), enters.errorless⟩
    exact hI.enters hm hcame (hI.log log (hall.holds ((hI.idle start).holds hstart))) enters

theorem ImportOutcome.carries (hI : g.Steady top first I) {x : Except ModuleError Tag}
    (hi : ∀ {q : Progress} {x : Except ModuleError Created}, g.finalize enclosing i p = (x, q) →
      Carries I p q)
    (h : g.ImportOutcome enclosing i p x q) : Carries I p q := by
  cases h with
  | found | refused => exact hI.idle (.refl p)
  | failed allowed run rest => exact (hi run).trans (hI.idle rest)
  | finalized allowed run => exact hi run

mutual

-- the recursion is that of the tree of imports
theorem Steady.finalize (hI : g.Steady top first I) {enclosing : List String} :
    (m : CompiledModule) → top.Reaches m → {p q : Progress} → {x : Except ModuleError Created} →
    first <+: p.events → g.finalize enclosing m p = (x, q) → Carries I p q
  | ⟨_, _, _, _, _, _, imports, _, _⟩, hm, _, _, _, hp, h =>
    (finalize_outcome h).carries hI hm hp (Steady.finalizeAll hI imports fun _ hi => hm.tail hi)

theorem Steady.finalizeAll (hI : g.Steady top first I) {enclosing : List String} {owner : String} :
    (is : List CompiledModule) → (∀ i ∈ is, top.Reaches i) → {p q : Progress} →
    {x : Except ModuleError (List Tag)} → first <+: p.events →
    g.finalizeAll enclosing owner is p = (x, q) → Carries I p q
  | [], _, p, q, x, _, h => by
    cases h
    exact hI.idle (.refl p)
  | i :: rest, his, p, q, x, hp, h => by
    have hi : ∀ {q : Progress} {x : Except ModuleError Created}, g.finalize enclosing i p = (x, q) →
        Carries I p q := Steady.finalize hI i (his i List.mem_cons_self) hp
    rcases finalizeAll_cons_outcome h with ⟨e, e', head, -⟩ | ⟨t, s, y, head, hrest, -⟩
    · exact head.carries hI hi
    · have hhead := head.carries hI hi
      exact hhead.trans (Steady.finalizeAll hI rest (fun j hj => his j (List.mem_cons_of_mem _ hj))
        (hp.trans hhead.log) hrest)

end

/-- What is true when a module is handed over, and steady, is true when the request is over. -/
theorem Steady.perform {q : CreationRequest} {p u s : Progress} {x : Except ModuleError Created}
    (hhanded : g.handed? q p = some (m, u)) (hI : g.Steady m p.events I) (hp : I p.events p.registry)
    (h : g.perform q p = (x, s)) : I s.events s.registry := by
  rcases perform_cases h with ⟨hnone, -, -⟩ | ⟨m', u', v, hhanded', hfinal, hv⟩
  · rw [hhanded] at hnone
    cases hnone
  · cases hhanded.symm.trans hhanded'
    have hu := idle_of_handed hhanded
    have hrun := Steady.finalize hI m .refl hu.events hfinal
    exact ((hI.idle hu).trans (hrun.trans (hI.idle hv))).holds hp

end Registrar

end MaterialModules
