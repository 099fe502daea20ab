import MaterialModules.Proofs.Registration.Run
import MaterialModules.Proofs.Synthesis.Mentioning
import MaterialModules.Registration.Creation

/-!
The four ways to create a module as one: each of them gets hold of a compiled module, which enters
nothing, and hands it over for registration.
-/

set_option autoImplicit false

namespace MaterialModules

namespace NameSet

theorem collect_append (s : NameSet) (before after : List QualifiedName) :
    s.collect (before ++ after) = (s.collect before).collect after := by
  simp only [collect, insertAll, List.filter_append, List.foldl_append]

end NameSet

namespace Source.Draft

variable {α : Type} {k : α → Mentioning FunctionDecl} {xs : List α}

theorem add_of_ok {x : Mentioning FunctionDecl} {f : FunctionDecl} (h : x.result = .ok f) (d : Draft) :
    d.add x = (.ok (), ⟨d.module.append f, d.names.collect x.names⟩) := by
  simp only [add, h]

theorem add_of_error {x : Mentioning FunctionDecl} {e : ModuleError} (h : x.result = .error e)
    (d : Draft) : d.add x = (.error e, { d with names := d.names.collect x.names }) := by
  simp only [add, h]

/-- Declarations that are added in turn are those of the chain, with all names that come up in it. -/
theorem addAll_of_mapM {fs : List FunctionDecl} (h : (xs.mapM k).result = .ok fs) (d : Draft) :
    d.addAll (xs.map k) =
      (.ok (), ⟨fs.foldl Module.append d.module, d.names.collect (xs.mapM k).names⟩) := by
  induction xs generalizing d fs with
  | nil =>
    cases h
    rfl
  | cons x xs ih =>
    rw [List.mapM_cons] at h ⊢
    obtain ⟨f, hf, h, hnames⟩ := Mentioning.names_of_bind h
    obtain ⟨rest, hrest, h, hlater⟩ := Mentioning.names_of_bind h
    cases h
    have hmentioned : d.names.collect ((k x).names ++ ((xs.mapM k).names ++ [])) =
        (d.names.collect (k x).names).collect (xs.mapM k).names := by
      rw [List.append_nil, NameSet.collect_append]
    rw [hnames, hlater, Mentioning.names_pure, hmentioned, List.map_cons, addAll, add_of_ok hf]
    exact ih hrest _

theorem addAll_fst_of_mapM {e : ModuleError} (h : (xs.mapM k).result = .error e) (d : Draft) :
    (d.addAll (xs.map k)).1 = .error e := by
  induction xs generalizing d with
  | nil => cases h
  | cons x xs ih =>
    simp only [List.mapM_cons, Mentioning.result_bind] at h
    cases hx : (k x).result with
    | error e' =>
      rw [hx] at h
      cases h
      rw [List.map_cons, addAll, add_of_error hx]
    | ok f =>
      have hrest : (xs.mapM k).result = .error e := by
        cases hxs : (xs.mapM k).result with
        | error e' =>
          rw [hx, hxs] at h
          exact h
        | ok fs =>
          rw [hx, hxs] at h
          cases h
      rw [List.map_cons, addAll, add_of_ok hx]
      exact ih hrest _

end Source.Draft

theorem Work.ofExcept_ok_bind {α β : Type} (a : α) (f : α → Work β) :
    (Work.ofExcept (.ok a) >>= f) = f a := rfl

namespace Registry

def variants (r : Registry) (vs : List VariantRequest) : Mentioning (List Source.FunctionDecl) :=
  vs.mapM r.variant

def materials (r : Registry) (ms : List MaterialRequest) : Mentioning (List Source.FunctionDecl) :=
  ms.mapM r.materialOfCall

end Registry

inductive CreationRequest where
  | loaded (name : String)
  | text (name text : String)
  | variants (name : String) (vs : List VariantRequest)
  | materials (name : String) (ms : List MaterialRequest)
  deriving Repr

def CreationRequest.name : CreationRequest → String
  | loaded name | text name _ | variants name _ | materials name _ => name

namespace Registrar

def perform (g : Registrar) : CreationRequest → Work Created
  | .loaded name => g.create name
  | .text name text => g.createFromText name text
  | .variants name vs => g.createFromVariants name vs
  | .materials name ms => g.createFromMaterials name ms

def allows (g : Registrar) : CreationRequest → Bool
  | .text name _ => name = g.settings.streamModuleName || g.isModuleName name
  | q => g.isModuleName q.name

/-- A module that was put together, once it has passed the analysis. -/
def assemble (g : Registrar) (name : String) (version : Version)
    (build : Registry → Mentioning (List Source.FunctionDecl)) : Work CompiledModule := do
  let r ← Work.registry
  let built := build r
  let declarations ← Work.ofExcept built.result
  let module := (g.toolchain.blank name version).extend declarations built.names
  let answer ← Work.ask (fun events lookup => g.toolchain.analyze events lookup module)
    fun answer => .analyze module answer.isOk
  let compiled ← Work.accept (.invalidModule name) answer
  if compiled.valid then Work.pure compiled
  else do
    Work.report compiled.messages
    Work.fail (.invalidModule name)

def acquire (g : Registrar) : CreationRequest → Work CompiledModule
  | .loaded name => do
    let answer ← Work.ask (fun events lookup => g.toolchain.load events lookup name) fun _ => .load name
    Work.accept (.loadFailed name) answer
  | .text name text => do
    let answer ← Work.ask (fun events lookup => g.toolchain.loadText events lookup name text)
      fun _ => .loadText name
    Work.accept (.loadFailed name) answer
  | .variants name vs => do
    let r ← Work.registry
    let version ← Work.ofExcept (r.newestVersion false (vs.map (·.prototype)))
    g.assemble name version fun r => r.variants vs
  | .materials name ms => do
    let r ← Work.registry
    let version ← Work.ofExcept (r.newestVersion true (ms.map (·.callee)))
    g.assemble name version fun r => r.materials ms

theorem synthesize_eq {α : Type} (g : Registrar) (name : String) (version : Version)
    (k : Registry → α → Mentioning Source.FunctionDecl) (xs : List α) :
    g.synthesize name version (fun r => xs.map (k r)) =
      g.assemble name version (fun r => xs.mapM (k r)) >>= g.finalize [] := by
  unfold synthesize assemble
  simp only [bind_assoc]
  congr 1
  funext r
  cases hbuilt : (xs.mapM (k r)).result with
  | error e =>
    simp only [Source.Draft.addAll_fst_of_mapM hbuilt]
    rfl
  | ok fs =>
    simp only [Source.Draft.addAll_of_mapM hbuilt, Work.ofExcept_ok_bind]
    congr 1
    funext answer
    congr 1
    funext compiled
    split <;> rfl

theorem perform_eq (g : Registrar) (q : CreationRequest) :
    g.perform q =
      .reported (unlessRegistered (g.allows q) q.name (g.acquire q >>= g.finalize [])) := by
  cases q with
  | loaded name =>
    simp only [acquire, bind_assoc]
    rfl
  | text name text =>
    simp only [acquire, bind_assoc]
    rfl
  | variants name vs =>
    have hsynthesize := fun version => g.synthesize_eq name version Registry.variant vs
    simp only [acquire, bind_assoc, Registry.variants, ← hsynthesize]
    rfl
  | materials name ms =>
    have hsynthesize := fun version => g.synthesize_eq name version Registry.materialOfCall ms
    simp only [acquire, bind_assoc, Registry.materials, ← hsynthesize]
    rfl

theorem idles_assemble (g : Registrar) (name : String) (version : Version)
    (build : Registry → Mentioning (List Source.FunctionDecl)) :
    (g.assemble name version build).Idles := by
  refine Work.idles_registry.bind fun r =>
    (Work.idles_ofExcept _).bind fun declarations =>
      (Work.idles_ask _ _).bind fun answer =>
        (Work.idles_accept _ _).bind fun compiled => ?_
  split
  · exact Work.idles_pure compiled
  · exact (Work.idles_report _).bind fun _ => Work.idles_fail _

theorem idles_acquire (g : Registrar) (q : CreationRequest) : (g.acquire q).Idles := by
  cases q with
  | loaded name | text name text =>
    exact (Work.idles_ask _ _).bind fun _ => Work.idles_accept _ _
  | variants name vs | materials name ms =>
    exact Work.idles_registry.bind fun _ =>
      (Work.idles_ofExcept _).bind fun _ => g.idles_assemble _ _ _

/-- The compiled module that a request hands over, if it gets that far, and how things stand then. -/
def handed? (g : Registrar) (q : CreationRequest) (p : Progress) : Option (CompiledModule × Progress) :=
  match g.allows q, p.registry.registeredModule q.name with
  | true, .ok none =>
    match g.acquire q p with
    | (.ok m, u) => some (m, u)
    | (.error _, _) => none
  | _, _ => none

theorem acquire_of_handed {g : Registrar} {q : CreationRequest} {p u : Progress} {m : CompiledModule}
    (h : g.handed? q p = some (m, u)) : g.acquire q p = (.ok m, u) := by
  unfold handed? at h
  split at h
  · split at h
    · rename_i hacquire
      cases h
      exact hacquire
    · cases h
  · cases h

theorem perform_of_handed {g : Registrar} {q : CreationRequest} {p u : Progress} {m : CompiledModule}
    (h : g.handed? q p = some (m, u)) : g.perform q p = (g.finalize [] m).reported u := by
  have hacquire := acquire_of_handed h
  unfold handed? at h
  split at h
  · rename_i hallows hregistered
    rw [perform_eq, unlessRegistered, hallows, if_pos rfl]
    simp only [Work.reported, Work.bind_apply, registered_apply, hregistered, hacquire]
  · cases h

theorem idle_of_handed {g : Registrar} {q : CreationRequest} {p u : Progress} {m : CompiledModule}
    (h : g.handed? q p = some (m, u)) : p.Idle u :=
  ((g.idles_acquire q).idle (acquire_of_handed h))

theorem load_of_handed {g : Registrar} {name : String} {p u : Progress} {m : CompiledModule}
    (h : g.handed? (.loaded name) p = some (m, u)) :
    g.toolchain.load p.events p.registry.compiled? name = .ok m := by
  obtain ⟨answer, _, hanswer, hacquire⟩ := Work.bind_ok (acquire_of_handed h)
  cases hanswer
  exact Work.accept_ok hacquire

theorem loadText_of_handed {g : Registrar} {name text : String} {p u : Progress} {m : CompiledModule}
    (h : g.handed? (.text name text) p = some (m, u)) :
    g.toolchain.loadText p.events p.registry.compiled? name text = .ok m := by
  obtain ⟨answer, _, hanswer, hacquire⟩ := Work.bind_ok (acquire_of_handed h)
  cases hanswer
  exact Work.accept_ok hacquire

theorem analyze_of_assemble {g : Registrar} {name : String} {version : Version}
    {build : Registry → Mentioning (List Source.FunctionDecl)} {p u : Progress} {m : CompiledModule}
    (h : g.assemble name version build p = (.ok m, u)) :
    ∃ events lookup source, g.toolchain.analyze events lookup source = .ok m := by
  obtain ⟨r, _, -, h⟩ := Work.bind_ok h
  obtain ⟨declarations, _, -, h⟩ := Work.bind_ok h
  obtain ⟨answer, _, hanswer, h⟩ := Work.bind_ok h
  obtain ⟨compiled, _, hcompiled, h⟩ := Work.bind_ok h
  have haccepted : answer = .ok m := by
    by_cases hvalid : compiled.valid = true
    · rw [if_pos hvalid] at h
      cases h
      exact Work.accept_ok hcompiled
    · rw [if_neg hvalid] at h
      obtain ⟨_, _, -, h⟩ := Work.bind_ok h
      cases h
  exact ⟨_, _, _, (Except.ok.inj (Prod.mk.inj hanswer).1).trans haccepted⟩

/-- What a request comes to: either nothing is handed over and nothing enters, or the outcome is that of
the module that is handed over. -/
theorem perform_cases {g : Registrar} {q : CreationRequest} {p s : Progress}
    {x : Except ModuleError Created} (h : g.perform q p = (x, s)) :
    (g.handed? q p = none ∧ s.registry = p.registry ∧ ∀ t, x ≠ .ok (.new t)) ∨
      ∃ m u v, g.handed? q p = some (m, u) ∧ g.finalize [] m u = (x, v) ∧ v.Idle s := by
  rw [perform_eq] at h
  obtain ⟨v, h, hv⟩ := Work.reported_cases h
  unfold unlessRegistered at h
  cases hallow : g.allows q with
  | false =>
    rw [hallow] at h
    cases h
    exact .inl ⟨by simp [handed?, hallow], hv.registry, nofun⟩
  | true =>
    rw [hallow, if_pos rfl, Work.bind_apply, registered_apply] at h
    cases hfound : p.registry.registeredModule q.name with
    | error e =>
      rw [hfound] at h
      cases h
      exact .inl ⟨by simp [handed?, hfound], hv.registry, nofun⟩
    | ok found =>
      rw [hfound] at h
      cases found with
      | some t =>
        cases h
        exact .inl ⟨by simp [handed?, hfound], hv.registry, nofun⟩
      | none =>
        rcases Work.bind_cases h with ⟨m, u, hm, h⟩ | ⟨e, he, rfl⟩
        · exact .inr ⟨m, u, v, by simp [handed?, hallow, hfound, hm], h, hv⟩
        · exact .inl ⟨by simp [handed?, hallow, hfound, he],
            hv.registry.trans ((g.idles_acquire q).idle he).registry, nofun⟩

end Registrar

end MaterialModules
