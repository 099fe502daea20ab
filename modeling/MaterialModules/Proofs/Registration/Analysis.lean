import MaterialModules.Compiler.Prepared
import MaterialModules.Proofs.Registration.Requests
import MaterialModules.Proofs.Synthesis.Coverage

set_option autoImplicit false

namespace MaterialModules

theorem Source.Module.foldl_append (fs : List FunctionDecl) (m : Module) :
    fs.foldl append m = { m with declarations := m.declarations ++ fs.map .function } := by
  induction fs generalizing m with
  | nil => simp
  | cons f fs ih =>
    rw [List.foldl_cons, ih, append]
    simp

theorem Source.Module.extend_eq (m : Module) (fs : List FunctionDecl) (names : List QualifiedName) :
    m.extend fs names = ({ m with declarations := m.declarations ++ fs.map .function } : Module).withImports
      (NameSet.empty.collect names) := by
  rw [extend, foldl_append]

theorem Mentioning.CoversAll.wellImported {x : Mentioning (List Source.FunctionDecl)}
    {fs : List Source.FunctionDecl} (h : x.CoversAll) (hfs : x.result = .ok fs)
    {m : Source.Module} (hm : m.declarations = []) :
    (m.extend fs x.names).WellImported ∧ (m.extend fs x.names).functions = fs := by
  rw [Source.Module.extend_eq, hm, List.nil_append]
  exact ⟨Source.Module.wellImported_withImports rfl (h fs hfs),
    Source.Module.functions_of_inFront (Source.Module.withImports_of_functions rfl _)⟩

namespace Work

variable {α β : Type} {P : Event → Prop}

def Sends (P : Event → Prop) (x : Work α) : Prop :=
  ∀ p : Progress, ∃ es, (x p).2.events = p.events ++ es ∧ ∀ e ∈ es, P e

theorem sends_of_same {x : Work α} (h : ∀ p, (x p).2.events = p.events) : x.Sends P := fun p =>
  ⟨[], by rw [h, List.append_nil], by simp⟩

theorem Sends.mono {Q : Event → Prop} {x : Work α} (hx : x.Sends P) (h : ∀ e, P e → Q e) :
    x.Sends Q := by
  intro p
  obtain ⟨es, hes, hP⟩ := hx p
  exact ⟨es, hes, fun e he => h e (hP e he)⟩

theorem sends_pure (a : α) : (Work.pure a).Sends P := sends_of_same fun _ => rfl

theorem sends_fail (e : ModuleError) : (Work.fail e : Work α).Sends P := sends_of_same fun _ => rfl

theorem sends_registry : registry.Sends P := sends_of_same fun _ => rfl

theorem sends_report (ms : List Message) : (report ms).Sends P := sends_of_same fun _ => rfl

theorem sends_ask (question : List Event → ModuleLookup → α) {event : α → Event}
    (h : ∀ a, P (event a)) : (ask question event).Sends P := fun p =>
  ⟨[event (question p.events p.registry.compiled?)], rfl, by simp [h]⟩

theorem Sends.bind {x : Work α} {f : α → Work β} (hx : x.Sends P) (hf : ∀ a, (f a).Sends P) :
    (x >>= f).Sends P := by
  intro p
  obtain ⟨es, hes, hP⟩ := hx p
  rw [bind_apply]
  rcases h : x p with ⟨e | a, q⟩
  · rw [h] at hes
    exact ⟨es, hes, hP⟩
  · rw [h] at hes
    obtain ⟨fs, hfs, hP'⟩ := hf a q
    refine ⟨es ++ fs, ?_, fun e he => (List.mem_append.mp he).elim (hP e) (hP' e)⟩
    rw [← List.append_assoc, ← hes]
    exact hfs

theorem sends_ofExcept_bind {x : Except ModuleError α} {f : α → Work β}
    (h : ∀ a, x = .ok a → (f a).Sends P) : (ofExcept x >>= f).Sends P := by
  cases x with
  | error e => exact sends_fail e
  | ok a => exact h a rfl

theorem sends_accept (e : ModuleError) (x : Except (List Message) α) : (accept e x).Sends P := by
  cases x with
  | ok a => exact sends_pure a
  | error ms => exact (sends_report ms).bind fun _ => sends_fail e

theorem Sends.closedBy {x : Work α} (hx : x.Sends P) {e : Event} (he : P e) :
    (x.closedBy e).Sends P := by
  intro p
  obtain ⟨es, hes, hP⟩ := hx p
  refine ⟨es ++ [e], ?_, by simpa [or_imp, forall_and] using ⟨hP, he⟩⟩
  show (x p).2.events ++ [e] = _
  rw [hes, List.append_assoc]

theorem failingWith_events (x : Work α) (e : ModuleError) (p : Progress) :
    (x.failingWith e p).2.events = (x p).2.events := by
  unfold Work.failingWith
  split <;> simp_all

theorem Sends.failingWith {x : Work α} (hx : x.Sends P) (e : ModuleError) :
    (x.failingWith e).Sends P := by
  intro p
  rw [failingWith_events]
  exact hx p

theorem reported_events (x : Work α) (p : Progress) : (x.reported p).2.events = (x p).2.events := by
  unfold Work.reported
  split <;> simp_all

theorem Sends.reported {x : Work α} (hx : x.Sends P) : x.reported.Sends P := by
  intro p
  rw [reported_events]
  exact hx p

end Work

inductive Event.OfFinalization : Event → Prop
  | restore (name : String) (granted : Bool) : OfFinalization (.restore name granted)
  | drop (name : String) : OfFinalization (.drop name)
  | generate (name : String) (options : GenerationOptions) : OfFinalization (.generate name options)

namespace Registrar

open Work

variable {g : Registrar}

theorem sends_registered {P : Event → Prop} (name : String) : (registered name).Sends P :=
  sends_of_same fun _ => rfl

theorem sends_restore (g : Registrar) (m : CompiledModule) :
    (g.restore m).Sends Event.OfFinalization := by
  refine (sends_ask _ fun granted => .restore m.name granted).bind fun granted => ?_
  cases granted with
  | true => exact sends_pure ()
  | false => exact sends_fail _

theorem sends_generate {P : Event → Prop} (g : Registrar) (m : CompiledModule)
    (h : P (.generate m.name g.settings.generation)) : (g.generate m).Sends P := by
  refine (sends_ask _ fun _ => h).bind fun answer =>
    (sends_accept _ answer).bind fun code => (sends_report _).bind fun _ => ?_
  split
  · exact sends_pure code
  · exact sends_fail _

theorem sends_enrol {P : Event → Prop} (m : CompiledModule) (code : GeneratedCode) (imports : List Tag) :
    (g.enrol m code imports).Sends P := by
  refine sends_of_same fun p => ?_
  unfold enrol onRegistry
  split
  rfl

theorem sends_importTag {enclosing : List String} {owner : String} {i : CompiledModule}
    (hi : (g.finalize enclosing i).Sends Event.OfFinalization) (found : Option Tag) :
    (g.importTag enclosing owner i found).Sends Event.OfFinalization := by
  cases found with
  | some t => exact sends_pure t
  | none =>
    simp only [importTag]
    split
    · exact sends_fail _
    · exact (hi.failingWith _).bind fun _ => sends_pure _

mutual

-- the recursion is that of the tree of imports
theorem sends_finalize (g : Registrar) (enclosing : List String) : (m : CompiledModule) →
    (g.finalize enclosing m).Sends Event.OfFinalization
  | ⟨name, filename, version, standard, valid, messages, imports, references, annotations⟩ => by
    rw [finalize_eq]
    refine (sends_report messages).bind fun _ => ?_
    split
    · refine (sends_registered _).bind fun found => ?_
      cases found with
      | some t => exact sends_pure _
      | none =>
        refine (sends_restore g _).bind fun _ => Sends.closedBy ?_ (.drop _)
        exact (sends_generate g _ (.generate _ _)).bind fun code =>
          (sends_finalizeAll g _ _ imports).bind fun tags => sends_enrol _ code tags
    · exact sends_fail _

theorem sends_finalizeAll (g : Registrar) (enclosing : List String) (owner : String) :
    (is : List CompiledModule) → (g.finalizeAll enclosing owner is).Sends Event.OfFinalization
  | [] => sends_pure []
  | i :: rest => by
    rw [finalizeAll_cons]
    exact (sends_registered _).bind fun found =>
      (sends_importTag (sends_finalize g enclosing i) found).bind fun tag =>
        (sends_finalizeAll g enclosing owner rest).bind fun tags => sends_pure _

end

end Registrar

def Event.WellAnalyzed (e : Event) : Prop :=
  ∀ source accepted, e = .analyze source accepted → source.WellImported

theorem Event.OfFinalization.wellAnalyzed {e : Event} (h : e.OfFinalization) : e.WellAnalyzed := by
  rintro source accepted rfl
  cases h

/-- The declarations that a request puts together, and the version of their module. -/
inductive CreationRequest.Builds (r : Registry) :
    CreationRequest → Version → Mentioning (List Source.FunctionDecl) → Prop
  | variants {name : String} {vs : List VariantRequest} {version : Version}
      (newest : r.newestVersion false (vs.map (·.prototype)) = .ok version) :
      Builds r (.variants name vs) version (r.variants vs)
  | materials {name : String} {ms : List MaterialRequest} {version : Version}
      (newest : r.newestVersion true (ms.map (·.callee)) = .ok version) :
      Builds r (.materials name ms) version (r.materials ms)

namespace Registry

theorem coversAll_variants (r : Registry) (vs : List VariantRequest) : (r.variants vs).CoversAll :=
  Mentioning.coversAll_mapM covers_variant vs

theorem coversAll_materials (r : Registry) (ms : List MaterialRequest) : (r.materials ms).CoversAll :=
  Mentioning.coversAll_mapM covers_materialOfCall ms

end Registry

namespace Registrar

open Work

variable {g : Registrar}

def verdict (name : String) (answer : Except (List Message) CompiledModule) : Work CompiledModule := do
  let compiled ← Work.accept (.invalidModule name) answer
  if compiled.valid then Work.pure compiled
  else do
    Work.report compiled.messages
    Work.fail (.invalidModule name)

def analysis (g : Registrar) (name : String) (module : Source.Module) : Work CompiledModule := do
  let answer ← Work.ask (fun events lookup => g.toolchain.analyze events lookup module)
    fun answer => .analyze module answer.isOk
  verdict name answer

theorem sends_verdict {P : Event → Prop} (name : String)
    (answer : Except (List Message) CompiledModule) : (verdict name answer).Sends P := by
  refine (sends_accept _ answer).bind fun compiled => ?_
  split
  · exact sends_pure compiled
  · exact (sends_report _).bind fun _ => sends_fail _

theorem acquire_of_builds {q : CreationRequest} {p : Progress} {version : Version}
    {built : Mentioning (List Source.FunctionDecl)} {fs : List Source.FunctionDecl}
    (hbuilds : q.Builds p.registry version built) (hfs : built.result = .ok fs) :
    g.acquire q p =
      g.analysis q.name ((g.toolchain.blank q.name version).extend fs built.names) p := by
  cases hbuilds with
  | variants newest | materials newest =>
    simp only [acquire, assemble, bind_apply, Work.registry, Work.ofExcept, newest, hfs]
    rfl

/-- An analysis sends one request, and what follows it sends none for another one. -/
theorem analysis_apply (name : String) (module : Source.Module) (p : Progress) :
    ∃ accepted es, ((g.analysis name module >>= g.finalize []) p).2.events =
        p.events ++ .analyze module accepted :: es ∧ ∀ e ∈ es, e.OfFinalization := by
  let answer := g.toolchain.analyze p.events p.registry.compiled? module
  let asked : Progress := { p with events := p.events ++ [.analyze module answer.isOk] }
  have hrest : (verdict name answer >>= g.finalize []).Sends Event.OfFinalization :=
    (sends_verdict name answer).bind fun m => sends_finalize g [] m
  obtain ⟨es, hes, hkind⟩ := hrest asked
  refine ⟨answer.isOk, es, ?_, hkind⟩
  rw [analysis, bind_assoc]
  refine hes.trans ?_
  simp [asked]

theorem sends_analysis {name : String} {module : Source.Module} (h : module.WellImported) :
    (g.analysis name module).Sends Event.WellAnalyzed := by
  have hasked : ∀ accepted, Event.WellAnalyzed (.analyze module accepted) := by
    rintro accepted source accepted' heq
    cases heq
    exact h
  exact (sends_ask _ fun _ => hasked _).bind fun answer => sends_verdict name answer

theorem sends_assemble (hblank : g.toolchain.blank = fun name version => { name, version })
    (name : String) (version : Version) {build : Registry → Mentioning (List Source.FunctionDecl)}
    (hbuild : ∀ r, (build r).CoversAll) :
    (g.assemble name version build).Sends Event.WellAnalyzed := by
  refine sends_registry.bind fun r => sends_ofExcept_bind fun fs hfs => ?_
  have hwell : ((g.toolchain.blank name version).extend fs (build r).names).WellImported := by
    rw [hblank]
    exact ((hbuild r).wellImported hfs rfl).1
  exact sends_analysis hwell

theorem sends_acquire (hblank : g.toolchain.blank = fun name version => { name, version })
    (q : CreationRequest) : (g.acquire q).Sends Event.WellAnalyzed := by
  have hload : ∀ name, Event.WellAnalyzed (.load name) := by
    rintro name source accepted h
    cases h
  have hloadText : ∀ name, Event.WellAnalyzed (.loadText name) := by
    rintro name source accepted h
    cases h
  cases q with
  | loaded name => exact (sends_ask _ fun _ => hload name).bind fun answer => sends_accept _ answer
  | text name text =>
    exact (sends_ask _ fun _ => hloadText name).bind fun answer => sends_accept _ answer
  | variants name vs =>
    refine sends_registry.bind fun r => sends_ofExcept_bind fun version _ => ?_
    exact sends_assemble hblank name version fun r => r.coversAll_variants vs
  | materials name ms =>
    refine sends_registry.bind fun r => sends_ofExcept_bind fun version _ => ?_
    exact sends_assemble hblank name version fun r => r.coversAll_materials ms

theorem sends_perform (hblank : g.toolchain.blank = fun name version => { name, version })
    (q : CreationRequest) : (g.perform q).Sends Event.WellAnalyzed := by
  rw [perform_eq]
  refine Sends.reported ?_
  unfold unlessRegistered
  split
  · refine (sends_registered _).bind fun found => ?_
    cases found with
    | some t => exact sends_pure _
    | none =>
      have hfinalize : ∀ m, (g.finalize [] m).Sends Event.WellAnalyzed := fun m =>
        (sends_finalize g [] m).mono fun e he => he.wellAnalyzed
      exact (sends_acquire hblank q).bind hfinalize
  · exact sends_fail _

/-- Whatever a request hands over for analysis has its imports in front, in order, each once, and all of
those that it needs. If the declarations of a request can be put together under a name that is allowed and
free, they are handed over, once and under this name. -/
theorem perform_wellImported (hblank : g.toolchain.blank = fun name version => { name, version })
    (q : CreationRequest) (p : Progress) :
    (∃ es, (g.perform q p).2.events = p.events ++ es ∧
      ∀ source accepted, .analyze source accepted ∈ es → source.WellImported) ∧
    ∀ version built fs, q.Builds p.registry version built → built.result = .ok fs →
      g.allows q = true → p.registry.registeredModule q.name = .ok none →
      ∃ source accepted es,
        (g.perform q p).2.events = p.events ++ .analyze source accepted :: es ∧
        (∀ e ∈ es, e.OfFinalization) ∧ source.WellImported ∧ source.name = q.name ∧
        source.version = version ∧ source.functions = fs := by
  refine ⟨?_, fun version built fs hbuilds hfs hallowed hfree => ?_⟩
  · obtain ⟨es, hes, hwell⟩ := sends_perform hblank q p
    exact ⟨es, hes, fun source accepted he => hwell _ he source accepted rfl⟩
  · have hperform : (g.perform q p).2.events = ((g.acquire q >>= g.finalize []) p).2.events := by
      rw [perform_eq, reported_events, unlessRegistered, if_pos hallowed, bind_apply, registered_apply,
        hfree]
    have hcovers : built.CoversAll := by
      cases hbuilds with
      | variants => exact p.registry.coversAll_variants _
      | materials => exact p.registry.coversAll_materials _
    let source : Source.Module := ({ name := q.name, version } : Source.Module).extend fs built.names
    obtain ⟨hwell, hfunctions⟩ :=
      hcovers.wellImported hfs (m := { name := q.name, version }) rfl
    obtain ⟨accepted, es, hes, hkind⟩ := g.analysis_apply q.name source p
    have hacquire : (g.acquire q >>= g.finalize []) p =
        (g.analysis q.name source >>= g.finalize []) p := by
      rw [bind_apply, bind_apply, acquire_of_builds hbuilds hfs, hblank]
    have hsource := Source.Module.extend_eq { name := q.name, version } fs built.names
    refine ⟨source, accepted, es, ?_, hkind, hwell, congrArg Source.Module.name hsource,
      congrArg Source.Module.version hsource, hfunctions⟩
    rw [hperform, hacquire, hes]

def brushes : Registrar where
  toolchain := PreparedToolchain.toolchain
    { modules := [("::m", { name := "::m", imports := [{ name := "::n" },
        { name := "::anno", annotationDefinitions := [⟨"::anno::hidden", []⟩] }] })]
      codes := [("::m", .ok
        { functions := [{ name := "::m::pick(::n::mode)", returnType := ⟨.struct "::n::spot", {}⟩
                          parameters := [{ name := "x", type := ⟨.enumeration "::n::mode", {}⟩ }] }] })] }

def brushesLoaded : Progress := (brushes.perform (.loaded "::m") {}).2

def smoothPick : VariantRequest where
  prototype := ⟨4⟩
  name := "smooth_pick"
  overrides := [("x", .constant 1 ⟨.enumeration "::n::mode", {}⟩ (.enumeration "::n::mode" "smooth" 1))]
  annotations := some [⟨"::anno::hidden()", []⟩]

def analyzedImports : Event → Option (Bool × List String)
  | .analyze source accepted => some (accepted, source.imports.map QualifiedName.text)
  | _ => none

def brushesStored : Progress :=
  { brushesLoaded with
    registry := brushesLoaded.registry.add ⟨"call", .call ⟨.function, ⟨4⟩,
      [("x", .constant 1 ⟨.enumeration "::n::mode", {}⟩ (.enumeration "::n::mode" "smooth" 1))]⟩,
      .referenceCounted⟩ }

def wrappedPick : MaterialRequest where
  callee := ⟨5⟩
  name := "wrapped_pick"
  promotions := []

theorem perform_wellImported_smoothPick :
    (∃ source es, (brushes.perform (.variants "::out" [smoothPick]) brushesLoaded).2.events =
        brushesLoaded.events ++ .analyze source true :: es ∧ source.WellImported ∧
      source.imports.map QualifiedName.text =
        ["::anno::hidden", "::m::pick", "::n::mode", "::n::smooth", "::n::spot"]) ∧
    ∃ source es, (brushes.perform (.materials "::out" [wrappedPick]) brushesStored).2.events =
        brushesStored.events ++ .analyze source true :: es ∧ source.WellImported ∧
      source.imports.map QualifiedName.text = ["::m::pick", "::n::mode", "::n::smooth"] := by
  have hanalyzed : ∀ {q : CreationRequest} {p : Progress} {version : Version}
      {built : Mentioning (List Source.FunctionDecl)} {imports : List String},
      q.Builds p.registry version built → built.result.isOk = true → brushes.allows q = true →
      p.registry.registeredModule q.name = .ok none →
      (brushes.perform q p).2.events.filterMap analyzedImports = [(true, imports)] →
      ∃ source es, (brushes.perform q p).2.events = p.events ++ .analyze source true :: es ∧
        source.WellImported ∧ source.imports.map QualifiedName.text = imports := by
    intro q p version built imports hbuilds hbuilt hallowed hfree himports
    cases hfs : built.result with
    | error e =>
      rw [hfs] at hbuilt
      cases hbuilt
    | ok fs =>
      obtain ⟨source, accepted, es, hevents, -, hwell, -⟩ :=
        (perform_wellImported (g := brushes) rfl q p).2 version built fs hbuilds hfs hallowed hfree
      have hmem : (accepted, source.imports.map QualifiedName.text) ∈
          (brushes.perform q p).2.events.filterMap analyzedImports :=
        List.mem_filterMap.mpr ⟨.analyze source accepted, by rw [hevents]; simp, rfl⟩
      rw [himports, List.mem_singleton] at hmem
      obtain ⟨rfl, hlist⟩ := Prod.mk.inj hmem
      exact ⟨source, es, hevents, hwell, hlist⟩
  have hvariants : brushesLoaded.registry.newestVersion false [⟨4⟩] = .ok .oldest := by decide +kernel
  have hmaterials : brushesStored.registry.newestVersion true [⟨5⟩] = .ok .oldest := by decide +kernel
  exact ⟨hanalyzed (.variants hvariants) (by decide +kernel) (by decide +kernel) (by decide +kernel)
      (by decide +kernel),
    hanalyzed (.materials hmaterials) (by decide +kernel) (by decide +kernel) (by decide +kernel)
      (by decide +kernel)⟩

end Registrar

end MaterialModules
