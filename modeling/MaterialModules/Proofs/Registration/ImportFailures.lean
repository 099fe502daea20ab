import MaterialModules.Compiler.Prepared
import MaterialModules.Proofs.Registration.Nested
import MaterialModules.Proofs.Registration.Requests

set_option autoImplicit false

namespace MaterialModules

def Registry.HeldOtherwise (r : Registry) (name : String) : Prop :=
  ∃ t, r.tag? (Name.registered name) = some t ∧ r.kind? t ≠ some .module

theorem Registry.registeredModule_of_heldOtherwise {r : Registry} {name : String}
    (h : r.HeldOtherwise name) : r.registeredModule name = .error (.nameInUse (Name.registered name)) := by
  obtain ⟨t, ht, hkind⟩ := h
  rw [registeredModule, ht]
  exact if_neg hkind

theorem Registry.exists_registeredModule {r : Registry} {name : String} (h : ¬r.HeldOtherwise name) :
    ∃ found, r.registeredModule name = .ok found := by
  unfold registeredModule
  split
  · exact ⟨_, rfl⟩
  · rename_i t ht
    rw [if_pos (not_not.mp fun hkind => h ⟨t, ht, hkind⟩)]
    exact ⟨_, rfl⟩

namespace Registrar

variable {g : Registrar} {enclosing : List String} {owner : String} {m i : CompiledModule}
  {is : List CompiledModule} {p s u v w : Progress} {code : GeneratedCode} {e : ModuleError}

/-- The way through the imports of a module ends at one that has this failure. -/
structure EndsAt (g : Registrar) (enclosing : List String) (owner : String) (is : List CompiledModule)
    (s : Progress) (i : CompiledModule) (v : Progress) (e : ModuleError) : Prop where
  earlier : ∃ before after tags, is = before ++ i :: after ∧
    g.finalizeAll enclosing owner before s = (.ok tags, v)
  fails : (g.finalizeAll enclosing owner [i] v).1 = .error e
  held : v.registry.HeldOtherwise i.name → e = .nameInUse (Name.registered i.name)
  free : ¬v.registry.HeldOtherwise i.name → e = .importFailed owner i.name

theorem importTag_error {found : Option Tag}
    (h : g.importTag enclosing owner i found s = (.error e, w)) : e = .importFailed owner i.name := by
  unfold importTag at h
  split at h
  · cases h
  · split at h
    · cases h
      rfl
    · rcases Work.bind_cases h with ⟨created, q, -, hcreated⟩ | ⟨e', he, herror⟩
      · cases hcreated
      · cases herror
        unfold Work.failingWith at he
        split at he
        · cases he
        · cases he
          rfl

theorem endsAt_head (rest : List CompiledModule)
    (h : (do
      let found ← registered i.name
      g.importTag enclosing owner i found) s = (.error e, w)) :
    g.EndsAt enclosing owner (i :: rest) s i s e := by
  have hfails : g.finalizeAll enclosing owner [i] s = (.error e, w) := by
    rw [finalizeAll_cons, ← bind_assoc, Work.bind_apply, h]
  refine ⟨⟨[], rest, [], rfl, rfl⟩, by rw [hfails], fun hheld => ?_, fun hfree => ?_⟩
  · rw [Work.bind_apply, registered_apply, Registry.registeredModule_of_heldOtherwise hheld] at h
    cases h
    rfl
  · obtain ⟨found, hfound⟩ := Registry.exists_registeredModule hfree
    rw [Work.bind_apply, registered_apply, hfound] at h
    exact importTag_error h

/-- A failure among the imports is the failure of one of them, with all before it registered. -/
theorem exists_endsAt (h : g.finalizeAll enclosing owner is s = (.error e, w)) :
    ∃ i v, g.EndsAt enclosing owner is s i v e := by
  induction is generalizing s with
  | nil => cases h
  | cons i rest ih =>
    have hcons := h
    rw [finalizeAll_cons, ← bind_assoc] at hcons
    rcases Work.bind_cases hcons with ⟨tag, q, htag, hrest⟩ | ⟨e', he, herror⟩
    · rcases Work.bind_cases hrest with ⟨tags, q', -, htags⟩ | ⟨e', he, herror⟩
      · cases htags
      · cases herror
        obtain ⟨j, v, ⟨before, after, tags, rfl, hbefore⟩, hfails, hheld, hfree⟩ := ih he
        refine ⟨j, v, ⟨i :: before, after, tag :: tags, rfl, ?_⟩, hfails, hheld, hfree⟩
        rw [finalizeAll_cons, ← bind_assoc, Work.bind_apply, htag]
        simp only
        rw [Work.bind_apply, hbefore]
        rfl
    · cases herror
      exact ⟨i, s, endsAt_head rest he⟩

/-- A request for a module that is valid, not registered yet, restorable and of faultless code aborts, with
this error, while the imports of the module are gone through. -/
structure AbortsAtImports (g : Registrar) (q : CreationRequest) (p : Progress) (m : CompiledModule)
    (u s : Progress) (e : ModuleError) : Prop where
  handed : g.handed? q p = some (m, u)
  valid : m.valid = true
  missing : u.registry.registeredModule m.name = .ok none
  opened : ∃ code, g.opening m u = (.ok code, s)
  aborts : (g.finalizeAll [m.name] m.name m.imports s).1 = .error e

variable {q : CreationRequest}

theorem AbortsAtImports.perform_eq (h : g.AbortsAtImports q p m u s e) : (g.perform q p).1 = .error e := by
  obtain ⟨code, hopened⟩ := h.opened
  obtain ⟨w, himports⟩ : ∃ w, g.finalizeAll [m.name] m.name m.imports s = (.error e, w) :=
    ⟨_, Prod.ext h.aborts rfl⟩
  have hbind : (g.finalizeAll [m.name] m.name m.imports >>= g.enrol m code) s = (.error e, w) := by
    rw [Work.bind_apply, himports]
  rw [perform_of_handed h.handed, Work.reported, finalize_of_opening h.valid h.missing hopened,
    List.nil_append, Work.closedBy, hbind]

/-- When a request aborts over the imports of a module that is otherwise in order, the import where it aborts
decides what is returned: the name of this import belongs to an element of another kind and is reported as in
use, or the failure is that of the import, named with the module that it was requested for. The second is
always so if something fails in the finalization of an import, however deep inside it and whatever it is. -/
theorem perform_importFailed (h : g.AbortsAtImports q p m u s e) :
    (∃ i v, g.EndsAt [m.name] m.name m.imports s i v e ∧
      (¬v.registry.HeldOtherwise i.name → (g.perform q p).1 = .error (.importFailed m.name i.name) ∧
        statusCode (g.perform q p).1 = -4) ∧
      (v.registry.HeldOtherwise i.name → (g.perform q p).1 = .error (.nameInUse (Name.registered i.name)) ∧
        statusCode (g.perform q p).1 = -3)) ∧
    ∀ i v enclosing n v' e' w, g.TurnsTo [] m u i v → g.Visits [m.name] i v enclosing n v' →
      g.finalize enclosing n v' = (.error e', w) →
        (g.perform q p).1 = .error (.importFailed m.name i.name) ∧ statusCode (g.perform q p).1 = -4 := by
  constructor
  · obtain ⟨i, v, hends⟩ := exists_endsAt (Prod.ext h.aborts rfl)
    refine ⟨i, v, hends, fun hfree => ?_, fun hheld => ?_⟩
    · rw [h.perform_eq, hends.free hfree]
      exact ⟨rfl, rfl⟩
    · rw [h.perform_eq, hends.held hheld]
      exact ⟨rfl, rfl⟩
  · intro i v enclosing n v' e' w hturn hvisit hn
    obtain ⟨e₁, w₁, hi, -⟩ := hvisit.fails hn
    rw [perform_of_handed h.handed, Work.reported, hturn.fails_eq hi]
    exact ⟨rfl, rfl⟩

def importsTaken : CompiledModule := { name := "::near", imports := [{ name := "::taken" }] }

def importsTakenBelow : CompiledModule :=
  { name := "::far", imports := [{ name := "::mid", imports := [{ name := "::taken" }] }] }

def takenImports : Registrar where
  toolchain := PreparedToolchain.toolchain
    { modules := [("::near", importsTaken), ("::far", importsTakenBelow)] }

def nameTaken (events : List Event) : Progress where
  registry := Registry.empty.add
    ⟨"mdl::taken", .resource ⟨.lightProfile, "/taken.ies", none, false⟩, .browsable⟩
  events := events

theorem perform_importFailed_far :
    (nameTaken []).registry.HeldOtherwise "::taken" ∧
      (takenImports.perform (.loaded "::far") (nameTaken [])).1 = .error (.importFailed "::far" "::mid") ∧
      statusCode (takenImports.perform (.loaded "::far") (nameTaken [])).1 = -4 := by
  have h : takenImports.AbortsAtImports (.loaded "::far") (nameTaken []) importsTakenBelow
      (nameTaken [.load "::far"])
      (nameTaken [.load "::far", .restore "::far" true, .generate "::far" {}])
      (.importFailed "::far" "::mid") :=
    { handed := by rfl
      valid := rfl
      missing := by decide +kernel
      opened := ⟨{}, by rfl⟩
      aborts := by decide +kernel }
  obtain ⟨⟨i, v, ⟨⟨before, after, tags, hi, hv⟩, -, -, -⟩, hfree, -⟩, -⟩ := perform_importFailed h
  refine ⟨⟨⟨1⟩, by rfl, nofun⟩, ?_⟩
  -- there is one import, so it is the one where the request aborts
  cases before with
  | cons j before => simp [importsTakenBelow] at hi
  | nil =>
    cases hi
    cases hv
    refine hfree fun hheld => ?_
    have hfound := Registry.registeredModule_of_heldOtherwise hheld
    exact absurd hfound (by decide +kernel)

/-- A direct import whose registered name belongs to another element is not reported as a failed import. -/
theorem direct_import_not_failed :
    (takenImports.perform (.loaded "::near") (nameTaken [])).1 = .error (.nameInUse "mdl::taken") ∧
      statusCode (takenImports.perform (.loaded "::near") (nameTaken [])).1 = -3 ∧
      ¬∀ (g : Registrar) (q : CreationRequest) (p : Progress) (m : CompiledModule) (u s : Progress)
        (e : ModuleError), g.AbortsAtImports q p m u s e →
          ∃ i ∈ m.imports, (g.perform q p).1 = .error (.importFailed m.name i.name) ∧
            statusCode (g.perform q p).1 = -4 := by
  have hperform : (takenImports.perform (.loaded "::near") (nameTaken [])).1 =
      .error (.nameInUse "mdl::taken") := by decide +kernel
  have h : takenImports.AbortsAtImports (.loaded "::near") (nameTaken []) importsTaken
      (nameTaken [.load "::near"])
      (nameTaken [.load "::near", .restore "::near" true, .generate "::near" {}])
      (.nameInUse "mdl::taken") :=
    { handed := by rfl
      valid := rfl
      missing := by decide +kernel
      opened := ⟨{}, by rfl⟩
      aborts := by decide +kernel }
  refine ⟨hperform, by rw [hperform]; rfl, fun hclaim => ?_⟩
  obtain ⟨i, -, hfailed, -⟩ := hclaim _ _ _ _ _ _ _ h
  rw [hperform] at hfailed
  cases hfailed

end Registrar

end MaterialModules
