import MaterialModules.Proofs.Registration.Analysis
import MaterialModules.Proofs.Registration.Nested

/-!
What is made available for a module is dropped again, however its registration ends. The grants and drops
of a request are nested like brackets, and those that are open when a finalization begins are the modules
that wait for it.
-/

set_option autoImplicit false

namespace MaterialModules

inductive ImportBracket where
  | opening (name : String)
  | closing (name : String)
  deriving DecidableEq, Repr

/-- What a request opens or closes. A restore that is refused opens nothing. -/
def Event.bracket? : Event → Option ImportBracket
  | .restore name true => some (.opening name)
  | .drop name => some (.closing name)
  | _ => none

namespace ImportBracket

/-- Each opening bracket has a closing one of the same name, and between the two stand brackets of this
kind only. -/
inductive Balanced : List ImportBracket → Prop
  | nil : Balanced []
  | pair {name : String} {inner rest : List ImportBracket} (inside : Balanced inner) (after : Balanced rest) :
      Balanced (.opening name :: (inner ++ .closing name :: rest))

def openAfter : List String → List ImportBracket → Option (List String)
  | names, [] => some names
  | names, .opening n :: bs => openAfter (names ++ [n]) bs
  | names, .closing n :: bs => if names.getLast? = some n then openAfter names.dropLast bs else none

theorem Balanced.append {xs ys : List ImportBracket} (hx : Balanced xs) (hy : Balanced ys) :
    Balanced (xs ++ ys) := by
  induction hx with
  | nil => exact hy
  | @pair name inner rest inside after _ ih =>
    rw [List.cons_append, List.append_assoc, List.cons_append]
    exact .pair inside ih

theorem Balanced.enclose (name : String) {xs : List ImportBracket} (hx : Balanced xs) :
    Balanced (.opening name :: (xs ++ [.closing name])) := .pair hx .nil

theorem openAfter_append (names : List String) (xs ys : List ImportBracket) :
    openAfter names (xs ++ ys) = (openAfter names xs).bind fun names => openAfter names ys := by
  induction xs generalizing names with
  | nil => rfl
  | cons x xs ih =>
    cases x with
    | opening n => exact ih _
    | closing n =>
      simp only [List.cons_append, openAfter]
      split
      · exact ih _
      · rfl

theorem Balanced.openAfter_eq {xs : List ImportBracket} (hx : Balanced xs) (names : List String) :
    openAfter names xs = some names := by
  induction hx generalizing names with
  | nil => rfl
  | @pair name inner rest inside after ih₁ ih₂ =>
    rw [openAfter, openAfter_append, ih₁, Option.bind_some, openAfter, List.getLast?_concat,
      if_pos rfl, List.dropLast_concat, ih₂]

end ImportBracket

open ImportBracket

namespace Work

variable {α β : Type} {P : Event → Prop}

theorem Sends.isPrefix {x : Work α} (hx : x.Sends P) (p : Progress) : p.events <+: (x p).2.events := by
  obtain ⟨es, hes, -⟩ := hx p
  exact ⟨es, hes.symm⟩

theorem isPrefix_bind (x : Work α) {f : α → Work β}
    (hf : ∀ (a : α) (q : Progress), q.events <+: (f a q).2.events) (p : Progress) :
    (x p).2.events <+: ((x >>= f) p).2.events := by
  rw [bind_apply]
  rcases x p with ⟨e | a, q⟩
  · exact List.prefix_rfl
  · exact hf a q

def Balances (x : Work α) : Prop :=
  ∀ p : Progress, ∃ es, (x p).2.events = p.events ++ es ∧ Balanced (es.filterMap Event.bracket?)

theorem Sends.balances {x : Work α} (hx : x.Sends fun e => e.bracket? = none) : x.Balances := by
  intro p
  obtain ⟨es, hes, hnone⟩ := hx p
  refine ⟨es, hes, ?_⟩
  rw [List.filterMap_eq_nil_iff.mpr hnone]
  exact .nil

theorem Balances.bind {x : Work α} {f : α → Work β} (hx : x.Balances) (hf : ∀ a, (f a).Balances) :
    (x >>= f).Balances := by
  intro p
  obtain ⟨es, hes, hx⟩ := hx p
  rw [bind_apply]
  rcases h : x p with ⟨e | a, q⟩
  · rw [h] at hes
    exact ⟨es, hes, hx⟩
  · rw [h] at hes
    obtain ⟨fs, hfs, hf⟩ := hf a q
    refine ⟨es ++ fs, ?_, ?_⟩
    · rw [← List.append_assoc, ← hes]
      exact hfs
    · rw [List.filterMap_append]
      exact hx.append hf

theorem Balances.failingWith {x : Work α} (hx : x.Balances) (e : ModuleError) :
    (x.failingWith e).Balances := by
  intro p
  rw [failingWith_events]
  exact hx p

theorem Balances.reported {x : Work α} (hx : x.Balances) : x.reported.Balances := by
  intro p
  rw [reported_events]
  exact hx p

end Work

namespace Registrar

open Work

variable {g : Registrar} {enclosing : List String} {m i n : CompiledModule} {p u v : Progress}

/-- A grant is followed by its drop, whatever happens in between; without a grant there is no drop. -/
theorem balances_restore_closedBy {α : Type} (g : Registrar) (m : CompiledModule) {x : Work α}
    (hx : x.Balances) : (g.restore m >>= fun _ => x.closedBy (.drop m.name)).Balances := by
  intro p
  cases hgranted : g.toolchain.restore p.events p.registry.compiled? m with
  | false =>
    refine ⟨[.restore m.name false], ?_, .nil⟩
    simp [restore, bind_apply, ask, hgranted]
  | true =>
    obtain ⟨es, hes, hbalanced⟩ := hx { p with events := p.events ++ [.restore m.name true] }
    refine ⟨.restore m.name true :: (es ++ [.drop m.name]), ?_, ?_⟩
    · have hrun : (g.restore m >>= fun _ => x.closedBy (.drop m.name)) p =
          x.closedBy (.drop m.name) { p with events := p.events ++ [.restore m.name true] } := by
        simp only [restore, bind_apply, ask, hgranted]
        rfl
      rw [hrun]
      show (x _).2.events ++ [_] = _
      rw [hes]
      simp
    · simpa [Event.bracket?] using hbalanced.enclose m.name

theorem balances_generate (g : Registrar) (m : CompiledModule) : (g.generate m).Balances := by
  have hsends : (g.generate m).Sends fun e => e.bracket? = none := sends_generate g m rfl
  exact hsends.balances

mutual

-- the recursion is that of the tree of imports
theorem balances_finalize (g : Registrar) (enclosing : List String) : (m : CompiledModule) →
    (g.finalize enclosing m).Balances
  | ⟨name, filename, version, standard, valid, messages, imports, references, annotations⟩ => by
    rw [finalize_eq]
    refine (sends_report messages).balances.bind fun _ => ?_
    split
    · refine (sends_registered _).balances.bind fun found => ?_
      cases found with
      | some t => exact (sends_pure _).balances
      | none =>
        refine balances_restore_closedBy g _ ?_
        exact (balances_generate g _).bind fun code =>
          (balances_finalizeAll g _ _ imports).bind fun tags => (sends_enrol _ code tags).balances
    · exact (sends_fail _).balances

theorem balances_finalizeAll (g : Registrar) (enclosing : List String) (owner : String) :
    (is : List CompiledModule) → (g.finalizeAll enclosing owner is).Balances
  | [] => (sends_pure []).balances
  | i :: rest => by
    rw [finalizeAll_cons]
    refine (sends_registered _).balances.bind fun found => Balances.bind ?_ fun tag =>
      (balances_finalizeAll g enclosing owner rest).bind fun tags => (sends_pure _).balances
    cases found with
    | some t => exact (sends_pure t).balances
    | none =>
      simp only [importTag]
      split
      · exact (sends_fail _).balances
      · exact ((balances_finalize g enclosing i).failingWith _).bind fun _ => (sends_pure _).balances

end

theorem sends_acquire_plain (g : Registrar) (q : CreationRequest) :
    (g.acquire q).Sends fun e => e.bracket? = none := by
  have hassemble : ∀ name version build, (g.assemble name version build).Sends fun e =>
      e.bracket? = none := by
    intro name version build
    refine sends_registry.bind fun r => sends_ofExcept_bind fun fs _ => ?_
    refine (sends_ask _ ?_).bind fun answer => sends_verdict name answer
    exact fun _ => rfl
  cases q with
  | loaded name | text name text =>
    refine (sends_ask _ ?_).bind fun answer => sends_accept _ answer
    exact fun _ => rfl
  | variants name vs | materials name ms =>
    exact sends_registry.bind fun r => sends_ofExcept_bind fun version _ => hassemble _ _ _

theorem balances_perform (g : Registrar) (q : CreationRequest) : (g.perform q).Balances := by
  rw [perform_eq]
  refine Balances.reported ?_
  unfold unlessRegistered
  split
  · refine (sends_registered _).balances.bind fun found => ?_
    cases found with
    | some t => exact (sends_pure _).balances
    | none => exact (sends_acquire_plain g q).balances.bind fun m => balances_finalize g [] m
  · exact (sends_fail _).balances

theorem generate_events (g : Registrar) (m : CompiledModule) (p : Progress) :
    (g.generate m p).2.events = p.events ++ [.generate m.name g.settings.generation] := by
  simp only [generate, bind_apply, ask]
  cases g.toolchain.generate p.events m g.settings.generation with
  | error ms => rfl
  | ok code =>
    simp only [accept, Work.pure, report]
    split <;> rfl

theorem opening_events {code : GeneratedCode} (h : g.opening m p = (.ok code, u)) :
    u.events = p.events ++ [.restore m.name true, .generate m.name g.settings.generation] := by
  obtain ⟨_, p₁, hp₁, h⟩ := Work.bind_ok h
  obtain ⟨_, p₂, hp₂, h⟩ := Work.bind_ok h
  have hreported : p₁.events = p.events := by
    cases hp₁
    rfl
  have hgranted : p₂.events = p₁.events ++ [.restore m.name true] := by
    obtain ⟨granted, s, hs, hp₂⟩ := Work.bind_ok hp₂
    cases granted with
    | false => cases hp₂
    | true =>
      cases hp₂
      obtain ⟨hanswer, rfl⟩ := Prod.mk.inj hs
      rw [Except.ok.inj hanswer]
  have hgenerated := generate_events g m p₂
  rw [h] at hgenerated
  rw [hgenerated, hgranted, hreported, List.append_assoc]
  rfl

theorem TurnsTo.opens (h : g.TurnsTo enclosing m p i u) (names : List String) :
    ∃ es, u.events = p.events ++ es ∧
      openAfter names (es.filterMap Event.bracket?) = some (names ++ [m.name]) := by
  obtain ⟨code, s, before, after, tags, hopening, -, hbefore⟩ := h.earlier
  obtain ⟨es, hes, hbalanced⟩ := balances_finalizeAll g (enclosing ++ [m.name]) m.name before s
  rw [hbefore] at hes
  refine ⟨[.restore m.name true, .generate m.name g.settings.generation] ++ es, ?_, ?_⟩
  · rw [← List.append_assoc, ← opening_events hopening]
    exact hes
  · rw [List.filterMap_append, openAfter_append]
    exact hbalanced.openAfter_eq _

theorem TurnsTo.isPrefix (h : g.TurnsTo enclosing m p i u) :
    (g.finalize (enclosing ++ [m.name]) i u).2.events <+: (g.finalize enclosing m p).2.events := by
  obtain ⟨code, s, before, after, tags, hopening, himports, hbefore⟩ := h.earlier
  have hhead : (g.finalize (enclosing ++ [m.name]) i u).2.events <+:
      (g.finalizeAll (enclosing ++ [m.name]) m.name (i :: after) u).2.events := by
    rw [← failingWith_events _ (.importFailed m.name i.name), finalizeAll_cons, bind_apply,
      registered_apply, h.missing]
    simp only [importTag, if_neg h.allowed]
    refine (isPrefix_bind _ (fun _ _ => List.prefix_rfl) u).trans (isPrefix_bind _ (fun tag q => ?_) u)
    exact ((sends_finalizeAll g _ _ after).bind fun tags => sends_pure (tag :: tags)).isPrefix q
  have hall : (g.finalizeAll (enclosing ++ [m.name]) m.name (i :: after) u).2.events <+:
      (g.finalizeAll (enclosing ++ [m.name]) m.name m.imports s).2.events := by
    rw [himports, finalizeAll_append, bind_apply, hbefore]
    exact isPrefix_bind _ (fun _ _ => List.prefix_rfl) u
  rw [finalize_of_opening h.valid h.unregistered hopening]
  have henrol : ∀ (tags : List Tag) (q : Progress), q.events <+: (g.enrol m code tags q).2.events :=
    fun tags => (sends_enrol (P := Event.OfFinalization) m code tags).isPrefix
  exact ((hhead.trans hall).trans (isPrefix_bind _ henrol s)).trans (List.prefix_append _ _)

/-- The brackets that are open when a finalization inside another one begins. -/
theorem Visits.opens {enclosing' : List String} (h : g.Visits enclosing m p enclosing' n v) :
    ∃ es, v.events = p.events ++ es ∧
      openAfter enclosing (es.filterMap Event.bracket?) = some enclosing' := by
  induction h with
  | self => exact ⟨[], (List.append_nil _).symm, rfl⟩
  | @inside enclosing _ m _ _ _ _ _ turn _ ih =>
    obtain ⟨es, hes, hopen⟩ := turn.opens enclosing
    obtain ⟨fs, hfs, hrest⟩ := ih
    refine ⟨es ++ fs, by rw [hfs, hes, List.append_assoc], ?_⟩
    rw [List.filterMap_append, openAfter_append, hopen]
    exact hrest

theorem Visits.isPrefix {enclosing' : List String} (h : g.Visits enclosing m p enclosing' n v) :
    (g.finalize enclosing' n v).2.events <+: (g.finalize enclosing m p).2.events := by
  induction h with
  | self => exact List.prefix_rfl
  | inside turn _ ih => exact ih.trans turn.isPrefix

theorem Visits.nodup {enclosing' : List String} (h : g.Visits enclosing m p enclosing' n v)
    (hnames : (enclosing ++ [m.name]).Nodup) : (enclosing' ++ [n.name]).Nodup := by
  induction h with
  | self => exact hnames
  | inside turn _ ih =>
    refine ih (hnames.append (List.nodup_singleton _) fun k hk hk' => ?_)
    cases List.mem_singleton.mp hk'
    exact turn.allowed hk

/-- The grants and the drops of a request are nested like brackets: each grant is followed by one drop of
the same module, before that of the module around it, and nothing else is dropped. At the beginning of any
finalization the modules that wait for it, all of different names, are those whose bracket is open, and in
the end none is open. -/
theorem perform_balanced (g : Registrar) (q : CreationRequest) (p : Progress) :
    ∃ es, (g.perform q p).2.events = p.events ++ es ∧ Balanced (es.filterMap Event.bracket?) ∧
      openAfter [] (es.filterMap Event.bracket?) = some [] ∧
      ∀ m u enclosing n v, g.handed? q p = some (m, u) → g.Visits [] m u enclosing n v →
        (enclosing ++ [n.name]).Nodup ∧
        ∃ before after, es = before ++ after ∧ v.events = p.events ++ before ∧
          openAfter [] (before.filterMap Event.bracket?) = some enclosing := by
  obtain ⟨es, hes, hbalanced⟩ := balances_perform g q p
  refine ⟨es, hes, hbalanced, hbalanced.openAfter_eq [], fun m u enclosing n v hhanded hvisit => ?_⟩
  refine ⟨hvisit.nodup (List.nodup_singleton _), ?_⟩
  obtain ⟨as, has, hplain⟩ := sends_acquire_plain g q p
  rw [acquire_of_handed hhanded] at has
  obtain ⟨bs, hbs, hopen⟩ := hvisit.opens
  have hfinal : (g.perform q p).2.events = (g.finalize [] m u).2.events := by
    rw [perform_of_handed hhanded, reported_events]
  have hlog : v.events <+: (g.perform q p).2.events := by
    rw [hfinal]
    exact ((sends_finalize g enclosing n).isPrefix v).trans hvisit.isPrefix
  have hv : v.events = p.events ++ (as ++ bs) := by
    rw [hbs, ← List.append_assoc]
    exact congrArg (· ++ bs) has
  rw [hv, hes, List.prefix_append_right_inj] at hlog
  obtain ⟨after, hafter⟩ := hlog
  refine ⟨as ++ bs, after, hafter.symm, hv, ?_⟩
  rw [List.filterMap_append, List.filterMap_eq_nil_iff.mpr hplain]
  exact hopen

def barredBelow : Registrar where
  toolchain := PreparedToolchain.toolchain
    { modules := [("::top", { name := "::top", imports := [{ name := "::leaf" },
        { name := "::mid", imports := [{ name := "::barred" }] }] })]
      refusedRestores := ["::barred"] }

theorem perform_balanced_barredBelow :
    let events := (barredBelow.perform (.loaded "::top") {}).2.events
    events.map Event.line =
      ["load ::top",
        "restore ::top", "compile ::top local_calls=true local_entities=true",
        "restore ::leaf", "compile ::leaf local_calls=true local_entities=true", "drop ::leaf",
        "restore ::mid", "compile ::mid local_calls=true local_entities=true",
        "restore ::barred", "drop ::mid", "drop ::top"] ∧
    events.filterMap Event.bracket? =
      [.opening "::top", .opening "::leaf", .closing "::leaf", .opening "::mid", .closing "::mid",
        .closing "::top"] ∧
    Balanced (events.filterMap Event.bracket?) ∧
    ∃ before after, events = before ++ after ∧
      openAfter [] (before.filterMap Event.bracket?) = some ["::top", "::mid"] := by
  let mid : CompiledModule := { name := "::mid", imports := [{ name := "::barred" }] }
  let top : CompiledModule := { name := "::top", imports := [{ name := "::leaf" }, mid] }
  let loaded : Progress := { events := [.load "::top"] }
  let opened : Progress := (barredBelow.opening top loaded).2
  let turned : Progress := (barredBelow.finalizeAll ["::top"] "::top" [{ name := "::leaf" }] opened).2
  let ready : Progress := (barredBelow.opening mid turned).2
  have hopening : (barredBelow.opening top loaded).1 = .ok {} := by decide +kernel
  have hleaf : (barredBelow.finalizeAll ["::top"] "::top" [{ name := "::leaf" }] opened).1 =
      .ok [⟨1⟩] := by decide +kernel
  have htop : barredBelow.TurnsTo [] top loaded mid turned :=
    { valid := rfl
      unregistered := rfl
      earlier := ⟨{}, opened, [{ name := "::leaf" }], [], [⟨1⟩], Prod.fst_eq_iff.mp hopening, rfl,
        Prod.fst_eq_iff.mp hleaf⟩
      missing := by decide +kernel
      allowed := by decide }
  have hopening' : (barredBelow.opening mid turned).1 = .ok {} := by decide +kernel
  have hnone : ∀ s, barredBelow.finalizeAll ["::top", "::mid"] "::mid" [] s = (.ok [], s) :=
    fun _ => rfl
  have hmid : barredBelow.TurnsTo ["::top"] mid turned { name := "::barred" } ready :=
    { valid := rfl
      unregistered := by decide +kernel
      earlier := ⟨{}, ready, [], [], [], Prod.fst_eq_iff.mp hopening', rfl, hnone ready⟩
      missing := by decide +kernel
      allowed := by decide }
  have hvisit : barredBelow.Visits [] top loaded ["::top", "::mid"] { name := "::barred" }
      ready := .inside htop (.inside hmid (.self _ _ _))
  have hhanded : barredBelow.handed? (.loaded "::top") {} = some (top, loaded) := by
    have hallowed : barredBelow.allows (.loaded "::top") = true := by decide +kernel
    have hmissing : ({} : Progress).registry.registeredModule "::top" = .ok none := rfl
    unfold handed?
    rw [hallowed, show (CreationRequest.loaded "::top").name = "::top" from rfl, hmissing]
    rfl
  obtain ⟨es, hes, hbalanced, -, hopen⟩ := barredBelow.perform_balanced (.loaded "::top") {}
  rw [List.nil_append] at hes
  obtain ⟨-, before, after, hsplit, -, hbefore⟩ := hopen _ _ _ _ _ hhanded hvisit
  refine ⟨by decide +kernel, by decide +kernel, ?_, before, after, ?_, hbefore⟩
  · rw [hes]
    exact hbalanced
  · rw [hes]
    exact hsplit

end Registrar

end MaterialModules
