import MaterialModules.Compiler.Prepared
import MaterialModules.Proofs.Registration.Nested
import MaterialModules.Proofs.Registration.Requests

/-!
Who reports what. As long as nothing fails, only the compiler does; a failure is reported once for each
finalization that it makes fail inside another one, from the inside out, and once for the request.
-/

set_option autoImplicit false

namespace MaterialModules

mutual

theorem CompiledModule.of_all_imports {P : CompiledModule → Prop}
    (h : ∀ m : CompiledModule, (∀ i ∈ m.imports, P i) → P m) : (m : CompiledModule) → P m
  | ⟨_, _, _, _, _, _, imports, _, _⟩ => h _ (CompiledModule.forall_mem_of_all_imports h imports)

theorem CompiledModule.forall_mem_of_all_imports {P : CompiledModule → Prop}
    (h : ∀ m : CompiledModule, (∀ i ∈ m.imports, P i) → P m) : (is : List CompiledModule) → ∀ i ∈ is, P i
  | [] => nofun
  | i :: rest => List.forall_mem_cons.mpr
    ⟨CompiledModule.of_all_imports h i, CompiledModule.forall_mem_of_all_imports h rest⟩

end

namespace Message

def FromCompiler (ms : List Message) : Prop := ∀ x ∈ ms, x.reporter = .compiler

def own (ms : List Message) : List Message := ms.filter fun x => x.reporter = .integration

theorem own_append (xs ys : List Message) : own (xs ++ ys) = own xs ++ own ys := List.filter_append xs ys

theorem FromCompiler.own_eq_nil {ms : List Message} (h : FromCompiler ms) : own ms = [] := by
  refine List.filter_eq_nil_iff.mpr fun x hx => ?_
  rw [h x hx]
  decide

theorem own_failure (text : String) : own [failure text] = [failure text] := rfl

end Message

open Message

def CompiledModule.SpeaksAsCompiler (m : CompiledModule) : Prop :=
  ∀ n, m.Reaches n → FromCompiler n.messages

theorem CompiledModule.SpeaksAsCompiler.of_import {m i : CompiledModule} (h : m.SpeaksAsCompiler)
    (hi : i ∈ m.imports) : i.SpeaksAsCompiler := fun n hn => h n (Relation.ReflTransGen.head hi hn)

def AnswersAsCompiler {α : Type} (speaks : α → Prop) : Except (List Message) α → Prop
  | .ok a => speaks a
  | .error ms => FromCompiler ms

/-- Whatever a toolchain says over some registered modules, it says as the compiler. -/
structure Toolchain.SpeaksAsCompiler (t : Toolchain) (lookup : ModuleLookup) : Prop where
  load : ∀ events name, AnswersAsCompiler CompiledModule.SpeaksAsCompiler (t.load events lookup name)
  loadText : ∀ events name text,
    AnswersAsCompiler CompiledModule.SpeaksAsCompiler (t.loadText events lookup name text)
  analyze : ∀ events source,
    AnswersAsCompiler CompiledModule.SpeaksAsCompiler (t.analyze events lookup source)
  generate : ∀ events m options,
    AnswersAsCompiler (fun code : GeneratedCode => FromCompiler code.messages)
      (t.generate events m options)

/-- From one point to another the registration itself reports these messages, among what the compiler
reports. -/
def Progress.Adds (p : Progress) (xs : List Message) (q : Progress) : Prop :=
  ∃ ms, q.messages = p.messages ++ ms ∧ own ms = xs

theorem Progress.adds_of_compiler {p q : Progress} {ms : List Message} (hms : FromCompiler ms)
    (h : q.messages = p.messages ++ ms) : p.Adds [] q := ⟨ms, h, hms.own_eq_nil⟩

theorem Progress.adds_of_same {p q : Progress} (h : q.messages = p.messages) : p.Adds [] q :=
  ⟨[], by rw [h, List.append_nil], rfl⟩

theorem Progress.Adds.trans {p q s : Progress} {xs ys : List Message} (h₁ : p.Adds xs q)
    (h₂ : q.Adds ys s) : p.Adds (xs ++ ys) s := by
  obtain ⟨ms, hms, rfl⟩ := h₁
  obtain ⟨ns, hns, rfl⟩ := h₂
  exact ⟨ms ++ ns, by rw [hns, hms, List.append_assoc], own_append ms ns⟩

theorem Progress.Adds.failure {p q : Progress} {xs : List Message} (h : p.Adds xs q) {s : Progress}
    {text : String} (hs : s.messages = q.messages ++ [Message.failure text]) :
    p.Adds (xs ++ [Message.failure text]) s := h.trans ⟨_, hs, own_failure text⟩

namespace Work

variable {α β : Type} {I : Registry → Prop} {P : α → Prop} {Q : β → Prop}

def Gives (I : Registry → Prop) (P : α → Prop) (x : Work α) : Prop :=
  ∀ p : Progress, I p.registry →
    p.Adds [] (x p).2 ∧ I (x p).2.registry ∧ ∀ a, (x p).1 = .ok a → P a

theorem Gives.silent {x : Work α} (hx : x.Gives (fun _ => True) P) {p q : Progress}
    {y : Except ModuleError α} (h : x p = (y, q)) : p.Adds [] q := by
  have := (hx p trivial).1
  rwa [h] at this

theorem gives_pure {a : α} (h : P a) : (Work.pure a).Gives I P := fun _ hI =>
  ⟨Progress.adds_of_same rfl, hI, fun b hb => by cases hb; exact h⟩

theorem gives_fail (e : ModuleError) : (Work.fail e : Work α).Gives I P := fun _ hI =>
  ⟨Progress.adds_of_same rfl, hI, nofun⟩

theorem gives_report {ms : List Message} (h : FromCompiler ms) :
    (report ms).Gives I fun _ => True := fun _ hI =>
  ⟨Progress.adds_of_compiler h rfl, hI, fun _ _ => trivial⟩

theorem gives_ask {question : List Event → ModuleLookup → α} (event : α → Event)
    (h : ∀ events r, I r → P (question events r.compiled?)) : (ask question event).Gives I P :=
  fun p hI => ⟨Progress.adds_of_same rfl, hI, fun a ha => by cases ha; exact h p.events _ hI⟩

theorem gives_registry : registry.Gives I fun _ => True := fun _ hI =>
  ⟨Progress.adds_of_same rfl, hI, fun _ _ => trivial⟩

theorem gives_ofExcept (x : Except ModuleError α) : (ofExcept x).Gives I fun _ => True := fun _ hI =>
  ⟨Progress.adds_of_same rfl, hI, fun _ _ => trivial⟩

theorem Gives.bind {x : Work α} {f : α → Work β} (hx : x.Gives I P) (hf : ∀ a, P a → (f a).Gives I Q) :
    (x >>= f).Gives I Q := by
  intro p hI
  obtain ⟨hsilent, hkeep, hP⟩ := hx p hI
  rw [bind_apply]
  rcases h : x p with ⟨e | a, q⟩
  · rw [h] at hsilent hkeep
    exact ⟨hsilent, hkeep, nofun⟩
  · rw [h] at hsilent hkeep hP
    obtain ⟨hrest, hQ⟩ := hf a (hP a rfl) q hkeep
    exact ⟨hsilent.trans hrest, hQ⟩

theorem gives_accept (e : ModuleError) {x : Except (List Message) α} (h : AnswersAsCompiler P x) :
    (accept e x).Gives I P := by
  cases x with
  | ok a => exact gives_pure h
  | error ms => exact (gives_report h).bind fun _ _ => gives_fail e

end Work

namespace Registrar

open Work

variable {g : Registrar} {lookup : ModuleLookup} {enclosing : List String} {m i : CompiledModule}
  {p s u : Progress}

theorem gives_restore (g : Registrar) (m : CompiledModule) :
    (g.restore m).Gives (fun _ => True) fun _ => True := by
  refine (gives_ask (P := fun _ => True) _ fun _ _ _ => trivial).bind fun granted _ => ?_
  cases granted with
  | true => exact gives_pure trivial
  | false => exact gives_fail _

theorem gives_generate (hg : g.toolchain.SpeaksAsCompiler lookup) (m : CompiledModule) :
    (g.generate m).Gives (fun _ => True) fun _ => True := by
  refine (gives_ask _ fun events _ _ => hg.generate events m _).bind fun answer hanswer =>
    (gives_accept _ hanswer).bind fun code hcode => (gives_report hcode).bind fun _ _ => ?_
  split
  · exact gives_pure trivial
  · exact gives_fail _

theorem gives_enrol (m : CompiledModule) (code : GeneratedCode) (tags : List Tag) :
    (g.enrol m code tags).Gives (fun _ => True) fun _ => True := by
  refine fun p _ => ⟨Progress.adds_of_same ?_, trivial, fun _ _ => trivial⟩
  unfold enrol onRegistry
  split
  rfl

theorem gives_acquire (hg : g.toolchain.SpeaksAsCompiler lookup) (q : CreationRequest) :
    (g.acquire q).Gives (fun r => r.compiled? = lookup) CompiledModule.SpeaksAsCompiler := by
  have hassemble : ∀ name version build, (g.assemble name version build).Gives
      (fun r => r.compiled? = lookup) CompiledModule.SpeaksAsCompiler := by
    intro name version build
    refine gives_registry.bind fun r _ => (gives_ofExcept _).bind fun fs _ =>
      (gives_ask _ fun events _ hr => hr ▸ hg.analyze events _).bind fun answer hanswer =>
        (gives_accept _ hanswer).bind fun compiled hcompiled => ?_
    split
    · exact gives_pure hcompiled
    · exact (gives_report (hcompiled compiled .refl)).bind fun _ _ => gives_fail _
  cases q with
  | loaded name =>
    exact (gives_ask _ fun events _ hr => hr ▸ hg.load events name).bind fun answer hanswer =>
      gives_accept _ hanswer
  | text name text =>
    exact (gives_ask _ fun events _ hr => hr ▸ hg.loadText events name text).bind
      fun answer hanswer => gives_accept _ hanswer
  | variants name vs | materials name ms =>
    exact gives_registry.bind fun r _ => (gives_ofExcept _).bind fun version _ => hassemble _ _ _

def ImportFails (g : Registrar) (enclosing : List String) (owner : String) (is : List CompiledModule)
    (s : Progress) : Prop :=
  ∃ before i after tags u e w, is = before ++ i :: after ∧
    g.finalizeAll enclosing owner before s = (.ok tags, u) ∧
    u.registry.registeredModule i.name = .ok none ∧ i.name ∉ enclosing ∧
    g.finalize enclosing i u = (.error e, w)

def TurnsToFailure (g : Registrar) (enclosing : List String) (m : CompiledModule) (p : Progress) :
    Prop :=
  ∃ i u e w, g.TurnsTo enclosing m p i u ∧ g.finalize (enclosing ++ [m.name]) i u = (.error e, w)

theorem silent_of_rest {owner : String} {rest : List CompiledModule} {t : Tag}
    (hhead : g.finalizeAll enclosing owner [i] s = (.ok [t], u)) (hsilent : s.Adds [] u)
    (hrest : g.ImportFails enclosing owner rest u ∨
      u.Adds [] (g.finalizeAll enclosing owner rest u).2) :
    g.ImportFails enclosing owner (i :: rest) s ∨
      s.Adds [] (g.finalizeAll enclosing owner (i :: rest) s).2 := by
  have happend : ∀ js, g.finalizeAll enclosing owner (i :: js) s =
      (g.finalizeAll enclosing owner js >>= fun tags => Work.pure (t :: tags)) u := by
    intro js
    rw [← List.singleton_append, finalizeAll_append, bind_apply, hhead]
    rfl
  rcases hrest with ⟨before, j, after, tags, v, e, w, rfl, hbefore, hfails⟩ | hrest
  · refine .inl ⟨i :: before, j, after, t :: tags, v, e, w, rfl, ?_, hfails⟩
    rw [happend, bind_apply, hbefore]
    rfl
  · refine .inr (hsilent.trans ?_)
    rw [happend, bind_apply]
    rcases hrun : g.finalizeAll enclosing owner rest u with ⟨e | tags, v⟩
    · rwa [hrun] at hrest
    · rwa [hrun] at hrest

theorem finalizeAll_silent_of_head {owner : String} {rest : List CompiledModule}
    (hhead : ∀ u, g.TurnsToFailure enclosing i u ∨ u.Adds [] (g.finalize enclosing i u).2)
    (hrest : ∀ u, g.ImportFails enclosing owner rest u ∨
      u.Adds [] (g.finalizeAll enclosing owner rest u).2) (s : Progress) :
    g.ImportFails enclosing owner (i :: rest) s ∨
      s.Adds [] (g.finalizeAll enclosing owner (i :: rest) s).2 := by
  cases hfound : s.registry.registeredModule i.name with
  | error e =>
    refine .inr (Progress.adds_of_same ?_)
    rw [finalizeAll_cons, bind_apply, registered_apply, hfound]
  | ok found =>
    have hnext : ∀ js, g.finalizeAll enclosing owner (i :: js) s =
        (g.importTag enclosing owner i found >>= fun tag => g.finalizeAll enclosing owner js >>=
          fun tags => Work.pure (tag :: tags)) s := by
      intro js
      rw [finalizeAll_cons, bind_apply, registered_apply, hfound]
    cases found with
    | some t => exact silent_of_rest (hnext []) (Progress.adds_of_same rfl) (hrest s)
    | none =>
      by_cases hallowed : i.name ∈ enclosing
      · refine .inr (Progress.adds_of_same ?_)
        rw [hnext, importTag, if_pos hallowed]
        rfl
      · rcases hrun : g.finalize enclosing i s with ⟨e | c, w⟩
        · exact .inl ⟨[], i, rest, [], s, e, w, rfl, rfl, hfound, hallowed, hrun⟩
        · refine silent_of_rest (t := c.tag) (u := w) ?_ ?_ (hrest w)
          · rw [hnext, importTag, if_neg hallowed, bind_apply, bind_apply, failingWith, hrun]
            rfl
          · rcases hhead s with ⟨j, v, e, w', hturn, hfails⟩ | hsilent
            · obtain ⟨e', w'', hfails, -⟩ := hturn.fails hfails
              rw [hrun] at hfails
              cases hfails
            · rwa [hrun] at hsilent

theorem finalize_due (enclosing : List String) (hvalid : m.valid = true)
    (hmissing : p.registry.registeredModule m.name = .ok none) :
    ∃ q, (g.opening m >>= fun code =>
        g.finalizeAll (enclosing ++ [m.name]) m.name m.imports >>= g.enrol m code) p =
          ((g.finalize enclosing m p).1, q) ∧ (g.finalize enclosing m p).2.messages = q.messages := by
  rw [finalize_eq]
  simp only [opening, bind_assoc, bind_apply (report _), report, hvalid, if_pos]
  rw [bind_apply (registered _), registered_apply, hmissing]
  simp only
  rw [bind_apply, bind_apply]
  rcases g.restore m _ with ⟨e | granted, s⟩
  · exact ⟨s, rfl, rfl⟩
  · exact ⟨_, rfl, rfl⟩

theorem gives_opening (hg : g.toolchain.SpeaksAsCompiler lookup) (hm : FromCompiler m.messages) :
    (g.opening m).Gives (fun _ => True) fun _ => True :=
  (gives_report hm).bind fun _ _ => (gives_restore g m).bind fun _ _ => gives_generate hg m

/-- Unless an import fails, only the compiler reports in a finalization. -/
theorem finalize_silent_of_imports (hg : g.toolchain.SpeaksAsCompiler lookup) (hm : FromCompiler m.messages)
    (himports : ∀ s, g.ImportFails (enclosing ++ [m.name]) m.name m.imports s ∨
      s.Adds [] (g.finalizeAll (enclosing ++ [m.name]) m.name m.imports s).2) (p : Progress) :
    g.TurnsToFailure enclosing m p ∨ p.Adds [] (g.finalize enclosing m p).2 := by
  have hreported : p.Adds [] { p with messages := p.messages ++ m.messages } :=
    Progress.adds_of_compiler hm rfl
  cases hvalid : m.valid with
  | false =>
    rw [finalize_eq, bind_apply, report, hvalid]
    exact .inr hreported
  | true =>
    match hfound : p.registry.registeredModule m.name with
    | .error e | .ok (some t) =>
      rw [finalize_eq, bind_apply, report, hvalid]
      simp only [if_pos]
      rw [bind_apply, registered_apply, hfound]
      exact .inr hreported
    | .ok none =>
      obtain ⟨q, hrun, hmessages⟩ := finalize_due enclosing hvalid hfound
      have hq : p.Adds [] q → p.Adds [] (g.finalize enclosing m p).2 := fun h =>
        h.trans (Progress.adds_of_same hmessages)
      rcases hopening : g.opening m p with ⟨e | code, s⟩
      · rw [bind_apply, hopening] at hrun
        obtain ⟨-, rfl⟩ := Prod.mk.inj hrun
        exact .inr (hq ((gives_opening hg hm).silent hopening))
      · have hs := (gives_opening hg hm).silent hopening
        rw [bind_apply, hopening] at hrun
        simp only at hrun
        rcases himports s with ⟨before, i, after, tags, u, e, w, his, hbefore, hmissing, hallowed, hfails⟩ | hall
        · exact .inl ⟨i, u, e, w,
            { valid := hvalid
              unregistered := hfound
              earlier := ⟨code, s, before, after, tags, hopening, his, hbefore⟩
              missing := hmissing
              allowed := hallowed }, hfails⟩
        · refine .inr (hq (hs.trans ?_))
          rw [bind_apply] at hrun
          rcases himportsRun : g.finalizeAll (enclosing ++ [m.name]) m.name m.imports s with ⟨e | tags, u⟩
          · rw [himportsRun] at hrun hall
            obtain ⟨-, rfl⟩ := Prod.mk.inj hrun
            exact hall
          · rw [himportsRun] at hrun hall
            exact hall.trans ((gives_enrol m code tags).silent hrun)

theorem finalizeAll_silent {owner : String} :
    (is : List CompiledModule) →
    (∀ i ∈ is, ∀ u, g.TurnsToFailure enclosing i u ∨ u.Adds [] (g.finalize enclosing i u).2) →
    (s : Progress) → g.ImportFails enclosing owner is s ∨ s.Adds [] (g.finalizeAll enclosing owner is s).2
  | [], _, _ => .inr (Progress.adds_of_same rfl)
  | i :: rest, his, s =>
    finalizeAll_silent_of_head (his i List.mem_cons_self)
      (finalizeAll_silent rest fun j hj => his j (List.mem_cons_of_mem _ hj)) s

theorem finalize_silent (hg : g.toolchain.SpeaksAsCompiler lookup) (m : CompiledModule) :
    m.SpeaksAsCompiler → ∀ enclosing p,
      g.TurnsToFailure enclosing m p ∨ p.Adds [] (g.finalize enclosing m p).2 := by
  induction m using CompiledModule.of_all_imports with
  | _ m ih =>
    intro hm enclosing
    refine finalize_silent_of_imports hg (hm _ .refl) (finalizeAll_silent m.imports fun i hi => ?_)
    exact ih i hi (hm.of_import hi) _

theorem ImportFails.not_ok {owner : String} {is : List CompiledModule}
    (h : g.ImportFails enclosing owner is s) (tags : List Tag) :
    (g.finalizeAll enclosing owner is s).1 ≠ .ok tags := by
  obtain ⟨before, i, after, _, u, e, w, rfl, hbefore, hmissing, hallowed, hi⟩ := h
  rw [finalizeAll_append, bind_apply, hbefore]
  simp only
  rw [bind_apply, finalizeAll_of_fails hmissing hallowed hi]
  exact nofun

theorem TurnsTo.silent (hg : g.toolchain.SpeaksAsCompiler lookup) (hm : m.SpeaksAsCompiler)
    (h : g.TurnsTo enclosing m p i u) : p.Adds [] u := by
  obtain ⟨code, s, before, after, tags, hopening, himports, hbefore⟩ := h.earlier
  have hs : p.Adds [] s := (gives_opening hg (hm m .refl)).silent hopening
  have hmem : ∀ j ∈ before, j ∈ m.imports := fun j hj => himports ▸ List.mem_append_left _ hj
  rcases finalizeAll_silent before (fun j hj => finalize_silent hg j (hm.of_import (hmem j hj)) _) s
    with hfails | hu
  · exact absurd (congrArg Prod.fst hbefore) (hfails.not_ok tags)
  · rw [hbefore] at hu
    exact hs.trans hu

/-- The finalizations that fail one inside the other, below a given one, each with its error. The
innermost comes first. -/
inductive FailureChain (g : Registrar) :
    List String → CompiledModule → Progress → List (CompiledModule × ModuleError) → Prop
  | last {enclosing : List String} {m : CompiledModule} {p : Progress}
      (alone : ¬g.TurnsToFailure enclosing m p) : FailureChain g enclosing m p []
  | inside {enclosing : List String} {m i : CompiledModule} {p u w : Progress} {e : ModuleError}
      {chain : List (CompiledModule × ModuleError)} (turn : g.TurnsTo enclosing m p i u)
      (fails : g.finalize (enclosing ++ [m.name]) i u = (.error e, w))
      (rest : FailureChain g (enclosing ++ [m.name]) i u chain) :
      FailureChain g enclosing m p (chain ++ [(i, e)])

theorem exists_failureChain (g : Registrar) (m : CompiledModule) :
    ∀ enclosing p, ∃ chain, g.FailureChain enclosing m p chain := by
  induction m using CompiledModule.of_all_imports with
  | _ m ih =>
    intro enclosing p
    by_cases h : g.TurnsToFailure enclosing m p
    · obtain ⟨i, u, e, w, turn, fails⟩ := h
      obtain ⟨chain, rest⟩ := ih i turn.mem_imports (enclosing ++ [m.name]) u
      exact ⟨_, .inside turn fails rest⟩
    · exact ⟨[], .last h⟩

/-- A finalization comes to one failing import at most. -/
theorem TurnsTo.unique {i' : CompiledModule} {u' w w' : Progress} {e e' : ModuleError}
    (h : g.TurnsTo enclosing m p i u) (h' : g.TurnsTo enclosing m p i' u')
    (hi : g.finalize (enclosing ++ [m.name]) i u = (.error e, w))
    (hi' : g.finalize (enclosing ++ [m.name]) i' u' = (.error e', w')) : i = i' ∧ u = u' := by
  obtain ⟨code, s, before, after, tags, hopening, himports, hbefore⟩ := h.earlier
  obtain ⟨code', s', before', after', tags', hopening', himports', hbefore'⟩ := h'.earlier
  obtain ⟨-, rfl⟩ := Prod.mk.inj (hopening.symm.trans hopening')
  -- neither way leads past the import where the other one ends
  rcases List.append_eq_append_iff.mp (himports.symm.trans himports') with
    ⟨between, rfl, hbetween⟩ | ⟨between, rfl, hbetween⟩
  · cases between with
    | nil =>
      rw [List.append_nil] at hbefore'
      obtain ⟨-, rfl⟩ := Prod.mk.inj (hbefore.symm.trans hbefore')
      exact ⟨(List.cons.inj hbetween).1, rfl⟩
    | cons j between =>
      obtain ⟨rfl, -⟩ := List.cons.inj hbetween
      have hfails : g.ImportFails (enclosing ++ [m.name]) m.name (before ++ i :: between) s :=
        ⟨before, i, between, tags, u, e, w, rfl, hbefore, h.missing, h.allowed, hi⟩
      exact absurd (congrArg Prod.fst hbefore') (hfails.not_ok tags')
  · cases between with
    | nil =>
      rw [List.append_nil] at hbefore
      obtain ⟨-, rfl⟩ := Prod.mk.inj (hbefore.symm.trans hbefore')
      exact ⟨(List.cons.inj hbetween).1.symm, rfl⟩
    | cons j between =>
      obtain ⟨rfl, -⟩ := List.cons.inj hbetween
      have hfails : g.ImportFails (enclosing ++ [m.name]) m.name (before' ++ i' :: between) s :=
        ⟨before', i', between, tags', u', e', w', rfl, hbefore', h'.missing, h'.allowed, hi'⟩
      exact absurd (congrArg Prod.fst hbefore) (hfails.not_ok tags)

/-- Whatever fails inside a finalization is in its chain. -/
theorem FailureChain.complete {chain : List (CompiledModule × ModuleError)}
    (h : g.FailureChain enclosing m p chain) {i n : CompiledModule} {enclosing' : List String}
    {u v w : Progress} {e : ModuleError} (turn : g.TurnsTo enclosing m p i u)
    (visit : g.Visits (enclosing ++ [m.name]) i u enclosing' n v)
    (hn : g.finalize enclosing' n v = (.error e, w)) : (n, e) ∈ chain := by
  obtain ⟨e₁, w₁, hi, -⟩ := visit.fails hn
  induction h generalizing i u e₁ w₁ with
  | last alone => exact absurd ⟨i, u, e₁, w₁, turn, hi⟩ alone
  | inside turn' fails rest ih =>
    -- the failing import is the one that the chain goes through
    obtain ⟨rfl, rfl⟩ := turn.unique turn' hi fails
    cases visit with
    | self =>
      rw [fails] at hn
      cases hn
      exact List.mem_append_right _ List.mem_cons_self
    | inside turn₂ visit₂ =>
      obtain ⟨e₂, w₂, hi₂, -⟩ := visit₂.fails hn
      exact List.mem_append_left _ (ih turn₂ visit₂ e₂ w₂ hi₂)

theorem FailureChain.eq_nil {chain : List (CompiledModule × ModuleError)} {c : Created}
    (h : g.FailureChain enclosing m p chain) (hm : (g.finalize enclosing m p).1 = .ok c) : chain = [] := by
  cases h with
  | last => rfl
  | inside turn fails rest =>
    rw [turn.fails_eq fails] at hm
    cases hm

def reports (chain : List (CompiledModule × ModuleError)) : List Message :=
  chain.map fun f => failure f.2.message

/-- A finalization reports the failures of its chain, and nothing else of its own. -/
theorem FailureChain.adds (hg : g.toolchain.SpeaksAsCompiler lookup)
    {chain : List (CompiledModule × ModuleError)} (h : g.FailureChain enclosing m p chain)
    (hm : m.SpeaksAsCompiler) : p.Adds (reports chain) (g.finalize enclosing m p).2 := by
  induction h with
  | last alone => exact (finalize_silent hg _ hm _ _).resolve_left alone
  | inside turn fails rest ih =>
    have hrest := ih (hm.of_import turn.mem_imports)
    rw [fails] at hrest
    rw [turn.fails_eq fails, reports, List.map_append]
    exact ((turn.silent hg hm).trans hrest).failure rfl

theorem reported_adds {α : Type} {work : Work α} {x : Except ModuleError α} {xs : List Message}
    (hwork : p.Adds xs (work p).2) (h : work.reported p = (x, s)) :
    (∀ a, x = .ok a → p.Adds xs s ∧ (work p).1 = .ok a) ∧
      ∀ e, x = .error e → p.Adds (xs ++ [failure e.message]) s := by
  unfold Work.reported at h
  split at h <;> rename_i hrun <;> rw [hrun] at hwork <;> cases h
  · refine ⟨fun a ha => ?_, nofun⟩
    cases ha
    exact ⟨hwork, by rw [hrun]⟩
  · refine ⟨nofun, fun e he => ?_⟩
    cases he
    exact hwork.failure rfl

theorem adds_of_acquire (hg : g.toolchain.SpeaksAsCompiler p.registry.compiled?) {q : CreationRequest}
    {x : Except ModuleError CompiledModule} (h : g.acquire q p = (x, u)) : p.Adds [] u := by
  have := (gives_acquire hg q p rfl).1
  rwa [h] at this

theorem adds_of_not_handed (hg : g.toolchain.SpeaksAsCompiler p.registry.compiled?) {q : CreationRequest}
    (h : g.handed? q p = none) :
    p.Adds [] (unlessRegistered (g.allows q) q.name (g.acquire q >>= g.finalize []) p).2 := by
  unfold unlessRegistered
  cases hallow : g.allows q with
  | false => exact Progress.adds_of_same rfl
  | true =>
    rw [if_pos rfl, bind_apply, registered_apply]
    match hfound : p.registry.registeredModule q.name with
    | .error e | .ok (some t) => exact Progress.adds_of_same rfl
    | .ok none =>
      rcases hacquire : g.acquire q p with ⟨e | m, u⟩
      · simp only
        rw [bind_apply, hacquire]
        exact adds_of_acquire hg hacquire
      · simp [handed?, hallow, hfound, hacquire] at h

/-- What a request reports besides the compiler's messages: nothing when it succeeds. When it fails, each
failure inside the module that was handed over, the innermost first, and then the failure it returns. -/
theorem perform_diagnoses (hg : g.toolchain.SpeaksAsCompiler p.registry.compiled?) {q : CreationRequest}
    {x : Except ModuleError Created} (h : g.perform q p = (x, s)) :
    ∃ added, s.messages = p.messages ++ added ∧
      (∀ c, x = .ok c → own added = []) ∧
      ∀ e, x = .error e →
        (g.handed? q p = none ∧ own added = [failure e.message]) ∨
        ∃ m u chain, g.handed? q p = some (m, u) ∧ g.FailureChain [] m u chain ∧
          (∀ i v enclosing n w e' w', g.TurnsTo [] m u i v → g.Visits [m.name] i v enclosing n w →
            g.finalize enclosing n w = (.error e', w') → (n, e') ∈ chain) ∧
          own added = reports chain ++ [failure e.message] := by
  match hhanded : g.handed? q p with
  | none =>
    rw [perform_eq] at h
    obtain ⟨hok, herror⟩ := reported_adds (adds_of_not_handed hg hhanded) h
    cases x with
    | ok c =>
      obtain ⟨⟨added, hadded, hown⟩, -⟩ := hok c rfl
      exact ⟨added, hadded, fun _ _ => hown, nofun⟩
    | error e =>
      obtain ⟨added, hadded, hown⟩ := herror e rfl
      exact ⟨added, hadded, nofun, fun _ he => by cases he; exact .inl ⟨rfl, hown⟩⟩
  | some (m, u) =>
    rw [perform_of_handed hhanded] at h
    have hacquire := acquire_of_handed hhanded
    have hacquired : p.Adds [] u := adds_of_acquire hg hacquire
    have hm : m.SpeaksAsCompiler := (gives_acquire hg q p rfl).2.2 m (by rw [hacquire])
    obtain ⟨chain, hchain⟩ := exists_failureChain g m [] u
    obtain ⟨hok, herror⟩ := reported_adds (hchain.adds hg hm) h
    cases x with
    | ok c =>
      obtain ⟨hs, hfinalized⟩ := hok c rfl
      rw [hchain.eq_nil hfinalized] at hs
      obtain ⟨added, hadded, hown⟩ := hacquired.trans hs
      exact ⟨added, hadded, fun _ _ => hown, nofun⟩
    | error e =>
      obtain ⟨added, hadded, hown⟩ := hacquired.trans (herror e rfl)
      exact ⟨added, hadded, nofun, fun _ he => by
        cases he
        exact .inr ⟨m, u, chain, rfl, hchain, fun _ _ _ _ _ _ _ => hchain.complete, hown⟩⟩

end Registrar

theorem CompiledModule.speaksAsCompiler_of_imports {m : CompiledModule} (hm : FromCompiler m.messages)
    (himports : ∀ i ∈ m.imports, i.SpeaksAsCompiler) : m.SpeaksAsCompiler :=
  of_imports hm himports

namespace PreparedToolchain

variable {lookup : ModuleLookup}

theorem fromCompiler_compilerError (text : String) : FromCompiler [compilerError text] := by
  intro x hx
  cases List.mem_singleton.mp hx
  rfl

theorem answersAsCompiler_takeOwner (hlookup : ∀ name m, lookup name = some m → m.SpeaksAsCompiler)
    (names : List QualifiedName) (taken : List CompiledModule)
    (htaken : ∀ m ∈ taken, m.SpeaksAsCompiler) :
    AnswersAsCompiler (fun is => ∀ i ∈ is, i.SpeaksAsCompiler) (names.foldlM (takeOwner lookup) taken) := by
  induction names generalizing taken with
  | nil => exact htaken
  | cons n names ih =>
    rw [List.foldlM_cons, takeOwner]
    cases n.modulePart? with
    | none => exact ih _ htaken
    | some owner =>
      simp only
      split
      · exact ih _ htaken
      · cases hfound : lookup owner with
        | none => exact fromCompiler_compilerError _
        | some m =>
          refine ih _ fun i hi => ?_
          rcases List.mem_append.mp hi with hi | hi
          · exact htaken i hi
          · cases List.mem_singleton.mp hi
            exact hlookup owner m hfound

theorem speaksAsCompiler {t : PreparedToolchain} (hmodules : ∀ e ∈ t.modules, e.2.SpeaksAsCompiler)
    (hcodes : ∀ c ∈ t.codes,
      AnswersAsCompiler (fun code : GeneratedCode => FromCompiler code.messages) c.2)
    (hlookup : ∀ name m, lookup name = some m → m.SpeaksAsCompiler) :
    t.toolchain.SpeaksAsCompiler lookup where
  load := by
    intro events name
    simp only [toolchain]
    split
    · rename_i m hm
      obtain ⟨l₁, l₂, hl, -⟩ := List.lookup_eq_some_iff.mp hm
      exact hmodules (name, m) (List.mem_reverse.mp (hl ▸ List.mem_append_right _ List.mem_cons_self))
    · exact fromCompiler_compilerError _
  loadText := by
    intro events name text
    simp only [toolchain]
    split
    · exact CompiledModule.speaksAsCompiler_of_imports nofun nofun
    · exact fromCompiler_compilerError _
  analyze := by
    intro events source
    simp only [toolchain]
    split
    · simp [AnswersAsCompiler, FromCompiler, compilerError]
    · have htaken := answersAsCompiler_takeOwner hlookup source.imports [] nofun
      cases hrun : source.imports.foldlM (takeOwner lookup) [] with
      | error ms =>
        rw [hrun] at htaken
        exact htaken
      | ok imports =>
        rw [hrun] at htaken
        refine CompiledModule.speaksAsCompiler_of_imports ?_ htaken
        simp only
        split
        · exact fromCompiler_compilerError _
        · exact nofun
  generate := by
    intro events m options
    simp only [toolchain]
    split
    · rename_i code hcode
      obtain ⟨l₁, l₂, hl, -⟩ := List.lookup_eq_some_iff.mp hcode
      exact hcodes (m.name, code) (hl ▸ List.mem_append_right _ List.mem_cons_self)
    · simp only [AnswersAsCompiler]
      cases lastAnalyzed? m.name events with
      | none => exact nofun
      | some source => exact nofun

end PreparedToolchain

namespace Registrar

def remarkedBelow : Registrar where
  toolchain := PreparedToolchain.toolchain
    { modules := [("::top", { name := "::top", messages := [⟨.hint, .compiler, "unused parameter"⟩], imports := [
        { name := "::mid", imports := [
          { name := "::barred", messages := [⟨.warning, .compiler, "deprecated"⟩] }] }] })]
      codes := [("::mid", .ok { messages := [⟨.info, .compiler, "no exports"⟩] })]
      refusedRestores := ["::barred"] }

theorem perform_diagnoses_remarkedBelow :
    let s := (remarkedBelow.perform (.loaded "::top") {}).2
    s.messages.map Message.line =
      ["hint: unused parameter", "info: no exports", "warning: deprecated",
        "error: failed to restore the imports of module \"::barred\"",
        "error: failed to initialize module \"::barred\" imported by \"::mid\"",
        "error: failed to initialize module \"::mid\" imported by \"::top\""] ∧
    ∃ m u chain, remarkedBelow.handed? (.loaded "::top") {} = some (m, u) ∧
      remarkedBelow.FailureChain [] m u chain ∧
      own s.messages =
        reports chain ++ [failure (ModuleError.importFailed "::top" "::mid").message] := by
  have hspeaks : remarkedBelow.toolchain.SpeaksAsCompiler ({} : Progress).registry.compiled? := by
    refine PreparedToolchain.speaksAsCompiler (List.forall_mem_singleton.mpr ?_)
      (List.forall_mem_singleton.mpr ?_) nofun
    · refine CompiledModule.speaksAsCompiler_of_imports (by simp [FromCompiler])
        (List.forall_mem_singleton.mpr ?_)
      refine CompiledModule.speaksAsCompiler_of_imports nofun (List.forall_mem_singleton.mpr ?_)
      exact CompiledModule.speaksAsCompiler_of_imports (by simp [FromCompiler]) nofun
    · simp [AnswersAsCompiler, FromCompiler]
  have hfails : (remarkedBelow.perform (.loaded "::top") {}).1 =
      .error (.importFailed "::top" "::mid") := by decide +kernel
  have hthree : (own (remarkedBelow.perform (.loaded "::top") {}).2.messages).length = 3 := by
    decide +kernel
  refine ⟨by decide +kernel, ?_⟩
  obtain ⟨added, hadded, -, hdiagnosed⟩ := perform_diagnoses hspeaks (Prod.fst_eq_iff.mp hfails)
  rw [List.nil_append] at hadded
  rw [hadded] at hthree ⊢
  rcases hdiagnosed _ rfl with ⟨-, hown⟩ | ⟨m, u, chain, hhanded, hchain, -, hown⟩
  · rw [hown] at hthree
    cases hthree
  · exact ⟨m, u, chain, hhanded, hchain, hown⟩

end Registrar

end MaterialModules
