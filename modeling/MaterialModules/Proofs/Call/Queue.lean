import MaterialModules.Call.Uniform
import MaterialModules.Proofs.Call.Acyclic
import MaterialModules.Proofs.Call.Requirement
import Mathlib.Logic.Hydra

/-!
The queue of demands and what it stands for: all that the first demand leads to. A queue that takes no
notice of what has been met comes to the same, if only stored calls do not stand inside themselves.
-/

set_option autoImplicit false

namespace MaterialModules

namespace Registry

variable {r : Registry} {root : Expression} {met rest queue ds : List Demand} {d : Demand}

def Worked (r : Registry) (met queue : List Demand) : Prop :=
  ∀ d ∈ met, ∃ ds, r.demandsOf d = .ok ds ∧ ∀ x ∈ ds, x ∈ met ∨ x ∈ queue

theorem waits_of_met {x : Demand} (hd : d ∈ met) (hx : x ∈ met ∨ x ∈ d :: rest) :
    x ∈ met ∨ x ∈ rest := by
  rcases hx with hx | hx
  · exact .inl hx
  · rcases List.mem_cons.mp hx with rfl | hx
    · exact .inl hd
    · exact .inr hx

theorem waits_of_meeting {x : Demand} (hx : x ∈ met ∨ x ∈ d :: rest) : x ∈ d :: met ∨ x ∈ rest :=
  waits_of_met List.mem_cons_self (hx.imp_left (List.mem_cons_of_mem _))

theorem Worked.skip (h : r.Worked met (d :: rest)) (hd : d ∈ met) : r.Worked met rest := by
  intro x hx
  obtain ⟨ds, hds, hin⟩ := h x hx
  exact ⟨ds, hds, fun y hy => waits_of_met hd (hin y hy)⟩

theorem Worked.go (h : r.Worked met (d :: rest)) (hds : r.demandsOf d = .ok ds) :
    r.Worked (d :: met) (rest ++ ds) := by
  intro x hx
  rcases List.mem_cons.mp hx with rfl | hx
  · exact ⟨ds, hds, fun y hy => .inr (List.mem_append_right _ hy)⟩
  · obtain ⟨es, hes, hin⟩ := h x hx
    exact ⟨es, hes, fun y hy => (waits_of_meeting (hin y hy)).imp_right (List.mem_append_left _)⟩

theorem meet_nil (h : ∀ d ∈ ([] : List Demand), d.expression ∈ r.occurrences root) :
    r.meet root met [] h = .ok met := by
  rw [meet]

theorem meet_skip (hd : d ∈ met) (h : ∀ x ∈ d :: rest, x.expression ∈ r.occurrences root)
    (h' : ∀ x ∈ rest, x.expression ∈ r.occurrences root) :
    r.meet root met (d :: rest) h = r.meet root met rest h' := by
  rw [meet, if_pos hd]

theorem meet_stop (hd : d ∉ met) {e : UniformError} (he : r.demandsOf d = .error e)
    (h : ∀ x ∈ d :: rest, x.expression ∈ r.occurrences root) :
    r.meet root met (d :: rest) h = .error e := by
  rw [meet, if_neg hd]
  split
  · rename_i he'
    rw [he] at he'
    cases he'
    rfl
  · rename_i he'
    rw [he] at he'
    cases he'

theorem meet_go (hd : d ∉ met) (hds : r.demandsOf d = .ok ds) (hqueue : queue = rest ++ ds)
    (h : ∀ x ∈ d :: rest, x.expression ∈ r.occurrences root)
    (h' : ∀ x ∈ queue, x.expression ∈ r.occurrences root) :
    r.meet root met (d :: rest) h = r.meet root (d :: met) queue h' := by
  subst hqueue
  rw [meet, if_neg hd]
  split
  · rename_i hds'
    rw [hds] at hds'
    cases hds'
  · rename_i hds'
    rw [hds] at hds'
    cases hds'
    rfl

theorem meet_spec {P : Demand → Prop} (hP : ∀ d x, P d → r.Follows d x → P x)
    (met queue : List Demand) (inside : ∀ d ∈ queue, d.expression ∈ r.occurrences root)
    (hmet : ∀ d ∈ met, P d) (hqueue : ∀ d ∈ queue, P d) (hworked : r.Worked met queue) :
    (∃ err d, r.meet root met queue inside = .error err ∧ P d ∧ r.Fault d err) ∨
    ∃ all, r.meet root met queue inside = .ok all ∧ (∀ d, d ∈ met ∨ d ∈ queue → d ∈ all) ∧
      (∀ d ∈ all, P d) ∧ r.Worked all [] := by
  -- `P` holds of whatever comes up, and the queue owes nothing in the end
  fun_induction r.meet root met queue inside with
  | case1 met _ => exact .inr ⟨met, rfl, by simp, hmet, hworked⟩
  | case2 met d rest _ hd _ ih =>
    rcases ih hmet (fun x hx => hqueue x (List.mem_cons_of_mem _ hx)) (hworked.skip hd) with
      herr | ⟨all, hall, hin, hreach⟩
    · exact .inl herr
    · exact .inr ⟨all, hall, fun x hx => hin x (waits_of_met hd hx), hreach⟩
  | case3 met d rest _ hd err herr _ =>
    exact .inl ⟨err, d, rfl, hqueue d List.mem_cons_self, demandsOf_eq_error_iff.mp herr⟩
  | case4 met d rest _ hd ds hds _ ih =>
    have hPd := hqueue d List.mem_cons_self
    have hmet' : ∀ x ∈ d :: met, P x := List.forall_mem_cons.mpr ⟨hPd, hmet⟩
    have hqueue' : ∀ x ∈ rest ++ ds, P x := by
      intro x hx
      rcases List.mem_append.mp hx with hx | hx
      · exact hqueue x (List.mem_cons_of_mem _ hx)
      · exact hP d x hPd ((mem_demandsOf_iff hds).mp hx)
    rcases ih hmet' hqueue' (hworked.go hds) with herr | ⟨all, hall, hin, hreach⟩
    · exact .inl herr
    · refine .inr ⟨all, hall, fun x hx => hin x ?_, hreach⟩
      exact (waits_of_meeting hx).imp_right (List.mem_append_left _)

theorem demandsFrom_spec (r : Registry) (root : Expression) (uniform : Bool) :
    (∃ err d, r.demandsFrom root uniform = .error err ∧ r.Reach ⟨root, uniform⟩ d ∧ r.Fault d err) ∨
    ∃ all, r.demandsFrom root uniform = .ok all ∧ (∀ d, d ∈ all ↔ r.Reach ⟨root, uniform⟩ d) ∧
      ∀ d err, r.Reach ⟨root, uniform⟩ d → ¬ r.Fault d err := by
  have hstart : ∀ d ∈ [(⟨root, uniform⟩ : Demand)], r.Reach ⟨root, uniform⟩ d := by
    intro d hd
    cases List.mem_singleton.mp hd
    exact .refl
  rcases meet_spec (P := r.Reach ⟨root, uniform⟩) (fun d x hd hx => hd.tail hx) [] _
    (fun d hd => by cases List.mem_singleton.mp hd; exact r.root_mem_occurrences root)
    (by simp) hstart (fun d hd => by cases hd) with herr | ⟨all, hall, hin, hreach, hworked⟩
  · exact .inl herr
  · have hcomplete : ∀ d, r.Reach ⟨root, uniform⟩ d → d ∈ all := by
      intro d hd
      induction hd with
      | refl => exact hin _ (.inr List.mem_cons_self)
      | tail _ hx ih =>
        obtain ⟨ds, hds, hin⟩ := hworked _ ih
        exact (hin _ ((mem_demandsOf_iff hds).mpr hx)).resolve_right List.not_mem_nil
    refine .inr ⟨all, hall, fun d => ⟨hreach d, hcomplete d⟩, fun d err hd hfault => ?_⟩
    obtain ⟨ds, hds, -⟩ := hworked d (hcomplete d hd)
    rw [hfault.demandsOf_eq] at hds
    cases hds

/-- An answer says whether the first demand leads to one of a uniform target, and that it leads to no
fault; a failure comes of a fault that it leads to. -/
theorem mustBeUniform_spec (r : Registry) (root : Expression) (uniform : Bool) (target : Expression) :
    (∃ required, r.mustBeUniform root uniform target = .ok required ∧
      (required = true ↔ r.Reach ⟨root, uniform⟩ ⟨target, true⟩) ∧
      ∀ d err, r.Reach ⟨root, uniform⟩ d → ¬ r.Fault d err) ∨
    ∃ err d, r.mustBeUniform root uniform target = .error err ∧ r.Reach ⟨root, uniform⟩ d ∧
      r.Fault d err := by
  unfold mustBeUniform
  rcases r.demandsFrom_spec root uniform with ⟨err, d, herr, hd, hfault⟩ | ⟨all, hall, hreach, hfine⟩
  · exact .inr ⟨err, d, by rw [herr]; rfl, hd, hfault⟩
  · refine .inl ⟨_, by rw [hall]; rfl, ?_, hfine⟩
    rw [decide_eq_true_iff]
    exact hreach _

/-- A queue that is worked off without regard to what has been met: the demands in their order, or the
first failure. -/
inductive WorksOff (r : Registry) : List Demand → Except UniformError (List Demand) → Prop
  | done : WorksOff r [] (.ok [])
  | stop {d : Demand} {rest : List Demand} {e : UniformError} (failure : r.demandsOf d = .error e) :
      WorksOff r (d :: rest) (.error e)
  | go {d : Demand} {rest ds : List Demand} {x : Except UniformError (List Demand)}
      (following : r.demandsOf d = .ok ds) (later : WorksOff r (rest ++ ds) x) :
      WorksOff r (d :: rest) (x.map (d :: ·))

theorem WorksOff.unique {x y : Except UniformError (List Demand)} (hx : r.WorksOff queue x)
    (hy : r.WorksOff queue y) : x = y := by
  induction hx generalizing y with
  | done => cases hy; rfl
  | stop failure =>
    cases hy with
    | stop failure' => rw [failure] at failure'; cases failure'; rfl
    | go following => rw [failure] at following; cases following
  | go following later ih =>
    cases hy with
    | stop failure => rw [following] at failure; cases failure
    | go following' later' =>
      rw [following] at following'
      cases following'
      rw [ih later']

theorem Follows.argument_of {d x : Demand} (h : r.Follows d x) :
    r.Argument x.expression d.expression := by
  cases h with
  | argument call place requires =>
    have hmem := List.mem_of_getElem? place
    cases call with
    | stored call kind definition => exact ⟨_, _, by simp [argumentsOf?, call], hmem⟩
    | direct definition kind => exact ⟨_, _, rfl, hmem⟩

theorem Acyclic.exists_worksOff (h : r.Acyclic) (queue : List Demand) : ∃ x, r.WorksOff queue x := by
  have hwf : WellFounded r.Argument := h.wellFounded_argument
  -- each step takes one demand away and puts demands on arguments in its place
  have hqueues : WellFounded (InvImage (Relation.CutExpand r.Argument)
      fun queue : List Demand => (queue.map (·.expression) : Multiset Expression)) :=
    InvImage.wf _ hwf.cutExpand
  induction queue using hqueues.induction with
  | h queue ih =>
    cases queue with
    | nil => exact ⟨_, .done⟩
    | cons d rest =>
      cases hd : r.demandsOf d with
      | error e => exact ⟨_, .stop hd⟩
      | ok ds =>
        have hless : Relation.CutExpand r.Argument
            ((rest ++ ds).map (·.expression) : Multiset Expression)
            ((d :: rest).map (·.expression) : Multiset Expression) := by
          refine ⟨(ds.map (·.expression) : Multiset Expression), d.expression, fun e he => ?_, ?_⟩
          · obtain ⟨x, hx, rfl⟩ := List.mem_map.mp (Multiset.mem_coe.mp he)
            exact ((mem_demandsOf_iff hd).mp hx).argument_of
          · simp only [List.map_append, List.map_cons, ← Multiset.coe_add, ← Multiset.cons_coe,
              ← Multiset.singleton_add]
            rw [add_comm, add_assoc]
        obtain ⟨x, hx⟩ := ih _ hless
        exact ⟨_, .go hd hx⟩

/-- A demand that is met or waits can wait once more. -/
theorem meet_insert (before after extra : List Demand) (hextra : ∀ x ∈ extra, x ∈ met ∨ x ∈ before)
    (h : ∀ x ∈ before ++ (extra ++ after), x.expression ∈ r.occurrences root)
    (h' : ∀ x ∈ before ++ after, x.expression ∈ r.occurrences root) :
    r.meet root met (before ++ (extra ++ after)) h = r.meet root met (before ++ after) h' := by
  induction before generalizing met after with
  | nil =>
    induction extra with
    | nil => rfl
    | cons x extra ih =>
      have hx : x ∈ met := (hextra x List.mem_cons_self).resolve_right List.not_mem_nil
      have hrest : ∀ y ∈ extra ++ after, y.expression ∈ r.occurrences root :=
        fun y hy => h y (List.mem_cons_of_mem _ hy)
      exact (meet_skip hx h hrest).trans
        (ih (fun y hy => hextra y (List.mem_cons_of_mem _ hy)) hrest)
  | cons d before ih =>
    have hrest : ∀ y ∈ before ++ (extra ++ after), y.expression ∈ r.occurrences root :=
      fun y hy => h y (List.mem_cons_of_mem _ hy)
    have hrest' : ∀ y ∈ before ++ after, y.expression ∈ r.occurrences root :=
      fun y hy => h' y (List.mem_cons_of_mem _ hy)
    by_cases hd : d ∈ met
    · have hless : ∀ x ∈ extra, x ∈ met ∨ x ∈ before := fun x hx => waits_of_met hd (hextra x hx)
      exact (meet_skip hd h hrest).trans ((ih after hless hrest hrest').trans (meet_skip hd h' hrest').symm)
    · cases hds : r.demandsOf d with
      | error e => exact (meet_stop hd hds h).trans (meet_stop hd hds h').symm
      | ok ds =>
        have hmore : ∀ x ∈ extra, x ∈ d :: met ∨ x ∈ before := fun x hx =>
          waits_of_meeting (hextra x hx)
        have hfollow : ∀ y ∈ ds, y.expression ∈ r.occurrences root := fun y hy =>
          r.mem_occurrences_of_demandsOf (h d List.mem_cons_self) hds hy
        have hgo : ∀ y ∈ before ++ (extra ++ (after ++ ds)), y.expression ∈ r.occurrences root := by
          intro y hy
          rw [← List.append_assoc extra, ← List.append_assoc before] at hy
          exact (List.mem_append.mp hy).elim (hrest y) (hfollow y)
        have hgo' : ∀ y ∈ before ++ (after ++ ds), y.expression ∈ r.occurrences root := by
          intro y hy
          rw [← List.append_assoc before] at hy
          exact (List.mem_append.mp hy).elim (hrest' y) (hfollow y)
        exact (meet_go hd hds (by simp) h hgo).trans
          ((ih (after ++ ds) hmore hgo hgo').trans (meet_go hd hds (by simp) h' hgo').symm)

theorem WorksOff.meet_eq {x : Except UniformError (List Demand)} (hx : r.WorksOff queue x)
    (met : List Demand) (hworked : r.Worked met queue)
    (h : ∀ d ∈ queue, d.expression ∈ r.occurrences root) :
    (∃ e, x = .error e ∧ r.meet root met queue h = .error e) ∨
    ∃ ds all, x = .ok ds ∧ r.meet root met queue h = .ok all ∧
      ∀ d, d ∈ all ↔ d ∈ met ∨ d ∈ ds := by
  induction hx generalizing met with
  | done => exact .inr ⟨[], met, rfl, meet_nil h, by simp⟩
  | @stop d rest e failure =>
    have hd : d ∉ met := by
      intro hd
      obtain ⟨ds, hds, -⟩ := hworked d hd
      rw [failure] at hds
      cases hds
    exact .inl ⟨e, rfl, meet_stop hd failure h⟩
  | @go d rest ds x following later ih =>
    have hgo : ∀ y ∈ rest ++ ds, y.expression ∈ r.occurrences root := by
      intro y hy
      rcases List.mem_append.mp hy with hy | hy
      · exact h y (List.mem_cons_of_mem _ hy)
      · exact r.mem_occurrences_of_demandsOf (h d List.mem_cons_self) following hy
    by_cases hd : d ∈ met
    · -- nothing new comes up here, whatever waits behind it
      have hrest := hworked.skip hd
      have hknown : ∀ y ∈ ds, y ∈ met ∨ y ∈ rest := by
        obtain ⟨ds', hds', hin⟩ := hrest d hd
        rw [following] at hds'
        cases hds'
        exact hin
      have hmore : r.Worked met (rest ++ ds) := by
        intro y hy
        obtain ⟨es, hes, hin⟩ := hrest y hy
        exact ⟨es, hes, fun z hz => (hin z hz).imp_right (List.mem_append_left _)⟩
      have hskip : r.meet root met (d :: rest) h = r.meet root met (rest ++ ds) hgo := by
        have hrest' : ∀ y ∈ rest, y.expression ∈ r.occurrences root :=
          fun y hy => h y (List.mem_cons_of_mem _ hy)
        have hinsert := meet_insert rest [] ds hknown (by simpa using hgo) (by simpa using hrest')
        simp only [List.append_nil] at hinsert
        exact (meet_skip hd h hrest').trans hinsert.symm
      rw [hskip]
      rcases ih met hmore hgo with ⟨e, rfl, he⟩ | ⟨es, all, rfl, hall, hmem⟩
      · exact .inl ⟨e, rfl, he⟩
      · refine .inr ⟨d :: es, all, rfl, hall, fun y => ?_⟩
        rw [hmem y, List.mem_cons]
        constructor
        · rintro (hy | hy)
          · exact .inl hy
          · exact .inr (.inr hy)
        · rintro (hy | rfl | hy)
          · exact .inl hy
          · exact .inl hd
          · exact .inr hy
    · -- both queues take the same step
      rw [meet_go hd following rfl h hgo]
      rcases ih (d :: met) (hworked.go following) hgo with ⟨e, rfl, he⟩ | ⟨es, all, rfl, hall, hmem⟩
      · exact .inl ⟨e, rfl, he⟩
      · refine .inr ⟨d :: es, all, rfl, hall, fun y => ?_⟩
        rw [hmem y, List.mem_cons, List.mem_cons]
        exact or_assoc.trans or_left_comm

theorem WorksOff.mustBeUniform_eq {uniform : Bool} {x : Except UniformError (List Demand)}
    (hx : r.WorksOff [⟨root, uniform⟩] x) (target : Expression) :
    r.mustBeUniform root uniform target = x.map fun ds => decide (⟨target, true⟩ ∈ ds) := by
  have hinside : ∀ d ∈ [(⟨root, uniform⟩ : Demand)], d.expression ∈ r.occurrences root := by
    intro d hd
    cases List.mem_singleton.mp hd
    exact r.root_mem_occurrences root
  rcases hx.meet_eq [] (fun d hd => by cases hd) hinside with
    ⟨e, rfl, he⟩ | ⟨ds, all, rfl, hall, hmem⟩
  · rw [mustBeUniform, demandsFrom, he]
  · have : (⟨target, true⟩ : Demand) ∈ all ↔ (⟨target, true⟩ : Demand) ∈ ds := by
      simpa using hmem ⟨target, true⟩
    rw [mustBeUniform, demandsFrom, hall]
    simp [Except.map, this]

/-- The analysis of an acyclic registry answers as the plain queue does, which comes to an end. It fails
exactly if some demand that the first one leads to has a fault, and by such a fault; else it says whether
the first demand leads to one of a uniform target. -/
theorem Acyclic.mustBeUniform_iff_reach (h : r.Acyclic) (root : Expression) (uniform : Bool)
    (target : Expression) :
    (∃ x, (∀ y, r.WorksOff [⟨root, uniform⟩] y ↔ y = x) ∧
      r.mustBeUniform root uniform target = x.map fun ds => decide (⟨target, true⟩ ∈ ds)) ∧
    ((∃ err, r.mustBeUniform root uniform target = .error err) ↔
      ∃ d err, r.Reach ⟨root, uniform⟩ d ∧ r.Fault d err) ∧
    (∀ err, r.mustBeUniform root uniform target = .error err →
      ∃ d, r.Reach ⟨root, uniform⟩ d ∧ r.Fault d err) ∧
    (∀ b, r.mustBeUniform root uniform target = .ok b →
      (b = true ↔ r.Reach ⟨root, uniform⟩ ⟨target, true⟩)) := by
  refine ⟨?plain, ?_⟩
  case plain =>
    obtain ⟨x, hx⟩ := h.exists_worksOff [⟨root, uniform⟩]
    exact ⟨x, fun y => ⟨fun hy => hy.unique hx, fun hy => hy ▸ hx⟩, hx.mustBeUniform_eq target⟩
  rcases r.demandsFrom_spec root uniform with ⟨err, d, herr, hd, hfault⟩ | ⟨all, hall, hreach, hfine⟩
  · have hrun : r.mustBeUniform root uniform target = .error err := by
      rw [mustBeUniform, herr]
      rfl
    refine ⟨⟨fun _ => ⟨d, err, hd, hfault⟩, fun _ => ⟨err, hrun⟩⟩, fun err' herr' => ?_, fun b hb => ?_⟩
    · rw [hrun] at herr'
      cases herr'
      exact ⟨d, hd, hfault⟩
    · rw [hrun] at hb
      cases hb
  · have hrun : r.mustBeUniform root uniform target = .ok (decide (⟨target, true⟩ ∈ all)) := by
      rw [mustBeUniform, hall]
      rfl
    refine ⟨⟨fun ⟨err, herr⟩ => ?_, fun ⟨d, err, hd, hfault⟩ => absurd hfault (hfine d err hd)⟩,
      fun err herr => ?_, fun b hb => ?_⟩
    · rw [hrun] at herr
      cases herr
    · rw [hrun] at herr
      cases herr
    · rw [hrun] at hb
      cases hb
      rw [decide_eq_true_iff]
      exact hreach _

def storedUniformCall : Registry where
  records :=
    [(⟨2⟩, ⟨"call", .call ⟨.function, ⟨1⟩, [("x", .constant 1 ⟨.int, {}⟩ (.int 5))]⟩, .referenceCounted⟩),
     (⟨1⟩, ⟨"mdl::m::f(int)", .definition
        { kind := .function, module := ⟨0⟩, name := "::m::f(int)", returnType := ⟨.int, {}⟩
          parameters := [{ name := "x", type := ⟨.int, ⟨true, false⟩⟩ }] }, .browsable⟩)]
  lastTag := 2

theorem storedUniformCall_mustBeUniform :
    storedUniformCall.Acyclic ∧
    storedUniformCall.mustBeUniform (.call 0 ⟨.int, {}⟩ ⟨2⟩) false (.constant 1 ⟨.int, {}⟩ (.int 5)) =
      .ok true := by
  have hacyclic : storedUniformCall.Acyclic := by
    refine acyclic_of_decreasing fun x hx l ty u hu => ?_
    simp only [storedUniformCall, List.mem_cons, List.not_mem_nil, or_false] at hx
    rcases hx with rfl | rfl <;>
      simp [Element.occurrences, Expression.partsOfAll, Expression.parts] at hu
  have hcall : storedUniformCall.demandsOf ⟨.call 0 ⟨.int, {}⟩ ⟨2⟩, false⟩ =
      .ok [⟨.constant 1 ⟨.int, {}⟩ (.int 5), true⟩] := rfl
  have hconstant : storedUniformCall.demandsOf ⟨.constant 1 ⟨.int, {}⟩ (.int 5), true⟩ = .ok [] := rfl
  have hqueue : storedUniformCall.WorksOff ([⟨.call 0 ⟨.int, {}⟩ ⟨2⟩, false⟩] ++ []) _ :=
    .go hcall (.go hconstant .done)
  obtain ⟨⟨x, hx, hanswer⟩, -⟩ := hacyclic.mustBeUniform_iff_reach (.call 0 ⟨.int, {}⟩ ⟨2⟩) false
    (.constant 1 ⟨.int, {}⟩ (.int 5))
  rw [← (hx _).mp hqueue] at hanswer
  exact ⟨hacyclic, hanswer.trans (by simp [Except.map])⟩

end Registry

end MaterialModules
