import MaterialModules.Proofs.Call.Queue

set_option autoImplicit false

namespace MaterialModules

theorem pathSteps_append (p q : String) : pathSteps (p ++ "." ++ q) = pathSteps p ++ pathSteps q := by
  have hchars : (p ++ "." ++ q).toList = p.toList ++ '.' :: q.toList := by simp
  simp only [pathSteps, hchars, Text.pieces_append, List.map_append]

theorem exists_pathSteps_eq_cons (p : String) : ∃ n ns, pathSteps p = n :: ns := by
  refine List.exists_cons_of_ne_nil ?_
  simpa [pathSteps] using Text.pieces_ne_nil '.' p.toList

namespace Registry

variable {r : Registry} {args : Arguments} {e : Expression} {ns ms : List String} {p : String}

/-- A call with its arguments. Neither a stored nor a direct one needs a definition for that. -/
inductive CallWith (r : Registry) : Expression → Arguments → Prop
  | stored {l : Nat} {ty : Ty} {t : Tag} {c : StoredCall} (call : r.call? t = some c) :
      CallWith r (.call l ty t) c.arguments
  | direct (l : Nat) (ty : Ty) (t : Tag) (args : Arguments) : CallWith r (.direct l ty t args) args

theorem argumentsOf?_eq_some_iff : r.argumentsOf? e = some args ↔ r.CallWith e args := by
  constructor
  · intro h
    cases e with
    | call l ty t =>
      obtain ⟨c, hc, rfl⟩ := Option.map_eq_some_iff.mp h
      exact .stored hc
    | direct l ty t as =>
      cases h
      exact .direct l ty t args
    | constant | parameter | temporary => cases h
  · intro h
    cases h with
    | stored call => simp [argumentsOf?, call]
    | direct => rfl

theorem follow_of_ne_nil (h : ms ≠ []) (e : Expression) :
    r.follow ms e = (r.argumentsOf? e).bind fun args => r.followIn args ms := by
  cases ms with
  | nil => exact absurd rfl h
  | cons m ms => exact Option.bind_assoc ..

theorem follow_append (r : Registry) (ns ms : List String) (e : Expression) :
    r.follow (ns ++ ms) e = (r.follow ns e).bind (r.follow ms) := by
  induction ns generalizing e with
  | nil => rfl
  | cons n ns ih =>
    simp only [List.cons_append, follow, Option.bind_assoc, ih]

theorem followIn_append (hns : ns ≠ []) (ms : List String) :
    r.followIn args (ns ++ ms) = (r.followIn args ns).bind (r.follow ms) := by
  cases ns with
  | nil => exact absurd rfl hns
  | cons n ns => simp only [List.cons_append, followIn, Option.bind_assoc, follow_append]

/-- A path is followed up to a dot, and from there on in the arguments that it has come to. -/
theorem find?_append (r : Registry) (args : Arguments) (p q : String) :
    r.find? (p ++ "." ++ q) args =
      ((r.find? p args).bind r.argumentsOf?).bind fun inner => r.find? q inner := by
  obtain ⟨n, ns, hp⟩ := exists_pathSteps_eq_cons p
  obtain ⟨m, ms, hq⟩ := exists_pathSteps_eq_cons q
  have hcut : ∀ e, r.follow (m :: ms) e = (r.argumentsOf? e).bind fun inner => r.followIn inner (m :: ms) :=
    follow_of_ne_nil (List.cons_ne_nil m ms)
  simp only [find?, pathSteps_append, hp, hq, followIn_append (List.cons_ne_nil n ns), hcut,
    Option.bind_assoc]

theorem exists_root_of_find? (h : r.find? p args = some e) :
    ∃ n ns root, pathSteps p = n :: ns ∧ args.get? n = some root ∧ r.follow ns root = some e := by
  obtain ⟨n, ns, hp⟩ := exists_pathSteps_eq_cons p
  rw [find?, hp, followIn] at h
  obtain ⟨root, hroot, hfollow⟩ := Option.bind_eq_some_iff.mp h
  exact ⟨n, ns, root, hp, hroot, hfollow⟩

theorem Fault.ne_missingArgument {d : Demand} {err : UniformError} (h : r.Fault d err) (name : String) :
    err ≠ .internal (.missingArgument name) := by
  cases h <;> simp

theorem mustBeUniform_ne_missingArgument (root : Expression) (uniform : Bool) (target : Expression)
    (name : String) :
    r.mustBeUniform root uniform target ≠ .error (.internal (.missingArgument name)) := by
  rcases r.mustBeUniform_spec root uniform target with ⟨_, hok, -⟩ | ⟨err, d, herr, -, hfault⟩
  · rw [hok]
    simp
  · rw [herr]
    simpa using hfault.ne_missingArgument name

/-- The analysis at a path misses an argument just where the path does not start at one. -/
theorem mustBeUniformAt_eq_missingArgument_iff {c : Callee} {n : String} (hp : pathSteps p = n :: ns)
    (target : Expression) (name : String) :
    r.mustBeUniformAt c p target = .error (.internal (.missingArgument name)) ↔
      c.arguments.get? n = none ∧ name = n := by
  unfold mustBeUniformAt
  simp only [hp, List.headD_cons]
  cases c.arguments.get? n with
  | none => simp [eq_comm]
  | some root => simpa using mustBeUniform_ne_missingArgument root _ target name

/-- Paths compose: a path with a dot leads where the part behind the dot leads in the arguments of the call
that the part in front of it leads to, and nowhere if that is no call, or a stored one that is not there. A
path that leads somewhere starts at an argument, which the analysis at this path finds as well. -/
theorem paths_compose (r : Registry) (args : Arguments) (p q : String) :
    (∀ e inner, r.find? p args = some e → r.CallWith e inner →
      r.find? (p ++ "." ++ q) args = r.find? q inner) ∧
    ((¬∃ e inner, r.find? p args = some e ∧ r.CallWith e inner) →
      r.find? (p ++ "." ++ q) args = none) ∧
    ∀ e, r.find? p args = some e →
      (∃ n ns root, pathSteps p = n :: ns ∧ args.get? n = some root) ∧
      ∀ (c : Callee) (target : Expression) (name : String), c.arguments = args →
        r.mustBeUniformAt c p target ≠ .error (.internal (.missingArgument name)) := by
  refine ⟨fun e inner he hcall => ?_, fun hno => ?_, fun e he => ?_⟩
  · rw [find?_append, he, Option.bind_some, argumentsOf?_eq_some_iff.mpr hcall, Option.bind_some]
  · refine Option.eq_none_iff_forall_ne_some.mpr fun x hx => hno ?_
    rw [find?_append] at hx
    obtain ⟨inner, hinner, -⟩ := Option.bind_eq_some_iff.mp hx
    obtain ⟨e, he, hcall⟩ := Option.bind_eq_some_iff.mp hinner
    exact ⟨e, inner, he, argumentsOf?_eq_some_iff.mp hcall⟩
  · obtain ⟨n, ns, root, hp, hroot, -⟩ := exists_root_of_find? he
    refine ⟨⟨n, ns, root, hp, hroot⟩, ?_⟩
    rintro c target name rfl hmissing
    obtain ⟨hnone, -⟩ := (mustBeUniformAt_eq_missingArgument_iff hp target name).mp hmissing
    rw [hroot] at hnone
    cases hnone

/-- A stored call that is an argument of its own, with a constant under the empty name beside it. -/
def storedLoop : Registry where
  records := [(⟨1⟩, ⟨"call", .call ⟨.function, ⟨0⟩, arguments⟩, .referenceCounted⟩)]
  lastTag := 1
where
  loop : Expression := .call 0 ⟨.int, {}⟩ ⟨1⟩
  leaf : Expression := .constant 1 ⟨.int, {}⟩ (.int 5)
  arguments : Arguments := [("x", loop), ("", leaf)]
  callee : Callee := ⟨.function, "::m::f", arguments, []⟩

open storedLoop in
theorem paths_compose_loop :
    storedLoop.find? ("x.x" ++ "." ++ "x.") arguments = some leaf ∧
      storedLoop.find? ("x." ++ "." ++ "x") arguments = none ∧
      (∃ n ns root, pathSteps "x.x" = n :: ns ∧ arguments.get? n = some root) ∧
      storedLoop.mustBeUniformAt callee "x.x" leaf ≠ .error (.internal (.missingArgument "x")) := by
  obtain ⟨hcall, -, hroot⟩ := paths_compose storedLoop arguments "x.x" "x."
  have hloop : storedLoop.CallWith loop arguments := argumentsOf?_eq_some_iff.mp rfl
  have hleaf : ¬∃ e inner, storedLoop.find? "x." arguments = some e ∧ storedLoop.CallWith e inner := by
    rintro ⟨e, inner, he, hcall⟩
    have hconstant : storedLoop.find? "x." arguments = some leaf := rfl
    rw [hconstant] at he
    cases he
    cases hcall
  refine ⟨(hcall loop arguments rfl hloop).trans rfl, ?_, (hroot loop rfl).1, ?_⟩
  · exact (paths_compose storedLoop arguments "x." "x").2.1 hleaf
  · exact (hroot loop rfl).2 callee leaf "x" rfl

end Registry

end MaterialModules
