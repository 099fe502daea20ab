import MaterialModules.Proofs.Synthesis.Mentioning
import MaterialModules.Proofs.Text.Scopes
import MaterialModules.Registration.Enrolment
import MaterialModules.Synthesis.Annotating
import Mathlib.Data.List.Dedup
import Mathlib.Data.List.Perm.Subperm
import Mathlib.Data.List.TakeWhile
import Mathlib.Data.Option.Basic

set_option autoImplicit false

namespace MaterialModules

namespace Text

variable {c : Char} {a b s t : List Char}

theorem takeWhile_dropWhile_iff :
    (s.takeWhile (· ≠ c) = a ∧ ∃ d, s.dropWhile (· ≠ c) = d :: b) ↔ s = a ++ c :: b ∧ c ∉ a := by
  constructor
  · rintro ⟨rfl, d, hd⟩
    have hmark : d = c := by
      have hhead := List.head?_dropWhile_not (fun x => decide (x ≠ c)) s
      rw [hd] at hhead
      simpa using hhead
    refine ⟨?_, fun hmem => ?_⟩
    · rw [← hmark, ← hd, hmark]
      exact List.takeWhile_append_dropWhile.symm
    · simpa using List.mem_takeWhile_imp hmem
  · rintro ⟨rfl, hc⟩
    have hall : ∀ x ∈ a, decide (x ≠ c) = true := fun x hx => decide_eq_true fun h => hc (h ▸ hx)
    refine ⟨?_, c, ?_⟩
    · rw [List.takeWhile_append_of_pos hall, List.takeWhile_cons_of_neg (by simp), List.append_nil]
    · rw [List.dropWhile_append_of_pos hall, List.dropWhile_cons_of_neg (by simp)]

theorem dropTrailing_concat_self (c : Char) (s : List Char) :
    dropTrailing c (s ++ [c]) = dropTrailing c s := by
  simp [dropTrailing]

theorem dropTrailing_concat_of_ne {d : Char} (h : d ≠ c) (s : List Char) :
    dropTrailing c (s ++ [d]) = s ++ [d] := by
  simp [dropTrailing, h]

theorem dropTrailing_spec (c : Char) (s : List Char) :
    (∃ k, s = dropTrailing c s ++ List.replicate k c) ∧ ¬[c] <:+ dropTrailing c s := by
  induction s using List.reverseRecOn with
  | nil => exact ⟨⟨0, rfl⟩, by simp [dropTrailing]⟩
  | append_singleton s d ih =>
    by_cases hd : d = c
    · obtain ⟨⟨k, hk⟩, hlast⟩ := ih
      rw [hd, dropTrailing_concat_self]
      exact ⟨⟨k + 1, by rw [List.replicate_succ', ← List.append_assoc, ← hk]⟩, hlast⟩
    · rw [dropTrailing_concat_of_ne hd]
      refine ⟨⟨0, by simp⟩, ?_⟩
      rintro ⟨u, hu⟩
      exact hd (List.cons.inj (List.append_inj_right' hu rfl)).1.symm

theorem dropTrailing_eq_self (h : ¬[c] <:+ t) : dropTrailing c t = t := by
  cases t using List.reverseRecOn with
  | nil => rfl
  | append_singleton t d =>
    refine dropTrailing_concat_of_ne ?_ t
    rintro rfl
    exact h (List.suffix_append t [d])

theorem dropTrailing_eq_iff :
    dropTrailing c s = t ↔ (∃ k, s = t ++ List.replicate k c) ∧ ¬[c] <:+ t := by
  constructor
  · rintro rfl
    exact dropTrailing_spec c s
  · rintro ⟨⟨k, rfl⟩, hlast⟩
    induction k with
    | zero => rw [List.replicate_zero, List.append_nil, dropTrailing_eq_self hlast]
    | succ k ih => rw [List.replicate_succ', ← List.append_assoc, dropTrailing_concat_self, ih]

end Text

namespace AnnotationTitle

structure Reads (t : AnnotationTitle) (full : String) : Prop where
  absolute : [':', ':'] <+: full.toList
  text : ∃ k, full.toList = t.name.toList ++ '(' :: (t.signature.toList ++ List.replicate k ')')
  unsigned : '(' ∉ t.name.toList
  closed : ¬[')'] <:+ t.signature.toList
  cut : ∃ last, t.name.toList = t.module.toList ++ ':' :: ':' :: last ∧ Text.Unbroken (':' :: last)
  inModule : t.module.toList ≠ []

variable {t : AnnotationTitle} {full : String}

theorem reads_of_ofText (h : ofText? full = some t) : t.Reads full := by
  unfold ofText? at h
  split at h
  · rename_i rest habsolute
    dsimp only at h
    split at h
    · cases h
    · rename_i d signature hdrop
      split at h
      · rename_i c before last hcut
        cases h
        obtain ⟨htext, hname⟩ := Text.takeWhile_dropWhile_iff.mp ⟨rfl, d, hdrop⟩
        obtain ⟨hcut', hlast⟩ := Text.cutLastScope_eq_some_iff.mp hcut
        obtain ⟨⟨k, hk⟩, hclosed⟩ := Text.dropTrailing_spec ')' signature
        exact
          { absolute := ⟨rest, habsolute.symm⟩
            text := ⟨k, by simpa only [String.toList_ofList, ← hk] using htext⟩
            unsigned := by simpa only [String.toList_ofList] using hname
            closed := by simpa only [String.toList_ofList] using hclosed
            cut := ⟨last, by simpa only [String.toList_ofList] using hcut', hlast⟩
            inModule := by simp }
      · cases h
  · cases h

theorem Reads.ofText (h : t.Reads full) : ofText? full = some t := by
  obtain ⟨k, htext⟩ := h.text
  obtain ⟨last, hcut', hlast⟩ := h.cut
  obtain ⟨rest, hrest⟩ := h.absolute
  obtain ⟨c, before, hmodule⟩ := List.exists_cons_of_ne_nil h.inModule
  obtain ⟨htake, d, hdrop⟩ := Text.takeWhile_dropWhile_iff.mpr ⟨htext, h.unsigned⟩
  have hcut := Text.cutLastScope_eq_some_iff.mpr ⟨hcut', hlast⟩
  have hsignature := Text.dropTrailing_eq_iff.mpr ⟨⟨k, rfl⟩, h.closed⟩
  unfold ofText?
  rw [← hrest] at htake hdrop ⊢
  simp only [List.cons_append, List.nil_append] at htake hdrop ⊢
  rw [hmodule] at hcut
  simp only [htake, hdrop, hcut, hsignature]
  rw [← hmodule, String.ofList_toList, String.ofList_toList, String.ofList_toList]

end AnnotationTitle

namespace Registry

variable {r : Registry} {a : Annotation} {d : AnnotationDefinition} {title : AnnotationTitle}

/-- A definition stands in the module that is registered under the module of a title, under the name and with
the signature of the title. -/
structure DefinesAnnotation (r : Registry) (title : AnnotationTitle) (d : AnnotationDefinition) : Prop where
  registered : ∃ tag m, r.tag? (Name.registered title.module) = some tag ∧ r.module? tag = some m ∧
    d ∈ m.compiled.annotationDefinitions
  name : d.name = title.name
  signature : d.signature = title.signature

theorem definesAnnotation_of_some (h : r.annotationDefinition? title = some d) :
    r.DefinesAnnotation title d := by
  obtain ⟨m, hm, hd⟩ := Option.bind_eq_some_iff.mp h
  obtain ⟨record, hrecord, rfl⟩ := Option.map_eq_some_iff.mp hm
  obtain ⟨tag, htag, hmodule⟩ := Option.bind_eq_some_iff.mp hrecord
  have hwritten := List.find?_some hd
  obtain ⟨hname, hsignature⟩ := Bool.and_eq_true_iff.mp hwritten
  exact ⟨⟨tag, record, htag, hmodule, List.mem_of_find?_eq_some hd⟩, of_decide_eq_true hname,
    of_decide_eq_true hsignature⟩

theorem not_definesAnnotation_of_none (h : r.annotationDefinition? title = none) :
    ¬r.DefinesAnnotation title d := by
  rintro ⟨⟨tag, m, htag, hm, hd⟩, hname, hsignature⟩
  have hcompiled : r.compiled? title.module = some m.compiled := by
    rw [compiled?, htag, Option.bind_some, hm, Option.map_some]
  rw [annotationDefinition?, hcompiled, Option.bind_some] at h
  have hnone := List.find?_eq_none.mp h d hd
  simp [hname, hsignature] at hnone

/-- An argument goes to a parameter of the definition: it is a constant, and the parameter gets the source of
the constant's value at its own type. -/
inductive Binds (r : Registry) (a : Annotation) (d : AnnotationDefinition) :
    String × Expression → Source.Argument Source.Expr → Prop
  | intro {n : String} {l : Nat} {ty type : Ty} {v w : Value} {x : Source.Expr}
      (declared : d.parameterType? (a.parameterName d n v) = some type)
      (converted : v.convert? type = some w) (fits : w.type.fits type.unqualified = true)
      (written : (r.valueSource w).result = .ok x) :
      Binds r a d (n, .constant l ty v) ⟨some (a.parameterName d n v), x⟩

inductive Dangles (r : Registry) (a : Annotation) (d : AnnotationDefinition) :
    String × Expression → Tag → Prop
  | intro {n : String} {l : Nat} {ty type : Ty} {v w : Value} {t : Tag}
      (declared : d.parameterType? (a.parameterName d n v) = some type)
      (converted : v.convert? type = some w)
      (unwritten : (r.valueSource w).result = .error (.conversion (.missingResource t)))
      (missing : r.resource? t = none) : Dangles r a d (n, .constant l ty v) t

end Registry

/-- An argument cannot go to any parameter of the definition. -/
inductive Annotation.Unfit (a : Annotation) (d : AnnotationDefinition) : String × Expression → Prop
  | notConstant {n : String} {e : Expression} (h : ∀ l ty v, e ≠ .constant l ty v) : Unfit a d (n, e)
  | unknown {n : String} {l : Nat} {ty : Ty} {v : Value}
      (undeclared : d.parameterType? (a.parameterName d n v) = none) : Unfit a d (n, .constant l ty v)
  | inconvertible {n : String} {l : Nat} {ty type : Ty} {v : Value}
      (declared : d.parameterType? (a.parameterName d n v) = some type)
      (unconverted : v.convert? type = none) : Unfit a d (n, .constant l ty v)

theorem Value.fits_of_convert {v w : Value} {type : Ty} (h : v.convert? type = some w) :
    w.type.fits type.unqualified = true := by
  unfold convert? at h
  split at h
  case h_4 =>
    split at h
    · rename_i hfits
      cases h
      exact hfits
    · cases h
  -- a number that is widened gets the very type
  all_goals
    rename_i hkind
    cases h
    rw [Ty.unqualified, hkind]
    rfl

namespace Mentioning

variable {α β : Type} {P : ModuleError → Prop}

def FailsOnly (P : ModuleError → Prop) (x : Mentioning α) : Prop := ∀ e, x.result = .error e → P e

theorem failsOnly_pure (a : α) : (Pure.pure a : Mentioning α).FailsOnly P := nofun

theorem FailsOnly.bind {x : Mentioning α} {f : α → Mentioning β} (hx : x.FailsOnly P)
    (hf : ∀ a, (f a).FailsOnly P) : (x >>= f).FailsOnly P := by
  intro e he
  rw [result_bind] at he
  cases hresult : x.result with
  | error e' =>
    rw [hresult] at he
    cases he
    exact hx e hresult
  | ok a =>
    rw [hresult] at he
    exact hf a e he

theorem failsOnly_mention (qs : List QualifiedName) : (mention qs).FailsOnly P := nofun

end Mentioning

namespace Registry

open Mentioning

variable {r : Registry} {a : Annotation} {d : AnnotationDefinition} {title : AnnotationTitle}

def IsMissing (r : Registry) (e : ModuleError) : Prop :=
  ∃ t, r.resource? t = none ∧ e = .conversion (.missingResource t)

theorem resourcePath_failsOnly (r : Registry) (t : Option Tag) :
    (ofExcept (r.resourcePath t)).FailsOnly r.IsMissing := by
  intro e he
  change r.resourcePath t = .error e at he
  unfold resourcePath at he
  split at he
  · cases he
  · rename_i t
    split at he
    · cases he
    · rename_i hmissing
      cases he
      exact ⟨t, hmissing, rfl⟩

theorem resourceItems_failsOnly (r : Registry) (t : Option Tag) :
    (r.resourceItems t).FailsOnly r.IsMissing :=
  (resourcePath_failsOnly r t).bind fun _ => failsOnly_pure _

theorem written_failsOnly (ty : Ty) : ty.written.FailsOnly r.IsMissing := nofun

mutual

theorem valueSource_failsOnly (r : Registry) : (v : Value) → (r.valueSource v).FailsOnly r.IsMissing
  | .bool _ | .int _ | .float _ | .double _ | .string _ | .color _ _ _ | .emptyDistribution _ =>
    failsOnly_pure _
  | .vector items => (written_failsOnly _).bind fun _ => (valueSources_failsOnly r items).bind fun _ =>
    failsOnly_pure _
  | .enumeration _ _ _ => (failsOnly_mention _).bind fun _ => failsOnly_pure _
  | .struct _ fields => (failsOnly_mention _).bind fun _ => (fieldSources_failsOnly r fields).bind fun _ =>
    failsOnly_pure _
  | .array _ items => (written_failsOnly _).bind fun _ => (valueSources_failsOnly r items).bind fun _ =>
    failsOnly_pure _
  | .texture _ t _ => (resourcePath_failsOnly r t).bind fun _ => failsOnly_pure _
  | .lightProfile t | .bsdfMeasurement t => (resourceItems_failsOnly r t).bind fun _ => failsOnly_pure _

theorem valueSources_failsOnly (r : Registry) : (vs : List Value) →
    (r.valueSources vs).FailsOnly r.IsMissing
  | [] => failsOnly_pure _
  | v :: vs => (valueSource_failsOnly r v).bind fun _ => (valueSources_failsOnly r vs).bind fun _ =>
    failsOnly_pure _

theorem fieldSources_failsOnly (r : Registry) : (vs : List (String × Value)) →
    (r.fieldSources vs).FailsOnly r.IsMissing
  | [] => failsOnly_pure _
  | (_, v) :: vs => (valueSource_failsOnly r v).bind fun _ => (fieldSources_failsOnly r vs).bind fun _ =>
    failsOnly_pure _

end

theorem binds_of_annotationArgument {n : String} {e : Expression} {x : Source.Argument Source.Expr}
    (h : r.annotationArgument a d n e = .ok x) : r.Binds a d (n, e) x := by
  unfold annotationArgument at h
  split at h
  · rename_i v
    dsimp only at h
    split at h
    · cases h
    · rename_i w hw
      obtain ⟨type, hdeclared, hconverted⟩ := Option.bind_eq_some_iff.mp hw
      cases hwritten : (r.valueSource w).result with
      | error e => rw [hwritten] at h; cases h
      | ok y =>
        rw [hwritten] at h
        cases h
        exact .intro hdeclared hconverted (Value.fits_of_convert hconverted) hwritten
  · cases h

/-- An argument fails because it is unfit, which names it, or because a resource is missing. -/
theorem annotationArgument_error {n : String} {e : Expression} {error : ModuleError}
    (h : r.annotationArgument a d n e = .error error) :
    (a.Unfit d (n, e) ∧ error = .annotationArgument a.name n) ∨
      ∃ t, r.Dangles a d (n, e) t ∧ error = .conversion (.missingResource t) := by
  unfold annotationArgument at h
  split at h
  · rename_i v
    dsimp only at h
    split at h
    · rename_i hnone
      cases h
      refine .inl ⟨?_, rfl⟩
      cases hdeclared : d.parameterType? (a.parameterName d n v) with
      | none => exact .unknown hdeclared
      | some type =>
        rw [hdeclared] at hnone
        exact .inconvertible hdeclared hnone
    · rename_i w hw
      obtain ⟨type, hdeclared, hconverted⟩ := Option.bind_eq_some_iff.mp hw
      cases hwritten : (r.valueSource w).result with
      | error e =>
        rw [hwritten] at h
        cases h
        obtain ⟨t, hmissing, rfl⟩ := valueSource_failsOnly r w _ hwritten
        exact .inr ⟨t, .intro hdeclared hconverted hwritten hmissing, rfl⟩
      | ok y => rw [hwritten] at h; cases h
  · rename_i hconstant
    cases h
    exact .inl ⟨.notConstant fun l ty v he => hconstant l ty v he, rfl⟩

/-- What is made of an annotation: the name of the definition, and for each argument the one of a parameter of
the definition. No parameter gets two, and all get one if there are as many arguments as parameters. -/
structure Annotates (r : Registry) (a : Annotation) (d : AnnotationDefinition) (s : Source.Annotation) :
    Prop where
  name : s.name = .ofText d.name
  binds : List.Forall₂ (r.Binds a d) a.arguments s.args
  once : (s.args.map (·.name)).Nodup
  declared : ∀ x ∈ s.args, ∃ p ∈ d.parameters, x.name = some p.1
  complete_iff : (∀ p ∈ d.parameters, ∃ x ∈ s.args, x.name = some p.1) ↔
    a.arguments.length = (d.parameters.map Prod.fst).dedup.length

variable {xs : List (Source.Argument Source.Expr)}

theorem parameterName_of_two {x y : String × Expression} {rest : Arguments}
    (h : a.arguments = x :: y :: rest) (n : String) (v : Value) : a.parameterName d n v = n := by
  unfold Annotation.parameterName
  split
  · rename_i hone _
    rw [h] at hone
    cases hone
  · rfl

theorem nodup_names_of_binds (hdistinct : (a.arguments.map Prod.fst).Nodup)
    (h : List.Forall₂ (r.Binds a d) a.arguments xs) : (xs.map (·.name)).Nodup := by
  match hargs : a.arguments with
  | [] =>
    rw [hargs] at h
    cases h
    exact List.nodup_nil
  | [x] =>
    rw [hargs] at h
    cases h with
    | cons _ hrest =>
      cases hrest
      exact List.nodup_singleton _
  | x :: y :: rest =>
    have hnames : a.arguments.map (fun p => some p.1) = xs.map (·.name) := by
      rw [← List.forall₂_eq_eq_eq, List.forall₂_map_left_iff, List.forall₂_map_right_iff]
      refine h.imp fun p out hbinds => ?_
      cases hbinds
      rw [parameterName_of_two hargs]
    rw [← hnames, ← Function.comp_def, ← List.map_map]
    exact hdistinct.map (Option.some_injective _)

theorem exists_parameter_of_binds (h : List.Forall₂ (r.Binds a d) a.arguments xs) :
    ∀ x ∈ xs, ∃ p ∈ d.parameters, x.name = some p.1 := by
  intro x hx
  obtain ⟨arg, -, hbinds⟩ := exists_mem_right h.flip hx
  obtain ⟨declared, -, -, -⟩ := hbinds
  obtain ⟨p, hp, -⟩ := Option.map_eq_some_iff.mp declared
  have hname := List.find?_some hp
  exact ⟨p, List.mem_of_find?_eq_some hp, congrArg some (of_decide_eq_true hname).symm⟩

theorem complete_iff_length (hnodup : (xs.map (·.name)).Nodup)
    (hdeclared : ∀ x ∈ xs, ∃ p ∈ d.parameters, x.name = some p.1) :
    (∀ p ∈ d.parameters, ∃ x ∈ xs, x.name = some p.1) ↔
      xs.length = (d.parameters.map Prod.fst).dedup.length := by
  have hsubset : xs.map (·.name) ⊆ (d.parameters.map Prod.fst).dedup.map some := by
    intro n hn
    obtain ⟨x, hx, rfl⟩ := List.mem_map.mp hn
    obtain ⟨p, hp, hname⟩ := hdeclared x hx
    exact hname ▸ List.mem_map_of_mem (List.mem_dedup.mpr (List.mem_map_of_mem hp))
  have hdedup : ((d.parameters.map Prod.fst).dedup.map some).Nodup :=
    (List.nodup_dedup _).map (Option.some_injective _)
  constructor
  · intro hall
    have hsuperset : (d.parameters.map Prod.fst).dedup.map some ⊆ xs.map (·.name) := by
      intro n hn
      obtain ⟨m, hm, rfl⟩ := List.mem_map.mp hn
      obtain ⟨p, hp, rfl⟩ := List.mem_map.mp (List.mem_dedup.mp hm)
      obtain ⟨x, hx, hname⟩ := hall p hp
      exact hname ▸ List.mem_map_of_mem hx
    have hle := (hnodup.subperm hsubset).length_le
    have hge := (hdedup.subperm hsuperset).length_le
    simpa using Nat.le_antisymm hle hge
  · intro hlength p hp
    have hperm := (hnodup.subperm hsubset).perm_of_length_le (by simp [hlength])
    have hmem := hperm.mem_iff.mpr (List.mem_map_of_mem (List.mem_dedup.mpr (List.mem_map_of_mem hp)))
    obtain ⟨x, hx, hname⟩ := List.mem_map.mp hmem
    exact ⟨x, hx, hname⟩

theorem annotates_of_binds (hdistinct : (a.arguments.map Prod.fst).Nodup)
    (h : List.Forall₂ (r.Binds a d) a.arguments xs) : r.Annotates a d ⟨.ofText d.name, xs⟩ where
  name := rfl
  binds := h
  once := nodup_names_of_binds hdistinct h
  declared := exists_parameter_of_binds h
  complete_iff := h.length_eq ▸
    complete_iff_length (nodup_names_of_binds hdistinct h) (exists_parameter_of_binds h)

theorem annotationArguments_cases (r : Registry) (a : Annotation) (d : AnnotationDefinition) :
    (∃ xs, (a.arguments.mapM fun (n, e) => r.annotationArgument a d n e) = .ok xs ∧
      List.Forall₂ (r.Binds a d) a.arguments xs) ∨
    ∃ e before n x after xs, (a.arguments.mapM fun (n, e) => r.annotationArgument a d n e) = .error e ∧
      a.arguments = before ++ (n, x) :: after ∧ List.Forall₂ (r.Binds a d) before xs ∧
      ((a.Unfit d (n, x) ∧ e = .annotationArgument a.name n) ∨
        ∃ t, r.Dangles a d (n, x) t ∧ e = .conversion (.missingResource t)) := by
  cases hargs : a.arguments.mapM fun (n, e) => r.annotationArgument a d n e with
  | ok xs =>
    exact .inl ⟨xs, rfl, (forall₂_of_mapM_ok hargs).imp fun _ _ => binds_of_annotationArgument⟩
  | error e =>
    obtain ⟨before, ⟨n, x⟩, after, xs, hsplit, hbefore, hx⟩ := exists_error_of_mapM hargs
    exact .inr ⟨e, before, n, x, after, xs, rfl, hsplit,
      hbefore.imp fun _ _ => binds_of_annotationArgument, annotationArgument_error hx⟩

/-- An annotation that is converted stands for the definition that is written in its full name, and its
arguments go to parameters of this definition. One that is not has no such name, or no such definition, or
there is a first argument that does not go to any parameter or names a resource that is not registered. -/
theorem annotationSource_exact (hdistinct : (a.arguments.map Prod.fst).Nodup) :
    (∀ s, r.annotationSource a = .ok s →
      ∃ title d, title.Reads a.name ∧ r.DefinesAnnotation title d ∧ r.Annotates a d s) ∧
    ∀ e, r.annotationSource a = .error e →
      (e = .annotationName a.name ∧ ∀ title : AnnotationTitle, ¬title.Reads a.name) ∨
      (e = .annotationNotFound a.name ∧
        ∃ title : AnnotationTitle, title.Reads a.name ∧ ∀ d, ¬r.DefinesAnnotation title d) ∨
      ∃ title d before n x after xs, title.Reads a.name ∧ r.DefinesAnnotation title d ∧
        a.arguments = before ++ (n, x) :: after ∧ List.Forall₂ (r.Binds a d) before xs ∧
        ((a.Unfit d (n, x) ∧ e = .annotationArgument a.name n) ∨
          ∃ t, r.Dangles a d (n, x) t ∧ e = .conversion (.missingResource t)) := by
  unfold annotationSource
  cases htitle : AnnotationTitle.ofText? a.name with
  | none =>
    refine ⟨fun s hs => ?_, fun e he => .inl ⟨(Except.error.inj he).symm, fun title hreads => ?_⟩⟩
    · cases hs
    · rw [hreads.ofText] at htitle
      cases htitle
  | some title =>
    have hreads := AnnotationTitle.reads_of_ofText htitle
    simp only
    cases hdefinition : r.annotationDefinition? title with
    | none =>
      refine ⟨fun s hs => ?_, fun e he =>
        .inr (.inl ⟨(Except.error.inj he).symm, title, hreads, fun d => ?_⟩)⟩
      · cases hs
      · exact not_definesAnnotation_of_none hdefinition
    | some d =>
      have hdefines := definesAnnotation_of_some hdefinition
      simp only
      rcases annotationArguments_cases r a d with
        ⟨xs, hargs, hbinds⟩ | ⟨e', before, n, x, after, xs, hargs, hfirst⟩
      · rw [hargs]
        refine ⟨fun s hs => ⟨title, d, hreads, hdefines, ?_⟩, fun e he => ?_⟩
        · rw [← Except.ok.inj hs, ← hdefines.name]
          exact annotates_of_binds hdistinct hbinds
        · cases he
      · rw [hargs]
        refine ⟨fun s hs => ?_, fun e he => .inr (.inr ?_)⟩
        · cases hs
        · rw [← Except.error.inj he]
          exact ⟨title, d, before, n, x, after, xs, hreads, hdefines, hfirst⟩

def annoLibrary : CompiledModule where
  name := "::anno"
  standard := true
  annotationDefinitions := [
    ⟨"::anno::description", [("description", ⟨.string, {}⟩)]⟩,
    ⟨"::anno::soft_range", [("min", ⟨.float, {}⟩), ("max", ⟨.float, {}⟩)]⟩]

def annoLoaded : Registry :=
  empty.add ⟨"mdl::anno", .module (annoLibrary.record false {} [] []), .browsable⟩

def descriptionTitle : AnnotationTitle := ⟨"::anno", "::anno::description", "string"⟩

theorem descriptionTitle_unique {d : AnnotationDefinition}
    (h : annoLoaded.DefinesAnnotation descriptionTitle d) :
    d = ⟨"::anno::description", [("description", ⟨.string, {}⟩)]⟩ := by
  obtain ⟨⟨tag, m, htag, hm, hd⟩, hname, -⟩ := h
  obtain rfl : tag = ⟨1⟩ := by
    have hone : annoLoaded.tag? (Name.registered descriptionTitle.module) = some ⟨1⟩ := by decide +kernel
    exact Option.some.inj (htag.symm.trans hone)
  cases hm
  rcases List.mem_cons.mp hd with rfl | hd
  · rfl
  · cases List.mem_singleton.mp hd
    exact absurd hname (by decide)

theorem annotationSource_exact_renamed :
    let a : Annotation :=
      ⟨"::anno::description(string)", [("argument", .constant 0 ⟨.string, {}⟩ (.string "shiny"))]⟩
    ∃ s, annoLoaded.annotationSource a = .ok s ∧ s.args.map (·.name) = [some "description"] ∧
      ∃ title d, title.Reads a.name ∧ annoLoaded.DefinesAnnotation title d ∧ annoLoaded.Annotates a d s := by
  intro a
  have hnames : (annoLoaded.annotationSource a).map (fun s => s.args.map (·.name)) =
      .ok [some "description"] := by decide +kernel
  have hdistinct : (a.arguments.map Prod.fst).Nodup := List.nodup_cons.mpr ⟨List.not_mem_nil, List.nodup_nil⟩
  rcases hs : annoLoaded.annotationSource a with e | s
  · rw [hs] at hnames
    cases hnames
  · rw [hs] at hnames
    exact ⟨s, rfl, Except.ok.inj hnames, (annotationSource_exact hdistinct).1 s hs⟩

/-- An annotation without arguments is converted, though its definition has a parameter. -/
theorem annotation_parameters_unbound :
    annoLoaded.annotationSource ⟨"::anno::description(string)", []⟩ =
      .ok ⟨.ofText "::anno::description", []⟩ ∧
    ¬∀ (r : Registry) (a : Annotation), (a.arguments.map Prod.fst).Nodup →
      ∀ s, r.annotationSource a = .ok s → ∃ title d, title.Reads a.name ∧ r.DefinesAnnotation title d ∧
        ∀ p ∈ d.parameters, ∃ x ∈ s.args, x.name = some p.1 := by
  have hs : annoLoaded.annotationSource ⟨"::anno::description(string)", []⟩ =
      .ok ⟨.ofText "::anno::description", []⟩ := by rfl
  refine ⟨hs, fun hclaim => ?_⟩
  obtain ⟨title, d, hreads, hdefines, hall⟩ := hclaim annoLoaded ⟨_, []⟩ List.nodup_nil _ hs
  obtain rfl : title = descriptionTitle := by
    have htitle : AnnotationTitle.ofText? "::anno::description(string)" = some descriptionTitle := by
      decide +kernel
    exact Option.some.inj (hreads.ofText.symm.trans htitle)
  rw [descriptionTitle_unique hdefines] at hall
  obtain ⟨x, hx, -⟩ := hall _ List.mem_cons_self
  cases hx

end Registry

end MaterialModules
