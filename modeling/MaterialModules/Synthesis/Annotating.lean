import MaterialModules.Source.Imports
import MaterialModules.Synthesis.Conversion

/-!
Annotations as source. An annotation is written under its full name, as in
`::anno::description(string)`, and checked against the definition of that name and signature in the
registered module that it belongs to.
-/

set_option autoImplicit false

namespace MaterialModules

structure AnnotationTitle where
  module : String
  /-- The absolute name, without the signature. -/
  name : String
  /-- The types between the parentheses. -/
  signature : String
  deriving DecidableEq, Repr

def AnnotationTitle.ofText? (full : String) : Option AnnotationTitle :=
  match full.toList with
  | ':' :: ':' :: _ =>
    let name := full.toList.takeWhile (· ≠ '(')
    match full.toList.dropWhile (· ≠ '(') with
    | [] => none
    | _ :: signature =>
      match Text.cutLastScope name with
      | some (before@(_ :: _), _) =>
        some ⟨String.ofList before, String.ofList name,
          String.ofList (Text.dropTrailing ')' signature)⟩
      | _ => none
  | _ => none

namespace Annotation

/-- The parameter that an argument is meant for. The one string of a definition with one parameter may
go under the name `argument`. -/
def parameterName (a : Annotation) (d : AnnotationDefinition) (name : String) (v : Value) : String :=
  match name, a.arguments, d.parameters, v with
  | "argument", [_], [p], .string _ => p.1
  | _, _, _, _ => name

end Annotation

namespace Registry

def annotationDefinition? (r : Registry) (t : AnnotationTitle) : Option AnnotationDefinition :=
  (r.compiled? t.module).bind fun m => m.annotationNamed? t.name t.signature

def annotationArgument (r : Registry) (a : Annotation) (d : AnnotationDefinition) (name : String)
    (e : Expression) : Except ModuleError (Source.Argument Source.Expr) :=
  match e with
  | .constant _ _ v =>
    let parameter := a.parameterName d name v
    match (d.parameterType? parameter).bind v.convert? with
    | none => .error (.annotationArgument a.name name)
    | some w => (r.valueSource w).result.map fun x => ⟨some parameter, x⟩
  | _ => .error (.annotationArgument a.name name)

def annotationSource (r : Registry) (a : Annotation) : Except ModuleError Source.Annotation :=
  match AnnotationTitle.ofText? a.name with
  | none => .error (.annotationName a.name)
  | some title =>
    match r.annotationDefinition? title with
    | none => .error (.annotationNotFound a.name)
    | some d =>
      (a.arguments.mapM fun (n, e) => r.annotationArgument a d n e).map fun args =>
        ⟨.ofText title.name, args⟩

/-- An annotation block as source, with its names mentioned; no block comes of an empty one. -/
def annotationBlock (r : Registry) :
    Option AnnotationBlock → Mentioning (Option Source.AnnotationBlock)
  | none | some [] => pure none
  | some block => do
    let converted ← Mentioning.ofExcept (block.mapM r.annotationSource)
    Mentioning.mention (Source.AnnotationBlock.names converted)
    pure (some converted)

end Registry

end MaterialModules
