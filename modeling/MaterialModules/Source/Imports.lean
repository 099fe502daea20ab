import MaterialModules.Source.Tree

set_option autoImplicit false

namespace MaterialModules.Source

namespace Expr

mutual

def names : Expr → List QualifiedName
  | .literal _ => []
  | .reference t => [t.name]
  | .call callee args => callee.names ++ argumentNames args
  | .unary _ e => e.names
  | .binary _ a b => a.names ++ b.names
  | .conditional c a b => c.names ++ a.names ++ b.names
  | .field e _ => e.names
  | .index e i => e.names ++ i.names
  | .letIn bs e => bindingNames bs ++ e.names
termination_by structural e => e

def argumentNames : List (Argument Expr) → List QualifiedName
  | [] => []
  | ⟨_, e⟩ :: rest => e.names ++ argumentNames rest
termination_by structural as => as

def bindingNames : List (Binding Expr) → List QualifiedName
  | [] => []
  | ⟨t, _, e⟩ :: rest => t.name :: e.names ++ bindingNames rest
termination_by structural bs => bs

end

end Expr

def Annotation.names (a : Annotation) : List QualifiedName := a.name :: Expr.argumentNames a.args

def AnnotationBlock.names (b : AnnotationBlock) : List QualifiedName := b.flatMap Annotation.names

end MaterialModules.Source

namespace MaterialModules

namespace NameSet

/-- Adds the names that live in some module; others need no import. -/
def collect (s : NameSet) (qs : List QualifiedName) : NameSet :=
  s.insertAll (qs.filter fun q => q.modulePart?.isSome)

end NameSet

namespace Source.Module

def ownName (m : Module) : String := (QualifiedName.mk true (QualifiedName.ofText m.name).components).text

/-- Puts the imports of the given names in front, the module's own names left out. -/
def withImports (m : Module) (names : NameSet) : Module :=
  { m with
    declarations :=
      (names.toList.filter fun q => q.modulePart? ≠ some m.ownName).map .importing
        ++ m.declarations }

end Source.Module

end MaterialModules
