import MaterialModules.Call.Callee
import MaterialModules.Call.Demand
import MaterialModules.Call.Occurrence
import MaterialModules.Call.Path
import MaterialModules.Call.Uniform
import MaterialModules.Compiler.Code
import MaterialModules.Compiler.Module
import MaterialModules.Compiler.Prepared
import MaterialModules.Compiler.Toolchain
import MaterialModules.Decimal.Layout
import MaterialModules.Decimal.Range
import MaterialModules.Decimal.Shortest
import MaterialModules.Language.Definition
import MaterialModules.Language.Expression
import MaterialModules.Language.Semantic
import MaterialModules.Language.Ty
import MaterialModules.Language.Value
import MaterialModules.Language.Version
import MaterialModules.Name.Identifier
import MaterialModules.Name.Qualified
import MaterialModules.Name.Registered
import MaterialModules.Proofs.Call.Acyclic
import MaterialModules.Proofs.Call.Queue
import MaterialModules.Proofs.Call.Requirement
import MaterialModules.Proofs.Name.Registered
import MaterialModules.Proofs.Registration.Entry
import MaterialModules.Proofs.Registration.Nested
import MaterialModules.Proofs.Registration.Requests
import MaterialModules.Proofs.Registration.Run
import MaterialModules.Proofs.Registration.Steps
import MaterialModules.Proofs.Registration.Wholeness
import MaterialModules.Proofs.Registry.Growth
import MaterialModules.Proofs.Registry.Whole
import MaterialModules.Proofs.Source.Inlining
import MaterialModules.Proofs.Synthesis.Declaration
import MaterialModules.Proofs.Synthesis.Mentioning
import MaterialModules.Proofs.Synthesis.Preservation
import MaterialModules.Proofs.Synthesis.Restoring
import MaterialModules.Proofs.Synthesis.Unfolding
import MaterialModules.Proofs.Synthesis.Uniformity
import MaterialModules.Registration.Creation
import MaterialModules.Registration.Enrolment
import MaterialModules.Registration.Finalization
import MaterialModules.Registration.Work
import MaterialModules.Registry.Basic
import MaterialModules.Registry.Element
import MaterialModules.Registry.Overloads
import MaterialModules.Registry.Resources
import MaterialModules.Registry.Table
import MaterialModules.Registry.Tag
import MaterialModules.Report.Failure
import MaterialModules.Report.Message
import MaterialModules.Settings.Basic
import MaterialModules.Settings.Document
import MaterialModules.Source.Imports
import MaterialModules.Source.Print
import MaterialModules.Source.Tree
import MaterialModules.Synthesis.Annotating
import MaterialModules.Synthesis.Conversion
import MaterialModules.Synthesis.Draft
import MaterialModules.Synthesis.Mentioning
import MaterialModules.Synthesis.Promotion
import MaterialModules.Synthesis.Variant
import MaterialModules.Text.Pieces
import MaterialModules.Toml.Document
import MaterialModules.Toml.Text
import MaterialModules.Toml.Value
import MaterialModules.Toml.Word
import MaterialModules.Proofs.Registry.Extension
import MaterialModules.Proofs.Registration.Session
import MaterialModules.Proofs.Registration.Order
import MaterialModules.Proofs.Registration.Links
import MaterialModules.Proofs.Registration.Naming
import MaterialModules.Proofs.Registration.Uniqueness
import MaterialModules.Proofs.Registration.Faithful
import MaterialModules.Proofs.Registration.Lasting
import MaterialModules.Proofs.Synthesis.Enforcement
import MaterialModules.Proofs.Synthesis.Operands
import MaterialModules.Proofs.Source.Imports
import MaterialModules.Proofs.Synthesis.Coverage
import MaterialModules.Proofs.Registration.Analysis
import MaterialModules.Proofs.Registration.Brackets
import MaterialModules.Proofs.Registration.Diagnostics
import MaterialModules.Proofs.Source.Reading
import MaterialModules.Proofs.Source.Scope
import MaterialModules.Proofs.Synthesis.Hygiene
import MaterialModules.Proofs.Call.Monotonicity
import MaterialModules.Proofs.Call.Bisimulation
import MaterialModules.Proofs.Call.Rearrangement
import MaterialModules.Proofs.Registration.Prototypes
import MaterialModules.Proofs.Source.Containment
import MaterialModules.Proofs.Synthesis.Shown
import MaterialModules.Proofs.Synthesis.Liveness
import MaterialModules.Proofs.Synthesis.Overrides
import MaterialModules.Proofs.Synthesis.Originals
import MaterialModules.Proofs.Registration.Variants
import MaterialModules.Proofs.Registration.Versions
import MaterialModules.Proofs.Registry.Resources
import MaterialModules.Proofs.Name.Grammar
import MaterialModules.Proofs.Registration.ImportFailures
import MaterialModules.Proofs.Registration.Tables
import MaterialModules.Proofs.Synthesis.Annotations
import MaterialModules.Proofs.Call.Path
import MaterialModules.Proofs.Language.Fits
import MaterialModules.Proofs.Synthesis.Acceptance
import MaterialModules.Proofs.Synthesis.TypeNames
