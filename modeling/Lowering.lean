import Lowering.Activation
import Lowering.Counter
import Lowering.Fragment
import Lowering.Frame
import Lowering.Journal
import Lowering.Json.Basic
import Lowering.Json.Reader
import Lowering.Linkage
import Lowering.Lowered.Basic
import Lowering.Lowered.Coercion
import Lowering.Machine.Basic
import Lowering.Machine.Run
import Lowering.Noted
import Lowering.Options
import Lowering.Procedure
import Lowering.Proofs.Acceptance
import Lowering.Proofs.Arithmetic
import Lowering.Proofs.ArrayStore
import Lowering.Proofs.Bindings
import Lowering.Proofs.Correctness
import Lowering.Proofs.Declaration.Bodies
import Lowering.Proofs.Declaration.Histories
import Lowering.Proofs.Declaration.Links
import Lowering.Proofs.Declaration.Members
import Lowering.Proofs.Declaration.SourceOrder
import Lowering.Proofs.EvaluationOrder
import Lowering.Proofs.Frames
import Lowering.Proofs.Hygiene
import Lowering.Proofs.Inheritance
import Lowering.Proofs.Letters
import Lowering.Proofs.Linear.Building
import Lowering.Proofs.Linear.Canonical
import Lowering.Proofs.Linear.Conservation
import Lowering.Proofs.Linear.Direct
import Lowering.Proofs.Linear.Flat
import Lowering.Proofs.Linear.Hoisting
import Lowering.Proofs.Linear.Marks
import Lowering.Proofs.Linear.Meaning
import Lowering.Proofs.Linear.Order
import Lowering.Proofs.Linear.Shape
import Lowering.Proofs.Lowered.Agreement
import Lowering.Proofs.Lowered.Coercion
import Lowering.Proofs.Lowered.Drawn
import Lowering.Proofs.Lowered.Emission
import Lowering.Proofs.Lowered.Emitted
import Lowering.Proofs.Lowered.Evaluation
import Lowering.Proofs.Lowered.Refusal
import Lowering.Proofs.Lowered.Statement
import Lowering.Proofs.Lowered.Value
import Lowering.Proofs.Machine.Evaluation
import Lowering.Proofs.Machine.Limit
import Lowering.Proofs.Machine.Narrow
import Lowering.Proofs.Machine.Reach
import Lowering.Proofs.Machine.Safety
import Lowering.Proofs.Outcome
import Lowering.Proofs.Repetition
import Lowering.Proofs.Safety
import Lowering.Proofs.SavedTemps
import Lowering.Proofs.Scope.Body
import Lowering.Proofs.Scope.Code
import Lowering.Proofs.Scope.Declared
import Lowering.Proofs.Scope.Lookup
import Lowering.Proofs.Scope.Program
import Lowering.Proofs.Scope.Refusal
import Lowering.Proofs.Scope.Slots
import Lowering.Proofs.Scope.Statements
import Lowering.Proofs.Scope.Storage
import Lowering.Proofs.Scope.Unit
import Lowering.Proofs.Scoping
import Lowering.Proofs.Simulation
import Lowering.Proofs.Source.Accepted
import Lowering.Proofs.Source.Execution
import Lowering.Proofs.Source.Inheritance
import Lowering.Proofs.Source.Lowerable
import Lowering.Proofs.Source.Numerals
import Lowering.Proofs.Source.WellFormed
import Lowering.Proofs.Table.Ancestors
import Lowering.Proofs.Table.Changes
import Lowering.Proofs.Table.Descriptors
import Lowering.Proofs.Table.Filling
import Lowering.Proofs.Table.Hierarchy
import Lowering.Proofs.Table.History
import Lowering.Proofs.Table.Numbering
import Lowering.Proofs.Table.Replay
import Lowering.Proofs.Table.Session
import Lowering.Proofs.Tree.Bystanders
import Lowering.Proofs.Tree.Marks
import Lowering.Proofs.Tree.Meaning
import Lowering.Proofs.Tree.Reading
import Lowering.Proofs.WellFormedness
import Lowering.Proofs.Woven
import Lowering.Report.Diagnostic
import Lowering.Report.Ink
import Lowering.Source.Literal
import Lowering.Source.Program
import Lowering.Source.Site
import Lowering.Supply
import Lowering.Table.Basic
import Lowering.Table.Declare
import Lowering.Table.Method
import Lowering.Tree.Basic
import Lowering.Tree.Encoding
import Lowering.Tree.Linear
import Lowering.Tree.Text
import Lowering.Types
import Lowering.Unit
import Lowering.Word
