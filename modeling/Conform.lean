import Conform.Cause
import Conform.Code
import Conform.Construct
import Conform.Context
import Conform.Display
import Conform.Evaluate
import Conform.Fault
import Conform.Heap
import Conform.Journal
import Conform.Json
import Conform.Key
import Conform.Number.Binary64
import Conform.Number.Shortest
import Conform.Options
import Conform.Problem
import Conform.Proofs.Actions
import Conform.Proofs.Building
import Conform.Proofs.CallOrder
import Conform.Proofs.Coherence
import Conform.Proofs.Composition
import Conform.Proofs.Configuration
import Conform.Proofs.Construction
import Conform.Proofs.ContainerLiterals
import Conform.Proofs.Containment
import Conform.Proofs.DepthBound
import Conform.Proofs.Discipline
import Conform.Proofs.Dispatch
import Conform.Proofs.Edits
import Conform.Proofs.Emission
import Conform.Proofs.Escape
import Conform.Proofs.Faults
import Conform.Proofs.FieldPaths
import Conform.Proofs.Height
import Conform.Proofs.Independence
import Conform.Proofs.KeptSettings
import Conform.Proofs.Likeness
import Conform.Proofs.Literals
import Conform.Proofs.Locality
import Conform.Proofs.Meaning
import Conform.Proofs.Merging
import Conform.Proofs.Misuse
import Conform.Proofs.Numeral
import Conform.Proofs.Observation
import Conform.Proofs.Outcome
import Conform.Proofs.Path
import Conform.Proofs.Plan
import Conform.Proofs.Portraits
import Conform.Proofs.Positions
import Conform.Proofs.Readability
import Conform.Proofs.Reasons
import Conform.Proofs.Recovery
import Conform.Proofs.Refusals
import Conform.Proofs.Relevance
import Conform.Proofs.Rendering
import Conform.Proofs.Reordering
import Conform.Proofs.Rounding
import Conform.Proofs.Scalar
import Conform.Proofs.ScriptSteps
import Conform.Proofs.SinkChoice
import Conform.Proofs.Snapshots
import Conform.Proofs.Steps
import Conform.Proofs.Structure
import Conform.Proofs.TagFields
import Conform.Proofs.TopLevel
import Conform.Proofs.Totality
import Conform.Proofs.TraceLines
import Conform.Proofs.Traversal
import Conform.Proofs.Truth
import Conform.Proofs.Unescaping
import Conform.Proofs.Variants
import Conform.Proofs.Verdict
import Conform.Rejection
import Conform.Schema
import Conform.Script.Evaluate
import Conform.Script.Expression
import Conform.Script.NamedTest
import Conform.Script.Step
import Conform.Session
import Conform.Settings
import Conform.Settings.EnvFile
import Conform.Settings.Integer
import Conform.Settings.Reference
import Conform.Store
import Conform.Text
import Conform.Text.Blank
import Conform.Text.Escaped
import Conform.Text.Hexadecimal
import Conform.Text.Printable
import Conform.Text.Quoted
import Conform.Value
