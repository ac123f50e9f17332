import Scriptlet.Text.Utf8
import Scriptlet.Source.Location
import Scriptlet.Error
import Scriptlet.Value.Operator
import Scriptlet.Value.Indexing
import Scriptlet.Value.Release
import Scriptlet.Value.Walk
import Scriptlet.Syntax.Outline
import Scriptlet.Main
import Scriptlet.Session.Step
import Scriptlet.Proofs.Dictionary.Coherence
import Scriptlet.Proofs.Dictionary.History
import Scriptlet.Proofs.Dictionary.Version
import Scriptlet.Proofs.Heap.History
import Scriptlet.Proofs.Heap.Edit
import Scriptlet.Proofs.Dictionary.Refinement
import Scriptlet.Proofs.Walk.Course
import Scriptlet.Proofs.Evaluation.Keeps
import Scriptlet.Proofs.Scope.Frame
import Scriptlet.Proofs.Scope.Discipline
import Scriptlet.Proofs.Evaluation.Completion
import Scriptlet.Proofs.Evaluation.Signal
import Scriptlet.Proofs.Evaluation.Success
import Scriptlet.Proofs.Evaluation.Soundness
import Scriptlet.Proofs.Evaluation.Completeness
import Scriptlet.Proofs.Evaluation.Agreement
import Scriptlet.Proofs.Evaluation.Congruence
import Scriptlet.Proofs.Evaluation.Operations
import Scriptlet.Proofs.Calls.Limit
import Scriptlet.Proofs.Session.Evolution
import Scriptlet.Proofs.Calls.Discipline
import Scriptlet.Proofs.Rendering.Reading
import Scriptlet.Proofs.Syntax.Node
import Scriptlet.Proofs.Evaluation.Piece
import Scriptlet.Proofs.Heap.Alteration
import Scriptlet.Proofs.Evaluation.Trace
import Scriptlet.Proofs.Walk.Loop
import Scriptlet.Proofs.Value.Failure
import Scriptlet.Proofs.Evaluation.Blame
import Scriptlet.Proofs.DeadCode.Irrelevance
import Scriptlet.Proofs.Locality.Growth
import Scriptlet.Proofs.Locality.Reading
import Scriptlet.Proofs.Locality.Machine
import Scriptlet.Proofs.Locality.Evaluation
import Scriptlet.Proofs.Locality.Operation
import Scriptlet.Proofs.Locality.Region
import Scriptlet.Proofs.Locality.Building
import Scriptlet.Proofs.Locality.Session
import Scriptlet.Proofs.Locality.Closure
import Scriptlet.Proofs.Locality.Interleaving
import Scriptlet.Proofs.Value.Exactness
import Scriptlet.Proofs.Rendering.Visiting
import Scriptlet.Proofs.Evaluation.Outcome
import Scriptlet.Proofs.Heap.Rewriting
import Scriptlet.Proofs.Locality.Intact
import Scriptlet.Proofs.Assignment.Expansion
import Scriptlet.Proofs.Session.Reached
import Scriptlet.Proofs.Heap.Indexing
import Scriptlet.Proofs.Locality.Moments
import Scriptlet.Proofs.Evaluation.Purity
import Scriptlet.Proofs.Calls.Printing
import Scriptlet.Proofs.Evaluation.Entry
import Scriptlet.Proofs.Scope.Lookup
import Scriptlet.Proofs.Walk.Text
import Scriptlet.Proofs.Evaluation.Literal
import Scriptlet.Proofs.Value.Comparison
import Scriptlet.Proofs.Source.Lines
import Scriptlet.Proofs.CommandLine.Grammar
import Scriptlet.Proofs.Json.Grammar
import Scriptlet.Proofs.Json.Unambiguity
import Scriptlet.Proofs.Outline.Document
import Scriptlet.Proofs.Release.Reclaiming
