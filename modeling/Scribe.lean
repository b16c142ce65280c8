import Scribe.Text.Quoted
import Scribe.Text.Integer
import Scribe.Syntax.Encode
import Scribe.Syntax.Text
import Scribe.Core.Build
import Scribe.Core.Dump
import Scribe.Lowering.Module
import Scribe.Machine.Run
import Scribe.Argument.Convert
import Scribe.Config
import Scribe.Command.Basic
import Scribe.Main
import Scribe.Proofs.Inversion
import Scribe.Proofs.Occurrence
import Scribe.Proofs.Rules
import Scribe.Proofs.Growth
import Scribe.Proofs.WellTyped
import Scribe.Proofs.WellScoped
import Scribe.Proofs.LowerExpr
import Scribe.Proofs.LowerStmt
import Scribe.Proofs.ElabExpr
import Scribe.Proofs.ElabStmt
import Scribe.Proofs.Soundness
import Scribe.Proofs.Declared
import Scribe.Proofs.Bodies
import Scribe.Proofs.Pending
import Scribe.Proofs.WellFormed
import Scribe.Proofs.HeapTyping
import Scribe.Proofs.Safety
import Scribe.Proofs.SafeEquality
import Scribe.Proofs.SafeEval
import Scribe.Proofs.SafeExec
import Scribe.Proofs.Trees
import Scribe.Proofs.Arguments
import Scribe.Proofs.Sessions
import Scribe.Proofs.Reach
import Scribe.Proofs.Control
import Scribe.Proofs.Drains
import Scribe.Proofs.History
import Scribe.Proofs.Erasure
import Scribe.Proofs.Faithful
import Scribe.Proofs.Renaming
import Scribe.Proofs.Transport
import Scribe.Proofs.Reordering
import Scribe.Proofs.Rework
import Scribe.Proofs.OrderIndependence
import Scribe.Proofs.Assigned
import Scribe.Proofs.SetLocals
import Scribe.Proofs.SetRuns
import Scribe.Proofs.DefiniteAssignment
import Scribe.Proofs.QueueLimit
import Scribe.Proofs.Layout
import Scribe.Proofs.Signatures
import Scribe.Proofs.BodyIndependence
import Scribe.Proofs.Spellings
import Scribe.Proofs.SpellingIndependence
import Scribe.Proofs.Closure
import Scribe.Proofs.Isolation
import Scribe.Proofs.VoidFree
import Scribe.Proofs.Relabel
import Scribe.Proofs.Mirrors
import Scribe.Proofs.RelabeledCode
import Scribe.Proofs.RelabeledModule
import Scribe.Proofs.NameIndependence
import Scribe.Proofs.InternalErrors
import Scribe.Proofs.RoundTrip
import Scribe.Proofs.Declarations
import Scribe.Proofs.Congruence
import Scribe.Proofs.Fuel
import Scribe.Proofs.Relocation
import Scribe.Proofs.Evolution
import Scribe.Proofs.Initialization
import Scribe.Proofs.Cycles
import Scribe.Proofs.Searches
import Scribe.Proofs.Nesting
import Scribe.Proofs.CallGraph
import Scribe.Proofs.Halting
import Scribe.Proofs.Termination
import Scribe.Proofs.Meaning
import Scribe.Proofs.Equivalence
import Scribe.Proofs.HashConsistency
import Scribe.Proofs.Cells
import Scribe.Proofs.Slots
import Scribe.Proofs.Representatives
import Scribe.Proofs.Collections
import Scribe.Proofs.SetsAndMaps
import Scribe.Proofs.SimpleStatements
import Scribe.Proofs.Written
import Scribe.Proofs.SetArguments
import Scribe.Proofs.Arithmetic
import Scribe.Proofs.MapArguments
import Scribe.Proofs.Names
import Scribe.Proofs.Lines
import Scribe.Proofs.TypeTexts
import Scribe.Proofs.Frames
import Scribe.Proofs.Stability
