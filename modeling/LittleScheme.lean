import LittleScheme.Arity
import LittleScheme.CommandLine
import LittleScheme.Datum.Basic
import LittleScheme.Datum.Printer
import LittleScheme.Direct
import LittleScheme.Error
import LittleScheme.Eval
import LittleScheme.Form
import LittleScheme.Inexact.Parts
import LittleScheme.Inexact.Rounding
import LittleScheme.Inexact.Shortest
import LittleScheme.Inexact.Text
import LittleScheme.Interpreter
import LittleScheme.Keyword
import LittleScheme.Machine
import LittleScheme.Main
import LittleScheme.Native.Argument
import LittleScheme.Native.Basic
import LittleScheme.Native.Call
import LittleScheme.Native.Lists
import LittleScheme.Native.Numeric
import LittleScheme.Native.Ports
import LittleScheme.Native.Texts
import LittleScheme.Native.Vectors
import LittleScheme.Number.Arithmetic
import LittleScheme.Number.Basic
import LittleScheme.Number.Literal
import LittleScheme.Port
import LittleScheme.Prelude
import LittleScheme.Proofs.Applications
import LittleScheme.Proofs.Arguments
import LittleScheme.Proofs.Arithmetic
import LittleScheme.Proofs.Atomicity
import LittleScheme.Proofs.Calls
import LittleScheme.Proofs.Cells
import LittleScheme.Proofs.Chain
import LittleScheme.Proofs.Choices
import LittleScheme.Proofs.Comparison
import LittleScheme.Proofs.Compositions
import LittleScheme.Proofs.Computation
import LittleScheme.Proofs.Confinement
import LittleScheme.Proofs.Continuation
import LittleScheme.Proofs.Conversation
import LittleScheme.Proofs.Depth
import LittleScheme.Proofs.Destinations
import LittleScheme.Proofs.Effects
import LittleScheme.Proofs.Equality
import LittleScheme.Proofs.Estates
import LittleScheme.Proofs.Evaluation
import LittleScheme.Proofs.EvaluationBodies
import LittleScheme.Proofs.EvaluationCalls
import LittleScheme.Proofs.EvaluationLoops
import LittleScheme.Proofs.EvaluationRules
import LittleScheme.Proofs.FollowingCalls
import LittleScheme.Proofs.Forms
import LittleScheme.Proofs.Frames
import LittleScheme.Proofs.Fuel
import LittleScheme.Proofs.Grammar
import LittleScheme.Proofs.Guarded
import LittleScheme.Proofs.Ignoring
import LittleScheme.Proofs.IgnoringSteps
import LittleScheme.Proofs.Invocation
import LittleScheme.Proofs.Layout
import LittleScheme.Proofs.Lexical
import LittleScheme.Proofs.Lexing
import LittleScheme.Proofs.Lines
import LittleScheme.Proofs.Literals
import LittleScheme.Proofs.Loading
import LittleScheme.Proofs.Natives
import LittleScheme.Proofs.Nearest
import LittleScheme.Proofs.Numerals
import LittleScheme.Proofs.Operands
import LittleScheme.Proofs.Outcomes
import LittleScheme.Proofs.Ownership
import LittleScheme.Proofs.Parameters
import LittleScheme.Proofs.Procedures
import LittleScheme.Proofs.Quotations
import LittleScheme.Proofs.Readable
import LittleScheme.Proofs.Reading
import LittleScheme.Proofs.Realms
import LittleScheme.Proofs.Refinement
import LittleScheme.Proofs.Renaming
import LittleScheme.Proofs.Rendering
import LittleScheme.Proofs.Represents
import LittleScheme.Proofs.Reserved
import LittleScheme.Proofs.RoundTrip
import LittleScheme.Proofs.Run
import LittleScheme.Proofs.Scopes
import LittleScheme.Proofs.Segments
import LittleScheme.Proofs.Sessions
import LittleScheme.Proofs.Shapes
import LittleScheme.Proofs.Sharing
import LittleScheme.Proofs.Similarity
import LittleScheme.Proofs.Simulation
import LittleScheme.Proofs.Sound
import LittleScheme.Proofs.SpecialForms
import LittleScheme.Proofs.Spelling
import LittleScheme.Proofs.Spine
import LittleScheme.Proofs.Standing
import LittleScheme.Proofs.Staying
import LittleScheme.Proofs.StayingFrames
import LittleScheme.Proofs.StayingRuns
import LittleScheme.Proofs.StayingSteps
import LittleScheme.Proofs.Streams
import LittleScheme.Proofs.TailCalls
import LittleScheme.Proofs.Totals
import LittleScheme.Proofs.Untouched
import LittleScheme.Proofs.Untraced
import LittleScheme.Proofs.Views
import LittleScheme.Reader
import LittleScheme.Settings
import LittleScheme.Store.Basic
import LittleScheme.Store.Chain
import LittleScheme.Store.Equality
import LittleScheme.Store.Printer
import LittleScheme.Store.Scope
import LittleScheme.Text.Blank
import LittleScheme.Text.Combining
import LittleScheme.Text.Literal
import LittleScheme.Text.Quoted
import LittleScheme.Text.Unprintable
import LittleScheme.Token.Basic
import LittleScheme.Token.Lexer
import LittleScheme.Value
