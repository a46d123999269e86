import StubInference.Bytecode.Builder
import StubInference.Inference
import StubInference.Main
import StubInference.Proofs.Value.Covering
import StubInference.Report
import StubInference.Stub.Format
import StubInference.Proofs.Value.Tracking
import StubInference.Proofs.Frame.Path
import StubInference.Proofs.Frame.Simulation
import StubInference.Proofs.Frame.Advance
import StubInference.Proofs.Frame.Coverage
import StubInference.Proofs.Bytecode.Nested
import StubInference.Proofs.Run.Agree
import StubInference.Proofs.Frame.Effect
import StubInference.Proofs.Frame.Course
import StubInference.Proofs.Frame.Reaching
import StubInference.Proofs.Run.Confinement
import StubInference.Proofs.Run.Arguments
import StubInference.Proofs.Run.Calls
import StubInference.Proofs.Run.Frames
import StubInference.Proofs.Run.Stages
import StubInference.Proofs.Run.Nesting
import StubInference.Proofs.Run.Worklist
import StubInference.Proofs.Run.Tables
import StubInference.Proofs.Run.Stores
import StubInference.Proofs.Renaming.Arguments
import StubInference.Proofs.Renaming.Value
import StubInference.Proofs.Renaming.Heap
import StubInference.Proofs.Renaming.Attribute
import StubInference.Proofs.Renaming.Step
import StubInference.Proofs.Renaming.Calls
import StubInference.Proofs.Renaming.Frames
import StubInference.Proofs.Renaming.Stages
import StubInference.Proofs.Renaming.Shifts
import StubInference.Proofs.Run.Growth
import StubInference.Proofs.Run.History
import StubInference.Proofs.Run.Discovery
import StubInference.Proofs.Run.Classes
import StubInference.Proofs.Run.Receiver
import StubInference.Proofs.Run.Faults
import StubInference.Proofs.Frame.Depth
import StubInference.Proofs.Frame.Outline
import StubInference.Proofs.Frame.Following
import StubInference.Proofs.Run.StackSafety
import StubInference.Proofs.Stub.Assembly
import StubInference.Proofs.Run.Exports
import StubInference.Proofs.Run.Events
import StubInference.Proofs.Run.Reports
import StubInference.Proofs.Class.Protocol
import StubInference.Proofs.Class.Ways
import StubInference.Proofs.Value.Handles
import StubInference.Proofs.Run.Operations
import StubInference.Proofs.Renaming.Handles
import StubInference.Proofs.Run.Keeping
import StubInference.Proofs.Run.Layers
import StubInference.Proofs.Run.Moments
import StubInference.Proofs.Frame.Closure
import StubInference.Proofs.Renaming.Realms
import StubInference.Proofs.Run.Shadows
import StubInference.Proofs.Run.WatchedFrames
import StubInference.Proofs.Run.Declarations
import StubInference.Proofs.Run.WatchedSessions
import StubInference.Proofs.Run.Soundness
import StubInference.Proofs.Value.Tables
import StubInference.Proofs.Value.Filled
import StubInference.Proofs.Run.Parameters
import StubInference.Proofs.Run.Safety
import StubInference.Proofs.Run.Filling
import StubInference.Proofs.Run.SafeCalls
import StubInference.Proofs.Run.SafeFrames
import StubInference.Proofs.Stub.WellFormed
import StubInference.Proofs.Run.SafeDeclarations
import StubInference.Proofs.Run.SafeStages
import StubInference.Proofs.Run.Lifecycle
import StubInference.Proofs.Run.Findings
import StubInference.Proofs.Run.ReturnTypes
import StubInference.Proofs.Run.Distinct
import StubInference.Proofs.Run.ClassNames
import StubInference.Proofs.Value.Description
import StubInference.Proofs.Run.Attributes
import StubInference.Proofs.Run.Unions
import StubInference.Proofs.Call.Binding
import StubInference.Proofs.Call.Expansion
import StubInference.Proofs.Call.Rule
import StubInference.Proofs.Call.Unknown
import StubInference.Proofs.Json.Numerals
import StubInference.Proofs.Json.RoundTrip
import StubInference.Proofs.Json.Records
import StubInference.Proofs.Bytecode.Written
import StubInference.Proofs.Class.Resolution
import StubInference.Proofs.Call.Forwarding
import StubInference.Proofs.Call.Gathered
import StubInference.Proofs.Value.Joins
import StubInference.Proofs.Value.Types
import StubInference.Proofs.Frame.Arrivals
import StubInference.Proofs.Stub.Grouping
import StubInference.Proofs.Run.Words
import StubInference.Proofs.Bytecode.Building
import StubInference.Proofs.Bytecode.Interning
import StubInference.Proofs.Stub.Parameters
import StubInference.Proofs.Stub.Pieces
import StubInference.Proofs.Stub.Imports
import StubInference.Proofs.Run.Duplicates
import StubInference.Proofs.Run.Texts
