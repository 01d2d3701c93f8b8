import Clockwork.CommandLine.Arguments
import Clockwork.CommandLine.Command
import Clockwork.CommandLine.Report
import Clockwork.Concurrency.Channel
import Clockwork.Concurrency.Dispatch
import Clockwork.Concurrency.Event
import Clockwork.Concurrency.Kernel
import Clockwork.Concurrency.Lock
import Clockwork.Concurrency.Scheduler
import Clockwork.Concurrency.WaitQueue
import Clockwork.Design.Access
import Clockwork.Design.Builder
import Clockwork.Design.DataType
import Clockwork.Design.Error
import Clockwork.Design.Expr
import Clockwork.Design.Interchange.Code
import Clockwork.Design.Interchange.Document
import Clockwork.Design.Interchange.Shape
import Clockwork.Design.Interchange.Types
import Clockwork.Design.Stmt
import Clockwork.Design.TypeTable
import Clockwork.Digest.Fingerprint
import Clockwork.Digest.XXH3
import Clockwork.Elaboration.Connection
import Clockwork.Elaboration.Design
import Clockwork.Elaboration.Endpoint
import Clockwork.Elaboration.Error
import Clockwork.Elaboration.Instance
import Clockwork.Elaboration.State
import Clockwork.Graph.Order
import Clockwork.Interner
import Clockwork.Json.Basic
import Clockwork.Json.Printer
import Clockwork.Json.Reader
import Clockwork.Log
import Clockwork.Main
import Clockwork.Number.Bounded
import Clockwork.Number.Word
import Clockwork.Proofs.Calls.Accesses
import Clockwork.Proofs.Calls.AnyOrder
import Clockwork.Proofs.Calls.Bindings
import Clockwork.Proofs.Calls.BitAssignments
import Clockwork.Proofs.Calls.Clocks
import Clockwork.Proofs.Calls.Propagation
import Clockwork.Proofs.Calls.Reachable
import Clockwork.Proofs.Calls.Record
import Clockwork.Proofs.Calls.Replay
import Clockwork.Proofs.Calls.Rest
import Clockwork.Proofs.Calls.Rounds
import Clockwork.Proofs.Calls.Session
import Clockwork.Proofs.Calls.Settling
import Clockwork.Proofs.Calls.Suspensions
import Clockwork.Proofs.Calls.Turns
import Clockwork.Proofs.Calls.Waits
import Clockwork.Proofs.Calls.Widths
import Clockwork.Proofs.Combs.AtWork
import Clockwork.Proofs.Combs.Beginning
import Clockwork.Proofs.Combs.ByPath
import Clockwork.Proofs.Combs.Computed
import Clockwork.Proofs.Combs.Downstream
import Clockwork.Proofs.Combs.DryRun
import Clockwork.Proofs.Combs.Fixpoint
import Clockwork.Proofs.Combs.Inside
import Clockwork.Proofs.Combs.Plain
import Clockwork.Proofs.Combs.PlainStep
import Clockwork.Proofs.Combs.Rerun
import Clockwork.Proofs.Combs.Settling
import Clockwork.Proofs.Combs.Suspension
import Clockwork.Proofs.Combs.Wiring
import Clockwork.Proofs.Concurrency.Cancellation.Executor
import Clockwork.Proofs.Concurrency.Cancellation.Hosts
import Clockwork.Proofs.Concurrency.Cancellation.Places
import Clockwork.Proofs.Concurrency.Scripts
import Clockwork.Proofs.Concurrency.Cancellation.Sessions
import Clockwork.Proofs.Concurrency.Cancellation.Sleeps
import Clockwork.Proofs.Concurrency.Cancellation.Waits
import Clockwork.Proofs.Concurrency.Channel.History
import Clockwork.Proofs.Concurrency.Channel.Line
import Clockwork.Proofs.Concurrency.Channel.Traffic
import Clockwork.Proofs.Concurrency.Channel.Wakeups
import Clockwork.Proofs.Concurrency.Dispatch
import Clockwork.Proofs.Concurrency.Event
import Clockwork.Proofs.Concurrency.Lock.Contest
import Clockwork.Proofs.Concurrency.Lock.Tenure
import Clockwork.Proofs.Concurrency.Schedule.Agenda
import Clockwork.Proofs.Concurrency.Schedule.Clock
import Clockwork.Proofs.Concurrency.Schedule.Course
import Clockwork.Proofs.Concurrency.Schedule.Invariant
import Clockwork.Proofs.Concurrency.Schedule.Moves
import Clockwork.Proofs.Concurrency.Schedule.Order
import Clockwork.Proofs.Concurrency.Schedule.Split
import Clockwork.Proofs.Concurrency.WaitQueue
import Clockwork.Proofs.Design.Interchange.Types
import Clockwork.Proofs.Design.Lineage
import Clockwork.Proofs.Design.References
import Clockwork.Proofs.Design.Resolution
import Clockwork.Proofs.Durations
import Clockwork.Proofs.Elaboration.Arguments
import Clockwork.Proofs.Elaboration.Changes
import Clockwork.Proofs.Elaboration.Connections
import Clockwork.Proofs.Elaboration.Faults
import Clockwork.Proofs.Elaboration.Inheritance
import Clockwork.Proofs.Elaboration.Initial
import Clockwork.Proofs.Elaboration.Instances
import Clockwork.Proofs.Elaboration.Interfaces
import Clockwork.Proofs.Elaboration.Links
import Clockwork.Proofs.Elaboration.Nesting
import Clockwork.Proofs.Elaboration.Paths
import Clockwork.Proofs.Elaboration.PortRuns
import Clockwork.Proofs.Elaboration.PortSteps
import Clockwork.Proofs.Elaboration.Ports
import Clockwork.Proofs.Elaboration.Shape
import Clockwork.Proofs.Elaboration.Turns
import Clockwork.Proofs.Graph.Order
import Clockwork.Proofs.Kernel
import Clockwork.Proofs.Machine.Addressed
import Clockwork.Proofs.Machine.Bindings
import Clockwork.Proofs.Machine.Body
import Clockwork.Proofs.Machine.Calm
import Clockwork.Proofs.Machine.Edges
import Clockwork.Proofs.Machine.Expression
import Clockwork.Proofs.Machine.Fault
import Clockwork.Proofs.Machine.Layers
import Clockwork.Proofs.Machine.Marked
import Clockwork.Proofs.Machine.Marks
import Clockwork.Proofs.Machine.Pauses
import Clockwork.Proofs.Machine.Replay
import Clockwork.Proofs.Machine.Requests
import Clockwork.Proofs.Machine.Stack
import Clockwork.Proofs.Machine.Step
import Clockwork.Proofs.Machine.Straight
import Clockwork.Proofs.Machine.Structural
import Clockwork.Proofs.Machine.Underway
import Clockwork.Proofs.Machine.Updates
import Clockwork.Proofs.Machine.Work
import Clockwork.Proofs.Number.Fit
import Clockwork.Proofs.Number.Formulas
import Clockwork.Proofs.Number.Limits
import Clockwork.Proofs.Number.Masks
import Clockwork.Proofs.Results
import Clockwork.Proofs.Round.Activation
import Clockwork.Proofs.Round.Batch
import Clockwork.Proofs.Round.Commit
import Clockwork.Proofs.Round.Failure
import Clockwork.Proofs.Round.Inward
import Clockwork.Proofs.Round.Order
import Clockwork.Proofs.Round.Segments
import Clockwork.Proofs.Round.Shape
import Clockwork.Proofs.Round.Snapshot
import Clockwork.Proofs.Signals
import Clockwork.Proofs.Storage.FailedWrite
import Clockwork.Proofs.Storage.Lookup
import Clockwork.Proofs.Storage.Memory
import Clockwork.Proofs.Storage.MemoryAccess
import Clockwork.Proofs.Storage.Regions
import Clockwork.Proofs.Storage.RegisterAccess
import Clockwork.Proofs.Table
import Clockwork.Proofs.Tree.Branch
import Clockwork.Proofs.Tree.Known
import Clockwork.Proofs.Tree.Signals
import Clockwork.Proofs.Tree.Storage
import Clockwork.Proofs.Value.Order
import Clockwork.Proofs.Values
import Clockwork.Script.Instruction
import Clockwork.Script.Machine
import Clockwork.Settings.Basic
import Clockwork.Settings.Reader
import Clockwork.Signal.Reactive
import Clockwork.Signal.State
import Clockwork.Simulation.Command
import Clockwork.Simulation.Frame
import Clockwork.Simulation.Function
import Clockwork.Simulation.Machine
import Clockwork.Simulation.Run
import Clockwork.Simulation.State
import Clockwork.Simulation.Wiring
import Clockwork.Storage.AddressSpace
import Clockwork.Storage.Memory
import Clockwork.Storage.RegFile
import Clockwork.Table
import Clockwork.Text
import Clockwork.Time.Duration
import Clockwork.Time.Instant
import Clockwork.Toml.Basic
import Clockwork.Toml.Document
import Clockwork.Toml.Scalar
import Clockwork.Toml.Text
import Clockwork.Tree.Basic
import Clockwork.Tree.Listing
import Clockwork.Tree.Objects
import Clockwork.Tree.Structural
import Clockwork.Value.Basic
import Clockwork.Value.Error
import Clockwork.Value.Operators
