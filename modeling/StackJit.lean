import StackJit.Block
import StackJit.Build.Method
import StackJit.Compile
import StackJit.Graph.Check
import StackJit.Graph.Edit
import StackJit.Machine
import StackJit.Native.Session
import StackJit.Proofs.Acceptance
import StackJit.Proofs.Available
import StackJit.Proofs.Build.Assembled
import StackJit.Proofs.Build.Context
import StackJit.Proofs.Build.Edges
import StackJit.Proofs.Build.Growth
import StackJit.Proofs.Build.Inherit
import StackJit.Proofs.Build.Join
import StackJit.Proofs.Build.Lower
import StackJit.Proofs.Build.Method
import StackJit.Proofs.Build.Run
import StackJit.Proofs.Build.Supply
import StackJit.Proofs.Built
import StackJit.Proofs.Frames
import StackJit.Proofs.Graph.Control
import StackJit.Proofs.Graph.Live
import StackJit.Proofs.Layout
import StackJit.Proofs.Realize
import StackJit.Proofs.Rewrite.Edits
import StackJit.Proofs.Rewrite.Threads
import StackJit.Proofs.Rewrite.Values
import StackJit.Proofs.Simulate
import StackJit.Proofs.Token
import StackJit.Proofs.Rewrite.Steps
import StackJit.Proofs.Rewrite.Passes
import StackJit.Proofs.WellFormed
import StackJit.Proofs.Skeleton
import StackJit.Proofs.Dominance
import StackJit.Proofs.Reached
import StackJit.Proofs.Coverage
import StackJit.Proofs.Runs
import StackJit.Proofs.SendSites
import StackJit.Proofs.Handles
import StackJit.Proofs.Deopt
import StackJit.Proofs.OperandOrder
import StackJit.Proofs.Build.Joinable
import StackJit.Proofs.Trails
import StackJit.Proofs.Rejection
import StackJit.Proofs.Admission
import StackJit.Proofs.Bookkeeping
import StackJit.Proofs.Flow
import StackJit.Proofs.PhiPlacement
import StackJit.Proofs.Guarding
import StackJit.Proofs.Parking
import StackJit.Proofs.ActiveBridge
import StackJit.Proofs.FallOff
import StackJit.Proofs.Settling
import StackJit.Proofs.Build.Placeholders
import StackJit.Proofs.Forwarding
import StackJit.Proofs.Arms
import StackJit.Proofs.Symbolic
import StackJit.Proofs.Removal
import StackJit.Proofs.Converge
import StackJit.Proofs.Rewrite.Changes
import StackJit.Proofs.Rewrite.Detours
import StackJit.Proofs.ControlPaths
import StackJit.Proofs.Choices
import StackJit.Proofs.Insertion
import StackJit.Proofs.Idempotence
import StackJit.Proofs.FrameReading
import StackJit.Proofs.Partition
import StackJit.Proofs.Reports
import StackJit.Proofs.RoundLimit
import StackJit.Proofs.Division
import StackJit.Proofs.Profiling
import StackJit.Proofs.Traversal
import StackJit.Proofs.ManagedCalls
import StackJit.Proofs.Needs
