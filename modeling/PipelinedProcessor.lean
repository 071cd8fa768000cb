import PipelinedProcessor.Main
import PipelinedProcessor.Proofs.Cache.Transparency
import PipelinedProcessor.Proofs.Pipeline.Hazards
import PipelinedProcessor.Proofs.Architecture.Course
import PipelinedProcessor.Proofs.Architecture.Wrapping
import PipelinedProcessor.Proofs.Cache.Loading
import PipelinedProcessor.Proofs.Cache.LiveStorage
import PipelinedProcessor.Proofs.Flight.Follows
import PipelinedProcessor.Proofs.Flight.Tries
import PipelinedProcessor.Proofs.Machine.Basic
import PipelinedProcessor.Proofs.Machine.RunOnCourse
import PipelinedProcessor.Proofs.Machine.Interpreter
import PipelinedProcessor.Proofs.Machine.Overlap
import PipelinedProcessor.Proofs.Flight.Confined
import PipelinedProcessor.Proofs.Cache.Tags
import PipelinedProcessor.Proofs.Cache.Recency
import PipelinedProcessor.Proofs.Pipeline.Consistent
import PipelinedProcessor.Proofs.Memory.LineStore
import PipelinedProcessor.Proofs.Machine.Ending
import PipelinedProcessor.Proofs.Pipeline.AfterBranch
import PipelinedProcessor.Proofs.Cache.Undisturbed
import PipelinedProcessor.Proofs.Instruction.RoundTrip
import PipelinedProcessor.Proofs.Assembly.RoundTrip
import PipelinedProcessor.Proofs.Assembly.Disassembly
import PipelinedProcessor.Proofs.Assembly.Labels
import PipelinedProcessor.Proofs.Assembly.Comments
import PipelinedProcessor.Proofs.Cache.Placing
import PipelinedProcessor.Proofs.Machine.Loading
import PipelinedProcessor.Proofs.Pipeline.Fetching
import PipelinedProcessor.Proofs.Machine.Fetching
import PipelinedProcessor.Proofs.Cache.LineCache
import PipelinedProcessor.Proofs.Instruction.Faults
import PipelinedProcessor.Proofs.Machine.Failing
import PipelinedProcessor.Proofs.Pipeline.Aborted
import PipelinedProcessor.Proofs.Machine.Faults
import PipelinedProcessor.Proofs.Machine.Naming
import PipelinedProcessor.Proofs.Cache.WaitCounts
import PipelinedProcessor.Proofs.Machine.Cycles
import PipelinedProcessor.Proofs.Machine.History
import PipelinedProcessor.Proofs.Assembly.Spelling
import PipelinedProcessor.Proofs.Pipeline.Jumps
import PipelinedProcessor.Proofs.Machine.VectorTransfers
import PipelinedProcessor.Proofs.Machine.Clock
import PipelinedProcessor.Proofs.Architecture.Arithmetic
import PipelinedProcessor.Proofs.CommandLine.Agreement
import PipelinedProcessor.Proofs.Cache.Statistics
import PipelinedProcessor.Proofs.Memory.Range
