import CycleCheck.Assertion
import CycleCheck.Breakdown
import CycleCheck.Bytes
import CycleCheck.Capture
import CycleCheck.Cartridge.INes
import CycleCheck.Cartridge.Loader
import CycleCheck.Cartridge.Mapper
import CycleCheck.Cartridge.Rom
import CycleCheck.CommandLine.Flag
import CycleCheck.CommandLine.Launch
import CycleCheck.CommandLine.Modes
import CycleCheck.Diagram
import CycleCheck.Digest.Sha1
import CycleCheck.Digest.XXHash64
import CycleCheck.Fault
import CycleCheck.Files
import CycleCheck.Formula
import CycleCheck.Instruction
import CycleCheck.Log
import CycleCheck.Machine
import CycleCheck.Main
import CycleCheck.Memory.Bus
import CycleCheck.Memory.Map
import CycleCheck.Memory.Ram
import CycleCheck.Number.Double
import CycleCheck.Processor
import CycleCheck.Processor.MicroState
import CycleCheck.Processor.Rule
import CycleCheck.Processor.Status
import CycleCheck.Processor.Variable
import CycleCheck.Propagation.Eval
import CycleCheck.Propagation.Pass
import CycleCheck.Propagation.Settle
import CycleCheck.Propagation.Solve
import CycleCheck.Propagation.Value
import CycleCheck.Scenario.Basic
import CycleCheck.Scenario.Builtin
import CycleCheck.Scenario.Check
import CycleCheck.Scenario.Compile
import CycleCheck.Scenario.Reading
import CycleCheck.Scenario.Run
import CycleCheck.Scenario.Writing
import CycleCheck.Solver.Backend
import CycleCheck.Solver.Cache
import CycleCheck.Solver.Executable
import CycleCheck.Term.Basic
import CycleCheck.Term.Build
import CycleCheck.Term.Error
import CycleCheck.Term.Reading
import CycleCheck.Text.Base64
import CycleCheck.Text.Blank
import CycleCheck.Text.Bytes
import CycleCheck.Text.Digits
import CycleCheck.Text.Duration
import CycleCheck.Text.Folding
import CycleCheck.Text.Literal
import CycleCheck.Text.Path
import CycleCheck.Text.Pattern
import CycleCheck.Text.Printable
import CycleCheck.Text.Quoted
import CycleCheck.Text.Upper
import CycleCheck.Text.Url
import CycleCheck.Timeline
import CycleCheck.Trace
import CycleCheck.Version
import CycleCheck.Yaml.Graph
import CycleCheck.Yaml.Graph.Read
import CycleCheck.Yaml.Input
import CycleCheck.Yaml.Style
import CycleCheck.Yaml.Token
import CycleCheck.Yaml.Token.Scalar
import CycleCheck.Yaml.Token.Scan
import CycleCheck.Yaml.Value
import CycleCheck.Proofs.Propagation.Knowledge
import CycleCheck.Proofs.Propagation.Evaluation
import CycleCheck.Proofs.Propagation.Definition
import CycleCheck.Proofs.Propagation.Settling
import CycleCheck.Proofs.Propagation.Soundness
import CycleCheck.Proofs.Propagation.Verdict
import CycleCheck.Proofs.Timeline.Compilation
import CycleCheck.Proofs.Cycle.Reference
import CycleCheck.Proofs.Term.Build
import CycleCheck.Proofs.Cycle.Draft
import CycleCheck.Proofs.Cycle.Processor
import CycleCheck.Proofs.Cycle.Memory
import CycleCheck.Proofs.Cycle.Wire
import CycleCheck.Proofs.Cycle.Contents
import CycleCheck.Proofs.Cycle.Bus
import CycleCheck.Proofs.Cycle.Phase
import CycleCheck.Proofs.Cycle.Step
import CycleCheck.Proofs.Cycle.PowerOn
import CycleCheck.Proofs.Cycle.Exactness
import CycleCheck.Proofs.Cycle.Architecture
import CycleCheck.Proofs.Cycle.Execution
import CycleCheck.Proofs.Cycle.Modes
import CycleCheck.Proofs.Cycle.Refinement
import CycleCheck.Proofs.Timeline.SingleAssignment
import CycleCheck.Proofs.Term.Clause
import CycleCheck.Proofs.Timeline.Sorted
import CycleCheck.Proofs.Cycle.RuleSorts
import CycleCheck.Proofs.Cycle.Sorts
import CycleCheck.Proofs.Cycle.WellFormed
import CycleCheck.Proofs.Propagation.Totality
import CycleCheck.Proofs.Propagation.Forward
import CycleCheck.Proofs.Cycle.Determined
import CycleCheck.Proofs.Cycle.Propagated
import CycleCheck.Proofs.Cycle.Run
import CycleCheck.Proofs.Cycle.Completeness
import CycleCheck.Proofs.Scenario.Image
import CycleCheck.Proofs.Scenario.Goal
import CycleCheck.Proofs.Scenario.Verdict
import CycleCheck.Proofs.Scenario.Contingency
import CycleCheck.Proofs.Cycle.Encoding
import CycleCheck.Proofs.Cycle.RuleEffects
import CycleCheck.Proofs.Cycle.Determinism
import CycleCheck.Proofs.Cycle.Stores
import CycleCheck.Proofs.Propagation.Observation
import CycleCheck.Proofs.Propagation.Stalling
import CycleCheck.Proofs.Propagation.Answers
import CycleCheck.Proofs.Cycle.Waiting
import CycleCheck.Proofs.Cycle.Stalled
import CycleCheck.Proofs.Cycle.Extensionality
import CycleCheck.Proofs.Propagation.Persistence
import CycleCheck.Proofs.Propagation.Narrow
import CycleCheck.Proofs.Propagation.Stability
import CycleCheck.Proofs.Propagation.Confluence
import CycleCheck.Proofs.Solver.Interleaving
import CycleCheck.Proofs.Scenario.Unlogged
import CycleCheck.Proofs.Scenario.Parallel
import CycleCheck.Proofs.Formula.Readability
import CycleCheck.Proofs.Cycle.FlatMemory
import CycleCheck.Proofs.Cycle.Atomicity
import CycleCheck.Proofs.Cycle.Reset
import CycleCheck.Proofs.Cartridge.Builder
import CycleCheck.Proofs.Cartridge.Reading
import CycleCheck.Proofs.Propagation.Exhaustion
import CycleCheck.Proofs.Propagation.Points
import CycleCheck.Proofs.Propagation.Widths
import CycleCheck.Proofs.Propagation.Defined
import CycleCheck.Proofs.Cycle.Routing
import CycleCheck.Proofs.Propagation.Declared
import CycleCheck.Proofs.Timeline.Batches
import CycleCheck.Proofs.Cycle.Probe
import CycleCheck.Proofs.Scenario.Cartridge
import CycleCheck.Proofs.Scenario.Placement
import CycleCheck.Proofs.Scenario.Validation
import CycleCheck.Proofs.Cartridge.FileFormat
import CycleCheck.Proofs.Text.Decoding
import CycleCheck.Proofs.Cartridge.FileName
import CycleCheck.Proofs.Cartridge.Loading
import CycleCheck.Proofs.Formula.Comments
import CycleCheck.Proofs.Cartridge.Capacity
import CycleCheck.Proofs.Log.Runs
import CycleCheck.Proofs.Propagation.Permanence
import CycleCheck.Proofs.Term.Constants
import CycleCheck.Proofs.CommandLine.Flags
import CycleCheck.Proofs.CommandLine.Position
