import CacheTiming.Text.Glyph
import CacheTiming.Text.Blank
import CacheTiming.Text.Printable
import CacheTiming.Text.Numeral
import CacheTiming.Text.Quoted
import CacheTiming.Text.Line
import CacheTiming.Digest.Keccak
import CacheTiming.Program.Opcode
import CacheTiming.Program.Instruction
import CacheTiming.Program.Basic
import CacheTiming.Program.Parser
import CacheTiming.Ascending
import CacheTiming.Fault
import CacheTiming.Cache.Geometry
import CacheTiming.Cache.Recency
import CacheTiming.Machine.Basic
import CacheTiming.Machine.Paths
import CacheTiming.Trace.Status
import CacheTiming.Trace.Error
import CacheTiming.Trace.Count
import CacheTiming.Trace.Store
import CacheTiming.Trace.Join
import CacheTiming.Trace.Order
import CacheTiming.Trace.Times
import CacheTiming.Cache.Model
import CacheTiming.Cache.Ages
import CacheTiming.Domain.Basic
import CacheTiming.Domain.CacheOnly
import CacheTiming.Domain.Traced
import CacheTiming.Fixpoint.Location
import CacheTiming.Fixpoint.Event
import CacheTiming.Fixpoint.Search
import CacheTiming.Config
import CacheTiming.Report
import CacheTiming.Auditor
import CacheTiming.Yaml.Cursor
import CacheTiming.Yaml.Scalar
import CacheTiming.Yaml.Token
import CacheTiming.Yaml.Node
import CacheTiming.Yaml.Value
import CacheTiming.File
import CacheTiming.Text.EditDistance
import CacheTiming.CommandLine.Request
import CacheTiming.CommandLine.Session
import CacheTiming.Report.Json
import CacheTiming.Main
import CacheTiming.Proofs.Cache.Coverage
import CacheTiming.Proofs.Machine.Execution
import CacheTiming.Proofs.Trace.Observation
import CacheTiming.Proofs.Trace.Times
import CacheTiming.Proofs.Fixpoint.Coverage
import CacheTiming.Proofs.Domain.CacheModel
import CacheTiming.Proofs.Domain.CacheOnly
import CacheTiming.Proofs.Domain.Traced
import CacheTiming.Proofs.Fixpoint.Evaluation
import CacheTiming.Proofs.Soundness
import CacheTiming.Proofs.Trace.Order
import CacheTiming.Proofs.Trace.Language
import CacheTiming.Proofs.Domain.Watch
import CacheTiming.Proofs.TraceSoundness
import CacheTiming.Proofs.Fixpoint.SinglePath
import CacheTiming.Proofs.Cache.Sharp
import CacheTiming.Proofs.Exactness
import CacheTiming.Proofs.Fixpoint.Schedule
import CacheTiming.Proofs.Fixpoint.Stops
import CacheTiming.Proofs.Fixpoint.Termination
import CacheTiming.Proofs.Fixpoint.Convergence
import CacheTiming.Proofs.Convergence
import CacheTiming.Proofs.Machine.Enumeration
import CacheTiming.Proofs.Machine.Reachability
import CacheTiming.Proofs.Fixpoint.Reachability
import CacheTiming.Proofs.Agreement
import CacheTiming.Proofs.Text.Blank
import CacheTiming.Proofs.Text.Numeral
import CacheTiming.Proofs.Program.Line
import CacheTiming.Proofs.Program.Parse
import CacheTiming.Proofs.Program.Canonical
import CacheTiming.Proofs.HashConsing
import CacheTiming.Proofs.Cache.Reachable
import CacheTiming.Proofs.Fixpoint.Forward
import CacheTiming.Proofs.Fixpoint.Refinement
import CacheTiming.Proofs.Refinement
import CacheTiming.Proofs.ReportReuse
import CacheTiming.Proofs.Trace.Lawful
import CacheTiming.Proofs.Trace.Join
import CacheTiming.Proofs.JoinLaws
import CacheTiming.Proofs.TraceOrder
import CacheTiming.Proofs.Fixpoint.Turns
import CacheTiming.Proofs.Fixpoint.Gathering
import CacheTiming.Proofs.Scheduling
import CacheTiming.Proofs.PathSemantics
import CacheTiming.Proofs.Cache.StackDistance
import CacheTiming.Proofs.Cache.Canonical
import CacheTiming.Proofs.Cache.Lattice
import CacheTiming.Proofs.TimeSets
import CacheTiming.Proofs.Cache.Sweep
import CacheTiming.Proofs.Cache.Runs
import CacheTiming.Proofs.Program.Grammar
import CacheTiming.Proofs.MergeKeys
