import Obase.Dict
import Obase.Text
import Obase.Fallible
import Obase.Separated
import Obase.Run
import Obase.FirstKept
import Obase.Json.Value
import Obase.Json.Number
import Obase.Json.Dumps
import Obase.Json.Loads
import Obase.Json.RoundTrip
import Obase.Json.Indent
import Obase.Json.Lexical
import Obase.Json.Documents
import Obase.Builtins
import Obase.HashChain
import Obase.Concrete
import Obase.LoopEventStore.Store
import Obase.LoopEventStore.Log
import Obase.LoopEventStore.Append
import Obase.LoopEventStore.Tamper
import Obase.LoopEventStore.Dedupe
import Obase.LoopEventStore.Migrate
import Obase.LoopEventStore.Quota
import Obase.LeaseQueue.Queue
import Obase.LeaseQueue.Settled
import Obase.LeaseQueue.HandOut
import Obase.Orchestrator.Runbook
import Obase.Orchestrator.Goto
import Obase.Orchestrator.Track
import Obase.Orchestrator.Walk
import Obase.Orchestrator.Versions
import Obase.Orchestrator.Interleave
import Obase.Orchestrator.Pipeline
import Obase.Orchestrator.Resume
import Obase.Cost.Tracker
import Obase.Regex
import Obase.Casing
import Obase.SymbolNormalize.Canonical
import Obase.SymbolNormalize.Normalize
import Obase.SymbolNormalize.Idempotent
import Obase.SymbolNormalize.RoundTrip
import Obase.Json.Canonical
import Obase.Url.Quote
import Obase.Url.Split
import Obase.EvidenceLedger.SourceUri
import Obase.EvidenceLedger.FixedUri
import Obase.EvidenceLedger.Record
import Obase.EvidenceLedger.Identity
import Obase.EvidenceLedger.Ledger
import Obase.EvidenceLedger.Append
import Obase.SlidingWindow
import Obase.RateLimit
import Obase.Lease
import Obase.Cache.DistributedLock
import Obase.HitlSignalBus
import Obase.CircuitBreaker.Breaker
import Obase.CircuitBreaker.Probe
import Obase.Base64
import Obase.Runtime
import Obase.PermissionContract.Token
import Obase.PermissionContract.Issue
import Obase.PermissionContract.Revoker
import Obase.Session.Token
import Obase.Session.Revocation
import Obase.PermissionContract.Raises
import Obase.Executor.Sandbox
import Obase.Executor.HardenedExecutor
import Obase.Executor.Guards
import Obase.Executor.Gate
import Obase.Executor.Audit
import Obase.Ip.Address
import Obase.Http.SafeIp
import Obase.Http.UrlFilter
import Obase.Http.Pinned
import Obase.GraphStorage.Node
import Obase.GraphStorage.Store
import Obase.GraphStorage.Refinement
import Obase.Redaction
import Obase.DiGraph
import Obase.CausalGraph.Store
import Obase.CausalGraph.Acyclic
import Obase.CausalGraph.Copies
import Obase.CausalGraph.Copied
import Obase.Path
import Obase.FileTree
import Obase.HierarchicalContext.Store
import Obase.HierarchicalContext.Kept
import Obase.HierarchicalContext.Budget
import Obase.HierarchicalContext.Separation
import Obase.TeamRegistry.Messages
import Obase.TeamRegistry.Inbox
import Obase.TeamRegistry.Delivery
import Obase.Least
import Obase.PopulationGenomeStore
import Obase.OrderedDict
import Obase.TvCache
import Obase.Json.Sorted
import Obase.Like
import Obase.KvStore
import Obase.DebouncedMemoryQueue.Merged
import Obase.SafeKeys
import Obase.KnowledgeStore.Documents
import Obase.DaemonBus.Termination
import Obase.DockerPool
import Obase.HarnessAdapter.Cancellation
import Obase.AcpAdapter
import Obase.OhlcvStore
import Obase.ChannelAdapter
import Obase.McpStdio.Matching
import Obase.McpStdio.Frames
import Obase.LocalSandboxPool
import Obase.Orchestrator.Endings
import Obase.Orchestrator.Atomicity
import Obase.ToolRegistry
import Obase.KvCacheSharedMemory
import Obase.CognitiveStore
import Obase.MemoryBank
import Obase.Config
import Obase.PluginLoader.Hooks
import Obase.LoopEventStore.Residue
import Obase.WfgDeadlockDetector
import Obase.WorkflowEngine.Schedules
import Obase.RateLimit.Deadlines
import Obase.Cost.Estimate
import Obase.Orchestrator.Backends
import Obase.SymbolNormalize.Described
import Obase.Executor.Environment
import Obase.Shell
import Obase.Executor.Egress
import Obase.GraphStorage.Overlap
import Obase.HierarchicalContext.Sealed
import Obase.Cache.Cached
import Obase.Replacement
import Obase.ToolGovernance
import Obase.McpStdio.Malformed
import Obase.EventStream
import Obase.McpHttp
import Obase.DictDiff
import Obase.Json.Equal
import Obase.SnapshotStore
import Obase.PyStr
import Obase.AliceWorkspace.Workspace
import Obase.AliceWorkspace.Atomicity
import Obase.Json.Glued
import Obase.KeyedStore
import Obase.WorkflowEngine.Layers
import Obase.HarnessAdapter.Runs
import Obase.PriceStore
import Obase.VectorMemory
import Obase.RoseTree
import Obase.SympyRuntime
import Obase.MaximalRuns
import Obase.VadPipeline
import Obase.TreesitterIndexer
import Obase.Persistence
import Obase.LocalVfs
import Obase.ToolSchema
import Obase.WholeWords
import Obase.Operators
import Obase.SmtSolver
import Obase.FormatString
import Obase.Template
