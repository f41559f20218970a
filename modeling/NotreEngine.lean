import NotreEngine.Basic
import NotreEngine.Transition
import NotreEngine.Simulation
import NotreEngine.History
import NotreEngine.Recency
import NotreEngine.ExactLru
import NotreEngine.ShieldedLru
import NotreEngine.LittleEndian
import NotreEngine.FileReader
import NotreEngine.Overrun
import NotreEngine.Buffer
import NotreEngine.Incremental
import NotreEngine.PagedMemory
import NotreEngine.Greedy
import NotreEngine.Packing
import NotreEngine.Custody
import NotreEngine.Shedding
import NotreEngine.Utf8
import NotreEngine.Loop
import NotreEngine.Retry
import NotreEngine.Decimal
import NotreEngine.Shell
import NotreEngine.Threshold
import NotreEngine.WorkQueue
import NotreEngine.Exact
import NotreEngine.Cache.Model
import NotreEngine.Cache.Representation
import NotreEngine.Cache.Calls
import NotreEngine.Cache.Layout
import NotreEngine.Cache.Capacity
import NotreEngine.Cache.Soundness
import NotreEngine.Cache.Residency
import NotreEngine.Cache.Neighbour
import NotreEngine.Cache.Residue
import NotreEngine.Cache.Prefetch
import NotreEngine.Cache.Replay
import NotreEngine.Cache.Retention
import NotreEngine.Cache.Accounting
import NotreEngine.Cache.Untracked
import NotreEngine.Cache.Steps
import NotreEngine.Cache.Identity
import NotreEngine.Cache.Shield
import NotreEngine.Session.Model
import NotreEngine.Session.Prefill
import NotreEngine.Session.Positions
import NotreEngine.Session.Alignment
import NotreEngine.Session.Generation
import NotreEngine.Session.Store
import NotreEngine.Session.Engine
import NotreEngine.Session.Ledger
import NotreEngine.Session.Reuse
import NotreEngine.Session.Tenancy
import NotreEngine.Session.Threads
import NotreEngine.Session.Chat
import NotreEngine.Session.Refusal
import NotreEngine.Session.Lanes
import NotreEngine.Session.Eviction
import NotreEngine.Session.Quota
import NotreEngine.Session.Yielding
import NotreEngine.Session.Lifetime
import NotreEngine.Speculation.Model
import NotreEngine.Speculation.Lossless
import NotreEngine.Gguf.Model
import NotreEngine.Gguf.Registry
import NotreEngine.Gguf.Prepare
import NotreEngine.Gguf.Reader
import NotreEngine.Gguf.Wire
import NotreEngine.Gguf.Truncated
import NotreEngine.Gguf.Values
import NotreEngine.Gguf.Spans
import NotreEngine.Gguf.Slices
import NotreEngine.Gguf.Rewrite
import NotreEngine.Gguf.Rewritten
import NotreEngine.Gguf.Copied
import NotreEngine.Gguf.Preserved
import NotreEngine.Gguf.Reopened
import NotreEngine.Gguf.Patchable
import NotreEngine.Gguf.Repacked
import NotreEngine.Gguf.Idempotent
import NotreEngine.Stream.IoScheduler
import NotreEngine.Stream.DirectReads
import NotreEngine.Stream.DirectFile
import NotreEngine.Stream.Model
import NotreEngine.Stream.Demand
import NotreEngine.Stream.Router
import NotreEngine.Stream.Gating
import NotreEngine.Stream.Harvest
import NotreEngine.Stream.Lookahead
import NotreEngine.Stream.Prefetcher
import NotreEngine.Stream.Overlap
import NotreEngine.Server.Emitter
import NotreEngine.Server.Streamed
import NotreEngine.Server.Boundaries
import NotreEngine.Server.Stripping
import NotreEngine.Server.Arms
import NotreEngine.Server.TokenStream
import NotreEngine.Server.Glyphs
import NotreEngine.Server.Trimming
import NotreEngine.Server.ContextGuards
import NotreEngine.Memory.Budget
import NotreEngine.Memory.KvBudget
import NotreEngine.Config.Env
import NotreEngine.Config.Json
import NotreEngine.Config.File
import NotreEngine.Config.Setup
import NotreEngine.Config.Boot
import NotreEngine.Config.Printed
import NotreEngine.Config.Agreement
import NotreEngine.Config.Grammar
import NotreEngine.Assoc
import NotreEngine.Scan
import NotreEngine.SlidingWindow
import NotreEngine.Gateway.RateLimit
import NotreEngine.Gateway.Policy
import NotreEngine.Gateway.Enforced
import NotreEngine.Gateway.Proxy
import NotreEngine.Lines
import NotreEngine.Server.Keys
import NotreEngine.Gateway.Clients
import NotreEngine.Server.Requests
import NotreEngine.Session.Serving
import NotreEngine.Session.Waits
import NotreEngine.Session.Served
import NotreEngine.Session.Headroom
import NotreEngine.Speculation.Rounds
import NotreEngine.Inclusion
import NotreEngine.Cache.Larger
import NotreEngine.Tools.DriftGate
import NotreEngine.Consume
import NotreEngine.Tools.Trace
import NotreEngine.Tools.RoundTrip
import NotreEngine.Tools.Sweep
import NotreEngine.Stream.Dense
import NotreEngine.Memory.Startup
import NotreEngine.Config.Dialog
import NotreEngine.Gateway.Deployed
