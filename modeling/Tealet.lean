import Tealet.Lib.Slice
import Tealet.Lib.DList
import Tealet.Lib.Hoare
import Tealet.Base
import Tealet.Stack
import Tealet.Integrity
import Tealet.Switch
import Tealet.Api
import Tealet.System
import Tealet.Saved
import Tealet.Refine
import Tealet.View
import Tealet.Checks
import Tealet.Transfer
import Tealet.Core
import Tealet.Sched
import Tealet.Xfer
import Tealet.Start
import Tealet.Attempts
import Tealet.Steps
import Tealet.Calls
import Tealet.Runs
import Tealet.References
import Tealet.Current
import Tealet.Lifecycle
import Tealet.Trace
import Tealet.Watch
import Tealet.NoFail
import Tealet.Lib.Align
import Tealet.Lib.Tally
import Tealet.Lib.CList
import Tealet.Plan
import Tealet.Passes
import Tealet.Refusals
import Tealet.EnvRule
import Tealet.Locks
import Tealet.Pages
import Tealet.Outcomes
import Tealet.Previous
import Tealet.Delivery
import Tealet.Ledger
import Tealet.Counts
import Tealet.Chunks
import Tealet.Stats
import Tealet.Spend
import Tealet.Bytes
import Tealet.Forced
import Tealet.Beyond
import Tealet.Isolation
import Tealet.Past
import Tealet.Transparent
import Tealet.Lib.Simulation
import Tealet.Coroutine
import Tealet.Survival
import Tealet.Progress
import Tealet.Deferred
import Tealet.Granted
import Tealet.Alloc
import Tealet.Workspace
import Tealet.Configure
import Tealet.Waiting
import Tealet.Stubs
import Tealet.Modes
import Tealet.Tampering
import Tealet.Locking
import Tealet.Erasure
import Tealet.Shutdown
