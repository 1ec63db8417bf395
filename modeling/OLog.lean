import OLog.Lib.MinQueue
import OLog.Lib.OrdMap
import OLog.Lib.Runs
import OLog.Lib.Traced
import OLog.Lib.Progression
import OLog.Lib.Ledger
import OLog.Lib.Double
import OLog.Lib.IStream
import OLog.Lib.Printf
import OLog.Lib.Decimal
import OLog.Lib.Codec
import OLog.Lib.Regex
import OLog.Lib.ByteBuffer
import OLog.Lib.Periodic
import OLog.Lib.DelayLine
import OLog.Lib.LineOutput
import OLog.Lib.Json
import OLog.Lib.Xml
import OLog.Feed
import OLog.Message
import OLog.TextReader
import OLog.Alert
import OLog.Context
import OLog.Probe
import OLog.Deficiency
import OLog.Validity
import OLog.EventLoop
import OLog.Tracker
import OLog.Drain
import OLog.Release
import OLog.ExecSpec
import OLog.Execution
import OLog.Session
import OLog.Isolation
import OLog.Ticks
import OLog.Accounting
import OLog.Drained
import OLog.Continuity
import OLog.OnTime
import OLog.AlertText
import OLog.StoreOffset
import OLog.LoopInvariant
import OLog.Iteration
import OLog.Ownership
import OLog.LiveCounts
import OLog.Commit
import OLog.Topics
import OLog.Publish
import OLog.Malformed
import OLog.Payload
import OLog.Loops
import OLog.Interleaving
import OLog.ContextKept
import OLog.Uninterrupted
import OLog.Instrumented
import OLog.LockDiscipline
import OLog.Overflow
import OLog.Generator
import OLog.FluentBit
import OLog.LogLine
import OLog.WindowedKey
import OLog.LegalFeeds
import OLog.Backup
import OLog.Passes
import OLog.DelayQueue
import OLog.FaultSchedule
import OLog.Injected
import OLog.Resend
import OLog.Startup
import OLog.MissCheck
import OLog.Attribution
import OLog.Monitor
import OLog.AlertJson
import OLog.Reordering
import OLog.Gaps
import OLog.Written
import OLog.Recorded
import OLog.Pipeline
import OLog.Observed
import OLog.EndToEnd
import OLog.Dropped
import OLog.Delayed
import OLog.Late
import OLog.Recovery
import OLog.Stranded
