import Spotflowd.Buffer.FailedFlush
import Spotflowd.Orchestrator.OwnChunk
import Spotflowd.Sources.Crashdump.Redelivery
import Spotflowd.Orchestrator.Shutdown
import Spotflowd.Orchestrator.MemoryRecovery
import Spotflowd.Orchestrator.DiskPath
import Spotflowd.Buffer.Chronology
import Spotflowd.Buffer.Limit
import Spotflowd.Buffer.Crash
import Spotflowd.Buffer.Transparency
import Spotflowd.Sources.Stripping
import Spotflowd.Orchestrator.Order
import Spotflowd.Orchestrator.SafeDelete
import Spotflowd.Metrics.Restart
import Spotflowd.Metrics.Identity
import Spotflowd.Metrics.Windows
import Spotflowd.Metrics.Gapless
import Spotflowd.Metrics.Cardinality
import Spotflowd.Metrics.Delivery
import Spotflowd.Metrics.Resending
import Spotflowd.Sources.Syslog.Unrecognised
import Spotflowd.Sources.Syslog.Padding
import Spotflowd.Sources.Syslog.Version
import Spotflowd.Sources.Syslog.Appends
import Spotflowd.Sources.Syslog.Rotation
import Spotflowd.Metrics.Pending
import Spotflowd.Metrics.Spans
import Spotflowd.Buffer.Survivors
import Spotflowd.Buffer.Names
import Spotflowd.Buffer.Stranded
import Spotflowd.Metrics.Exact
import Spotflowd.Sources.Crashdump.Reassembly
import Spotflowd.Sources.Crashdump.Waiting
import Spotflowd.Sources.Sequences
import Spotflowd.Metrics.Collector.Percentages
import Spotflowd.Metrics.Collector.Deltas
import Spotflowd.Metrics.Collector.Zones
import Spotflowd.Orchestrator.Drain
import Spotflowd.Metrics.CustomMetrics
import Spotflowd.Metrics.Isolation
import Spotflowd.Orchestrator.SharedDir
import Spotflowd.Orchestrator.Restarts
import Spotflowd.Topic
import Spotflowd.Sources.Crashdump.Loop
