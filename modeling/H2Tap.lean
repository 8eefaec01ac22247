import H2Tap.Hpack.AssumedCapacity
import H2Tap.Hpack.CapacityObserved
import H2Tap.Hpack.Saturation
import H2Tap.Hpack.TableSize
import H2Tap.Hpack.Standard
import H2Tap.Conn.KeepPayloads
import H2Tap.Conn.Trailers
import H2Tap.Conn.ResyncBuffer
import H2Tap.Conn.HeaderLedger
import H2Tap.Conn.FrameBoundary
import H2Tap.Conn.Reference
import H2Tap.Conn.Restore
import H2Tap.Conn.Target
import H2Tap.Reassembly.AcrossGaps
import H2Tap.Reassembly.Contiguous
import H2Tap.Reassembly.Limits
import H2Tap.Tracker.Agreement
import H2Tap.Tracker.Duplicates
import H2Tap.Tracker.FirstByte
import H2Tap.Tracker.Refusals
import H2Tap.Capture.Alignment
import H2Tap.Rebuild.Client
import H2Tap.Rebuild.Failures
import H2Tap.Rebuild.Delivered
import H2Tap.Rebuild.Visible
import H2Tap.Rebuild.Reencode
import H2Tap.Rebuild.Reordered
import H2Tap.Rebuild.Reuse
import H2Tap.Capture.Specification
import H2Tap.Rebuild.Timely
import H2Tap.Rebuild.Checksums
import H2Tap.Capture.Pending
import H2Tap.Conn.Progress
import H2Tap.Rebuild.FixedPoint
import H2Tap.Tracker.Isolation
import H2Tap.Capture.Requests
import H2Tap.Capture.KernelFilter
import H2Tap.Rebuild.JsonLines
import H2Tap.Capture.Ports
