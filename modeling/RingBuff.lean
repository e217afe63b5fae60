import RingBuff.Backpressure.Episodes
import RingBuff.Backpressure.Interleaved
import RingBuff.Backpressure.LowWater
import RingBuff.Backpressure.Sequential
import RingBuff.Builds.Agreement
import RingBuff.Fuzz.Verdict
import RingBuff.Hdl.Spsc
import RingBuff.Ledger.Statistics
import RingBuff.Lifecycle.Deinit
import RingBuff.Lifecycle.StatsReset
import RingBuff.Notify.Eventfd
import RingBuff.Notify.Futex
import RingBuff.Notify.WaitSteps
import RingBuff.Offload.Latency
import RingBuff.Offload.Roundtrip
import RingBuff.Relaxed.Safety
import RingBuff.Sharing.Mappings
import RingBuff.Sharing.Placement
import RingBuff.Threads.Linearization
import RingBuff.Threads.Occupancy
import RingBuff.Threads.SlotReuse
import RingBuff.Threads.Stamps
import RingBuff.Threads.WaitFree
import RingBuff.Undo.NoTrace
