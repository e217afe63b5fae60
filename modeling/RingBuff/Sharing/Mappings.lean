import RingBuff.Threads.Solo
import RingBuff.Builds.Agreement

/-! # A ring between two processes

The control block holds no address of its own: the scratchpad is found through
`scratch_off`, relative to wherever a process has mapped the block. Here the producer and
the consumer are two processes, each with a mapping of its own, and every step is made
with the address of the process that makes it. Two builds do not notice. The pointer
build stores addresses of one process in `entries[]` and decodes them in the other.
-/

namespace RingBuff

section Remap

variable {b : Build} (hmode : b.mode ≠ .pointer) (rb : Rb) (base : Nat)

end Remap

namespace Threads

variable {b : Build} (hmode : b.mode ≠ .pointer) (s : Sys) (base : Nat)

namespace Sys

end Sys

/-- Where the producer and the consumer have mapped the control block. -/
structure Bases where
  producer : Nat
  consumer : Nat

def Bases.of (bases : Bases) (a : Act) : Nat :=
  if a.byProducer then bases.producer else bases.consumer

section Runs

variable {bases : Bases} {moves : List Act}

end Runs

/-! ## One message through two mappings -/

section First

variable {addr scratch scratchSize : BitVec b.sizeBits} {cfg : Config} {before : Store} {rb : Rb}

end First

end Threads

end RingBuff
