import RingBuff.Core.Types

/-! # Initialisation

`rb_config_init` and `rb_init`. The sizes are computed in the fixed widths the
source uses: `RB_ALIGN_UP` and the size of the scratchpad in `size_t`, the slot
stride in `uint32_t`.
-/

namespace RingBuff

/-- `rb_config_init`. -/
def rbConfigInit (b : Build) : Config where
  capacity := b.defaultCapacity
  slots := b.defaultSlots
  slotSize := b.defaultSlotSize
  lowD := 25
  lowE := 10
  oversizePolicy := .truncate

/-- `RB_ALIGN_UP` evaluated in a `size_t` of the given width. -/
def alignUp (bits : Nat) (x a : Nat) : Nat :=
  ((BitVec.ofNat bits x + BitVec.ofNat bits (a - 1)) &&& ~~~BitVec.ofNat bits (a - 1)).toNat

/-- `slot_stride_for`, with its cast back to `uint32_t`. -/
def slotStrideFor (b : Build) (slotSize : UInt32) : UInt32 :=
  UInt32.ofNat (alignUp b.sizeBits slotSize.toNat b.needAlign)

/-- The byte offset `(size_t)slot_index * rb->slot_stride`. -/
def slotOffset (b : Build) (geo : Geometry) (slotIndex : UInt32) : Nat :=
  slotIndex.toNat * geo.slotStride.toNat % 2 ^ b.sizeBits

/-- The loop that stamps slot `si` with `si` before the first publish. -/
def preseed (b : Build) (geo : Geometry) (mem : Memory) : Nat → Memory
  | 0 => mem
  | si + 1 => (preseed b geo mem si).store32 (slotOffset b geo (UInt32.ofNat si)) (UInt32.ofNat si)

/-- The values `rb_init` works out before it checks the scratchpad: zero in the
configuration selects the compiled-in default, and the limit is clamped. -/
structure Dims where
  capacity : UInt32
  slots : UInt32
  slotSize : UInt32
  limit : UInt32

def Config.dims (b : Build) (cfg : Config) : Dims :=
  let capacity := if cfg.capacity ≠ 0 then cfg.capacity else b.defaultCapacity
  let slots := if cfg.slots ≠ 0 then cfg.slots else b.defaultSlots
  let limit := if cfg.limit ≠ 0 then cfg.limit else capacity
  let limit := if capacity < limit then capacity else limit
  let limit := if slots < limit then slots else limit
  { capacity, slots, limit
    slotSize := if cfg.slotSize ≠ 0 then cfg.slotSize else b.defaultSlotSize }

/-- The checks of `rb_init` on the configuration alone. -/
def Config.valid (b : Build) (cfg : Config) : Bool :=
  let d := cfg.dims b
  Counter.isPow2 d.capacity && 2 ≤ d.capacity && d.slots ≠ 0 && b.hdrSize < d.slotSize &&
    d.limit ≠ 0 && cfg.lowD ≤ 100 && cfg.lowE ≤ 100 && cfg.lowE ≤ cfg.lowD

/-- The layout `rb_init` stores for a configuration. -/
def Config.geometry (b : Build) (cfg : Config) (rb scratch scratchSize : BitVec b.sizeBits) :
    Geometry :=
  let d := cfg.dims b
  { capacity := d.capacity
    mask := d.capacity - 1
    slots := d.slots
    slotsMask := if Counter.isPow2 d.slots then d.slots - 1 else 0
    slotSize := d.slotSize
    slotStride := slotStrideFor b d.slotSize
    addr := rb.toNat
    scratchOff := (scratch - rb).toNat
    scratchSize := scratchSize.toNat }

/-- The control block `rb_init` leaves behind: zeroed up to `entries[]`. The
cells of `entries[]` and the scratchpad keep what was there, except that the
per-slot-lap build stamps every slot. -/
def Config.fresh (b : Build) (cfg : Config) (geo : Geometry) (before : Store) : Rb where
  geo := geo
  store := { before with
    scratch := match b.mode with
      | .index | .pointer => before.scratch
      | .lap => preseed b geo before.scratch geo.slots.toNat }
  head := 0
  cachedTail := 0
  pendingSlot := noPending
  pendingWanted := 0
  fullLatch := 0
  notifyWaiters := 0
  notifyFd := -1
  tail := 0
  cachedHead := 0
  consumerActive := 0
  consumerSlot := 0
  lowDLatch := 0
  lowELatch := 0
  limit := (cfg.dims b).limit
  lowD := cfg.lowD
  lowE := cfg.lowE
  oversizePolicy := cfg.oversizePolicy
  producerStackSize :=
    if cfg.producerStackSize ≠ 0 then cfg.producerStackSize else b.defaultProducerStack
  consumerStackSize :=
    if cfg.consumerStackSize ≠ 0 then cfg.consumerStackSize else b.defaultConsumerStack
  cb := cfg.cb
  stats := {}

/-- `need`: the size of the slots, in `size_t`. -/
def Config.need (b : Build) (cfg : Config) : BitVec b.sizeBits :=
  BitVec.ofNat b.sizeBits (cfg.dims b).slots.toNat *
    BitVec.ofNat b.sizeBits (slotStrideFor b (cfg.dims b).slotSize).toNat

/-- `rb_init`. A null pointer is address `0`. -/
def rbInit (b : Build) (rb : BitVec b.sizeBits) (cfg : Option Config)
    (scratch scratchSize : BitVec b.sizeBits) (before : Store) : Except RbErr Rb :=
  match cfg with
  | none => .error .inval
  | some cfg =>
      if rb = 0 ∨ scratch = 0 then .error .inval
      else if rb.toNat % b.ringAlign ≠ 0 then .error .inval
      else if cfg.valid b = false then .error .inval
      else if scratch.toNat % b.needAlign ≠ 0 then .error .inval
      else if scratchSize < cfg.need b then .error .inval
      else .ok (cfg.fresh b (cfg.geometry b rb scratch scratchSize) before)

end RingBuff
