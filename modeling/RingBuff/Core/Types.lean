import RingBuff.Foundation.Bytes
import RingBuff.Foundation.Counter

/-! # The control block and its configuration

The data model of `rb.h` and of `struct rb_s` in `rb.c`. One record serves the
three builds of the library. The per-slot-lap build renames four counters and
keeps their meaning: `notify_seq` is `head`, `consumer_pos` is `tail`,
`cached_consumer_pos` is `cachedTail` and `cached_notify_seq` is `cachedHead`.
-/

namespace RingBuff

/-- `rb_err_t`. -/
inductive RbErr where
  | ok
  | full
  | empty
  | oversize
  | inval
  | notInit
  deriving DecidableEq, Repr

/-- `rb_oversize_policy_t`. A C enumeration also holds values that name none of
its enumerators, and the setter checks for them. -/
inductive OversizePolicy where
  | truncate
  | drop
  | other (raw : UInt32)
  deriving DecidableEq, Repr

/-- The three ways the library is compiled: slot indices in `entries[]`, slot
pointers in `entries[]` (`RB_USE_POINTERS=1`), or stamps inside the slots and no
use of `entries[]` (`RB_PER_SLOT_LAP=1`). -/
inductive Mode where
  | index
  | pointer
  | lap
  deriving DecidableEq, Repr

/-- What is fixed when the library is compiled for a target. -/
structure Build where
  mode : Mode
  /-- Width of `size_t` and `uintptr_t`. -/
  sizeBits : Nat := 64
  /-- `RB_CACHE_LINE` under `RB_SLOT_CACHELINE_PAD`, else `_Alignof(max_align_t)`. -/
  slotAlign : Nat := 16
  /-- `_Alignof(rb_t)`. -/
  ringAlign : Nat := 64
  /-- `RB_ENABLE_NOTIFY` on Linux. -/
  notify : Bool := false
  /-- `RB_NOTIFY_WAIT_SLICE_MS`. -/
  waitSliceMs : UInt64 := 100
  /-- `RB_CAPACITY`. -/
  defaultCapacity : UInt32 := 64
  /-- `RB_NUM_SLOTS`. -/
  defaultSlots : UInt32 := 64
  /-- `RB_SLOT_SIZE`. -/
  defaultSlotSize : UInt32 := 2048
  /-- `RB_DEFAULT_PRODUCER_STACK`. -/
  defaultProducerStack : Nat := 262144
  /-- `RB_DEFAULT_CONSUMER_STACK`. -/
  defaultConsumerStack : Nat := 262144

/-- `RB_SLOT_HDR_SIZE`. -/
def Build.hdrSize (b : Build) : UInt32 :=
  match b.mode with
  | .index | .pointer => 4
  | .lap => 8

/-- `need_align`: the slot alignment, raised to that of a 32-bit word. -/
def Build.needAlign (b : Build) : Nat :=
  if b.slotAlign < 4 then 4 else b.slotAlign

/-- `rb_callbacks_t`: which of the function pointers are not `NULL`. -/
structure Callbacks where
  onSlotAdded : Bool := false
  onLowD : Bool := false
  onLowE : Bool := false
  onFull : Bool := false
  deriving DecidableEq, Repr

/-- One callback invocation with its arguments. -/
inductive Event where
  | slotAdded (slotIndex len : UInt32) (truncated : Bool)
  | full
  | lowD
  | lowE
  deriving DecidableEq, Repr

/-- Invoke a callback if it is installed. -/
def fire (installed : Bool) (event : Event) : List Event :=
  if installed then [event] else []

/-- `rb_stats_t`. -/
structure Stats where
  published : UInt64 := 0
  consumed : UInt64 := 0
  truncated : UInt64 := 0
  fullAttempts : UInt64 := 0
  highWater : UInt32 := 0
  fullHits : UInt32 := 0
  lowDHits : UInt32 := 0
  lowEHits : UInt32 := 0
  deriving DecidableEq, Repr

/-- `rb_config_t`. -/
structure Config where
  capacity : UInt32 := 0
  limit : UInt32 := 0
  slots : UInt32 := 0
  slotSize : UInt32 := 0
  lowD : UInt32 := 0
  lowE : UInt32 := 0
  oversizePolicy : OversizePolicy := .truncate
  producerStackSize : Nat := 0
  consumerStackSize : Nat := 0
  cb : Callbacks := {}
  deriving DecidableEq, Repr

/-- The fields of `struct rb_s` that `rb_init` freezes. -/
structure Geometry where
  capacity : UInt32
  mask : UInt32
  slots : UInt32
  slotsMask : UInt32
  slotSize : UInt32
  slotStride : UInt32
  /-- Address of the control block itself. -/
  addr : Nat
  /-- Distance from the control block to the scratchpad, in `size_t`. -/
  scratchOff : Nat
  scratchSize : Nat
  deriving DecidableEq, Repr

/-- The memory behind the ring: `rb_entry_t entries[]`, each cell a slot index or
a slot address as a raw word, and the scratchpad by offset from its first byte. -/
structure Store where
  entries : UInt32 → Nat
  scratch : Memory

/-- `struct rb_s`, together with the scratchpad it manages. -/
structure Rb where
  geo : Geometry
  store : Store
  -- producer side
  head : UInt32
  cachedTail : UInt32
  pendingSlot : UInt32
  pendingWanted : UInt32
  fullLatch : UInt32
  notifyWaiters : UInt32
  notifyFd : Int
  -- consumer side
  tail : UInt32
  cachedHead : UInt32
  consumerActive : UInt32
  consumerSlot : UInt32
  lowDLatch : UInt32
  lowELatch : UInt32
  -- policy
  limit : UInt32
  lowD : UInt32
  lowE : UInt32
  oversizePolicy : OversizePolicy
  producerStackSize : Nat
  consumerStackSize : Nat
  cb : Callbacks
  stats : Stats

/-- `RB_NO_PENDING`. -/
def noPending : UInt32 := 0xFFFFFFFF

/-- `RB_SLOT_TRUNCATED`. -/
def slotTruncated : UInt32 := 0x80000000

/-- `RB_SLOT_LEN_MASK`. -/
def slotLenMask : UInt32 := 0x7FFFFFFF

/-- What a call gives back: its return code, or `RB_OK` together with its
out-parameters. -/
inductive Reply where
  | code (err : RbErr)
  | reserved (slotIndex cap : UInt32)
  | message (slotIndex len : UInt32) (truncated : Bool)
  | number (value : UInt32)
  | flag (value : Bool)
  | byte (value : UInt8)
  deriving DecidableEq, Repr

/-- What a call shows to the outside: its reply and the callbacks it invoked. -/
abbrev Output : Type := Reply × List Event

/-- The answer of a call that invokes no callback. -/
def quiet {σ : Type*} (answer : Reply × σ) : Output × σ := ((answer.1, []), answer.2)

end RingBuff
