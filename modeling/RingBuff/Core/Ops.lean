import RingBuff.Core.Init

/-! # Ring operations

The calls of `rb.c`, each executed as a whole. A call returns its reply, the
callbacks it invoked in order, and the ring it leaves behind. Callbacks are
informational and do not enter the ring again.
-/

namespace RingBuff

/-! ## Slots in the scratchpad -/

/-- The payload capacity of a slot, `rb->slot_size - RB_SLOT_HDR_SIZE`. -/
def payloadCap (b : Build) (geo : Geometry) : UInt32 := geo.slotSize - b.hdrSize

/-- Where the four-byte message header of a slot starts. -/
def headerOffset (b : Build) (geo : Geometry) (slotIndex : UInt32) : Nat :=
  slotOffset b geo slotIndex + (b.hdrSize.toNat - 4)

/-- Where byte `offset` of a slot's payload is. -/
def payloadOffset (b : Build) (geo : Geometry) (slotIndex : UInt32) (offset : Nat) : Nat :=
  slotOffset b geo slotIndex + b.hdrSize.toNat + offset

/-- `rb_scratch`: the address of the scratchpad. -/
def scratchAddr (b : Build) (geo : Geometry) : Nat :=
  (geo.addr + geo.scratchOff) % 2 ^ b.sizeBits

namespace Store

variable (b : Build) (geo : Geometry) (st : Store)

/-- The message header of a slot. -/
def header (slotIndex : UInt32) : UInt32 :=
  st.scratch.load32 (headerOffset b geo slotIndex)

/-- The sequence stamp at the start of a slot (per-slot-lap build). -/
def stamp (slotIndex : UInt32) : UInt32 :=
  st.scratch.load32 (slotOffset b geo slotIndex)

/-- One payload byte of a slot. -/
def payload (slotIndex : UInt32) (offset : Nat) : UInt8 :=
  st.scratch (payloadOffset b geo slotIndex offset)

def setHeader (slotIndex word : UInt32) : Store :=
  { st with scratch := st.scratch.store32 (headerOffset b geo slotIndex) word }

def setStamp (slotIndex word : UInt32) : Store :=
  { st with scratch := st.scratch.store32 (slotOffset b geo slotIndex) word }

def setPayload (slotIndex : UInt32) (offset : Nat) (byte : UInt8) : Store :=
  { st with scratch := st.scratch.store8 (payloadOffset b geo slotIndex offset) byte }

def setEntry (cell : UInt32) (entry : Nat) : Store :=
  { st with entries := Function.update st.entries cell entry }

/-- The store that makes the slot of position `head` known to the consumer: an
entry of the ring, or the stamp of the slot. -/
def enter (slotIndex head : UInt32) : Store :=
  match b.mode with
  | .index => st.setEntry (head &&& geo.mask) slotIndex.toNat
  | .pointer => st.setEntry (head &&& geo.mask)
      ((scratchAddr b geo + slotOffset b geo slotIndex) % 2 ^ b.sizeBits)
  | .lap => st.setStamp b geo slotIndex (head + 1)

/-- The store of `rb_release` that frees the slot of position `tail` in the
per-slot-lap build. -/
def recycle (slotIndex tail : UInt32) : Store :=
  match b.mode with
  | .index | .pointer => st
  | .lap => st.setStamp b geo slotIndex (tail + geo.slots)

end Store

/-! ## Small helpers of the source -/

/-- The test of `below_low` on exact numbers. -/
def below (count limit percent : Nat) : Bool :=
  percent ≠ 0 && count * 100 < limit * percent

/-- `below_low`. The products are taken in `uint64_t` and cannot overflow. -/
def belowLow (count limit percent : UInt32) : Bool :=
  below count.toNat limit.toNat percent.toNat

/-- `slot_index_for`. -/
def slotIndexFor (geo : Geometry) (head : UInt32) : UInt32 :=
  if geo.slotsMask ≠ 0 then head &&& geo.slotsMask else head % geo.slots

/-- The length and the flag `rb_publish_ex` records for what the caller says it
wrote: the length is clamped, and a clamped or oversized request is flagged. -/
def clampWritten (cap pendingWanted writtenLen : UInt32) (truncated : Bool) : UInt32 × Bool :=
  let clamped := if cap < writtenLen then (cap, true) else (writtenLen, truncated)
  if cap < pendingWanted then (clamped.1, true) else clamped

/-- The header word: length in the low 31 bits, truncation in the top one. -/
def encodeHeader (len : UInt32) (truncated : Bool) : UInt32 :=
  let hdr := len &&& slotLenMask
  if truncated then hdr ||| slotTruncated else hdr

def headerLen (hdr : UInt32) : UInt32 := hdr &&& slotLenMask

def headerTruncated (hdr : UInt32) : Bool := hdr &&& slotTruncated ≠ 0

/-! ## Producer -/

/-- The part of `rb_acquire` after the ring was found to have room. -/
def reserve (b : Build) (rb : Rb) (wantedLen head : UInt32) : Reply × Rb :=
  let cap := payloadCap b rb.geo
  if wantedLen ≠ 0 ∧ cap < wantedLen ∧ rb.oversizePolicy = .drop then (.code .oversize, rb)
  else
    let slotIndex := slotIndexFor rb.geo head
    (.reserved slotIndex cap, { rb with pendingSlot := slotIndex, pendingWanted := wantedLen })

/-- `rb_acquire`. -/
def rbAcquire (b : Build) (rb : Rb) (wantedLen : UInt32) : Reply × Rb :=
  if rb.geo.scratchSize = 0 then (.code .notInit, rb)
  else if rb.pendingSlot ≠ noPending then (.code .inval, rb)
  else if rb.limit ≤ rb.head - rb.cachedTail then
    -- slow path: the cached counter says full, so look at the real one
    let rb := { rb with cachedTail := rb.tail }
    if rb.limit ≤ rb.head - rb.tail then
      (.code .full, { rb with stats.fullAttempts := rb.stats.fullAttempts + 1 })
    else reserve b rb wantedLen rb.head
  else reserve b rb wantedLen rb.head

/-- The bookkeeping of `rb_publish_ex` after the head store: the reservation is
gone, the consumer's counter is read again and the statistics are updated. -/
def Rb.afterPublish (rb : Rb) (count : UInt32) (truncated : Bool) : Rb :=
  { rb with
    pendingSlot := noPending
    pendingWanted := 0
    cachedTail := rb.tail
    stats := { rb.stats with
      published := rb.stats.published + 1
      highWater := if rb.stats.highWater < count then count else rb.stats.highWater
      truncated := if truncated then rb.stats.truncated + 1 else rb.stats.truncated } }

/-- The part of `rb_publish_ex` after its checks: header, entry and head are
stored in this order, then the producer looks at the occupancy. -/
def Rb.handOver (b : Build) (rb : Rb) (slotIndex len : UInt32) (truncated : Bool) :
    Output × Rb :=
  let store := rb.store.setHeader b rb.geo slotIndex (encodeHeader len truncated)
  let store := store.enter b rb.geo slotIndex rb.head
  let count := rb.head + 1 - rb.tail
  let rb := Rb.afterPublish { rb with store, head := rb.head + 1 } count truncated
  let added := fire rb.cb.onSlotAdded (.slotAdded slotIndex len truncated)
  if rb.limit ≤ count ∧ rb.fullLatch = 0 then
    ((.code .ok, added ++ fire rb.cb.onFull .full),
      { rb with fullLatch := 1, stats.fullHits := rb.stats.fullHits + 1 })
  else ((.code .ok, added), rb)

/-- `rb_publish_ex`. -/
def rbPublishEx (b : Build) (rb : Rb) (slotIndex writtenLen : UInt32) (truncated : Bool) :
    Output × Rb :=
  if rb.geo.scratchSize = 0 then ((.code .notInit, []), rb)
  else if rb.pendingSlot = noPending ∨ rb.pendingSlot ≠ slotIndex then ((.code .inval, []), rb)
  else
    let written := clampWritten (payloadCap b rb.geo) rb.pendingWanted writtenLen truncated
    rb.handOver b slotIndex written.1 written.2

/-- `rb_publish`. -/
def rbPublish (b : Build) (rb : Rb) (slotIndex writtenLen : UInt32) : Output × Rb :=
  rbPublishEx b rb slotIndex writtenLen false

/-- `rb_abort`. -/
def rbAbort (rb : Rb) : Reply × Rb :=
  if rb.geo.scratchSize = 0 then (.code .notInit, rb)
  else if rb.pendingSlot = noPending then (.code .inval, rb)
  else (.code .ok, { rb with pendingSlot := noPending, pendingWanted := 0 })

/-! ## Consumer -/

/-- The end of `rb_consume`: read the header and latch the slot. -/
def Rb.latch (b : Build) (rb : Rb) (slotIndex : UInt32) : Reply × Rb :=
  let hdr := rb.store.header b rb.geo slotIndex
  (.message slotIndex (headerLen hdr) (headerTruncated hdr),
    { rb with consumerActive := 1, consumerSlot := slotIndex })

/-- How `rb_consume` finds the slot of position `tail`, with the checks it makes.
The pointer build divides by the slot stride, which is undefined for a stride of
zero; there the call has no result. -/
def Store.frontSlot (b : Build) (geo : Geometry) (st : Store) (tail : UInt32) :
    Option (Except RbErr UInt32) :=
  let entry := st.entries (tail &&& geo.mask)
  let bounded (slotIndex : UInt32) : Except RbErr UInt32 :=
    if geo.slots ≤ slotIndex then .error .inval else .ok slotIndex
  match b.mode with
  | .index => some (bounded (UInt32.ofNat entry))
  | .pointer =>
      if entry < scratchAddr b geo then some (.error .inval)
      else if geo.slotStride = 0 then none
      else
        let off := entry - scratchAddr b geo
        if off % geo.slotStride.toNat ≠ 0 then some (.error .inval)
        else some (bounded (UInt32.ofNat (off / geo.slotStride.toNat)))
  | .lap => some (bounded (slotIndexFor geo tail))

/-- Whether the slot does not carry the stamp of position `tail` (per-slot-lap
build). -/
def Store.stale (b : Build) (geo : Geometry) (st : Store) (tail slotIndex : UInt32) : Bool :=
  b.mode = .lap && st.stamp b geo slotIndex ≠ tail + 1

/-- The part of `rb_consume` after the ring was found not to be empty. -/
def Rb.takeFront (b : Build) (rb : Rb) (tail : UInt32) : Option (Reply × Rb) :=
  match rb.store.frontSlot b rb.geo tail with
  | none => none
  | some (.error err) => some (.code err, rb)
  | some (.ok slotIndex) =>
      if rb.store.stale b rb.geo tail slotIndex then
        let rb := { rb with cachedHead := rb.head }
        if rb.head = tail then some (.code .empty, rb) else some (rb.latch b slotIndex)
      else some (rb.latch b slotIndex)

/-- `rb_consume`. -/
def rbConsume (b : Build) (rb : Rb) : Option (Reply × Rb) :=
  if rb.geo.scratchSize = 0 then some (.code .notInit, rb)
  else if rb.consumerActive ≠ 0 then some (.code .inval, rb)
  else if rb.tail = rb.cachedHead then
    let rb := { rb with cachedHead := rb.head }
    if rb.tail = rb.head then some (.code .empty, rb) else rb.takeFront b rb.tail
  else rb.takeFront b rb.tail

/-- The `low_d` part of `rb_release`. -/
def Rb.crossLowD (rb : Rb) (oldCount newCount : UInt32) : List Event × Rb :=
  let oldD := belowLow oldCount rb.limit rb.lowD
  let newD := belowLow newCount rb.limit rb.lowD
  if !oldD && newD then
    (fire rb.cb.onLowD .lowD,
      { rb with lowDLatch := 1, fullLatch := 0, stats.lowDHits := rb.stats.lowDHits + 1 })
  else if oldD && !newD then ([], { rb with fullLatch := 0 })
  else ([], rb)

/-- The `low_e` part of `rb_release`. -/
def Rb.crossLowE (rb : Rb) (oldCount newCount : UInt32) : List Event × Rb :=
  let oldE := belowLow oldCount rb.limit rb.lowE
  let newE := belowLow newCount rb.limit rb.lowE
  if !oldE && newE then
    (fire rb.cb.onLowE .lowE,
      { rb with lowELatch := 1, stats.lowEHits := rb.stats.lowEHits + 1 })
  else if oldE && !newE then ([], { rb with lowELatch := 0 })
  else ([], rb)

/-- `rb_release`. -/
def rbRelease (b : Build) (rb : Rb) (slotIndex : UInt32) : Output × Rb :=
  if rb.geo.scratchSize = 0 then ((.code .notInit, []), rb)
  else if rb.consumerActive = 0 ∨ slotIndex ≠ rb.consumerSlot then ((.code .inval, []), rb)
  else
    let tail := rb.tail
    let rb := { rb with
      store := rb.store.recycle b rb.geo slotIndex tail
      tail := tail + 1, consumerActive := 0, stats.consumed := rb.stats.consumed + 1 }
    let newCount := rb.cachedHead - (tail + 1)
    let oldCount := newCount + 1
    let lowD := rb.crossLowD oldCount newCount
    let lowE := lowD.2.crossLowE oldCount newCount
    ((.code .ok, lowD.1 ++ lowE.1), lowE.2)

/-! ## Queries and setters -/

/-- `rb_count`. -/
def rbCount (rb : Rb) : UInt32 :=
  if rb.geo.scratchSize = 0 then 0 else rb.head - rb.tail

/-- `rb_is_full`. -/
def rbIsFull (rb : Rb) : Bool := rb.limit ≤ rbCount rb

/-- `rb_is_empty`. -/
def rbIsEmpty (rb : Rb) : Bool := rbCount rb = 0

/-- `rb_set_limit`. -/
def rbSetLimit (rb : Rb) (limit : UInt32) : Reply × Rb :=
  if rb.geo.scratchSize = 0 then (.code .notInit, rb)
  else if limit = 0 ∨ rb.geo.capacity < limit ∨ rb.geo.slots < limit ∨ rbCount rb ≠ 0 then
    (.code .inval, rb)
  else (.code .ok, { rb with limit })

/-- The checks `rb_set_low_d` and `rb_set_low_e` share. -/
def Rb.percentCheck (rb : Rb) (percent : UInt32) : RbErr :=
  if rb.geo.scratchSize = 0 then .notInit else if 100 < percent then .inval else .ok

/-- `rb_set_low_d`. -/
def rbSetLowD (rb : Rb) (percent : UInt32) : Reply × Rb :=
  (.code (rb.percentCheck percent),
    if rb.percentCheck percent = .ok then { rb with lowD := percent } else rb)

/-- `rb_set_low_e`. -/
def rbSetLowE (rb : Rb) (percent : UInt32) : Reply × Rb :=
  (.code (rb.percentCheck percent),
    if rb.percentCheck percent = .ok then { rb with lowE := percent } else rb)

/-- `rb_set_oversize_policy`. -/
def rbSetOversizePolicy (rb : Rb) (policy : OversizePolicy) : Reply × Rb :=
  if rb.geo.scratchSize = 0 then (.code .notInit, rb)
  else match policy with
    | .other _ => (.code .inval, rb)
    | .truncate | .drop => (.code .ok, { rb with oversizePolicy := policy })

/-- `rb_set_callbacks`. A null pointer is `none`. -/
def rbSetCallbacks (rb : Rb) (cb : Option Callbacks) : Reply × Rb :=
  match cb with
  | none => (.code .inval, rb)
  | some cb => if rb.geo.scratchSize = 0 then (.code .inval, rb) else (.code .ok, { rb with cb })

/-- `rb_set_producer_stack`. -/
def rbSetProducerStack (b : Build) (rb : Rb) (bytes : Nat) : Reply × Rb :=
  if rb.geo.scratchSize = 0 then (.code .notInit, rb)
  else
    (.code .ok,
      { rb with producerStackSize := if bytes ≠ 0 then bytes else b.defaultProducerStack })

/-- `rb_set_consumer_stack`. -/
def rbSetConsumerStack (b : Build) (rb : Rb) (bytes : Nat) : Reply × Rb :=
  if rb.geo.scratchSize = 0 then (.code .notInit, rb)
  else
    (.code .ok,
      { rb with consumerStackSize := if bytes ≠ 0 then bytes else b.defaultConsumerStack })

/-! ## Payload accesses of the caller -/

/-- The producer stores one byte through the pointer `rb_acquire` gave it. An
access outside the reserved payload is not made. -/
def payloadWrite (b : Build) (rb : Rb) (offset : Nat) (byte : UInt8) : Reply × Rb :=
  if rb.pendingSlot ≠ noPending ∧ offset < (payloadCap b rb.geo).toNat then
    (.code .ok, { rb with store := rb.store.setPayload b rb.geo rb.pendingSlot offset byte })
  else (.code .inval, rb)

/-- The consumer loads one byte through the pointer `rb_consume` gave it. -/
def payloadRead (b : Build) (rb : Rb) (offset : Nat) : Reply :=
  if rb.consumerActive ≠ 0 ∧ offset < (payloadCap b rb.geo).toNat then
    .byte (rb.store.payload b rb.geo rb.consumerSlot offset)
  else .code .inval

end RingBuff
