import RingBuff.Core.Calls

/-! # The ring without its representation

A ledger is the ring with everything that only concerns its layout removed.
Positions are unbounded numbers instead of wrapping counters, every slot has a
header and a payload of its own instead of a byte range, and neither `entries[]`
nor stamps exist. The cached counters stay: they decide when a side looks at the
other one again, and the low-water callbacks are computed from them.
-/

namespace RingBuff

/-- A reservation that was acquired and neither published nor aborted. -/
structure Reservation where
  slotIndex : UInt32
  wantedLen : UInt32
  deriving DecidableEq, Repr

structure Ledger where
  capacity : UInt32
  slots : UInt32
  /-- Payload bytes of a slot. -/
  cap : UInt32
  /-- Messages published and messages released so far. -/
  head : Nat
  tail : Nat
  /-- The last value the consumer saw of `head`, and the producer of `tail`. -/
  cachedHead : Nat
  cachedTail : Nat
  pending : Option Reservation
  /-- The slot handed to the consumer and not yet released. -/
  held : Option UInt32
  fullLatch : Bool
  limit : UInt32
  lowD : UInt32
  lowE : UInt32
  oversizePolicy : OversizePolicy
  cb : Callbacks
  stats : Stats
  header : UInt32 → UInt32
  payload : UInt32 → Nat → UInt8

namespace Ledger

/-- What no call changes. -/
def fixed (L : Ledger) : UInt32 × UInt32 × UInt32 := (L.capacity, L.slots, L.cap)

/-- The true occupancy. -/
def count (L : Ledger) : Nat := L.head - L.tail

/-- The slot of a position: the position is a 32-bit counter first. -/
def slotFor (L : Ledger) (pos : Nat) : UInt32 :=
  UInt32.ofNat (pos % 2 ^ 32 % L.slots.toNat)

/-! ## Producer -/

/-- Read the consumer's counter again. -/
def refreshTail (L : Ledger) : Ledger := { L with cachedTail := L.tail }

def noteFullAttempt (L : Ledger) : Ledger :=
  { L with stats.fullAttempts := L.stats.fullAttempts + 1 }

def withPending (L : Ledger) (pending : Option Reservation) : Ledger := { L with pending }

def setByte (L : Ledger) (slotIndex : UInt32) (offset : Nat) (byte : UInt8) : Ledger :=
  let bytes := Function.update (L.payload slotIndex) offset byte
  { L with payload := Function.update L.payload slotIndex bytes }

def reserve (L : Ledger) (wantedLen : UInt32) : Reply × Ledger :=
  if wantedLen ≠ 0 ∧ L.cap < wantedLen ∧ L.oversizePolicy = .drop then (.code .oversize, L)
  else (.reserved (L.slotFor L.head) L.cap,
    L.withPending (some { slotIndex := L.slotFor L.head, wantedLen }))

def acquire (L : Ledger) (wantedLen : UInt32) : Reply × Ledger :=
  if L.pending.isSome then (.code .inval, L)
  else if L.limit.toNat ≤ L.head - L.cachedTail then
    if L.limit.toNat ≤ L.count then (.code .full, L.refreshTail.noteFullAttempt)
    else L.refreshTail.reserve wantedLen
  else L.reserve wantedLen

def write (L : Ledger) (offset : Nat) (byte : UInt8) : Reply × Ledger :=
  match L.pending with
  | none => (.code .inval, L)
  | some r =>
      if offset < L.cap.toNat then (.code .ok, L.setByte r.slotIndex offset byte)
      else (.code .inval, L)

/-- Append the message of the pending reservation. -/
def append (L : Ledger) (slotIndex len : UInt32) (truncated : Bool) : Ledger :=
  let count := UInt32.ofNat (L.count + 1)
  { L with
    head := L.head + 1
    cachedTail := L.tail
    pending := none
    header := Function.update L.header slotIndex (encodeHeader len truncated)
    stats := { L.stats with
      published := L.stats.published + 1
      highWater := if L.stats.highWater < count then count else L.stats.highWater
      truncated := if truncated then L.stats.truncated + 1 else L.stats.truncated } }

/-- Latch the full condition. -/
def latchFull (L : Ledger) : Ledger :=
  { L with fullLatch := true, stats.fullHits := L.stats.fullHits + 1 }

def handOver (L : Ledger) (slotIndex len : UInt32) (truncated : Bool) : Output × Ledger :=
  let added := fire L.cb.onSlotAdded (.slotAdded slotIndex len truncated)
  let next := L.append slotIndex len truncated
  if L.limit.toNat ≤ next.count ∧ L.fullLatch = false then
    ((.code .ok, added ++ fire L.cb.onFull .full), next.latchFull)
  else ((.code .ok, added), next)

def publishEx (L : Ledger) (slotIndex writtenLen : UInt32) (truncated : Bool) :
    Output × Ledger :=
  match L.pending with
  | none => ((.code .inval, []), L)
  | some r =>
      if r.slotIndex ≠ slotIndex then ((.code .inval, []), L)
      else
        let written := clampWritten L.cap r.wantedLen writtenLen truncated
        L.handOver slotIndex written.1 written.2

def abort (L : Ledger) : Reply × Ledger :=
  if L.pending.isSome then (.code .ok, L.withPending none) else (.code .inval, L)

/-! ## Consumer -/

/-- Read the producer's counter again. -/
def refreshHead (L : Ledger) : Ledger := { L with cachedHead := L.head }

def hold (L : Ledger) (slotIndex : UInt32) : Ledger := { L with held := some slotIndex }

/-- Hand out the message in a slot. -/
def take (L : Ledger) (slotIndex : UInt32) : Reply × Ledger :=
  (.message slotIndex (headerLen (L.header slotIndex)) (headerTruncated (L.header slotIndex)),
    L.hold slotIndex)

def consume (L : Ledger) : Reply × Ledger :=
  if L.held.isSome then (.code .inval, L)
  else if L.tail = L.cachedHead then
    if L.tail = L.head then (.code .empty, L.refreshHead)
    else L.refreshHead.take (L.slotFor L.tail)
  else L.take (L.slotFor L.tail)

/-- A consumer that still knows of a message takes it without looking again. -/
theorem consume_of_known {L : Ledger} (hheld : ¬ L.held.isSome) (hne : L.tail ≠ L.cachedHead) :
    L.consume = L.take (L.slotFor L.tail) := by
  rw [consume, if_neg hheld, if_neg hne]

def read (L : Ledger) (offset : Nat) : Reply :=
  match L.held with
  | none => .code .inval
  | some slotIndex =>
      if offset < L.cap.toNat then .byte (L.payload slotIndex offset) else .code .inval

/-- The consumer's estimate of the occupancy: what it knows to be published. -/
def known (L : Ledger) : Nat := L.cachedHead - L.tail

/-- A downward crossing of a threshold, as the consumer sees it. -/
def crossed (oldCount newCount limit percent : Nat) : Bool :=
  !below oldCount limit percent && below newCount limit percent

/-- Remove the message at the front. -/
def drop (L : Ledger) : Ledger :=
  { L with tail := L.tail + 1, held := none, stats.consumed := L.stats.consumed + 1 }

def noteLowD (L : Ledger) : Ledger :=
  { L with fullLatch := false, stats.lowDHits := L.stats.lowDHits + 1 }

def noteLowE (L : Ledger) : Ledger := { L with stats.lowEHits := L.stats.lowEHits + 1 }

def crossLowD (L : Ledger) (oldCount newCount : Nat) : List Event × Ledger :=
  if crossed oldCount newCount L.limit.toNat L.lowD.toNat then
    (fire L.cb.onLowD .lowD, L.noteLowD)
  else ([], L)

def crossLowE (L : Ledger) (oldCount newCount : Nat) : List Event × Ledger :=
  if crossed oldCount newCount L.limit.toNat L.lowE.toNat then
    (fire L.cb.onLowE .lowE, L.noteLowE)
  else ([], L)

def release (L : Ledger) (slotIndex : UInt32) : Output × Ledger :=
  if L.held = some slotIndex then
    let lowD := L.drop.crossLowD L.known L.drop.known
    let lowE := lowD.2.crossLowE L.known L.drop.known
    ((.code .ok, lowD.1 ++ lowE.1), lowE.2)
  else ((.code .inval, []), L)

/-! ## Setters -/

def withLimit (L : Ledger) (limit : UInt32) : Ledger := { L with limit }

def setLimit (L : Ledger) (limit : UInt32) : Reply × Ledger :=
  if limit = 0 ∨ L.capacity < limit ∨ L.slots < limit ∨ L.count ≠ 0 then (.code .inval, L)
  else (.code .ok, L.withLimit limit)

def setLowD (L : Ledger) (percent : UInt32) : Reply × Ledger :=
  if 100 < percent then (.code .inval, L) else (.code .ok, { L with lowD := percent })

def setLowE (L : Ledger) (percent : UInt32) : Reply × Ledger :=
  if 100 < percent then (.code .inval, L) else (.code .ok, { L with lowE := percent })

def setOversizePolicy (L : Ledger) (policy : OversizePolicy) : Reply × Ledger :=
  match policy with
  | .other _ => (.code .inval, L)
  | .truncate | .drop => (.code .ok, { L with oversizePolicy := policy })

/-- The same ledger with other callbacks. -/
abbrev withCb (L : Ledger) (cb : Callbacks) : Ledger := { L with cb }

def setCallbacks (L : Ledger) : Option Callbacks → Reply × Ledger
  | none => (.code .inval, L)
  | some cb => (.code .ok, L.withCb cb)

/-- Execute one call. Every call is answered. -/
def call (L : Ledger) : Call → Output × Ledger
  | .acquire wantedLen => quiet (L.acquire wantedLen)
  | .write offset byte => quiet (L.write offset byte)
  | .publish slotIndex writtenLen => L.publishEx slotIndex writtenLen false
  | .publishEx slotIndex writtenLen truncated => L.publishEx slotIndex writtenLen truncated
  | .abort => quiet L.abort
  | .consume => quiet L.consume
  | .read offset => quiet (L.read offset, L)
  | .release slotIndex => L.release slotIndex
  | .count => quiet (.number (UInt32.ofNat L.count), L)
  | .isFull => quiet (.flag (L.limit.toNat ≤ L.count), L)
  | .isEmpty => quiet (.flag (L.count = 0), L)
  | .setLimit limit => quiet (L.setLimit limit)
  | .setLowD percent => quiet (L.setLowD percent)
  | .setLowE percent => quiet (L.setLowE percent)
  | .setOversizePolicy policy => quiet (L.setOversizePolicy policy)
  | .setCallbacks cb => quiet (L.setCallbacks cb)
  -- the stack sizes are for the threads of the caller
  | .setProducerStack _ | .setConsumerStack _ => quiet (.code .ok, L)

end Ledger

/-- The ledger under whole calls. -/
def ledger : Automaton Ledger Call Output where
  step L c := some (L.call c)

theorem ledger_step_eq_some {L next : Ledger} {c : Call} {output : Output} :
    ledger.step L c = some (output, next) ↔ (L.call c).1 = output ∧ (L.call c).2 = next := by
  simp [ledger, Prod.ext_iff]

end RingBuff
