import RingBuff.Core.Calls

/-! # A bounded queue of messages

What the ring is for, without counters and without memory: messages wait by
value in a list, the producer may have one reservation pending and the consumer
may hold the message at the front. A slot number is the number of messages
published so far, modulo the number of slots.
-/

namespace RingBuff

/-- A message as its producer published it. -/
structure Message where
  slotIndex : UInt32
  len : UInt32
  truncated : Bool
  payload : Nat → UInt8

structure Queue where
  capacity : UInt32
  slots : UInt32
  cap : UInt32
  limit : UInt32
  oversizePolicy : OversizePolicy
  /-- Messages published so far. -/
  published : Nat
  /-- Messages not yet released, oldest first. -/
  messages : List Message
  /-- The slot and the requested length of the pending reservation. -/
  pending : Option (UInt32 × UInt32)
  /-- Whether the consumer holds the front message. -/
  held : Bool
  /-- What was last written to the payload of each slot. -/
  bytes : UInt32 → Nat → UInt8

namespace Queue

/-- The slot the next message goes to. -/
def nextSlot (Q : Queue) : UInt32 := UInt32.ofNat (Q.published % Q.slots.toNat)

def withPending (Q : Queue) (pending : Option (UInt32 × UInt32)) : Queue := { Q with pending }

def setByte (Q : Queue) (slotIndex : UInt32) (offset : Nat) (byte : UInt8) : Queue :=
  let payload := Function.update (Q.bytes slotIndex) offset byte
  { Q with bytes := Function.update Q.bytes slotIndex payload }

def push (Q : Queue) (message : Message) : Queue :=
  { Q with
    messages := Q.messages ++ [message]
    published := Q.published + 1
    pending := none }

def hold (Q : Queue) : Queue := { Q with held := true }

def withFront (Q : Queue) (rest : List Message) : Queue :=
  { Q with messages := rest, held := false }

def acquire (Q : Queue) (wantedLen : UInt32) : Reply × Queue :=
  if Q.pending.isSome then (.code .inval, Q)
  else if Q.messages.length = Q.limit.toNat then (.code .full, Q)
  else if Q.cap < wantedLen ∧ Q.oversizePolicy = .drop then (.code .oversize, Q)
  else (.reserved Q.nextSlot Q.cap, Q.withPending (some (Q.nextSlot, wantedLen)))

def write (Q : Queue) (offset : Nat) (byte : UInt8) : Reply × Queue :=
  match Q.pending with
  | none => (.code .inval, Q)
  | some (slotIndex, _) =>
      if offset < Q.cap.toNat then (.code .ok, Q.setByte slotIndex offset byte)
      else (.code .inval, Q)

/-- The message a publish appends: the length is cut at the capacity, and the
flag says whether anything asked for more. -/
def message (Q : Queue) (slotIndex wantedLen writtenLen : UInt32) (truncated : Bool) : Message where
  slotIndex := slotIndex
  len := UInt32.ofNat (min writtenLen.toNat Q.cap.toNat)
  truncated := truncated || Q.cap < writtenLen || Q.cap < wantedLen
  payload := Q.bytes slotIndex

def publishEx (Q : Queue) (slotIndex writtenLen : UInt32) (truncated : Bool) : Reply × Queue :=
  match Q.pending with
  | none => (.code .inval, Q)
  | some (pendingSlot, wantedLen) =>
      if pendingSlot ≠ slotIndex then (.code .inval, Q)
      else (.code .ok, Q.push (Q.message slotIndex wantedLen writtenLen truncated))

def abort (Q : Queue) : Reply × Queue :=
  if Q.pending.isSome then (.code .ok, Q.withPending none) else (.code .inval, Q)

def consume (Q : Queue) : Reply × Queue :=
  if Q.held then (.code .inval, Q)
  else match Q.messages with
    | [] => (.code .empty, Q)
    | front :: _ => (.message front.slotIndex front.len front.truncated, Q.hold)

def read (Q : Queue) (offset : Nat) : Reply :=
  match Q.held, Q.messages with
  | true, front :: _ =>
      if offset < Q.cap.toNat then .byte (front.payload offset) else .code .inval
  | _, _ => .code .inval

def release (Q : Queue) (slotIndex : UInt32) : Reply × Queue :=
  match Q.held, Q.messages with
  | true, front :: rest =>
      if slotIndex = front.slotIndex then (.code .ok, Q.withFront rest) else (.code .inval, Q)
  | _, _ => (.code .inval, Q)

def setLimit (Q : Queue) (limit : UInt32) : Reply × Queue :=
  if limit = 0 ∨ Q.capacity < limit ∨ Q.slots < limit ∨ Q.messages.length ≠ 0 then
    (.code .inval, Q)
  else (.code .ok, { Q with limit })

/-- The queue has no thresholds; setting one only checks the percentage. -/
def setLow (percent : UInt32) : Reply := if 100 < percent then .code .inval else .code .ok

def setOversizePolicy (Q : Queue) (policy : OversizePolicy) : Reply × Queue :=
  match policy with
  | .other _ => (.code .inval, Q)
  | .truncate | .drop => (.code .ok, { Q with oversizePolicy := policy })

/-- Execute one call. -/
def call (Q : Queue) : Call → Reply × Queue
  | .acquire wantedLen => Q.acquire wantedLen
  | .write offset byte => Q.write offset byte
  | .publish slotIndex writtenLen => Q.publishEx slotIndex writtenLen false
  | .publishEx slotIndex writtenLen truncated => Q.publishEx slotIndex writtenLen truncated
  | .abort => Q.abort
  | .consume => Q.consume
  | .read offset => (Q.read offset, Q)
  | .release slotIndex => Q.release slotIndex
  | .count => (.number (UInt32.ofNat Q.messages.length), Q)
  | .isFull => (.flag (Q.limit.toNat ≤ Q.messages.length), Q)
  | .isEmpty => (.flag (Q.messages.length = 0), Q)
  | .setLimit limit => Q.setLimit limit
  | .setLowD percent => (setLow percent, Q)
  | .setLowE percent => (setLow percent, Q)
  | .setOversizePolicy policy => Q.setOversizePolicy policy
  | .setCallbacks cb => (if cb.isSome then .code .ok else .code .inval, Q)
  | .setProducerStack _ | .setConsumerStack _ => (.code .ok, Q)

/-- No call takes a published message back or changes the number of slots. -/
theorem call_mono (Q : Queue) (c : Call) :
    (Q.call c).2.slots = Q.slots ∧ Q.published ≤ (Q.call c).2.published := by
  cases c with
  | acquire wantedLen =>
      simp only [call, acquire]
      split_ifs <;> exact ⟨rfl, le_rfl⟩
  | write offset byte =>
      simp only [call, write]
      split
      · exact ⟨rfl, le_rfl⟩
      · split_ifs <;> exact ⟨rfl, le_rfl⟩
  | publish slotIndex writtenLen =>
      simp only [call, publishEx]
      split
      · exact ⟨rfl, le_rfl⟩
      · split_ifs
        · exact ⟨rfl, le_rfl⟩
        · exact ⟨rfl, Nat.le_succ _⟩
  | publishEx slotIndex writtenLen truncated =>
      simp only [call, publishEx]
      split
      · exact ⟨rfl, le_rfl⟩
      · split_ifs
        · exact ⟨rfl, le_rfl⟩
        · exact ⟨rfl, Nat.le_succ _⟩
  | abort =>
      simp only [call, abort]
      split_ifs <;> exact ⟨rfl, le_rfl⟩
  | consume =>
      simp only [call, consume]
      split_ifs
      · exact ⟨rfl, le_rfl⟩
      · split <;> exact ⟨rfl, le_rfl⟩
  | release slotIndex =>
      simp only [call, release]
      split
      · split_ifs <;> exact ⟨rfl, le_rfl⟩
      · exact ⟨rfl, le_rfl⟩
  | setLimit limit =>
      simp only [call, setLimit]
      split_ifs <;> exact ⟨rfl, le_rfl⟩
  | setOversizePolicy policy => cases policy <;> exact ⟨rfl, le_rfl⟩
  | read | count | isFull | isEmpty | setLowD | setLowE | setCallbacks | setProducerStack
  | setConsumerStack => exact ⟨rfl, le_rfl⟩

end Queue

/-- The queue under whole calls. -/
def queue : Automaton Queue Call Reply where
  step Q c := some (Q.call c)

theorem queue_step_eq_some {Q next : Queue} {c : Call} {reply : Reply} :
    queue.step Q c = some (reply, next) ↔ (Q.call c).1 = reply ∧ (Q.call c).2 = next := by
  simp [queue, Prod.ext_iff]

end RingBuff
