import RingBuff.Core.Calls

/-! # Producer and consumer as two threads

The operations of `rb.c` as step sequences of one producer and one consumer on
one ring. Every load and every store of a shared field, of an `entries[]` cell,
of a stamp, of a header and of a payload byte is a step of its own, in program
order; a step that touches no shared data is merged with the one before it.
Steps of the two threads interleave in any order on sequentially consistent
memory.

Besides the ring the state has history variables that no step reads: how many
times `head` and `tail` were stored, which of these values the cached counters
stand for, what was published and what was delivered.
-/

namespace RingBuff.Threads

/-- A message on its way into the ring. -/
structure Outgoing where
  slotIndex : UInt32
  len : UInt32
  truncated : Bool
  deriving DecidableEq, Repr

/-- A producer that is inside `rb_acquire` or `rb_publish_ex`, before the named
step. -/
inductive ProducerPc where
  | idle
  | acqHead (wantedLen : UInt32)
  | acqTail (wantedLen head : UInt32)
  | pubHeader (m : Outgoing)
  | pubHead (m : Outgoing)
  | pubEntry (m : Outgoing) (head : UInt32)
  | pubStore (m : Outgoing) (head : UInt32)
  | pubWaiters (m : Outgoing) (head : UInt32)
  | pubWake (m : Outgoing) (head : UInt32)
  | pubEventfd (m : Outgoing) (head : UInt32)
  | pubTail (m : Outgoing) (head : UInt32)
  | pubAdded (m : Outgoing) (count : UInt32)
  | pubLatch
  | pubSetLatch
  | pubFull
  deriving DecidableEq, Repr

/-- The arguments and the deadline of a `rb_wait` in progress. -/
structure Waiting where
  expected : UInt32
  timeout : Int
  deadline : UInt64
  deriving DecidableEq, Repr

/-- A consumer that is inside `rb_consume`, `rb_release`, `rb_wait` or
`rb_notify_drain_fd`, before the named step. -/
inductive ConsumerPc where
  | idle
  | conTail
  | conHead (tail : UInt32)
  | conEntry (tail : UInt32)
  | conStale (tail slotIndex : UInt32)
  | conHeader (slotIndex : UInt32)
  | relTail (slotIndex : UInt32)
  | relStamp (slotIndex tail : UInt32)
  | relStore (tail : UInt32)
  | relClear (oldCount newCount : UInt32)
  | relLowD (oldCount newCount : UInt32)
  | relClearUp (oldCount newCount : UInt32)
  | relLowE (oldCount newCount : UInt32)
  | relFireE
  | waitCount (expected : UInt32) (timeout : Int)
  | waitStart (expected : UInt32) (timeout : Int)
  | waitRaise (w : Waiting)
  | waitCheck (w : Waiting)
  | waitNow (w : Waiting)
  | waitFutex (w : Waiting)
  | waitAsleep (w : Waiting)
  | waitLate (w : Waiting)
  | waitLower (result : Int)
  | fdRead
  deriving DecidableEq, Repr

/-- What the producer passed to a successful `rb_publish_ex`, and the payload of
the slot at that call. -/
structure Sent where
  slotIndex : UInt32
  wantedLen : UInt32
  writtenLen : UInt32
  truncated : Bool
  payload : Nat → UInt8

/-- What a successful `rb_consume` returned. -/
structure Delivered where
  slotIndex : UInt32
  len : UInt32
  truncated : Bool
  deriving DecidableEq, Repr

/-- What can be seen from outside: a call returns, a callback runs. -/
inductive Obs where
  | reply (r : Reply)
  | event (e : Event)
  | waited (result : Int)
  deriving DecidableEq, Repr

structure ProducerSide where
  pc : ProducerPc := .idle
  /-- Stores to `head` so far. -/
  published : Nat := 0
  /-- The number of releases behind the value in `cachedTail`. -/
  knownTail : Nat := 0
  sent : List Sent := []

structure ConsumerSide where
  pc : ConsumerPc := .idle
  /-- Stores to `tail` so far. -/
  released : Nat := 0
  /-- The number of publishes behind the value in `cachedHead`. -/
  knownHead : Nat := 0
  /-- The number of publishes behind the last value of `rb_notify_value`. -/
  notified : Nat := 0
  delivered : List Delivered := []

structure Sys where
  rb : Rb
  p : ProducerSide := {}
  c : ConsumerSide := {}
  /-- Whether the consumer is in the wait queue of the futex. -/
  sleeping : Bool := false
  /-- The counter of the eventfd. -/
  eventfd : Nat := 0
  log : List Obs := []

/-- How a futex wait ends: woken, or with an `errno`. -/
inductive FutexResult where
  | woken
  | eagain
  | eintr
  | timedOut
  | failed (errno : Nat)
  deriving DecidableEq, Repr

/-- `ETIMEDOUT`. -/
def etimedout : Int := 110

/-- `EINVAL`. -/
def einval : Int := 22

/-- One move of a thread: the start of a call, or the next step of the call it is
in. What the environment decides is part of the move. -/
inductive Act where
  -- the producer
  | acquire (wantedLen : UInt32)
  | write (offset : Nat) (byte : UInt8)
  | publishEx (slotIndex writtenLen : UInt32) (truncated : Bool)
  | abort
  | producer
  | eventfdFails
  -- the consumer
  | consume
  | read (offset : Nat)
  | release (slotIndex : UInt32)
  | notifyValue
  | wait (expected : UInt32) (timeout : Int)
  | drainFd
  | consumer
  | clock (now : UInt64)
  | futexReturns (result : FutexResult)
  deriving DecidableEq, Repr

namespace Sys

variable (b : Build) (s : Sys)

def goP (pc : ProducerPc) : Sys := { s with p.pc := pc }

def goC (pc : ConsumerPc) : Sys := { s with c.pc := pc }

def setStore (store : Store) : Sys := { s with rb.store := store }

/-- Run a callback if it is installed. -/
def callback (installed : Bool) (event : Event) : Sys :=
  { s with log := s.log ++ (fire installed event).map .event }

/-- The producer returns from a call. -/
def returnP (r : Reply) : Sys :=
  { s with p.pc := .idle, log := s.log ++ [.reply r] }

/-- The consumer returns from a call. -/
def returnC (r : Reply) : Sys :=
  { s with c.pc := .idle, log := s.log ++ [.reply r] }

/-! ## Producer -/

/-- The producer loads `tail` and caches it. -/
def refreshTail : Sys := { s with rb.cachedTail := s.rb.tail, p.knownTail := s.c.released }

/-- The producer stores `head`. -/
def storeHead (head : UInt32) : Sys := { s with rb.head := head, p.published := s.p.published + 1 }

def noteFullAttempt : Sys :=
  { s with rb.stats.fullAttempts := s.rb.stats.fullAttempts + 1 }

/-- `rb_acquire` up to the load of `head`. -/
def startAcquire (wantedLen : UInt32) : Sys :=
  if s.rb.geo.scratchSize = 0 then s.returnP (.code .notInit)
  else if s.rb.pendingSlot ≠ noPending then s.returnP (.code .inval)
  else s.goP (.acqHead wantedLen)

/-- `rb_acquire` after the ring was found to have room. -/
def finishAcquire (wantedLen head : UInt32) : Sys :=
  let answer := reserve b s.rb wantedLen head
  { s with rb := answer.2 }.returnP answer.1

/-- `rb_publish_ex` up to the store of the header. -/
def startPublish (slotIndex writtenLen : UInt32) (truncated : Bool) : Sys :=
  if s.rb.geo.scratchSize = 0 then s.returnP (.code .notInit)
  else if s.rb.pendingSlot = noPending ∨ s.rb.pendingSlot ≠ slotIndex then
    s.returnP (.code .inval)
  else
    let written :=
      clampWritten (payloadCap b s.rb.geo) s.rb.pendingWanted writtenLen truncated
    let sent : Sent :=
      { slotIndex, wantedLen := s.rb.pendingWanted, writtenLen, truncated,
        payload := s.rb.store.payload b s.rb.geo slotIndex }
    { s with p := { s.p with
        pc := .pubHeader ⟨slotIndex, written.1, written.2⟩
        sent := s.p.sent ++ [sent] } }

/-- The next step of the producer's call. -/
def producerNext : Sys :=
  match s.p.pc with
  | .idle => s
  | .acqHead wantedLen =>
      -- loads `head`; `cached_tail` is its own
      if s.rb.limit ≤ s.rb.head - s.rb.cachedTail then s.goP (.acqTail wantedLen s.rb.head)
      else s.finishAcquire b wantedLen s.rb.head
  | .acqTail wantedLen head =>
      if s.rb.limit ≤ head - s.rb.tail then s.refreshTail.noteFullAttempt.returnP (.code .full)
      else s.refreshTail.finishAcquire b wantedLen head
  | .pubHeader m =>
      let hdr := encodeHeader m.len m.truncated
      (s.setStore (s.rb.store.setHeader b s.rb.geo m.slotIndex hdr)).goP (.pubHead m)
  | .pubHead m => s.goP (.pubEntry m s.rb.head)
  | .pubEntry m head =>
      (s.setStore (s.rb.store.enter b s.rb.geo m.slotIndex head)).goP (.pubStore m head)
  | .pubStore m head =>
      (s.storeHead (head + 1)).goP (if b.notify then .pubWaiters m head else .pubTail m head)
  | .pubWaiters m head =>
      s.goP (if s.rb.notifyWaiters ≠ 0 then .pubWake m head else .pubEventfd m head)
  | .pubWake m head => { s with sleeping := false }.goP (.pubEventfd m head)
  | .pubEventfd m head =>
      let eventfd := if 0 ≤ s.rb.notifyFd then s.eventfd + 1 else s.eventfd
      { s with eventfd }.goP (.pubTail m head)
  | .pubTail m head =>
      let count := head + 1 - s.rb.tail
      let rb := s.rb.afterPublish count m.truncated
      { s with rb, p.knownTail := s.c.released }.goP (.pubAdded m count)
  | .pubAdded m count =>
      let added := s.callback s.rb.cb.onSlotAdded (.slotAdded m.slotIndex m.len m.truncated)
      if s.rb.limit ≤ count then added.goP .pubLatch else added.returnP (.code .ok)
  | .pubLatch => if s.rb.fullLatch = 0 then s.goP .pubSetLatch else s.returnP (.code .ok)
  | .pubSetLatch =>
      { s with rb.fullLatch := 1, rb.stats.fullHits := s.rb.stats.fullHits + 1 }.goP .pubFull
  | .pubFull => (s.callback s.rb.cb.onFull .full).returnP (.code .ok)

/-- `rb_abort`, which touches no shared field. -/
def runAbort : Sys :=
  let answer := rbAbort s.rb
  { s with rb := answer.2 }.returnP answer.1

/-- The caller stores one payload byte. -/
def runWrite (offset : Nat) (byte : UInt8) : Sys :=
  let answer := payloadWrite b s.rb offset byte
  { s with rb := answer.2 }.returnP answer.1

/-! ## Consumer -/

/-- The consumer loads `head` and caches it. -/
def refreshHead : Sys := { s with rb.cachedHead := s.rb.head, c.knownHead := s.p.published }

/-- The consumer stores `tail` and gives up its slot. -/
def storeTail (tail : UInt32) : Sys :=
  { s with
    rb.tail := tail
    rb.consumerActive := 0
    rb.stats.consumed := s.rb.stats.consumed + 1
    c.released := s.c.released + 1 }

/-- The consumer takes the message of a slot. -/
def latch (d : Delivered) : Sys :=
  { s with
    rb.consumerActive := 1
    rb.consumerSlot := d.slotIndex
    c.delivered := s.c.delivered ++ [d] }

/-- `rb_consume` up to the load of `tail`. -/
def startConsume : Sys :=
  if s.rb.geo.scratchSize = 0 then s.returnC (.code .notInit)
  else if s.rb.consumerActive ≠ 0 then s.returnC (.code .inval)
  else s.goC .conTail

/-- `rb_release` up to the load of `tail`. -/
def startRelease (slotIndex : UInt32) : Sys :=
  if s.rb.geo.scratchSize = 0 then s.returnC (.code .notInit)
  else if s.rb.consumerActive = 0 ∨ slotIndex ≠ s.rb.consumerSlot then s.returnC (.code .inval)
  else s.goC (.relTail slotIndex)

/-- `rb_wait` up to its first `rb_count`. -/
def startWait (expected : UInt32) (timeout : Int) : Sys :=
  if s.rb.geo.scratchSize = 0 then { s with log := s.log ++ [.waited (-einval)] }
  else s.goC (.waitCount expected timeout)

/-- Where `rb_release` goes after the store of `tail`. -/
def crossing (oldCount newCount : UInt32) : ConsumerPc :=
  let oldD := belowLow oldCount s.rb.limit s.rb.lowD
  let newD := belowLow newCount s.rb.limit s.rb.lowD
  if !oldD && newD then .relClear oldCount newCount
  else if oldD && !newD then .relClearUp oldCount newCount
  else .relLowE oldCount newCount

/-- The `low_e` part of `rb_release`, up to the callback. -/
def crossLowE (oldCount newCount : UInt32) : Sys :=
  let oldE := belowLow oldCount s.rb.limit s.rb.lowE
  let newE := belowLow newCount s.rb.limit s.rb.lowE
  if !oldE && newE then
    { s with rb.lowELatch := 1, rb.stats.lowEHits := s.rb.stats.lowEHits + 1 }.goC .relFireE
  else if oldE && !newE then { s with rb.lowELatch := 0 }.returnC (.code .ok)
  else s.returnC (.code .ok)

/-- Whether `rb_count` is not zero. Only the consumer stores `tail`, so the two
loads of `rb_count` are one step of the consumer. -/
def nonEmpty : Bool := rbCount s.rb ≠ 0

/-- `remain`, cut to one slice. -/
def waitSlice (w : Waiting) (now : UInt64) : UInt64 :=
  let remain := if 0 ≤ w.timeout then w.deadline - now else b.waitSliceMs
  if remain < b.waitSliceMs then remain else b.waitSliceMs

/-- The next step of the consumer's call. -/
def consumerStep : Option Sys :=
  match s.c.pc with
  | .idle => none
  | .conTail =>
      -- loads `tail`; `cached_head` is its own
      some (s.goC (if s.rb.tail = s.rb.cachedHead then .conHead s.rb.tail
        else .conEntry s.rb.tail))
  | .conHead tail =>
      some (if tail = s.rb.head then s.refreshHead.returnC (.code .empty)
        else s.refreshHead.goC (.conEntry tail))
  | .conEntry tail =>
      -- loads the cell of `entries[]`, or the stamp of the slot
      match s.rb.store.frontSlot b s.rb.geo tail with
      | none => none
      | some (.error err) => some (s.returnC (.code err))
      | some (.ok slotIndex) =>
          some (s.goC (if s.rb.store.stale b s.rb.geo tail slotIndex then .conStale tail slotIndex
            else .conHeader slotIndex))
  | .conStale tail slotIndex =>
      some (if s.rb.head = tail then s.refreshHead.returnC (.code .empty)
        else s.refreshHead.goC (.conHeader slotIndex))
  | .conHeader slotIndex =>
      let hdr := s.rb.store.header b s.rb.geo slotIndex
      some ((s.latch ⟨slotIndex, headerLen hdr, headerTruncated hdr⟩).returnC
        (.message slotIndex (headerLen hdr) (headerTruncated hdr)))
  | .relTail slotIndex =>
      some (s.goC (if b.mode = .lap then .relStamp slotIndex s.rb.tail else .relStore s.rb.tail))
  | .relStamp slotIndex tail =>
      some ((s.setStore (s.rb.store.recycle b s.rb.geo slotIndex tail)).goC (.relStore tail))
  | .relStore tail =>
      let newCount := s.rb.cachedHead - (tail + 1)
      some ((s.storeTail (tail + 1)).goC (s.crossing (newCount + 1) newCount))
  | .relClear oldCount newCount =>
      some ({ s with
        rb.lowDLatch := 1
        rb.fullLatch := 0
        rb.stats.lowDHits := s.rb.stats.lowDHits + 1 }.goC (.relLowD oldCount newCount))
  | .relLowD oldCount newCount =>
      some ((s.callback s.rb.cb.onLowD .lowD).goC (.relLowE oldCount newCount))
  | .relClearUp oldCount newCount =>
      some ({ s with rb.fullLatch := 0 }.goC (.relLowE oldCount newCount))
  | .relLowE oldCount newCount => some (s.crossLowE oldCount newCount)
  | .relFireE => some ((s.callback s.rb.cb.onLowE .lowE).returnC (.code .ok))
  | .waitCount expected timeout =>
      some (if s.nonEmpty then { s with c.pc := .idle, log := s.log ++ [.waited 0] }
        else s.goC (.waitStart expected timeout))
  | .waitStart _ _ => none
  | .waitRaise w =>
      some ({ s with rb.notifyWaiters := s.rb.notifyWaiters + 1 }.goC (.waitCheck w))
  | .waitCheck w => some (s.goC (if s.nonEmpty then .waitLower 0 else .waitNow w))
  | .waitNow _ => none
  | .waitFutex w =>
      -- the kernel compares and queues the caller in one step
      some (if s.rb.head = w.expected then { s with sleeping := true }.goC (.waitAsleep w)
        else s.goC (.waitLower 0))
  | .waitAsleep _ => if s.sleeping then none else some (s.goC (.waitLower 0))
  | .waitLate _ => none
  | .waitLower result =>
      some { s with
        rb.notifyWaiters := s.rb.notifyWaiters - 1
        c.pc := .idle
        log := s.log ++ [.waited result] }
  | .fdRead =>
      some (if s.eventfd ≠ 0 then { s with eventfd := 0 } else s.returnC (.code .ok))

/-- A step of `rb_wait` that reads the clock. -/
def clockStep (now : UInt64) : Option Sys :=
  match s.c.pc with
  | .waitStart expected timeout =>
      let deadline := if 0 ≤ timeout then now + UInt64.ofNat timeout.toNat else 0 - 1
      some (s.goC (.waitRaise { expected, timeout, deadline }))
  | .waitNow w =>
      if 0 ≤ w.timeout ∧ w.deadline ≤ now then some (s.goC (.waitLower (-etimedout)))
      else if waitSlice b w now = 0 then some (s.goC (.waitLower (-etimedout)))
      else some (s.goC (.waitFutex w))
  | .waitLate w =>
      some (s.goC (if w.deadline ≤ now then .waitLower (-etimedout) else .waitCheck w))
  | _ => none

/-- The futex wait returns without having been woken. -/
def futexStep (result : FutexResult) : Option Sys :=
  match s.c.pc with
  | .waitFutex w | .waitAsleep w =>
      let s := { s with sleeping := false }
      some (s.goC (match result with
        | .woken | .eagain => .waitLower 0
        | .eintr => .waitCheck w
        | .timedOut => if w.timeout < 0 then .waitCheck w else .waitLate w
        | .failed errno => .waitLower (-errno)))
  | _ => none

/-- `rb_notify_value`. -/
def runNotifyValue : Sys :=
  { s with c.notified := s.p.published }.returnC (.number s.rb.head)

/-- `rb_notify_drain_fd` up to its first read. -/
def startDrainFd : Sys :=
  if s.rb.notifyFd < 0 then s.returnC (.code .inval) else s.goC .fdRead

end Sys

/-- One move. A call starts only when its thread is outside of any other. -/
def step (b : Build) (s : Sys) : Act → Option Sys
  | .acquire wantedLen => if s.p.pc = .idle then some (s.startAcquire wantedLen) else none
  | .write offset byte => if s.p.pc = .idle then some (s.runWrite b offset byte) else none
  | .publishEx slotIndex writtenLen truncated =>
      if s.p.pc = .idle then some (s.startPublish b slotIndex writtenLen truncated) else none
  | .abort => if s.p.pc = .idle then some s.runAbort else none
  | .producer => if s.p.pc = .idle then none else some (s.producerNext b)
  | .eventfdFails =>
      match s.p.pc with
      | .pubEventfd m head => if s.eventfd = 0 then none else some (s.goP (.pubTail m head))
      | _ => none
  | .consume => if s.c.pc = .idle then some s.startConsume else none
  | .read offset =>
      if s.c.pc = .idle then some (s.returnC (payloadRead b s.rb offset)) else none
  | .release slotIndex => if s.c.pc = .idle then some (s.startRelease slotIndex) else none
  | .notifyValue => if s.c.pc = .idle then some s.runNotifyValue else none
  | .wait expected timeout =>
      if s.c.pc = .idle then some (s.startWait expected timeout) else none
  | .drainFd => if s.c.pc = .idle then some s.startDrainFd else none
  | .consumer => s.consumerStep b
  | .clock now => s.clockStep b now
  | .futexReturns result => s.futexStep result

/-- The two threads on one ring. -/
def machine (b : Build) : Automaton Sys Act Unit where
  step s a := (step b s a).map fun s' => ((), s')

end RingBuff.Threads
