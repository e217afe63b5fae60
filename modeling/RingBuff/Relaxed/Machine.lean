import RingBuff.Foundation.HappensBefore
import RingBuff.Threads.Branches
import RingBuff.Threads.Safety

/-! # The two threads on release/acquire memory

The interleaving machine hands every load the latest value. Here the words the
two threads share behave as their memory orders allow. `head` and `tail` have
one writer each, so their stores are numbered, and a load may return any of them
from the last one its thread has seen on; a release store carries what its
thread knows, an acquire load joins it. `full_latch` is only accessed relaxed,
and a load of it may return anything.

Cells of `entries[]`, headers and payloads are plain memory, and every access to
them is recorded. The stamps of the per-slot-lap build are atomic in the source
and are recorded as if they were plain, which can only show more races: an
access that does not race reads what was written last.

The calls that pass messages are covered. `rb_wait`, `rb_notify_value` and
`rb_notify_drain_fd` are not part of this machine.
-/

namespace RingBuff.Relaxed

open Threads

/-- Which accesses to the counters synchronise, that is are release stores and
acquire loads; the others are relaxed. -/
structure Orders where
  storeHead : Bool
  loadHead : Bool
  storeTail : Bool
  loadTail : Bool
  deriving DecidableEq, Repr

/-- The orders `rb.c` uses. -/
def Orders.rb : Orders := ⟨true, true, true, true⟩

/-- A piece of plain memory: a cell of `entries[]`, or a slot with its stamp,
header and payload. -/
inductive Cell where
  | entry (cell : UInt32)
  | slot (slotIndex : UInt32)
  deriving DecidableEq, Repr

structure State where
  sys : Sys
  hb : HappensBefore Side Cell := {}
  /-- What the store that made `head` the given number carries. -/
  headView : Nat → Side → Nat := fun _ _ => 0
  tailView : Nat → Side → Nat := fun _ _ => 0

/-- One move. A load of the other thread's counter names the store it reads from. -/
inductive Move where
  | act (a : Act)
  | loadTail (stores : Nat)
  | loadHead (stores : Nat)
  | loadLatch (value : UInt32)
  deriving DecidableEq, Repr

/-! ## Accesses to plain memory -/

/-- What a move of the producer accesses. -/
def producerAccess (b : Build) (s : Sys) (a : Act) : Option (Access Cell) :=
  match slotTarget b s a, cellTarget b s a with
  | some i, _ => some (.write (.slot i))
  | none, some cell => some (.write (.entry cell))
  | none, none => none

/-- What a move of the consumer accesses. -/
def consumerAccess (b : Build) (s : Sys) : Act → Option (Access Cell)
  | .read offset =>
      if s.rb.consumerActive ≠ 0 ∧ offset < (payloadCap b s.rb.geo).toNat then
        some (.read (.slot s.rb.consumerSlot))
      else none
  | .consumer =>
      match s.c.pc with
      | .conEntry tail =>
          some (.read (if b.mode = .lap then .slot (slotIndexFor s.rb.geo tail)
            else .entry (tail &&& s.rb.geo.mask)))
      | .conHeader i => some (.read (.slot i))
      | .relStamp i _ => some (.write (.slot i))
      | _ => none
  | _ => none

/-- What a move accesses. -/
def accessOf (b : Build) (s : Sys) (a : Act) : Option (Access Cell) :=
  if a.byProducer then producerAccess b s a else consumerAccess b s a

/-! ## Moves -/

/-- The producer is about to load `tail`. -/
def loadsTail : ProducerPc → Bool
  | .acqTail _ _ | .pubTail _ _ => true
  | _ => false

/-- The consumer is about to load `head`. -/
def loadsHead : ConsumerPc → Bool
  | .conHead _ | .conStale _ _ => true
  | _ => false

/-- Moves of the message calls that load no word of the other thread. -/
def ordinary (s : Sys) : Act → Bool
  | .producer => !loadsTail s.p.pc && s.p.pc ≠ .pubLatch
  | .consumer => !loadsHead s.c.pc
  | .acquire _ | .write _ _ | .publishEx _ _ _ | .abort | .eventfdFails => true
  | .consume | .read _ | .release _ => true
  | .notifyValue | .wait _ _ | .drainFd | .clock _ | .futexReturns _ => false

/-- The state as it looks when `tail` shows the given number of releases. -/
def showTail (s : Sys) (stores : Nat) : Sys :=
  { s with rb.tail := UInt32.ofNat stores, c.released := stores }

/-- The state as it looks when `head` shows the given number of publishes. -/
def showHead (s : Sys) (stores : Nat) : Sys :=
  { s with rb.head := UInt32.ofNat stores, p.published := stores }

/-- The producer's step with a load of `tail` that returns the given store. -/
def nextWithTail (b : Build) (s : Sys) (stores : Nat) : Sys :=
  let s' := (showTail s stores).producerNext b
  { s' with rb.tail := s.rb.tail, c := s.c }

/-- The producer's step with a load of `full_latch` that returns the given value. -/
def nextWithLatch (b : Build) (s : Sys) (value : UInt32) : Sys :=
  let s' := { s with rb.fullLatch := value }.producerNext b
  { s' with rb.fullLatch := s.rb.fullLatch }

/-- The consumer's step with a load of `head` that returns the given store. -/
def stepWithHead (b : Build) (s : Sys) (stores : Nat) : Option Sys :=
  ((showHead s stores).consumerStep b).map fun s' =>
    { s' with rb.head := s.rb.head, p := s.p }

/-- What a store carries. -/
def carried (release : Bool) (clock : Side → Nat) : Side → Nat :=
  if release then clock else fun _ => 0

/-- What a load takes over from the store it reads. -/
def synchronise (acquire : Bool) (hb : HappensBefore Side Cell) (t : Side)
    (view : Side → Nat) : HappensBefore Side Cell :=
  if acquire then hb.receive t view else hb

/-- The record of an access, if there is one. -/
def record (hb : HappensBefore Side Cell) (t : Side) : Option (Access Cell) →
    HappensBefore Side Cell
  | some a => hb.access t a
  | none => hb

/-- An ordinary move: plain accesses are recorded, stores to the counters are
signals. -/
def State.after (ord : Orders) (b : Build) (w : State) (a : Act) (s' : Sys) : State where
  sys := s'
  hb := record w.hb a.side (accessOf b w.sys a)
  headView :=
    if s'.p.published = w.sys.p.published then w.headView
    else Function.update w.headView s'.p.published
      (carried ord.storeHead (w.hb.clock .producer))
  tailView :=
    if s'.c.released = w.sys.c.released then w.tailView
    else Function.update w.tailView s'.c.released
      (carried ord.storeTail (w.hb.clock .consumer))

/-- One move on release/acquire memory. -/
def step (ord : Orders) (b : Build) (w : State) : Move → Option State
  | .act a =>
      if ordinary w.sys a then (Threads.step b w.sys a).map (w.after ord b a) else none
  | .loadTail stores =>
      if loadsTail w.sys.p.pc ∧ w.sys.p.knownTail ≤ stores ∧ stores ≤ w.sys.c.released then
        some { w with
          sys := nextWithTail b w.sys stores
          hb := synchronise ord.loadTail w.hb .producer (w.tailView stores) }
      else none
  | .loadHead stores =>
      if loadsHead w.sys.c.pc ∧ w.sys.c.knownHead ≤ stores ∧ stores ≤ w.sys.p.published then
        (stepWithHead b w.sys stores).map fun s' =>
          { w with
            sys := s'
            hb := synchronise ord.loadHead w.hb .consumer (w.headView stores) }
      else none
  | .loadLatch value =>
      if w.sys.p.pc = .pubLatch then some { w with sys := nextWithLatch b w.sys value } else none

/-- The two threads on release/acquire memory. -/
def machine (ord : Orders) (b : Build) : Automaton State Move Unit where
  step w m := (step ord b w m).map fun w' => ((), w')

theorem machine_step_eq_some {ord : Orders} {b : Build} {w w' : State} {m : Move} {u : Unit} :
    (machine ord b).step w m = some (u, w') ↔ step ord b w m = some w' := by
  simp [machine]

/-- Both threads before their first call. -/
def start (rb : Rb) : State := { sys := Threads.start rb }

/-- A data race: a thread can make an access that is not ordered with an earlier
one of the other thread. -/
def Race (ord : Orders) (b : Build) (w : State) : Prop :=
  ∃ a access, (step ord b w (.act a)).isSome ∧ accessOf b w.sys a = some access ∧
    w.hb.Racy a.side access

end RingBuff.Relaxed
