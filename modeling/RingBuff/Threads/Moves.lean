import RingBuff.Core.Geometry
import RingBuff.Threads.Machine

/-! # What a move can change

Every field of the control block has one thread that stores it, `full_latch`
apart, and every history variable too. A move of one thread therefore leaves the
fields of the other alone, which is said here once: the invariants that follow
look at the moves of one thread and get the moves of the other from these frames.
-/

namespace RingBuff

/-- The fields only the producer stores. -/
def Rb.producerRegs (rb : Rb) : UInt32 × UInt32 × UInt32 × UInt32 :=
  (rb.head, rb.cachedTail, rb.pendingSlot, rb.pendingWanted)

/-- The fields only the consumer stores. -/
def Rb.consumerRegs (rb : Rb) : UInt32 × UInt32 × UInt32 × UInt32 × UInt32 :=
  (rb.tail, rb.cachedHead, rb.consumerActive, rb.consumerSlot, rb.notifyWaiters)

/-- The fields no operation of the two threads stores. -/
def Rb.settings (rb : Rb) :
    Geometry × UInt32 × UInt32 × UInt32 × OversizePolicy × Callbacks × Int :=
  (rb.geo, rb.limit, rb.lowD, rb.lowE, rb.oversizePolicy, rb.cb, rb.notifyFd)

namespace Threads

variable {b : Build} {s s' : Sys}

/-- The moves of the producer. -/
inductive ProducerMove (b : Build) (s : Sys) : Sys → Prop where
  | acquire (wantedLen : UInt32) (hpc : s.p.pc = .idle) :
      ProducerMove b s (s.startAcquire wantedLen)
  | write (offset : Nat) (byte : UInt8) (hpc : s.p.pc = .idle) :
      ProducerMove b s (s.runWrite b offset byte)
  | publish (slotIndex writtenLen : UInt32) (truncated : Bool) (hpc : s.p.pc = .idle) :
      ProducerMove b s (s.startPublish b slotIndex writtenLen truncated)
  | abort (hpc : s.p.pc = .idle) : ProducerMove b s s.runAbort
  | next : ProducerMove b s (s.producerNext b)
  | eventfdFails (m : Outgoing) (head : UInt32) (hpc : s.p.pc = .pubEventfd m head)
      (hfd : s.eventfd ≠ 0) : ProducerMove b s (s.goP (.pubTail m head))

/-- The moves of the consumer. -/
inductive ConsumerMove (b : Build) (s : Sys) : Sys → Prop where
  | consume (hpc : s.c.pc = .idle) : ConsumerMove b s s.startConsume
  | read (offset : Nat) (hpc : s.c.pc = .idle) :
      ConsumerMove b s (s.returnC (payloadRead b s.rb offset))
  | release (slotIndex : UInt32) (hpc : s.c.pc = .idle) :
      ConsumerMove b s (s.startRelease slotIndex)
  | notifyValue (hpc : s.c.pc = .idle) : ConsumerMove b s s.runNotifyValue
  | wait (expected : UInt32) (timeout : Int) (hpc : s.c.pc = .idle) :
      ConsumerMove b s (s.startWait expected timeout)
  | drainFd (hpc : s.c.pc = .idle) : ConsumerMove b s s.startDrainFd
  | next {s' : Sys} (hnext : s.consumerStep b = some s') : ConsumerMove b s s'
  | clock {s' : Sys} (now : UInt64) (hnext : s.clockStep b now = some s') : ConsumerMove b s s'
  | futexReturns {s' : Sys} (result : FutexResult) (hnext : s.futexStep result = some s') :
      ConsumerMove b s s'

/-- Whose move it is. -/
def Act.byProducer : Act → Bool
  | .acquire _ | .write _ _ | .publishEx _ _ _ | .abort | .producer | .eventfdFails => true
  | .consume | .read _ | .release _ | .notifyValue | .wait _ _ | .drainFd | .consumer | .clock _
  | .futexReturns _ => false

theorem step_producerMove {a : Act} (ha : a.byProducer = true) (hstep : step b s a = some s') :
    ProducerMove b s s' := by
  cases a <;> simp only [Act.byProducer, Bool.false_eq_true] at ha <;>
    simp only [step, Option.ite_none_right_eq_some, Option.ite_none_left_eq_some,
      Option.some.injEq] at hstep
  case acquire w => exact hstep.2 ▸ .acquire w hstep.1
  case write offset byte => exact hstep.2 ▸ .write offset byte hstep.1
  case publishEx i n t => exact hstep.2 ▸ .publish i n t hstep.1
  case abort => exact hstep.2 ▸ .abort hstep.1
  case producer => exact hstep.2 ▸ .next
  case eventfdFails =>
    split at hstep
    next m head hpc =>
      simp only [Option.ite_none_left_eq_some, Option.some.injEq] at hstep
      exact hstep.2 ▸ .eventfdFails m head hpc hstep.1
    next => cases hstep

theorem step_consumerMove {a : Act} (ha : a.byProducer = false) (hstep : step b s a = some s') :
    ConsumerMove b s s' := by
  cases a <;> simp only [Act.byProducer, Bool.true_eq_false] at ha <;>
    simp only [step, Option.ite_none_right_eq_some, Option.some.injEq] at hstep
  case consume => exact hstep.2 ▸ .consume hstep.1
  case read offset => exact hstep.2 ▸ .read offset hstep.1
  case release i => exact hstep.2 ▸ .release i hstep.1
  case notifyValue => exact hstep.2 ▸ .notifyValue hstep.1
  case wait e t => exact hstep.2 ▸ .wait e t hstep.1
  case drainFd => exact hstep.2 ▸ .drainFd hstep.1
  case consumer => exact .next hstep
  case clock now => exact .clock now hstep
  case futexReturns r => exact .futexReturns r hstep

/-- Every move is a move of one of the threads. -/
theorem step_moves {a : Act} (hstep : step b s a = some s') :
    ProducerMove b s s' ∨ ConsumerMove b s s' := by
  cases ha : a.byProducer with
  | true => exact Or.inl (step_producerMove ha hstep)
  | false => exact Or.inr (step_consumerMove ha hstep)

/-! ## Frames -/

/-- What the consumer relies on: the producer leaves these alone. -/
structure SameConsumer (s s' : Sys) : Prop where
  side : s'.c = s.c
  regs : s'.rb.consumerRegs = s.rb.consumerRegs
  settings : s'.rb.settings = s.rb.settings
  published_le : s.p.published ≤ s'.p.published
  sent : s.p.sent <+: s'.p.sent

/-- What the producer relies on: the consumer leaves these alone. -/
structure SameProducer (s s' : Sys) : Prop where
  side : s'.p = s.p
  regs : s'.rb.producerRegs = s.rb.producerRegs
  settings : s'.rb.settings = s.rb.settings
  entries : s'.rb.store.entries = s.rb.store.entries
  released_le : s.c.released ≤ s'.c.released

theorem finishAcquire_frame (b : Build) (s : Sys) (wantedLen head : UInt32) :
    SameConsumer s (s.finishAcquire b wantedLen head) := by
  dsimp only [Sys.finishAcquire, reserve]
  split_ifs <;> exact ⟨rfl, rfl, rfl, le_rfl, List.prefix_rfl⟩

theorem producerNext_frame (b : Build) (s : Sys) : SameConsumer s (s.producerNext b) := by
  cases hpc : s.p.pc with
  | acqHead w =>
      simp only [Sys.producerNext, hpc]
      split
      · exact ⟨rfl, rfl, rfl, le_rfl, List.prefix_rfl⟩
      · exact finishAcquire_frame b s w s.rb.head
  | acqTail w head =>
      simp only [Sys.producerNext, hpc]
      split
      · exact ⟨rfl, rfl, rfl, le_rfl, List.prefix_rfl⟩
      · obtain ⟨hside, hregs, hset, hle, hsent⟩ := finishAcquire_frame b s.refreshTail w head
        exact ⟨hside, hregs, hset, hle, hsent⟩
  | pubStore m head =>
      simp only [Sys.producerNext, hpc]
      exact ⟨rfl, rfl, rfl, Nat.le_succ _, List.prefix_rfl⟩
  | pubAdded m count | pubLatch =>
      simp only [Sys.producerNext, hpc]
      split <;> exact ⟨rfl, rfl, rfl, le_rfl, List.prefix_rfl⟩
  | idle | pubHeader m | pubHead m | pubEntry m head | pubWaiters m head | pubWake m head
  | pubEventfd m head | pubTail m head | pubSetLatch | pubFull =>
      simp only [Sys.producerNext, hpc]
      exact ⟨rfl, rfl, rfl, le_rfl, List.prefix_rfl⟩

theorem ProducerMove.frame (hmove : ProducerMove b s s') : SameConsumer s s' := by
  cases hmove with
  | acquire w hpc =>
      unfold Sys.startAcquire
      split_ifs <;> exact ⟨rfl, rfl, rfl, le_rfl, List.prefix_rfl⟩
  | write offset byte hpc =>
      unfold Sys.runWrite payloadWrite
      split_ifs <;> exact ⟨rfl, rfl, rfl, le_rfl, List.prefix_rfl⟩
  | publish i n t hpc =>
      unfold Sys.startPublish
      split_ifs
      · exact ⟨rfl, rfl, rfl, le_rfl, List.prefix_rfl⟩
      · exact ⟨rfl, rfl, rfl, le_rfl, List.prefix_rfl⟩
      · exact ⟨rfl, rfl, rfl, le_rfl, List.prefix_append _ _⟩
  | abort hpc =>
      unfold Sys.runAbort rbAbort
      split_ifs <;> exact ⟨rfl, rfl, rfl, le_rfl, List.prefix_rfl⟩
  | eventfdFails m head hpc hfd => exact ⟨rfl, rfl, rfl, le_rfl, List.prefix_rfl⟩
  | next => exact producerNext_frame b s

theorem crossLowE_frame (s : Sys) (oldCount newCount : UInt32) :
    SameProducer s (s.crossLowE oldCount newCount) := by
  dsimp only [Sys.crossLowE]
  split_ifs <;> exact ⟨rfl, rfl, rfl, rfl, le_rfl⟩

theorem consumerStep_frame (hnext : s.consumerStep b = some s') : SameProducer s s' := by
  cases hpc : s.c.pc with
  | idle | waitStart _ _ | waitNow _ | waitLate _ =>
      simp [Sys.consumerStep, hpc] at hnext
  | conEntry tail =>
      simp only [Sys.consumerStep, hpc] at hnext
      split at hnext
      · cases hnext
      · obtain rfl := Option.some.inj hnext
        exact ⟨rfl, rfl, rfl, rfl, le_rfl⟩
      · obtain rfl := Option.some.inj hnext
        exact ⟨rfl, rfl, rfl, rfl, le_rfl⟩
  | relStore tail =>
      simp only [Sys.consumerStep, hpc] at hnext
      obtain rfl := Option.some.inj hnext
      exact ⟨rfl, rfl, rfl, rfl, Nat.le_succ _⟩
  | relLowE oldCount newCount =>
      simp only [Sys.consumerStep, hpc] at hnext
      obtain rfl := Option.some.inj hnext
      exact crossLowE_frame s oldCount newCount
  | waitAsleep w =>
      simp only [Sys.consumerStep, hpc, Option.ite_none_left_eq_some] at hnext
      obtain rfl := Option.some.inj hnext.2
      exact ⟨rfl, rfl, rfl, rfl, le_rfl⟩
  | conHead tail | conStale tail i | waitCount e t | waitFutex w | fdRead =>
      simp only [Sys.consumerStep, hpc] at hnext
      obtain rfl := Option.some.inj hnext
      split <;> exact ⟨rfl, rfl, rfl, rfl, le_rfl⟩
  | relStamp i tail =>
      simp only [Sys.consumerStep, hpc] at hnext
      obtain rfl := Option.some.inj hnext
      exact ⟨rfl, rfl, rfl, Store.entries_recycle tail, le_rfl⟩
  | conTail | conHeader i | relTail i | relClear o n | relLowD o n
  | relClearUp o n | relFireE | waitRaise w | waitCheck w | waitLower r =>
      simp only [Sys.consumerStep, hpc] at hnext
      obtain rfl := Option.some.inj hnext
      exact ⟨rfl, rfl, rfl, rfl, le_rfl⟩

theorem clockStep_frame {now : UInt64} (hnext : s.clockStep b now = some s') :
    SameProducer s s' := by
  unfold Sys.clockStep at hnext
  split at hnext
  · obtain rfl := Option.some.inj hnext
    exact ⟨rfl, rfl, rfl, rfl, le_rfl⟩
  · split_ifs at hnext <;> obtain rfl := Option.some.inj hnext <;>
      exact ⟨rfl, rfl, rfl, rfl, le_rfl⟩
  · obtain rfl := Option.some.inj hnext
    exact ⟨rfl, rfl, rfl, rfl, le_rfl⟩
  · cases hnext

theorem futexStep_frame {result : FutexResult} (hnext : s.futexStep result = some s') :
    SameProducer s s' := by
  unfold Sys.futexStep at hnext
  split at hnext
  case h_3 => cases hnext
  all_goals
    obtain rfl := Option.some.inj hnext
    exact ⟨rfl, rfl, rfl, rfl, le_rfl⟩

theorem ConsumerMove.frame (hmove : ConsumerMove b s s') : SameProducer s s' := by
  cases hmove with
  | consume hpc =>
      unfold Sys.startConsume
      split_ifs <;> exact ⟨rfl, rfl, rfl, rfl, le_rfl⟩
  | release i hpc =>
      unfold Sys.startRelease
      split_ifs <;> exact ⟨rfl, rfl, rfl, rfl, le_rfl⟩
  | wait e t hpc =>
      unfold Sys.startWait
      split_ifs <;> exact ⟨rfl, rfl, rfl, rfl, le_rfl⟩
  | drainFd hpc =>
      unfold Sys.startDrainFd
      split_ifs <;> exact ⟨rfl, rfl, rfl, rfl, le_rfl⟩
  | read offset hpc | notifyValue hpc => exact ⟨rfl, rfl, rfl, rfl, le_rfl⟩
  | next hnext => exact consumerStep_frame hnext
  | clock now hnext => exact clockStep_frame hnext
  | futexReturns r hnext => exact futexStep_frame hnext

end Threads

end RingBuff
