import RingBuff.Backpressure.Interleaved
import RingBuff.Foundation.Latch
import RingBuff.Threads.Tuning

/-! # One `on_full` per episode

The two threads drive `full_latch` as a latch that announces being set: the
producer loads it, stores 1 and calls `on_full` in three steps, and the consumer
stores 0 between any of them. This holds for every interleaving and for thresholds
that change all the time, because the producer is the only one that sets the latch
and because a release can only cross a threshold downwards.
-/

namespace RingBuff.Threads

variable {b : Build} {s s' : Sys}

/-- What a move does to `full_latch`. The upward branch of `rb_release` has no event
here: it is shown not to be taken. -/
def latchEvent (s : Sys) : Move → Option Latch.Event
  | .act .producer =>
      match s.p.pc with
      | .pubSetLatch => some .set
      | .pubFull => some .announce
      | _ => none
  | .act .consumer => if s.c.pc.clearing then some .clear else none
  | _ => none

/-- The value of `full_latch` after such a move. -/
def storedLatch (old : UInt32) : Option Latch.Event → UInt32
  | some .set => 1
  | some .clear => 0
  | some .announce | none => old

/-- The two threads with changing thresholds, and what happens to the latch. -/
def tuned (b : Build) : Automaton Sys Move (Option Latch.Event) where
  step s m := (tunedStep b s m).map fun s' => (latchEvent s m, s')

def Sys.latchState (s : Sys) : Latch.State where
  on := s.rb.fullLatch ≠ 0
  due := s.p.pc = .pubFull

/-- How often `on_full` has run. -/
def Sys.fulls (s : Sys) : Nat := (eventsOf s.log).count .full

/-- A step of the system as a step of the latch. -/
structure LatchStep (s s' : Sys) (event : Option Latch.Event) : Prop where
  stored : s'.rb.fullLatch = storedLatch s.rb.fullLatch event
  accepted : Latch.acceptor.step s.latchState event = some ((), s'.latchState)
  /-- What the producer loaded before it sets the latch is still true. -/
  ready : s'.p.pc = .pubSetLatch → s'.rb.fullLatch = 0
  fulls : s'.fulls = s.fulls + if event = some .announce ∧ s.rb.cb.onFull then 1 else 0

/-! ## The producer -/

/-- A step of the producer away from the latch. -/
theorem LatchStep.of_producer (hlatch : s'.rb.fullLatch = s.rb.fullLatch)
    (hpc : s.p.pc ≠ .pubFull) (hpc' : s'.p.pc ≠ .pubFull) (hset : s'.p.pc ≠ .pubSetLatch)
    (hfulls : s'.fulls = s.fulls) : LatchStep s s' none where
  stored := hlatch
  accepted := by
    rw [Latch.step_none]
    simp [Sys.latchState, hlatch, hpc, hpc']
  ready hready := absurd hready hset
  fulls := hfulls

theorem Sys.fulls_of_log (hlog : eventsOf s'.log = eventsOf s.log) : s'.fulls = s.fulls := by
  rw [Sys.fulls, Sys.fulls, hlog]

/-- Another callback does not count. -/
theorem Sys.fulls_callback (s : Sys) (installed : Bool) {event : Event} (hne : event ≠ .full) :
    (s.callback installed event).fulls = s.fulls := by
  cases installed <;> simp [Sys.fulls, fire, hne]

theorem finishAcquire_latchStep (hpc : s.p.pc ≠ .pubFull) (b : Build) (wantedLen head : UInt32) :
    LatchStep s (s.finishAcquire b wantedLen head) none := by
  dsimp only [Sys.finishAcquire, reserve]
  split_ifs <;>
    exact .of_producer rfl hpc (by rintro ⟨⟩) (by rintro ⟨⟩)
      (Sys.fulls_of_log (eventsOf_reply _ _))

theorem producerNext_latchStep (hready : s.p.pc = .pubSetLatch → s.rb.fullLatch = 0) :
    LatchStep s (s.producerNext b) (latchEvent s (.act .producer)) := by
  cases hpc : s.p.pc with
  | pubLatch =>
      simp only [Sys.producerNext, latchEvent, hpc]
      split_ifs with hzero
      · refine ⟨rfl, ?_, fun _ => hzero, rfl⟩
        rw [Latch.step_none]
        simp [Sys.latchState, Sys.goP, hpc, hzero]
      · exact .of_producer rfl (by simp [hpc]) (by rintro ⟨⟩) (by rintro ⟨⟩)
          (Sys.fulls_of_log (eventsOf_reply _ _))
  | pubSetLatch =>
      simp only [Sys.producerNext, latchEvent, hpc]
      refine ⟨rfl, ?_, by rintro ⟨⟩, rfl⟩
      rw [Latch.step_set]
      simp [Sys.latchState, Sys.goP, hpc, hready hpc]
  | pubFull =>
      simp only [Sys.producerNext, latchEvent, hpc]
      refine ⟨rfl, ?_, by rintro ⟨⟩, ?_⟩
      · rw [Latch.step_announce]
        simp [Sys.latchState, Sys.callback, Sys.returnP, hpc]
      · cases hon : s.rb.cb.onFull <;> simp [Sys.fulls, Sys.returnP, fire]
  | acqHead w =>
      simp only [Sys.producerNext, latchEvent, hpc]
      split_ifs
      · exact .of_producer rfl (by simp [hpc]) (by rintro ⟨⟩) (by rintro ⟨⟩) rfl
      · exact finishAcquire_latchStep (by simp [hpc]) b w s.rb.head
  | acqTail w head =>
      simp only [Sys.producerNext, latchEvent, hpc]
      split_ifs
      · exact .of_producer rfl (by simp [hpc]) (by rintro ⟨⟩) (by rintro ⟨⟩)
          (Sys.fulls_of_log (eventsOf_reply _ _))
      · have hfinish : LatchStep s.refreshTail (s.refreshTail.finishAcquire b w head) none :=
          finishAcquire_latchStep (by simp [Sys.refreshTail, hpc]) b w head
        exact ⟨hfinish.stored, hfinish.accepted, hfinish.ready, hfinish.fulls⟩
  | pubAdded m count =>
      simp only [Sys.producerNext, latchEvent, hpc]
      have hadded := s.fulls_callback s.rb.cb.onSlotAdded
        (show Event.slotAdded m.slotIndex m.len m.truncated ≠ .full by rintro ⟨⟩)
      split_ifs
      · exact .of_producer rfl (by simp [hpc]) (by rintro ⟨⟩) (by rintro ⟨⟩) hadded
      · exact .of_producer rfl (by simp [hpc]) (by rintro ⟨⟩) (by rintro ⟨⟩)
          ((Sys.fulls_of_log (eventsOf_reply _ _)).trans hadded)
  | pubStore m head | pubWaiters m head =>
      simp only [Sys.producerNext, latchEvent, hpc]
      split_ifs <;>
        exact .of_producer rfl (by simp [hpc]) (by rintro ⟨⟩) (by rintro ⟨⟩) rfl
  | idle =>
      simp only [Sys.producerNext, latchEvent, hpc]
      exact .of_producer rfl (by simp [hpc]) (by simp [hpc]) (by simp [hpc]) rfl
  | pubHeader m | pubHead m | pubEntry m head | pubWake m head | pubEventfd m head
  | pubTail m head =>
      simp only [Sys.producerNext, latchEvent, hpc]
      exact .of_producer rfl (by simp [hpc]) (by rintro ⟨⟩) (by rintro ⟨⟩) rfl

theorem producer_latchStep {a : Act} (ha : a.byProducer = true)
    (hstep : step b s a = some s') (hready : s.p.pc = .pubSetLatch → s.rb.fullLatch = 0) :
    LatchStep s s' (latchEvent s (.act a)) := by
  cases a <;> simp only [Act.byProducer, Bool.false_eq_true] at ha <;>
    simp only [step, Option.ite_none_right_eq_some, Option.ite_none_left_eq_some,
      Option.some.injEq] at hstep
  case producer =>
    obtain ⟨-, rfl⟩ := hstep
    exact producerNext_latchStep hready
  case acquire w =>
    obtain ⟨hpc, rfl⟩ := hstep
    unfold Sys.startAcquire
    split_ifs
    · exact .of_producer rfl (by simp [hpc]) (by rintro ⟨⟩) (by rintro ⟨⟩)
        (Sys.fulls_of_log (eventsOf_reply _ _))
    · exact .of_producer rfl (by simp [hpc]) (by rintro ⟨⟩) (by rintro ⟨⟩)
        (Sys.fulls_of_log (eventsOf_reply _ _))
    · exact .of_producer rfl (by simp [hpc]) (by rintro ⟨⟩) (by rintro ⟨⟩) rfl
  case write offset byte =>
    obtain ⟨hpc, rfl⟩ := hstep
    unfold Sys.runWrite payloadWrite
    split_ifs <;>
      exact .of_producer rfl (by simp [hpc]) (by rintro ⟨⟩) (by rintro ⟨⟩)
        (Sys.fulls_of_log (eventsOf_reply _ _))
  case publishEx i n t =>
    obtain ⟨hpc, rfl⟩ := hstep
    unfold Sys.startPublish
    split_ifs
    · exact .of_producer rfl (by simp [hpc]) (by rintro ⟨⟩) (by rintro ⟨⟩)
        (Sys.fulls_of_log (eventsOf_reply _ _))
    · exact .of_producer rfl (by simp [hpc]) (by rintro ⟨⟩) (by rintro ⟨⟩)
        (Sys.fulls_of_log (eventsOf_reply _ _))
    · exact .of_producer rfl (by simp [hpc]) (by rintro ⟨⟩) (by rintro ⟨⟩) rfl
  case abort =>
    obtain ⟨hpc, rfl⟩ := hstep
    unfold Sys.runAbort rbAbort
    split_ifs <;>
      exact .of_producer rfl (by simp [hpc]) (by rintro ⟨⟩) (by rintro ⟨⟩)
        (Sys.fulls_of_log (eventsOf_reply _ _))
  case eventfdFails =>
    split at hstep
    next m head hpc =>
      simp only [Option.ite_none_left_eq_some, Option.some.injEq] at hstep
      obtain ⟨-, rfl⟩ := hstep
      exact .of_producer rfl (by simp [hpc]) (by rintro ⟨⟩) (by rintro ⟨⟩) rfl
    next => cases hstep

/-! ## The consumer -/

/-- The consumer leaves the latch alone and does not run `on_full`. -/
structure Calm (s s' : Sys) : Prop where
  latch : s'.rb.fullLatch = s.rb.fullLatch
  fulls : s'.fulls = s.fulls

theorem Calm.of_log (hlatch : s'.rb.fullLatch = s.rb.fullLatch)
    (hlog : eventsOf s'.log = eventsOf s.log) : Calm s s' :=
  ⟨hlatch, Sys.fulls_of_log hlog⟩

theorem consumerStep_calm (hclear : s.c.pc.clearing = false) (hup : s.c.pc.clearingUp = false)
    (hnext : s.consumerStep b = some s') : Calm s s' := by
  cases hpc : s.c.pc with
  | idle | waitStart _ _ | waitNow _ | waitLate _ =>
      simp [Sys.consumerStep, hpc] at hnext
  | relClear o n => simp [ConsumerPc.clearing, hpc] at hclear
  | relClearUp o n => simp [ConsumerPc.clearingUp, hpc] at hup
  | relLowD o n =>
      simp only [Sys.consumerStep, hpc] at hnext
      obtain rfl := Option.some.inj hnext
      exact ⟨rfl, s.fulls_callback s.rb.cb.onLowD (by rintro ⟨⟩)⟩
  | relFireE =>
      simp only [Sys.consumerStep, hpc] at hnext
      obtain rfl := Option.some.inj hnext
      exact ⟨rfl, (Sys.fulls_of_log (eventsOf_reply _ _)).trans
        (s.fulls_callback s.rb.cb.onLowE (by rintro ⟨⟩))⟩
  | relLowE o n =>
      simp only [Sys.consumerStep, hpc, Sys.crossLowE] at hnext
      obtain rfl := Option.some.inj hnext
      split_ifs
      · exact .of_log rfl rfl
      · exact .of_log rfl (eventsOf_reply _ _)
      · exact .of_log rfl (eventsOf_reply _ _)
  | conEntry tail =>
      simp only [Sys.consumerStep, hpc] at hnext
      split at hnext
      · cases hnext
      · obtain rfl := Option.some.inj hnext
        exact .of_log rfl (eventsOf_reply _ _)
      · obtain rfl := Option.some.inj hnext
        exact .of_log rfl rfl
  | waitAsleep w =>
      simp only [Sys.consumerStep, hpc, Option.ite_none_left_eq_some] at hnext
      obtain rfl := Option.some.inj hnext.2
      exact .of_log rfl rfl
  | conHead tail | conStale tail i =>
      simp only [Sys.consumerStep, hpc] at hnext
      obtain rfl := Option.some.inj hnext
      split_ifs
      · exact .of_log rfl (eventsOf_reply _ _)
      · exact .of_log rfl rfl
  | fdRead =>
      simp only [Sys.consumerStep, hpc] at hnext
      obtain rfl := Option.some.inj hnext
      split_ifs
      · exact .of_log rfl rfl
      · exact .of_log rfl (eventsOf_reply _ _)
  | waitCount e t =>
      simp only [Sys.consumerStep, hpc] at hnext
      obtain rfl := Option.some.inj hnext
      split_ifs
      · exact .of_log rfl (eventsOf_waited _ _)
      · exact .of_log rfl rfl
  | waitFutex w =>
      simp only [Sys.consumerStep, hpc] at hnext
      obtain rfl := Option.some.inj hnext
      split_ifs <;> exact .of_log rfl rfl
  | waitLower r =>
      simp only [Sys.consumerStep, hpc] at hnext
      obtain rfl := Option.some.inj hnext
      exact .of_log rfl (eventsOf_waited _ _)
  | conHeader i =>
      simp only [Sys.consumerStep, hpc] at hnext
      obtain rfl := Option.some.inj hnext
      exact .of_log rfl (eventsOf_reply _ _)
  | conTail | relTail i | relStamp i tail | relStore tail | waitRaise w | waitCheck w =>
      simp only [Sys.consumerStep, hpc] at hnext
      obtain rfl := Option.some.inj hnext
      exact .of_log rfl rfl

theorem consumer_calm {a : Act} (ha : a.byProducer = false)
    (hclear : a = .consumer → s.c.pc.clearing = false) (hup : s.c.pc.clearingUp = false)
    (hstep : step b s a = some s') : Calm s s' := by
  cases a <;> simp only [Act.byProducer, Bool.true_eq_false] at ha <;>
    simp only [step, Option.ite_none_right_eq_some, Option.some.injEq] at hstep
  case consumer => exact consumerStep_calm (hclear rfl) hup hstep
  case consume =>
    obtain ⟨-, rfl⟩ := hstep
    unfold Sys.startConsume
    split_ifs
    · exact .of_log rfl (eventsOf_reply _ _)
    · exact .of_log rfl (eventsOf_reply _ _)
    · exact .of_log rfl rfl
  case release i =>
    obtain ⟨-, rfl⟩ := hstep
    unfold Sys.startRelease
    split_ifs
    · exact .of_log rfl (eventsOf_reply _ _)
    · exact .of_log rfl (eventsOf_reply _ _)
    · exact .of_log rfl rfl
  case wait e t =>
    obtain ⟨-, rfl⟩ := hstep
    unfold Sys.startWait
    split_ifs
    · exact .of_log rfl (eventsOf_waited _ _)
    · exact .of_log rfl rfl
  case drainFd =>
    obtain ⟨-, rfl⟩ := hstep
    unfold Sys.startDrainFd
    split_ifs
    · exact .of_log rfl (eventsOf_reply _ _)
    · exact .of_log rfl rfl
  case read offset | notifyValue =>
    obtain ⟨-, rfl⟩ := hstep
    exact .of_log rfl (eventsOf_reply _ _)
  case clock now =>
    unfold Sys.clockStep at hstep
    split at hstep
    case h_4 => cases hstep
    all_goals
      split_ifs at hstep <;> obtain rfl := Option.some.inj hstep <;> exact .of_log rfl rfl
  case futexReturns r =>
    unfold Sys.futexStep at hstep
    split at hstep
    case h_3 => cases hstep
    all_goals
      obtain rfl := Option.some.inj hstep
      exact .of_log rfl rfl

/-- A calm step that leaves the producer where it is. -/
theorem Calm.latchStep (hcalm : Calm s s') (hside : s'.p = s.p)
    (hready : s.p.pc = .pubSetLatch → s.rb.fullLatch = 0) : LatchStep s s' none where
  stored := hcalm.latch
  accepted := by
    rw [Latch.step_none]
    simp [Sys.latchState, hcalm.latch, hside]
  ready := by
    rw [hside, hcalm.latch]
    exact hready
  fulls := hcalm.fulls

theorem consumer_latchStep {a : Act} (ha : a.byProducer = false)
    (hup : s.c.pc.clearingUp = false) (hstep : step b s a = some s')
    (hready : s.p.pc = .pubSetLatch → s.rb.fullLatch = 0) :
    LatchStep s s' (latchEvent s (.act a)) := by
  have hside := (step_consumerMove ha hstep).frame.side
  by_cases hclear : a = .consumer ∧ s.c.pc.clearing = true
  · obtain ⟨rfl, hpc⟩ := hclear
    obtain ⟨o, n, heq⟩ : ∃ o n, s.c.pc = .relClear o n := by
      cases hcase : s.c.pc <;> simp [ConsumerPc.clearing, hcase] at hpc
      exact ⟨_, _, rfl⟩
    simp only [step, Sys.consumerStep, heq] at hstep
    obtain rfl := Option.some.inj hstep
    simp only [latchEvent, hpc, ↓reduceIte]
    exact ⟨rfl, rfl, fun _ => rfl, rfl⟩
  · have hcalm := consumer_calm ha
      (fun heq => Bool.not_eq_true _ ▸ fun hpc => hclear ⟨heq, hpc⟩) hup hstep
    have hevent : latchEvent s (.act a) = none := by
      cases a <;> simp only [Act.byProducer, Bool.true_eq_false] at ha <;>
        first | rfl | exact if_neg fun hpc => hclear ⟨rfl, hpc⟩
    rw [hevent]
    exact hcalm.latchStep hside hready

/-! ## Crossings -/

/-- At the stores of `rb_release` to the latch. -/
def ConsumerPc.crossing (pc : ConsumerPc) : Bool := pc.clearing || pc.clearingUp

/-- Only the store of `tail` leads there. -/
theorem consumerStep_crossing (hnext : s.consumerStep b = some s')
    (hcross : s'.c.pc.crossing = true) :
    ∃ tail, s.c.pc = .relStore tail ∧
      s'.c.pc = s.crossing (s.rb.cachedHead - (tail + 1) + 1) (s.rb.cachedHead - (tail + 1)) := by
  cases hpc : s.c.pc with
  | relStore tail =>
      simp only [Sys.consumerStep, hpc] at hnext
      obtain rfl := Option.some.inj hnext
      exact ⟨tail, rfl, rfl⟩
  | idle | waitStart _ _ | waitNow _ | waitLate _ =>
      simp [Sys.consumerStep, hpc] at hnext
  | conEntry tail =>
      simp only [Sys.consumerStep, hpc] at hnext
      split at hnext
      · cases hnext
      · obtain rfl := Option.some.inj hnext
        cases hcross
      · obtain rfl := Option.some.inj hnext
        split at hcross <;> cases hcross
  | relLowE o n =>
      simp only [Sys.consumerStep, hpc, Sys.crossLowE] at hnext
      obtain rfl := Option.some.inj hnext
      split_ifs at hcross <;> cases hcross
  | waitAsleep w =>
      simp only [Sys.consumerStep, hpc, Option.ite_none_left_eq_some] at hnext
      obtain rfl := Option.some.inj hnext.2
      cases hcross
  | fdRead =>
      simp only [Sys.consumerStep, hpc] at hnext
      obtain rfl := Option.some.inj hnext
      split_ifs at hcross
      · simp [ConsumerPc.crossing, ConsumerPc.clearing, ConsumerPc.clearingUp, hpc] at hcross
      · cases hcross
  | conTail | conHead tail | conStale tail i | relTail i | waitCount e t | waitFutex w
  | waitCheck w =>
      simp only [Sys.consumerStep, hpc] at hnext
      obtain rfl := Option.some.inj hnext
      split at hcross <;> cases hcross
  | conHeader i | relStamp i tail | relClear o n | relLowD o n | relClearUp o n | relFireE
  | waitRaise w | waitLower r =>
      simp only [Sys.consumerStep, hpc] at hnext
      obtain rfl := Option.some.inj hnext
      cases hcross

theorem step_crossing {a : Act} (hstep : step b s a = some s') (hcross : s'.c.pc.crossing = true) :
    s'.c.pc = s.c.pc ∨ ∃ tail, s.c.pc = .relStore tail ∧
      s'.c.pc = s.crossing (s.rb.cachedHead - (tail + 1) + 1) (s.rb.cachedHead - (tail + 1)) := by
  rcases step_moves hstep with hmove | hmove
  · exact Or.inl (congrArg ConsumerSide.pc hmove.frame.side)
  cases hmove with
  | next hnext => exact Or.inr (consumerStep_crossing hnext hcross)
  | consume hpc =>
      unfold Sys.startConsume at hcross
      split_ifs at hcross <;> cases hcross
  | release i hpc =>
      unfold Sys.startRelease at hcross
      split_ifs at hcross <;> cases hcross
  | wait e t hpc =>
      unfold Sys.startWait at hcross ⊢
      split_ifs at hcross ⊢
      · exact Or.inl rfl
      · cases hcross
  | drainFd hpc =>
      unfold Sys.startDrainFd at hcross
      split_ifs at hcross <;> cases hcross
  | read offset hpc | notifyValue hpc => cases hcross
  | clock now hnext =>
      unfold Sys.clockStep at hnext
      split at hnext
      case h_4 => cases hnext
      all_goals
        split_ifs at hnext <;> obtain rfl := Option.some.inj hnext <;>
          cases hcross
  | futexReturns r hnext =>
      unfold Sys.futexStep at hnext
      split at hnext
      case h_3 => cases hnext
      all_goals
        obtain rfl := Option.some.inj hnext
        cases r <;> dsimp only at hcross <;> (try split_ifs at hcross) <;> cases hcross

/-- A release never crosses a threshold upwards. -/
theorem step_down {a : Act} (hok : Counted s) (hdown : s.c.pc.clearingUp = false)
    (hstep : step b s a = some s') : s'.c.pc.clearingUp = false := by
  by_contra hup
  have hup := Bool.eq_true_of_not_eq_false hup
  rcases step_crossing hstep (by rw [ConsumerPc.crossing, hup, Bool.or_true]) with
    hsame | ⟨tail, hpc, hnext⟩
  · rw [hsame, hdown] at hup
    cases hup
  · have hlocals := hok.consumer.locals
    simp only [ConsumerLocals, hpc] at hlocals
    obtain ⟨hactive, rfl⟩ := hlocals
    rw [hnext, (crossing_eq hok hactive).1] at hup
    cases hup

theorem crossing_of_lowD_zero (hzero : s.rb.lowD = 0) (oldCount newCount : UInt32) :
    s.crossing oldCount newCount = .relLowE oldCount newCount := by
  simp [Sys.crossing, hzero, belowLow, below]

/-- Without a threshold nothing is crossed. -/
theorem step_not_clearing {a : Act} (hzero : s.rb.lowD = 0) (hclear : s.c.pc.clearing = false)
    (hstep : step b s a = some s') : s'.c.pc.clearing = false := by
  by_contra hcross
  have hcross := Bool.eq_true_of_not_eq_false hcross
  rcases step_crossing hstep (by rw [ConsumerPc.crossing, hcross, Bool.true_or]) with
    hsame | ⟨tail, -, hnext⟩
  · rw [hsame, hclear] at hcross
    cases hcross
  · rw [hnext, crossing_of_lowD_zero hzero] at hcross
    cases hcross

/-! ## Runs -/

/-- What holds in every state of a run with changing thresholds. -/
structure Latching (s : Sys) : Prop where
  counted : Counted s
  down : s.c.pc.clearingUp = false
  ready : s.p.pc = .pubSetLatch → s.rb.fullLatch = 0

/-- One step, on the system and on the latch. -/
theorem Latching.step (hinv : Latching s) {m : Move} (hstep : tunedStep b s m = some s') :
    Latching s' ∧ LatchStep s s' (latchEvent s m) := by
  obtain ⟨hok, hdown, hready⟩ := hinv
  have hok' := tunedStep_counted hok hstep
  rcases tunedStep_cases hstep with ⟨a, rfl, hact⟩ | ⟨p, rfl, -, rfl | rfl⟩ | ⟨p, rfl, -, rfl | rfl⟩
  · have hlatch : LatchStep s s' (latchEvent s (.act a)) := by
      cases ha : a.byProducer with
      | true => exact producer_latchStep ha hact hready
      | false => exact consumer_latchStep ha hdown hact hready
    exact ⟨⟨hok', step_down hok hdown hact, hlatch.ready⟩, hlatch⟩
  all_goals exact ⟨⟨hok', hdown, hready⟩, ⟨rfl, rfl, hready, rfl⟩⟩

theorem tuned_step_eq_some {m : Move} {event : Option Latch.Event} :
    (tuned b).step s m = some (event, s') ↔ tunedStep b s m = some s' ∧ latchEvent s m = event := by
  simp only [tuned, Option.map_eq_some_iff, Prod.mk.injEq]
  constructor
  · rintro ⟨t, hstep, hevent, rfl⟩
    exact ⟨hstep, hevent⟩
  · rintro ⟨hstep, hevent⟩
    exact ⟨s', hstep, hevent, rfl⟩

section Runs

variable {addr scratch scratchSize : BitVec b.sizeBits} {cfg : Config} {before : Store} {rb : Rb}
  {moves : List Move} {events : List (Option Latch.Event)}

theorem start_latching (hacc : Accepted b addr cfg scratch scratchSize before rb) :
    Latching (start rb) :=
  ⟨start_counted hacc, rfl, by rintro ⟨⟩⟩

theorem tunedStep_cb {m : Move} (hstep : tunedStep b s m = some s') : s'.rb.cb = s.rb.cb := by
  rcases tunedStep_cases hstep with ⟨a, -, hact⟩ | ⟨p, -, -, rfl | rfl⟩ | ⟨p, -, -, rfl | rfl⟩
  · have hset := step_settings hact
    simp only [Rb.settings, Prod.mk.injEq] at hset
    exact hset.2.2.2.2.2.1
  all_goals rfl

/-- The events of a run are accepted by the latch, and the log shows the
announcements. -/
theorem run_latching (hacc : Accepted b addr cfg scratch scratchSize before rb)
    (hrun : (tuned b).run (start rb) moves = some (events, s)) :
    Latching s ∧ (∃ units, Latch.acceptor.run {} events = some (units, s.latchState)) ∧
      s.rb.cb = rb.cb ∧
      s.fulls = if rb.cb.onFull then events.count (some .announce) else 0 := by
  refine (tuned b).run_invariant
    (fun seen s => Latching s ∧
      (∃ units, Latch.acceptor.run {} seen = some (units, s.latchState)) ∧ s.rb.cb = rb.cb ∧
      s.fulls = if rb.cb.onFull then seen.count (some .announce) else 0) hrun ?_ [] ?_
  · rintro seen t m event t' - ⟨hinv, ⟨units, haccept⟩, hcb, hfulls⟩ hmove
    obtain ⟨hstep, rfl⟩ := tuned_step_eq_some.mp hmove
    obtain ⟨hinv', hlatch⟩ := hinv.step hstep
    have hone : Latch.acceptor.run t.latchState [latchEvent t m] = some ([()], t'.latchState) :=
      Latch.acceptor.run_cons_eq_some.mpr ⟨(), _, [], hlatch.accepted, rfl, rfl⟩
    refine ⟨hinv', ⟨_, Latch.acceptor.run_append_eq_some haccept hone⟩,
      (tunedStep_cb hstep).trans hcb, ?_⟩
    rw [hlatch.fulls, hfulls, hcb, List.count_append, List.count_singleton]
    cases rb.cb.onFull <;> simp
  · refine ⟨start_latching hacc, ⟨[], ?_⟩, rfl, ?_⟩
    · rw [Latch.acceptor.run_nil, hacc.eq]
      rfl
    · simp [start, Sys.fulls, eventsOf]

/-- If `low_d` is zero and stays so, the latch is never cleared. -/
theorem run_not_clear (hzero : rb.lowD = 0)
    (hmoves : ∀ percent, Move.setLowD percent ∈ moves → percent = 0)
    (hrun : (tuned b).run (start rb) moves = some (events, s)) : some .clear ∉ events := by
  refine ((tuned b).run_invariant
    (fun seen s => some .clear ∉ seen ∧ s.rb.lowD = 0 ∧ s.c.pc.clearing = false)
    hrun ?_ [] ⟨List.not_mem_nil, hzero, rfl⟩).1
  rintro seen t m event t' hmem ⟨hseen, hlow, hclear⟩ hmove
  obtain ⟨hstep, rfl⟩ := tuned_step_eq_some.mp hmove
  have hevent : latchEvent t m ≠ some .clear := by
    unfold latchEvent
    split
    · split <;> rintro ⟨⟩
    · rw [hclear]
      rintro ⟨⟩
    · rintro ⟨⟩
  refine ⟨?_, ?_⟩
  · rw [List.mem_append, List.mem_singleton, not_or]
    exact ⟨hseen, hevent.symm⟩
  rcases tunedStep_cases hstep with
    ⟨a, -, hact⟩ | ⟨p, rfl, -, rfl | rfl⟩ | ⟨p, -, -, rfl | rfl⟩
  · have hset := step_settings hact
    simp only [Rb.settings, Prod.mk.injEq] at hset
    exact ⟨hset.2.2.1.trans hlow, step_not_clearing hlow hclear hact⟩
  · exact ⟨hmoves p hmem, hclear⟩
  all_goals exact ⟨hlow, hclear⟩

end Runs

/-- `on_full` along a run of the two threads that ends in `s`, with the events
`events` of the latch. -/
structure OncePerEpisode (b : Build) (rb : Rb) (moves : List Move)
    (events : List (Option Latch.Event)) (s : Sys) : Prop where
  /-- The occupancy `rb_publish_ex` computed is `head - cached_tail` until it
  returns; it is at most `limit`, and it is `limit` when `on_full` is about to run. -/
  found : ∀ m count, s.p.pc = .pubAdded m count →
    count = s.rb.head - s.rb.cachedTail ∧ count ≤ s.rb.limit
  exact : s.p.pc = .pubLatch ∨ s.p.pc = .pubSetLatch ∨ s.p.pc = .pubFull →
    s.rb.head - s.rb.cachedTail = s.rb.limit
  /-- Between two settings the consumer cleared the latch in the downward branch,
  and after a setting `on_full` is called once before the next. -/
  between : ∀ before middle after,
    events = before ++ some .set :: (middle ++ some .set :: after) →
    some .clear ∈ middle ∧ (some .set ∉ middle → middle.count (some .announce) = 1)
  announced : events.count (some .announce) + (decide (s.p.pc = .pubFull)).toNat =
    events.count (some .set)
  /-- The calls of `on_full`, if it is installed, are the ones in the log. -/
  fulls : s.fulls = if rb.cb.onFull then events.count (some .announce) else 0
  once : rb.lowD = 0 → (∀ percent, Move.setLowD percent ∈ moves → percent = 0) →
    events.count (some .set) ≤ 1 ∧ s.fulls ≤ 1
  /-- The upward branches of `rb_release` are not taken. -/
  not_upD : s.c.pc.clearingUp = false
  not_upE : ∀ o n, s.c.pc = .relLowE o n →
    (belowLow o s.rb.limit s.rb.lowE && !belowLow n s.rb.limit s.rb.lowE) = false
  /-- The latch is stored at its events and nowhere else. -/
  stored : ∀ m s', tunedStep b s m = some s' →
    s'.rb.fullLatch = storedLatch s.rb.fullLatch (latchEvent s m)

/-- The occupancy `rb_publish_ex` computed. -/
theorem Counted.found (hok : Counted s) :
    s.rb.head - s.rb.cachedTail = UInt32.ofNat (s.p.published - s.p.knownTail) ∧
      s.p.published - s.p.knownTail ≤ s.rb.limit.toNat := by
  have hroom := hok.producer.room
  refine ⟨?_, by omega⟩
  rw [hok.producer.head, hok.producer.cachedTail,
    UInt32.ofNat_sub hok.producer.knownTail_le_published]

theorem Counted.exact (hok : Counted s)
    (hpc : s.p.pc = .pubLatch ∨ s.p.pc = .pubSetLatch ∨ s.p.pc = .pubFull) :
    s.rb.head - s.rb.cachedTail = s.rb.limit := by
  obtain ⟨heq, hle⟩ := hok.found
  have hlocals : s.rb.limit.toNat ≤ s.p.published - s.p.knownTail := by
    have hlocals := hok.producer.locals
    rcases hpc with hpc | hpc | hpc <;> simpa only [ProducerLocals, hpc] using hlocals
  rw [heq, le_antisymm hle hlocals, UInt32.ofNat_toNat]

/-- A release does not cross `low_e` upwards either. -/
theorem Counted.not_upE (hok : Counted s) {o n : UInt32} (hpc : s.c.pc = .relLowE o n)
    (percent : UInt32) :
    (belowLow o s.rb.limit percent && !belowLow n s.rb.limit percent) = false := by
  have hlocals := hok.consumer.locals
  simp only [ConsumerLocals, hpc] at hlocals
  obtain ⟨rfl, rfl⟩ := hlocals
  have hle := hok.published_le
  have hlimit := hok.sized.limit_le
  have hknown := hok.consumer.knownHead_le
  exact not_below_and_below_succ (by omega) _ _

/-- For every interleaving of the two threads, with thresholds that change at any
time outside of `rb_release`. -/
theorem full_once_per_episode {addr scratch scratchSize : BitVec b.sizeBits}
    {cfg : Option Config} {before : Store} {rb : Rb}
    (hinit : rbInit b addr cfg scratch scratchSize before = .ok rb) {moves : List Move}
    {events : List (Option Latch.Event)}
    (hrun : (tuned b).run (start rb) moves = some (events, s)) :
    OncePerEpisode b rb moves events s := by
  obtain ⟨cfg', -, hacc⟩ := rbInit_accepted hinit
  obtain ⟨hinv, ⟨units, haccept⟩, -, hfulls⟩ := run_latching hacc hrun
  have hok := hinv.counted
  have hcount : events.count (some .announce) + s.latchState.due.toNat =
      events.count (some .set) := Latch.count_announce haccept
  refine
    { found := ?_
      exact := hok.exact
      between := fun _ _ _ heq => Latch.between_sets (heq ▸ haccept)
      announced := hcount
      fulls := hfulls
      once := ?_
      not_upD := hinv.down
      not_upE := fun o n hpc => hok.not_upE hpc s.rb.lowE
      stored := fun m s' hstep => (hinv.step hstep).2.stored }
  · intro m count hpc
    have hlocals := hok.producer.locals
    simp only [ProducerLocals, hpc] at hlocals
    obtain ⟨heq, hle⟩ := hok.found
    refine ⟨hlocals.trans heq.symm, ?_⟩
    have hlt := s.rb.limit.toNat_lt
    rw [hlocals, UInt32.le_iff_toNat_le, Counter.toNat_of_lt (by omega)]
    exact hle
  · intro hzero hmoves
    have hset : events.count (some .set) = s.latchState.on.toNat :=
      Latch.count_set haccept (run_not_clear hzero hmoves hrun)
    have hon : s.latchState.on.toNat ≤ 1 := Bool.toNat_le _
    have hle : events.count (some .set) ≤ 1 := by omega
    refine ⟨hle, ?_⟩
    rw [hfulls]
    split_ifs
    · omega
    · exact Nat.zero_le _

/-- Fill, drain and fill again, with another threshold for the drain. The second
fill takes one step more, to look at `tail`. -/
def twoEpisodes : List Move :=
  (fillTwo ++ signalFull).map .act ++ .setLowD 50 :: drainTwo.map .act ++
    (.acquire 0 :: .producer :: (fillTwo.tail ++ signalFull)).map .act

theorem quarterRing_once_per_episode :
    ∃ events s, (tuned { mode := .index }).run (start quarterRing) twoEpisodes =
        some (events, s) ∧
      events.filterMap id = [.set, .announce, .clear, .set, .announce] ∧
      OncePerEpisode { mode := .index } quarterRing twoEpisodes events s := by
  have hevents : ((tuned { mode := .index }).run (start quarterRing) twoEpisodes).map
      (fun r => r.1.filterMap id) = some [.set, .announce, .clear, .set, .announce] := by
    decide +kernel
  obtain ⟨⟨events, s⟩, hrun, hevents⟩ := Option.map_eq_some_iff.mp hevents
  exact ⟨events, s, hrun, hevents, full_once_per_episode quarterRing_init hrun⟩

end RingBuff.Threads
