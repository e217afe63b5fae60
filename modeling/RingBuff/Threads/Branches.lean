import RingBuff.Threads.Occupancy

/-! # The branches of a move

What a thread finds when it moves and what follows from it, one constructor for
each branch: the start of a call with the reason it is refused or goes on, and
the steps inside a call. The moves of `rb_wait`, `rb_notify_value` and
`rb_notify_drain_fd` touch nothing that belongs to a message and are one
constructor together.
-/

namespace RingBuff.Threads

variable {b : Build} {s s' : Sys} {a : Act}

/-- The message call a move starts. -/
def Act.call : Act → Option Call
  | .acquire wantedLen => some (.acquire wantedLen)
  | .write offset byte => some (.write offset byte)
  | .publishEx slotIndex writtenLen truncated => some (.publishEx slotIndex writtenLen truncated)
  | .abort => some .abort
  | .consume => some .consume
  | .read offset => some (.read offset)
  | .release slotIndex => some (.release slotIndex)
  | .producer | .eventfdFails | .notifyValue | .wait _ _ | .drainFd | .consumer | .clock _
  | .futexReturns _ => none

theorem Act.side_producer (ha : a.byProducer = true) : a.side = .producer := if_pos ha

theorem Act.side_consumer (ha : a.byProducer = false) : a.side = .consumer := by
  rw [Act.side, ha]
  rfl

/-! ## Producer -/

/-- How a call of the producer starts. -/
inductive ProducerStart (b : Build) (s : Sys) : Act → Sys → Prop where
  | acquireDead (w : UInt32) (hinit : s.rb.geo.scratchSize = 0) :
      ProducerStart b s (.acquire w) (s.returnP (.code .notInit))
  | acquirePending (w : UInt32) (hsome : s.rb.pendingSlot ≠ noPending) :
      ProducerStart b s (.acquire w) (s.returnP (.code .inval))
  | acquire (w : UInt32) (hnone : s.rb.pendingSlot = noPending) :
      ProducerStart b s (.acquire w) (s.goP (.acqHead w))
  | writeOutside (offset : Nat) (byte : UInt8)
      (hout : ¬ (s.rb.pendingSlot ≠ noPending ∧ offset < (payloadCap b s.rb.geo).toNat)) :
      ProducerStart b s (.write offset byte) (s.returnP (.code .inval))
  | write (offset : Nat) (byte : UInt8) (hsome : s.rb.pendingSlot ≠ noPending)
      (hlt : offset < (payloadCap b s.rb.geo).toNat) :
      ProducerStart b s (.write offset byte)
        ((s.setStore (s.rb.store.setPayload b s.rb.geo s.rb.pendingSlot offset byte)).returnP
          (.code .ok))
  | publishDead (i n : UInt32) (t : Bool) (hinit : s.rb.geo.scratchSize = 0) :
      ProducerStart b s (.publishEx i n t) (s.returnP (.code .notInit))
  | publishOther (i n : UInt32) (t : Bool)
      (hother : s.rb.pendingSlot = noPending ∨ s.rb.pendingSlot ≠ i) :
      ProducerStart b s (.publishEx i n t) (s.returnP (.code .inval))
  | publish (i n : UInt32) (t : Bool) (hsome : s.rb.pendingSlot ≠ noPending)
      (hslot : s.rb.pendingSlot = i) :
      ProducerStart b s (.publishEx i n t)
        { s with
          p.pc := .pubHeader
            ⟨i, (clampWritten (payloadCap b s.rb.geo) s.rb.pendingWanted n t).1,
              (clampWritten (payloadCap b s.rb.geo) s.rb.pendingWanted n t).2⟩
          p.sent := s.p.sent ++
            [⟨i, s.rb.pendingWanted, n, t, s.rb.store.payload b s.rb.geo i⟩] }
  | abortDead (hinit : s.rb.geo.scratchSize = 0) :
      ProducerStart b s .abort (s.returnP (.code .notInit))
  | abortNone (hnone : s.rb.pendingSlot = noPending) :
      ProducerStart b s .abort (s.returnP (.code .inval))
  | abort (hsome : s.rb.pendingSlot ≠ noPending) :
      ProducerStart b s .abort
        ({ s with rb.pendingSlot := noPending, rb.pendingWanted := 0 }.returnP (.code .ok))

/-- The steps of the producer inside a call. -/
inductive ProducerBranch (b : Build) (s : Sys) : Act → Sys → Prop where
  | acqLook (w : UInt32) (hpc : s.p.pc = .acqHead w)
      (hfull : s.rb.limit ≤ s.rb.head - s.rb.cachedTail) :
      ProducerBranch b s .producer (s.goP (.acqTail w s.rb.head))
  | acqRoom (w : UInt32) (hpc : s.p.pc = .acqHead w)
      (hroom : ¬ s.rb.limit ≤ s.rb.head - s.rb.cachedTail) :
      ProducerBranch b s .producer (s.finishAcquire b w s.rb.head)
  | acqFull (w head : UInt32) (hpc : s.p.pc = .acqTail w head)
      (hfull : s.rb.limit ≤ head - s.rb.tail) :
      ProducerBranch b s .producer (s.refreshTail.noteFullAttempt.returnP (.code .full))
  | acqFreed (w head : UInt32) (hpc : s.p.pc = .acqTail w head)
      (hroom : ¬ s.rb.limit ≤ head - s.rb.tail) :
      ProducerBranch b s .producer (s.refreshTail.finishAcquire b w head)
  | header (m : Outgoing) (hpc : s.p.pc = .pubHeader m) :
      ProducerBranch b s .producer
        ((s.setStore (s.rb.store.setHeader b s.rb.geo m.slotIndex
          (encodeHeader m.len m.truncated))).goP (.pubHead m))
  | head (m : Outgoing) (hpc : s.p.pc = .pubHead m) :
      ProducerBranch b s .producer (s.goP (.pubEntry m s.rb.head))
  | entry (m : Outgoing) (head : UInt32) (hpc : s.p.pc = .pubEntry m head) :
      ProducerBranch b s .producer
        ((s.setStore (s.rb.store.enter b s.rb.geo m.slotIndex head)).goP (.pubStore m head))
  | store (m : Outgoing) (head : UInt32) (hpc : s.p.pc = .pubStore m head) :
      ProducerBranch b s .producer ((s.storeHead (head + 1)).goP
        (if b.notify then .pubWaiters m head else .pubTail m head))
  | waiting (m : Outgoing) (head : UInt32) (hpc : s.p.pc = .pubWaiters m head)
      (hwaiters : s.rb.notifyWaiters ≠ 0) : ProducerBranch b s .producer (s.goP (.pubWake m head))
  | noWaiter (m : Outgoing) (head : UInt32) (hpc : s.p.pc = .pubWaiters m head)
      (hwaiters : s.rb.notifyWaiters = 0) :
      ProducerBranch b s .producer (s.goP (.pubEventfd m head))
  | wake (m : Outgoing) (head : UInt32) (hpc : s.p.pc = .pubWake m head) :
      ProducerBranch b s .producer ({ s with sleeping := false }.goP (.pubEventfd m head))
  | eventfd (m : Outgoing) (head : UInt32) (hpc : s.p.pc = .pubEventfd m head) :
      ProducerBranch b s .producer
        ({ s with eventfd := if 0 ≤ s.rb.notifyFd then s.eventfd + 1 else s.eventfd }.goP
          (.pubTail m head))
  | eventfdFails (m : Outgoing) (head : UInt32) (hpc : s.p.pc = .pubEventfd m head)
      (hfd : s.eventfd ≠ 0) : ProducerBranch b s .eventfdFails (s.goP (.pubTail m head))
  | tail (m : Outgoing) (head : UInt32) (hpc : s.p.pc = .pubTail m head) :
      ProducerBranch b s .producer
        ({ s with
          rb := s.rb.afterPublish (head + 1 - s.rb.tail) m.truncated
          p.knownTail := s.c.released }.goP (.pubAdded m (head + 1 - s.rb.tail)))
  | addedFull (m : Outgoing) (count : UInt32) (hpc : s.p.pc = .pubAdded m count)
      (hfull : s.rb.limit ≤ count) :
      ProducerBranch b s .producer
        ((s.callback s.rb.cb.onSlotAdded (.slotAdded m.slotIndex m.len m.truncated)).goP .pubLatch)
  | added (m : Outgoing) (count : UInt32) (hpc : s.p.pc = .pubAdded m count)
      (hroom : ¬ s.rb.limit ≤ count) :
      ProducerBranch b s .producer
        ((s.callback s.rb.cb.onSlotAdded (.slotAdded m.slotIndex m.len m.truncated)).returnP
          (.code .ok))
  | latchOpen (hpc : s.p.pc = .pubLatch) (hlatch : s.rb.fullLatch = 0) :
      ProducerBranch b s .producer (s.goP .pubSetLatch)
  | latchSet (hpc : s.p.pc = .pubLatch) (hlatch : s.rb.fullLatch ≠ 0) :
      ProducerBranch b s .producer (s.returnP (.code .ok))
  | setLatch (hpc : s.p.pc = .pubSetLatch) :
      ProducerBranch b s .producer
        ({ s with rb.fullLatch := 1, rb.stats.fullHits := s.rb.stats.fullHits + 1 }.goP .pubFull)
  | full (hpc : s.p.pc = .pubFull) :
      ProducerBranch b s .producer ((s.callback s.rb.cb.onFull .full).returnP (.code .ok))

theorem producerNext_branch (hbusy : s.p.pc ≠ .idle) :
    ProducerBranch b s .producer (s.producerNext b) := by
  cases hpc : s.p.pc <;> simp only [Sys.producerNext, hpc]
  case idle => exact absurd hpc hbusy
  case acqHead w =>
    split_ifs with hfull
    · exact .acqLook w hpc hfull
    · exact .acqRoom w hpc hfull
  case acqTail w head =>
    split_ifs with hfull
    · exact .acqFull w head hpc hfull
    · exact .acqFreed w head hpc hfull
  case pubHeader m => exact .header m hpc
  case pubHead m => exact .head m hpc
  case pubEntry m head => exact .entry m head hpc
  case pubStore m head => exact .store m head hpc
  case pubWaiters m head =>
    split_ifs with hwaiters
    · exact .waiting m head hpc hwaiters
    · exact .noWaiter m head hpc (not_not.mp hwaiters)
  case pubWake m head => exact .wake m head hpc
  case pubEventfd m head => exact .eventfd m head hpc
  case pubTail m head => exact .tail m head hpc
  case pubAdded m count =>
    split_ifs with hfull
    · exact .addedFull m count hpc hfull
    · exact .added m count hpc hfull
  case pubLatch =>
    split_ifs with hlatch
    · exact .latchOpen hpc hlatch
    · exact .latchSet hpc hlatch
  case pubSetLatch => exact .setLatch hpc
  case pubFull => exact .full hpc

/-- A move of the producer starts a call or is a step of one. -/
theorem producer_cases (ha : a.byProducer = true) (hstep : step b s a = some s') :
    (s.p.pc = .idle ∧ ProducerStart b s a s') ∨ ProducerBranch b s a s' := by
  cases a <;> simp only [Act.byProducer, Bool.false_eq_true] at ha <;>
    simp only [step, Option.ite_none_right_eq_some, Option.ite_none_left_eq_some,
      Option.some.injEq] at hstep
  case acquire w =>
    obtain ⟨hpc, rfl⟩ := hstep
    refine Or.inl ⟨hpc, ?_⟩
    unfold Sys.startAcquire
    split_ifs with hinit hpending
    · exact .acquireDead w hinit
    · exact .acquirePending w hpending
    · exact .acquire w (not_not.mp hpending)
  case write offset byte =>
    obtain ⟨hpc, rfl⟩ := hstep
    refine Or.inl ⟨hpc, ?_⟩
    unfold Sys.runWrite payloadWrite
    split_ifs with hin
    · exact .write offset byte hin.1 hin.2
    · exact .writeOutside offset byte hin
  case publishEx i n t =>
    obtain ⟨hpc, rfl⟩ := hstep
    refine Or.inl ⟨hpc, ?_⟩
    unfold Sys.startPublish
    split_ifs with hinit hother
    · exact .publishDead i n t hinit
    · exact .publishOther i n t hother
    · obtain ⟨hsome, hslot⟩ := not_or.mp hother
      exact .publish i n t hsome (not_not.mp hslot)
  case abort =>
    obtain ⟨hpc, rfl⟩ := hstep
    refine Or.inl ⟨hpc, ?_⟩
    unfold Sys.runAbort rbAbort
    split_ifs with hinit hnone
    · exact .abortDead hinit
    · exact .abortNone hnone
    · exact .abort hnone
  case producer =>
    obtain ⟨hbusy, rfl⟩ := hstep
    exact Or.inr (producerNext_branch hbusy)
  case eventfdFails =>
    split at hstep
    next m head hpc =>
      simp only [Option.ite_none_left_eq_some, Option.some.injEq] at hstep
      exact Or.inr (hstep.2 ▸ .eventfdFails m head hpc hstep.1)
    next => cases hstep

/-! ## Consumer -/

/-- Inside `rb_consume` or `rb_release`. -/
def ConsumerPc.messaging : ConsumerPc → Bool
  | .conTail | .conHead _ | .conEntry _ | .conStale _ _ | .conHeader _ | .relTail _
  | .relStamp _ _ | .relStore _ | .relClear _ _ | .relLowD _ _ | .relClearUp _ _ | .relLowE _ _
  | .relFireE => true
  | .idle | .waitCount _ _ | .waitStart _ _ | .waitRaise _ | .waitCheck _ | .waitNow _
  | .waitFutex _ | .waitAsleep _ | .waitLate _ | .waitLower _ | .fdRead => false

/-- A move that has nothing to do with messages. -/
structure Aside (s s' : Sys) : Prop where
  before : s.c.pc.messaging = false
  after : s'.c.pc.messaging = false
  eq : s' = { s with
    rb.notifyWaiters := s'.rb.notifyWaiters
    c.pc := s'.c.pc
    c.notified := s'.c.notified
    sleeping := s'.sleeping
    eventfd := s'.eventfd
    log := s'.log }

/-- How a call of the consumer starts. -/
inductive ConsumerStart (b : Build) (s : Sys) : Act → Sys → Prop where
  | consumeDead (hinit : s.rb.geo.scratchSize = 0) :
      ConsumerStart b s .consume (s.returnC (.code .notInit))
  | consumeActive (hactive : s.rb.consumerActive ≠ 0) :
      ConsumerStart b s .consume (s.returnC (.code .inval))
  | consume (hactive : s.rb.consumerActive = 0) : ConsumerStart b s .consume (s.goC .conTail)
  | read (offset : Nat) :
      ConsumerStart b s (.read offset) (s.returnC (payloadRead b s.rb offset))
  | releaseDead (i : UInt32) (hinit : s.rb.geo.scratchSize = 0) :
      ConsumerStart b s (.release i) (s.returnC (.code .notInit))
  | releaseOther (i : UInt32) (hother : s.rb.consumerActive = 0 ∨ i ≠ s.rb.consumerSlot) :
      ConsumerStart b s (.release i) (s.returnC (.code .inval))
  | release (i : UInt32) (hactive : s.rb.consumerActive ≠ 0) (hslot : i = s.rb.consumerSlot) :
      ConsumerStart b s (.release i) (s.goC (.relTail i))

/-- The steps of the consumer inside `rb_consume` and `rb_release`. -/
inductive ConsumerBranch (b : Build) (s : Sys) : Sys → Prop where
  | conLook (hpc : s.c.pc = .conTail) (hcached : s.rb.tail = s.rb.cachedHead) :
      ConsumerBranch b s (s.goC (.conHead s.rb.tail))
  | conCached (hpc : s.c.pc = .conTail) (hcached : s.rb.tail ≠ s.rb.cachedHead) :
      ConsumerBranch b s (s.goC (.conEntry s.rb.tail))
  | conEmpty (tail : UInt32) (hpc : s.c.pc = .conHead tail) (hempty : tail = s.rb.head) :
      ConsumerBranch b s (s.refreshHead.returnC (.code .empty))
  | conFresh (tail : UInt32) (hpc : s.c.pc = .conHead tail) (hmore : tail ≠ s.rb.head) :
      ConsumerBranch b s (s.refreshHead.goC (.conEntry tail))
  | conRefuse (tail : UInt32) (err : RbErr) (hpc : s.c.pc = .conEntry tail)
      (hfront : s.rb.store.frontSlot b s.rb.geo tail = some (.error err)) :
      ConsumerBranch b s (s.returnC (.code err))
  | conStamp (tail i : UInt32) (hpc : s.c.pc = .conEntry tail)
      (hfront : s.rb.store.frontSlot b s.rb.geo tail = some (.ok i))
      (hstale : s.rb.store.stale b s.rb.geo tail i = true) :
      ConsumerBranch b s (s.goC (.conStale tail i))
  | conFound (tail i : UInt32) (hpc : s.c.pc = .conEntry tail)
      (hfront : s.rb.store.frontSlot b s.rb.geo tail = some (.ok i))
      (hstale : s.rb.store.stale b s.rb.geo tail i = false) :
      ConsumerBranch b s (s.goC (.conHeader i))
  | staleEmpty (tail i : UInt32) (hpc : s.c.pc = .conStale tail i) (hempty : s.rb.head = tail) :
      ConsumerBranch b s (s.refreshHead.returnC (.code .empty))
  | staleFresh (tail i : UInt32) (hpc : s.c.pc = .conStale tail i) (hmore : s.rb.head ≠ tail) :
      ConsumerBranch b s (s.refreshHead.goC (.conHeader i))
  | take (i : UInt32) (hpc : s.c.pc = .conHeader i) :
      ConsumerBranch b s
        ((s.latch ⟨i, headerLen (s.rb.store.header b s.rb.geo i),
          headerTruncated (s.rb.store.header b s.rb.geo i)⟩).returnC
            (.message i (headerLen (s.rb.store.header b s.rb.geo i))
              (headerTruncated (s.rb.store.header b s.rb.geo i))))
  | relLap (i : UInt32) (hpc : s.c.pc = .relTail i) (hmode : b.mode = .lap) :
      ConsumerBranch b s (s.goC (.relStamp i s.rb.tail))
  | relPlain (i : UInt32) (hpc : s.c.pc = .relTail i) (hmode : b.mode ≠ .lap) :
      ConsumerBranch b s (s.goC (.relStore s.rb.tail))
  | recycle (i tail : UInt32) (hpc : s.c.pc = .relStamp i tail) :
      ConsumerBranch b s
        ((s.setStore (s.rb.store.recycle b s.rb.geo i tail)).goC (.relStore tail))
  | store (tail : UInt32) (hpc : s.c.pc = .relStore tail) :
      ConsumerBranch b s ((s.storeTail (tail + 1)).goC
        (s.crossing (s.rb.cachedHead - (tail + 1) + 1) (s.rb.cachedHead - (tail + 1))))
  | clear (o n : UInt32) (hpc : s.c.pc = .relClear o n) :
      ConsumerBranch b s
        ({ s with
          rb.lowDLatch := 1
          rb.fullLatch := 0
          rb.stats.lowDHits := s.rb.stats.lowDHits + 1 }.goC (.relLowD o n))
  | fireD (o n : UInt32) (hpc : s.c.pc = .relLowD o n) :
      ConsumerBranch b s ((s.callback s.rb.cb.onLowD .lowD).goC (.relLowE o n))
  | clearUp (o n : UInt32) (hpc : s.c.pc = .relClearUp o n) :
      ConsumerBranch b s ({ s with rb.fullLatch := 0 }.goC (.relLowE o n))
  | lowEDown (o n : UInt32) (hpc : s.c.pc = .relLowE o n) :
      ConsumerBranch b s
        ({ s with rb.lowELatch := 1, rb.stats.lowEHits := s.rb.stats.lowEHits + 1 }.goC .relFireE)
  | lowEUp (o n : UInt32) (hpc : s.c.pc = .relLowE o n) :
      ConsumerBranch b s ({ s with rb.lowELatch := 0 }.returnC (.code .ok))
  | lowESame (o n : UInt32) (hpc : s.c.pc = .relLowE o n) :
      ConsumerBranch b s (s.returnC (.code .ok))
  | fireE (hpc : s.c.pc = .relFireE) :
      ConsumerBranch b s ((s.callback s.rb.cb.onLowE .lowE).returnC (.code .ok))

/-- After the store of `tail` there are three ways to go on. -/
theorem Sys.crossing_of (P : ConsumerPc → Prop) {o n : UInt32} (hdown : P (.relClear o n))
    (hup : P (.relClearUp o n)) (hsame : P (.relLowE o n)) : P (s.crossing o n) := by
  dsimp only [Sys.crossing]
  split_ifs
  · exact hdown
  · exact hup
  · exact hsame

theorem consumerStep_branch (hmsg : s.c.pc.messaging = true) (hnext : s.consumerStep b = some s') :
    ConsumerBranch b s s' := by
  cases hpc : s.c.pc <;> simp only [hpc, ConsumerPc.messaging, Bool.false_eq_true] at hmsg <;>
    simp only [Sys.consumerStep, hpc] at hnext
  case conEntry tail =>
    split at hnext
    · cases hnext
    · next err hfront => exact Option.some.inj hnext ▸ .conRefuse tail err hpc hfront
    · next i hfront =>
        obtain rfl := Option.some.inj hnext
        split_ifs with hstale
        · exact .conStamp tail i hpc hfront hstale
        · exact .conFound tail i hpc hfront (Bool.eq_false_of_not_eq_true hstale)
  all_goals obtain rfl := Option.some.inj hnext
  case conTail =>
    split_ifs with hcached
    · exact .conLook hpc hcached
    · exact .conCached hpc hcached
  case conHead tail =>
    split_ifs with hempty
    · exact .conEmpty tail hpc hempty
    · exact .conFresh tail hpc hempty
  case conStale tail i =>
    split_ifs with hempty
    · exact .staleEmpty tail i hpc hempty
    · exact .staleFresh tail i hpc hempty
  case conHeader i => exact .take i hpc
  case relTail i =>
    split_ifs with hmode
    · exact .relLap i hpc hmode
    · exact .relPlain i hpc hmode
  case relStamp i tail => exact .recycle i tail hpc
  case relStore tail => exact .store tail hpc
  case relClear o n => exact .clear o n hpc
  case relLowD o n => exact .fireD o n hpc
  case relClearUp o n => exact .clearUp o n hpc
  case relLowE o n =>
    dsimp only [Sys.crossLowE]
    split_ifs
    · exact .lowEDown o n hpc
    · exact .lowEUp o n hpc
    · exact .lowESame o n hpc
  case relFireE => exact .fireE hpc

theorem consumerStep_aside (hmsg : s.c.pc.messaging = false)
    (hnext : s.consumerStep b = some s') : Aside s s' := by
  cases hpc : s.c.pc <;> simp only [hpc, ConsumerPc.messaging, Bool.true_eq_false] at hmsg <;>
    simp only [Sys.consumerStep, hpc, reduceCtorEq] at hnext
  case waitAsleep w =>
    simp only [Option.ite_none_left_eq_some] at hnext
    obtain rfl := Option.some.inj hnext.2
    exact ⟨by rw [hpc]; rfl, rfl, rfl⟩
  case waitRaise w | waitLower r =>
    obtain rfl := Option.some.inj hnext
    exact ⟨by rw [hpc]; rfl, rfl, rfl⟩
  case fdRead =>
    obtain rfl := Option.some.inj hnext
    split_ifs
    · exact ⟨by rw [hpc]; rfl, by dsimp only; rw [hpc]; rfl, rfl⟩
    · exact ⟨by rw [hpc]; rfl, rfl, rfl⟩
  all_goals
    obtain rfl := Option.some.inj hnext
    split_ifs <;> exact ⟨by rw [hpc]; rfl, rfl, rfl⟩

theorem clockStep_aside {now : UInt64} (hnext : s.clockStep b now = some s') : Aside s s' := by
  unfold Sys.clockStep at hnext
  split at hnext
  next hpc =>
    obtain rfl := Option.some.inj hnext
    exact ⟨by rw [hpc]; rfl, rfl, rfl⟩
  next hpc =>
    split_ifs at hnext <;> obtain rfl := Option.some.inj hnext <;>
      exact ⟨by rw [hpc]; rfl, rfl, rfl⟩
  next hpc =>
    obtain rfl := Option.some.inj hnext
    exact ⟨by rw [hpc]; rfl, by dsimp only [Sys.goC]; split_ifs <;> rfl, rfl⟩
  next => cases hnext

theorem futexStep_aside {result : FutexResult} (hnext : s.futexStep result = some s') :
    Aside s s' := by
  unfold Sys.futexStep at hnext
  split at hnext
  case h_3 => cases hnext
  all_goals
    rename_i hpc
    obtain rfl := Option.some.inj hnext
    refine ⟨by rw [hpc]; rfl, ?_, rfl⟩
    cases result with
    | timedOut => dsimp only [Sys.goC]; split_ifs <;> rfl
    | woken | eagain | eintr | failed errno => rfl

/-- A move of the consumer starts a message call, is a step of one, or has
nothing to do with messages. -/
theorem consumer_cases (ha : a.byProducer = false) (hstep : step b s a = some s') :
    (s.c.pc = .idle ∧ ConsumerStart b s a s') ∨ (a = .consumer ∧ ConsumerBranch b s s') ∨
      (a.call = none ∧ Aside s s') := by
  cases a <;> simp only [Act.byProducer, Bool.true_eq_false] at ha <;>
    simp only [step, Option.ite_none_right_eq_some, Option.some.injEq] at hstep
  case consume =>
    obtain ⟨hpc, rfl⟩ := hstep
    refine Or.inl ⟨hpc, ?_⟩
    unfold Sys.startConsume
    split_ifs with hinit hactive
    · exact .consumeDead hinit
    · exact .consumeActive hactive
    · exact .consume (not_not.mp hactive)
  case read offset => exact Or.inl ⟨hstep.1, hstep.2 ▸ .read offset⟩
  case release i =>
    obtain ⟨hpc, rfl⟩ := hstep
    refine Or.inl ⟨hpc, ?_⟩
    unfold Sys.startRelease
    split_ifs with hinit hother
    · exact .releaseDead i hinit
    · exact .releaseOther i hother
    · obtain ⟨hactive, hslot⟩ := not_or.mp hother
      exact .release i hactive (not_not.mp hslot)
  case notifyValue =>
    obtain ⟨hpc, rfl⟩ := hstep
    exact Or.inr (Or.inr ⟨rfl, by rw [hpc]; rfl, rfl, rfl⟩)
  case wait e t =>
    obtain ⟨hpc, rfl⟩ := hstep
    refine Or.inr (Or.inr ⟨rfl, ?_⟩)
    unfold Sys.startWait
    split_ifs
    · exact ⟨by rw [hpc]; rfl, by dsimp only; rw [hpc]; rfl, rfl⟩
    · exact ⟨by rw [hpc]; rfl, rfl, rfl⟩
  case drainFd =>
    obtain ⟨hpc, rfl⟩ := hstep
    refine Or.inr (Or.inr ⟨rfl, ?_⟩)
    unfold Sys.startDrainFd
    split_ifs <;> exact ⟨by rw [hpc]; rfl, rfl, rfl⟩
  case consumer =>
    cases hmsg : s.c.pc.messaging with
    | true => exact Or.inr (Or.inl ⟨rfl, consumerStep_branch hmsg hstep⟩)
    | false => exact Or.inr (Or.inr ⟨rfl, consumerStep_aside hmsg hstep⟩)
  case clock now => exact Or.inr (Or.inr ⟨rfl, clockStep_aside hstep⟩)
  case futexReturns r => exact Or.inr (Or.inr ⟨rfl, futexStep_aside hstep⟩)

end RingBuff.Threads
