import RingBuff.Threads.Counters

/-! # No wake-up of `rb_wait` is lost

The consumer announces itself in `notify_waiters`, looks at the ring once more
and then sleeps if `head` still has the value it was told to expect; the producer
stores `head`, looks at `notify_waiters` and wakes. Whichever comes first, the
other side sees it: a consumer that sleeps on a ring that is not empty has a
producer on its way to wake it.
-/

namespace RingBuff.Threads

variable {b : Build} {s s' : Sys}

/-- `rb_wait` is counted in `notify_waiters`. -/
def ConsumerPc.counted : ConsumerPc → Bool
  | .waitCheck _ | .waitNow _ | .waitFutex _ | .waitAsleep _ | .waitLate _ | .waitLower _ => true
  | _ => false

/-- `rb_wait` has found the ring empty since it is counted. -/
def ConsumerPc.checked : ConsumerPc → Bool
  | .waitNow _ | .waitFutex _ | .waitAsleep _ => true
  | _ => false

/-- The value `rb_wait` was told to expect. -/
def ConsumerPc.expected? : ConsumerPc → Option UInt32
  | .waitCount expected _ | .waitStart expected _ => some expected
  | .waitRaise w | .waitCheck w | .waitNow w | .waitFutex w | .waitAsleep w | .waitLate w =>
      some w.expected
  | _ => none

/-- In the futex wait. -/
def ConsumerPc.asleep : ConsumerPc → Bool
  | .waitAsleep _ => true
  | _ => false

/-- From the store of `head` to the end of the wake. -/
def ProducerPc.waking : ProducerPc → Bool
  | .pubWaiters _ _ | .pubWake _ _ => true
  | _ => false

/-- The state of the handshake. -/
structure Handshake (s : Sys) : Prop where
  waiters : s.rb.notifyWaiters = if s.c.pc.counted then 1 else 0
  expected : ∀ e, s.c.pc.expected? = some e → e = UInt32.ofNat s.c.notified
  live : s.c.pc.expected? ≠ none → s.rb.geo.scratchSize ≠ 0
  notified_le : s.c.notified ≤ s.p.published
  checked : s.c.pc.checked = true → s.c.notified ≤ s.c.released
  asleep : s.sleeping = true → s.c.pc.asleep = true ∧
    (s.p.published = s.c.notified ∨ s.p.pc.waking = true)

/-! ## The producer -/

/-- A sleeper stays asleep only if the producer is about to wake it, or if it has
published nothing and had nobody to wake. -/
def Wakes (s s' : Sys) : Prop :=
  s'.sleeping = true → s.sleeping = true ∧ (s'.p.pc.waking = true ∨
    s'.p.published = s.p.published ∧ (s.p.pc.waking = true → s.rb.notifyWaiters = 0))

theorem Wakes.of_idle (hsleep : s'.sleeping = s.sleeping)
    (hpublished : s'.p.published = s.p.published) (hpc : s.p.pc.waking = false) : Wakes s s' :=
  fun hasleep => ⟨hsleep ▸ hasleep, Or.inr ⟨hpublished, fun hwake => by simp [hpc] at hwake⟩⟩

theorem finishAcquire_wakes (b : Build) (s : Sys) (wantedLen head : UInt32)
    (hpc : s.p.pc.waking = false) : Wakes s (s.finishAcquire b wantedLen head) := by
  dsimp only [Sys.finishAcquire, reserve]
  split_ifs <;> exact .of_idle rfl rfl hpc

theorem producerNext_wakes (hnotify : b.notify = true) : Wakes s (s.producerNext b) := by
  cases hpc : s.p.pc with
  | acqHead w =>
      simp only [Sys.producerNext, hpc]
      split
      · exact .of_idle rfl rfl (by rw [hpc]; rfl)
      · exact finishAcquire_wakes b s w s.rb.head (by rw [hpc]; rfl)
  | acqTail w head =>
      simp only [Sys.producerNext, hpc]
      split
      · exact .of_idle rfl rfl (by rw [hpc]; rfl)
      · exact finishAcquire_wakes b s.refreshTail w head (by rw [Sys.refreshTail, hpc]; rfl)
  | pubStore m head =>
      simp only [Sys.producerNext, hpc, hnotify]
      exact fun hasleep => ⟨hasleep, Or.inl rfl⟩
  | pubWaiters m head =>
      simp only [Sys.producerNext, hpc]
      split
      next hwaiters => exact fun hasleep => ⟨hasleep, Or.inl rfl⟩
      next hwaiters =>
        exact fun hasleep => ⟨hasleep, Or.inr ⟨rfl, fun _ => not_not.mp hwaiters⟩⟩
  | pubWake m head =>
      simp only [Sys.producerNext, hpc]
      rintro ⟨⟩
  | pubAdded m count | pubLatch =>
      simp only [Sys.producerNext, hpc]
      split <;> exact .of_idle rfl rfl (by rw [hpc]; rfl)
  | idle | pubHeader m | pubHead m | pubEntry m head | pubEventfd m head | pubTail m head
  | pubSetLatch | pubFull =>
      simp only [Sys.producerNext, hpc]
      exact .of_idle rfl rfl (by rw [hpc]; rfl)

theorem ProducerMove.wakes (hmove : ProducerMove b s s') (hnotify : b.notify = true) :
    Wakes s s' := by
  cases hmove with
  | acquire w hpc =>
      unfold Sys.startAcquire
      split_ifs <;> exact .of_idle rfl rfl (by rw [hpc]; rfl)
  | write offset byte hpc =>
      unfold Sys.runWrite payloadWrite
      split_ifs <;> exact .of_idle rfl rfl (by rw [hpc]; rfl)
  | publish i n t hpc =>
      unfold Sys.startPublish
      split_ifs <;> exact .of_idle rfl rfl (by rw [hpc]; rfl)
  | abort hpc =>
      unfold Sys.runAbort rbAbort
      split_ifs <;> exact .of_idle rfl rfl (by rw [hpc]; rfl)
  | next => exact producerNext_wakes hnotify
  | eventfdFails m head hpc hfd => exact .of_idle rfl rfl (by rw [hpc]; rfl)

theorem ProducerMove.handshake (hmove : ProducerMove b s s') (hnotify : b.notify = true)
    (hshake : Handshake s) : Handshake s' := by
  obtain ⟨hside, hregs, hset, hgrow, -⟩ := hmove.frame
  simp only [Rb.consumerRegs, Prod.mk.injEq] at hregs
  have hgeo : s'.rb.geo = s.rb.geo := congrArg Prod.fst hset
  constructor
  case waiters => rw [hside, hregs.2.2.2.2]; exact hshake.waiters
  case expected => rw [hside]; exact hshake.expected
  case live => rw [hside, hgeo]; exact hshake.live
  case notified_le => rw [hside]; exact hshake.notified_le.trans hgrow
  case checked => rw [hside]; exact hshake.checked
  case asleep =>
    rw [hside]
    intro hsleep
    obtain ⟨hslept, hwake⟩ := hmove.wakes hnotify hsleep
    obtain ⟨hasleep, hold⟩ := hshake.asleep hslept
    refine ⟨hasleep, ?_⟩
    rcases hwake with hwake | ⟨hsame, hnobody⟩
    · exact Or.inr hwake
    · -- the consumer is counted, so the producer cannot have missed it
      left
      rw [hsame]
      refine hold.resolve_right fun hwaking => ?_
      have hcounted : s.c.pc.counted = true := by
        cases hpc : s.c.pc <;> simp [ConsumerPc.asleep, ConsumerPc.counted, hpc] at hasleep ⊢
      have hone := hshake.waiters
      rw [hnobody hwaking, hcounted] at hone
      exact absurd hone (by decide)

/-! ## The consumer -/

theorem Handshake.awake (hshake : Handshake s) (hpc : s.c.pc.asleep = false) :
    s.sleeping = false := by
  rw [← Bool.not_eq_true]
  intro hsleep
  rw [(hshake.asleep hsleep).1] at hpc
  cases hpc

/-- A move of the consumer that does not put it to sleep. -/
theorem Handshake.of_awake (hshake : Handshake s) (hframe : SameProducer s s')
    (hsleep : s'.sleeping = false) (hnotified : s'.c.notified = s.c.notified)
    (hwaiters : s'.rb.notifyWaiters = if s'.c.pc.counted then 1 else 0)
    (hexpected : ∀ e, s'.c.pc.expected? = some e → s.c.pc.expected? = some e)
    (hchecked : s'.c.pc.checked = true → s.c.notified ≤ s'.c.released) : Handshake s' := by
  have hgeo : s'.rb.geo = s.rb.geo := congrArg Prod.fst hframe.settings
  constructor
  case waiters => exact hwaiters
  case expected => rw [hnotified]; exact fun e he => hshake.expected e (hexpected e he)
  case live =>
    rw [hgeo]
    intro hsome
    obtain ⟨e, he⟩ := Option.ne_none_iff_exists'.mp hsome
    exact hshake.live (by rw [hexpected e he]; nofun)
  case notified_le => rw [hnotified, hframe.side]; exact hshake.notified_le
  case checked => rw [hnotified]; exact hchecked
  case asleep => exact fun hasleep => absurd hasleep (by simp [hsleep])

/-- A move outside of `rb_wait`. -/
theorem Handshake.of_outside (hshake : Handshake s) (hframe : SameProducer s s')
    (hpc : s.c.pc.counted = false) (hpc' : s'.c.pc.counted = false)
    (hnone : s'.c.pc.expected? = none)
    (hsleep : s'.sleeping = s.sleeping) (hwaiters : s'.rb.notifyWaiters = s.rb.notifyWaiters)
    (hnotified : s'.c.notified = s.c.notified) : Handshake s' := by
  have hasleep : s.c.pc.asleep = false := by
    cases hcase : s.c.pc <;> simp [ConsumerPc.asleep, ConsumerPc.counted, hcase] at hpc ⊢
  refine hshake.of_awake hframe (hsleep.trans (hshake.awake hasleep)) hnotified ?_ ?_ ?_
  · rw [hwaiters, hshake.waiters, hpc, hpc']
  · rw [hnone]
    exact nofun
  · intro hchecked
    cases hcase : s'.c.pc <;> simp [ConsumerPc.checked, ConsumerPc.counted, hcase] at hpc' hchecked

/-- The ring was seen empty, so all that `rb_notify_value` told about is released. -/
theorem Handshake.released_of_empty (hshake : Handshake s) (hok : Counted s)
    (hsome : s.c.pc.expected? ≠ none) (hempty : s.nonEmpty = false) :
    s.c.notified ≤ s.c.released := by
  have hzero : s.rb.head - s.rb.tail = 0 := by
    simpa [Sys.nonEmpty, rbCount, hshake.live hsome] using hempty
  have hcount := hok.count_eq
  rw [hzero] at hcount
  have hnone : s.p.published - s.c.released = 0 := hcount.symm
  have hle := hshake.notified_le
  omega

theorem consumerStep_handshake (hnext : s.consumerStep b = some s') (hok : Counted s)
    (hfew : ∀ w, s.c.pc = .waitFutex w → s.p.published < s.c.notified + 2 ^ 32)
    (hshake : Handshake s) : Handshake s' := by
  have hframe := consumerStep_frame hnext
  have hwaiters := hshake.waiters
  have hexpected := hshake.expected
  have hchecked := hshake.checked
  cases hpc : s.c.pc with
  | idle | waitStart _ _ | waitNow _ | waitLate _ =>
      simp [Sys.consumerStep, hpc] at hnext
  | conEntry tail =>
      simp only [Sys.consumerStep, hpc] at hnext
      split at hnext
      · cases hnext
      · obtain rfl := Option.some.inj hnext
        exact hshake.of_outside hframe (by rw [hpc]; rfl) rfl rfl rfl rfl rfl
      · obtain rfl := Option.some.inj hnext
        split_ifs at hframe ⊢ <;>
          exact hshake.of_outside hframe (by rw [hpc]; rfl) rfl rfl rfl rfl rfl
  | relStore tail =>
      simp only [Sys.consumerStep, hpc, Sys.crossing] at hnext
      obtain rfl := Option.some.inj hnext
      split_ifs at hframe ⊢ <;>
        exact hshake.of_outside hframe (by rw [hpc]; rfl) rfl rfl rfl rfl rfl
  | relLowE o n =>
      simp only [Sys.consumerStep, hpc, Sys.crossLowE] at hnext
      obtain rfl := Option.some.inj hnext
      split_ifs at hframe ⊢ <;>
        exact hshake.of_outside hframe (by rw [hpc]; rfl) rfl rfl rfl rfl rfl
  | fdRead =>
      simp only [Sys.consumerStep, hpc] at hnext
      obtain rfl := Option.some.inj hnext
      split_ifs at hframe ⊢
      · exact hshake.of_outside hframe (by rw [hpc]; rfl) (by rw [hpc]; rfl) (by rw [hpc]; rfl)
          rfl rfl rfl
      · exact hshake.of_outside hframe (by rw [hpc]; rfl) rfl rfl rfl rfl rfl
  | conTail | conHead tail | conStale tail i | relTail i =>
      simp only [Sys.consumerStep, hpc] at hnext
      obtain rfl := Option.some.inj hnext
      split_ifs at hframe ⊢ <;>
        exact hshake.of_outside hframe (by rw [hpc]; rfl) rfl rfl rfl rfl rfl
  | conHeader i | relStamp i tail | relClear o n | relLowD o n | relClearUp o n | relFireE =>
      simp only [Sys.consumerStep, hpc] at hnext
      obtain rfl := Option.some.inj hnext
      exact hshake.of_outside hframe (by rw [hpc]; rfl) rfl rfl rfl rfl rfl
  | waitCount e t =>
      have hawake := hshake.awake (by rw [hpc]; rfl)
      rw [hpc] at hwaiters
      simp only [Sys.consumerStep, hpc] at hnext
      obtain rfl := Option.some.inj hnext
      split_ifs at hframe ⊢
      · exact hshake.of_awake hframe hawake rfl hwaiters
          (by intros; contradiction) (by intros; contradiction)
      · exact hshake.of_awake hframe hawake rfl hwaiters
          (by rw [hpc]; exact fun _ he => he) (by intros; contradiction)
  | waitRaise w =>
      have hawake := hshake.awake (by rw [hpc]; rfl)
      rw [hpc] at hwaiters
      simp only [Sys.consumerStep, hpc] at hnext
      obtain rfl := Option.some.inj hnext
      refine hshake.of_awake hframe hawake rfl ?_
        (by rw [hpc]; exact fun _ he => he) (by intros; contradiction)
      have hzero : s.rb.notifyWaiters = 0 := hwaiters
      change s.rb.notifyWaiters + 1 = 1
      rw [hzero]
      decide
  | waitCheck w =>
      have hawake := hshake.awake (by rw [hpc]; rfl)
      rw [hpc] at hwaiters
      simp only [Sys.consumerStep, hpc] at hnext
      obtain rfl := Option.some.inj hnext
      split_ifs at hframe ⊢ with hempty
      · exact hshake.of_awake hframe hawake rfl hwaiters
          (by intros; contradiction) (by intros; contradiction)
      · refine hshake.of_awake hframe hawake rfl hwaiters (by rw [hpc]; exact fun _ he => he) ?_
        intro _
        exact hshake.released_of_empty hok (by rw [hpc]; rintro ⟨⟩) (by simpa using hempty)
  | waitFutex w =>
      have hawake := hshake.awake (by rw [hpc]; rfl)
      rw [hpc] at hwaiters hexpected hchecked
      simp only [Sys.consumerStep, hpc] at hnext
      obtain rfl := Option.some.inj hnext
      split_ifs at hframe ⊢ with heq
      · -- the kernel has found `head` unchanged: nothing was published
        have hsame : s.c.notified = s.p.published := by
          rw [hok.producer.head, hexpected _ rfl, eq_comm] at heq
          have hlt := hfew w hpc
          exact (Counter.ofNat_inj hshake.notified_le (by omega)).mp heq
        exact ⟨hwaiters, hexpected, fun _ => hshake.live (by rw [hpc]; rintro ⟨⟩),
          hshake.notified_le,
          fun _ => hchecked rfl, fun _ => ⟨rfl, Or.inl hsame.symm⟩⟩
      · exact hshake.of_awake hframe hawake rfl hwaiters
          (by intros; contradiction) (by intros; contradiction)
  | waitAsleep w =>
      rw [hpc] at hwaiters
      simp only [Sys.consumerStep, hpc, Option.ite_none_left_eq_some, Bool.not_eq_true] at hnext
      obtain ⟨hawake, hnext⟩ := hnext
      obtain rfl := Option.some.inj hnext
      exact hshake.of_awake hframe hawake rfl hwaiters
        (by intros; contradiction) (by intros; contradiction)
  | waitLower r =>
      have hawake := hshake.awake (by rw [hpc]; rfl)
      rw [hpc] at hwaiters
      simp only [Sys.consumerStep, hpc] at hnext
      obtain rfl := Option.some.inj hnext
      refine hshake.of_awake hframe hawake rfl ?_
        (by intros; contradiction) (by intros; contradiction)
      have hone : s.rb.notifyWaiters = 1 := hwaiters
      change s.rb.notifyWaiters - 1 = 0
      rw [hone]
      decide

theorem clockStep_handshake {now : UInt64} (hnext : s.clockStep b now = some s')
    (hshake : Handshake s) : Handshake s' := by
  have hframe := clockStep_frame hnext
  have hwaiters := hshake.waiters
  have hchecked := hshake.checked
  unfold Sys.clockStep at hnext
  split at hnext
  next e t hpc =>
    have hawake := hshake.awake (by rw [hpc]; rfl)
    rw [hpc] at hwaiters
    obtain rfl := Option.some.inj hnext
    exact hshake.of_awake hframe hawake rfl hwaiters (by rw [hpc]; exact fun _ he => he) nofun
  next w hpc =>
    have hawake := hshake.awake (by rw [hpc]; rfl)
    rw [hpc] at hwaiters hchecked
    split_ifs at hnext <;> obtain rfl := Option.some.inj hnext
    · exact hshake.of_awake hframe hawake rfl hwaiters nofun nofun
    · exact hshake.of_awake hframe hawake rfl hwaiters nofun nofun
    · exact hshake.of_awake hframe hawake rfl hwaiters (by rw [hpc]; exact fun _ he => he)
        fun _ => hchecked rfl
  next w hpc =>
    have hawake := hshake.awake (by rw [hpc]; rfl)
    rw [hpc] at hwaiters
    obtain rfl := Option.some.inj hnext
    split_ifs at hframe ⊢
    · exact hshake.of_awake hframe hawake rfl hwaiters nofun nofun
    · exact hshake.of_awake hframe hawake rfl hwaiters (by rw [hpc]; exact fun _ he => he) nofun
  next => cases hnext

theorem futexStep_handshake {result : FutexResult} (hnext : s.futexStep result = some s')
    (hshake : Handshake s) : Handshake s' := by
  have hframe := futexStep_frame hnext
  have hwaiters := hshake.waiters
  unfold Sys.futexStep at hnext
  split at hnext
  case h_3 => cases hnext
  all_goals
    next hpc =>
      rw [hpc] at hwaiters
      obtain rfl := Option.some.inj hnext
      cases result with
      | woken | eagain | failed errno =>
          exact hshake.of_awake hframe rfl rfl hwaiters nofun nofun
      | eintr =>
          exact hshake.of_awake hframe rfl rfl hwaiters (by rw [hpc]; exact fun _ he => he) nofun
      | timedOut =>
          split_ifs at hframe ⊢ <;>
            exact hshake.of_awake hframe rfl rfl hwaiters (by rw [hpc]; exact fun _ he => he) nofun

/-! ## Runs -/

/-- A consumer that passes the last value of `rb_notify_value` to `rb_wait`, and
less than a whole round of the counter is published until the kernel compares. -/
def waitsForNotified (s : Sys) (a : Act) : Bool :=
  match a with
  | .wait expected _ => expected = UInt32.ofNat s.c.notified
  | .consumer =>
      match s.c.pc with
      | .waitFutex _ => s.p.published < s.c.notified + 2 ^ 32
      | _ => true
  | _ => true

/-- Runs of such a consumer. -/
def waitingMachine (b : Build) : Automaton Sys Act Unit :=
  (machine b).restrict waitsForNotified

theorem step_handshake {a : Act} (hstep : step b s a = some s') (hnotify : b.notify = true)
    (hrule : waitsForNotified s a = true) (hok : Counted s) (hshake : Handshake s) :
    Handshake s' := by
  have hwaiters := hshake.waiters
  cases a with
  | acquire _ | write _ _ | publishEx _ _ _ | abort | producer | eventfdFails =>
      exact (step_producerMove rfl hstep).handshake hnotify hshake
  | read offset =>
      have hframe := (step_consumerMove rfl hstep).frame
      simp only [step, Option.ite_none_right_eq_some, Option.some.injEq] at hstep
      obtain ⟨hpc, rfl⟩ := hstep
      exact hshake.of_outside hframe (by rw [hpc]; rfl) rfl rfl rfl rfl rfl
  | consume | release i | drainFd =>
      have hframe := (step_consumerMove rfl hstep).frame
      simp only [step, Option.ite_none_right_eq_some, Option.some.injEq, Sys.startConsume,
        Sys.startRelease, Sys.startDrainFd] at hstep
      obtain ⟨hpc, rfl⟩ := hstep
      split_ifs at hframe ⊢ <;>
        exact hshake.of_outside hframe (by rw [hpc]; rfl) rfl rfl rfl rfl rfl
  | notifyValue =>
      simp only [step, Option.ite_none_right_eq_some, Option.some.injEq] at hstep
      obtain ⟨hpc, rfl⟩ := hstep
      have hawake := hshake.awake (by rw [hpc]; rfl)
      rw [hpc] at hwaiters
      exact ⟨hwaiters,
        (by intros; contradiction), fun hne => absurd rfl hne, le_rfl, (by intros; contradiction),
        fun hasleep => absurd hasleep (by simpa [Sys.runNotifyValue, Sys.returnC] using hawake)⟩
  | wait e t =>
      have hframe := (step_consumerMove rfl hstep).frame
      simp only [step, Option.ite_none_right_eq_some, Option.some.injEq] at hstep
      obtain ⟨hpc, rfl⟩ := hstep
      have hawake := hshake.awake (by rw [hpc]; rfl)
      rw [hpc] at hwaiters
      unfold Sys.startWait at hframe ⊢
      split_ifs at hframe ⊢ with hinit
      · exact hshake.of_outside hframe (by rw [hpc]; rfl) (by rw [hpc]; rfl) (by rw [hpc]; rfl)
          rfl rfl rfl
      · refine ⟨hwaiters, ?_, fun _ => hinit, hshake.notified_le, (by intros; contradiction),
          fun hasleep => absurd hasleep (by simpa [Sys.goC] using hawake)⟩
        rintro e' ⟨⟩
        exact of_decide_eq_true hrule
  | consumer =>
      refine consumerStep_handshake hstep hok (fun w hpc => ?_) hshake
      simpa [waitsForNotified, hpc] using hrule
  | clock now => exact clockStep_handshake hstep hshake
  | futexReturns r => exact futexStep_handshake hstep hshake

theorem reaches_handshake {addr scratch scratchSize : BitVec b.sizeBits} {cfg : Config}
    {before : Store} {rb : Rb} (hacc : Accepted b addr cfg scratch scratchSize before rb)
    (hnotify : b.notify = true) (hreach : (waitingMachine b).Reaches (start rb) s) :
    Counted s ∧ Handshake s := by
  refine hreach.invariant (fun s => Counted s ∧ Handshake s) ⟨start_counted hacc, ?_⟩ ?_
  · rw [hacc.eq]
    exact ⟨rfl, nofun, fun hne => absurd rfl hne, le_rfl, nofun, nofun⟩
  · rintro s a u s' ⟨hok, hshake⟩ hmove
    obtain ⟨hrule, hmove⟩ := (machine b).restrict_step_eq_some.mp hmove
    have hstep := machine_step_eq_some.mp hmove
    exact ⟨step_counted hok hstep, step_handshake hstep hnotify hrule hok hshake⟩

/-- While the consumer sleeps in `rb_wait` and the ring is not empty, the producer
is between its store of `head` and the end of its wake. -/
theorem no_lost_wakeup {addr scratch scratchSize : BitVec b.sizeBits} {cfg : Option Config}
    {before : Store} {rb : Rb} (hinit : rbInit b addr cfg scratch scratchSize before = .ok rb)
    (hnotify : b.notify = true) (hreach : (waitingMachine b).Reaches (start rb) s)
    (hsleep : s.sleeping = true) (hsome : s.rb.head ≠ s.rb.tail) : s.p.pc.waking = true := by
  obtain ⟨cfg', -, hacc⟩ := rbInit_accepted hinit
  obtain ⟨hok, hshake⟩ := reaches_handshake hacc hnotify hreach
  obtain ⟨hasleep, hsame | hwaking⟩ := hshake.asleep hsleep
  · have hchecked : s.c.pc.checked = true := by
      cases hpc : s.c.pc <;> simp [ConsumerPc.asleep, ConsumerPc.checked, hpc] at hasleep ⊢
    have hempty : s.p.published = s.c.released :=
      Nat.le_antisymm (hsame.trans_le (hshake.checked hchecked)) hok.released_le
    exact absurd (by rw [hok.producer.head, hok.consumer.tail, hempty]) hsome
  · exact hwaking

/-- The consumer goes to sleep on the empty ring; the producer publishes and has
not looked at `notify_waiters` yet. -/
def sleepAndPublish : List Act :=
  [.notifyValue, .wait 0 1000, .consumer, .clock 5, .consumer, .consumer, .clock 6, .consumer,
    .acquire 0, .producer, .publishEx 0 0 false, .producer, .producer, .producer, .producer]

theorem smallRing_no_lost_wakeup :
    ∃ s, (waitingMachine { mode := .index, notify := true }).Reaches (start (smallRing .index)) s ∧
      s.sleeping = true ∧ s.rb.head ≠ s.rb.tail ∧ s.p.pc.waking = true := by
  obtain ⟨s, hreach, hseen⟩ := Automaton.Reaches.of_run
    (waitingMachine { mode := .index, notify := true }) (start (smallRing .index)) sleepAndPublish
    (fun s => (s.sleeping, decide (s.rb.head ≠ s.rb.tail))) (show _ = some (true, true) by
      decide +kernel)
  obtain ⟨hsleep, hsome⟩ := Prod.mk.inj hseen
  have hsome := of_decide_eq_true hsome
  have hinit : rbInit { mode := .index, notify := true } 64#64 (some smallConfig) 4096#64 128#64
      blank = .ok (smallRing .index) := rfl
  exact ⟨s, hreach, hsleep, hsome, no_lost_wakeup hinit rfl hreach hsleep hsome⟩

end RingBuff.Threads
