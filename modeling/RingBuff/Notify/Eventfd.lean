import RingBuff.Threads.Safety

/-! # No message is stranded behind an eventfd

The event loop of the documentation: poll until the eventfd is readable, empty
it with `rb_notify_drain_fd`, then `rb_drain` until `rb_consume` finds nothing.
The loop empties the eventfd before it looks at the ring, and the producer stores
`head` before it writes the eventfd; a message that the last look has missed is
one whose write is still to come.
-/

namespace RingBuff

/-- `rb_notify_fd`, given what `eventfd` returns: a descriptor or an `errno`
below zero. -/
def rbNotifyFd (rb : Rb) (created : Int) : Int × Rb :=
  if rb.geo.scratchSize = 0 then (-Threads.einval, rb)
  else if 0 ≤ rb.notifyFd then (rb.notifyFd, rb)
  else if created < 0 then (created, rb)
  else (created, { rb with notifyFd := created })

namespace Threads

variable {b : Build} {s s' : Sys}

/-! ## The consumer finds its message -/

/-- Every published position leads to its slot, where that takes a look into
`entries[]`. This needs no assumption on how often the counters have wrapped. -/
def Found (b : Build) (s : Sys) : Prop :=
  b.mode ≠ .lap → ∀ k, s.c.released ≤ k → k < s.p.entries → s.rb.store.Entered b s.rb.geo k

theorem Stores.entries_eq {geo : Geometry} {st st' : Store} {slot : Option UInt32}
    (hstores : Stores b geo st slot none st') : st'.entries = st.entries := by
  cases hstores <;> rfl

theorem finishAcquire_entries (b : Build) (s : Sys) (wantedLen head : UInt32) :
    (s.finishAcquire b wantedLen head).p.entries ≤ s.p.published := by
  dsimp only [Sys.finishAcquire, reserve]
  split_ifs <;> exact le_rfl

/-- Only one step of `rb_publish_ex` enters a position. -/
theorem ProducerMove.entries_le (hmove : ProducerMove b s s')
    (hpc : ∀ m head, s.p.pc ≠ .pubEntry m head) : s'.p.entries ≤ s.p.entries := by
  have hle : s.p.published ≤ s.p.entries := Nat.le_add_right _ _
  cases hmove with
  | acquire w _ =>
      unfold Sys.startAcquire
      split_ifs <;> exact hle
  | write offset byte _ =>
      unfold Sys.runWrite payloadWrite
      split_ifs <;> exact hle
  | publish i n t _ =>
      unfold Sys.startPublish
      split_ifs <;> exact hle
  | abort _ =>
      unfold Sys.runAbort rbAbort
      split_ifs <;> exact hle
  | eventfdFails m head _ _ => exact hle
  | next =>
      cases hcase : s.p.pc with
      | pubEntry m head => exact absurd hcase (hpc m head)
      | idle =>
          simp only [Sys.producerNext, hcase]
          exact le_rfl
      | acqHead w =>
          simp only [Sys.producerNext, hcase]
          split
          · exact hle
          · exact (finishAcquire_entries b s w _).trans hle
      | acqTail w head =>
          simp only [Sys.producerNext, hcase]
          split
          · exact hle
          · exact (finishAcquire_entries b s.refreshTail w head).trans hle
      | pubStore m head =>
          simp only [Sys.producerNext, hcase]
          cases b.notify <;> simp only [ProducerSide.entries, hcase] <;> exact le_rfl
      | pubWaiters m head | pubAdded m count | pubLatch =>
          simp only [Sys.producerNext, hcase]
          split_ifs <;> exact hle
      | pubHeader m | pubHead m | pubWake m head | pubEventfd m head | pubTail m head
      | pubSetLatch | pubFull =>
          simp only [Sys.producerNext, hcase]
          exact hle

/-- Entering the next position leaves the entries of the published ones. -/
theorem Found.enter (hfound : Found b s) (hok : Counted s) (hfind : s.rb.geo.Findable b)
    {m : Outgoing} {head : UInt32} (hpc : s.p.pc = .pubEntry m head) :
    Found b (s.producerNext b) := by
  have hlocals := hok.producer.locals
  simp only [ProducerLocals, hpc] at hlocals
  obtain ⟨hsome, hmine, hhead⟩ := hlocals
  obtain ⟨hslot, hroom⟩ := hok.producer.reserved (by rw [hpc]; rfl) hsome
  simp only [Sys.producerNext, hpc]
  rw [hmine, hslot, hhead, hok.producer.head]
  intro hmode k hk hlt
  rcases Nat.lt_succ_iff_lt_or_eq.mp (show k < s.p.published + 1 from hlt) with hlt | rfl
  · refine (hfound hmode k hk (hlt.trans_le (Nat.le_add_right _ _))).frame (fun _ => ?_)
      fun hlap => absurd hlap hmode
    have hne := hok.cellAt_ne hroom hk hlt
    cases hmode' : b.mode with
    | index | pointer => simp [Sys.setStore, Sys.goP, Store.enter, Store.setEntry, hmode',
        Geometry.ofNat_and_mask, hne]
    | lap => exact absurd hmode' hmode
  · exact Store.entered_enter hfind _

theorem step_found {a : Act} (hstep : step b s a = some s') (hok : Counted s)
    (hfind : s.rb.geo.Findable b) (hfound : Found b s) : Found b s' := by
  have hgeo : s'.rb.geo = s.rb.geo := congrArg Prod.fst (step_settings hstep)
  have hkeep : s'.rb.store.entries = s.rb.store.entries → s.c.released ≤ s'.c.released →
      s'.p.entries ≤ s.p.entries → Found b s' := by
    intro hentries hreleased hle hmode k hk hlt
    rw [hgeo]
    exact (hfound hmode k (hreleased.trans hk) (hlt.trans_le hle)).frame
      (fun _ => by rw [hentries]) fun hlap => absurd hlap hmode
  cases ha : a.byProducer with
  | false =>
      have hframe := (step_consumerMove ha hstep).frame
      exact hkeep hframe.entries hframe.released_le (by rw [hframe.side])
  | true =>
      have hmove := step_producerMove ha hstep
      by_cases hentry : ∃ m head, s.p.pc = .pubEntry m head
      · obtain ⟨m, head, hpc⟩ := hentry
        obtain rfl : s.producerNext b = s' := by
          cases a <;> simp [Act.byProducer, step, hpc] at ha hstep
          exact hstep
        exact hfound.enter hok hfind hpc
      · have hpc : ∀ m head, s.p.pc ≠ .pubEntry m head := fun m head heq => hentry ⟨m, head, heq⟩
        have hstores := producer_stores ha hstep
        have hnone : cellTarget b s a = none := by
          unfold cellTarget
          split
          · split
            next m head heq => exact absurd heq (hpc m head)
            next => rfl
          · rfl
        rw [hnone] at hstores
        exact hkeep hstores.entries_eq (by rw [hmove.frame.side]) (hmove.entries_le hpc)

/-! ## The event loop -/

/-- Where the consumer's loop is. -/
inductive Phase where
  /-- In `poll`. -/
  | polling
  /-- In `rb_notify_drain_fd`. -/
  | emptying
  /-- In `rb_drain`, before a `rb_consume`. -/
  | draining
  /-- In a `rb_consume`. -/
  | taking
  /-- After the callback for the message of a slot, before its `rb_release`. -/
  | holding (slotIndex : UInt32)
  /-- In a `rb_release`. -/
  | giving
  deriving DecidableEq, Repr

/-- The two threads and the place in the loop. -/
structure Loop where
  sys : Sys
  phase : Phase

/-- The next move of the loop. `poll` returns when the eventfd is readable. -/
def Loop.next? (L : Loop) : Option Act :=
  match L.phase with
  | .polling => if L.sys.eventfd = 0 then none else some .drainFd
  | .emptying | .taking | .giving => some .consumer
  | .draining => some .consume
  | .holding slotIndex => some (.release slotIndex)

/-- The place in the loop after a move of the consumer. `rb_drain` goes on as long
as `rb_consume` returns a message; the callback always asks for more. -/
def Phase.after (s : Sys) : Phase → Phase
  | .polling | .emptying => if s.c.pc = .idle then .draining else .emptying
  | .draining | .taking =>
      if s.c.pc = .idle then
        match s.log.getLast? with
        | some (.reply (.message slotIndex _ _)) => .holding slotIndex
        | _ => .polling
      else .taking
  | .holding _ | .giving => if s.c.pc = .idle then .draining else .giving

/-- A move of the producer, or the next move of the loop. -/
def Loop.step (b : Build) (L : Loop) (a : Act) : Option Loop :=
  if a.byProducer then (Threads.step b L.sys a).map fun s => ⟨s, L.phase⟩
  else if L.next? = some a then (Threads.step b L.sys a).map fun s => ⟨s, L.phase.after s⟩
  else none

/-- A producer and the event loop of the consumer. -/
def eventLoop (b : Build) : Automaton Loop Act Unit where
  step L a := (L.step b a).map fun L' => ((), L')

theorem eventLoop_step_eq_some {L L' : Loop} {a : Act} {u : Unit} :
    (eventLoop b).step L a = some (u, L') ↔ L.step b a = some L' := by
  simp [eventLoop]

/-- The loop moves the threads only by their own moves. -/
theorem Loop.step_sys {L L' : Loop} {a : Act} (hstep : L.step b a = some L') :
    Threads.step b L.sys a = some L'.sys := by
  unfold Loop.step at hstep
  split_ifs at hstep
  all_goals
    obtain ⟨s, hs, rfl⟩ := Option.map_eq_some_iff.mp hstep
    exact hs

/-- From the store of `head` to the write of the eventfd. -/
def ProducerPc.announcing : ProducerPc → Bool
  | .pubWaiters _ _ | .pubWake _ _ | .pubEventfd _ _ => true
  | _ => false

/-- What a move of the producer does to the eventfd: whoever publishes announces
it, and whoever announces leaves the eventfd readable. -/
structure Announces (s s' : Sys) : Prop where
  eventfd : s.eventfd ≠ 0 → s'.eventfd ≠ 0
  published : s'.p.published = s.p.published ∨ s'.p.pc.announcing = true
  written : s.p.pc.announcing = true → s'.p.pc.announcing = true ∨ s'.eventfd ≠ 0

theorem Announces.of_silent (hfd : s'.eventfd = s.eventfd)
    (hpublished : s'.p.published = s.p.published) (hpc : s.p.pc.announcing = false) :
    Announces s s' :=
  ⟨fun hne => hfd ▸ hne, Or.inl hpublished, fun hin => by simp [hpc] at hin⟩

theorem finishAcquire_announces (b : Build) (s : Sys) (wantedLen head : UInt32)
    (hpc : s.p.pc.announcing = false) : Announces s (s.finishAcquire b wantedLen head) := by
  dsimp only [Sys.finishAcquire, reserve]
  split_ifs <;> exact .of_silent rfl rfl hpc

theorem producerNext_announces (hnotify : b.notify = true) (hfd : 0 ≤ s.rb.notifyFd) :
    Announces s (s.producerNext b) := by
  cases hpc : s.p.pc with
  | acqHead w =>
      simp only [Sys.producerNext, hpc]
      split
      · exact .of_silent rfl rfl (by rw [hpc]; rfl)
      · exact finishAcquire_announces b s w s.rb.head (by rw [hpc]; rfl)
  | acqTail w head =>
      simp only [Sys.producerNext, hpc]
      split
      · exact .of_silent rfl rfl (by rw [hpc]; rfl)
      · obtain ⟨heventfd, hpublished, hwritten⟩ :=
          finishAcquire_announces b s.refreshTail w head (by rw [Sys.refreshTail, hpc]; rfl)
        exact ⟨heventfd, hpublished, hwritten⟩
  | pubStore m head =>
      simp only [Sys.producerNext, hpc, hnotify]
      exact ⟨id, Or.inr rfl, fun _ => Or.inl rfl⟩
  | pubWaiters m head =>
      simp only [Sys.producerNext, hpc]
      split_ifs <;> exact ⟨id, Or.inl rfl, fun _ => Or.inl rfl⟩
  | pubWake m head =>
      simp only [Sys.producerNext, hpc]
      exact ⟨id, Or.inl rfl, fun _ => Or.inl rfl⟩
  | pubEventfd m head =>
      simp only [Sys.producerNext, hpc, if_pos hfd]
      exact ⟨fun _ => Nat.succ_ne_zero _, Or.inl rfl, fun _ => Or.inr (Nat.succ_ne_zero _)⟩
  | pubAdded m count | pubLatch =>
      simp only [Sys.producerNext, hpc]
      split_ifs <;> exact .of_silent rfl rfl (by rw [hpc]; rfl)
  | idle | pubHeader m | pubHead m | pubEntry m head | pubTail m head | pubSetLatch | pubFull =>
      simp only [Sys.producerNext, hpc]
      exact .of_silent rfl rfl (by rw [hpc]; rfl)

theorem ProducerMove.announces (hmove : ProducerMove b s s') (hnotify : b.notify = true)
    (hfd : 0 ≤ s.rb.notifyFd) : Announces s s' := by
  cases hmove with
  | acquire w hpc =>
      unfold Sys.startAcquire
      split_ifs <;> exact .of_silent rfl rfl (by rw [hpc]; rfl)
  | write offset byte hpc =>
      unfold Sys.runWrite payloadWrite
      split_ifs <;> exact .of_silent rfl rfl (by rw [hpc]; rfl)
  | publish i n t hpc =>
      unfold Sys.startPublish
      split_ifs <;> exact .of_silent rfl rfl (by rw [hpc]; rfl)
  | abort hpc =>
      unfold Sys.runAbort rbAbort
      split_ifs <;> exact .of_silent rfl rfl (by rw [hpc]; rfl)
  | next => exact producerNext_announces hnotify hfd
  | eventfdFails m head hpc hne => exact ⟨id, Or.inl rfl, fun _ => Or.inr hne⟩

/-! ## What holds in each place of the loop -/

/-- In `rb_consume`. -/
def ConsumerPc.taking : ConsumerPc → Bool
  | .conTail | .conHead _ | .conEntry _ | .conStale _ _ | .conHeader _ => true
  | _ => false

/-- In `rb_release`, before the store of `tail`. -/
def ConsumerPc.releasing : ConsumerPc → Bool
  | .relTail _ | .relStamp _ _ | .relStore _ => true
  | _ => false

/-- In `rb_release`, after the store of `tail`. -/
def ConsumerPc.lowering : ConsumerPc → Bool
  | .relClear _ _ | .relLowD _ _ | .relClearUp _ _ | .relLowE _ _ | .relFireE => true
  | .idle | .conTail | .conHead _ | .conEntry _ | .conStale _ _ | .conHeader _ | .relTail _
  | .relStamp _ _ | .relStore _ | .waitCount _ _ | .waitStart _ _ | .waitRaise _ | .waitCheck _
  | .waitNow _ | .waitFutex _ | .waitAsleep _ | .waitLate _ | .waitLower _ | .fdRead => false

theorem lowering_cases {pc : ConsumerPc} (hpc : pc.lowering = true) :
    (∃ o n, pc = .relClear o n) ∨ (∃ o n, pc = .relLowD o n) ∨ (∃ o n, pc = .relClearUp o n) ∨
      (∃ o n, pc = .relLowE o n) ∨ pc = .relFireE := by
  cases pc <;> simp [ConsumerPc.lowering] at hpc ⊢

/-- The ring is empty, or the consumer will hear of it. -/
def Heard (s : Sys) : Prop :=
  s.p.published = s.c.released ∨ s.eventfd ≠ 0 ∨ s.p.pc.announcing = true

/-- The state of the consumer in each place of its loop. -/
def Phase.Ok (s : Sys) : Phase → Prop
  | .polling => s.c.pc = .idle ∧ s.rb.consumerActive = 0 ∧ Heard s
  | .emptying => s.c.pc = .fdRead ∧ s.rb.consumerActive = 0
  | .draining => s.c.pc = .idle ∧ s.rb.consumerActive = 0
  | .taking => s.c.pc.taking = true
  | .holding slotIndex =>
      s.c.pc = .idle ∧ s.rb.consumerActive ≠ 0 ∧ slotIndex = s.rb.consumerSlot
  | .giving => s.c.pc.releasing = true ∨ s.c.pc.lowering = true ∧ s.rb.consumerActive = 0

theorem ProducerMove.phase (hmove : ProducerMove b s s') (hnotify : b.notify = true)
    (hfd : 0 ≤ s.rb.notifyFd) {phase : Phase} (hphase : phase.Ok s) : phase.Ok s' := by
  obtain ⟨hside, hregs, -, -, -⟩ := hmove.frame
  obtain ⟨heventfd, hpublished, hwritten⟩ := hmove.announces hnotify hfd
  simp only [Rb.consumerRegs, Prod.mk.injEq] at hregs
  have hheard : Heard s → Heard s' := by
    rintro (hempty | hready | hannounced)
    · rcases hpublished with hsame | hnew
      · exact Or.inl (by rw [hsame, hside, hempty])
      · exact Or.inr (Or.inr hnew)
    · exact Or.inr (Or.inl (heventfd hready))
    · exact Or.inr (hwritten hannounced).symm
  cases phase with
  | polling =>
      obtain ⟨hpc, hactive, hheard'⟩ := hphase
      exact ⟨by rw [hside, hpc], by rw [hregs.2.2.1, hactive], hheard hheard'⟩
  | emptying | draining | taking | holding i | giving =>
      simp only [Phase.Ok, hside, hregs.2.2.1, hregs.2.2.2.1] at hphase ⊢
      exact hphase

section Consumer

variable (hok : Counted s)

include hok

/-- The consumer finds the slot of the message it has seen. -/
theorem frontSlot_found (hfind : s.rb.geo.Findable b) (hfound : Found b s) {tail : UInt32}
    (hpc : s.c.pc = .conEntry tail) :
    s.rb.store.frontSlot b s.rb.geo tail = some (.ok (s.rb.geo.slotAt s.c.released)) := by
  have hlocals := hok.consumer.locals
  simp only [ConsumerLocals, hpc] at hlocals
  obtain ⟨-, rfl, hlt⟩ := hlocals
  rw [hok.consumer.tail]
  by_cases hmode : b.mode = .lap
  · exact Store.frontSlot_lap hfind.toMasked hmode _
  · exact (hfound hmode _ le_rfl ((hlt.trans_le hok.consumer.knownHead_le).trans_le
      (Nat.le_add_right _ _))).frontSlot hfind

theorem taking_empty (hactive : s.rb.consumerActive = 0) (hsame : s.rb.tail = s.rb.head) :
    (Phase.taking.after (s.refreshHead.returnC (.code .empty))).Ok
      (s.refreshHead.returnC (.code .empty)) := by
  have hempty := hok.empty_of_tail_eq_head hsame
  have hphase : Phase.taking.after (s.refreshHead.returnC (.code .empty)) = .polling := by
    simp [Phase.after, Sys.returnC]
  rw [hphase]
  exact ⟨rfl, hactive, Or.inl hempty⟩

/-- A step of `rb_consume`: it goes on, finds the ring empty or takes a message. -/
theorem taking_after (hfind : s.rb.geo.Findable b) (hfound : Found b s)
    (hpc : s.c.pc.taking = true) (hnext : s.consumerStep b = some s') :
    (Phase.taking.after s').Ok s' := by
  have hlocals := hok.consumer.locals
  cases hcase : s.c.pc <;> simp [ConsumerPc.taking, hcase] at hpc
  case conTail =>
    simp only [Sys.consumerStep, hcase] at hnext
    obtain rfl := Option.some.inj hnext
    split_ifs <;> exact rfl
  case conHead tail =>
    simp only [ConsumerLocals, hcase] at hlocals
    obtain ⟨hactive, rfl⟩ := hlocals
    simp only [Sys.consumerStep, hcase] at hnext
    obtain rfl := Option.some.inj hnext
    split_ifs with hempty
    · exact taking_empty hok hactive hempty
    · exact rfl
  case conEntry tail =>
    simp only [Sys.consumerStep, hcase, frontSlot_found hok hfind hfound hcase] at hnext
    obtain rfl := Option.some.inj hnext
    split_ifs <;> exact rfl
  case conStale tail i =>
    simp only [ConsumerLocals, hcase] at hlocals
    obtain ⟨hactive, rfl, -⟩ := hlocals
    simp only [Sys.consumerStep, hcase] at hnext
    obtain rfl := Option.some.inj hnext
    split_ifs with hempty
    · exact taking_empty hok hactive hempty.symm
    · exact rfl
  case conHeader i =>
    simp only [Sys.consumerStep, hcase] at hnext
    obtain rfl := Option.some.inj hnext
    have hphase : ∀ d : Delivered,
        Phase.taking.after ((s.latch d).returnC (.message d.slotIndex d.len d.truncated)) =
          .holding d.slotIndex := fun d => by simp [Phase.after, Sys.returnC]
    rw [hphase ⟨i, _, _⟩]
    exact ⟨rfl, (by decide : (1 : UInt32) ≠ 0), rfl⟩

omit hok in
/-- A step of `rb_release` after the slot was given up. -/
theorem lowering_after (hpc : s.c.pc.lowering = true) (hactive : s.rb.consumerActive = 0)
    (hnext : s.consumerStep b = some s') : (Phase.giving.after s').Ok s' := by
  rcases lowering_cases hpc with
    ⟨o, n, hcase⟩ | ⟨o, n, hcase⟩ | ⟨o, n, hcase⟩ | ⟨o, n, hcase⟩ | hcase
  · simp only [Sys.consumerStep, hcase] at hnext
    obtain rfl := Option.some.inj hnext
    exact Or.inr ⟨rfl, hactive⟩
  · simp only [Sys.consumerStep, hcase] at hnext
    obtain rfl := Option.some.inj hnext
    exact Or.inr ⟨rfl, hactive⟩
  · simp only [Sys.consumerStep, hcase] at hnext
    obtain rfl := Option.some.inj hnext
    exact Or.inr ⟨rfl, hactive⟩
  · simp only [Sys.consumerStep, hcase, Sys.crossLowE] at hnext
    obtain rfl := Option.some.inj hnext
    split_ifs
    · exact Or.inr ⟨rfl, hactive⟩
    · exact ⟨rfl, hactive⟩
    · exact ⟨rfl, hactive⟩
  · simp only [Sys.consumerStep, hcase] at hnext
    obtain rfl := Option.some.inj hnext
    exact ⟨rfl, hactive⟩

omit hok in
/-- A step of `rb_release`: it goes on or returns, and the slot is given up. -/
theorem giving_after (hphase : Phase.giving.Ok s) (hnext : s.consumerStep b = some s') :
    (Phase.giving.after s').Ok s' := by
  rcases hphase with hpc | ⟨hpc, hactive⟩
  · cases hcase : s.c.pc <;> simp [ConsumerPc.releasing, hcase] at hpc
    case relTail i =>
      simp only [Sys.consumerStep, hcase] at hnext
      obtain rfl := Option.some.inj hnext
      split_ifs <;> exact Or.inl rfl
    case relStamp i tail =>
      simp only [Sys.consumerStep, hcase] at hnext
      obtain rfl := Option.some.inj hnext
      exact Or.inl rfl
    case relStore tail =>
      simp only [Sys.consumerStep, hcase, Sys.crossing] at hnext
      obtain rfl := Option.some.inj hnext
      split_ifs <;> exact Or.inr ⟨rfl, rfl⟩
  · exact lowering_after hpc hactive hnext

/-- Every move of the loop leads to what holds in its next place. -/
theorem Phase.after_ok {phase : Phase} {a : Act} (hfind : s.rb.geo.Findable b)
    (hfound : Found b s) (hinit : s.rb.geo.scratchSize ≠ 0) (hfd : 0 ≤ s.rb.notifyFd)
    (hact : Loop.next? ⟨s, phase⟩ = some a) (hstep : step b s a = some s')
    (hphase : phase.Ok s) : (phase.after s').Ok s' := by
  cases phase with
  | polling =>
      simp only [Loop.next?, Option.ite_none_left_eq_some, Option.some.injEq] at hact
      obtain ⟨-, rfl⟩ := hact
      obtain ⟨hpc, hactive, -⟩ := hphase
      simp only [step, if_pos hpc, Sys.startDrainFd, if_neg (not_lt.mpr hfd)] at hstep
      obtain rfl := Option.some.inj hstep
      exact ⟨rfl, hactive⟩
  | emptying =>
      obtain rfl := Option.some.inj hact
      obtain ⟨hpc, hactive⟩ := hphase
      simp only [step, Sys.consumerStep, hpc] at hstep
      obtain rfl := Option.some.inj hstep
      split_ifs with hready
      · simp only [Phase.after, hpc]
        exact ⟨hpc, hactive⟩
      · exact ⟨rfl, hactive⟩
  | draining =>
      obtain rfl := Option.some.inj hact
      obtain ⟨hpc, hactive⟩ := hphase
      simp only [step, if_pos hpc, Sys.startConsume, if_neg hinit, if_neg (not_not.mpr hactive)]
        at hstep
      obtain rfl := Option.some.inj hstep
      exact rfl
  | taking =>
      obtain rfl := Option.some.inj hact
      exact taking_after hok hfind hfound hphase hstep
  | holding i =>
      obtain rfl := Option.some.inj hact
      obtain ⟨hpc, hactive, rfl⟩ := hphase
      simp only [step, if_pos hpc, Sys.startRelease, if_neg hinit] at hstep
      rw [if_neg (by simp [hactive])] at hstep
      obtain rfl := Option.some.inj hstep
      exact Or.inl rfl
  | giving =>
      obtain rfl := Option.some.inj hact
      exact giving_after hphase hstep

end Consumer

/-! ## Runs -/

/-- What holds after every move of the producer and of the loop. -/
structure LoopOk (b : Build) (rb : Rb) (L : Loop) : Prop where
  settings : L.sys.rb.settings = rb.settings
  counted : Counted L.sys
  found : Found b L.sys
  phase : L.phase.Ok L.sys

theorem LoopOk.step {rb : Rb} {L L' : Loop} {a : Act} (hloop : LoopOk b rb L)
    (hnotify : b.notify = true) (hfind : rb.geo.Findable b) (hinit : rb.geo.scratchSize ≠ 0)
    (hfd : 0 ≤ rb.notifyFd) (hstep : L.step b a = some L') : LoopOk b rb L' := by
  have hsys := Loop.step_sys hstep
  have hset := hloop.settings
  simp only [Rb.settings, Prod.mk.injEq] at hset
  obtain ⟨hgeo, -, -, -, -, -, hfd'⟩ := hset
  rw [← hgeo] at hfind hinit
  rw [← hfd'] at hfd
  refine ⟨(step_settings hsys).trans hloop.settings, step_counted hloop.counted hsys,
    step_found hsys hloop.counted hfind hloop.found, ?_⟩
  unfold Loop.step at hstep
  split_ifs at hstep with ha hact
  · obtain ⟨s, hs, rfl⟩ := Option.map_eq_some_iff.mp hstep
    exact (step_producerMove ha hs).phase hnotify hfd hloop.phase
  · obtain ⟨s, hs, rfl⟩ := Option.map_eq_some_iff.mp hstep
    exact Phase.after_ok hloop.counted hfind hloop.found hinit hfd hact hs hloop.phase

/-- `rb_notify_fd` changes nothing but the descriptor. -/
theorem rbNotifyFd_eq {rb rb' : Rb} {created fd : Int} (hfd : rbNotifyFd rb created = (fd, rb'))
    (hok : 0 ≤ fd) :
    rb.geo.scratchSize ≠ 0 ∧ 0 ≤ rb'.notifyFd ∧ rb' = { rb with notifyFd := rb'.notifyFd } := by
  unfold rbNotifyFd at hfd
  split_ifs at hfd with hinit hhave hfail <;> obtain ⟨rfl, rfl⟩ := Prod.mk.inj hfd
  · exact absurd hok (by decide)
  · exact ⟨hinit, hok, rfl⟩
  · exact absurd hok (by omega)
  · exact ⟨hinit, hok, rfl⟩

theorem start_loopOk {addr scratch scratchSize : BitVec b.sizeBits} {cfg : Config}
    {before : Store} {rb : Rb} (hacc : Accepted b addr cfg scratch scratchSize before rb)
    (fd : Int) :
    LoopOk b { rb with notifyFd := fd } ⟨start { rb with notifyFd := fd }, .polling⟩ := by
  obtain ⟨hsized, hp, hc⟩ := start_counted hacc
  refine ⟨rfl, ⟨?_, ?_, ?_⟩, fun _ k _ hlt => absurd hlt (Nat.not_lt_zero k), rfl, ?_, Or.inl rfl⟩
  · exact ⟨hsized.toMasked, hsized.limit_le_capacity, hsized.limit_le_slots, hsized.limit_pos⟩
  · exact ⟨hp.head, hp.cachedTail, hp.knownTail_le, hp.knownTail_le_published, hp.room,
      hp.reserved, hp.locals, hp.sent_length, hp.sent_slot⟩
  · exact ⟨hc.tail, hc.cachedHead, hc.released_le, hc.knownHead_le, hc.active, hc.locals,
      hc.delivered_length⟩
  · rw [hacc.eq]
    rfl

/-- The event loop, once `rb_notify_fd` has given it a descriptor: while it waits
in `poll` and the ring is not empty, the eventfd is readable or the producer is
about to write it. -/
theorem no_stranded_message {addr scratch scratchSize : BitVec b.sizeBits} {cfg : Option Config}
    {before : Store} {rb rb' : Rb} {created fd : Int} {L : Loop}
    (hinit : rbInit b addr cfg scratch scratchSize before = .ok rb)
    (hptr : b.mode = .pointer → rb.geo.NonOverlapping ∧ rb.geo.Addressable b)
    (hnotify : b.notify = true) (hfd : rbNotifyFd rb created = (fd, rb')) (hok : 0 ≤ fd)
    (hreach : (eventLoop b).Reaches ⟨start rb', .polling⟩ L)
    (hpoll : L.phase = .polling) (hsome : L.sys.rb.head ≠ L.sys.rb.tail) :
    L.sys.eventfd ≠ 0 ∨ L.sys.p.pc.announcing = true := by
  obtain ⟨cfg', -, hacc⟩ := rbInit_accepted hinit
  obtain ⟨hready, hopen, heq⟩ := rbNotifyFd_eq hfd hok
  have hgeo : rb'.geo = rb.geo := by rw [heq]
  have hfind : rb'.geo.Findable b := by
    rw [hgeo]
    exact { hacc.masked with
      pointer := fun hmode => ⟨hacc.sound (hptr hmode).1, (hptr hmode).2⟩ }
  have hstart : LoopOk b rb' ⟨start rb', .polling⟩ := by
    rw [heq]
    exact start_loopOk hacc _
  have hloop := hreach.invariant (LoopOk b rb') hstart fun hL hmove =>
    hL.step hnotify hfind (hgeo ▸ hready) hopen (eventLoop_step_eq_some.mp hmove)
  obtain ⟨s, phase⟩ := L
  obtain rfl : phase = .polling := hpoll
  obtain ⟨-, -, hempty | hheard⟩ := hloop.phase
  · exact absurd (by rw [hloop.counted.producer.head, hloop.counted.consumer.tail, hempty]) hsome
  · exact hheard

/-- One message is published, heard of and taken, and the loop is back in `poll`;
then a second one is published and not announced yet. -/
def lateMessage : List Act :=
  [.acquire 0, .producer, .publishEx 0 0 false, .producer, .producer, .producer, .producer,
    .producer, .producer, .drainFd, .consumer, .consumer, .consume, .consumer, .consumer,
    .consumer, .consumer, .release 0, .consumer, .consumer, .consumer, .consume, .consumer,
    .consumer, .producer, .producer, .acquire 0, .producer, .publishEx 1 0 false, .producer,
    .producer, .producer, .producer]

theorem smallRing_no_stranded_message :
    ∃ L, (eventLoop { mode := .index, notify := true }).Reaches
        ⟨start (rbNotifyFd (smallRing .index) 7).2, .polling⟩ L ∧
      L.phase = .polling ∧ L.sys.rb.head ≠ L.sys.rb.tail ∧ L.sys.eventfd = 0 ∧
      L.sys.p.pc.announcing = true := by
  obtain ⟨L, hreach, hseen⟩ := Automaton.Reaches.of_run
    (eventLoop { mode := .index, notify := true })
    ⟨start (rbNotifyFd (smallRing .index) 7).2, .polling⟩ lateMessage
    (fun L => (L.phase, decide (L.sys.rb.head ≠ L.sys.rb.tail), L.sys.eventfd))
    (show _ = some (.polling, true, 0) by decide +kernel)
  obtain ⟨hpoll, hsome, hzero⟩ : _ ∧ _ ∧ _ := by simpa only [Prod.mk.injEq] using hseen
  have hsome := of_decide_eq_true hsome
  have hinit : rbInit { mode := .index, notify := true } 64#64 (some smallConfig) 4096#64 128#64
      blank = .ok (smallRing .index) := rfl
  have hheard := no_stranded_message hinit nofun rfl (show rbNotifyFd _ 7 = (7, _) from rfl)
    (by decide) hreach hpoll hsome
  exact ⟨L, hreach, hpoll, hsome, hzero, hheard.resolve_left (not_not.mpr hzero)⟩

end Threads

end RingBuff
