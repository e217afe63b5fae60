import RingBuff.Backpressure.Sequential
import RingBuff.Threads.Counters

/-! # Backpressure between two threads

`rb_publish_ex` finds the ring full from a load of `tail` and then, in separate
steps, loads the latch, sets it and calls `on_full`. In between the consumer may
drain the ring, clear the latch and call `on_low_d`. The latch is then set, or
`on_full` called, after the last crossing of the threshold, and the producer
waits for a callback that will not come. Here is what keeps the hand-off intact:
the consumer must not clear the latch inside that window, unless so much has been
published unseen that another crossing is certain.
-/

namespace RingBuff.Threads

variable {b : Build} {s s' : Sys}

/-- The callbacks in a log. -/
def eventsOf (log : List Obs) : List Event :=
  log.filterMap fun
    | .event e => some e
    | .reply _ | .waited _ => none

@[simp]
theorem eventsOf_reply (log : List Obs) (r : Reply) :
    eventsOf (log ++ [.reply r]) = eventsOf log := by
  simp [eventsOf]

@[simp]
theorem eventsOf_waited (log : List Obs) (result : Int) :
    eventsOf (log ++ [.waited result]) = eventsOf log := by
  simp [eventsOf]

@[simp]
theorem eventsOf_callback (s : Sys) (installed : Bool) (event : Event) :
    eventsOf (s.callback installed event).log = eventsOf s.log ++ fire installed event := by
  cases installed <;> simp [eventsOf, Sys.callback, fire]

namespace Sys

/-- The last of `on_full` and `on_low_d` to run was `on_full`. -/
def stopped (s : Sys) : Bool := RingBuff.stopped (eventsOf s.log)

/-- The `low_d` threshold as a number of messages. -/
def level (s : Sys) : Nat := threshold s.rb.limit.toNat s.rb.lowD.toNat

def Owed (s : Sys) : Prop := RingBuff.Owed s.level s.c.released s.c.knownHead s.p.published

/-- `rb_publish_ex` has found the ring full and has not called `on_full` yet. -/
def committed (s : Sys) : Bool :=
  match s.p.pc with
  | .pubAdded _ count => s.rb.limit ≤ count
  | .pubLatch | .pubSetLatch | .pubFull => true
  | _ => false

end Sys

/-- `rb_release` is about to clear the latch. -/
def ConsumerPc.clearing : ConsumerPc → Bool
  | .relClear _ _ => true
  | _ => false

/-- `rb_release` has seen a crossing and has not called `on_low_d` yet. -/
def ConsumerPc.signalling : ConsumerPc → Bool
  | .relClear _ _ | .relLowD _ _ => true
  | _ => false

/-- The branch of `rb_release` for a crossing upwards. -/
def ConsumerPc.clearingUp : ConsumerPc → Bool
  | .relClearUp _ _ => true
  | _ => false

/-- While the latch is set or will be, and while the producer waits or will wait,
a crossing is still to be seen or is just being handled. -/
structure Pressed (s : Sys) : Prop where
  latch : s.rb.fullLatch ≠ 0 ∨ s.committed = true → s.Owed ∨ s.c.pc.clearing = true
  waits : s.rb.cb.onLowD = true → s.stopped = true ∨ s.committed = true →
    s.Owed ∨ s.c.pc.signalling = true
  down : s.c.pc.clearingUp = false

/-! ## The producer -/

/-- What a move of the producer can do to the hand-off. -/
structure Presses (s s' : Sys) : Prop where
  committed : s'.committed = true → s.committed = true ∨
    s.rb.limit.toNat ≤ s'.p.published - s'.c.released
  latch : s'.rb.fullLatch ≠ 0 → s.rb.fullLatch ≠ 0 ∨ s.committed = true
  stopped : s'.stopped = true → s.stopped = true ∨ s.committed = true

/-- A move that leaves latch and log alone and ends outside of the window. -/
theorem Presses.of_quiet (hcommitted : s'.committed = false)
    (hlatch : s'.rb.fullLatch = s.rb.fullLatch) (hlog : eventsOf s'.log = eventsOf s.log) :
    Presses s s' where
  committed hin := by rw [hcommitted] at hin; cases hin
  latch hne := Or.inl (hlatch ▸ hne)
  stopped hstop := by
    rw [Sys.stopped, hlog] at hstop
    exact Or.inl hstop

theorem finishAcquire_presses (b : Build) (s : Sys) (wantedLen head : UInt32) :
    Presses s (s.finishAcquire b wantedLen head) := by
  dsimp only [Sys.finishAcquire, reserve]
  split_ifs <;> exact .of_quiet rfl rfl (eventsOf_reply _ _)

theorem producerNext_presses (hok : Counted s) : Presses s (s.producerNext b) := by
  have hlocals := hok.producer.locals
  have hlt := s.rb.limit.toNat_lt
  have hle := hok.published_le
  cases hpc : s.p.pc with
  | idle =>
      simp only [Sys.producerNext, hpc]
      exact .of_quiet (by simp [Sys.committed, hpc]) rfl rfl
  | acqHead w =>
      simp only [Sys.producerNext, hpc]
      split
      · exact .of_quiet rfl rfl rfl
      · exact finishAcquire_presses b s w s.rb.head
  | acqTail w head =>
      simp only [Sys.producerNext, hpc]
      split
      · exact .of_quiet rfl rfl (eventsOf_reply _ _)
      · obtain ⟨hcommitted, hlatch, hstopped⟩ := finishAcquire_presses b s.refreshTail w head
        exact ⟨hcommitted, hlatch, hstopped⟩
  | pubTail m head =>
      -- the load of `tail`: full means that the ring is full at this moment
      simp only [ProducerLocals, hpc] at hlocals
      have hcount : (head + 1 - s.rb.tail).toNat = s.p.published - s.c.released := by
        rw [hlocals, hok.count_eq]
      simp only [Sys.producerNext, hpc]
      refine ⟨fun hfull => Or.inr ?_, Or.inl, Or.inl⟩
      have hfull : s.rb.limit ≤ head + 1 - s.rb.tail := of_decide_eq_true hfull
      rw [UInt32.le_iff_toNat_le, hcount] at hfull
      exact hfull
  | pubAdded m count =>
      have hin : s.committed = decide (s.rb.limit ≤ count) := by simp [Sys.committed, hpc]
      have hlog := stopped_fire (eventsOf s.log) s.rb.cb.onSlotAdded
        (.slotAdded m.slotIndex m.len m.truncated) (by rintro ⟨⟩) (by rintro ⟨⟩)
      simp only [Sys.producerNext, hpc]
      split
      next hfull =>
        refine ⟨fun _ => Or.inl (hin.trans (decide_eq_true hfull)), Or.inl, fun hstop => Or.inl ?_⟩
        rwa [Sys.stopped, Sys.goP, eventsOf_callback, hlog] at hstop
      next hfull =>
        refine ⟨(by rintro ⟨⟩), Or.inl, fun hstop => Or.inl ?_⟩
        rwa [Sys.stopped, Sys.returnP, eventsOf_reply, eventsOf_callback, hlog] at hstop
  | pubLatch =>
      have hin : s.committed = true := by simp [Sys.committed, hpc]
      simp only [Sys.producerNext, hpc]
      split
      · exact ⟨fun _ => Or.inl hin, fun _ => Or.inr hin, fun _ => Or.inr hin⟩
      · exact .of_quiet rfl rfl (eventsOf_reply _ _)
  | pubSetLatch | pubFull =>
      have hin : s.committed = true := by simp [Sys.committed, hpc]
      exact ⟨fun _ => Or.inl hin, fun _ => Or.inr hin, fun _ => Or.inr hin⟩
  | pubStore m head =>
      simp only [Sys.producerNext, hpc]
      split_ifs <;> exact .of_quiet rfl rfl rfl
  | pubWaiters m head =>
      simp only [Sys.producerNext, hpc]
      split_ifs <;> exact .of_quiet rfl rfl rfl
  | pubHeader m | pubHead m | pubEntry m head | pubWake m head | pubEventfd m head =>
      simp only [Sys.producerNext, hpc]
      exact .of_quiet rfl rfl rfl

theorem ProducerMove.presses (hmove : ProducerMove b s s') (hok : Counted s) :
    Presses s s' := by
  cases hmove with
  | acquire w hpc =>
      unfold Sys.startAcquire
      split_ifs
      · exact .of_quiet rfl rfl (eventsOf_reply _ _)
      · exact .of_quiet rfl rfl (eventsOf_reply _ _)
      · exact .of_quiet rfl rfl rfl
  | write offset byte hpc =>
      unfold Sys.runWrite payloadWrite
      split_ifs <;> exact .of_quiet rfl rfl (eventsOf_reply _ _)
  | publish i n t hpc =>
      unfold Sys.startPublish
      split_ifs
      · exact .of_quiet rfl rfl (eventsOf_reply _ _)
      · exact .of_quiet rfl rfl (eventsOf_reply _ _)
      · exact .of_quiet rfl rfl rfl
  | abort hpc =>
      unfold Sys.runAbort rbAbort
      split_ifs <;> exact .of_quiet rfl rfl (eventsOf_reply _ _)
  | next => exact producerNext_presses hok
  | eventfdFails m head hpc hfd => exact .of_quiet rfl rfl rfl

theorem Sys.level_eq (hset : s'.rb.settings = s.rb.settings) : s'.level = s.level := by
  simp only [Rb.settings, Prod.mk.injEq] at hset
  rw [Sys.level, Sys.level, hset.2.1, hset.2.2.1]

theorem Sys.onLowD_eq (hset : s'.rb.settings = s.rb.settings) :
    s'.rb.cb.onLowD = s.rb.cb.onLowD := by
  simp only [Rb.settings, Prod.mk.injEq] at hset
  rw [hset.2.2.2.2.2.1]

/-- What the producer does keeps the crossing owed, or owes a new one. -/
theorem ProducerMove.pressed (hmove : ProducerMove b s s') (hok : Counted s)
    (hlevel : 2 * s.level ≤ s.rb.limit.toNat + 1) (hpressed : Pressed s) : Pressed s' := by
  obtain ⟨hside, -, hset, hgrow, -⟩ := hmove.frame
  obtain ⟨hcommitted, hlatch, hstopped⟩ := hmove.presses hok
  have hkeep : s.Owed → s'.Owed := by
    intro howed
    rw [Sys.Owed, Sys.level_eq hset, hside]
    exact howed.grow hgrow
  have hfresh : s.rb.limit.toNat ≤ s'.p.published - s'.c.released → s'.Owed := by
    intro hfull
    rw [Sys.Owed, Sys.level_eq hset, hside]
    rw [hside] at hfull
    exact .of_full hlevel hok.consumer.released_le hfull
  constructor
  case latch =>
    rw [hside]
    intro hin
    have hsource : (s.rb.fullLatch ≠ 0 ∨ s.committed = true) ∨
        s.rb.limit.toNat ≤ s'.p.published - s'.c.released := by
      rcases hin with hne | hwin
      · exact Or.inl (hlatch hne)
      · exact (hcommitted hwin).imp_left Or.inr
    rcases hsource with hold | hfull
    · exact (hpressed.latch hold).imp_left hkeep
    · exact Or.inl (hfresh hfull)
  case waits =>
    rw [hside, Sys.onLowD_eq hset]
    intro hcb hin
    have hsource : (s.stopped = true ∨ s.committed = true) ∨
        s.rb.limit.toNat ≤ s'.p.published - s'.c.released := by
      rcases hin with hstop | hwin
      · exact Or.inl (hstopped hstop)
      · exact (hcommitted hwin).imp_left Or.inr
    rcases hsource with hold | hfull
    · exact (hpressed.waits hcb hold).imp_left hkeep
    · exact Or.inl (hfresh hfull)
  case down =>
    rw [hside]
    exact hpressed.down

/-! ## The consumer -/

theorem Sys.committed_eq (hframe : SameProducer s s') : s'.committed = s.committed := by
  obtain ⟨hside, -, hset, -⟩ := hframe
  simp only [Rb.settings, Prod.mk.injEq] at hset
  rw [Sys.committed, Sys.committed, hside, hset.2.1]

/-- A move of the consumer that handles no crossing: what is owed stays owed or is
about to be handled. -/
theorem Pressed.of_calm (hpressed : Pressed s) (hframe : SameProducer s s')
    (hpc : s.c.pc.signalling = false) (hdown : s'.c.pc.clearingUp = false)
    (hlatch : s'.rb.fullLatch = s.rb.fullLatch) (hstopped : s'.stopped = s.stopped)
    (howed : s.Owed → s'.Owed ∨ s'.c.pc.clearing = true) : Pressed s' := by
  have hclearing : s.c.pc.clearing ≠ true := by
    intro hclear
    cases hcase : s.c.pc <;> simp [ConsumerPc.clearing, ConsumerPc.signalling, hcase] at hclear hpc
  have hsignal : s'.c.pc.clearing = true → s'.c.pc.signalling = true := by
    cases s'.c.pc <;> simp [ConsumerPc.clearing, ConsumerPc.signalling]
  constructor
  case latch =>
    rw [hlatch, Sys.committed_eq hframe]
    exact fun hin => howed ((hpressed.latch hin).resolve_right hclearing)
  case waits =>
    rw [hstopped, Sys.committed_eq hframe, Sys.onLowD_eq hframe.settings]
    intro hcb hin
    exact (howed ((hpressed.waits hcb hin).resolve_right (by simp [hpc]))).imp_right hsignal
  case down => exact hdown

/-- A move of the consumer that changes neither its counters nor the log of
callbacks. -/
theorem Pressed.of_same (hpressed : Pressed s) (hframe : SameProducer s s')
    (hpc : s.c.pc.signalling = false) (hdown : s'.c.pc.clearingUp = false)
    (hlatch : s'.rb.fullLatch = s.rb.fullLatch) (hlog : eventsOf s'.log = eventsOf s.log)
    (hreleased : s'.c.released = s.c.released) (hknown : s'.c.knownHead = s.c.knownHead) :
    Pressed s' := by
  refine hpressed.of_calm hframe hpc hdown hlatch (congrArg RingBuff.stopped hlog) ?_
  intro howed
  left
  rwa [Sys.Owed, Sys.level_eq hframe.settings, hreleased, hknown, hframe.side]

/-- Looking at the head. -/
theorem Pressed.of_look (hpressed : Pressed s) (hok : Counted s) (hframe : SameProducer s s')
    (hpc : s.c.pc.signalling = false) (hdown : s'.c.pc.clearingUp = false)
    (hlatch : s'.rb.fullLatch = s.rb.fullLatch) (hlog : eventsOf s'.log = eventsOf s.log)
    (hreleased : s'.c.released = s.c.released) (hknown : s'.c.knownHead = s.p.published) :
    Pressed s' := by
  refine hpressed.of_calm hframe hpc hdown hlatch (congrArg RingBuff.stopped hlog) ?_
  intro howed
  left
  rw [Sys.Owed, Sys.level_eq hframe.settings, hreleased, hknown, hframe.side]
  exact howed.look hok.consumer.released_le hok.consumer.knownHead_le

/-- The counts `rb_release` compares are exact. -/
theorem crossing_eq (hok : Counted s) (hactive : s.rb.consumerActive ≠ 0) :
    (s.crossing (s.rb.cachedHead - (s.rb.tail + 1) + 1)
      (s.rb.cachedHead - (s.rb.tail + 1))).clearingUp = false ∧
    (¬ s.c.knownHead - s.c.released < s.level ∧ s.c.knownHead - (s.c.released + 1) < s.level →
      (s.crossing (s.rb.cachedHead - (s.rb.tail + 1) + 1)
        (s.rb.cachedHead - (s.rb.tail + 1))).clearing = true) := by
  have hlt := hok.consumer.active hactive
  have hroom := hok.published_le
  have hlimit := hok.sized.limit_le
  have hknown := hok.consumer.knownHead_le
  have hnew : s.rb.cachedHead - (s.rb.tail + 1) =
      UInt32.ofNat (s.c.knownHead - (s.c.released + 1)) := by
    rw [hok.consumer.cachedHead, hok.consumer.tail, ← Counter.ofNat_succ, UInt32.ofNat_sub hlt]
  have hold : s.rb.cachedHead - (s.rb.tail + 1) + 1 =
      UInt32.ofNat (s.c.knownHead - s.c.released) := by
    rw [hnew, ← Counter.ofNat_succ]
    congr 1
    omega
  have hnewD : belowLow (s.rb.cachedHead - (s.rb.tail + 1)) s.rb.limit s.rb.lowD = true ↔
      s.c.knownHead - (s.c.released + 1) < s.level := by
    rw [hnew, belowLow_ofNat (by omega), below_iff]
    rfl
  have holdD : belowLow (s.rb.cachedHead - (s.rb.tail + 1) + 1) s.rb.limit s.rb.lowD = true ↔
      s.c.knownHead - s.c.released < s.level := by
    rw [hold, belowLow_ofNat (by omega), below_iff]
    rfl
  simp only [Sys.crossing]
  constructor
  · split_ifs with hdown hup
    · rfl
    · simp only [Bool.and_eq_true, Bool.not_eq_true', ← Bool.not_eq_true, hnewD, holdD] at hup
      omega
    · rfl
  · intro hcross
    rw [if_pos (by
      simp only [Bool.and_eq_true, Bool.not_eq_true', ← Bool.not_eq_true, hnewD, holdD]
      exact hcross)]
    rfl

theorem consumerStep_pressed (hnext : s.consumerStep b = some s') (hok : Counted s)
    (hclear : s.c.pc.clearing = true → s.committed = true →
      s.level ≤ s.p.published - s.c.knownHead)
    (hpressed : Pressed s) : Pressed s' := by
  have hframe := consumerStep_frame hnext
  have hlocals := hok.consumer.locals
  have hdown := hpressed.down
  cases hpc : s.c.pc with
  | idle | waitStart _ _ | waitNow _ | waitLate _ =>
      simp [Sys.consumerStep, hpc] at hnext
  | conHead tail | conStale tail i =>
      simp only [Sys.consumerStep, hpc] at hnext
      obtain rfl := Option.some.inj hnext
      split_ifs at hframe ⊢
      · exact hpressed.of_look hok hframe (by rw [hpc]; rfl) rfl rfl (eventsOf_reply _ _) rfl rfl
      · exact hpressed.of_look hok hframe (by rw [hpc]; rfl) rfl rfl rfl rfl rfl
  | conEntry tail =>
      simp only [Sys.consumerStep, hpc] at hnext
      split at hnext
      · cases hnext
      · obtain rfl := Option.some.inj hnext
        exact hpressed.of_same hframe (by rw [hpc]; rfl) rfl rfl (eventsOf_reply _ _) rfl rfl
      · obtain rfl := Option.some.inj hnext
        split_ifs at hframe ⊢ <;>
          exact hpressed.of_same hframe (by rw [hpc]; rfl) rfl rfl rfl rfl rfl
  | relStore tail =>
      simp only [Sys.consumerStep, hpc] at hnext
      simp only [ConsumerLocals, hpc] at hlocals
      obtain ⟨hactive, rfl⟩ := hlocals
      obtain rfl := Option.some.inj hnext
      obtain ⟨hup, hcross⟩ := crossing_eq hok hactive
      refine hpressed.of_calm hframe (by rw [hpc]; rfl) hup rfl rfl fun howed => ?_
      exact howed.take.imp_right hcross
  | relClear o n =>
      -- the latch is cleared; what the producer is about to do must stay owed
      simp only [Sys.consumerStep, hpc] at hnext
      obtain rfl := Option.some.inj hnext
      refine ⟨?_, fun _ _ => Or.inr rfl, rfl⟩
      rintro (hne | hwin)
      · exact absurd rfl hne
      · rw [Sys.committed_eq hframe] at hwin
        exact Or.inl (Or.inr (hclear (by rw [hpc]; rfl) hwin))
  | relLowD o n =>
      simp only [Sys.consumerStep, hpc] at hnext
      obtain rfl := Option.some.inj hnext
      have howed : s.rb.fullLatch ≠ 0 ∨ s.committed = true → s.Owed :=
        fun hin => (hpressed.latch hin).resolve_right (by simp [hpc, ConsumerPc.clearing])
      refine ⟨fun hin => Or.inl (howed ?_), fun hcb hin => Or.inl (howed (Or.inr ?_)), rfl⟩
      · rwa [Sys.committed_eq hframe] at hin
      · rcases hin with hstop | hwin
        · -- `on_low_d` has just run
          have hcb : s.rb.cb.onLowD = true := hcb
          rw [Sys.stopped, Sys.goC, eventsOf_callback, hcb, fire, if_pos rfl,
            stopped_append] at hstop
          cases hstop
        · rwa [Sys.committed_eq hframe] at hwin
  | relClearUp o n =>
      rw [hpc] at hdown
      cases hdown
  | relLowE o n =>
      simp only [Sys.consumerStep, hpc, Sys.crossLowE] at hnext
      obtain rfl := Option.some.inj hnext
      split_ifs at hframe ⊢
      · exact hpressed.of_same hframe (by rw [hpc]; rfl) rfl rfl rfl rfl rfl
      · exact hpressed.of_same hframe (by rw [hpc]; rfl) rfl rfl (eventsOf_reply _ _) rfl rfl
      · exact hpressed.of_same hframe (by rw [hpc]; rfl) rfl rfl (eventsOf_reply _ _) rfl rfl
  | relFireE =>
      simp only [Sys.consumerStep, hpc] at hnext
      obtain rfl := Option.some.inj hnext
      refine hpressed.of_calm hframe (by rw [hpc]; rfl) rfl rfl ?_ Or.inl
      rw [Sys.stopped, Sys.returnC, eventsOf_reply, eventsOf_callback,
        stopped_fire _ _ .lowE (by rintro ⟨⟩) (by rintro ⟨⟩)]
      rfl
  | waitCount e t =>
      simp only [Sys.consumerStep, hpc] at hnext
      obtain rfl := Option.some.inj hnext
      split_ifs at hframe ⊢
      · exact hpressed.of_same hframe (by rw [hpc]; rfl) rfl rfl (eventsOf_waited _ _) rfl rfl
      · exact hpressed.of_same hframe (by rw [hpc]; rfl) rfl rfl rfl rfl rfl
  | fdRead =>
      simp only [Sys.consumerStep, hpc] at hnext
      obtain rfl := Option.some.inj hnext
      split_ifs at hframe ⊢
      · exact hpressed.of_same hframe (by rw [hpc]; rfl) (by rw [hpc]; rfl) rfl rfl rfl rfl
      · exact hpressed.of_same hframe (by rw [hpc]; rfl) rfl rfl (eventsOf_reply _ _) rfl rfl
  | waitAsleep w =>
      simp only [Sys.consumerStep, hpc, Option.ite_none_left_eq_some] at hnext
      obtain rfl := Option.some.inj hnext.2
      exact hpressed.of_same hframe (by rw [hpc]; rfl) rfl rfl rfl rfl rfl
  | conTail | relTail i | waitCheck w | waitFutex w =>
      simp only [Sys.consumerStep, hpc] at hnext
      obtain rfl := Option.some.inj hnext
      split_ifs at hframe ⊢ <;>
        exact hpressed.of_same hframe (by rw [hpc]; rfl) rfl rfl rfl rfl rfl
  | conHeader i =>
      simp only [Sys.consumerStep, hpc] at hnext
      obtain rfl := Option.some.inj hnext
      exact hpressed.of_same hframe (by rw [hpc]; rfl) rfl rfl (eventsOf_reply _ _) rfl rfl
  | waitLower r =>
      simp only [Sys.consumerStep, hpc] at hnext
      obtain rfl := Option.some.inj hnext
      exact hpressed.of_same hframe (by rw [hpc]; rfl) rfl rfl (eventsOf_waited _ _) rfl rfl
  | relStamp i tail | waitRaise w =>
      simp only [Sys.consumerStep, hpc] at hnext
      obtain rfl := Option.some.inj hnext
      exact hpressed.of_same hframe (by rw [hpc]; rfl) rfl rfl rfl rfl rfl

/-- The calls the consumer starts, and what it waits for, handle no crossing. -/
theorem ConsumerMove.pressed (hmove : ConsumerMove b s s') (hok : Counted s)
    (hclear : s.c.pc.clearing = true → s.committed = true →
      s.level ≤ s.p.published - s.c.knownHead)
    (hpressed : Pressed s) : Pressed s' := by
  have hframe := hmove.frame
  cases hmove with
  | consume hpc =>
      unfold Sys.startConsume at hframe ⊢
      split_ifs at hframe ⊢
      · exact hpressed.of_same hframe (by rw [hpc]; rfl) rfl rfl (eventsOf_reply _ _) rfl rfl
      · exact hpressed.of_same hframe (by rw [hpc]; rfl) rfl rfl (eventsOf_reply _ _) rfl rfl
      · exact hpressed.of_same hframe (by rw [hpc]; rfl) rfl rfl rfl rfl rfl
  | release i hpc =>
      unfold Sys.startRelease at hframe ⊢
      split_ifs at hframe ⊢
      · exact hpressed.of_same hframe (by rw [hpc]; rfl) rfl rfl (eventsOf_reply _ _) rfl rfl
      · exact hpressed.of_same hframe (by rw [hpc]; rfl) rfl rfl (eventsOf_reply _ _) rfl rfl
      · exact hpressed.of_same hframe (by rw [hpc]; rfl) rfl rfl rfl rfl rfl
  | wait e t hpc =>
      unfold Sys.startWait at hframe ⊢
      split_ifs at hframe ⊢
      · exact hpressed.of_same hframe (by rw [hpc]; rfl) (by rw [hpc]; rfl) rfl
          (eventsOf_waited _ _) rfl rfl
      · exact hpressed.of_same hframe (by rw [hpc]; rfl) rfl rfl rfl rfl rfl
  | drainFd hpc =>
      unfold Sys.startDrainFd at hframe ⊢
      split_ifs at hframe ⊢
      · exact hpressed.of_same hframe (by rw [hpc]; rfl) rfl rfl (eventsOf_reply _ _) rfl rfl
      · exact hpressed.of_same hframe (by rw [hpc]; rfl) rfl rfl rfl rfl rfl
  | read offset hpc | notifyValue hpc =>
      exact hpressed.of_same hframe (by rw [hpc]; rfl) rfl rfl (eventsOf_reply _ _) rfl rfl
  | next hnext => exact consumerStep_pressed hnext hok hclear hpressed
  | clock now hnext =>
      unfold Sys.clockStep at hnext
      split at hnext
      case h_4 => cases hnext
      all_goals
        next hpc =>
          split_ifs at hnext <;> obtain rfl := Option.some.inj hnext <;>
            exact hpressed.of_same hframe (by rw [hpc]; rfl) rfl rfl rfl rfl rfl
  | futexReturns r hnext =>
      unfold Sys.futexStep at hnext
      split at hnext
      case h_3 => cases hnext
      all_goals
        next hpc =>
          obtain rfl := Option.some.inj hnext
          cases r <;> split_ifs at hframe ⊢ <;>
            exact hpressed.of_same hframe (by rw [hpc]; rfl) rfl rfl rfl rfl rfl

/-! ## Runs -/

/-- The consumer does not clear the latch while the producer is about to set it,
unless what was published unseen is not below the threshold. -/
def undisturbed (s : Sys) (a : Act) : Bool :=
  !(a = .consumer && s.c.pc.clearing && s.committed &&
    belowLow (s.rb.head - s.rb.cachedHead) s.rb.limit s.rb.lowD)

/-- Runs in which every step is undisturbed. -/
def undisturbedMachine (b : Build) : Automaton Sys Act Unit :=
  (machine b).restrict undisturbed

theorem unseen_below (hok : Counted s) :
    belowLow (s.rb.head - s.rb.cachedHead) s.rb.limit s.rb.lowD = true ↔
      s.p.published - s.c.knownHead < s.level := by
  have hle := hok.published_le
  have hlimit := hok.sized.limit_le
  have hreleased := hok.consumer.released_le
  rw [hok.producer.head, hok.consumer.cachedHead, ← UInt32.ofNat_sub hok.consumer.knownHead_le,
    belowLow_ofNat (by omega), below_iff]
  rfl

theorem count_below (hok : Counted s) :
    belowLow (s.rb.head - s.rb.tail) s.rb.limit s.rb.lowD = true ↔
      s.p.published - s.c.released < s.level := by
  have hle := hok.published_le
  have hlimit := hok.sized.limit_le
  rw [hok.producer.head, hok.consumer.tail, ← UInt32.ofNat_sub hok.released_le,
    belowLow_ofNat (by omega), below_iff]
  rfl

theorem consumer_of_clearing {a : Act} (ha : a.byProducer = false)
    (hclearing : s.c.pc.clearing = true) (hstep : step b s a = some s') : a = .consumer := by
  cases hpc : s.c.pc <;> simp [ConsumerPc.clearing, hpc] at hclearing
  cases a <;> simp [step, Sys.clockStep, Sys.futexStep, Act.byProducer, hpc] at ha hstep ⊢

theorem step_pressed {a : Act} (hstep : step b s a = some s') (hcalm : undisturbed s a = true)
    (hok : Counted s) (hlevel : 2 * s.level ≤ s.rb.limit.toNat + 1) (hpressed : Pressed s) :
    Pressed s' := by
  cases ha : a.byProducer with
  | true => exact (step_producerMove ha hstep).pressed hok hlevel hpressed
  | false =>
      refine (step_consumerMove ha hstep).pressed hok ?_ hpressed
      intro hclearing hcommitted
      obtain rfl := consumer_of_clearing ha hclearing hstep
      rw [← Nat.not_lt, ← unseen_below hok]
      simpa [undisturbed, hclearing, hcommitted] using hcalm

/-- A threshold of at most half of the limit. -/
theorem two_mul_threshold_le {limit percent : Nat} (hle : percent ≤ 50) :
    2 * threshold limit percent ≤ limit + 1 := by
  have hmul := Nat.mul_le_mul_left limit hle
  unfold threshold
  omega

theorem reaches_pressed {addr scratch scratchSize : BitVec b.sizeBits} {cfg : Config}
    {before : Store} {rb : Rb} (hacc : Accepted b addr cfg scratch scratchSize before rb)
    (hlow : rb.lowD ≤ 50) (hreach : (undisturbedMachine b).Reaches (start rb) s) :
    Counted s ∧ Pressed s := by
  have hinv := hreach.invariant
    (fun s => s.rb.settings = rb.settings ∧ Counted s ∧ Pressed s) ?_ ?_
  · exact hinv.2
  · refine ⟨rfl, start_counted hacc, ?_⟩
    rw [hacc.eq]
    exact ⟨fun hin => absurd hin (not_or.mpr ⟨fun hne => hne rfl, nofun⟩),
      fun _ hin => absurd hin (not_or.mpr ⟨nofun, nofun⟩), rfl⟩
  · rintro s a u s' ⟨hset, hok, hpressed⟩ hmove
    obtain ⟨hcalm, hmove⟩ := (machine b).restrict_step_eq_some.mp hmove
    have hstep := machine_step_eq_some.mp hmove
    have hlevel : 2 * s.level ≤ s.rb.limit.toNat + 1 := by
      simp only [Rb.settings, Prod.mk.injEq] at hset
      rw [Sys.level, hset.2.2.1]
      exact two_mul_threshold_le (UInt32.le_iff_toNat_le.mp hlow)
    exact ⟨(step_settings hstep).trans hset, step_counted hok hstep,
      step_pressed hstep hcalm hok hlevel hpressed⟩

/-- With a threshold of at most 50 percent and no disturbed step, a ring below its
threshold has released its producer: whenever the consumer is outside of any call,
the latch is clear and the last of the two callbacks was not `on_full`. -/
theorem backpressure_handed_off {addr scratch scratchSize : BitVec b.sizeBits}
    {cfg : Option Config} {before : Store} {rb : Rb}
    (hinit : rbInit b addr cfg scratch scratchSize before = .ok rb) (hlow : rb.lowD ≤ 50)
    (hreach : (undisturbedMachine b).Reaches (start rb) s)
    (hc : s.c.pc = .idle)
    (hbelow : belowLow (s.rb.head - s.rb.tail) s.rb.limit s.rb.lowD = true) :
    s.rb.fullLatch = 0 ∧ (s.rb.cb.onLowD = true → s.stopped = false) := by
  obtain ⟨cfg', -, hacc⟩ := rbInit_accepted hinit
  obtain ⟨hok, hpressed⟩ := reaches_pressed hacc hlow hreach
  rw [count_below hok] at hbelow
  have hpaid : ¬ s.Owed := fun howed => Nat.not_le.mpr hbelow
    (howed.level_le hok.consumer.released_le hok.consumer.knownHead_le)
  have hnone : s.c.pc.clearing ≠ true ∧ s.c.pc.signalling ≠ true := by
    rw [hc]
    exact ⟨nofun, nofun⟩
  constructor
  · by_contra hne
    exact (hpressed.latch (Or.inl hne)).elim hpaid hnone.1
  · intro hcb
    rw [← Bool.not_eq_true]
    exact fun hstop => (hpressed.waits hcb (Or.inl hstop)).elim hpaid hnone.2

/-- Two slots with `low_d` at 25 percent. -/
def quarterConfig : Config := { smallConfig with lowD := 25 }

def quarterRing : Rb :=
  quarterConfig.fresh { mode := .index }
    (quarterConfig.geometry { mode := .index } 64#64 4096#64 128#64) blank

theorem quarterRing_init :
    rbInit { mode := .index } 64#64 (some quarterConfig) 4096#64 128#64 blank =
      .ok quarterRing := rfl

/-- Both slots are published; the second `rb_publish_ex` has loaded `tail`. -/
def fillTwo : List Act :=
  [.acquire 0, .producer, .publishEx 0 0 false, .producer, .producer, .producer, .producer,
    .producer, .producer, .acquire 0, .producer, .publishEx 1 0 false, .producer, .producer,
    .producer, .producer, .producer]

/-- The rest of that call: the latch is set and `on_full` runs. -/
def signalFull : List Act := [.producer, .producer, .producer, .producer]

/-- Both messages are taken and released. -/
def drainTwo : List Act :=
  [.consume, .consumer, .consumer, .consumer, .consumer, .release 0, .consumer, .consumer,
    .consumer, .consume, .consumer, .consumer, .consumer, .release 1, .consumer, .consumer,
    .consumer, .consumer, .consumer]

/-- Draining after the whole publish releases the producer. -/
theorem quarterRing_handed_off :
    ∃ s, (undisturbedMachine { mode := .index }).Reaches (start quarterRing) s ∧
      eventsOf s.log = [.slotAdded 0 0 false, .slotAdded 1 0 false, .full, .lowD] ∧
      s.rb.fullLatch = 0 ∧ (s.rb.cb.onLowD = true → s.stopped = false) := by
  obtain ⟨s, hreach, hseen⟩ := Automaton.Reaches.of_run (undisturbedMachine { mode := .index })
    (start quarterRing) (fillTwo ++ signalFull ++ drainTwo)
    (fun s => (eventsOf s.log, s.c.pc, belowLow (s.rb.head - s.rb.tail) s.rb.limit s.rb.lowD))
    (show _ = some ([.slotAdded 0 0 false, .slotAdded 1 0 false, .full, .lowD], .idle, true) by
      decide +kernel)
  obtain ⟨hevents, hc, hbelow⟩ : _ ∧ _ ∧ _ := by simpa only [Prod.mk.injEq] using hseen
  exact ⟨s, hreach, hevents,
    backpressure_handed_off quarterRing_init (by decide) hreach hc hbelow⟩

/-- The same calls, drained before the latch is set: the ring is empty, both
threads are done, the latch is set and `on_full` has run last. -/
theorem quarterRing_left_stopped :
    rbInit { mode := .index } 64#64 (some quarterConfig) 4096#64 128#64 blank = .ok quarterRing ∧
      quarterRing.lowD = 25 ∧
      ∃ s, (machine { mode := .index }).Reaches (start quarterRing) s ∧
        (s.p.pc, s.c.pc) = (.idle, .idle) ∧
        belowLow (s.rb.head - s.rb.tail) s.rb.limit s.rb.lowD = true ∧
        s.rb.cb.onLowD = true ∧ s.rb.fullLatch = 1 ∧ s.stopped = true := by
  obtain ⟨s, hreach, hseen⟩ := Automaton.Reaches.of_run (machine { mode := .index })
    (start quarterRing) (fillTwo ++ drainTwo ++ signalFull)
    (fun s => ((s.p.pc, s.c.pc), belowLow (s.rb.head - s.rb.tail) s.rb.limit s.rb.lowD,
      s.rb.cb.onLowD, s.rb.fullLatch, s.stopped))
    (show _ = some ((.idle, .idle), true, true, 1, true) by decide +kernel)
  exact ⟨quarterRing_init, rfl, s, hreach, by simpa only [Prod.mk.injEq] using hseen⟩

end RingBuff.Threads
