import RingBuff.Threads.Branches
import RingBuff.Threads.Ownership

/-! # Calls seen from their callers

A message call is a move that starts it and the moves that follow until it
returns. For a caller that makes one call after the other, the lemmas below say
what each move of a call does to its own side of the ring, and what the call
returns: the caller never needs to look at the steps in between.
-/

namespace RingBuff.Threads

variable {b : Build} {s s' : Sys} {a : Act}

/-- The reply that was given last. -/
def Sys.answer (s : Sys) : Option Reply :=
  match s.log.getLast? with
  | some (.reply r) => some r
  | _ => none

/-- What a message call returns with a move from `s` to `s'`. -/
def reply (s : Sys) (a : Act) (s' : Sys) : Option Reply :=
  if a.byProducer then if s'.p.pc = .idle then s'.answer else none
  else if (a.call.isSome || s.c.pc.messaging) ∧ s'.c.pc = .idle then s'.answer else none

theorem answer_returnP (s : Sys) (r : Reply) : (s.returnP r).answer = some r := by
  simp [Sys.answer, Sys.returnP]

theorem answer_returnC (s : Sys) (r : Reply) : (s.returnC r).answer = some r := by
  simp [Sys.answer, Sys.returnC]

theorem reply_returnP (ha : a.byProducer = true) (r : Reply) :
    reply s a (s'.returnP r) = some r := by
  have hidle : (s'.returnP r).p.pc = .idle := rfl
  simp only [reply, ha, hidle, if_true, answer_returnP]

theorem reply_busyP (ha : a.byProducer = true) (hpc : s'.p.pc ≠ .idle) : reply s a s' = none := by
  simp [reply, ha, hpc]

theorem reply_returnC (ha : a.byProducer = false)
    (hin : (a.call.isSome || s.c.pc.messaging) = true) (r : Reply) :
    reply s a (s'.returnC r) = some r := by
  have hidle : (s'.returnC r).c.pc = .idle := rfl
  simp only [reply, ha, hin, hidle, Bool.false_eq_true, if_false, and_self, if_true,
    answer_returnC]

theorem reply_busyC (ha : a.byProducer = false) (hpc : s'.c.pc ≠ .idle) : reply s a s' = none := by
  simp [reply, ha, hpc]

/-- The next move of a call of the consumer: the one that starts it, or the next
step of it. -/
def Sys.callC (s : Sys) (call : Act) : Act := if s.c.pc = .idle then call else .consumer

/-- The same for a call of the producer. -/
def Sys.callP (s : Sys) (call : Act) : Act := if s.p.pc = .idle then call else .producer

theorem Sys.callC_byProducer {call : Act} (hcall : call.byProducer = false) :
    (s.callC call).byProducer = false := by
  unfold callC
  split_ifs
  · exact hcall
  · rfl

theorem Sys.callP_byProducer {call : Act} (hcall : call.byProducer = true) :
    (s.callP call).byProducer = true := by
  unfold callP
  split_ifs
  · exact hcall
  · rfl

/-! ## Calls of the consumer -/

/-- Inside `rb_consume`. -/
def ConsumerPc.consuming : ConsumerPc → Bool
  | .conTail | .conHead _ | .conEntry _ | .conStale _ _ | .conHeader _ => true
  | .relTail _ | .relStamp _ _ | .relStore _ | .relClear _ _ | .relLowD _ _ | .relClearUp _ _
  | .relLowE _ _ | .relFireE | .idle | .waitCount _ _ | .waitStart _ _ | .waitRaise _
  | .waitCheck _ | .waitNow _ | .waitFutex _ | .waitAsleep _ | .waitLate _ | .waitLower _
  | .fdRead => false

/-- The consumer holds no slot, and may be inside `rb_consume`. -/
structure Consuming (s : Sys) : Prop where
  pc : s.c.pc = .idle ∨ s.c.pc.consuming = true
  active : s.rb.consumerActive = 0

/-- The consumer is outside of any call and holds a slot. -/
structure Holding (s : Sys) (slotIndex : UInt32) : Prop where
  pc : s.c.pc = .idle
  active : s.rb.consumerActive ≠ 0
  slot : s.rb.consumerSlot = slotIndex

/-- What one move of `rb_consume` does and returns. -/
inductive ConsumeStep (s s' : Sys) : Option Reply → Prop where
  | going (hpc : s'.c.pc.consuming = true) (hactive : s'.rb.consumerActive = 0)
      (hdelivered : s'.c.delivered = s.c.delivered) : ConsumeStep s s' none
  | nothing (err : RbErr) (hpc : s'.c.pc = .idle) (hactive : s'.rb.consumerActive = 0)
      (hdelivered : s'.c.delivered = s.c.delivered) : ConsumeStep s s' (some (.code err))
  | message (i len : UInt32) (truncated : Bool) (hheld : Holding s' i)
      (hdelivered : s'.c.delivered = s.c.delivered ++ [⟨i, len, truncated⟩]) :
      ConsumeStep s s' (some (.message i len truncated))

theorem consume_step (hlive : s.rb.geo.scratchSize ≠ 0) (hconsuming : Consuming s)
    (hstep : step b s (s.callC .consume) = some s') :
    ConsumeStep s s' (reply s (s.callC .consume) s') := by
  obtain ⟨hpc, hactive⟩ := hconsuming
  rcases hpc with hidle | hbusy
  · rw [Sys.callC, if_pos hidle] at hstep ⊢
    rcases consumer_cases rfl hstep with ⟨-, hstart⟩ | ⟨ha, -⟩ | ⟨hcall, -⟩
    · cases hstart with
      | consumeDead hinit => exact absurd hinit hlive
      | consumeActive hne => exact absurd hactive hne
      | consume _ =>
          rw [reply_busyC rfl (by rintro ⟨⟩)]
          exact .going rfl hactive rfl
    · cases ha
    · cases hcall
  · have hne : s.c.pc ≠ .idle := by
      intro hidle
      rw [hidle] at hbusy
      cases hbusy
    have hmsg : s.c.pc.messaging = true := by
      cases hpc : s.c.pc <;> simp_all [ConsumerPc.consuming, ConsumerPc.messaging]
    rw [Sys.callC, if_neg hne] at hstep ⊢
    have hbranch := consumerStep_branch hmsg hstep
    have hreturn : ∀ (next : Sys) (r : Reply), reply s .consumer (next.returnC r) = some r :=
      fun next r => reply_returnC rfl (by simp [hmsg]) r
    cases hbranch with
    | conLook hpc _ | conCached hpc _ | conFresh _ hpc _ | conStamp _ _ hpc _ _
    | conFound _ _ hpc _ _ | staleFresh _ _ hpc _ =>
        rw [reply_busyC rfl (by rintro ⟨⟩)]
        exact .going rfl hactive rfl
    | conEmpty _ hpc _ | conRefuse _ _ hpc _ | staleEmpty _ _ hpc _ =>
        rw [hreturn]
        exact .nothing _ rfl hactive rfl
    | take i hpc =>
        rw [hreturn]
        exact .message _ _ _ ⟨rfl, (by decide : (1 : UInt32) ≠ 0), rfl⟩ rfl
    | relLap _ hpc _ | relPlain _ hpc _ | recycle _ _ hpc | store _ hpc | clear _ _ hpc
    | fireD _ _ hpc | clearUp _ _ hpc | lowEDown _ _ hpc | lowEUp _ _ hpc | lowESame _ _ hpc
    | fireE hpc =>
        rw [hpc] at hbusy
        cases hbusy

/-- The consumer is about to release a slot or inside `rb_release`. -/
def Releasing (s : Sys) (slotIndex : UInt32) : Prop :=
  match s.c.pc with
  | .idle => s.rb.consumerActive ≠ 0 ∧ s.rb.consumerSlot = slotIndex
  | .relTail _ | .relStamp _ _ | .relStore _ => True
  | .relClear _ _ | .relLowD _ _ | .relClearUp _ _ | .relLowE _ _ | .relFireE =>
      s.rb.consumerActive = 0
  | .conTail | .conHead _ | .conEntry _ | .conStale _ _ | .conHeader _ | .waitCount _ _
  | .waitStart _ _ | .waitRaise _ | .waitCheck _ | .waitNow _ | .waitFutex _ | .waitAsleep _
  | .waitLate _ | .waitLower _ | .fdRead => False

theorem Holding.releasing {i : UInt32} (hheld : Holding s i) : Releasing s i := by
  rw [Releasing, hheld.pc]
  exact ⟨hheld.active, hheld.slot⟩

/-- What one move of `rb_release` does and returns. -/
inductive ReleaseStep (s s' : Sys) (slotIndex : UInt32) : Option Reply → Prop where
  | going (hreleasing : Releasing s' slotIndex) (hdelivered : s'.c.delivered = s.c.delivered) :
      ReleaseStep s s' slotIndex none
  | done (hpc : s'.c.pc = .idle) (hactive : s'.rb.consumerActive = 0)
      (hdelivered : s'.c.delivered = s.c.delivered) :
      ReleaseStep s s' slotIndex (some (.code .ok))

theorem release_step {i : UInt32} (hlive : s.rb.geo.scratchSize ≠ 0) (hreleasing : Releasing s i)
    (hstep : step b s (s.callC (.release i)) = some s') :
    ReleaseStep s s' i (reply s (s.callC (.release i)) s') := by
  by_cases hidle : s.c.pc = .idle
  · rw [Releasing, hidle] at hreleasing
    obtain ⟨hactive, hslot⟩ := hreleasing
    rw [Sys.callC, if_pos hidle] at hstep ⊢
    rcases consumer_cases rfl hstep with ⟨-, hstart⟩ | ⟨ha, -⟩ | ⟨hcall, -⟩
    · cases hstart with
      | releaseDead _ hinit => exact absurd hinit hlive
      | releaseOther _ hother =>
          exact absurd hother (not_or.mpr ⟨hactive, not_not.mpr hslot.symm⟩)
      | release _ _ _ =>
          rw [reply_busyC rfl (by rintro ⟨⟩)]
          exact .going trivial rfl
    · cases ha
    · cases hcall
  · have hmsg : s.c.pc.messaging = true := by
      cases hpc : s.c.pc <;> simp_all [Releasing, ConsumerPc.messaging]
    rw [Sys.callC, if_neg hidle] at hstep ⊢
    have hbranch := consumerStep_branch hmsg hstep
    have hreturn : ∀ (next : Sys) (r : Reply), reply s .consumer (next.returnC r) = some r :=
      fun next r => reply_returnC rfl (by simp [hmsg]) r
    cases hbranch with
    | conLook hpc _ | conCached hpc _ | conFresh _ hpc _ | conStamp _ _ hpc _ _
    | conFound _ _ hpc _ _ | staleFresh _ _ hpc _ | conEmpty _ hpc _ | conRefuse _ _ hpc _
    | staleEmpty _ _ hpc _ | take _ hpc =>
        rw [Releasing, hpc] at hreleasing
        exact hreleasing.elim
    | relLap _ hpc _ | relPlain _ hpc _ | recycle _ _ hpc =>
        rw [reply_busyC rfl (by rintro ⟨⟩)]
        exact .going trivial rfl
    | store tail hpc =>
        rw [reply_busyC rfl (Sys.crossing_of (· ≠ .idle) (by rintro ⟨⟩) (by rintro ⟨⟩)
          (by rintro ⟨⟩))]
        exact .going (Sys.crossing_of (fun pc => Releasing ((s.storeTail (tail + 1)).goC pc) i)
          rfl rfl rfl) rfl
    | clear _ _ hpc | fireD _ _ hpc | clearUp _ _ hpc | lowEDown _ _ hpc =>
        rw [Releasing, hpc] at hreleasing
        rw [reply_busyC rfl (by rintro ⟨⟩)]
        exact .going hreleasing rfl
    | lowEUp _ _ hpc | lowESame _ _ hpc | fireE hpc =>
        rw [Releasing, hpc] at hreleasing
        rw [hreturn]
        exact .done rfl hreleasing rfl

/-! What the producer does leaves the state of these calls as it is. -/

theorem SameConsumer.fields (hframe : SameConsumer s s') :
    s'.c = s.c ∧ s'.rb.consumerActive = s.rb.consumerActive ∧
      s'.rb.consumerSlot = s.rb.consumerSlot := by
  have hregs := hframe.regs
  simp only [Rb.consumerRegs, Prod.mk.injEq] at hregs
  exact ⟨hframe.side, hregs.2.2.1, hregs.2.2.2.1⟩

theorem Consuming.of_frame (hconsuming : Consuming s) (hframe : SameConsumer s s') :
    Consuming s' := by
  obtain ⟨hside, hactive, -⟩ := hframe.fields
  exact ⟨hside ▸ hconsuming.pc, hactive.trans hconsuming.active⟩

theorem Holding.of_frame {i : UInt32} (hheld : Holding s i) (hframe : SameConsumer s s') :
    Holding s' i := by
  obtain ⟨hside, hactive, hslot⟩ := hframe.fields
  exact ⟨hside ▸ hheld.pc, hactive ▸ hheld.active, hslot.trans hheld.slot⟩

theorem Releasing.of_frame {i : UInt32} (hreleasing : Releasing s i)
    (hframe : SameConsumer s s') : Releasing s' i := by
  obtain ⟨hside, hactive, hslot⟩ := hframe.fields
  unfold Releasing at hreleasing ⊢
  rw [hside, hactive, hslot]
  exact hreleasing

/-! ## Calls of the producer -/

/-- Outside of any call or inside `rb_acquire`. -/
def ProducerPc.acquires (wantedLen : UInt32) : ProducerPc → Prop
  | .idle => True
  | .acqHead w | .acqTail w _ => w = wantedLen
  | .pubHeader _ | .pubHead _ | .pubEntry _ _ | .pubStore _ _ | .pubWaiters _ _ | .pubWake _ _
  | .pubEventfd _ _ | .pubTail _ _ | .pubAdded _ _ | .pubLatch | .pubSetLatch | .pubFull => False

/-- The producer has no reservation, and may be inside `rb_acquire`. -/
structure Acquiring (s : Sys) (wantedLen : UInt32) : Prop where
  pc : s.p.pc.acquires wantedLen
  pending : s.rb.pendingSlot = noPending

/-- The producer is outside of any call and has a reservation. -/
structure Reserved (s : Sys) (slotIndex wantedLen : UInt32) : Prop where
  pc : s.p.pc = .idle
  pending : s.rb.pendingSlot ≠ noPending
  slot : s.rb.pendingSlot = slotIndex
  wanted : s.rb.pendingWanted = wantedLen

/-- What one move of `rb_acquire` does and returns. -/
inductive AcquireStep (b : Build) (s s' : Sys) (wantedLen : UInt32) : Option Reply → Prop where
  | going (hacquiring : Acquiring s' wantedLen) (hsent : s'.p.sent = s.p.sent) :
      AcquireStep b s s' wantedLen none
  | full (hpc : s'.p.pc = .idle) (hpending : s'.rb.pendingSlot = noPending)
      (hsent : s'.p.sent = s.p.sent) : AcquireStep b s s' wantedLen (some (.code .full))
  | oversize (hover : payloadCap b s.rb.geo < wantedLen)
      (hdrop : s.rb.oversizePolicy = .drop) (hpc : s'.p.pc = .idle)
      (hpending : s'.rb.pendingSlot = noPending) (hsent : s'.p.sent = s.p.sent) :
      AcquireStep b s s' wantedLen (some (.code .oversize))
  | reserved (i : UInt32) (hreserved : Reserved s' i wantedLen) (hsent : s'.p.sent = s.p.sent) :
      AcquireStep b s s' wantedLen (some (.reserved i (payloadCap b s.rb.geo)))

/-- The ring was found to have room. -/
theorem finishAcquire_step {wantedLen head : UInt32} (hgeo : s.rb.geo.Masked)
    (hpending : s.rb.pendingSlot = noPending) :
    AcquireStep b s (s.finishAcquire b wantedLen head) wantedLen
      (some (reserve b s.rb wantedLen head).1) := by
  unfold Sys.finishAcquire reserve
  dsimp only
  split_ifs with hover
  · exact .oversize hover.2.1 hover.2.2 rfl hpending rfl
  · exact .reserved _ ⟨rfl, Geometry.Masked.ne_noPending (hgeo.slotIndexFor_lt _), rfl, rfl⟩ rfl

theorem finishAcquire_reply (ha : a.byProducer = true) {wantedLen head : UInt32} :
    reply s a (s'.finishAcquire b wantedLen head) = some (reserve b s'.rb wantedLen head).1 :=
  reply_returnP ha _

/-- The load of `tail` before changes nothing a caller sees. -/
theorem AcquireStep.of_refresh {wantedLen : UInt32} {r : Option Reply}
    (hstep : AcquireStep b s.refreshTail s' wantedLen r) : AcquireStep b s s' wantedLen r := by
  cases hstep with
  | going hacquiring hsent => exact .going hacquiring hsent
  | full hpc hpending hsent => exact .full hpc hpending hsent
  | oversize hover hdrop hpc hpending hsent => exact .oversize hover hdrop hpc hpending hsent
  | reserved i hreserved hsent => exact .reserved i hreserved hsent

theorem acquire_step {wantedLen : UInt32} (hgeo : s.rb.geo.Masked)
    (hlive : s.rb.geo.scratchSize ≠ 0) (hacquiring : Acquiring s wantedLen)
    (hstep : step b s (s.callP (.acquire wantedLen)) = some s') :
    AcquireStep b s s' wantedLen (reply s (s.callP (.acquire wantedLen)) s') := by
  obtain ⟨hpc, hpending⟩ := hacquiring
  by_cases hidle : s.p.pc = .idle
  · rw [Sys.callP, if_pos hidle] at hstep ⊢
    rcases producer_cases rfl hstep with ⟨-, hstart⟩ | hbranch
    · cases hstart with
      | acquireDead _ hinit => exact absurd hinit hlive
      | acquirePending _ hsome => exact absurd hpending hsome
      | acquire _ _ =>
          rw [reply_busyP rfl (by rintro ⟨⟩)]
          exact .going ⟨rfl, hpending⟩ rfl
    · cases hbranch
  · rw [Sys.callP, if_neg hidle] at hstep ⊢
    rcases producer_cases rfl hstep with ⟨hstart, -⟩ | hbranch
    · exact absurd hstart hidle
    cases hbranch with
    | acqLook w hat _ =>
        rw [hat] at hpc
        rw [reply_busyP rfl (by rintro ⟨⟩)]
        exact .going ⟨hpc, hpending⟩ rfl
    | acqRoom w hat _ =>
        rw [hat] at hpc
        obtain rfl : w = wantedLen := hpc
        rw [finishAcquire_reply rfl]
        exact finishAcquire_step hgeo hpending
    | acqFull w head hat _ =>
        rw [reply_returnP rfl]
        exact .full rfl hpending rfl
    | acqFreed w head hat _ =>
        rw [hat] at hpc
        obtain rfl : w = wantedLen := hpc
        rw [finishAcquire_reply rfl]
        exact (finishAcquire_step (s := s.refreshTail) hgeo hpending).of_refresh
    | header _ hat | head _ hat | entry _ _ hat | store _ _ hat | waiting _ _ hat _
    | noWaiter _ _ hat _ | wake _ _ hat | eventfd _ _ hat | tail _ _ hat
    | addedFull _ _ hat _ | added _ _ hat _ | latchOpen hat _ | latchSet hat _
    | setLatch hat | full hat =>
        rw [hat] at hpc
        exact hpc.elim

/-- The producer is inside `rb_publish_ex`. -/
def InPublish (s : Sys) : Prop :=
  match s.p.pc with
  | .idle | .acqHead _ | .acqTail _ _ => False
  | .pubHeader _ | .pubHead _ | .pubEntry _ _ | .pubStore _ _ | .pubWaiters _ _ | .pubWake _ _
  | .pubEventfd _ _ | .pubTail _ _ => True
  | .pubAdded _ _ | .pubLatch | .pubSetLatch | .pubFull => s.rb.pendingSlot = noPending

theorem InPublish.busy (hin : InPublish s) : s.p.pc ≠ .idle := by
  intro hidle
  rw [InPublish, hidle] at hin
  exact hin

/-- The move that starts `rb_publish_ex`. -/
theorem publish_start {i wantedLen writtenLen : UInt32} {truncated : Bool}
    (hlive : s.rb.geo.scratchSize ≠ 0) (hreserved : Reserved s i wantedLen)
    (hstep : step b s (.publishEx i writtenLen truncated) = some s') :
    reply s (.publishEx i writtenLen truncated) s' = none ∧ InPublish s' ∧
      s'.p.sent = s.p.sent ++
        [⟨i, wantedLen, writtenLen, truncated, s.rb.store.payload b s.rb.geo i⟩] := by
  obtain ⟨hpc, hpending, hslot, hwanted⟩ := hreserved
  rcases producer_cases rfl hstep with ⟨-, hstart⟩ | hbranch
  · cases hstart with
    | publishDead _ _ _ hinit => exact absurd hinit hlive
    | publishOther _ _ _ hother =>
        exact absurd hother (not_or.mpr ⟨hpending, not_not.mpr hslot⟩)
    | publish _ _ _ _ _ =>
        exact ⟨reply_busyP rfl (by rintro ⟨⟩), trivial, by rw [← hwanted]⟩
  · cases hbranch

/-- What one move inside `rb_publish_ex` does and returns. -/
inductive PublishStep (s s' : Sys) : Option Reply → Prop where
  | going (hin : InPublish s') (hsent : s'.p.sent = s.p.sent) : PublishStep s s' none
  | done (hpc : s'.p.pc = .idle) (hpending : s'.rb.pendingSlot = noPending)
      (hsent : s'.p.sent = s.p.sent) : PublishStep s s' (some (.code .ok))

theorem publish_step (hin : InPublish s) (ha : a = .producer ∨ a = .eventfdFails)
    (hstep : step b s a = some s') : PublishStep s s' (reply s a s') := by
  have hside : a.byProducer = true := by
    rcases ha with rfl | rfl <;> rfl
  have hpc : ∀ {pc : ProducerPc}, s.p.pc = pc → InPublish { s with p.pc := pc } := by
    rintro pc rfl
    exact hin
  rcases producer_cases hside hstep with ⟨hidle, -⟩ | hbranch
  · exact absurd hidle hin.busy
  cases hbranch with
  | acqLook w hat _ | acqRoom w hat _ | acqFull w _ hat _ | acqFreed w _ hat _ =>
      exact (hpc hat).elim
  | header m hat | head m hat | entry m _ hat | waiting m _ hat _ | noWaiter m _ hat _
  | wake m _ hat | eventfd m _ hat | eventfdFails m _ hat _ | tail m _ hat =>
      rw [reply_busyP hside (by rintro ⟨⟩)]
      exact .going (by trivial) rfl
  | store m head hat =>
      have hgoing : InPublish ((s.storeHead (head + 1)).goP
          (if b.notify then .pubWaiters m head else .pubTail m head)) := by
        split_ifs <;> trivial
      rw [reply_busyP hside hgoing.busy]
      exact .going hgoing rfl
  | addedFull m _ hat _ | latchOpen hat _ | setLatch hat =>
      have hnone : s.rb.pendingSlot = noPending := hpc hat
      rw [reply_busyP hside (by rintro ⟨⟩)]
      exact .going hnone rfl
  | added m _ hat _ | latchSet hat _ | full hat =>
      have hnone : s.rb.pendingSlot = noPending := hpc hat
      rw [reply_returnP hside]
      exact .done rfl hnone rfl

/-! What the consumer does leaves the state of these calls as it is. -/

theorem SameProducer.fields (hframe : SameProducer s s') :
    s'.p = s.p ∧ s'.rb.pendingSlot = s.rb.pendingSlot ∧
      s'.rb.pendingWanted = s.rb.pendingWanted := by
  have hregs := hframe.regs
  simp only [Rb.producerRegs, Prod.mk.injEq] at hregs
  exact ⟨hframe.side, hregs.2.2.1, hregs.2.2.2⟩

theorem Acquiring.of_frame {wantedLen : UInt32} (hacquiring : Acquiring s wantedLen)
    (hframe : SameProducer s s') : Acquiring s' wantedLen := by
  obtain ⟨hside, hslot, -⟩ := hframe.fields
  exact ⟨hside ▸ hacquiring.pc, hslot.trans hacquiring.pending⟩

theorem Reserved.of_frame {i wantedLen : UInt32} (hreserved : Reserved s i wantedLen)
    (hframe : SameProducer s s') : Reserved s' i wantedLen := by
  obtain ⟨hside, hslot, hwanted⟩ := hframe.fields
  exact ⟨hside ▸ hreserved.pc, hslot ▸ hreserved.pending, hslot.trans hreserved.slot,
    hwanted.trans hreserved.wanted⟩

theorem InPublish.of_frame (hin : InPublish s) (hframe : SameProducer s s') : InPublish s' := by
  obtain ⟨hside, hslot, -⟩ := hframe.fields
  unfold InPublish at hin ⊢
  rw [hside, hslot]
  exact hin

/-- The consumer stores stamps and no payload. -/
theorem consumer_payload (hgeo : s.rb.geo.Sound b) (hok : Counted s) (howned : Owned b s)
    (ha : a.byProducer = false) (hstep : step b s a = some s') {i : UInt32}
    (hi : i.toNat < s.rb.geo.slots.toNat) {off : Nat}
    (hoff : off < (payloadCap b s.rb.geo).toNat) :
    s'.rb.store.payload b s.rb.geo i off = s.rb.store.payload b s.rb.geo i off := by
  have hlocals := hok.consumer.locals
  rcases consumer_cases ha hstep with ⟨-, hstart⟩ | ⟨-, hbranch⟩ | ⟨-, haside⟩
  · cases hstart <;> rfl
  · cases hbranch with
    | recycle j tail hpc =>
        simp only [ConsumerLocals, hpc] at hlocals
        have hmine := hok.sized.slotAt_lt s.c.released
        rw [← howned.taken.held hlocals.1, ← hlocals.2.1] at hmine
        exact Store.payload_recycle hgeo hmine hi _ hoff
    | _ => rfl
  · rw [haside.eq]

end RingBuff.Threads
