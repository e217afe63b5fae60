import RingBuff.Threads.Replies
import RingBuff.Threads.Safety

/-! # A ring in use

The invariants of a ring taken together, and what they say to the two threads that
work on it: inside a call a thread can always move, `rb_consume` finds a message if
there is one and `rb_acquire` a slot, and what is held or reserved stays as it is.
-/

namespace RingBuff.Threads

variable {b : Build} {s s' : Sys}

/-! ## The next move -/

theorem ConsumerPc.messaging_of_consuming {pc : ConsumerPc} (hpc : pc.consuming = true) :
    pc.messaging = true := by
  cases pc <;> simp_all [consuming, messaging]

/-- Only a stride of zero, where the source divides by it, leaves the consumer
without a slot to go on with. -/
theorem frontSlot_isSome {geo : Geometry} (st : Store) (tail : UInt32)
    (hstride : b.mode = .pointer → geo.slotStride ≠ 0) :
    ∃ found, st.frontSlot b geo tail = some found := by
  unfold Store.frontSlot
  cases hmode : b.mode with
  | index => exact ⟨_, rfl⟩
  | lap => exact ⟨_, rfl⟩
  | pointer =>
      dsimp only
      rw [if_neg (hstride hmode)]
      split_ifs <;> exact ⟨_, rfl⟩

theorem consumerStep_isSome (hstride : b.mode = .pointer → s.rb.geo.slotStride ≠ 0)
    (hmsg : s.c.pc.messaging = true) : ∃ s', s.consumerStep b = some s' := by
  cases hpc : s.c.pc <;> simp only [hpc, ConsumerPc.messaging, Bool.false_eq_true] at hmsg <;>
    simp only [Sys.consumerStep, hpc]
  case conEntry tail =>
    obtain ⟨found, hfront⟩ := frontSlot_isSome s.rb.store tail hstride
    rw [hfront]
    cases found with
    | error err => exact ⟨_, rfl⟩
    | ok i => exact ⟨_, rfl⟩
  all_goals exact ⟨_, rfl⟩

theorem acquire_enabled (s : Sys) (wantedLen : UInt32) :
    ∃ s', step b s (s.callP (.acquire wantedLen)) = some s' := by
  unfold Sys.callP
  split_ifs with hidle
  · exact ⟨_, if_pos hidle⟩
  · exact ⟨_, if_neg hidle⟩

theorem consume_enabled (hstride : b.mode = .pointer → s.rb.geo.slotStride ≠ 0)
    (hconsuming : Consuming s) :
    ∃ s', step b s (s.callC .consume) = some s' := by
  unfold Sys.callC
  split_ifs with hidle
  · exact ⟨_, if_pos hidle⟩
  · have hbusy := hconsuming.pc.resolve_left hidle
    exact consumerStep_isSome hstride (ConsumerPc.messaging_of_consuming hbusy)

theorem release_enabled {i : UInt32} (hstride : b.mode = .pointer → s.rb.geo.slotStride ≠ 0)
    (hreleasing : Releasing s i) :
    ∃ s', step b s (s.callC (.release i)) = some s' := by
  unfold Sys.callC
  split_ifs with hidle
  · exact ⟨_, if_pos hidle⟩
  · refine consumerStep_isSome hstride ?_
    unfold Releasing at hreleasing
    cases hpc : s.c.pc <;> simp_all [ConsumerPc.messaging]

/-! ## The invariants -/

/-- A ring on which the promises of the library hold. -/
structure Ring (b : Build) (s : Sys) : Prop where
  geo : s.rb.geo.Sound b
  counted : Counted s
  owned : Owned b s
  cap_lt : (payloadCap b s.rb.geo).toNat < 2 ^ 31
  wrap : WrapSafe s.rb.geo.slots s.p.published

namespace Ring

theorem live (hring : Ring b s) : s.rb.geo.scratchSize ≠ 0 :=
  Nat.pos_iff_ne_zero.mp hring.geo.scratchSize_pos

/-- A move keeps them, as long as slots and positions stay aligned. -/
theorem step {a : Act} (hring : Ring b s) (haddr : b.mode = .pointer → s.rb.geo.Addressable b)
    (hstep : Threads.step b s a = some s')
    (hwrap : WrapSafe s'.rb.geo.slots s'.p.published) : Ring b s' := by
  have hgeo : s'.rb.geo = s.rb.geo := congrArg Prod.fst (step_settings hstep)
  exact ⟨hgeo ▸ hring.geo, step_counted hring.counted hstep,
    step_owned hstep hring.geo haddr hring.counted hring.wrap hring.owned,
    hgeo ▸ hring.cap_lt, hwrap⟩

/-- What a consumer that holds the `n`-th message reads is what was published. -/
theorem payload_held (hring : Ring b s) {i : UInt32} {n : Nat} {m : Sent} (hheld : Holding s i)
    (hcount : s.c.delivered.length = n + 1) (hsent : s.p.sent[n]? = some m) {off : Nat}
    (hoff : off < (payloadCap b s.rb.geo).toNat) :
    s.rb.store.payload b s.rb.geo s.rb.consumerSlot off = m.payload off := by
  obtain ⟨x, hx, -, hpayload⟩ :=
    (hring.owned.safe hring.counted hring.cap_lt hring.wrap).payload hheld.active n hcount.symm
  obtain rfl : x = m := Option.some.inj (hx.symm.trans hsent)
  exact hpayload off hoff

/-- A reserved slot is one of the ring. -/
theorem reserved_lt (hring : Ring b s) {oidx wantedLen : UInt32}
    (hreserved : Reserved s oidx wantedLen) : oidx.toNat < s.rb.geo.slots.toNat := by
  have hslot := (hring.counted.producer.reserved (by rw [hreserved.pc]; rfl) hreserved.pending).1
  rw [← hreserved.slot, hslot]
  exact hring.counted.sized.slotAt_lt _

/-- A store of the producer into its reserved slot. -/
theorem write_step (hring : Ring b s) {oidx wantedLen : UInt32}
    (hreserved : Reserved s oidx wantedLen) {off : Nat}
    (hoff : off < (payloadCap b s.rb.geo).toNat) (byte : UInt8) :
    ∃ s', Threads.step b s (.write off byte) = some s' ∧
      reply s (.write off byte) s' = some (.code .ok) ∧ Reserved s' oidx wantedLen ∧
      s'.p.sent = s.p.sent ∧ s'.rb.geo = s.rb.geo ∧
      s'.rb.store.payload b s.rb.geo oidx off = byte ∧
      ∀ off' < (payloadCap b s.rb.geo).toNat, off' ≠ off →
        s'.rb.store.payload b s.rb.geo oidx off' = s.rb.store.payload b s.rb.geo oidx off' := by
  have hlt := hring.reserved_lt hreserved
  obtain ⟨hpc, hpending, rfl, hwanted⟩ := hreserved
  have hwrite : payloadWrite b s.rb off byte = (.code .ok,
      { s.rb with store := s.rb.store.setPayload b s.rb.geo s.rb.pendingSlot off byte }) :=
    if_pos ⟨hpending, hoff⟩
  have hnext : s.runWrite b off byte = (s.setStore (s.rb.store.setPayload b s.rb.geo
      s.rb.pendingSlot off byte)).returnP (.code .ok) := by
    rw [Sys.runWrite, hwrite]
    rfl
  refine ⟨_, (if_pos hpc).trans (congrArg some hnext), reply_returnP rfl _,
    ⟨rfl, hpending, rfl, hwanted⟩, rfl, rfl, Store.payload_setPayload_same _ _, ?_⟩
  intro off' hoff' hne
  exact Store.payload_setPayload_ne hring.geo hlt hlt _ hoff hoff' (Or.inr hne.symm)

/-- A delivered message is a published one, with the length recorded for it. -/
theorem delivered (hring : Ring b s) {n : Nat} {d : Delivered}
    (hget : s.c.delivered[n]? = some d) :
    ∃ m, s.p.sent[n]? = some m ∧ d = m.delivery (payloadCap b s.rb.geo) :=
  hring.owned.taken.delivered hring.cap_lt n d hget

end Ring

/-- A consumer that holds nothing has released all it was given. -/
theorem released_of_consuming (hok : Counted s) (hconsuming : Consuming s) :
    s.c.released = s.c.delivered.length := by
  rw [hok.consumer.delivered_length, if_neg (not_not.mpr hconsuming.active), Nat.add_zero]

theorem released_of_holding (hok : Counted s) {i : UInt32} (hheld : Holding s i) :
    s.c.released + 1 = s.c.delivered.length := by
  rw [hok.consumer.delivered_length, if_pos hheld.active]

theorem published_of_idle (hok : Counted s) (hpc : s.p.pc = .idle) :
    s.p.published = s.p.sent.length := by
  rw [hok.producer.sent_length, hpc]
  rfl

theorem published_of_acquiring (hok : Counted s) {wantedLen : UInt32}
    (hacquiring : Acquiring s wantedLen) : s.p.published = s.p.sent.length := by
  have hnot : s.p.pc.publishing = false := by
    have hpc := hacquiring.pc
    cases hcase : s.p.pc <;> simp_all [ProducerPc.acquires, ProducerPc.publishing]
  rw [hok.producer.sent_length, hnot]
  rfl

/-! ## What the calls find -/

/-- `rb_consume` only finds nothing when there is nothing. -/
theorem Ring.empty_of_nothing (hring : Ring b s)
    (haddr : b.mode = .pointer → s.rb.geo.Addressable b) (hconsuming : Consuming s)
    (hstep : Threads.step b s (s.callC .consume) = some s')
    {err : RbErr} (hreply : reply s (s.callC .consume) s' = some (.code err)) :
    s.p.published = s.c.released := by
  have hlocals := hring.counted.consumer.locals
  rcases hconsuming.pc with hidle | hbusy
  · rw [Sys.callC, if_pos hidle] at hstep hreply
    rcases consumer_cases rfl hstep with ⟨-, hstart⟩ | ⟨ha, -⟩ | ⟨hcall, -⟩
    · cases hstart with
      | consumeDead hinit => exact absurd hinit hring.live
      | consumeActive hne => exact absurd hconsuming.active hne
      | consume _ =>
          rw [reply_busyC rfl (by rintro ⟨⟩)] at hreply
          cases hreply
    · cases ha
    · cases hcall
  · have hne : s.c.pc ≠ .idle := by
      intro hidle
      rw [hidle] at hbusy
      cases hbusy
    have hmsg := ConsumerPc.messaging_of_consuming hbusy
    rw [Sys.callC, if_neg hne] at hstep hreply
    have hbranch := consumerStep_branch hmsg hstep
    cases hbranch with
    | conLook hpc _ | conCached hpc _ | conFresh _ hpc _ | conStamp _ _ hpc _ _
    | conFound _ _ hpc _ _ | staleFresh _ _ hpc _ =>
        rw [reply_busyC rfl (by rintro ⟨⟩)] at hreply
        cases hreply
    | conEmpty tail hpc hsame =>
        simp only [ConsumerLocals, hpc] at hlocals
        exact hring.counted.empty_of_tail_eq_head (hlocals.2.symm.trans hsame)
    | conRefuse tail err' hpc hfront =>
        -- the position was entered before `head` passed it
        simp only [ConsumerLocals, hpc] at hlocals
        obtain ⟨-, rfl, hlt⟩ := hlocals
        have hentered := hring.owned.kept.entered s.c.released
          (by rw [ConsumerSide.freed_eq (by rw [hpc]; rfl)])
          ((hlt.trans_le hring.counted.consumer.knownHead_le).trans_le (Nat.le_add_right _ _))
        have hslot := hentered.frontSlot (hring.geo.findable haddr)
        rw [← hring.counted.consumer.tail, hfront] at hslot
        cases hslot
    | staleEmpty tail i hpc _ => exact absurd hpc (hring.owned.taken.not_stale tail i)
    | take i hpc =>
        rw [reply_returnC rfl (by simp [hmsg])] at hreply
        cases hreply
    | relLap _ hpc _ | relPlain _ hpc _ | recycle _ _ hpc | store _ hpc | clear _ _ hpc
    | fireD _ _ hpc | clearUp _ _ hpc | lowEDown _ _ hpc | lowEUp _ _ hpc | lowESame _ _ hpc
    | fireE hpc =>
        rw [hpc] at hbusy
        cases hbusy

/-- `rb_acquire` only finds the ring full when it is. -/
theorem Counted.full_of_reply (hok : Counted s) {wantedLen : UInt32}
    (hacquiring : Acquiring s wantedLen)
    (hstep : step b s .producer = some s') (hreply : reply s .producer s' = some (.code .full)) :
    s.c.released + s.rb.limit.toNat ≤ s.p.published := by
  have hpc := hacquiring.pc
  have hlocals := hok.producer.locals
  rcases producer_cases rfl hstep with ⟨hidle, hstart⟩ | hbranch
  · cases hstart
  cases hbranch with
  | acqFull w head hat hfull =>
      simp only [ProducerLocals, hat] at hlocals
      obtain ⟨-, rfl⟩ := hlocals
      rw [UInt32.le_iff_toNat_le, hok.count_eq] at hfull
      have hlimit := hok.sized.limit_pos
      omega
  | acqLook w hat _ =>
      rw [reply_busyP rfl (by rintro ⟨⟩)] at hreply
      cases hreply
  | acqRoom w hat _ | acqFreed w head hat _ =>
      rw [finishAcquire_reply rfl] at hreply
      unfold reserve at hreply
      dsimp only at hreply
      split_ifs at hreply
      all_goals cases hreply
  | header _ hat | head _ hat | entry _ _ hat | store _ _ hat | waiting _ _ hat _
  | noWaiter _ _ hat _ | wake _ _ hat | eventfd _ _ hat | tail _ _ hat
  | addedFull _ _ hat _ | added _ _ hat _ | latchOpen hat _ | latchSet hat _
  | setLatch hat | full hat =>
      rw [hat] at hpc
      exact hpc.elim

end RingBuff.Threads
