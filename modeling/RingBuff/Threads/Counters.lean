import RingBuff.Core.Layout
import RingBuff.Core.Positions
import RingBuff.Foundation.Sequence
import RingBuff.Threads.Moves

/-! # The counters under interleaving

What each thread knows about the two counters, from its own fields and from the
fact that the other side only moves forward. Nothing here looks at memory, so it
holds for every build and every layout `rb_init` accepts, and however often the
counters have wrapped.
-/

namespace RingBuff

namespace Threads

variable {b : Build} {s s' : Sys}

/-- What `rb_init` guarantees about the settings. -/
structure Sized (rb : Rb) : Prop extends rb.geo.Masked where
  limit_le_capacity : rb.limit.toNat ≤ rb.geo.capacity.toNat
  limit_le_slots : rb.limit.toNat ≤ rb.geo.slots.toNat
  limit_pos : 0 < rb.limit.toNat

theorem Sized.limit_le {rb : Rb} (hsize : Sized rb) : rb.limit.toNat ≤ 2 ^ 31 :=
  hsize.limit_le_capacity.trans hsize.capacity_le

theorem Sized.of_settings {rb rb' : Rb} (hsize : Sized rb) (hset : rb'.settings = rb.settings) :
    Sized rb' := by
  simp only [Rb.settings, Prod.mk.injEq] at hset
  obtain ⟨hgeo, hlimit, -⟩ := hset
  exact ⟨hgeo ▸ hsize.toMasked, by rw [hgeo, hlimit]; exact hsize.limit_le_capacity,
    by rw [hgeo, hlimit]; exact hsize.limit_le_slots, by rw [hlimit]; exact hsize.limit_pos⟩

/-! ## The producer's view -/

/-- Inside `rb_publish_ex`, before the store of `head`. -/
def ProducerPc.publishing : ProducerPc → Bool
  | .pubHeader _ | .pubHead _ | .pubEntry _ _ | .pubStore _ _ => true
  | _ => false

/-- Inside `rb_publish_ex`, after the store of `head` and before the reservation
is dropped. -/
def ProducerPc.handedOver : ProducerPc → Bool
  | .pubWaiters _ _ | .pubWake _ _ | .pubEventfd _ _ | .pubTail _ _ => true
  | _ => false

/-- What the local variables of the producer hold. -/
def ProducerLocals (s : Sys) : Prop :=
  match s.p.pc with
  | .acqHead _ => s.rb.pendingSlot = noPending
  | .acqTail _ head => s.rb.pendingSlot = noPending ∧ head = s.rb.head
  | .pubHeader m | .pubHead m =>
      s.rb.pendingSlot ≠ noPending ∧ m.slotIndex = s.rb.pendingSlot
  | .pubEntry m head | .pubStore m head =>
      s.rb.pendingSlot ≠ noPending ∧ m.slotIndex = s.rb.pendingSlot ∧ head = s.rb.head
  | .pubWaiters _ head | .pubWake _ head | .pubEventfd _ head | .pubTail _ head =>
      head + 1 = s.rb.head
  | .pubAdded _ count => count = UInt32.ofNat (s.p.published - s.p.knownTail)
  | .pubLatch | .pubSetLatch | .pubFull => s.rb.limit.toNat ≤ s.p.published - s.p.knownTail
  | .idle => True

structure ProducerOk (s : Sys) : Prop where
  head : s.rb.head = UInt32.ofNat s.p.published
  cachedTail : s.rb.cachedTail = UInt32.ofNat s.p.knownTail
  knownTail_le : s.p.knownTail ≤ s.c.released
  knownTail_le_published : s.p.knownTail ≤ s.p.published
  room : s.p.published ≤ s.p.knownTail + s.rb.limit.toNat
  /-- A reservation is for the next position, and there is room for it. -/
  reserved : s.p.pc.handedOver = false → s.rb.pendingSlot ≠ noPending →
    s.rb.pendingSlot = s.rb.geo.slotAt s.p.published ∧
      s.p.published < s.p.knownTail + s.rb.limit.toNat
  locals : ProducerLocals s
  sent_length : s.p.sent.length = s.p.published + if s.p.pc.publishing then 1 else 0
  sent_slot : ∀ k m, s.p.sent[k]? = some m → m.slotIndex = s.rb.geo.slotAt k

/-- The producer's view survives what the consumer does. -/
theorem ProducerOk.of_frame (hok : ProducerOk s) (hframe : SameProducer s s') :
    ProducerOk s' := by
  obtain ⟨hside, hregs, hset, -, hle⟩ := hframe
  simp only [Rb.producerRegs, Prod.mk.injEq] at hregs
  simp only [Rb.settings, Prod.mk.injEq] at hset
  obtain ⟨hhead, hcached, hslot, hwanted⟩ := hregs
  obtain ⟨hgeo, hlimit, -⟩ := hset
  constructor
  case knownTail_le => rw [hside]; exact hok.knownTail_le.trans hle
  case locals =>
    have hlocals := hok.locals
    simp only [ProducerLocals, hside, hhead, hslot, hlimit] at hlocals ⊢
    exact hlocals
  all_goals rw [hside]
  · rw [hhead]; exact hok.head
  · rw [hcached]; exact hok.cachedTail
  · exact hok.knownTail_le_published
  · rw [hlimit]; exact hok.room
  · rw [hslot, hgeo, hlimit]; exact hok.reserved
  · exact hok.sent_length
  · rw [hgeo]; exact hok.sent_slot

/-- A move of the producer that changes none of its counters. -/
theorem ProducerOk.of_pc (hok : ProducerOk s) (hside : s'.p = { s.p with pc := s'.p.pc })
    (hother : s'.c = s.c) (hregs : s'.rb.producerRegs = s.rb.producerRegs)
    (hset : s'.rb.settings = s.rb.settings)
    (hover : s'.p.pc.handedOver = s.p.pc.handedOver)
    (hpub : s'.p.pc.publishing = s.p.pc.publishing) (hlocals : ProducerLocals s') :
    ProducerOk s' := by
  simp only [Rb.producerRegs, Prod.mk.injEq] at hregs
  simp only [Rb.settings, Prod.mk.injEq] at hset
  obtain ⟨hhead, hcached, hslot, hwanted⟩ := hregs
  obtain ⟨hgeo, hlimit, -⟩ := hset
  have hpublished : s'.p.published = s.p.published := by rw [hside]
  have hknown : s'.p.knownTail = s.p.knownTail := by rw [hside]
  have hsent : s'.p.sent = s.p.sent := by rw [hside]
  refine ⟨?_, ?_, ?_, ?_, ?_, ?_, hlocals, ?_, ?_⟩
  · rw [hhead, hpublished]; exact hok.head
  · rw [hcached, hknown]; exact hok.cachedTail
  · rw [hknown, hother]; exact hok.knownTail_le
  · rw [hknown, hpublished]; exact hok.knownTail_le_published
  · rw [hknown, hpublished, hlimit]; exact hok.room
  · rw [hover, hslot, hgeo, hpublished, hknown, hlimit]; exact hok.reserved
  · rw [hsent, hpublished, hpub]; exact hok.sent_length
  · rw [hsent, hgeo]; exact hok.sent_slot

/-- Looking at the consumer's counter again only makes room. -/
theorem ProducerOk.refreshTail (hok : ProducerOk s) (htail : s.rb.tail = UInt32.ofNat s.c.released)
    (hle : s.c.released ≤ s.p.published) (hover : s.p.pc.handedOver = false)
    (hlocals : ProducerLocals s.refreshTail) : ProducerOk s.refreshTail := by
  have hknown := hok.knownTail_le
  refine ⟨hok.head, htail, le_rfl, hle, ?_, ?_, hlocals, hok.sent_length, hok.sent_slot⟩
  · exact hok.room.trans (Nat.add_le_add_right hknown _)
  · intro _ hpending
    obtain ⟨hslot, hroom⟩ := hok.reserved hover hpending
    exact ⟨hslot, hroom.trans_le (Nat.add_le_add_right hknown _)⟩

theorem ProducerOk.finishAcquire (hok : ProducerOk s) (hover : s.p.pc.handedOver = false)
    (hpub : s.p.pc.publishing = false)
    (hroom : s.p.published < s.p.knownTail + s.rb.limit.toNat) (b : Build) (wantedLen : UInt32) :
    ProducerOk (s.finishAcquire b wantedLen s.rb.head) := by
  have hlength := hok.sent_length
  rw [hpub] at hlength
  dsimp only [Sys.finishAcquire, reserve]
  split_ifs
  · exact hok.of_pc rfl rfl rfl rfl hover.symm hpub.symm trivial
  · refine ⟨hok.head, hok.cachedTail, hok.knownTail_le, hok.knownTail_le_published, hok.room,
      ?_, trivial, hlength, hok.sent_slot⟩
    intro _ _
    exact ⟨congrArg (slotIndexFor s.rb.geo) hok.head, hroom⟩

/-- The wrapped difference the producer computes is the exact one. -/
theorem ProducerOk.limit_le_cached (hok : ProducerOk s) (hsize : Sized s.rb) :
    s.rb.limit ≤ s.rb.head - s.rb.cachedTail ↔
      s.rb.limit.toNat ≤ s.p.published - s.p.knownTail := by
  have hroom := hok.room
  have hlimit := hsize.limit_le
  rw [hok.head, hok.cachedTail,
    Counter.le_toNat_sub hok.knownTail_le_published (by omega)]

theorem ProducerOk.publish (hok : ProducerOk s) (hpc : s.p.pc = .idle) (b : Build)
    (slotIndex writtenLen : UInt32) (truncated : Bool) :
    ProducerOk (s.startPublish b slotIndex writtenLen truncated) := by
  dsimp only [Sys.startPublish]
  split_ifs with hinit hpending
  · exact hok.of_pc rfl rfl rfl rfl (by rw [hpc]; rfl) (by rw [hpc]; rfl) trivial
  · exact hok.of_pc rfl rfl rfl rfl (by rw [hpc]; rfl) (by rw [hpc]; rfl) trivial
  · obtain ⟨hsome, heq⟩ := not_or.mp hpending
    have heq := not_not.mp heq
    obtain ⟨hslot, hroom⟩ := hok.reserved (by rw [hpc]; rfl) hsome
    have hlength := hok.sent_length
    rw [hpc] at hlength
    refine ⟨hok.head, hok.cachedTail, hok.knownTail_le, hok.knownTail_le_published, hok.room,
      fun _ _ => ⟨hslot, hroom⟩, ⟨hsome, heq.symm⟩, ?_, ?_⟩
    · simpa [ProducerPc.publishing] using hlength
    · intro k m hget
      rcases getElem?_concat_eq_some.mp hget with hold | ⟨rfl, rfl⟩
      · exact hok.sent_slot k m hold
      · rw [hlength]
        exact heq.symm.trans hslot

theorem ProducerOk.abort (hok : ProducerOk s) (hpc : s.p.pc = .idle) : ProducerOk s.runAbort := by
  unfold Sys.runAbort rbAbort
  split_ifs
  · exact hok.of_pc rfl rfl rfl rfl (by rw [hpc]; rfl) (by rw [hpc]; rfl) trivial
  · exact hok.of_pc rfl rfl rfl rfl (by rw [hpc]; rfl) (by rw [hpc]; rfl) trivial
  · have hlength := hok.sent_length
    rw [hpc] at hlength
    exact ⟨hok.head, hok.cachedTail, hok.knownTail_le, hok.knownTail_le_published, hok.room,
      fun _ hsome => absurd rfl hsome, trivial, hlength, hok.sent_slot⟩

/-- The store of `head` uses up the room of the reservation. -/
theorem ProducerOk.storeHead (hok : ProducerOk s) {m : Outgoing}
    (hpc : s.p.pc = .pubStore m s.rb.head) (hsome : s.rb.pendingSlot ≠ noPending) :
    ProducerOk ((s.storeHead (s.rb.head + 1)).goP
      (if b.notify then .pubWaiters m s.rb.head else .pubTail m s.rb.head)) := by
  obtain ⟨-, hroom⟩ := hok.reserved (by rw [hpc]; rfl) hsome
  have hlength := hok.sent_length
  rw [hpc] at hlength
  have hhead : s.rb.head + 1 = UInt32.ofNat (s.p.published + 1) := by
    rw [Counter.ofNat_succ, hok.head]
  have hle := hok.knownTail_le_published
  split_ifs
  all_goals
    exact ⟨hhead, hok.cachedTail, hok.knownTail_le, Nat.le_succ_of_le hle, hroom,
      nofun, rfl, hlength, hok.sent_slot⟩

theorem ProducerOk.afterPublish (hok : ProducerOk s) {m : Outgoing} {head : UInt32}
    (hpc : s.p.pc = .pubTail m head) (htail : s.rb.tail = UInt32.ofNat s.c.released)
    (hle : s.c.released ≤ s.p.published) (hhead : head + 1 = s.rb.head) :
    ProducerOk ({ s with
      rb := s.rb.afterPublish (head + 1 - s.rb.tail) m.truncated
      p.knownTail := s.c.released }.goP (.pubAdded m (head + 1 - s.rb.tail))) := by
  have hlength := hok.sent_length
  rw [hpc] at hlength
  have hcount : head + 1 - s.rb.tail = UInt32.ofNat (s.p.published - s.c.released) := by
    rw [hhead, hok.head, htail, UInt32.ofNat_sub hle]
  exact ⟨hok.head, htail, le_rfl, hle,
    hok.room.trans (Nat.add_le_add_right hok.knownTail_le _),
    fun _ hsome => absurd rfl hsome, hcount, hlength, hok.sent_slot⟩

theorem ProducerOk.producerNext (hok : ProducerOk s) (hsize : Sized s.rb)
    (htail : s.rb.tail = UInt32.ofNat s.c.released) (hle : s.c.released ≤ s.p.published) :
    ProducerOk (s.producerNext b) := by
  have hlocals := hok.locals
  have hroom := hok.room
  have hlimit := hsize.limit_le
  cases hpc : s.p.pc with
  | idle =>
      simp only [Sys.producerNext, hpc]
      exact hok
  | acqHead w =>
      simp only [ProducerLocals, hpc] at hlocals
      simp only [Sys.producerNext, hpc]
      split
      next hfull =>
        exact hok.of_pc rfl rfl rfl rfl (by rw [hpc]; rfl) (by rw [hpc]; rfl) ⟨hlocals, rfl⟩
      next hfull =>
        rw [hok.limit_le_cached hsize] at hfull
        exact hok.finishAcquire (by rw [hpc]; rfl) (by rw [hpc]; rfl) (by omega) b w
  | acqTail w head =>
      simp only [ProducerLocals, hpc] at hlocals
      obtain ⟨hnone, rfl⟩ := hlocals
      have hfresh : ProducerOk s.refreshTail :=
        hok.refreshTail htail hle (by rw [hpc]; rfl)
          (by simp [ProducerLocals, Sys.refreshTail, hpc, hnone])
      simp only [Sys.producerNext, hpc]
      split
      next hfull =>
        exact hfresh.of_pc rfl rfl rfl rfl (by simp [Sys.refreshTail, hpc]; rfl)
          (by simp [Sys.refreshTail, hpc]; rfl) trivial
      next hfull =>
        have hcount := (hfresh.limit_le_cached (hsize.of_settings rfl)).not.mp hfull
        exact hfresh.finishAcquire (by simp [Sys.refreshTail, hpc]; rfl)
          (by simp [Sys.refreshTail, hpc]; rfl) (by simp [Sys.refreshTail] at hcount ⊢; omega) b w
  | pubHeader m =>
      simp only [ProducerLocals, hpc] at hlocals
      simp only [Sys.producerNext, hpc]
      exact hok.of_pc rfl rfl rfl rfl (by rw [hpc]; rfl) (by rw [hpc]; rfl) hlocals
  | pubHead m =>
      simp only [ProducerLocals, hpc] at hlocals
      simp only [Sys.producerNext, hpc]
      exact hok.of_pc rfl rfl rfl rfl (by rw [hpc]; rfl) (by rw [hpc]; rfl)
        ⟨hlocals.1, hlocals.2, rfl⟩
  | pubEntry m head =>
      simp only [ProducerLocals, hpc] at hlocals
      simp only [Sys.producerNext, hpc]
      exact hok.of_pc rfl rfl rfl rfl (by rw [hpc]; rfl) (by rw [hpc]; rfl) hlocals
  | pubStore m head =>
      simp only [ProducerLocals, hpc] at hlocals
      obtain ⟨hsome, hslot, rfl⟩ := hlocals
      simp only [Sys.producerNext, hpc]
      exact hok.storeHead hpc hsome
  | pubWaiters m head =>
      simp only [ProducerLocals, hpc] at hlocals
      simp only [Sys.producerNext, hpc]
      split_ifs <;>
        exact hok.of_pc rfl rfl rfl rfl (by rw [hpc]; rfl) (by rw [hpc]; rfl) hlocals
  | pubWake m head | pubEventfd m head =>
      simp only [ProducerLocals, hpc] at hlocals
      simp only [Sys.producerNext, hpc]
      exact hok.of_pc rfl rfl rfl rfl (by rw [hpc]; rfl) (by rw [hpc]; rfl) hlocals
  | pubTail m head =>
      simp only [ProducerLocals, hpc] at hlocals
      simp only [Sys.producerNext, hpc]
      exact hok.afterPublish hpc htail hle hlocals
  | pubAdded m count =>
      simp only [ProducerLocals, hpc] at hlocals
      simp only [Sys.producerNext, hpc]
      split
      next hfull =>
        refine hok.of_pc rfl rfl rfl rfl (by rw [hpc]; rfl) (by rw [hpc]; rfl) ?_
        rw [hlocals, UInt32.le_iff_toNat_le, Counter.toNat_of_lt (by omega)] at hfull
        exact hfull
      next => exact hok.of_pc rfl rfl rfl rfl (by rw [hpc]; rfl) (by rw [hpc]; rfl) trivial
  | pubLatch =>
      simp only [ProducerLocals, hpc] at hlocals
      simp only [Sys.producerNext, hpc]
      split
      · exact hok.of_pc rfl rfl rfl rfl (by rw [hpc]; rfl) (by rw [hpc]; rfl) hlocals
      · exact hok.of_pc rfl rfl rfl rfl (by rw [hpc]; rfl) (by rw [hpc]; rfl) trivial
  | pubSetLatch =>
      simp only [ProducerLocals, hpc] at hlocals
      simp only [Sys.producerNext, hpc]
      exact hok.of_pc rfl rfl rfl rfl (by rw [hpc]; rfl) (by rw [hpc]; rfl) hlocals
  | pubFull =>
      simp only [Sys.producerNext, hpc]
      exact hok.of_pc rfl rfl rfl rfl (by rw [hpc]; rfl) (by rw [hpc]; rfl) trivial

theorem ProducerMove.producerOk (hmove : ProducerMove b s s') (hok : ProducerOk s)
    (hsize : Sized s.rb) (htail : s.rb.tail = UInt32.ofNat s.c.released)
    (hle : s.c.released ≤ s.p.published) : ProducerOk s' := by
  cases hmove with
  | acquire w hpc =>
      unfold Sys.startAcquire
      split_ifs with hinit hpending
      · exact hok.of_pc rfl rfl rfl rfl (by rw [hpc]; rfl) (by rw [hpc]; rfl) trivial
      · exact hok.of_pc rfl rfl rfl rfl (by rw [hpc]; rfl) (by rw [hpc]; rfl) trivial
      · exact hok.of_pc rfl rfl rfl rfl (by rw [hpc]; rfl) (by rw [hpc]; rfl)
          (not_not.mp hpending)
  | write offset byte hpc =>
      unfold Sys.runWrite payloadWrite
      split_ifs <;>
        exact hok.of_pc rfl rfl rfl rfl (by rw [hpc]; rfl) (by rw [hpc]; rfl) trivial
  | publish i n t hpc => exact hok.publish hpc b i n t
  | abort hpc => exact hok.abort hpc
  | next => exact hok.producerNext hsize htail hle
  | eventfdFails m head hpc hfd =>
      have hlocals := hok.locals
      simp only [ProducerLocals, hpc] at hlocals
      exact hok.of_pc rfl rfl rfl rfl (by rw [hpc]; rfl) (by rw [hpc]; rfl) hlocals

/-! ## The consumer's view -/

/-- What the local variables of the consumer hold. -/
def ConsumerLocals (s : Sys) : Prop :=
  match s.c.pc with
  | .conTail => s.rb.consumerActive = 0
  | .conHead tail => s.rb.consumerActive = 0 ∧ tail = s.rb.tail
  | .conEntry tail | .conStale tail _ =>
      s.rb.consumerActive = 0 ∧ tail = s.rb.tail ∧ s.c.released < s.c.knownHead
  | .conHeader _ => s.rb.consumerActive = 0 ∧ s.c.released < s.c.knownHead
  | .relTail slotIndex => s.rb.consumerActive ≠ 0 ∧ slotIndex = s.rb.consumerSlot
  | .relStamp slotIndex tail =>
      s.rb.consumerActive ≠ 0 ∧ slotIndex = s.rb.consumerSlot ∧ tail = s.rb.tail
  | .relStore tail => s.rb.consumerActive ≠ 0 ∧ tail = s.rb.tail
  | .relClear oldCount newCount | .relLowD oldCount newCount | .relClearUp oldCount newCount
  | .relLowE oldCount newCount =>
      newCount = UInt32.ofNat (s.c.knownHead - s.c.released) ∧
        oldCount = UInt32.ofNat (s.c.knownHead - s.c.released + 1)
  | _ => True

structure ConsumerOk (s : Sys) : Prop where
  tail : s.rb.tail = UInt32.ofNat s.c.released
  cachedHead : s.rb.cachedHead = UInt32.ofNat s.c.knownHead
  released_le : s.c.released ≤ s.c.knownHead
  knownHead_le : s.c.knownHead ≤ s.p.published
  /-- A slot is only held while a message is known to be there. -/
  active : s.rb.consumerActive ≠ 0 → s.c.released < s.c.knownHead
  locals : ConsumerLocals s
  delivered_length :
    s.c.delivered.length = s.c.released + if s.rb.consumerActive ≠ 0 then 1 else 0

/-- The consumer's view survives what the producer does. -/
theorem ConsumerOk.of_frame (hok : ConsumerOk s) (hframe : SameConsumer s s') :
    ConsumerOk s' := by
  obtain ⟨hside, hregs, -, hle, -⟩ := hframe
  simp only [Rb.consumerRegs, Prod.mk.injEq] at hregs
  obtain ⟨htail, hcached, hactive, hslot, -⟩ := hregs
  constructor
  case knownHead_le => rw [hside]; exact hok.knownHead_le.trans hle
  case locals =>
    have hlocals := hok.locals
    simp only [ConsumerLocals, hside, htail, hactive, hslot] at hlocals ⊢
    exact hlocals
  all_goals rw [hside]
  · rw [htail]; exact hok.tail
  · rw [hcached]; exact hok.cachedHead
  · exact hok.released_le
  · rw [hactive]; exact hok.active
  · rw [hactive]; exact hok.delivered_length

/-- A move of the consumer that changes none of its counters. -/
theorem ConsumerOk.of_pc (hok : ConsumerOk s) (hside : s'.c = { s.c with pc := s'.c.pc })
    (hother : s'.p = s.p) (htail : s'.rb.tail = s.rb.tail)
    (hcached : s'.rb.cachedHead = s.rb.cachedHead)
    (hactive : s'.rb.consumerActive = s.rb.consumerActive) (hlocals : ConsumerLocals s') :
    ConsumerOk s' := by
  have hreleased : s'.c.released = s.c.released := by rw [hside]
  have hknown : s'.c.knownHead = s.c.knownHead := by rw [hside]
  have hdelivered : s'.c.delivered = s.c.delivered := by rw [hside]
  refine ⟨?_, ?_, ?_, ?_, ?_, hlocals, ?_⟩
  · rw [htail, hreleased]; exact hok.tail
  · rw [hcached, hknown]; exact hok.cachedHead
  · rw [hreleased, hknown]; exact hok.released_le
  · rw [hknown, hother]; exact hok.knownHead_le
  · rw [hactive, hreleased, hknown]; exact hok.active
  · rw [hdelivered, hreleased, hactive]; exact hok.delivered_length

/-- Looking at the producer's counter again. -/
theorem ConsumerOk.refreshHead (hok : ConsumerOk s) (hhead : s.rb.head = UInt32.ofNat s.p.published)
    (pc : ConsumerPc) (hlocals : ConsumerLocals (s.refreshHead.goC pc)) :
    ConsumerOk (s.refreshHead.goC pc) :=
  ⟨hok.tail, hhead, hok.released_le.trans hok.knownHead_le, le_rfl,
    fun hactive => (hok.active hactive).trans_le hok.knownHead_le, hlocals, hok.delivered_length⟩

theorem ConsumerOk.returnEmpty (hok : ConsumerOk s)
    (hhead : s.rb.head = UInt32.ofNat s.p.published) :
    ConsumerOk (s.refreshHead.returnC (.code .empty)) :=
  (hok.refreshHead hhead .idle trivial).of_pc rfl rfl rfl rfl rfl trivial

theorem ConsumerOk.latch (hok : ConsumerOk s) {slotIndex : UInt32}
    (hpc : s.c.pc = .conHeader slotIndex) (d : Delivered) (r : Reply) :
    ConsumerOk ((s.latch d).returnC r) := by
  have hlocals := hok.locals
  simp only [ConsumerLocals, hpc] at hlocals
  have hlength := hok.delivered_length
  rw [hlocals.1] at hlength
  refine ⟨hok.tail, hok.cachedHead, hok.released_le, hok.knownHead_le, fun _ => hlocals.2,
    trivial, ?_⟩
  simpa [Sys.latch, Sys.returnC] using hlength

/-- The counts `rb_release` computes after its store of `tail`. -/
theorem ConsumerOk.storeTail (hok : ConsumerOk s) (hactive : s.rb.consumerActive ≠ 0) :
    ConsumerOk ((s.storeTail (s.rb.tail + 1)).goC
      (s.crossing (s.rb.cachedHead - (s.rb.tail + 1) + 1)
        (s.rb.cachedHead - (s.rb.tail + 1)))) := by
  have hlt := hok.active hactive
  have htail : s.rb.tail + 1 = UInt32.ofNat (s.c.released + 1) := by
    rw [Counter.ofNat_succ, hok.tail]
  have hnew : s.rb.cachedHead - (s.rb.tail + 1) =
      UInt32.ofNat (s.c.knownHead - (s.c.released + 1)) := by
    rw [htail, hok.cachedHead, UInt32.ofNat_sub hlt]
  have hold : s.rb.cachedHead - (s.rb.tail + 1) + 1 =
      UInt32.ofNat (s.c.knownHead - (s.c.released + 1) + 1) := by
    rw [Counter.ofNat_succ, hnew]
  have hlength := hok.delivered_length
  rw [if_pos hactive] at hlength
  refine ⟨htail, hok.cachedHead, hlt, hok.knownHead_le, fun hne => absurd rfl hne, ?_, hlength⟩
  simp only [Sys.crossing]
  split_ifs <;> exact ⟨hnew, hold⟩

theorem ConsumerOk.consumerStep (hok : ConsumerOk s)
    (hhead : s.rb.head = UInt32.ofNat s.p.published) (hnext : s.consumerStep b = some s') :
    ConsumerOk s' := by
  have hlocals := hok.locals
  cases hpc : s.c.pc with
  | idle | waitStart _ _ | waitNow _ | waitLate _ =>
      simp [Sys.consumerStep, hpc] at hnext
  | conTail =>
      simp only [Sys.consumerStep, hpc] at hnext
      simp only [ConsumerLocals, hpc] at hlocals
      obtain rfl := Option.some.inj hnext
      split
      next => exact hok.of_pc rfl rfl rfl rfl rfl ⟨hlocals, rfl⟩
      next hne =>
        have hlt : s.c.released < s.c.knownHead :=
          lt_of_le_of_ne hok.released_le fun heq => hne (by rw [hok.tail, hok.cachedHead, heq])
        exact hok.of_pc rfl rfl rfl rfl rfl ⟨hlocals, rfl, hlt⟩
  | conHead tail =>
      simp only [Sys.consumerStep, hpc] at hnext
      simp only [ConsumerLocals, hpc] at hlocals
      obtain rfl := Option.some.inj hnext
      split
      next => exact hok.returnEmpty hhead
      next hne =>
        have hlt : s.c.released < s.p.published :=
          lt_of_le_of_ne (hok.released_le.trans hok.knownHead_le)
            fun heq => hne (by rw [hlocals.2, hok.tail, hhead, heq])
        exact hok.refreshHead hhead _ ⟨hlocals.1, hlocals.2, hlt⟩
  | conEntry tail =>
      simp only [Sys.consumerStep, hpc] at hnext
      simp only [ConsumerLocals, hpc] at hlocals
      split at hnext
      · cases hnext
      · obtain rfl := Option.some.inj hnext
        exact hok.of_pc rfl rfl rfl rfl rfl trivial
      · obtain rfl := Option.some.inj hnext
        split
        · exact hok.of_pc rfl rfl rfl rfl rfl hlocals
        · exact hok.of_pc rfl rfl rfl rfl rfl ⟨hlocals.1, hlocals.2.2⟩
  | conStale tail i =>
      simp only [Sys.consumerStep, hpc] at hnext
      simp only [ConsumerLocals, hpc] at hlocals
      obtain rfl := Option.some.inj hnext
      split
      · exact hok.returnEmpty hhead
      · exact hok.refreshHead hhead _ ⟨hlocals.1, hlocals.2.2.trans_le hok.knownHead_le⟩
  | conHeader i =>
      simp only [Sys.consumerStep, hpc] at hnext
      obtain rfl := Option.some.inj hnext
      exact hok.latch hpc _ _
  | relTail i =>
      simp only [Sys.consumerStep, hpc] at hnext
      simp only [ConsumerLocals, hpc] at hlocals
      obtain rfl := Option.some.inj hnext
      split
      · exact hok.of_pc rfl rfl rfl rfl rfl ⟨hlocals.1, hlocals.2, rfl⟩
      · exact hok.of_pc rfl rfl rfl rfl rfl ⟨hlocals.1, rfl⟩
  | relStamp i tail =>
      simp only [Sys.consumerStep, hpc] at hnext
      simp only [ConsumerLocals, hpc] at hlocals
      obtain rfl := Option.some.inj hnext
      exact hok.of_pc rfl rfl rfl rfl rfl ⟨hlocals.1, hlocals.2.2⟩
  | relStore tail =>
      simp only [Sys.consumerStep, hpc] at hnext
      simp only [ConsumerLocals, hpc] at hlocals
      obtain ⟨hactive, rfl⟩ := hlocals
      obtain rfl := Option.some.inj hnext
      exact hok.storeTail hactive
  | relClear o n | relLowD o n | relClearUp o n =>
      simp only [Sys.consumerStep, hpc] at hnext
      simp only [ConsumerLocals, hpc] at hlocals
      obtain rfl := Option.some.inj hnext
      exact hok.of_pc rfl rfl rfl rfl rfl hlocals
  | relLowE o n =>
      simp only [Sys.consumerStep, hpc, Sys.crossLowE] at hnext
      obtain rfl := Option.some.inj hnext
      split_ifs <;> exact hok.of_pc rfl rfl rfl rfl rfl trivial
  | waitAsleep w =>
      simp only [Sys.consumerStep, hpc, Option.ite_none_left_eq_some] at hnext
      obtain rfl := Option.some.inj hnext.2
      exact hok.of_pc rfl rfl rfl rfl rfl trivial
  | waitCheck w | waitCount e t | waitFutex w =>
      simp only [Sys.consumerStep, hpc] at hnext
      obtain rfl := Option.some.inj hnext
      split <;> exact hok.of_pc rfl rfl rfl rfl rfl trivial
  | fdRead =>
      simp only [Sys.consumerStep, hpc] at hnext
      obtain rfl := Option.some.inj hnext
      split
      · exact hok.of_pc rfl rfl rfl rfl rfl (by simp only [ConsumerLocals, hpc])
      · exact hok.of_pc rfl rfl rfl rfl rfl trivial
  | relFireE | waitRaise w | waitLower r =>
      simp only [Sys.consumerStep, hpc] at hnext
      obtain rfl := Option.some.inj hnext
      exact hok.of_pc rfl rfl rfl rfl rfl trivial

theorem ConsumerMove.consumerOk (hmove : ConsumerMove b s s') (hok : ConsumerOk s)
    (hhead : s.rb.head = UInt32.ofNat s.p.published) : ConsumerOk s' := by
  cases hmove with
  | consume hpc =>
      unfold Sys.startConsume
      split_ifs with hinit hactive
      · exact hok.of_pc rfl rfl rfl rfl rfl trivial
      · exact hok.of_pc rfl rfl rfl rfl rfl trivial
      · exact hok.of_pc rfl rfl rfl rfl rfl (not_not.mp hactive)
  | release i hpc =>
      unfold Sys.startRelease
      split_ifs with hinit hwrong
      · exact hok.of_pc rfl rfl rfl rfl rfl trivial
      · exact hok.of_pc rfl rfl rfl rfl rfl trivial
      · obtain ⟨hactive, hslot⟩ := not_or.mp hwrong
        exact hok.of_pc rfl rfl rfl rfl rfl ⟨hactive, not_not.mp hslot⟩
  | wait e t hpc =>
      unfold Sys.startWait
      split_ifs
      · exact hok.of_pc rfl rfl rfl rfl rfl (by simp only [ConsumerLocals, hpc])
      · exact hok.of_pc rfl rfl rfl rfl rfl trivial
  | drainFd hpc =>
      unfold Sys.startDrainFd
      split_ifs <;> exact hok.of_pc rfl rfl rfl rfl rfl trivial
  | read offset hpc => exact hok.of_pc rfl rfl rfl rfl rfl trivial
  | notifyValue hpc =>
      exact ⟨hok.tail, hok.cachedHead, hok.released_le, hok.knownHead_le, hok.active, trivial,
        hok.delivered_length⟩
  | next hnext => exact hok.consumerStep hhead hnext
  | clock now hnext =>
      unfold Sys.clockStep at hnext
      split at hnext
      case h_4 => cases hnext
      all_goals
        split_ifs at hnext <;> obtain rfl := Option.some.inj hnext <;>
          exact hok.of_pc rfl rfl rfl rfl rfl trivial
  | futexReturns r hnext =>
      unfold Sys.futexStep at hnext
      split at hnext
      case h_3 => cases hnext
      all_goals
        obtain rfl := Option.some.inj hnext
        cases r <;> split_ifs <;> exact hok.of_pc rfl rfl rfl rfl rfl trivial

/-! ## Both views together -/

/-- The counters of a system state. -/
structure Counted (s : Sys) : Prop where
  sized : Sized s.rb
  producer : ProducerOk s
  consumer : ConsumerOk s

namespace Counted

theorem released_le (hok : Counted s) : s.c.released ≤ s.p.published :=
  hok.consumer.released_le.trans hok.consumer.knownHead_le

/-- The occupancy never exceeds the limit. -/
theorem published_le (hok : Counted s) : s.p.published ≤ s.c.released + s.rb.limit.toNat :=
  hok.producer.room.trans (Nat.add_le_add_right hok.producer.knownTail_le _)

theorem count_eq (hok : Counted s) :
    (s.rb.head - s.rb.tail).toNat = s.p.published - s.c.released := by
  have hle := hok.published_le
  have hlimit := hok.sized.limit_le
  rw [hok.producer.head, hok.consumer.tail, Counter.toNat_sub hok.released_le (by omega)]

/-- A consumer that finds the two counters equal has found the ring empty. -/
theorem empty_of_tail_eq_head (hok : Counted s) (hsame : s.rb.tail = s.rb.head) :
    s.p.published = s.c.released := by
  have hle := hok.published_le
  have hlimit := hok.sized.limit_le
  rw [hok.consumer.tail, hok.producer.head] at hsame
  exact ((Counter.ofNat_inj hok.released_le (by omega)).mp hsame).symm

end Counted

theorem step_counted {a : Act} (hok : Counted s) (hstep : step b s a = some s') : Counted s' := by
  rcases step_moves hstep with hmove | hmove
  · exact ⟨hok.sized.of_settings hmove.frame.settings,
      hmove.producerOk hok.producer hok.sized hok.consumer.tail hok.released_le,
      hok.consumer.of_frame hmove.frame⟩
  · exact ⟨hok.sized.of_settings hmove.frame.settings,
      hok.producer.of_frame hmove.frame, hmove.consumerOk hok.consumer hok.producer.head⟩

/-! ## Runs -/

/-- Both threads before their first call. -/
def start (rb : Rb) : Sys := { rb }

theorem machine_step_eq_some {a : Act} {u : Unit} :
    (machine b).step s a = some (u, s') ↔ step b s a = some s' := by
  simp [machine]

/-- The invariant rule for the two threads. -/
theorem reaches_invariant {s₀ : Sys} (hreach : (machine b).Reaches s₀ s) (inv : Sys → Prop)
    (hinv : inv s₀)
    (hstep : ∀ {s s' : Sys} {a : Act}, inv s → step b s a = some s' → inv s') : inv s :=
  hreach.invariant inv hinv fun hs hmove => hstep hs (machine_step_eq_some.mp hmove)

theorem step_settings {a : Act} (hstep : step b s a = some s') :
    s'.rb.settings = s.rb.settings := by
  rcases step_moves hstep with hmove | hmove
  · exact hmove.frame.settings
  · exact hmove.frame.settings

theorem step_published_le {a : Act} (hstep : step b s a = some s') :
    s.p.published ≤ s'.p.published := by
  rcases step_moves hstep with hmove | hmove
  · exact hmove.frame.published_le
  · exact (congrArg ProducerSide.published hmove.frame.side).ge

theorem reaches_settings {rb : Rb} (hreach : (machine b).Reaches (start rb) s) :
    s.rb.settings = rb.settings :=
  reaches_invariant hreach (fun s => s.rb.settings = rb.settings) rfl
    fun hs hstep => (step_settings hstep).trans hs

section Init

variable {addr scratch scratchSize : BitVec b.sizeBits} {cfg : Config} {before : Store} {rb : Rb}

theorem sized_of_accepted (hacc : Accepted b addr cfg scratch scratchSize before rb) :
    Sized rb := by
  have hclamp := cfg.limit_le b
  have hpos := (Config.valid_iff.mp hacc.valid).2.2.2.2.1
  refine { hacc.masked with limit_le_capacity := ?_, limit_le_slots := ?_, limit_pos := ?_ }
  all_goals rw [hacc.eq]
  · exact UInt32.le_iff_toNat_le.mp hclamp.1
  · exact UInt32.le_iff_toNat_le.mp hclamp.2
  · exact Nat.pos_of_ne_zero fun heq => hpos (UInt32.toNat_inj.mp heq)

theorem start_counted (hacc : Accepted b addr cfg scratch scratchSize before rb) :
    Counted (start rb) := by
  refine ⟨sized_of_accepted hacc, ?_, ?_⟩
  all_goals rw [hacc.eq]
  · exact ⟨rfl, rfl, le_rfl, le_rfl, Nat.zero_le _, fun _ hsome => absurd rfl hsome, trivial, rfl,
      fun k m hget => by cases hget⟩
  · exact ⟨rfl, rfl, le_rfl, le_rfl, fun hactive => absurd rfl hactive, trivial, rfl⟩

/-- In every state the threads reach, the counters are what they should be. -/
theorem reaches_counted (hacc : Accepted b addr cfg scratch scratchSize before rb)
    (hreach : (machine b).Reaches (start rb) s) : Counted s :=
  reaches_invariant hreach Counted (start_counted hacc) step_counted

end Init

end Threads

end RingBuff
