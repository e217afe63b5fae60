import RingBuff.Core.Header
import RingBuff.Threads.Counters

/-! # Who owns a slot

A slot belongs to the producer from the moment it may be reserved until the
store of `head`, and to the consumer from then on until the store of `tail`. The
invariant says what memory holds while a slot is not the producer's: the payload
the producer published, its header, and the entry that leads to it. Each of the
three begins at its own step of `rb_publish_ex`, so each has its own range of
positions.
-/

namespace RingBuff.Threads

variable {b : Build} {s s' : Sys}

/-- The length and the flag `rb_publish_ex` records for a message. -/
def Sent.recorded (cap : UInt32) (x : Sent) : UInt32 × Bool :=
  clampWritten cap x.wantedLen x.writtenLen x.truncated

/-- The message as the producer carries it through `rb_publish_ex`. -/
def Sent.outgoing (cap : UInt32) (x : Sent) : Outgoing :=
  ⟨x.slotIndex, (x.recorded cap).1, (x.recorded cap).2⟩

/-- The message as the consumer should get it. -/
def Sent.delivery (cap : UInt32) (x : Sent) : Delivered :=
  ⟨x.slotIndex, (x.recorded cap).1, (x.recorded cap).2⟩

/-- The header of the current message has been stored, `head` has not. -/
def ProducerPc.headerStored : ProducerPc → Bool
  | .pubHead _ | .pubEntry _ _ | .pubStore _ _ => true
  | _ => false

/-- The entry of the current message has been stored, `head` has not. -/
def ProducerPc.entryStored : ProducerPc → Bool
  | .pubStore _ _ => true
  | _ => false

/-- The stamp of the current message has been replaced, `tail` not yet. -/
def ConsumerPc.freeing : ConsumerPc → Bool
  | .relStore _ => true
  | _ => false

/-- Positions whose header has been stored. -/
def ProducerSide.headers (p : ProducerSide) : Nat :=
  p.published + if p.pc.headerStored then 1 else 0

/-- Positions that have been entered. -/
def ProducerSide.entries (p : ProducerSide) : Nat :=
  p.published + if p.pc.entryStored then 1 else 0

/-- Positions whose entry is no longer needed. -/
def ConsumerSide.freed (c : ConsumerSide) : Nat :=
  c.released + if c.pc.freeing then 1 else 0

theorem ConsumerSide.freed_eq {c : ConsumerSide} (hfree : c.pc.freeing = false) :
    c.freed = c.released := by
  rw [freed, hfree]
  rfl

theorem ProducerSide.entries_eq {p : ProducerSide} (hentry : p.pc.entryStored = false) :
    p.entries = p.published := by
  rw [entries, hentry]
  rfl

theorem ProducerSide.entries_le_succ (p : ProducerSide) : p.entries ≤ p.published + 1 := by
  unfold entries
  split_ifs <;> omega

/-- There is room for a position that has been entered ahead of `head`. -/
theorem Counted.entries_le (hok : Counted s) :
    s.p.entries ≤ s.c.released + s.rb.limit.toNat := by
  have hroom := hok.published_le
  have hknown := hok.producer.knownTail_le
  have hlocals := hok.producer.locals
  cases hpc : s.p.pc with
  | pubStore m head =>
      simp only [ProducerLocals, hpc] at hlocals
      have hfree := (hok.producer.reserved (by rw [hpc]; rfl) hlocals.1).2
      simp only [ProducerSide.entries, hpc, ProducerPc.entryStored, if_true]
      omega
  | _ => simpa [ProducerSide.entries, hpc, ProducerPc.entryStored] using hroom

/-! ## Memory -/

/-- What memory holds for the positions that are not the producer's to write. -/
structure Kept (b : Build) (s : Sys) : Prop where
  payload : ∀ k x, s.c.released ≤ k → s.p.sent[k]? = some x →
    ∀ off < (payloadCap b s.rb.geo).toNat,
      s.rb.store.payload b s.rb.geo (s.rb.geo.slotAt k) off = x.payload off
  header : ∀ k x, s.c.released ≤ k → k < s.p.headers → s.p.sent[k]? = some x →
    s.rb.store.header b s.rb.geo (s.rb.geo.slotAt k) =
      encodeHeader (x.recorded (payloadCap b s.rb.geo)).1
        (x.recorded (payloadCap b s.rb.geo)).2
  entered : ∀ k, s.c.freed ≤ k → k < s.p.entries → s.rb.store.Entered b s.rb.geo k

/-- A move that stores nothing into memory and gives up no range. -/
theorem Kept.of_store_eq (hkept : Kept b s) (hstore : s'.rb.store = s.rb.store)
    (hgeo : s'.rb.geo = s.rb.geo) (hsent : s'.p.sent = s.p.sent)
    (hheaders : s'.p.headers ≤ s.p.headers) (hentries : s'.p.entries ≤ s.p.entries)
    (hreleased : s.c.released ≤ s'.c.released) (hfreed : s.c.freed ≤ s'.c.freed) :
    Kept b s' := by
  refine ⟨?_, ?_, ?_⟩
  · rw [hstore, hgeo, hsent]
    exact fun k x hk => hkept.payload k x (hreleased.trans hk)
  · rw [hstore, hgeo, hsent]
    exact fun k x hk hlt => hkept.header k x (hreleased.trans hk) (hlt.trans_le hheaders)
  · rw [hstore, hgeo]
    exact fun k hk hlt => hkept.entered k (hfreed.trans hk) (hlt.trans_le hentries)

theorem add_ite_mono {n : Nat} {x y : Bool} (himp : x = true → y = true) :
    n + (if x then 1 else 0) ≤ n + if y then 1 else 0 := by
  cases x <;> cases y <;> simp_all

/-- A step of the producer that stores neither memory nor `head`. -/
theorem Kept.of_pc (hkept : Kept b s) (hstore : s'.rb.store = s.rb.store)
    (hgeo : s'.rb.geo = s.rb.geo)
    (hside : s'.p = { s.p with pc := s'.p.pc, knownTail := s'.p.knownTail })
    (hother : s'.c = s.c) (hheader : s'.p.pc.headerStored = true → s.p.pc.headerStored = true)
    (hentry : s'.p.pc.entryStored = true → s.p.pc.entryStored = true) : Kept b s' := by
  have hpub : s'.p.published = s.p.published := by rw [hside]
  refine hkept.of_store_eq hstore hgeo (by rw [hside]) ?_ ?_ (by rw [hother]) (by rw [hother])
  · rw [ProducerSide.headers, hpub]
    exact add_ite_mono hheader
  · rw [ProducerSide.entries, hpub]
    exact add_ite_mono hentry

/-- The producer's slot is not the slot of a position the consumer may look at. -/
theorem Counted.slotAt_ne (hok : Counted s) (hwrap : WrapSafe s.rb.geo.slots s.p.published)
    (hroom : s.p.published < s.p.knownTail + s.rb.limit.toNat) {k : Nat}
    (hk : s.c.released ≤ k) (hlt : k < s.p.published) :
    s.rb.geo.slotAt k ≠ s.rb.geo.slotAt s.p.published := by
  have hknown := hok.producer.knownTail_le
  have hslots := hok.sized.limit_le_slots
  exact hok.sized.slotAt_ne hwrap hlt (by omega)

theorem Counted.cellAt_ne (hok : Counted s)
    (hroom : s.p.published < s.p.knownTail + s.rb.limit.toNat) {k : Nat}
    (hk : s.c.released ≤ k) (hlt : k < s.p.published) :
    s.rb.geo.cellAt k ≠ s.rb.geo.cellAt s.p.published := by
  have hknown := hok.producer.knownTail_le
  have hcap := hok.sized.limit_le_capacity
  exact hok.sized.cell_ne hlt (by omega)

/-- Positions in `sent` are positions the producer has started to publish. -/
theorem Counted.sent_lt (hok : Counted s) {k : Nat} {x : Sent} (hget : s.p.sent[k]? = some x) :
    k < s.p.published + if s.p.pc.publishing then 1 else 0 := by
  have hlength := hok.producer.sent_length
  have hlt := (List.getElem?_eq_some_iff.mp hget).1
  omega

/-- The producer carries the message it was asked to publish. -/
def Carries (b : Build) (s : Sys) : Prop :=
  ∀ m, s.p.pc = .pubHeader m →
    ∃ x, s.p.sent[s.p.published]? = some x ∧ m = x.outgoing (payloadCap b s.rb.geo)

section Stores

variable (hgeo : s.rb.geo.Sound b) (hok : Counted s)
  (hwrap : WrapSafe s.rb.geo.slots s.p.published) (hkept : Kept b s)

include hgeo hok hwrap hkept

/-- A payload byte is stored into the reserved slot only. -/
theorem Kept.setPayload (hpc : s.p.pc = .idle) (hsome : s.rb.pendingSlot ≠ noPending)
    {offset : Nat} (hoff : offset < (payloadCap b s.rb.geo).toNat) (byte : UInt8) :
    Kept b (s.setStore (s.rb.store.setPayload b s.rb.geo s.rb.pendingSlot offset byte)) := by
  obtain ⟨hslot, hroom⟩ := hok.producer.reserved (by rw [hpc]; rfl) hsome
  have hmine := hok.sized.slotAt_lt s.p.published
  rw [hslot]
  refine ⟨?_, ?_, ?_⟩
  · intro k x hk hget off hoff'
    have hlt := hok.sent_lt hget
    rw [hpc] at hlt
    have hne := hok.slotAt_ne hwrap hroom hk hlt
    exact (Store.payload_setPayload_ne hgeo hmine (hok.sized.slotAt_lt k) byte hoff hoff'
      (Or.inl hne.symm)).trans (hkept.payload k x hk hget off hoff')
  · intro k x hk hlt hget
    exact (Store.header_setPayload hgeo hmine (hok.sized.slotAt_lt k) byte hoff).trans
      (hkept.header k x hk hlt hget)
  · intro k hk hlt
    exact (hkept.entered k hk hlt).setPayload hgeo hmine hoff byte

omit hgeo hwrap in
/-- The call of `rb_publish_ex` takes a snapshot of the slot. -/
theorem Kept.publish (hpc : s.p.pc = .idle) (i n : UInt32) (t : Bool) :
    Kept b (s.startPublish b i n t) := by
  dsimp only [Sys.startPublish]
  split_ifs with hinit hpending
  · exact hkept.of_pc rfl rfl rfl rfl nofun nofun
  · exact hkept.of_pc rfl rfl rfl rfl nofun nofun
  · obtain ⟨hsome, heq⟩ := not_or.mp hpending
    obtain ⟨hslot, -⟩ := hok.producer.reserved (by rw [hpc]; rfl) hsome
    have hlength := hok.producer.sent_length
    rw [hpc] at hlength
    refine ⟨?_, ?_, ?_⟩
    · intro k x hk hget off hoff
      rcases getElem?_concat_eq_some.mp hget with hold | ⟨rfl, rfl⟩
      · exact hkept.payload k x hk hold off hoff
      · dsimp only
        rw [hlength, ← not_not.mp heq, hslot]
        rfl
    · intro k x hk hlt hget
      have hlt' : k < s.p.published := hlt
      refine hkept.header k x hk (by simpa [ProducerSide.headers, hpc, ProducerPc.headerStored]) ?_
      exact (getElem?_concat_eq_some.mp hget).resolve_right fun h => by omega
    · intro k hk hlt
      have hlt' : k < s.p.published := hlt
      exact hkept.entered k hk (by simpa [ProducerSide.entries, hpc, ProducerPc.entryStored])

/-- The header goes into the slot of the message that is being published. -/
theorem Kept.setHeader (hcarry : Carries b s) {m : Outgoing} (hpc : s.p.pc = .pubHeader m) :
    Kept b ((s.setStore (s.rb.store.setHeader b s.rb.geo m.slotIndex
      (encodeHeader m.len m.truncated))).goP (.pubHead m)) := by
  have hlocals := hok.producer.locals
  simp only [ProducerLocals, hpc] at hlocals
  obtain ⟨hsome, hmine⟩ := hlocals
  obtain ⟨hslot, hroom⟩ := hok.producer.reserved (by rw [hpc]; rfl) hsome
  obtain ⟨y, hy, rfl⟩ := hcarry m hpc
  rw [hmine, hslot]
  have hlt' := hok.sized.slotAt_lt s.p.published
  refine ⟨?_, ?_, ?_⟩
  · intro k x hk hget off hoff
    exact (Store.payload_setHeader hgeo hlt' (hok.sized.slotAt_lt k) _ hoff).trans
      (hkept.payload k x hk hget off hoff)
  · intro k x hk hlt hget
    rcases Nat.lt_succ_iff_lt_or_eq.mp (show k < s.p.published + 1 from hlt) with hlt | rfl
    · have hne := hok.slotAt_ne hwrap hroom hk hlt
      refine (Store.header_setHeader_ne hgeo hlt' (hok.sized.slotAt_lt k) hne.symm _).trans
        (hkept.header k x hk ?_ hget)
      simpa [ProducerSide.headers, hpc, ProducerPc.headerStored]
    · obtain rfl := Option.some.inj (hget.symm.trans hy)
      exact Store.header_setHeader_same _
  · intro k hk hlt
    have hlt : k < s.p.published := hlt
    refine (hkept.entered k hk ?_).setHeader hgeo hlt' _
    simpa [ProducerSide.entries, hpc, ProducerPc.entryStored]

/-- The entry goes into a cell, or the stamp into a slot, of no live position. -/
theorem Kept.enter (haddr : b.mode = .pointer → s.rb.geo.Addressable b) {m : Outgoing}
    {head : UInt32} (hpc : s.p.pc = .pubEntry m head) :
    Kept b ((s.setStore (s.rb.store.enter b s.rb.geo m.slotIndex head)).goP
      (.pubStore m head)) := by
  have hlocals := hok.producer.locals
  simp only [ProducerLocals, hpc] at hlocals
  obtain ⟨hsome, hmine, hhead⟩ := hlocals
  obtain ⟨hslot, hroom⟩ := hok.producer.reserved (by rw [hpc]; rfl) hsome
  rw [hmine, hslot, hhead, hok.producer.head]
  have hlt' := hok.sized.slotAt_lt s.p.published
  refine ⟨?_, ?_, ?_⟩
  · intro k x hk hget off hoff
    exact (Store.payload_enter hgeo hlt' (hok.sized.slotAt_lt k) _ hoff).trans
      (hkept.payload k x hk hget off hoff)
  · intro k x hk hlt hget
    refine (Store.header_enter hgeo hlt' (hok.sized.slotAt_lt k) _).trans
      (hkept.header k x hk ?_ hget)
    have hlt : k < s.p.published + 1 := hlt
    simpa [ProducerSide.headers, hpc, ProducerPc.headerStored] using hlt
  · intro k hk hlt
    have hk' : s.c.released ≤ k := (Nat.le_add_right _ _).trans hk
    rcases Nat.lt_succ_iff_lt_or_eq.mp (show k < s.p.published + 1 from hlt) with hlt | rfl
    · refine (hkept.entered k hk ?_).enter hgeo (hok.cellAt_ne hroom hk' hlt)
        fun _ => (hok.slotAt_ne hwrap hroom hk' hlt).symm
      simpa [ProducerSide.entries, hpc, ProducerPc.entryStored]
    · exact Store.entered_enter (hgeo.findable haddr) _

end Stores

theorem finishAcquire_kept (hkept : Kept b s) (wantedLen head : UInt32) :
    Kept b (s.finishAcquire b wantedLen head) := by
  dsimp only [Sys.finishAcquire, reserve]
  split_ifs <;> exact hkept.of_pc rfl rfl rfl rfl nofun nofun

theorem producerNext_kept (hgeo : s.rb.geo.Sound b)
    (haddr : b.mode = .pointer → s.rb.geo.Addressable b) (hok : Counted s)
    (hwrap : WrapSafe s.rb.geo.slots s.p.published) (hcarry : Carries b s) (hkept : Kept b s) :
    Kept b (s.producerNext b) := by
  cases hpc : s.p.pc with
  | idle =>
      simp only [Sys.producerNext, hpc]
      exact hkept
  | acqHead w =>
      simp only [Sys.producerNext, hpc]
      split
      · exact hkept.of_pc rfl rfl rfl rfl (by intros; contradiction) (by intros; contradiction)
      · exact finishAcquire_kept hkept w s.rb.head
  | acqTail w head =>
      have hfresh : Kept b s.refreshTail := hkept.of_pc rfl rfl rfl rfl id id
      simp only [Sys.producerNext, hpc]
      split
      · exact hfresh.of_pc rfl rfl rfl rfl (by intros; contradiction) (by intros; contradiction)
      · exact finishAcquire_kept hfresh w head
  | pubHeader m =>
      simp only [Sys.producerNext, hpc]
      exact hkept.setHeader hgeo hok hwrap hcarry hpc
  | pubHead m =>
      simp only [Sys.producerNext, hpc]
      exact hkept.of_pc rfl rfl rfl rfl (fun _ => by rw [hpc]; rfl) (by intros; contradiction)
  | pubEntry m head =>
      simp only [Sys.producerNext, hpc]
      exact hkept.enter hgeo hok hwrap haddr hpc
  | pubStore m head =>
      -- the range of published positions takes over from the message in flight
      simp only [Sys.producerNext, hpc]
      refine hkept.of_store_eq rfl rfl rfl ?_ ?_ le_rfl le_rfl
      · cases hnotify : b.notify <;> simp only [ProducerSide.headers, hpc] <;> exact le_rfl
      · cases hnotify : b.notify <;> simp only [ProducerSide.entries, hpc] <;> exact le_rfl
  | pubWaiters m head =>
      simp only [Sys.producerNext, hpc]
      split_ifs <;> exact hkept.of_pc rfl rfl rfl rfl
        (by intros; contradiction) (by intros; contradiction)
  | pubAdded m count | pubLatch =>
      simp only [Sys.producerNext, hpc]
      split_ifs <;> exact hkept.of_pc rfl rfl rfl rfl
        (by intros; contradiction) (by intros; contradiction)
  | pubWake m head | pubEventfd m head | pubTail m head | pubSetLatch | pubFull =>
      simp only [Sys.producerNext, hpc]
      exact hkept.of_pc rfl rfl rfl rfl (by intros; contradiction) (by intros; contradiction)

theorem ProducerMove.kept (hmove : ProducerMove b s s') (hgeo : s.rb.geo.Sound b)
    (haddr : b.mode = .pointer → s.rb.geo.Addressable b) (hok : Counted s)
    (hwrap : WrapSafe s.rb.geo.slots s.p.published) (hcarry : Carries b s) (hkept : Kept b s) :
    Kept b s' := by
  cases hmove with
  | acquire w hpc =>
      unfold Sys.startAcquire
      split_ifs <;> exact hkept.of_pc rfl rfl rfl rfl nofun nofun
  | write offset byte hpc =>
      unfold Sys.runWrite payloadWrite
      split_ifs with hin
      · exact (hkept.setPayload hgeo hok hwrap hpc hin.1 hin.2 byte).of_pc rfl rfl rfl rfl
          nofun nofun
      · exact hkept.of_pc rfl rfl rfl rfl nofun nofun
  | publish i n t hpc => exact hkept.publish hok hpc i n t
  | abort hpc =>
      unfold Sys.runAbort rbAbort
      split_ifs <;> exact hkept.of_pc rfl rfl rfl rfl nofun nofun
  | next => exact producerNext_kept hgeo haddr hok hwrap hcarry hkept
  | eventfdFails m head hpc hfd => exact hkept.of_pc rfl rfl rfl rfl nofun nofun

theorem producerNext_ne_pubHeader (b : Build) (s : Sys) (m : Outgoing) :
    (s.producerNext b).p.pc ≠ .pubHeader m := by
  have hfinish : ∀ (s : Sys) (w head : UInt32), (s.finishAcquire b w head).p.pc ≠ .pubHeader m :=
    by rintro s w head ⟨⟩
  cases hpc : s.p.pc with
  | idle =>
      simp only [Sys.producerNext, hpc]
      rintro ⟨⟩
  | acqHead w | acqTail w head =>
      simp only [Sys.producerNext, hpc]
      split
      · rintro ⟨⟩
      · exact hfinish _ _ _
  | pubStore m head | pubWaiters m head | pubAdded m count | pubLatch =>
      simp only [Sys.producerNext, hpc]
      split_ifs <;> rintro ⟨⟩
  | pubHeader m | pubHead m | pubEntry m head | pubWake m head | pubEventfd m head
  | pubTail m head | pubSetLatch | pubFull =>
      simp only [Sys.producerNext, hpc]
      rintro ⟨⟩

theorem ProducerMove.carries (hmove : ProducerMove b s s') (hok : Counted s) : Carries b s' := by
  cases hmove with
  | acquire w hpc =>
      unfold Sys.startAcquire
      split_ifs <;> exact nofun
  | write offset byte hpc => exact nofun
  | publish i n t hpc =>
      have hlength := hok.producer.sent_length
      rw [hpc] at hlength
      dsimp only [Sys.startPublish]
      split_ifs
      · exact nofun
      · exact nofun
      · rintro m ⟨⟩
        exact ⟨_, getElem?_concat_eq_some.mpr (Or.inr ⟨hlength.symm, rfl⟩), rfl⟩
  | abort hpc => exact nofun
  | next => exact fun m hpc => absurd hpc (producerNext_ne_pubHeader b s m)
  | eventfdFails m head hpc hfd => exact nofun

/-! ## What the consumer takes -/

/-- The consumer looks at the front slot, and got what the producer sent if
lengths fit the header. -/
structure Taken (b : Build) (s : Sys) : Prop where
  held : s.rb.consumerActive ≠ 0 → s.rb.consumerSlot = s.rb.geo.slotAt s.c.released
  front : ∀ i, s.c.pc = .conHeader i → i = s.rb.geo.slotAt s.c.released
  not_stale : ∀ tail i, s.c.pc ≠ .conStale tail i
  delivered : (payloadCap b s.rb.geo).toNat < 2 ^ 31 →
    ∀ (k : Nat) d, s.c.delivered[k]? = some d →
      ∃ x : Sent, s.p.sent[k]? = some x ∧ d = x.delivery (payloadCap b s.rb.geo)

theorem ProducerMove.taken (hmove : ProducerMove b s s') (htaken : Taken b s) : Taken b s' := by
  obtain ⟨hside, hregs, hset, -, hsent⟩ := hmove.frame
  simp only [Rb.consumerRegs, Prod.mk.injEq] at hregs
  simp only [Rb.settings, Prod.mk.injEq] at hset
  obtain ⟨-, -, hactive, hslot, -⟩ := hregs
  refine ⟨?_, ?_, ?_, ?_⟩
  · rw [hactive, hslot, hset.1, hside]; exact htaken.held
  · rw [hset.1, hside]; exact htaken.front
  · rw [hside]; exact htaken.not_stale
  · rw [hset.1, hside]
    intro hcap k d hget
    obtain ⟨x, hx, hd⟩ := htaken.delivered hcap k d hget
    exact ⟨x, getElem?_of_prefix hsent hx, hd⟩

/-- A move of the consumer that takes no slot. -/
theorem Taken.of_pc (htaken : Taken b s) (hother : s'.p = s.p) (hgeo : s'.rb.geo = s.rb.geo)
    (hreleased : s'.c.released = s.c.released) (hdelivered : s'.c.delivered = s.c.delivered)
    (hactive : s'.rb.consumerActive = s.rb.consumerActive)
    (hslot : s'.rb.consumerSlot = s.rb.consumerSlot)
    (hfront : ∀ i, s'.c.pc = .conHeader i → i = s.rb.geo.slotAt s.c.released)
    (hstale : ∀ tail i, s'.c.pc ≠ .conStale tail i) : Taken b s' := by
  refine ⟨?_, ?_, hstale, ?_⟩
  · rw [hactive, hslot, hgeo, hreleased]; exact htaken.held
  · rw [hgeo, hreleased]; exact hfront
  · rw [hdelivered, hother, hgeo]; exact htaken.delivered

theorem Counted.exists_sent (hok : Counted s) {k : Nat} (hk : k < s.p.published) :
    ∃ x, s.p.sent[k]? = some x := by
  have hlength := hok.producer.sent_length
  have hlt : k < s.p.sent.length := by omega
  exact ⟨s.p.sent[k], List.getElem?_eq_getElem hlt⟩

/-- A recorded length fits the 31 bits the header has for it. -/
theorem recorded_lt {cap : UInt32} (hcap : cap.toNat < 2 ^ 31) (x : Sent) :
    (x.recorded cap).1.toNat < 2 ^ 31 := by
  rw [Sent.recorded, clampWritten_eq]
  dsimp only
  rw [Counter.toNat_of_lt (by omega)]
  omega

/-- What `rb_consume` reads from the front slot is what was published there. -/
theorem Taken.latch (htaken : Taken b s) (hok : Counted s) (hkept : Kept b s) {i : UInt32}
    (hpc : s.c.pc = .conHeader i) (r : Reply) :
    Taken b ((s.latch ⟨i, headerLen (s.rb.store.header b s.rb.geo i),
      headerTruncated (s.rb.store.header b s.rb.geo i)⟩).returnC r) := by
  have hlocals := hok.consumer.locals
  simp only [ConsumerLocals, hpc] at hlocals
  obtain ⟨hactive, hlt⟩ := hlocals
  have hlength := hok.consumer.delivered_length
  rw [hactive] at hlength
  have hfront := htaken.front i hpc
  have hlt : s.c.released < s.p.published := hlt.trans_le hok.consumer.knownHead_le
  obtain ⟨x, hx⟩ := hok.exists_sent hlt
  have hheader := hkept.header _ x le_rfl (Nat.lt_add_right _ hlt) hx
  rw [← hfront] at hheader
  refine ⟨fun _ => hfront, (by rintro j ⟨⟩), (by rintro tail j ⟨⟩), ?_⟩
  intro hcap k d hget
  have hcap : (payloadCap b s.rb.geo).toNat < 2 ^ 31 := hcap
  rcases getElem?_concat_eq_some.mp hget with hold | ⟨rfl, rfl⟩
  · exact htaken.delivered hcap k d hold
  · refine ⟨x, (congrArg _ hlength).trans hx, ?_⟩
    rw [hheader, headerLen_encodeHeader (recorded_lt hcap x), headerTruncated_encodeHeader,
      Sent.delivery, hok.producer.sent_slot _ x hx, hfront]
    rfl

/-- The stamp store of `rb_release` overwrites no entry that is still needed. -/
theorem Kept.recycle (hkept : Kept b s) (hgeo : s.rb.geo.Sound b) (hok : Counted s)
    (hwrap : WrapSafe s.rb.geo.slots s.p.published) (htaken : Taken b s) {i tail : UInt32}
    (hpc : s.c.pc = .relStamp i tail) :
    Kept b ((s.setStore (s.rb.store.recycle b s.rb.geo i tail)).goC (.relStore tail)) := by
  have hlocals := hok.consumer.locals
  simp only [ConsumerLocals, hpc] at hlocals
  obtain ⟨hactive, rfl, rfl⟩ := hlocals
  rw [htaken.held hactive, hok.consumer.tail]
  have hlt' := hok.sized.slotAt_lt s.c.released
  refine ⟨?_, ?_, ?_⟩
  · intro k x hk hget off hoff
    exact (Store.payload_recycle hgeo hlt' (hok.sized.slotAt_lt k) _ hoff).trans
      (hkept.payload k x hk hget off hoff)
  · intro k x hk hlt hget
    exact (Store.header_recycle hgeo hlt' (hok.sized.slotAt_lt k) _).trans
      (hkept.header k x hk hlt hget)
  · intro k hk hlt
    have hk : s.c.released < k := hk
    have hlt : k < s.p.entries := hlt
    have hroom := hok.entries_le
    have hslots := hok.sized.limit_le_slots
    have hle : k ≤ s.p.published := Nat.le_of_lt_succ (hlt.trans_le s.p.entries_le_succ)
    refine (hkept.entered k ?_ hlt).recycle hgeo
      fun _ => hok.sized.slotAt_ne (hwrap.mono hle) hk (by omega)
    simpa [ConsumerSide.freed, hpc, ConsumerPc.freeing] using hk.le

/-- A step of the consumer that stores neither memory nor `tail`. -/
theorem Kept.of_consumer (hkept : Kept b s) (hstore : s'.rb.store = s.rb.store)
    (hgeo : s'.rb.geo = s.rb.geo) (hother : s'.p = s.p)
    (hreleased : s'.c.released = s.c.released) (hfree : s.c.pc.freeing = false) : Kept b s' := by
  refine hkept.of_store_eq hstore hgeo ?_ ?_ ?_ ?_ ?_
  · rw [hother]
  · rw [hother]
  · rw [hother]
  · exact hreleased.ge
  · rw [ConsumerSide.freed, hfree]
    exact hreleased.ge.trans (Nat.le_add_right _ _)

/-- The memory invariant and what the consumer has taken, together. -/
structure Owned (b : Build) (s : Sys) : Prop where
  kept : Kept b s
  carries : Carries b s
  taken : Taken b s

/-- A move of the consumer that neither stores memory nor takes or frees a slot. -/
theorem Owned.of_pc (howned : Owned b s) (hframe : SameProducer s s')
    (hstore : s'.rb.store = s.rb.store) (hreleased : s'.c.released = s.c.released)
    (hdelivered : s'.c.delivered = s.c.delivered)
    (hactive : s'.rb.consumerActive = s.rb.consumerActive)
    (hslot : s'.rb.consumerSlot = s.rb.consumerSlot) (hfree : s.c.pc.freeing = false)
    (hfront : ∀ i, s'.c.pc = .conHeader i → i = s.rb.geo.slotAt s.c.released)
    (hstale : ∀ tail i, s'.c.pc ≠ .conStale tail i) : Owned b s' := by
  obtain ⟨hside, -, hset, -⟩ := hframe
  have hgeo : s'.rb.geo = s.rb.geo := congrArg Prod.fst hset
  refine ⟨howned.kept.of_consumer hstore hgeo hside hreleased hfree, ?_,
    howned.taken.of_pc hside hgeo hreleased hdelivered hactive hslot hfront hstale⟩
  have hcarry := howned.carries
  unfold Carries at hcarry ⊢
  rw [hside, hgeo]
  exact hcarry

theorem consumerStep_owned (hnext : s.consumerStep b = some s') (hgeo : s.rb.geo.Sound b)
    (haddr : b.mode = .pointer → s.rb.geo.Addressable b) (hok : Counted s)
    (hwrap : WrapSafe s.rb.geo.slots s.p.published) (howned : Owned b s) : Owned b s' := by
  have hframe := consumerStep_frame hnext
  have hlocals := hok.consumer.locals
  cases hpc : s.c.pc with
  | idle | waitStart _ _ | waitNow _ | waitLate _ =>
      simp [Sys.consumerStep, hpc] at hnext
  | conEntry tail =>
      -- the front position is entered, so its slot is found and its stamp matches
      simp only [ConsumerLocals, hpc] at hlocals
      obtain ⟨-, rfl, hlt⟩ := hlocals
      have hlt := hlt.trans_le hok.consumer.knownHead_le
      have hent := howned.kept.entered s.c.released
        (by simp [ConsumerSide.freed, hpc, ConsumerPc.freeing]) (Nat.lt_add_right _ hlt)
      simp only [Sys.consumerStep, hpc, hok.consumer.tail, hent.frontSlot (hgeo.findable haddr),
        hent.not_stale] at hnext
      obtain rfl := Option.some.inj hnext
      refine howned.of_pc hframe rfl rfl rfl rfl rfl (by rw [hpc]; rfl) ?_ (by rintro tail j ⟨⟩)
      rintro i ⟨⟩
      rfl
  | conStale tail i => exact absurd hpc (howned.taken.not_stale tail i)
  | conHeader i =>
      simp only [Sys.consumerStep, hpc] at hnext
      obtain rfl := Option.some.inj hnext
      exact ⟨howned.kept.of_consumer rfl rfl rfl rfl (by rw [hpc]; rfl), howned.carries,
        howned.taken.latch hok howned.kept hpc _⟩
  | relStamp i tail =>
      simp only [Sys.consumerStep, hpc] at hnext
      obtain rfl := Option.some.inj hnext
      exact ⟨howned.kept.recycle hgeo hok hwrap howned.taken hpc, howned.carries,
        howned.taken.of_pc rfl rfl rfl rfl rfl rfl (by rintro j ⟨⟩)
          (by rintro tail j ⟨⟩)⟩
  | relStore tail =>
      simp only [Sys.consumerStep, hpc] at hnext
      obtain rfl := Option.some.inj hnext
      have hpcs : ∀ o n, (∀ i, s.crossing o n ≠ .conHeader i) ∧
          ∀ tail i, s.crossing o n ≠ .conStale tail i := by
        intro o n
        simp only [Sys.crossing]
        split_ifs <;> exact ⟨(by rintro j ⟨⟩), (by rintro tail j ⟨⟩)⟩
      refine ⟨howned.kept.of_store_eq rfl rfl rfl le_rfl le_rfl (Nat.le_succ _) ?_,
        howned.carries, fun hactive => absurd rfl hactive,
        fun i hpc' => absurd hpc' ((hpcs _ _).1 i), (hpcs _ _).2, howned.taken.delivered⟩
      simp only [ConsumerSide.freed, hpc, ConsumerPc.freeing, if_true]
      exact Nat.le_add_right _ _
  | conTail | conHead tail | relTail i | waitCount e t | waitCheck w | waitFutex w =>
      simp only [Sys.consumerStep, hpc] at hnext
      obtain rfl := Option.some.inj hnext
      split_ifs <;>
        exact howned.of_pc ⟨rfl, rfl, rfl, rfl, le_rfl⟩ rfl rfl rfl rfl rfl
          (by rw [hpc]; rfl) (by rintro j ⟨⟩)
          (by rintro tail j ⟨⟩)
  | fdRead =>
      simp only [Sys.consumerStep, hpc] at hnext
      obtain rfl := Option.some.inj hnext
      split_ifs
      · exact howned.of_pc ⟨rfl, rfl, rfl, rfl, le_rfl⟩ rfl rfl rfl rfl rfl (by rw [hpc]; rfl)
          (fun i h => by simp [hpc] at h) (fun t i h => by simp [hpc] at h)
      · exact howned.of_pc ⟨rfl, rfl, rfl, rfl, le_rfl⟩ rfl rfl rfl rfl rfl
          (by rw [hpc]; rfl) (by rintro j ⟨⟩)
          (by rintro tail j ⟨⟩)
  | relLowE o n =>
      simp only [Sys.consumerStep, hpc, Sys.crossLowE] at hnext
      obtain rfl := Option.some.inj hnext
      split_ifs <;>
        exact howned.of_pc ⟨rfl, rfl, rfl, rfl, le_rfl⟩ rfl rfl rfl rfl rfl
          (by rw [hpc]; rfl) (by rintro j ⟨⟩)
          (by rintro tail j ⟨⟩)
  | waitAsleep w =>
      simp only [Sys.consumerStep, hpc, Option.ite_none_left_eq_some] at hnext
      obtain rfl := Option.some.inj hnext.2
      exact howned.of_pc ⟨rfl, rfl, rfl, rfl, le_rfl⟩ rfl rfl rfl rfl rfl
        (by rw [hpc]; rfl) (by rintro j ⟨⟩)
          (by rintro tail j ⟨⟩)
  | relClear o n | relLowD o n | relClearUp o n | relFireE | waitRaise w | waitLower r =>
      simp only [Sys.consumerStep, hpc] at hnext
      obtain rfl := Option.some.inj hnext
      exact howned.of_pc ⟨rfl, rfl, rfl, rfl, le_rfl⟩ rfl rfl rfl rfl rfl
        (by rw [hpc]; rfl) (by rintro j ⟨⟩)
          (by rintro tail j ⟨⟩)

theorem ConsumerMove.owned (hmove : ConsumerMove b s s') (hgeo : s.rb.geo.Sound b)
    (haddr : b.mode = .pointer → s.rb.geo.Addressable b) (hok : Counted s)
    (hwrap : WrapSafe s.rb.geo.slots s.p.published) (howned : Owned b s) : Owned b s' := by
  have hframe := hmove.frame
  cases hmove with
  | consume hpc =>
      unfold Sys.startConsume
      split_ifs <;>
        exact howned.of_pc ⟨rfl, rfl, rfl, rfl, le_rfl⟩ rfl rfl rfl rfl rfl
          (by rw [hpc]; rfl) nofun nofun
  | release i hpc =>
      unfold Sys.startRelease
      split_ifs <;>
        exact howned.of_pc ⟨rfl, rfl, rfl, rfl, le_rfl⟩ rfl rfl rfl rfl rfl
          (by rw [hpc]; rfl) nofun nofun
  | wait e t hpc =>
      unfold Sys.startWait
      split_ifs
      · exact howned.of_pc ⟨rfl, rfl, rfl, rfl, le_rfl⟩ rfl rfl rfl rfl rfl (by rw [hpc]; rfl)
          (fun i h => by simp [hpc] at h) (fun t i h => by simp [hpc] at h)
      · exact howned.of_pc ⟨rfl, rfl, rfl, rfl, le_rfl⟩ rfl rfl rfl rfl rfl
          (by rw [hpc]; rfl) nofun nofun
  | drainFd hpc =>
      unfold Sys.startDrainFd
      split_ifs <;>
        exact howned.of_pc ⟨rfl, rfl, rfl, rfl, le_rfl⟩ rfl rfl rfl rfl rfl
          (by rw [hpc]; rfl) nofun nofun
  | read offset hpc | notifyValue hpc =>
      exact howned.of_pc hframe rfl rfl rfl rfl rfl (by rw [hpc]; rfl) nofun nofun
  | next hnext => exact consumerStep_owned hnext hgeo haddr hok hwrap howned
  | clock now hnext =>
      unfold Sys.clockStep at hnext
      split at hnext
      case h_4 => cases hnext
      all_goals
        rename_i hpc
        split_ifs at hnext <;> obtain rfl := Option.some.inj hnext <;>
          exact howned.of_pc hframe rfl rfl rfl rfl rfl (by rw [hpc]; rfl) nofun nofun
  | futexReturns r hnext =>
      unfold Sys.futexStep at hnext
      split at hnext
      case h_3 => cases hnext
      all_goals
        rename_i hpc
        obtain rfl := Option.some.inj hnext
        cases r <;> split_ifs <;>
          exact howned.of_pc ⟨rfl, rfl, rfl, rfl, le_rfl⟩ rfl rfl rfl rfl rfl
            (by rw [hpc]; rfl) nofun nofun

theorem step_owned {a : Act} (hstep : step b s a = some s') (hgeo : s.rb.geo.Sound b)
    (haddr : b.mode = .pointer → s.rb.geo.Addressable b) (hok : Counted s)
    (hwrap : WrapSafe s.rb.geo.slots s.p.published) (howned : Owned b s) : Owned b s' := by
  rcases step_moves hstep with hmove | hmove
  · exact ⟨hmove.kept hgeo haddr hok hwrap howned.carries howned.kept, hmove.carries hok,
      hmove.taken howned.taken⟩
  · exact hmove.owned hgeo haddr hok hwrap howned

section Runs

variable {addr scratch scratchSize : BitVec b.sizeBits} {cfg : Config} {before : Store} {rb : Rb}

theorem start_owned (hacc : Accepted b addr cfg scratch scratchSize before rb) :
    Owned b (start rb) := by
  have hactive : rb.consumerActive = 0 := by rw [hacc.eq]; rfl
  exact
    { kept := ⟨fun k x _ hget => (by cases hget), fun k x _ _ hget => (by cases hget),
        fun k _ hlt => absurd hlt (Nat.not_lt_zero k)⟩
      carries := nofun
      taken := ⟨fun hne => absurd hactive hne, nofun, nofun, fun _ k d hget => by cases hget⟩ }

/-- Ownership in every state the threads reach, as long as slots and positions
stay aligned. -/
theorem reaches_owned (hacc : Accepted b addr cfg scratch scratchSize before rb)
    (hgeo : rb.geo.Sound b) (haddr : b.mode = .pointer → rb.geo.Addressable b)
    (hreach : (machine b).Reaches (start rb) s)
    (hwrap : WrapSafe rb.geo.slots s.p.published) : Owned b s := by
  have hinv := reaches_invariant hreach
    (fun s => s.rb.geo = rb.geo ∧ Counted s ∧ (WrapSafe rb.geo.slots s.p.published → Owned b s))
    ⟨rfl, start_counted hacc, fun _ => start_owned hacc⟩ ?_
  · exact hinv.2.2 hwrap
  · rintro s s' a ⟨hsame, hok, howned⟩ hstep
    refine ⟨(congrArg Prod.fst (step_settings hstep)).trans hsame, step_counted hok hstep, ?_⟩
    intro hwrap
    have hwrap := hwrap.mono (step_published_le hstep)
    rw [← hsame] at hgeo haddr
    exact step_owned hstep hgeo haddr hok (hsame ▸ hwrap) (howned hwrap)

end Runs

end RingBuff.Threads
