import RingBuff.Threads.Ownership

/-! # One producer and one consumer are safe

Where the producer stores, and that it never is a slot or a cell of a message
the consumer has not released. Together with ownership this gives the promise of
the library for any interleaving: the ring never holds more than its limit, no
unread message is touched, and messages come out as they went in.
-/

namespace RingBuff.Threads

variable {b : Build} {s s' : Sys}

/-- The slot a move of the producer stores into: payload, header or stamp. -/
def slotTarget (b : Build) (s : Sys) : Act → Option UInt32
  | .write offset _ =>
      if s.rb.pendingSlot ≠ noPending ∧ offset < (payloadCap b s.rb.geo).toNat then
        some s.rb.pendingSlot
      else none
  | .producer =>
      match s.p.pc with
      | .pubHeader m => some m.slotIndex
      | .pubEntry m _ => if b.mode = .lap then some m.slotIndex else none
      | _ => none
  | _ => none

/-- The cell of `entries[]` a move of the producer stores into. -/
def cellTarget (b : Build) (s : Sys) : Act → Option UInt32
  | .producer =>
      match s.p.pc with
      | .pubEntry _ head => if b.mode = .lap then none else some (head &&& s.rb.geo.mask)
      | _ => none
  | _ => none

/-- One store into memory, at the given slot or cell. -/
inductive Stores (b : Build) (geo : Geometry) (st : Store) :
    Option UInt32 → Option UInt32 → Store → Prop where
  | nothing {slot cell : Option UInt32} : Stores b geo st slot cell st
  | payload {cell : Option UInt32} (i : UInt32) (offset : Nat) (byte : UInt8)
      (hoff : offset < (payloadCap b geo).toNat) :
      Stores b geo st (some i) cell (st.setPayload b geo i offset byte)
  | header {cell : Option UInt32} (i word : UInt32) :
      Stores b geo st (some i) cell (st.setHeader b geo i word)
  | stamp {cell : Option UInt32} (i word : UInt32) (hmode : b.mode = .lap) :
      Stores b geo st (some i) cell (st.setStamp b geo i word)
  | entry {slot : Option UInt32} (cell : UInt32) (value : Nat) :
      Stores b geo st slot (some cell) (st.setEntry cell value)

theorem finishAcquire_store (b : Build) (s : Sys) (wantedLen head : UInt32) :
    (s.finishAcquire b wantedLen head).rb.store = s.rb.store := by
  dsimp only [Sys.finishAcquire, reserve]
  split_ifs <;> rfl

theorem producerNext_stores (b : Build) (s : Sys) :
    Stores b s.rb.geo s.rb.store (slotTarget b s .producer) (cellTarget b s .producer)
      (s.producerNext b).rb.store := by
  cases hpc : s.p.pc with
  | pubHeader m =>
      simp only [slotTarget, Sys.producerNext, hpc]
      exact .header m.slotIndex _
  | pubEntry m head =>
      simp only [slotTarget, cellTarget, Sys.producerNext, hpc]
      dsimp only [Sys.goP, Sys.setStore]
      unfold Store.enter
      cases hmode : b.mode with
      | index => exact .entry _ _
      | pointer => exact .entry _ _
      | lap => exact .stamp _ _ hmode
  | acqHead w =>
      simp only [Sys.producerNext, hpc]
      split
      · exact .nothing
      · rw [finishAcquire_store]
        exact .nothing
  | acqTail w head =>
      simp only [Sys.producerNext, hpc]
      split
      · exact .nothing
      · rw [finishAcquire_store]
        exact .nothing
  | pubAdded m count | pubLatch =>
      simp only [Sys.producerNext, hpc]
      split_ifs <;> exact .nothing
  | idle | pubHead m | pubStore m head | pubWaiters m head | pubWake m head
  | pubEventfd m head | pubTail m head | pubSetLatch | pubFull =>
      simp only [Sys.producerNext, hpc]
      exact .nothing

/-- The targets account for everything a move of the producer stores. -/
theorem producer_stores {a : Act} (ha : a.byProducer = true) (hstep : step b s a = some s') :
    Stores b s.rb.geo s.rb.store (slotTarget b s a) (cellTarget b s a) s'.rb.store := by
  cases a <;> simp only [Act.byProducer, Bool.false_eq_true] at ha <;>
    simp only [step, Option.ite_none_right_eq_some, Option.ite_none_left_eq_some,
      Option.some.injEq] at hstep
  case acquire w =>
    obtain ⟨-, rfl⟩ := hstep
    unfold Sys.startAcquire
    split_ifs <;> exact .nothing
  case write offset byte =>
    obtain ⟨-, rfl⟩ := hstep
    dsimp only [Sys.runWrite, payloadWrite, slotTarget, Sys.returnP]
    split_ifs with hin
    · exact .payload _ _ _ hin.2
    · exact .nothing
  case publishEx i n t =>
    obtain ⟨-, rfl⟩ := hstep
    unfold Sys.startPublish
    split_ifs <;> exact .nothing
  case abort =>
    obtain ⟨-, rfl⟩ := hstep
    unfold Sys.runAbort rbAbort
    split_ifs <;> exact .nothing
  case producer =>
    obtain ⟨-, rfl⟩ := hstep
    exact producerNext_stores b s
  case eventfdFails =>
    split at hstep
    next m head hpc =>
      simp only [Option.ite_none_left_eq_some, Option.some.injEq] at hstep
      obtain ⟨-, rfl⟩ := hstep
      exact .nothing
    next => cases hstep

/-- The producer stores only into the slot of the next position, and only while
there is room for it. -/
theorem slotTarget_eq (hok : Counted s) {a : Act} (hstep : step b s a = some s') {i : UInt32}
    (htarget : slotTarget b s a = some i) :
    i = s.rb.geo.slotAt s.p.published ∧
      s.p.published < s.p.knownTail + s.rb.limit.toNat := by
  have hlocals := hok.producer.locals
  unfold slotTarget at htarget
  split at htarget
  next offset byte =>
    simp only [step, Option.ite_none_right_eq_some] at hstep
    simp only [Option.ite_none_right_eq_some, Option.some.injEq] at htarget
    obtain ⟨⟨hsome, -⟩, rfl⟩ := htarget
    exact hok.producer.reserved (by rw [hstep.1]; rfl) hsome
  next =>
    split at htarget
    next m hpc =>
      simp only [ProducerLocals, hpc] at hlocals
      obtain rfl := Option.some.inj htarget
      rw [hlocals.2]
      exact hok.producer.reserved (by rw [hpc]; rfl) hlocals.1
    next m head hpc =>
      simp only [ProducerLocals, hpc] at hlocals
      simp only [Option.ite_none_right_eq_some, Option.some.injEq] at htarget
      obtain ⟨-, rfl⟩ := htarget
      rw [hlocals.2.1]
      exact hok.producer.reserved (by rw [hpc]; rfl) hlocals.1
    next => cases htarget
  next => cases htarget

theorem cellTarget_eq (hok : Counted s) {a : Act} {cell : UInt32}
    (htarget : cellTarget b s a = some cell) :
    cell = s.rb.geo.cellAt s.p.published ∧
      s.p.published < s.p.knownTail + s.rb.limit.toNat := by
  have hlocals := hok.producer.locals
  unfold cellTarget at htarget
  split at htarget
  next =>
    split at htarget
    next m head hpc =>
      simp only [ProducerLocals, hpc] at hlocals
      simp only [Option.ite_none_left_eq_some, Option.some.injEq] at htarget
      obtain ⟨-, rfl⟩ := htarget
      refine ⟨?_, (hok.producer.reserved (by rw [hpc]; rfl) hlocals.1).2⟩
      rw [hlocals.2.2, hok.producer.head, s.rb.geo.ofNat_and_mask]
    next => cases htarget
  next => cases htarget

/-- What the library promises about a state of the two threads. -/
structure Safe (b : Build) (s : Sys) : Prop where
  bounded : s.rb.head - s.rb.tail ≤ s.rb.limit
  /-- No move stores into a slot or a cell of a position in `[tail, head)`. -/
  untouched : ∀ a s', step b s a = some s' → ∀ k < (s.rb.head - s.rb.tail).toNat,
    slotTarget b s a ≠ some (slotIndexFor s.rb.geo (s.rb.tail + UInt32.ofNat k)) ∧
      cellTarget b s a ≠ some ((s.rb.tail + UInt32.ofNat k) &&& s.rb.geo.mask)
  /-- The `k`-th message taken is the `k`-th one published. -/
  in_order : ∀ (k : Nat) d, s.c.delivered[k]? = some d → ∃ x, s.p.sent[k]? = some x ∧
    d.slotIndex = x.slotIndex ∧
    d.len.toNat = min x.writtenLen.toNat (payloadCap b s.rb.geo).toNat ∧
    d.truncated = (x.truncated || payloadCap b s.rb.geo < x.writtenLen ||
      payloadCap b s.rb.geo < x.wantedLen)
  /-- While a message is held, its payload is the one it was published with. -/
  payload : s.rb.consumerActive ≠ 0 → ∀ k : Nat, k + 1 = s.c.delivered.length →
    ∃ x, s.p.sent[k]? = some x ∧ s.rb.consumerSlot = x.slotIndex ∧
      ∀ off < (payloadCap b s.rb.geo).toNat,
        s.rb.store.payload b s.rb.geo s.rb.consumerSlot off = x.payload off

/-- A position in `[tail, head)`, as a number. -/
theorem Counted.live (hok : Counted s) {k : Nat} (hk : k < (s.rb.head - s.rb.tail).toNat) :
    s.rb.tail + UInt32.ofNat k = UInt32.ofNat (s.c.released + k) ∧
      s.c.released + k < s.p.published := by
  rw [hok.count_eq] at hk
  rw [hok.consumer.tail, UInt32.ofNat_add]
  exact ⟨rfl, by omega⟩

theorem Counted.untouched (hok : Counted s) (hwrap : WrapSafe s.rb.geo.slots s.p.published)
    {a : Act} (hstep : step b s a = some s') {k : Nat}
    (hk : k < (s.rb.head - s.rb.tail).toNat) :
    slotTarget b s a ≠ some (slotIndexFor s.rb.geo (s.rb.tail + UInt32.ofNat k)) ∧
      cellTarget b s a ≠ some ((s.rb.tail + UInt32.ofNat k) &&& s.rb.geo.mask) := by
  obtain ⟨hpos, hlt⟩ := hok.live hk
  rw [hpos]
  refine ⟨fun htarget => ?_, fun htarget => ?_⟩
  · obtain ⟨heq, hroom⟩ := slotTarget_eq hok hstep htarget
    exact hok.slotAt_ne hwrap hroom (Nat.le_add_right _ _) hlt heq
  · obtain ⟨heq, hroom⟩ := cellTarget_eq hok htarget
    exact hok.cellAt_ne hroom (Nat.le_add_right _ _) hlt heq

theorem Owned.safe (howned : Owned b s) (hok : Counted s)
    (hcap : (payloadCap b s.rb.geo).toNat < 2 ^ 31)
    (hwrap : WrapSafe s.rb.geo.slots s.p.published) : Safe b s where
  bounded := by
    have hle := hok.published_le
    rw [UInt32.le_iff_toNat_le, hok.count_eq]
    omega
  untouched := fun a s' hstep k hk => hok.untouched hwrap hstep hk
  in_order := by
    intro k d hget
    obtain ⟨x, hx, rfl⟩ := howned.taken.delivered hcap k d hget
    have hlt := (payloadCap b s.rb.geo).toNat_lt
    refine ⟨x, hx, rfl, ?_, ?_⟩
    · rw [Sent.delivery, Sent.recorded, clampWritten_eq]
      exact Counter.toNat_of_lt (by omega)
    · rw [Sent.delivery, Sent.recorded, clampWritten_eq]
  payload := by
    intro hactive k hk
    have hlength := hok.consumer.delivered_length
    rw [if_pos hactive] at hlength
    obtain rfl : k = s.c.released := by omega
    have hlt := (hok.consumer.active hactive).trans_le hok.consumer.knownHead_le
    obtain ⟨x, hx⟩ := hok.exists_sent hlt
    have hslot := howned.taken.held hactive
    refine ⟨x, hx, hslot.trans (hok.producer.sent_slot _ x hx).symm, ?_⟩
    rw [hslot]
    exact howned.kept.payload _ x le_rfl hx

/-- Whatever the interleaving, every state of one producer and one consumer on an
initialised ring is safe. -/
theorem interleaving_safe {addr scratch scratchSize : BitVec b.sizeBits} {cfg : Option Config}
    {before : Store} {rb : Rb} (hinit : rbInit b addr cfg scratch scratchSize before = .ok rb)
    (hover : rb.geo.NonOverlapping) (haddr : b.mode = .pointer → rb.geo.Addressable b)
    (hcap : (payloadCap b rb.geo).toNat < 2 ^ 31)
    (hreach : (machine b).Reaches (start rb) s)
    (hwrap : WrapSafe rb.geo.slots s.p.published) : Safe b s := by
  obtain ⟨cfg', -, hacc⟩ := rbInit_accepted hinit
  have hgeo : s.rb.geo = rb.geo := congrArg Prod.fst (reaches_settings hreach)
  have howned := reaches_owned hacc (hacc.sound hover) haddr hreach hwrap
  exact howned.safe (reaches_counted hacc hreach) (hgeo ▸ hcap) (hgeo ▸ hwrap)

/-- A message is taken while the producer is still inside `rb_publish_ex`. -/
def overlappedRun : List Act :=
  [.acquire 5, .producer, .write 0 7, .publishEx 0 5 false, .consume, .producer, .consumer,
    .producer, .producer, .producer, .consumer, .consumer, .producer, .consumer]

theorem smallRing_interleaving_safe :
    ∃ s, (machine { mode := .index }).Reaches (start (smallRing .index)) s ∧
      (s.c.delivered, s.p.published, decide (s.p.pc = .idle)) = ([⟨0, 5, false⟩], 1, false) ∧
      Safe { mode := .index } s := by
  obtain ⟨s, hreach, hseen⟩ := Automaton.Reaches.of_run (machine { mode := .index })
    (start (smallRing .index)) overlappedRun
    (fun s => (s.c.delivered, s.p.published, decide (s.p.pc = .idle)))
    (show _ = some ([⟨0, 5, false⟩], 1, false) by decide +kernel)
  exact ⟨s, hreach, hseen, interleaving_safe (smallRing_init .index)
    (smallRing_nonOverlapping .index) nofun (by decide) hreach (Or.inl (by decide))⟩

end RingBuff.Threads
