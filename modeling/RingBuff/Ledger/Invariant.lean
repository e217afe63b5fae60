import RingBuff.Ledger.Model

/-! # What holds of every ledger

The two cached counters lag behind the real ones and all four stay inside one
window: `cachedTail ≤ tail ≤ cachedHead ≤ head`, with at most `limit` messages
between `tail` and `head`. Every call keeps this, also when it is misused.
-/

namespace RingBuff.Ledger

structure Ok (L : Ledger) : Prop where
  cachedTail_le : L.cachedTail ≤ L.tail
  tail_le : L.tail ≤ L.cachedHead
  cachedHead_le : L.cachedHead ≤ L.head
  span : L.head - L.cachedTail ≤ L.capacity.toNat
  room : L.count ≤ L.limit.toNat
  limit_pos : 0 < L.limit.toNat
  limit_capacity : L.limit.toNat ≤ L.capacity.toNat
  limit_slots : L.limit.toNat ≤ L.slots.toNat
  /-- A reservation is for the next position, and there is room for it. -/
  pending_slot : ∀ r, L.pending = some r → r.slotIndex = L.slotFor L.head ∧ L.count < L.limit.toNat
  /-- A held message is the one at the front. -/
  held_slot : ∀ s, L.held = some s → s = L.slotFor L.tail ∧ L.tail < L.cachedHead

namespace Ok

variable {L : Ledger}

theorem tail_le_head (hok : L.Ok) : L.tail ≤ L.head :=
  hok.tail_le.trans hok.cachedHead_le

theorem count_lt (hok : L.Ok) : L.head - L.tail < 2 ^ 32 := by
  have hroom := hok.room
  have hcap := hok.limit_capacity
  have hlt := L.capacity.toNat_lt
  unfold count at hroom
  omega

theorem slots_pos (hok : L.Ok) : 0 < L.slots.toNat :=
  hok.limit_pos.trans_le hok.limit_slots

theorem slotFor_toNat (hok : L.Ok) (pos : Nat) :
    (L.slotFor pos).toNat = pos % 2 ^ 32 % L.slots.toNat := by
  have hlt := L.slots.toNat_lt
  exact Counter.toNat_of_lt ((Nat.mod_lt _ hok.slots_pos).trans hlt)

theorem slotFor_lt (hok : L.Ok) (pos : Nat) : (L.slotFor pos).toNat < L.slots.toNat := by
  rw [hok.slotFor_toNat]
  exact Nat.mod_lt _ hok.slots_pos

/-- The producer sees a full ring exactly when the ring is full: its cached
counter can only overestimate, and then the real one is consulted. -/
theorem full_of_cached (hok : L.Ok) (hroom : ¬ L.limit.toNat ≤ L.head - L.cachedTail) :
    L.count < L.limit.toNat := by
  have hle := hok.cachedTail_le
  unfold count
  omega

end Ok

/-! ## One lemma for each call -/

section Calls

variable {L : Ledger}

theorem withPending_ok (hok : L.Ok) {r : Option Reservation}
    (hr : ∀ r', r = some r' → r'.slotIndex = L.slotFor L.head ∧ L.count < L.limit.toNat) :
    (L.withPending r).Ok :=
  { hok with pending_slot := hr }

theorem reserve_ok (hok : L.Ok) (hroom : L.count < L.limit.toNat) (wantedLen : UInt32) :
    (L.reserve wantedLen).2.Ok := by
  unfold reserve
  split
  · exact hok
  · apply withPending_ok hok
    rintro r ⟨⟩
    exact ⟨rfl, hroom⟩

/-- Reading the real `tail` again keeps the window. -/
theorem refreshTail_ok (hok : L.Ok) : L.refreshTail.Ok :=
  { hok with
    cachedTail_le := le_rfl
    span := hok.room.trans hok.limit_capacity }

theorem refreshHead_ok (hok : L.Ok) : L.refreshHead.Ok :=
  { hok with
    tail_le := hok.tail_le_head
    cachedHead_le := le_rfl
    held_slot := fun s hs => ⟨(hok.held_slot s hs).1,
      (hok.held_slot s hs).2.trans_le hok.cachedHead_le⟩ }

theorem acquire_ok (hok : L.Ok) (wantedLen : UInt32) : (L.acquire wantedLen).2.Ok := by
  unfold acquire
  split
  next => exact hok
  split
  next hcached =>
    split
    next => exact { refreshTail_ok hok with }
    next hroom => exact reserve_ok (refreshTail_ok hok) (Nat.lt_of_not_le hroom) wantedLen
  next hcached => exact reserve_ok hok (hok.full_of_cached hcached) wantedLen

theorem write_ok (hok : L.Ok) (offset : Nat) (byte : UInt8) : (L.write offset byte).2.Ok := by
  unfold write
  split
  next => exact hok
  next r hr =>
    split
    · exact { hok with }
    · exact hok

theorem append_ok (hok : L.Ok) (hroom : L.count < L.limit.toNat) (slotIndex len : UInt32)
    (truncated : Bool) : (L.append slotIndex len truncated).Ok := by
  have htail := hok.tail_le_head
  have hcap := hok.limit_capacity
  unfold count at hroom
  refine { hok with
    cachedTail_le := le_rfl
    cachedHead_le := hok.cachedHead_le.trans (Nat.le_succ _)
    span := ?_
    room := ?_
    pending_slot := ?_ }
  · simp only [append]
    omega
  · simp only [append, count]
    omega
  · intro r hr
    cases hr

theorem latchFull_ok (hok : L.Ok) : L.latchFull.Ok := { hok with }

theorem handOver_ok (hok : L.Ok) (hroom : L.count < L.limit.toNat) (slotIndex len : UInt32)
    (truncated : Bool) : (L.handOver slotIndex len truncated).2.Ok := by
  have hnext := append_ok hok hroom slotIndex len truncated
  unfold handOver
  dsimp only
  split
  · exact latchFull_ok hnext
  · exact hnext

theorem publishEx_ok (hok : L.Ok) (slotIndex writtenLen : UInt32) (truncated : Bool) :
    (L.publishEx slotIndex writtenLen truncated).2.Ok := by
  unfold publishEx
  split
  next => exact hok
  next r hr =>
    split
    next => exact hok
    next => exact handOver_ok hok (hok.pending_slot r hr).2 slotIndex _ _

theorem abort_ok (hok : L.Ok) : L.abort.2.Ok := by
  unfold abort
  split
  · exact withPending_ok hok fun r hr => by cases hr
  · exact hok

theorem hold_ok (hok : L.Ok) (hfront : L.tail < L.cachedHead) :
    (L.hold (L.slotFor L.tail)).Ok := by
  refine { hok with held_slot := ?_ }
  rintro s ⟨⟩
  exact ⟨rfl, hfront⟩

theorem consume_ok (hok : L.Ok) : L.consume.2.Ok := by
  have htail := hok.tail_le_head
  unfold consume
  split
  next => exact hok
  split
  next hcached =>
    split
    next => exact refreshHead_ok hok
    next hne => exact hold_ok (refreshHead_ok hok) (Nat.lt_of_le_of_ne htail hne)
  next hne => exact hold_ok hok (Nat.lt_of_le_of_ne hok.tail_le hne)

theorem drop_ok (hok : L.Ok) (hfront : L.tail < L.cachedHead) : L.drop.Ok := by
  have hroom := hok.room
  refine { hok with
    cachedTail_le := hok.cachedTail_le.trans (Nat.le_succ _)
    tail_le := hfront
    room := ?_
    pending_slot := ?_
    held_slot := fun s hs => by cases hs }
  · simp only [drop, count] at hroom ⊢
    omega
  · intro r hr
    have hpend := hok.pending_slot r hr
    refine ⟨hpend.1, ?_⟩
    have hlt := hpend.2
    simp only [drop, count] at hlt ⊢
    omega

theorem crossLowD_ok (hok : L.Ok) (oldCount newCount : Nat) :
    (L.crossLowD oldCount newCount).2.Ok := by
  unfold crossLowD
  split
  · exact { hok with }
  · exact hok

theorem crossLowE_ok (hok : L.Ok) (oldCount newCount : Nat) :
    (L.crossLowE oldCount newCount).2.Ok := by
  unfold crossLowE
  split
  · exact { hok with }
  · exact hok

theorem release_ok (hok : L.Ok) (slotIndex : UInt32) : (L.release slotIndex).2.Ok := by
  unfold release
  split
  next hheld =>
    exact crossLowE_ok (crossLowD_ok (drop_ok hok (hok.held_slot _ hheld).2) _ _) _ _
  next => exact hok

theorem setLimit_ok (hok : L.Ok) (limit : UInt32) : (L.setLimit limit).2.Ok := by
  unfold setLimit
  split
  next => exact hok
  next hvalid =>
    simp only [not_or, not_not, UInt32.not_lt] at hvalid
    obtain ⟨hzero, hcap, hslots, hempty⟩ := hvalid
    have hpos : 0 < limit.toNat :=
      Nat.pos_of_ne_zero fun heq => hzero (UInt32.toNat_inj.mp heq)
    refine { hok with
      limit_pos := hpos
      limit_capacity := UInt32.le_iff_toNat_le.mp hcap
      limit_slots := UInt32.le_iff_toNat_le.mp hslots
      room := ?_
      pending_slot := fun r hr => ⟨(hok.pending_slot r hr).1, ?_⟩ }
    · simp only [count, withLimit] at hempty ⊢
      omega
    · simp only [count, withLimit] at hempty ⊢
      omega

/-- Every call keeps the window. -/
theorem call_ok (hok : L.Ok) (c : Call) : (L.call c).2.Ok := by
  cases c with
  | acquire wantedLen => exact acquire_ok hok wantedLen
  | write offset byte => exact write_ok hok offset byte
  | publish slotIndex writtenLen => exact publishEx_ok hok slotIndex writtenLen false
  | publishEx slotIndex writtenLen truncated =>
      exact publishEx_ok hok slotIndex writtenLen truncated
  | abort => exact abort_ok hok
  | consume => exact consume_ok hok
  | release slotIndex => exact release_ok hok slotIndex
  | setLimit limit => exact setLimit_ok hok limit
  | read offset | count | isFull | isEmpty => exact hok
  | setLowD percent =>
      simp only [call, quiet, setLowD]
      split
      · exact hok
      · exact { hok with }
  | setLowE percent =>
      simp only [call, quiet, setLowE]
      split
      · exact hok
      · exact { hok with }
  | setOversizePolicy policy =>
      simp only [call, quiet, setOversizePolicy]
      split
      · exact hok
      · exact { hok with }
      · exact { hok with }
  | setCallbacks cb =>
      cases cb with
      | none => exact hok
      | some cb => exact { hok with }
  | setProducerStack bytes | setConsumerStack bytes => exact hok

end Calls

/-! ## What a run counts -/

section Counting

variable (L : Ledger)

theorem acquire_head (wantedLen : UInt32) :
    (L.acquire wantedLen).2.head = L.head ∧ (L.acquire wantedLen).2.fixed = L.fixed := by
  unfold acquire reserve
  split_ifs <;> exact ⟨rfl, rfl⟩

theorem write_head (offset : Nat) (byte : UInt8) :
    (L.write offset byte).2.head = L.head ∧ (L.write offset byte).2.fixed = L.fixed := by
  unfold write
  split
  · exact ⟨rfl, rfl⟩
  · split_ifs <;> exact ⟨rfl, rfl⟩

theorem publishEx_head (slotIndex writtenLen : UInt32) (truncated : Bool) :
    (L.publishEx slotIndex writtenLen truncated).2.head = L.head +
        (decide ((L.publishEx slotIndex writtenLen truncated).1.1 = .code .ok)).toNat ∧
      (L.publishEx slotIndex writtenLen truncated).2.fixed = L.fixed := by
  unfold publishEx
  split
  · exact ⟨rfl, rfl⟩
  · unfold handOver
    dsimp only
    split_ifs <;> exact ⟨rfl, rfl⟩

theorem abort_head : L.abort.2.head = L.head ∧ L.abort.2.fixed = L.fixed := by
  unfold abort
  split_ifs <;> exact ⟨rfl, rfl⟩

theorem consume_head : L.consume.2.head = L.head ∧ L.consume.2.fixed = L.fixed := by
  unfold consume
  split_ifs <;> exact ⟨rfl, rfl⟩

theorem release_head (slotIndex : UInt32) :
    (L.release slotIndex).2.head = L.head ∧ (L.release slotIndex).2.fixed = L.fixed := by
  unfold release crossLowD crossLowE
  dsimp only
  split_ifs <;> exact ⟨rfl, rfl⟩

theorem setLimit_head (limit : UInt32) :
    (L.setLimit limit).2.head = L.head ∧ (L.setLimit limit).2.fixed = L.fixed := by
  unfold setLimit
  split_ifs <;> exact ⟨rfl, rfl⟩

theorem setLowD_head (percent : UInt32) :
    (L.setLowD percent).2.head = L.head ∧ (L.setLowD percent).2.fixed = L.fixed := by
  unfold setLowD
  split_ifs <;> exact ⟨rfl, rfl⟩

theorem setLowE_head (percent : UInt32) :
    (L.setLowE percent).2.head = L.head ∧ (L.setLowE percent).2.fixed = L.fixed := by
  unfold setLowE
  split_ifs <;> exact ⟨rfl, rfl⟩

/-- The head counts the published messages. -/
theorem call_head (c : Call) :
    (L.call c).2.head = L.head + (c.published (L.call c).1).toNat ∧
      (L.call c).2.fixed = L.fixed := by
  cases c with
  | acquire wantedLen => exact L.acquire_head wantedLen
  | write offset byte => exact L.write_head offset byte
  | publish slotIndex writtenLen => exact L.publishEx_head slotIndex writtenLen false
  | publishEx slotIndex writtenLen truncated =>
      exact L.publishEx_head slotIndex writtenLen truncated
  | abort => exact L.abort_head
  | consume => exact L.consume_head
  | release slotIndex => exact L.release_head slotIndex
  | read | count | isFull | isEmpty => exact ⟨rfl, rfl⟩
  | setLimit limit => exact L.setLimit_head limit
  | setLowD percent => exact L.setLowD_head percent
  | setLowE percent => exact L.setLowE_head percent
  | setOversizePolicy policy => cases policy <;> exact ⟨rfl, rfl⟩
  | setCallbacks cb => cases cb <;> exact ⟨rfl, rfl⟩
  | setProducerStack | setConsumerStack => exact ⟨rfl, rfl⟩

theorem call_slots (c : Call) : (L.call c).2.slots = L.slots :=
  congrArg (fun fixed => fixed.2.1) (L.call_head c).2

theorem call_cap (c : Call) : (L.call c).2.cap = L.cap :=
  congrArg (fun fixed => fixed.2.2) (L.call_head c).2

theorem head_le_call (c : Call) : L.head ≤ (L.call c).2.head := by
  rw [(L.call_head c).1]
  exact Nat.le_add_right _ _

end Counting

/-- Every ledger reached by a run of calls is within its window. -/
theorem Ok.reaches {L M : Ledger} (hok : L.Ok) (hreach : ledger.Reaches L M) : M.Ok := by
  refine hreach.invariant Ok hok ?_
  intro state c output next hstate hstep
  obtain ⟨rfl, rfl⟩ := ledger_step_eq_some.mp hstep
  exact call_ok hstate c

end RingBuff.Ledger
