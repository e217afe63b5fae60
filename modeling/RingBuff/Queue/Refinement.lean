import RingBuff.Core.Header
import RingBuff.Ledger.Runs
import RingBuff.Queue.Model

/-! # The ring is a bounded queue

The queue of a ledger lists the live positions in order. As long as live
positions have slots of their own, publishing and writing touch no waiting
message, and every call on the ledger is the queue's call.
-/

namespace RingBuff

namespace Ledger

/-- The message at a position, as the consumer would read it. -/
def messageAt (L : Ledger) (p : Nat) : Message where
  slotIndex := L.slotFor p
  len := headerLen (L.header (L.slotFor p))
  truncated := headerTruncated (L.header (L.slotFor p))
  payload := L.payload (L.slotFor p)

/-- The queue a ledger stands for. -/
def queue (L : Ledger) : Queue where
  capacity := L.capacity
  slots := L.slots
  cap := L.cap
  limit := L.limit
  oversizePolicy := L.oversizePolicy
  published := L.head
  messages := (List.range' L.tail L.count).map L.messageAt
  pending := L.pending.map fun r => (r.slotIndex, r.wantedLen)
  held := L.held.isSome
  bytes := L.payload

/-- What publishing at the next position appends. -/
def outgoing (L : Ledger) (len : UInt32) (truncated : Bool) : Message where
  slotIndex := L.slotFor L.head
  len := len
  truncated := truncated
  payload := L.payload (L.slotFor L.head)

/-- The ledger's answer is the queue's answer. -/
def Matches (answer : Output × Ledger) (answer' : Reply × Queue) : Prop :=
  answer.1.1 = answer'.1 ∧ answer.2.queue = answer'.2

variable {L : Ledger}

theorem queue_length (L : Ledger) : L.queue.messages.length = L.count := by
  simp [queue]

/-- The slot of a position is its remainder, wherever positions stay aligned. -/
theorem slotFor_eq {p : Nat} (hwrap : WrapSafe L.slots p) :
    L.slotFor p = UInt32.ofNat (p % L.slots.toNat) := by
  rw [slotFor]
  rcases hwrap with hpow | hlt
  · rw [Nat.mod_mod_of_dvd _ (Counter.dvd_of_isPow2 hpow)]
  · rw [Nat.mod_eq_of_lt hlt]

/-- The slot of the next message is not the slot of a waiting one. -/
theorem slotFor_head_ne (hok : L.Ok) (hwrap : WrapSafe L.slots L.head)
    (hroom : L.count < L.limit.toNat) {p : Nat} (hp : p ∈ List.range' L.tail L.count) :
    L.slotFor p ≠ L.slotFor L.head := by
  have hslots := hok.limit_slots
  have htail := hok.tail_le_head
  rw [List.mem_range'_1] at hp
  unfold count at hp hroom
  exact hok.slotFor_ne hwrap (by omega) (by omega)

/-- The waiting messages, front first. -/
theorem queue_messages_cons (hfront : L.tail < L.head) :
    L.queue.messages = L.messageAt L.tail ::
      (List.range' (L.tail + 1) (L.head - (L.tail + 1))).map L.messageAt := by
  have hcount : L.count = L.head - (L.tail + 1) + 1 := by
    unfold count
    omega
  rw [queue, hcount, List.range'_succ, List.map_cons]

section Calls

variable (hok : L.Ok) (hwrap : WrapSafe L.slots L.head)

/-- The oversize test of the source also asks for a non-zero length, which a
length above the capacity always is. -/
theorem oversize_iff (wantedLen : UInt32) :
    (wantedLen ≠ 0 ∧ L.cap < wantedLen ∧ L.oversizePolicy = .drop) ↔
      (L.queue.cap < wantedLen ∧ L.queue.oversizePolicy = .drop) := by
  refine ⟨And.right, fun hover => ⟨?_, hover⟩⟩
  rintro rfl
  exact Nat.not_lt_zero _ (UInt32.lt_iff_toNat_lt.mp hover.1)

include hwrap in
theorem queue_reserve (hroom : L.count < L.limit.toNat) (hpend : L.pending = none)
    (wantedLen : UInt32) :
    Matches (quiet (L.reserve wantedLen)) (L.queue.acquire wantedLen) := by
  have hlen : L.queue.messages.length ≠ L.queue.limit.toNat := by
    rw [queue_length]
    exact hroom.ne
  have hslot : L.queue.nextSlot = L.slotFor L.head := (slotFor_eq hwrap).symm
  have hnone : ¬ L.queue.pending.isSome = true := by simp [queue, hpend]
  rw [Queue.acquire, if_neg hnone, if_neg hlen, hslot, reserve]
  simp only [oversize_iff]
  split
  · exact ⟨rfl, rfl⟩
  · exact ⟨rfl, rfl⟩

include hok hwrap

theorem queue_acquire (wantedLen : UInt32) :
    Matches (quiet (L.acquire wantedLen)) (L.queue.acquire wantedLen) := by
  unfold acquire
  split
  next hsome =>
    rw [Queue.acquire, if_pos (by simpa [queue] using hsome)]
    exact ⟨rfl, rfl⟩
  next hsome =>
    have hpend : L.pending = none := by simpa using hsome
    split
    next hcached =>
      split
      next hfull =>
        have hlen : L.queue.messages.length = L.queue.limit.toNat := by
          rw [queue_length]
          exact Nat.le_antisymm hok.room hfull
        rw [Queue.acquire, if_neg (by simp [queue, hpend]), if_pos hlen]
        exact ⟨rfl, rfl⟩
      next hroom =>
        exact queue_reserve (L := L.refreshTail) hwrap (Nat.lt_of_not_le hroom) hpend wantedLen
    next hcached => exact queue_reserve hwrap (hok.full_of_cached hcached) hpend wantedLen

/-- Writing to the next slot changes no waiting message. -/
theorem queue_setByte (hroom : L.count < L.limit.toNat) (offset : Nat) (byte : UInt8) :
    (L.setByte (L.slotFor L.head) offset byte).queue =
      L.queue.setByte (L.slotFor L.head) offset byte := by
  have hmessages : (List.range' L.tail L.count).map
      (L.setByte (L.slotFor L.head) offset byte).messageAt =
      (List.range' L.tail L.count).map L.messageAt := by
    apply List.map_congr_left
    intro p hp
    have hne := slotFor_head_ne hok hwrap hroom hp
    have hbytes : (L.setByte (L.slotFor L.head) offset byte).payload (L.slotFor p) =
        L.payload (L.slotFor p) := Function.update_of_ne hne _ _
    exact congrArg (Message.mk _ _ _) hbytes
  simp only [queue, Queue.setByte, Queue.mk.injEq]
  exact ⟨rfl, rfl, rfl, rfl, rfl, rfl, hmessages, rfl, rfl, rfl⟩

theorem queue_write (offset : Nat) (byte : UInt8) :
    Matches (quiet (L.write offset byte)) (L.queue.write offset byte) := by
  unfold write Queue.write
  cases hpend : L.pending with
  | none =>
      have hq : L.queue.pending = none := by simp [queue, hpend]
      simp only [hq]
      exact ⟨rfl, rfl⟩
  | some r =>
      have hq : L.queue.pending = some (r.slotIndex, r.wantedLen) := by simp [queue, hpend]
      obtain ⟨hslot, hroom⟩ := hok.pending_slot r hpend
      simp only [hq, hslot]
      change Matches _ (if offset < L.cap.toNat then _ else _)
      split
      · exact ⟨rfl, queue_setByte hok hwrap hroom offset byte⟩
      · exact ⟨rfl, rfl⟩

/-- Publishing changes no waiting message. -/
theorem messageAt_append (hroom : L.count < L.limit.toNat) (len : UInt32) (truncated : Bool)
    {p : Nat} (hp : p ∈ List.range' L.tail L.count) :
    (L.append (L.slotFor L.head) len truncated).messageAt p = L.messageAt p := by
  have hne := slotFor_head_ne hok hwrap hroom hp
  have hheader : (L.append (L.slotFor L.head) len truncated).header (L.slotFor p) =
      L.header (L.slotFor p) := Function.update_of_ne hne _ _
  have hslot : (L.append (L.slotFor L.head) len truncated).slotFor p = L.slotFor p := rfl
  rw [messageAt, hslot, hheader]
  rfl

omit hok hwrap in
theorem messageAt_append_head {len : UInt32} (hlen : len.toNat < 2 ^ 31) (truncated : Bool) :
    (L.append (L.slotFor L.head) len truncated).messageAt L.head =
      L.outgoing len truncated := by
  have hheader : (L.append (L.slotFor L.head) len truncated).header (L.slotFor L.head) =
      encodeHeader len truncated := Function.update_self _ _ _
  have hslot : (L.append (L.slotFor L.head) len truncated).slotFor L.head = L.slotFor L.head := rfl
  rw [messageAt, hslot, hheader, headerLen_encodeHeader hlen, headerTruncated_encodeHeader]
  rfl

/-- Publishing appends one message. -/
theorem queue_append (hroom : L.count < L.limit.toNat) {len : UInt32}
    (hlen : len.toNat < 2 ^ 31) (truncated : Bool) :
    (L.append (L.slotFor L.head) len truncated).queue =
      L.queue.push (L.outgoing len truncated) := by
  have hcount : (L.append (L.slotFor L.head) len truncated).count = L.count + 1 :=
    Nat.succ_sub hok.tail_le_head
  have hend : L.tail + L.count = L.head := Nat.add_sub_of_le hok.tail_le_head
  have hwaiting := List.map_congr_left fun p =>
    messageAt_append hok hwrap hroom len truncated (p := p)
  have hmessages : (L.append (L.slotFor L.head) len truncated).queue.messages =
      L.queue.messages ++ [L.outgoing len truncated] := by
    change (List.range' L.tail (L.append (L.slotFor L.head) len truncated).count).map
      (L.append (L.slotFor L.head) len truncated).messageAt = _
    rw [hcount, List.range'_1_concat, List.map_append, hwaiting, hend, List.map_singleton,
      messageAt_append_head hlen]
    rfl
  exact congrArg (fun messages => { L.queue.push (L.outgoing len truncated) with messages })
    hmessages

theorem queue_handOver (hroom : L.count < L.limit.toNat) {len : UInt32}
    (hlen : len.toNat < 2 ^ 31) (truncated : Bool) :
    Matches (L.handOver (L.slotFor L.head) len truncated)
      (.code .ok, L.queue.push (L.outgoing len truncated)) := by
  have happend := queue_append hok hwrap hroom hlen truncated
  unfold handOver
  dsimp only
  split
  · exact ⟨rfl, happend⟩
  · exact ⟨rfl, happend⟩

theorem queue_publishEx (hcap : L.cap.toNat < 2 ^ 31) (slotIndex writtenLen : UInt32)
    (truncated : Bool) :
    Matches (L.publishEx slotIndex writtenLen truncated)
      (L.queue.publishEx slotIndex writtenLen truncated) := by
  unfold publishEx Queue.publishEx
  cases hpend : L.pending with
  | none =>
      have hq : L.queue.pending = none := by simp [queue, hpend]
      simp only [hq]
      exact ⟨rfl, rfl⟩
  | some r =>
      have hq : L.queue.pending = some (r.slotIndex, r.wantedLen) := by simp [queue, hpend]
      obtain ⟨hslot, hroom⟩ := hok.pending_slot r hpend
      simp only [hq]
      split
      · exact ⟨rfl, rfl⟩
      next heq =>
        have heq : slotIndex = L.slotFor L.head := by rw [← hslot, not_not.mp heq]
        have hlt := writtenLen.toNat_lt
        have hlen : (UInt32.ofNat (min writtenLen.toNat L.cap.toNat)).toNat < 2 ^ 31 := by
          rw [Counter.toNat_of_lt (by omega)]
          omega
        rw [heq, clampWritten_eq]
        exact queue_handOver hok hwrap hroom hlen _

omit hok hwrap in
theorem queue_abort : Matches (quiet L.abort) L.queue.abort := by
  have hsome : L.queue.pending.isSome = L.pending.isSome := by simp [queue]
  unfold abort Queue.abort
  rw [hsome]
  split
  · exact ⟨rfl, rfl⟩
  · exact ⟨rfl, rfl⟩

omit hok hwrap in
theorem queue_take (hfront : L.tail < L.head) (hheld : L.held.isSome = false) :
    Matches (quiet (L.take (L.slotFor L.tail))) L.queue.consume := by
  have hq : L.queue.held = false := hheld
  simp only [Queue.consume, hq, queue_messages_cons hfront]
  exact ⟨rfl, rfl⟩

omit hwrap in
theorem queue_consume : Matches (quiet L.consume) L.queue.consume := by
  unfold consume
  split
  next hheld =>
    have hq : L.queue.held = true := hheld
    simp only [Queue.consume, hq]
    exact ⟨rfl, rfl⟩
  next hheld =>
    have hheld : L.held.isSome = false := by simpa using hheld
    split
    next hcached =>
      split
      next hempty =>
        have hq : L.queue.held = false := hheld
        have hnil : L.queue.messages = [] := by simp [queue, count, hempty]
        simp only [Queue.consume, hq, hnil]
        exact ⟨rfl, rfl⟩
      next hne =>
        exact queue_take (L := L.refreshHead) (Nat.lt_of_le_of_ne hok.tail_le_head hne) hheld
    next hne =>
      have hlt := Nat.lt_of_le_of_ne hok.tail_le hne
      exact queue_take (hlt.trans_le hok.cachedHead_le) hheld

omit hwrap in
theorem queue_read (offset : Nat) : L.read offset = L.queue.read offset := by
  unfold read Queue.read
  cases hheld : L.held with
  | none =>
      have hq : L.queue.held = false := by simp [queue, hheld]
      simp only [hq]
  | some s =>
      obtain ⟨hslot, hfront⟩ := hok.held_slot s hheld
      have hq : L.queue.held = true := by simp [queue, hheld]
      simp only [hq, queue_messages_cons (hfront.trans_le hok.cachedHead_le), hslot]
      rfl

omit hok hwrap in
/-- The thresholds are not part of the queue. -/
theorem queue_crossLow (oldCount newCount : Nat) :
    ((L.crossLowD oldCount newCount).2.crossLowE oldCount newCount).2.queue = L.queue := by
  unfold crossLowE crossLowD
  split_ifs <;> rfl

omit hwrap in
theorem queue_release (slotIndex : UInt32) :
    Matches (L.release slotIndex) (L.queue.release slotIndex) := by
  unfold release Queue.release
  cases hheld : L.held with
  | none =>
      have hq : L.queue.held = false := by simp [queue, hheld]
      simp only [hq]
      exact ⟨rfl, rfl⟩
  | some s =>
      obtain ⟨hslot, hfront⟩ := hok.held_slot s hheld
      have hq : L.queue.held = true := by simp [queue, hheld]
      simp only [hq, queue_messages_cons (hfront.trans_le hok.cachedHead_le)]
      by_cases heq : slotIndex = (L.messageAt L.tail).slotIndex
      · rw [if_pos (congrArg some (hslot.trans heq.symm)), if_pos heq]
        exact ⟨rfl, queue_crossLow _ _⟩
      · rw [if_neg fun hsame => heq ((Option.some.inj hsame).symm.trans hslot), if_neg heq]
        exact ⟨rfl, rfl⟩

theorem queue_call (hcap : L.cap.toNat < 2 ^ 31) (c : Call) :
    Matches (L.call c) (L.queue.call c) := by
  cases c with
  | acquire wantedLen => exact queue_acquire hok hwrap wantedLen
  | write offset byte => exact queue_write hok hwrap offset byte
  | publish slotIndex writtenLen =>
      exact queue_publishEx hok hwrap hcap slotIndex writtenLen false
  | publishEx slotIndex writtenLen truncated =>
      exact queue_publishEx hok hwrap hcap slotIndex writtenLen truncated
  | abort => exact queue_abort
  | consume => exact queue_consume hok
  | read offset => exact ⟨queue_read hok offset, rfl⟩
  | release slotIndex => exact queue_release hok slotIndex
  | count => exact ⟨by rw [Queue.call, queue_length]; rfl, rfl⟩
  | isFull => exact ⟨by rw [Queue.call, queue_length]; rfl, rfl⟩
  | isEmpty => exact ⟨by rw [Queue.call, queue_length]; rfl, rfl⟩
  | setLimit limit =>
      simp only [call, setLimit, Queue.call, Queue.setLimit, queue_length]
      change Matches _
        (if limit = 0 ∨ L.capacity < limit ∨ L.slots < limit ∨ L.count ≠ 0 then _ else _)
      split
      · exact ⟨rfl, rfl⟩
      · exact ⟨rfl, rfl⟩
  | setLowD percent =>
      simp only [call, setLowD, Queue.call, Queue.setLow]
      split
      · exact ⟨rfl, rfl⟩
      · exact ⟨rfl, rfl⟩
  | setLowE percent =>
      simp only [call, setLowE, Queue.call, Queue.setLow]
      split
      · exact ⟨rfl, rfl⟩
      · exact ⟨rfl, rfl⟩
  | setOversizePolicy policy => cases policy <;> exact ⟨rfl, rfl⟩
  | setCallbacks cb => cases cb <;> exact ⟨rfl, rfl⟩
  | setProducerStack | setConsumerStack => exact ⟨rfl, rfl⟩

end Calls

/-- A run of the queue is a run of the ledger with the same replies. -/
theorem run_of_queue_run (hok : L.Ok) (hcap : L.cap.toNat < 2 ^ 31) {calls : List Call}
    {replies : List Reply} {Q : Queue}
    (hrun : RingBuff.queue.run L.queue calls = some (replies, Q))
    (hwrap : WrapSafe Q.slots Q.published) :
    ∃ outputs M, ledger.run L calls = some (outputs, M) ∧ outputs.map Prod.fst = replies ∧
      M.queue = Q := by
  have hback : ∀ {Q : Queue} {c : Call} {reply next},
      RingBuff.queue.step Q c = some (reply, next) →
      WrapSafe next.slots next.published → WrapSafe Q.slots Q.published := by
    intro Q c reply next hstep hnext
    obtain ⟨rfl, rfl⟩ := queue_step_eq_some.mp hstep
    obtain ⟨hslots, hle⟩ := Q.call_mono c
    rw [hslots] at hnext
    exact hnext.mono hle
  have hsim : ∀ {Q : Queue} {L : Ledger} {c : Call} {reply next},
      L.Ok ∧ L.cap.toNat < 2 ^ 31 ∧ L.queue = Q → WrapSafe next.slots next.published →
      RingBuff.queue.step Q c = some (reply, next) →
      ∃ M, (ledger.mapOutput Prod.fst).step L c = some (reply, M) ∧
        M.Ok ∧ M.cap.toNat < 2 ^ 31 ∧ M.queue = next := by
    rintro Q L c reply next ⟨hok, hcap, rfl⟩ hnext hstep
    have hwrap : WrapSafe L.slots L.head := hback hstep hnext
    obtain ⟨rfl, rfl⟩ := queue_step_eq_some.mp hstep
    obtain ⟨hreply, hqueue⟩ := queue_call hok hwrap hcap c
    refine ⟨(L.call c).2, ?_, call_ok hok c, ?_, hqueue⟩
    · exact congrArg (fun reply => some (reply, (L.call c).2)) hreply
    · rw [call_cap]
      exact hcap
  obtain ⟨M, hledger, -, -, hM⟩ := RingBuff.queue.run_simulation
    (ledger.mapOutput Prod.fst) (fun Q => WrapSafe Q.slots Q.published)
    (fun Q L => L.Ok ∧ L.cap.toNat < 2 ^ 31 ∧ L.queue = Q) hback hsim hrun hwrap
    ⟨hok, hcap, rfl⟩
  obtain ⟨outputs, hledger, hreplies⟩ := ledger.run_of_run_mapOutput Prod.fst hledger
  exact ⟨outputs, M, hledger, hreplies, hM⟩

end Ledger

/-- The queue of a freshly initialised ring. -/
def Config.queue (b : Build) (cfg : Config) (bytes : UInt32 → Nat → UInt8) : Queue where
  capacity := (cfg.dims b).capacity
  slots := (cfg.dims b).slots
  cap := (cfg.dims b).slotSize - b.hdrSize
  limit := (cfg.dims b).limit
  oversizePolicy := cfg.oversizePolicy
  published := 0
  messages := []
  pending := none
  held := false
  bytes := bytes

/-- Every sequence of calls, legal or misused, gets the replies of the queue. -/
theorem ring_refines_queue {b : Build} {addr scratch scratchSize : BitVec b.sizeBits}
    {cfg : Config} {before : Store} {rb : Rb}
    (hinit : rbInit b addr (some cfg) scratch scratchSize before = .ok rb)
    (hover : rb.geo.NonOverlapping) (hcap : (payloadCap b rb.geo).toNat < 2 ^ 31)
    (haddr : b.mode = .pointer → rb.geo.Addressable b)
    (calls : List Call) :
    ∃ replies Q, queue.run (cfg.queue b (rb.store.payload b rb.geo)) calls = some (replies, Q) ∧
      (WrapSafe rb.geo.slots Q.published →
        ∃ outputs rb', (ring b).run rb calls = some (outputs, rb') ∧
          outputs.map Prod.fst = replies) := by
  obtain ⟨cfg', heq, hacc⟩ := rbInit_accepted hinit
  obtain rfl := Option.some.inj heq
  have htracks := hacc.tracks
  have hok := htracks.ok
  have hrep := htracks.rep
  obtain ⟨replies, Q, hrun⟩ := queue.exists_run (fun Q c => ⟨Q.call c, rfl⟩)
    (cfg.queue b (rb.store.payload b rb.geo)) calls
  have hslots : Q.slots = rb.geo.slots := by
    have hfixed := Automaton.Reaches.invariant ⟨calls, replies, hrun⟩
      (fun Q => Q.slots = (cfg.dims b).slots) rfl
      fun {Q c reply next} hQ hstep => by
        obtain ⟨rfl, rfl⟩ := queue_step_eq_some.mp hstep
        rw [(Q.call_mono c).1, hQ]
    rw [hfixed, hacc.geo_eq]
    rfl
  refine ⟨replies, Q, hrun, fun hwrap => ?_⟩
  rw [← hslots] at hwrap
  obtain ⟨outputs, M, hledger, hreplies, rfl⟩ :=
    Ledger.run_of_queue_run (L := cfg.ledger b (rb.store.payload b rb.geo)) hok
      (hrep.cap ▸ hcap) hrun hwrap
  obtain ⟨rb', hring, -⟩ :=
    htracks.run_exact (hacc.sound hover) haddr hledger (fun _ => hwrap)
  exact ⟨outputs, rb', hring, hreplies⟩

/-- Two publishes fill a ring of two slots; the third reservation is refused and
the first message comes out first. -/
theorem smallRing_refines_queue :
    ∃ outputs rb', (ring { mode := .lap }).run (smallRing .lap)
        [.acquire 5, .publish 0 5, .acquire 100, .publish 1 90, .acquire 1, .consume] =
          some (outputs, rb') ∧
      outputs.map Prod.fst = [.reserved 0 56, .code .ok, .reserved 1 56, .code .ok,
        .code .full, .message 0 5 false] := by
  obtain ⟨replies, Q, hrun, hring⟩ := ring_refines_queue (smallRing_init .lap)
    (smallRing_nonOverlapping .lap) (by decide) (fun hmode => by cases hmode)
    [.acquire 5, .publish 0 5, .acquire 100, .publish 1 90, .acquire 1, .consume]
  obtain ⟨rfl, rfl⟩ := Prod.mk.inj (Option.some.inj hrun)
  exact hring (Or.inl (by decide))

end RingBuff
