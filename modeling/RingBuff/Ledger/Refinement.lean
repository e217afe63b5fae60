import RingBuff.Ledger.Representation

/-! # Every call refines the ledger

One lemma for each call: on a ring that represents a ledger it gives the reply
and the callbacks of the ledger's call, and the two results are again related.
-/

namespace RingBuff.Represents

variable {b : Build} {rb : Rb} {L : Ledger}

/-- A call on the ring gives what the call on the ledger gives. -/
def Answers (b : Build) (answer : Output × Rb) (answer' : Output × Ledger) : Prop :=
  answer.1 = answer'.1 ∧ Represents b answer.2 answer'.2

/-- The stamps of the per-slot-lap build may be out of step with the ledger. -/
def Stale (b : Build) (L : Ledger) : Prop := b.mode = .lap ∧ ¬ WrapSafe L.slots L.head

section

variable (hrep : Represents b rb L) (hok : L.Ok) (hgeo : rb.geo.Sound b)

include hrep

/-! ## Producer -/

theorem refreshTail : Represents b { rb with cachedTail := rb.tail } L.refreshTail :=
  { hrep with cachedTail := hrep.tail }

theorem withPending (r : Option Reservation) :
    Represents b { rb with
      pendingSlot := (pendingFields r).1, pendingWanted := (pendingFields r).2 }
      (L.withPending r) :=
  { hrep with pending := rfl }

theorem noteFullAttempt :
    Represents b { rb with stats.fullAttempts := rb.stats.fullAttempts + 1 } L.noteFullAttempt :=
  { hrep with stats := by simp only [hrep.stats, Ledger.noteFullAttempt] }

include hok hgeo

theorem setByte {i : UInt32} (hi : i.toNat < rb.geo.slots.toNat) {offset : Nat}
    (hoff : offset < (payloadCap b rb.geo).toNat) (byte : UInt8) :
    Represents b { rb with store := rb.store.setPayload b rb.geo i offset byte }
      (L.setByte i offset byte) := by
  refine { hrep with
    header := ?_
    payload := ?_
    entered := ?_ }
  · intro p htail hhead
    exact (Store.header_setPayload hgeo hi (hrep.slotFor_lt hok p) byte hoff).trans
      (hrep.header p htail hhead)
  · intro j hj k hk
    by_cases hsame : i = j ∧ offset = k
    · obtain ⟨rfl, rfl⟩ := hsame
      simp [Store.payload_setPayload_same, Ledger.setByte]
    · rw [Store.payload_setPayload_ne hgeo hi hj byte hoff hk (by tauto), hrep.payload j hj k hk]
      rcases eq_or_ne j i with rfl | hne
      · have hk' : k ≠ offset := fun heq => hsame ⟨rfl, heq.symm⟩
        simp [Ledger.setByte, hk']
      · simp [Ledger.setByte, hne]
  · intro hwrap p htail hhead
    exact (hrep.entered hwrap p htail hhead).setPayload hgeo hi hoff byte

theorem reserve (wantedLen : UInt32) :
    Answers b (quiet (RingBuff.reserve b rb wantedLen rb.head))
      (quiet (L.reserve wantedLen)) := by
  have hslot : slotIndexFor rb.geo rb.head = L.slotFor L.head := by
    rw [hrep.head]
    exact hrep.slotAt_eq hok hgeo L.head
  unfold RingBuff.reserve Ledger.reserve
  dsimp only
  rw [hrep.cap, ← hrep.policy, hslot]
  split
  · exact ⟨rfl, hrep⟩
  · exact ⟨rfl, hrep.withPending (some { slotIndex := L.slotFor L.head, wantedLen })⟩

theorem acquire (wantedLen : UInt32) :
    Answers b (quiet (rbAcquire b rb wantedLen)) (quiet (L.acquire wantedLen)) := by
  unfold rbAcquire Ledger.acquire
  rw [if_neg hgeo.scratchSize_pos.ne']
  simp only [ne_eq, hrep.pendingSlot_none hok, hrep.limit_le_cached hok,
    hrep.limit_le_count hok, ← Option.isSome_iff_ne_none]
  split
  next => exact ⟨rfl, hrep⟩
  split
  next =>
    split
    next => exact ⟨rfl, hrep.refreshTail.noteFullAttempt⟩
    next => exact hrep.refreshTail.reserve (Ledger.refreshTail_ok hok) hgeo wantedLen
  next => exact hrep.reserve hok hgeo wantedLen

theorem write (offset : Nat) (byte : UInt8) :
    Answers b (quiet (payloadWrite b rb offset byte)) (quiet (L.write offset byte)) := by
  have hnone := hrep.pendingSlot_none hok
  unfold payloadWrite Ledger.write
  cases hpend : L.pending with
  | none =>
      rw [if_neg (fun h => h.1 (hnone.mpr hpend))]
      exact ⟨rfl, hrep⟩
  | some r =>
      have hslot : rb.pendingSlot = r.slotIndex := by rw [hrep.pendingSlot_eq, hpend]; rfl
      have hlt : rb.pendingSlot.toNat < rb.geo.slots.toNat := by
        rw [hslot, (hok.pending_slot r hpend).1]
        exact hrep.slotFor_lt hok L.head
      have hsome : rb.pendingSlot ≠ noPending := fun h => by simp [hnone.mp h] at hpend
      dsimp only
      rw [hrep.cap, ← hslot]
      by_cases hoff : offset < (payloadCap b rb.geo).toNat
      · rw [if_pos ⟨hsome, hoff⟩, if_pos hoff]
        exact ⟨rfl, hrep.setByte hok hgeo hlt hoff byte⟩
      · rw [if_neg (fun h => hoff h.2), if_neg hoff]
        exact ⟨rfl, hrep⟩

/-- The two stores that hand a message over, at the next position. -/
theorem append (haddr : b.mode = .pointer → rb.geo.Addressable b) (hroom : L.count < L.limit.toNat)
    (len : UInt32) (truncated : Bool) :
    Represents b
      (Rb.afterPublish { rb with
        store := (rb.store.setHeader b rb.geo (L.slotFor L.head)
          (encodeHeader len truncated)).enter b rb.geo (L.slotFor L.head) rb.head
        head := rb.head + 1 } (UInt32.ofNat (L.count + 1)) truncated)
      (L.append (L.slotFor L.head) len truncated) := by
  have hlt := hrep.slotFor_lt hok L.head
  dsimp only [Rb.afterPublish]
  refine { hrep with
    head := ?_
    cachedTail := hrep.tail
    pending := rfl
    stats := ?_
    header := ?_
    payload := ?_
    entered := ?_ }
  · rw [hrep.head, ← Counter.ofNat_succ]
    rfl
  · simp only [Ledger.append, hrep.stats]
  · intro p hp hlast
    have hlast : p < L.head + 1 := hlast
    change ((rb.store.setHeader b rb.geo _ _).enter b rb.geo _ _).header b rb.geo (L.slotFor p) =
      Function.update L.header (L.slotFor L.head) (encodeHeader len truncated) (L.slotFor p)
    rw [Store.header_enter hgeo hlt (hrep.slotFor_lt hok p)]
    by_cases hsame : L.slotFor p = L.slotFor L.head
    · rw [hsame, Store.header_setHeader_same, Function.update_self]
    · have hlast' : p < L.head := by
        rcases Nat.lt_succ_iff_lt_or_eq.mp hlast with hlt' | rfl
        · exact hlt'
        · exact absurd rfl hsame
      rw [Store.header_setHeader_ne hgeo hlt (hrep.slotFor_lt hok p) (Ne.symm hsame),
        Function.update_of_ne hsame]
      exact hrep.header p hp hlast'
  · intro j hj k hk
    rw [Store.payload_enter hgeo hlt hj _ hk, Store.payload_setHeader hgeo hlt hj _ hk]
    exact hrep.payload j hj k hk
  · intro hwrap p hp hlast
    have hwrap : b.mode = .lap → WrapSafe L.slots L.head :=
      fun hmode => WrapSafe.mono (Nat.le_succ _) (hwrap hmode)
    have hp : L.tail ≤ p := hp
    have hlast : p < L.head + 1 := hlast
    have hslots := hok.limit_slots
    have hcap := hok.limit_capacity
    unfold Ledger.count at hroom
    dsimp only
    rw [hrep.head, ← hrep.slotAt_eq hok hgeo]
    rcases Nat.lt_succ_iff_lt_or_eq.mp hlast with hlt' | rfl
    · refine ((hrep.entered hwrap p hp hlt').setHeader hgeo (hgeo.slotIndexFor_lt _) _).enter hgeo
        (hgeo.cell_ne hlt' (by rw [← hrep.capacity]; omega)) ?_
      intro hmode
      rw [hrep.slotAt_eq hok hgeo, hrep.slotAt_eq hok hgeo]
      exact (hok.slotFor_ne (hwrap hmode) hlt' (by omega)).symm
    · exact Store.entered_enter (hgeo.findable haddr) _

omit hgeo in
theorem count_succ (hroom : L.count < L.limit.toNat) :
    rb.head + 1 - rb.tail = UInt32.ofNat (L.count + 1) := by
  have htail := hok.tail_le_head
  have hlimit := L.limit.toNat_lt
  apply UInt32.toNat_inj.mp
  unfold Ledger.count at hroom ⊢
  rw [hrep.head, hrep.tail, ← Counter.ofNat_succ, Counter.toNat_sub (by omega) (by omega),
    Counter.toNat_of_lt (by omega)]
  omega

omit hok hgeo in
theorem fullLatch_zero : rb.fullLatch = 0 ↔ L.fullLatch = false := by
  rw [hrep.fullLatch]
  cases L.fullLatch <;> simp

omit hok hgeo in
theorem latchFull :
    Represents b { rb with fullLatch := 1, stats.fullHits := rb.stats.fullHits + 1 }
      L.latchFull :=
  { hrep with
    fullLatch := rfl
    stats := by simp only [hrep.stats, Ledger.latchFull] }

theorem handOver (haddr : b.mode = .pointer → rb.geo.Addressable b)
    (hroom : L.count < L.limit.toNat)
    (len : UInt32) (truncated : Bool) :
    Answers b (rb.handOver b (L.slotFor L.head) len truncated)
      (L.handOver (L.slotFor L.head) len truncated) := by
  have happ := hrep.append hok hgeo haddr hroom len truncated
  have hcount : L.limit ≤ UInt32.ofNat (L.count + 1) ↔
      L.limit.toNat ≤ (L.append (L.slotFor L.head) len truncated).count := by
    have htail := hok.tail_le_head
    have hlimit := L.limit.toNat_lt
    rw [UInt32.le_iff_toNat_le, Counter.toNat_of_lt (by omega)]
    simp only [Ledger.append, Ledger.count]
    omega
  unfold Rb.handOver Ledger.handOver
  rw [hrep.count_succ hok hroom]
  dsimp only
  generalize Rb.afterPublish _ _ _ = next at happ ⊢
  have hcb : next.cb = L.cb := happ.cb
  have hlimit : next.limit = L.limit := happ.limit
  have hfull : next.limit ≤ UInt32.ofNat (L.count + 1) ∧ next.fullLatch = 0 ↔
      L.limit.toNat ≤ (L.append (L.slotFor L.head) len truncated).count ∧ L.fullLatch = false := by
    rw [hlimit, hcount, happ.fullLatch_zero]
    rfl
  simp only [hfull]
  split
  · exact ⟨by rw [hcb], happ.latchFull⟩
  · exact ⟨by rw [hcb], happ⟩

theorem publishEx (haddr : b.mode = .pointer → rb.geo.Addressable b) (slotIndex writtenLen : UInt32)
    (truncated : Bool) :
    Answers b (rbPublishEx b rb slotIndex writtenLen truncated)
      (L.publishEx slotIndex writtenLen truncated) := by
  have hnone := hrep.pendingSlot_none hok
  unfold rbPublishEx Ledger.publishEx
  rw [if_neg hgeo.scratchSize_pos.ne']
  cases hpend : L.pending with
  | none =>
      rw [if_pos (Or.inl (hnone.mpr hpend))]
      exact ⟨rfl, hrep⟩
  | some r =>
      have hslot : rb.pendingSlot = r.slotIndex := by rw [hrep.pendingSlot_eq, hpend]; rfl
      have hwant : rb.pendingWanted = r.wantedLen := by rw [hrep.pendingWanted_eq, hpend]; rfl
      have hsome : rb.pendingSlot ≠ noPending := fun h => by simp [hnone.mp h] at hpend
      obtain ⟨hnext, hroom⟩ := hok.pending_slot r hpend
      by_cases heq : r.slotIndex = slotIndex
      · rw [if_neg (not_or.mpr ⟨hsome, not_not.mpr (hslot.trans heq)⟩)]
        dsimp only
        rw [if_neg (not_not.mpr heq), ← heq, hnext, hwant, hrep.cap]
        exact hrep.handOver hok hgeo haddr hroom _ _
      · rw [if_pos (Or.inr (by rwa [hslot]))]
        dsimp only
        rw [if_pos heq]
        exact ⟨rfl, hrep⟩

theorem abort : Answers b (quiet (rbAbort rb)) (quiet L.abort) := by
  unfold rbAbort Ledger.abort
  rw [if_neg hgeo.scratchSize_pos.ne']
  cases hpend : L.pending with
  | none =>
      rw [if_pos ((hrep.pendingSlot_none hok).mpr hpend)]
      exact ⟨rfl, hrep⟩
  | some r =>
      rw [if_neg fun h => by simp [(hrep.pendingSlot_none hok).mp h] at hpend]
      exact ⟨rfl, hrep.withPending none⟩

/-! ## Consumer -/

omit hok hgeo in
theorem refreshHead : Represents b { rb with cachedHead := rb.head } L.refreshHead :=
  { hrep with cachedHead := hrep.head }

omit hok hgeo in
theorem hold (slotIndex : UInt32) :
    Represents b { rb with consumerActive := 1, consumerSlot := slotIndex } (L.hold slotIndex) :=
  { hrep with
    active := rfl
    held := by rintro s ⟨⟩; rfl }

omit hok hgeo in
theorem latch (hfront : L.tail < L.head) :
    Answers b (quiet (rb.latch b (L.slotFor L.tail))) (quiet (L.take (L.slotFor L.tail))) := by
  unfold Rb.latch Ledger.take
  rw [hrep.header L.tail le_rfl hfront]
  exact ⟨rfl, hrep.hold (L.slotFor L.tail)⟩

/-- The slot of the front position is the one that is latched. A stamp that was
overwritten costs one more look at the head. -/
theorem takeFront (haddr : b.mode = .pointer → rb.geo.Addressable b) (hfront : L.tail < L.head) :
    ∃ answer, rb.takeFront b rb.tail = some answer ∧
      (Answers b (quiet answer) (quiet (L.take (L.slotFor L.tail))) ∨
        Stale b L ∧ Answers b (quiet answer) (quiet (L.refreshHead.take (L.slotFor L.tail)))) := by
  have hslot := hrep.slotAt_eq hok hgeo L.tail
  have hent := fun hwrap => hrep.entered hwrap L.tail le_rfl hfront
  have hfound : rb.store.frontSlot b rb.geo rb.tail = some (.ok (L.slotFor L.tail)) := by
    rw [hrep.tail, ← hslot]
    cases hmode : b.mode with
    | index | pointer => exact (hent (by simp [hmode])).frontSlot (hgeo.findable haddr)
    | lap => exact Store.frontSlot_lap hgeo.toMasked hmode L.tail
  have hexact := hrep.latch hfront
  unfold Rb.takeFront
  simp only [hfound]
  cases hstale : rb.store.stale b rb.geo rb.tail (L.slotFor L.tail) with
  | false => exact ⟨_, rfl, Or.inl hexact⟩
  | true =>
      have hne : rb.head ≠ rb.tail := fun heq => hfront.ne ((hrep.tail_eq_head hok).mp heq.symm)
      have hdirty : Stale b L := by
        by_contra hclean
        have hwrap : b.mode = .lap → WrapSafe L.slots L.head :=
          fun hmode => by_contra fun hnot => hclean ⟨hmode, hnot⟩
        have hfresh := (hent hwrap).not_stale
        rw [hslot, ← hrep.tail, hstale] at hfresh
        cases hfresh
      rw [if_pos rfl, if_neg hne]
      exact ⟨_, rfl, Or.inr ⟨hdirty, hrep.refreshHead.latch hfront⟩⟩

theorem consume (haddr : b.mode = .pointer → rb.geo.Addressable b) :
    ∃ answer, rbConsume b rb = some answer ∧
      (Answers b (quiet answer) (quiet L.consume) ∨
        Stale b L ∧ Answers b (quiet answer) (quiet L.refreshHead.consume)) := by
  have hle := hok.tail_le_head
  unfold rbConsume
  rw [if_neg hgeo.scratchSize_pos.ne']
  simp only [hrep.active_ne, hrep.tail_eq_cachedHead hok, hrep.tail_eq_head hok]
  split
  next hheld =>
    refine ⟨_, rfl, Or.inl ?_⟩
    rw [Ledger.consume, if_pos hheld]
    exact ⟨rfl, hrep⟩
  rename_i hheld
  split
  next hcached =>
    split
    next hempty =>
      refine ⟨_, rfl, Or.inl ?_⟩
      rw [Ledger.consume, if_neg hheld, if_pos hcached, if_pos hempty]
      exact ⟨rfl, hrep.refreshHead⟩
    next hne =>
      obtain ⟨answer, hanswer, hans⟩ :=
        hrep.refreshHead.takeFront (Ledger.refreshHead_ok hok) hgeo haddr
          (Nat.lt_of_le_of_ne hle hne)
      refine ⟨answer, hanswer, Or.inl ?_⟩
      rw [Ledger.consume, if_neg hheld, if_pos hcached, if_neg hne]
      exact hans.elim id And.right
  next hne =>
    have hlt := (Nat.lt_of_le_of_ne hok.tail_le hne).trans_le hok.cachedHead_le
    have hagain : L.refreshHead.consume = L.refreshHead.take (L.slotFor L.tail) :=
      Ledger.consume_of_known hheld hlt.ne
    rw [Ledger.consume_of_known hheld hne, hagain]
    exact hrep.takeFront hok hgeo haddr hlt

omit hgeo in
theorem read (offset : Nat) : payloadRead b rb offset = L.read offset := by
  unfold payloadRead Ledger.read
  simp only [hrep.active_ne]
  cases hheld : L.held with
  | none => simp
  | some s =>
      have hlt : s.toNat < rb.geo.slots.toNat := by
        rw [(hok.held_slot s hheld).1]
        exact hrep.slotFor_lt hok L.tail
      rw [hrep.held s hheld, hrep.cap]
      by_cases hoff : offset < (payloadCap b rb.geo).toNat
      · simp [hoff, hrep.payload s hlt offset hoff]
      · simp [hoff]

omit hok hgeo in
theorem released_iff {slotIndex : UInt32} :
    (rb.consumerActive = 0 ∨ slotIndex ≠ rb.consumerSlot) ↔ L.held ≠ some slotIndex := by
  rw [← not_ne_iff (a := rb.consumerActive), hrep.active_ne]
  cases hheld : L.held with
  | none => simp
  | some s => simp [hrep.held s hheld, eq_comm]

/-- Freeing the front slot leaves every other live position where it was. -/
theorem drop :
    Represents b { rb with
      store := rb.store.recycle b rb.geo (L.slotFor L.tail) rb.tail
      tail := rb.tail + 1, consumerActive := 0, stats.consumed := rb.stats.consumed + 1 }
      L.drop := by
  have hlt := hrep.slotFor_lt hok L.tail
  refine { hrep with
    tail := ?_
    active := rfl
    held := fun s hs => by cases hs
    stats := ?_
    header := ?_
    payload := ?_
    entered := ?_ }
  · rw [hrep.tail, ← Counter.ofNat_succ]
    rfl
  · simp only [Ledger.drop, hrep.stats]
  · intro p hp hlast
    have hp : L.tail < p := hp
    change (rb.store.recycle b rb.geo _ _).header b rb.geo (L.slotFor p) = L.header (L.slotFor p)
    rw [Store.header_recycle hgeo hlt (hrep.slotFor_lt hok p)]
    exact hrep.header p hp.le hlast
  · intro j hj k hk
    rw [Store.payload_recycle hgeo hlt hj _ hk]
    exact hrep.payload j hj k hk
  · intro hwrap p hp hlast
    have hwrap : b.mode = .lap → WrapSafe L.slots L.head := hwrap
    have hp : L.tail < p := hp
    have hlast : p < L.head := hlast
    have hroom := hok.room
    have hslots := hok.limit_slots
    unfold Ledger.count at hroom
    dsimp only
    rw [hrep.tail, ← hrep.slotAt_eq hok hgeo]
    refine (hrep.entered hwrap p hp.le hlast).recycle hgeo ?_
    intro hmode
    rw [hrep.slotAt_eq hok hgeo, hrep.slotAt_eq hok hgeo]
    exact hok.slotFor_ne ((hwrap hmode).mono hlast.le) hp (by omega)

omit hok hgeo in
theorem noteLowD :
    Represents b
      { rb with lowDLatch := 1, fullLatch := 0, stats.lowDHits := rb.stats.lowDHits + 1 }
      L.noteLowD :=
  { hrep with
    fullLatch := rfl
    stats := by simp only [hrep.stats, Ledger.noteLowD] }

omit hok hgeo in
theorem noteLowE :
    Represents b { rb with lowELatch := 1, stats.lowEHits := rb.stats.lowEHits + 1 }
      L.noteLowE :=
  { hrep with stats := by simp only [hrep.stats, Ledger.noteLowE] }

omit hok hgeo in
/-- The test of the source and the test of the ledger for a crossing agree. -/
theorem crossed_iff {count : Nat} (hlt : count + 1 < 2 ^ 32) (percent : UInt32) :
    (!belowLow (UInt32.ofNat (count + 1)) rb.limit percent &&
        belowLow (UInt32.ofNat count) rb.limit percent) =
      Ledger.crossed (count + 1) count L.limit.toNat percent.toNat := by
  rw [belowLow_ofNat hlt, belowLow_ofNat (Nat.lt_of_succ_lt hlt), hrep.limit]
  rfl

omit hok hgeo in
theorem crossLowD {count : Nat} (hlt : count + 1 < 2 ^ 32) :
    (rb.crossLowD (UInt32.ofNat (count + 1)) (UInt32.ofNat count)).1 =
        (L.crossLowD (count + 1) count).1 ∧
      Represents b (rb.crossLowD (UInt32.ofNat (count + 1)) (UInt32.ofNat count)).2
        (L.crossLowD (count + 1) count).2 := by
  have hcross := hrep.crossed_iff hlt rb.lowD
  rw [show rb.lowD.toNat = L.lowD.toNat by rw [hrep.lowD]] at hcross
  unfold Rb.crossLowD Ledger.crossLowD
  simp only [hcross, not_below_and_below_succ hlt]
  split
  · exact ⟨by rw [hrep.cb], hrep.noteLowD⟩
  · exact ⟨rfl, hrep⟩

omit hok hgeo in
theorem crossLowE {count : Nat} (hlt : count + 1 < 2 ^ 32) :
    (rb.crossLowE (UInt32.ofNat (count + 1)) (UInt32.ofNat count)).1 =
        (L.crossLowE (count + 1) count).1 ∧
      Represents b (rb.crossLowE (UInt32.ofNat (count + 1)) (UInt32.ofNat count)).2
        (L.crossLowE (count + 1) count).2 := by
  have hcross := hrep.crossed_iff hlt rb.lowE
  rw [show rb.lowE.toNat = L.lowE.toNat by rw [hrep.lowE]] at hcross
  unfold Rb.crossLowE Ledger.crossLowE
  simp only [hcross, not_below_and_below_succ hlt]
  split
  · exact ⟨by rw [hrep.cb], hrep.noteLowE⟩
  · exact ⟨rfl, hrep⟩

theorem release (slotIndex : UInt32) :
    Answers b (rbRelease b rb slotIndex) (L.release slotIndex) := by
  unfold rbRelease Ledger.release
  rw [if_neg hgeo.scratchSize_pos.ne']
  simp only [hrep.released_iff]
  by_cases hheld : L.held = some slotIndex
  · obtain ⟨rfl, hfront⟩ := hok.held_slot slotIndex hheld
    have hdrop := hrep.drop hok hgeo
    have hspan := hok.count_lt
    have hhead := hok.cachedHead_le
    have hknown : L.known = L.drop.known + 1 := by
      simp only [Ledger.known, Ledger.drop]
      omega
    have hnew : rb.cachedHead - (rb.tail + 1) = UInt32.ofNat L.drop.known := by
      apply UInt32.toNat_inj.mp
      rw [hrep.cachedHead, hrep.tail, ← Counter.ofNat_succ,
        Counter.toNat_sub hfront (by omega)]
      simp only [Ledger.known, Ledger.drop]
      rw [Counter.toNat_of_lt (by omega)]
    have hlt : L.drop.known + 1 < 2 ^ 32 := by
      simp only [Ledger.known, Ledger.drop]
      omega
    rw [if_neg (not_not.mpr hheld), if_pos hheld, hknown]
    simp only [hnew, ← Counter.ofNat_succ]
    obtain ⟨hfiredD, hlowD⟩ := hdrop.crossLowD hlt
    obtain ⟨hfiredE, hlowE⟩ := hlowD.crossLowE hlt
    exact ⟨by rw [hfiredD, hfiredE], hlowE⟩
  · rw [if_pos hheld, if_neg hheld]
    exact ⟨rfl, hrep⟩

/-! ## Setters -/

omit hok hgeo in
theorem withLimit (limit : UInt32) : Represents b { rb with limit } (L.withLimit limit) :=
  { hrep with limit := rfl }

theorem setLimit (limit : UInt32) :
    Answers b (quiet (rbSetLimit rb limit)) (quiet (L.setLimit limit)) := by
  have hcount : rbCount rb ≠ 0 ↔ L.count ≠ 0 := by
    have hlt : L.count < 2 ^ 32 := hok.count_lt
    rw [hrep.rbCount_eq hok hgeo, ne_eq, ← UInt32.toNat_inj, Counter.toNat_of_lt hlt]
    rfl
  unfold rbSetLimit Ledger.setLimit
  rw [if_neg hgeo.scratchSize_pos.ne', ← hrep.capacity, ← hrep.slots]
  simp only [hcount]
  split
  · exact ⟨rfl, hrep⟩
  · exact ⟨rfl, hrep.withLimit limit⟩

omit hok in
theorem setLowD (percent : UInt32) :
    Answers b (quiet (rbSetLowD rb percent)) (quiet (L.setLowD percent)) := by
  unfold rbSetLowD Ledger.setLowD Rb.percentCheck
  rw [if_neg hgeo.scratchSize_pos.ne']
  split
  · exact ⟨rfl, hrep⟩
  · exact ⟨rfl, { hrep with lowD := rfl }⟩

omit hok in
theorem setLowE (percent : UInt32) :
    Answers b (quiet (rbSetLowE rb percent)) (quiet (L.setLowE percent)) := by
  unfold rbSetLowE Ledger.setLowE Rb.percentCheck
  rw [if_neg hgeo.scratchSize_pos.ne']
  split
  · exact ⟨rfl, hrep⟩
  · exact ⟨rfl, { hrep with lowE := rfl }⟩

omit hok in
theorem setOversizePolicy (policy : OversizePolicy) :
    Answers b (quiet (rbSetOversizePolicy rb policy)) (quiet (L.setOversizePolicy policy)) := by
  unfold rbSetOversizePolicy Ledger.setOversizePolicy
  rw [if_neg hgeo.scratchSize_pos.ne']
  cases policy with
  | truncate | drop => exact ⟨rfl, { hrep with policy := rfl }⟩
  | other raw => exact ⟨rfl, hrep⟩

omit hok hgeo in
theorem withCb (cb : Callbacks) : Represents b { rb with cb } (L.withCb cb) :=
  { hrep with cb := rfl }

omit hok in
theorem setCallbacks (cb : Option Callbacks) :
    Answers b (quiet (rbSetCallbacks rb cb)) (quiet (L.setCallbacks cb)) := by
  cases cb with
  | none => exact ⟨rfl, hrep⟩
  | some cb =>
      rw [rbSetCallbacks, if_neg hgeo.scratchSize_pos.ne']
      exact ⟨rfl, hrep.withCb cb⟩

omit hok in
theorem setProducerStack (bytes : Nat) :
    Answers b (quiet (rbSetProducerStack b rb bytes)) (quiet (.code .ok, L)) := by
  rw [rbSetProducerStack, if_neg hgeo.scratchSize_pos.ne']
  exact ⟨rfl, { hrep with }⟩

omit hok in
theorem setConsumerStack (bytes : Nat) :
    Answers b (quiet (rbSetConsumerStack b rb bytes)) (quiet (.code .ok, L)) := by
  rw [rbSetConsumerStack, if_neg hgeo.scratchSize_pos.ne']
  exact ⟨rfl, { hrep with }⟩

/-! ## Any call -/

theorem isFull : rbIsFull rb = decide (L.limit.toNat ≤ L.count) := by
  have hlt : L.count < 2 ^ 32 := hok.count_lt
  rw [rbIsFull, hrep.rbCount_eq hok hgeo, hrep.limit]
  simp only [UInt32.le_iff_toNat_le, Counter.toNat_of_lt hlt]

theorem isEmpty : rbIsEmpty rb = decide (L.count = 0) := by
  have hlt : L.count < 2 ^ 32 := hok.count_lt
  rw [rbIsEmpty, hrep.rbCount_eq hok hgeo]
  simp only [← UInt32.toNat_inj, Counter.toNat_of_lt hlt, UInt32.toNat_zero]

/-- One call of any kind. -/
theorem call (haddr : b.mode = .pointer → rb.geo.Addressable b) (c : Call) :
    ∃ answer, rbCall b rb c = some answer ∧
      (Answers b answer (L.call c) ∨
        Stale b L ∧ c = .consume ∧ Answers b answer (L.refreshHead.call c)) := by
  cases c with
  | acquire wantedLen => exact ⟨_, rfl, Or.inl (hrep.acquire hok hgeo wantedLen)⟩
  | write offset byte => exact ⟨_, rfl, Or.inl (hrep.write hok hgeo offset byte)⟩
  | publish slotIndex writtenLen =>
      exact ⟨_, rfl, Or.inl (hrep.publishEx hok hgeo haddr slotIndex writtenLen false)⟩
  | publishEx slotIndex writtenLen truncated =>
      exact ⟨_, rfl, Or.inl (hrep.publishEx hok hgeo haddr slotIndex writtenLen truncated)⟩
  | abort => exact ⟨_, rfl, Or.inl (hrep.abort hok hgeo)⟩
  | consume =>
      obtain ⟨answer, hanswer, hans⟩ := hrep.consume hok hgeo haddr
      refine ⟨quiet answer, by rw [rbCall, hanswer]; rfl, ?_⟩
      exact hans.imp id fun hstale => ⟨hstale.1, rfl, hstale.2⟩
  | read offset => exact ⟨_, rfl, Or.inl (by rw [hrep.read hok]; exact ⟨rfl, hrep⟩)⟩
  | release slotIndex => exact ⟨_, rfl, Or.inl (hrep.release hok hgeo slotIndex)⟩
  | count => exact ⟨_, rfl, Or.inl (by rw [hrep.rbCount_eq hok hgeo]; exact ⟨rfl, hrep⟩)⟩
  | isFull => exact ⟨_, rfl, Or.inl (by rw [hrep.isFull hok hgeo]; exact ⟨rfl, hrep⟩)⟩
  | isEmpty => exact ⟨_, rfl, Or.inl (by rw [hrep.isEmpty hok hgeo]; exact ⟨rfl, hrep⟩)⟩
  | setLimit limit => exact ⟨_, rfl, Or.inl (hrep.setLimit hok hgeo limit)⟩
  | setLowD percent => exact ⟨_, rfl, Or.inl (hrep.setLowD hgeo percent)⟩
  | setLowE percent => exact ⟨_, rfl, Or.inl (hrep.setLowE hgeo percent)⟩
  | setOversizePolicy policy =>
      exact ⟨_, rfl, Or.inl (hrep.setOversizePolicy hgeo policy)⟩
  | setCallbacks cb => exact ⟨_, rfl, Or.inl (hrep.setCallbacks hgeo cb)⟩
  | setProducerStack bytes => exact ⟨_, rfl, Or.inl (hrep.setProducerStack hgeo bytes)⟩
  | setConsumerStack bytes => exact ⟨_, rfl, Or.inl (hrep.setConsumerStack hgeo bytes)⟩

end

end RingBuff.Represents
