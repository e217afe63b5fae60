import RingBuff.Core.Positions
import RingBuff.Core.Threshold
import RingBuff.Ledger.Invariant

/-! # The ring represents a ledger

`Represents b rb L` says that the control block `rb` of build `b` and its
scratchpad are the ledger `L`, laid out in memory. Every call keeps the relation
and gives the reply and the callbacks of the ledger. Index entries need nothing
more. Pointer entries need slots that have an address of their own. Stamps need
slot numbers that do not repeat where a counter wraps; without that, a stamp may
have been overwritten, and `rb_consume` looks at the head once more than the
ledger does before it takes the same slot.
-/

namespace RingBuff

/-- The two producer fields that hold a reservation. -/
def pendingFields : Option Reservation → UInt32 × UInt32
  | none => (noPending, 0)
  | some r => (r.slotIndex, r.wantedLen)

structure Represents (b : Build) (rb : Rb) (L : Ledger) : Prop where
  capacity : L.capacity = rb.geo.capacity
  slots : L.slots = rb.geo.slots
  cap : L.cap = payloadCap b rb.geo
  head : rb.head = UInt32.ofNat L.head
  tail : rb.tail = UInt32.ofNat L.tail
  cachedHead : rb.cachedHead = UInt32.ofNat L.cachedHead
  cachedTail : rb.cachedTail = UInt32.ofNat L.cachedTail
  pending : (rb.pendingSlot, rb.pendingWanted) = pendingFields L.pending
  active : rb.consumerActive = if L.held.isSome then 1 else 0
  held : ∀ s, L.held = some s → rb.consumerSlot = s
  fullLatch : rb.fullLatch = if L.fullLatch then 1 else 0
  limit : rb.limit = L.limit
  lowD : rb.lowD = L.lowD
  lowE : rb.lowE = L.lowE
  policy : rb.oversizePolicy = L.oversizePolicy
  cb : rb.cb = L.cb
  stats : rb.stats = L.stats
  header : ∀ p, L.tail ≤ p → p < L.head →
    rb.store.header b rb.geo (L.slotFor p) = L.header (L.slotFor p)
  payload : ∀ i, i.toNat < rb.geo.slots.toNat → ∀ k < (payloadCap b rb.geo).toNat,
    rb.store.payload b rb.geo i k = L.payload i k
  entered : (b.mode = .lap → WrapSafe L.slots L.head) →
    ∀ p, L.tail ≤ p → p < L.head → rb.store.Entered b rb.geo p

namespace Ledger.Ok

variable {L : Ledger}

/-- Positions less than one round of the slots apart use different slots. -/
theorem slotFor_ne (hok : L.Ok) {p q : Nat} (hwrap : WrapSafe L.slots q) (hlt : p < q)
    (hspan : q < p + L.slots.toNat) : L.slotFor p ≠ L.slotFor q := by
  intro heq
  have hnat := congrArg UInt32.toNat heq
  rw [hok.slotFor_toNat, hok.slotFor_toNat] at hnat
  exact hwrap.mod_ne hlt hspan hnat

end Ledger.Ok

namespace Represents

variable {b : Build} {rb : Rb} {L : Ledger}

/-! ## Reading a ring through its ledger -/

section Reading

variable (hrep : Represents b rb L) (hok : L.Ok) (hgeo : rb.geo.Sound b)

include hrep

theorem slotAt_eq (hok : L.Ok) (hgeo : rb.geo.Sound b) (p : Nat) :
    rb.geo.slotAt p = L.slotFor p := by
  apply UInt32.toNat_inj.mp
  rw [hgeo.slotAt_toNat, hok.slotFor_toNat, hrep.slots]

theorem slotFor_lt (hok : L.Ok) (p : Nat) : (L.slotFor p).toNat < rb.geo.slots.toNat :=
  hrep.slots ▸ hok.slotFor_lt p

theorem pendingSlot_eq : rb.pendingSlot = (pendingFields L.pending).1 :=
  congrArg Prod.fst hrep.pending

theorem pendingWanted_eq : rb.pendingWanted = (pendingFields L.pending).2 :=
  congrArg Prod.snd hrep.pending

theorem active_ne : rb.consumerActive ≠ 0 ↔ L.held.isSome = true := by
  rw [hrep.active]
  cases L.held <;> simp

include hok

theorem pendingSlot_none : rb.pendingSlot = noPending ↔ L.pending = none := by
  rw [hrep.pendingSlot_eq]
  cases hpend : L.pending with
  | none => simp [pendingFields]
  | some r =>
      have hlt := hok.slotFor_lt L.head
      rw [← (hok.pending_slot r hpend).1, hrep.slots] at hlt
      simpa [pendingFields] using Geometry.Masked.ne_noPending hlt

theorem limit_le_cached :
    rb.limit ≤ rb.head - rb.cachedTail ↔ L.limit.toNat ≤ L.head - L.cachedTail := by
  have hlt := L.capacity.toNat_lt
  have hspan := hok.span
  have hle := hok.cachedTail_le.trans hok.tail_le_head
  rw [hrep.head, hrep.cachedTail, hrep.limit, Counter.le_toNat_sub hle (by omega)]

theorem limit_le_count : rb.limit ≤ rb.head - rb.tail ↔ L.limit.toNat ≤ L.count := by
  rw [hrep.head, hrep.tail, hrep.limit,
    Counter.le_toNat_sub hok.tail_le_head hok.count_lt]
  rfl

theorem tail_eq_cachedHead : rb.tail = rb.cachedHead ↔ L.tail = L.cachedHead := by
  have hlt := hok.count_lt
  have hle := hok.cachedHead_le
  rw [hrep.tail, hrep.cachedHead, Counter.ofNat_inj hok.tail_le (by omega)]

theorem tail_eq_head : rb.tail = rb.head ↔ L.tail = L.head := by
  rw [hrep.tail, hrep.head, Counter.ofNat_inj hok.tail_le_head hok.count_lt]

theorem rbCount_eq (hgeo : rb.geo.Sound b) : rbCount rb = UInt32.ofNat L.count := by
  apply UInt32.toNat_inj.mp
  have hlt := hok.count_lt
  rw [rbCount, if_neg hgeo.scratchSize_pos.ne', hrep.head, hrep.tail,
    Counter.toNat_sub hok.tail_le_head hlt, Ledger.count, Counter.toNat_of_lt hlt]

end Reading

end Represents

end RingBuff
