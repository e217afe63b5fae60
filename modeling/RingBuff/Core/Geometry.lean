import RingBuff.Core.Ops
import Mathlib.Tactic.Ring

/-! # Slots that fit and do not overlap

`Geometry.Sound` collects what the later layers need to know about a layout:
the masks belong to their sizes, and the slots lie side by side inside the
scratchpad. Under it the header, the stamp and the payload of the slots behave
as independent variables, which is all the layers above ever use.
-/

namespace RingBuff

/-- The byte ranges of the slots, in exact integers, lie inside the scratchpad
and do not overlap. -/
structure Geometry.NonOverlapping (geo : Geometry) : Prop where
  inside : ∀ i < geo.slots.toNat,
    i * geo.slotStride.toNat + geo.slotSize.toNat ≤ geo.scratchSize
  apart : ∀ i j, i < j → j < geo.slots.toNat →
    i * geo.slotStride.toNat + geo.slotSize.toNat ≤ j * geo.slotStride.toNat

/-- The masks belong to their sizes. -/
structure Geometry.Masked (geo : Geometry) : Prop where
  capacity_pow2 : Counter.isPow2 geo.capacity = true
  mask_eq : geo.mask = geo.capacity - 1
  slots_pos : 0 < geo.slots.toNat
  slotsMask_eq : geo.slotsMask = if Counter.isPow2 geo.slots then geo.slots - 1 else 0

/-- A layout the operations work on. -/
structure Geometry.Sound (b : Build) (geo : Geometry) : Prop
    extends geo.NonOverlapping, geo.Masked where
  hdr_lt : b.hdrSize.toNat < geo.slotSize.toNat
  size_lt : geo.scratchSize < 2 ^ b.sizeBits

theorem Build.four_le_hdrSize (b : Build) : 4 ≤ b.hdrSize.toNat := by
  unfold hdrSize
  cases b.mode <;> decide

theorem Build.hdrSize_lap {b : Build} (hmode : b.mode = .lap) : b.hdrSize.toNat = 8 := by
  rw [hdrSize, hmode]
  rfl

namespace Geometry.Masked

variable {geo : Geometry}

theorem capacity_le (hgeo : geo.Masked) : geo.capacity.toNat ≤ 2 ^ 31 := by
  have hdvd := Counter.dvd_of_isPow2 hgeo.capacity_pow2
  obtain ⟨k, hk⟩ := (Counter.isPow2_iff _).mp hgeo.capacity_pow2
  have hlt := geo.capacity.toNat_lt
  rw [hk] at hlt ⊢
  have hk32 : k < 32 := (Nat.pow_lt_pow_iff_right (by decide : 1 < 2)).mp hlt
  exact Nat.pow_le_pow_right (by decide) (by omega)

/-- `slot_index_for` is the remainder of the position in both of its branches. -/
theorem slotIndexFor_toNat (hgeo : geo.Masked) (pos : UInt32) :
    (slotIndexFor geo pos).toNat = pos.toNat % geo.slots.toNat := by
  unfold slotIndexFor
  by_cases hpow : Counter.isPow2 geo.slots = true
  · by_cases hzero : geo.slotsMask = 0
    · rw [if_neg (by simpa using hzero), UInt32.toNat_mod]
    · rw [if_pos hzero, hgeo.slotsMask_eq, if_pos hpow, Counter.toNat_and_sub_one pos hpow]
  · have hzero : geo.slotsMask = 0 := by rw [hgeo.slotsMask_eq, if_neg hpow]
    rw [if_neg (by simpa using hzero), UInt32.toNat_mod]

theorem slotIndexFor_lt (hgeo : geo.Masked) (pos : UInt32) :
    (slotIndexFor geo pos).toNat < geo.slots.toNat := by
  rw [hgeo.slotIndexFor_toNat]
  exact Nat.mod_lt _ hgeo.slots_pos

theorem ne_noPending {i : UInt32} (hi : i.toNat < geo.slots.toNat) : i ≠ noPending := by
  rintro rfl
  have hlt := geo.slots.toNat_lt
  have hval : noPending.toNat = 4294967295 := rfl
  omega

theorem mask_toNat (hgeo : geo.Masked) (pos : UInt32) :
    (pos &&& geo.mask).toNat = pos.toNat % geo.capacity.toNat := by
  rw [hgeo.mask_eq, Counter.toNat_and_sub_one pos hgeo.capacity_pow2]

/-- Positions less than one capacity apart use different cells of `entries[]`,
whether or not the counter wraps between them. -/
theorem cell_ne (hgeo : geo.Masked) {p q : Nat} (hlt : p < q)
    (hspan : q < p + geo.capacity.toNat) :
    UInt32.ofNat p &&& geo.mask ≠ UInt32.ofNat q &&& geo.mask := by
  intro heq
  have hnat := congrArg UInt32.toNat heq
  have hdvd := Counter.dvd_of_isPow2 hgeo.capacity_pow2
  rw [hgeo.mask_toNat, hgeo.mask_toNat, Counter.toNat_ofNat_mod p (Or.inl hdvd),
    Counter.toNat_ofNat_mod q (Or.inl hdvd)] at hnat
  exact Counter.mod_ne_of_lt hlt hspan hnat

end Geometry.Masked

namespace Geometry.Sound

variable {b : Build} {geo : Geometry}

theorem scratchSize_pos (hgeo : geo.Sound b) : 0 < geo.scratchSize := by
  have hfirst := hgeo.inside 0 hgeo.slots_pos
  have hhdr := hgeo.hdr_lt
  omega

theorem payloadCap_toNat (hgeo : geo.Sound b) :
    (payloadCap b geo).toNat = geo.slotSize.toNat - b.hdrSize.toNat := by
  have hhdr := hgeo.hdr_lt
  exact UInt32.toNat_sub_of_le _ _ (by rw [UInt32.le_iff_toNat_le]; omega)

/-- The offset computation does not wrap for the slots of the ring. -/
theorem slotOffset_eq (hgeo : geo.Sound b) {i : UInt32} (hi : i.toNat < geo.slots.toNat) :
    slotOffset b geo i = i.toNat * geo.slotStride.toNat := by
  have hin := hgeo.inside i.toNat hi
  have hsize := hgeo.size_lt
  exact Nat.mod_eq_of_lt (by omega)

theorem slotOffset_inside (hgeo : geo.Sound b) {i : UInt32} (hi : i.toNat < geo.slots.toNat) :
    slotOffset b geo i + geo.slotSize.toNat ≤ geo.scratchSize := by
  rw [hgeo.slotOffset_eq hi]
  exact hgeo.inside i.toNat hi

theorem slotOffset_apart (hgeo : geo.Sound b) {i j : UInt32} (hi : i.toNat < geo.slots.toNat)
    (hj : j.toNat < geo.slots.toNat) (hne : i ≠ j) :
    slotOffset b geo i + geo.slotSize.toNat ≤ slotOffset b geo j ∨
      slotOffset b geo j + geo.slotSize.toNat ≤ slotOffset b geo i := by
  rw [hgeo.slotOffset_eq hi, hgeo.slotOffset_eq hj]
  have hnat : i.toNat ≠ j.toNat := fun heq => hne (UInt32.toNat_inj.mp heq)
  rcases Nat.lt_or_gt_of_ne hnat with hlt | hgt
  · exact Or.inl (hgeo.apart _ _ hlt hj)
  · exact Or.inr (hgeo.apart _ _ hgt hi)

/-- Two parts of slots share no byte when the slots differ or the parts do. -/
theorem parts_apart (hgeo : geo.Sound b) {i j : UInt32} (hi : i.toNat < geo.slots.toNat)
    (hj : j.toNat < geo.slots.toNat) {a m c n : Nat} (ha : a + m ≤ geo.slotSize.toNat)
    (hc : c + n ≤ geo.slotSize.toNat) (hne : i ≠ j ∨ a + m ≤ c ∨ c + n ≤ a) :
    slotOffset b geo i + (a + m) ≤ slotOffset b geo j + c ∨
      slotOffset b geo j + (c + n) ≤ slotOffset b geo i + a := by
  rcases eq_or_ne i j with rfl | hij
  · simp only [ne_eq, not_true_eq_false, false_or] at hne
    omega
  · have hapart := hgeo.slotOffset_apart hi hj hij
    omega

end Geometry.Sound

/-! ## Slots as independent variables -/

namespace Store

variable {b : Build} {geo : Geometry} {st : Store} {i j : UInt32}

theorem header_setHeader_same (word : UInt32) : (st.setHeader b geo i word).header b geo i = word :=
  Memory.load32_store32_same _ _ _

theorem stamp_setStamp_same (word : UInt32) : (st.setStamp b geo i word).stamp b geo i = word :=
  Memory.load32_store32_same _ _ _

theorem payload_setPayload_same (offset : Nat) (byte : UInt8) :
    (st.setPayload b geo i offset byte).payload b geo i offset = byte :=
  Memory.store8_same _ _ _

variable (hgeo : geo.Sound b) (hi : i.toNat < geo.slots.toNat)
  (hj : j.toNat < geo.slots.toNat)

include hgeo hi hj

theorem header_setHeader_ne (hne : i ≠ j) (word : UInt32) :
    (st.setHeader b geo i word).header b geo j = st.header b geo j := by
  have hfour := b.four_le_hdrSize
  have hhdr := hgeo.hdr_lt
  have hapart := hgeo.parts_apart hi hj (a := b.hdrSize.toNat - 4) (m := 4)
    (c := b.hdrSize.toNat - 4) (n := 4) (by omega) (by omega) (Or.inl hne)
  apply Memory.load32_store32_disjoint
  simp only [headerOffset]
  omega

theorem payload_setHeader (word : UInt32) {offset : Nat}
    (hoff : offset < (payloadCap b geo).toNat) :
    (st.setHeader b geo i word).payload b geo j offset = st.payload b geo j offset := by
  have hfour := b.four_le_hdrSize
  have hhdr := hgeo.hdr_lt
  rw [hgeo.payloadCap_toNat] at hoff
  have hapart := hgeo.parts_apart hi hj (a := b.hdrSize.toNat - 4) (m := 4)
    (c := b.hdrSize.toNat + offset) (n := 1) (by omega) (by omega) (Or.inr (by omega))
  apply Memory.store32_outside
  simp only [headerOffset, payloadOffset]
  omega

theorem stamp_setHeader (hmode : b.mode = .lap) (word : UInt32) :
    (st.setHeader b geo i word).stamp b geo j = st.stamp b geo j := by
  have height := Build.hdrSize_lap hmode
  have hhdr := hgeo.hdr_lt
  have hapart := hgeo.parts_apart hi hj (a := b.hdrSize.toNat - 4) (m := 4) (c := 0) (n := 4)
    (by omega) (by omega) (Or.inr (by omega))
  apply Memory.load32_store32_disjoint
  simp only [headerOffset]
  omega

theorem stamp_setStamp_ne (hne : i ≠ j) (word : UInt32) :
    (st.setStamp b geo i word).stamp b geo j = st.stamp b geo j := by
  have hfour := b.four_le_hdrSize
  have hhdr := hgeo.hdr_lt
  have hapart := hgeo.parts_apart hi hj (a := 0) (m := 4) (c := 0) (n := 4)
    (by omega) (by omega) (Or.inl hne)
  apply Memory.load32_store32_disjoint
  omega

theorem header_setStamp (hmode : b.mode = .lap) (word : UInt32) :
    (st.setStamp b geo i word).header b geo j = st.header b geo j := by
  have height := Build.hdrSize_lap hmode
  have hhdr := hgeo.hdr_lt
  have hapart := hgeo.parts_apart hi hj (a := 0) (m := 4) (c := b.hdrSize.toNat - 4) (n := 4)
    (by omega) (by omega) (Or.inr (by omega))
  apply Memory.load32_store32_disjoint
  simp only [headerOffset]
  omega

theorem payload_setStamp (word : UInt32) {offset : Nat}
    (hoff : offset < (payloadCap b geo).toNat) :
    (st.setStamp b geo i word).payload b geo j offset = st.payload b geo j offset := by
  have hfour := b.four_le_hdrSize
  have hhdr := hgeo.hdr_lt
  rw [hgeo.payloadCap_toNat] at hoff
  have hapart := hgeo.parts_apart hi hj (a := 0) (m := 4) (c := b.hdrSize.toNat + offset) (n := 1)
    (by omega) (by omega) (Or.inr (by omega))
  apply Memory.store32_outside
  simp only [payloadOffset]
  omega

theorem header_setPayload {offset : Nat} (byte : UInt8)
    (hoff : offset < (payloadCap b geo).toNat) :
    (st.setPayload b geo i offset byte).header b geo j = st.header b geo j := by
  have hfour := b.four_le_hdrSize
  have hhdr := hgeo.hdr_lt
  rw [hgeo.payloadCap_toNat] at hoff
  have hapart := hgeo.parts_apart hi hj (a := b.hdrSize.toNat + offset) (m := 1)
    (c := b.hdrSize.toNat - 4) (n := 4) (by omega) (by omega) (Or.inr (by omega))
  apply Memory.load32_store8_outside
  simp only [headerOffset, payloadOffset]
  omega

theorem stamp_setPayload {offset : Nat} (byte : UInt8)
    (hoff : offset < (payloadCap b geo).toNat) :
    (st.setPayload b geo i offset byte).stamp b geo j = st.stamp b geo j := by
  have hfour := b.four_le_hdrSize
  have hhdr := hgeo.hdr_lt
  rw [hgeo.payloadCap_toNat] at hoff
  have hapart := hgeo.parts_apart hi hj (a := b.hdrSize.toNat + offset) (m := 1)
    (c := 0) (n := 4) (by omega) (by omega) (Or.inr (by omega))
  apply Memory.load32_store8_outside
  simp only [payloadOffset]
  omega

theorem payload_setPayload_ne {offset offset' : Nat} (byte : UInt8)
    (hoff : offset < (payloadCap b geo).toNat)
    (hoff' : offset' < (payloadCap b geo).toNat) (hne : i ≠ j ∨ offset ≠ offset') :
    (st.setPayload b geo i offset byte).payload b geo j offset' = st.payload b geo j offset' := by
  have hhdr := hgeo.hdr_lt
  rw [hgeo.payloadCap_toNat] at hoff hoff'
  have hapart := hgeo.parts_apart hi hj (a := b.hdrSize.toNat + offset) (m := 1)
    (c := b.hdrSize.toNat + offset') (n := 1) (by omega) (by omega)
    (hne.imp_right (by omega))
  apply Memory.store8_of_ne
  simp only [payloadOffset]
  omega

/-! The stores that hand a slot over leave headers and payloads alone. -/

theorem header_enter (head : UInt32) :
    (st.enter b geo i head).header b geo j = st.header b geo j := by
  unfold enter
  cases hmode : b.mode with
  | index | pointer => rfl
  | lap => exact header_setStamp hgeo hi hj hmode _

theorem payload_enter (head : UInt32) {offset : Nat}
    (hoff : offset < (payloadCap b geo).toNat) :
    (st.enter b geo i head).payload b geo j offset = st.payload b geo j offset := by
  unfold enter
  cases hmode : b.mode with
  | index | pointer => rfl
  | lap => exact payload_setStamp hgeo hi hj _ hoff

theorem header_recycle (tail : UInt32) :
    (st.recycle b geo i tail).header b geo j = st.header b geo j := by
  unfold recycle
  cases hmode : b.mode with
  | index | pointer => rfl
  | lap => exact header_setStamp hgeo hi hj hmode _

theorem payload_recycle (tail : UInt32) {offset : Nat}
    (hoff : offset < (payloadCap b geo).toNat) :
    (st.recycle b geo i tail).payload b geo j offset = st.payload b geo j offset := by
  unfold recycle
  cases hmode : b.mode with
  | index | pointer => rfl
  | lap => exact payload_setStamp hgeo hi hj _ hoff

omit hgeo hi hj in
theorem entries_recycle (tail : UInt32) : (st.recycle b geo i tail).entries = st.entries := by
  unfold recycle
  cases b.mode <;> rfl

end Store

end RingBuff
