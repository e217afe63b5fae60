import RingBuff.Core.Geometry

/-! # Positions, slots and cells

A position is the number of a message, counted from the first one ever
published. It has a slot and, without stamps, a cell of `entries[]`; both are
computed from the wrapped counter. `Store.Entered` says that memory tells the
consumer the slot of a position, in the way of each build.
-/

namespace RingBuff

/-- The slot of a position: the position is a 32-bit counter first. -/
def Geometry.slotAt (geo : Geometry) (pos : Nat) : UInt32 :=
  slotIndexFor geo (UInt32.ofNat pos)

/-- The cell of `entries[]` of a position. -/
def Geometry.cellAt (geo : Geometry) (pos : Nat) : UInt32 := UInt32.ofNat pos &&& geo.mask

theorem Geometry.ofNat_and_mask (geo : Geometry) (pos : Nat) :
    UInt32.ofNat pos &&& geo.mask = geo.cellAt pos := rfl

/-- Positions and slots stay aligned: the number of slots divides the range of
the counters, or the counters have not wrapped. -/
def WrapSafe (slots : UInt32) (published : Nat) : Prop :=
  Counter.isPow2 slots = true ∨ published < 2 ^ 32

theorem WrapSafe.mono {slots : UInt32} {m n : Nat} (hle : m ≤ n) (hwrap : WrapSafe slots n) :
    WrapSafe slots m :=
  hwrap.imp_right hle.trans_lt

/-- Under the condition, positions less than one round apart have different slot
numbers. -/
theorem WrapSafe.mod_ne {slots : UInt32} {p q : Nat} (hwrap : WrapSafe slots q) (hlt : p < q)
    (hspan : q < p + slots.toNat) :
    p % 2 ^ 32 % slots.toNat ≠ q % 2 ^ 32 % slots.toNat := by
  intro heq
  apply Counter.mod_ne_of_lt hlt hspan
  rcases hwrap with hpow | hq
  · have hdvd := Counter.dvd_of_isPow2 hpow
    rwa [Nat.mod_mod_of_dvd _ hdvd, Nat.mod_mod_of_dvd _ hdvd] at heq
  · rwa [Nat.mod_eq_of_lt (hlt.trans hq), Nat.mod_eq_of_lt hq] at heq

namespace Geometry.Masked

variable {geo : Geometry}

theorem slotAt_toNat (hgeo : geo.Masked) (p : Nat) :
    (geo.slotAt p).toNat = p % 2 ^ 32 % geo.slots.toNat := by
  rw [Geometry.slotAt, hgeo.slotIndexFor_toNat, Counter.toNat_ofNat]

theorem slotAt_lt (hgeo : geo.Masked) (p : Nat) : (geo.slotAt p).toNat < geo.slots.toNat :=
  hgeo.slotIndexFor_lt _

theorem slotAt_ne (hgeo : geo.Masked) {p q : Nat} (hwrap : WrapSafe geo.slots q) (hlt : p < q)
    (hspan : q < p + geo.slots.toNat) : geo.slotAt p ≠ geo.slotAt q := by
  intro heq
  have hnat := congrArg UInt32.toNat heq
  rw [hgeo.slotAt_toNat, hgeo.slotAt_toNat] at hnat
  exact hwrap.mod_ne hlt hspan hnat

end Geometry.Masked

/-- What the pointer build relies on: the stride it divides by is not zero, and
the scratchpad does not wrap around the address space. -/
structure Geometry.Addressable (b : Build) (geo : Geometry) : Prop where
  stride_ne : geo.slotStride ≠ 0
  no_wrap : scratchAddr b geo + geo.scratchSize ≤ 2 ^ b.sizeBits

/-- A layout whose slots are found again: where entries are addresses, the slots
need addresses of their own. -/
structure Geometry.Findable (b : Build) (geo : Geometry) : Prop extends geo.Masked where
  pointer : b.mode = .pointer → geo.Sound b ∧ geo.Addressable b

theorem Geometry.Sound.findable {b : Build} {geo : Geometry} (hgeo : geo.Sound b)
    (haddr : b.mode = .pointer → geo.Addressable b) : geo.Findable b :=
  { hgeo.toMasked with pointer := fun hmode => ⟨hgeo, haddr hmode⟩ }

/-- The consumer will find the slot of position `p`. -/
def Store.Entered (b : Build) (geo : Geometry) (st : Store) (p : Nat) : Prop :=
  match b.mode with
  | .index => st.entries (geo.cellAt p) = (geo.slotAt p).toNat
  | .pointer =>
      st.entries (geo.cellAt p) = scratchAddr b geo + slotOffset b geo (geo.slotAt p)
  | .lap => st.stamp b geo (geo.slotAt p) = UInt32.ofNat p + 1

namespace Store

variable {b : Build} {geo : Geometry} {st st' : Store} {p q : Nat}

/-- Only one cell of `entries[]`, or one stamp, matters for a position. -/
theorem Entered.frame (hent : st.Entered b geo p)
    (hcell : b.mode ≠ .lap → st'.entries (geo.cellAt p) = st.entries (geo.cellAt p))
    (hstamp : b.mode = .lap → st'.stamp b geo (geo.slotAt p) = st.stamp b geo (geo.slotAt p)) :
    st'.Entered b geo p := by
  unfold Entered at hent ⊢
  cases hmode : b.mode with
  | index | pointer =>
      simp only [hmode] at hent ⊢
      rw [hcell (by simp [hmode]), hent]
  | lap =>
      simp only [hmode] at hent ⊢
      rw [hstamp hmode, hent]

section

variable (hgeo : geo.Sound b)

include hgeo

theorem Entered.setHeader (hent : st.Entered b geo p) {i : UInt32}
    (hi : i.toNat < geo.slots.toNat) (word : UInt32) :
    (st.setHeader b geo i word).Entered b geo p :=
  hent.frame (fun _ => rfl)
    (fun hmode => stamp_setHeader hgeo hi (hgeo.slotIndexFor_lt _) hmode word)

theorem Entered.setPayload (hent : st.Entered b geo p) {i : UInt32}
    (hi : i.toNat < geo.slots.toNat) {offset : Nat} (hoff : offset < (payloadCap b geo).toNat)
    (byte : UInt8) : (st.setPayload b geo i offset byte).Entered b geo p :=
  hent.frame (fun _ => rfl)
    (fun _ => stamp_setPayload hgeo hi (hgeo.slotIndexFor_lt _) byte hoff)

/-- Entering one position leaves the others, as long as they use another cell
and, where slots carry stamps, another slot. -/
theorem Entered.enter (hent : st.Entered b geo p) (hcell : geo.cellAt p ≠ geo.cellAt q)
    (hslot : b.mode = .lap → geo.slotAt q ≠ geo.slotAt p) :
    (st.enter b geo (geo.slotAt q) (UInt32.ofNat q)).Entered b geo p := by
  refine hent.frame ?_ ?_
  · intro hmode
    cases hmode' : b.mode with
    | index | pointer => simp [Store.enter, setEntry, hmode', geo.ofNat_and_mask, hcell]
    | lap => exact absurd hmode' hmode
  · intro hmode
    simp only [Store.enter, hmode]
    exact stamp_setStamp_ne hgeo (hgeo.slotIndexFor_lt _) (hgeo.slotIndexFor_lt _)
      (hslot hmode) _

theorem Entered.recycle (hent : st.Entered b geo p)
    (hslot : b.mode = .lap → geo.slotAt q ≠ geo.slotAt p) :
    (st.recycle b geo (geo.slotAt q) (UInt32.ofNat q)).Entered b geo p := by
  refine hent.frame ?_ ?_
  · intro hmode
    cases hmode' : b.mode with
    | index | pointer => simp only [Store.recycle, hmode']
    | lap => exact absurd hmode' hmode
  · intro hmode
    simp only [Store.recycle, hmode]
    exact stamp_setStamp_ne hgeo (hgeo.slotIndexFor_lt _) (hgeo.slotIndexFor_lt _)
      (hslot hmode) _

end

/-- What `rb_publish_ex` enters leads to the slot. -/
theorem entered_enter (hfind : geo.Findable b) (p : Nat) :
    (st.enter b geo (geo.slotAt p) (UInt32.ofNat p)).Entered b geo p := by
  unfold Entered
  cases hmode : b.mode with
  | index => simp [enter, setEntry, hmode, geo.ofNat_and_mask]
  | pointer =>
      obtain ⟨hgeo, haddr⟩ := hfind.pointer hmode
      have hin := hgeo.slotOffset_inside (hgeo.slotAt_lt p)
      have hhdr := hgeo.hdr_lt
      have hwrap := haddr.no_wrap
      simp only [enter, setEntry, hmode, geo.ofNat_and_mask, Function.update_self]
      exact Nat.mod_eq_of_lt (by omega)
  | lap =>
      simp only [enter, hmode]
      exact stamp_setStamp_same _

theorem slotAt_bounded (hgeo : geo.Masked) (p : Nat) : ¬ geo.slots ≤ geo.slotAt p := by
  rw [UInt32.not_le]
  exact UInt32.lt_iff_toNat_lt.mpr (hgeo.slotAt_lt p)

/-- The stamp is compared later, so in the per-slot-lap build the slot is always
found. -/
theorem frontSlot_lap (hgeo : geo.Masked) (hmode : b.mode = .lap) (p : Nat) :
    st.frontSlot b geo (UInt32.ofNat p) = some (.ok (geo.slotAt p)) := by
  simp only [Store.frontSlot, hmode]
  exact congrArg some (if_neg (slotAt_bounded hgeo p))

/-- The consumer finds the slot of a position that was entered. -/
theorem Entered.frontSlot (hent : st.Entered b geo p) (hfind : geo.Findable b) :
    st.frontSlot b geo (UInt32.ofNat p) = some (.ok (geo.slotAt p)) := by
  have hnot := slotAt_bounded hfind.toMasked p
  unfold Entered at hent
  unfold Store.frontSlot
  cases hmode : b.mode with
  | index =>
      simp only [hmode] at hent ⊢
      rw [geo.ofNat_and_mask, hent, UInt32.ofNat_toNat, if_neg hnot]
  | pointer =>
      obtain ⟨hgeo, haddr⟩ := hfind.pointer hmode
      have hstride : 0 < geo.slotStride.toNat :=
        Nat.pos_of_ne_zero fun h => haddr.stride_ne (UInt32.toNat_inj.mp h)
      simp only [hmode] at hent ⊢
      rw [geo.ofNat_and_mask, hent, if_neg (by omega), if_neg haddr.stride_ne,
        Nat.add_sub_cancel_left, hgeo.slotOffset_eq (hgeo.slotAt_lt p), Nat.mul_mod_left,
        Nat.mul_div_cancel _ hstride, UInt32.ofNat_toNat, if_neg (by simp), if_neg hnot]
  | lap => exact congrArg some (if_neg hnot)

/-- With stamps, an entered position is one whose stamp matches. -/
theorem Entered.not_stale (hent : st.Entered b geo p) :
    st.stale b geo (UInt32.ofNat p) (geo.slotAt p) = false := by
  unfold Entered at hent
  unfold Store.stale
  cases hmode : b.mode with
  | index | pointer => rfl
  | lap =>
      simp only [hmode] at hent
      simp [hent]

end Store

end RingBuff
