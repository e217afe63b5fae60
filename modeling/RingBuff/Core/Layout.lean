import RingBuff.Core.Footprint

/-! # What `rb_init` accepts

The size check of `rb_init` chains three fixed-width computations. Against the
exact size of a slot rounded up to the alignment, the stored stride is exact
below `2 ^ 32` and zero from there on, and the product with the number of slots
is exact as long as it stays within `size_t`.
-/

namespace RingBuff

/-! ## Rounding up -/

/-- `RB_ALIGN_UP` in exact integers. -/
def roundUp (x a : Nat) : Nat := (x + (a - 1)) / a * a

theorem le_roundUp (x : Nat) {a : Nat} (hpos : 0 < a) : x ≤ roundUp x a := by
  have hdiv := Nat.div_add_mod (x + (a - 1)) a
  have hmod := Nat.mod_lt (x + (a - 1)) hpos
  rw [Nat.mul_comm] at hdiv
  unfold roundUp
  omega

theorem dvd_roundUp (x a : Nat) : a ∣ roundUp x a := Nat.dvd_mul_left a _

/-- Clearing the low bits rounds down. -/
theorem toNat_and_not_low {w : Nat} (y : BitVec w) (k : Nat) :
    (y &&& ~~~BitVec.ofNat w (2 ^ k - 1)).toNat = y.toNat / 2 ^ k * 2 ^ k := by
  have heq : y &&& ~~~BitVec.ofNat w (2 ^ k - 1) = (y >>> k) <<< k := by
    apply BitVec.eq_of_getLsbD_eq
    intro i hi
    rw [BitVec.getLsbD_and, BitVec.getLsbD_not, BitVec.getLsbD_ofNat, BitVec.getLsbD_shiftLeft,
      BitVec.getLsbD_ushiftRight, Nat.testBit_two_pow_sub_one]
    by_cases hk : i < k
    · simp [hi, hk]
    · simp [hi, hk, Nat.add_sub_of_le (Nat.le_of_not_lt hk)]
  rw [heq, BitVec.toNat_shiftLeft, BitVec.toNat_ushiftRight, Nat.shiftLeft_eq,
    Nat.shiftRight_eq_div_pow]
  exact Nat.mod_eq_of_lt ((Nat.div_mul_le_self _ _).trans_lt y.isLt)

/-- `RB_ALIGN_UP` in `size_t` is the exact value, wrapped. -/
theorem alignUp_eq {bits k : Nat} (hk : k ≤ bits) (x : Nat) :
    alignUp bits x (2 ^ k) = roundUp x (2 ^ k) % 2 ^ bits := by
  obtain ⟨d, rfl⟩ := Nat.exists_eq_add_of_le hk
  rw [alignUp, toNat_and_not_low, BitVec.toNat_add, BitVec.toNat_ofNat, BitVec.toNat_ofNat,
    ← Nat.add_mod, roundUp, pow_add, Nat.mod_mul_right_div_self, Nat.mul_comm (2 ^ k) (2 ^ d),
    Nat.mul_mod_mul_right]

/-- A size that does not fit after rounding up leaves nothing in the low 32 bits. -/
theorem roundUp_mod_eq_zero {x k : Nat} (hx : x < 2 ^ 32) (hbig : 2 ^ 32 ≤ roundUp x (2 ^ k)) :
    roundUp x (2 ^ k) % 2 ^ 32 = 0 := by
  rcases Nat.le_total k 32 with hk | hk
  · obtain ⟨d, hd⟩ := Nat.exists_eq_add_of_le hk
    have hpos := Nat.two_pow_pos k
    have hle : (x + (2 ^ k - 1)) / 2 ^ k ≤ 2 ^ d := by
      rw [Nat.div_le_iff_le_mul_add_pred hpos, ← pow_add, ← hd]
      omega
    have hmul : roundUp x (2 ^ k) ≤ 2 ^ d * 2 ^ k := Nat.mul_le_mul_right _ hle
    rw [← pow_add, Nat.add_comm, ← hd] at hmul
    rw [Nat.le_antisymm hmul hbig, Nat.mod_self]
  · exact Nat.mod_eq_zero_of_dvd ((Nat.pow_dvd_pow 2 hk).trans (dvd_roundUp x _))

/-! ## The checks of `rb_init` -/

section Init

variable {b : Build} {addr scratch scratchSize : BitVec b.sizeBits} {cfg : Option Config}
  {before : Store} {rb : Rb}

/-- What a successful `rb_init` has checked and stored. -/
structure Accepted (b : Build) (addr : BitVec b.sizeBits) (cfg : Config)
    (scratch scratchSize : BitVec b.sizeBits) (before : Store) (rb : Rb) : Prop where
  valid : cfg.valid b = true
  room : (cfg.need b).toNat ≤ scratchSize.toNat
  eq : rb = cfg.fresh b (cfg.geometry b addr scratch scratchSize) before

theorem rbInit_accepted (hinit : rbInit b addr cfg scratch scratchSize before = .ok rb) :
    ∃ cfg', cfg = some cfg' ∧ Accepted b addr cfg' scratch scratchSize before rb := by
  unfold rbInit at hinit
  split at hinit
  · cases hinit
  next cfg' =>
    split at hinit
    · cases hinit
    split at hinit
    · cases hinit
    split at hinit
    · cases hinit
    next hvalid =>
      split at hinit
      · cases hinit
      split at hinit
      · cases hinit
      next hroom =>
        cases hinit
        exact ⟨cfg', rfl, Bool.eq_true_of_not_eq_false hvalid,
          BitVec.le_def.mp (BitVec.not_lt.mp hroom), rfl⟩

end Init

/-- The checks on the configuration, one by one. -/
theorem Config.valid_iff {b : Build} {cfg : Config} : cfg.valid b = true ↔
    Counter.isPow2 (cfg.dims b).capacity = true ∧ 2 ≤ (cfg.dims b).capacity ∧
      (cfg.dims b).slots ≠ 0 ∧ b.hdrSize < (cfg.dims b).slotSize ∧ (cfg.dims b).limit ≠ 0 ∧
      cfg.lowD ≤ 100 ∧ cfg.lowE ≤ 100 ∧ cfg.lowE ≤ cfg.lowD := by
  simp only [Config.valid, Bool.and_eq_true, decide_eq_true_eq, and_assoc]

/-- The limit is clamped to what the ring can hold. -/
theorem Config.limit_le (b : Build) (cfg : Config) :
    (cfg.dims b).limit ≤ (cfg.dims b).capacity ∧ (cfg.dims b).limit ≤ (cfg.dims b).slots := by
  have hclamp : ∀ capacity slots limit : UInt32,
      (if slots < (if capacity < limit then capacity else limit) then slots
        else if capacity < limit then capacity else limit) ≤ capacity ∧
      (if slots < (if capacity < limit then capacity else limit) then slots
        else if capacity < limit then capacity else limit) ≤ slots := by
    intro capacity slots limit
    simp only [UInt32.lt_iff_toNat_lt, UInt32.le_iff_toNat_le]
    split_ifs <;> omega
  exact hclamp _ _ _

namespace Accepted

variable {b : Build} {addr scratch scratchSize : BitVec b.sizeBits} {cfg : Config}
  {before : Store} {rb : Rb}

theorem geo_eq (hacc : Accepted b addr cfg scratch scratchSize before rb) :
    rb.geo = cfg.geometry b addr scratch scratchSize := by
  rw [hacc.eq]
  rfl

theorem slots_pos (hacc : Accepted b addr cfg scratch scratchSize before rb) :
    0 < (cfg.dims b).slots.toNat := by
  have hslots := (Config.valid_iff.mp hacc.valid).2.2.1
  exact Nat.pos_of_ne_zero fun heq => hslots (UInt32.toNat_inj.mp heq)

theorem masked (hacc : Accepted b addr cfg scratch scratchSize before rb) : rb.geo.Masked := by
  rw [hacc.geo_eq]
  exact
    { capacity_pow2 := (Config.valid_iff.mp hacc.valid).1
      mask_eq := rfl
      slots_pos := hacc.slots_pos
      slotsMask_eq := rfl }

theorem hdr_lt (hacc : Accepted b addr cfg scratch scratchSize before rb) :
    b.hdrSize.toNat < rb.geo.slotSize.toNat := by
  rw [hacc.geo_eq]
  exact UInt32.lt_iff_toNat_lt.mp (Config.valid_iff.mp hacc.valid).2.2.2.1

theorem inRange (hacc : Accepted b addr cfg scratch scratchSize before rb) : rb.InRange where
  masked := hacc.masked
  pending := fun hsome => absurd (by rw [hacc.eq]; rfl) hsome
  held := by
    rw [hacc.eq]
    exact hacc.slots_pos

theorem sound (hacc : Accepted b addr cfg scratch scratchSize before rb)
    (hover : rb.geo.NonOverlapping) : rb.geo.Sound b :=
  { hover, hacc.masked with
    hdr_lt := hacc.hdr_lt
    size_lt := by rw [hacc.geo_eq]; exact scratchSize.isLt }

end Accepted

/-! ## When an accepted layout fits -/

/-- An alignment of the target: a power of two, at least that of a 32-bit word,
that `size_t` can hold. -/
structure Build.Target (b : Build) : Prop where
  bits : b.sizeBits = 32 ∨ b.sizeBits = 64
  align : ∃ k, 2 ≤ k ∧ k < b.sizeBits ∧ b.slotAlign = 2 ^ k

namespace Build.Target

variable {b : Build}

theorem needAlign_eq (htarget : b.Target) : ∃ k, k < b.sizeBits ∧ b.needAlign = 2 ^ k := by
  obtain ⟨k, hk, hbits, heq⟩ := htarget.align
  have hfour : 2 ^ 2 ≤ 2 ^ k := Nat.pow_le_pow_right (by decide) hk
  exact ⟨k, hbits, by rw [Build.needAlign, heq, if_neg (by omega)]⟩

theorem needAlign_pos (htarget : b.Target) : 0 < b.needAlign := by
  obtain ⟨k, -, heq⟩ := htarget.needAlign_eq
  rw [heq]
  exact Nat.two_pow_pos k

theorem dvd_size (htarget : b.Target) : 2 ^ 32 ∣ 2 ^ b.sizeBits := by
  rcases htarget.bits with heq | heq
  · rw [heq]
  · rw [heq]
    decide

/-- The stored stride keeps the low 32 bits of the exact one. -/
theorem slotStrideFor_toNat (htarget : b.Target) (slotSize : UInt32) :
    (slotStrideFor b slotSize).toNat = roundUp slotSize.toNat b.needAlign % 2 ^ 32 := by
  obtain ⟨k, hk, heq⟩ := htarget.needAlign_eq
  rw [slotStrideFor, Counter.toNat_ofNat, heq, alignUp_eq hk.le,
    Nat.mod_mod_of_dvd _ htarget.dvd_size]

/-- The stored stride holds a slot exactly when rounding up stayed below `2 ^ 32`. -/
theorem slotSize_le_stride (htarget : b.Target) {slotSize : UInt32} (hpos : 0 < slotSize.toNat) :
    slotSize.toNat ≤ (slotStrideFor b slotSize).toNat ↔
      roundUp slotSize.toNat b.needAlign < 2 ^ 32 := by
  rw [htarget.slotStrideFor_toNat]
  constructor
  · intro hle
    by_contra hbig
    obtain ⟨k, -, heq⟩ := htarget.needAlign_eq
    rw [heq] at hle hbig
    rw [roundUp_mod_eq_zero slotSize.toNat_lt (Nat.le_of_not_lt hbig)] at hle
    omega
  · intro hlt
    rw [Nat.mod_eq_of_lt hlt]
    exact le_roundUp _ htarget.needAlign_pos

end Build.Target

/-- The exact computation behind the size check stays within the types it is
made in: the rounded slot fits a `uint32_t`, and the slots together fit `size_t`
or at least the scratchpad. -/
def Config.SizesFit (b : Build) (cfg : Config) (scratchSize : Nat) : Prop :=
  let d := cfg.dims b
  let stride := roundUp d.slotSize.toNat b.needAlign
  stride < 2 ^ 32 ∧ (d.slots.toNat * stride < 2 ^ b.sizeBits ∨
    (d.slots.toNat - 1) * stride + d.slotSize.toNat ≤ scratchSize)

instance (b : Build) (cfg : Config) (scratchSize : Nat) :
    Decidable (cfg.SizesFit b scratchSize) :=
  inferInstanceAs (Decidable (_ ∧ _))

/-- What an accepted layout is meant to guarantee: a stride that holds a slot and
keeps the alignment, slots side by side inside the scratchpad, and no store of
any later call outside of it. -/
structure Fits (b : Build) (rb : Rb) : Prop extends rb.geo.NonOverlapping where
  size_le : rb.geo.slotSize.toNat ≤ rb.geo.slotStride.toNat
  aligned : b.needAlign ∣ rb.geo.slotStride.toNat
  stores : ∀ rb', (ring b).Reaches rb rb' → ∀ c, ∀ r ∈ footprint b rb' c,
    r.first + r.size ≤ rb.geo.scratchSize

namespace Accepted

variable {b : Build} {addr scratch scratchSize : BitVec b.sizeBits} {cfg : Config}
  {before : Store} {rb : Rb}

theorem need_toNat (b : Build) (cfg : Config) : (cfg.need b).toNat =
    (cfg.dims b).slots.toNat * (slotStrideFor b (cfg.dims b).slotSize).toNat %
      2 ^ b.sizeBits := by
  rw [Config.need, BitVec.toNat_mul, BitVec.toNat_ofNat, BitVec.toNat_ofNat, ← Nat.mul_mod]

/-- Slots side by side, from the last one. -/
theorem nonOverlapping_of_le {geo : Geometry} (hle : geo.slotSize.toNat ≤ geo.slotStride.toNat)
    (hlast : (geo.slots.toNat - 1) * geo.slotStride.toNat + geo.slotSize.toNat ≤
      geo.scratchSize) : geo.NonOverlapping where
  inside := by
    intro i hi
    have hmul := Nat.mul_le_mul_right geo.slotStride.toNat (Nat.le_sub_one_of_lt hi)
    omega
  apart := by
    intro i j hlt _
    have hmul := Nat.mul_le_mul_right geo.slotStride.toNat (Nat.succ_le_of_lt hlt)
    rw [Nat.succ_mul] at hmul
    omega

theorem fits_of_sizesFit (hacc : Accepted b addr cfg scratch scratchSize before rb)
    (htarget : b.Target) (hfit : cfg.SizesFit b scratchSize.toNat) : Fits b rb := by
  obtain ⟨hstride, hsize⟩ := hfit
  have hslots := hacc.slots_pos
  have hhdr := hacc.hdr_lt
  have hexact := htarget.slotStrideFor_toNat (cfg.dims b).slotSize
  rw [Nat.mod_eq_of_lt hstride] at hexact
  have hgeo := hacc.geo_eq
  have hle : rb.geo.slotSize.toNat ≤ rb.geo.slotStride.toNat := by
    rw [hgeo] at hhdr ⊢
    exact (htarget.slotSize_le_stride (Nat.zero_lt_of_lt hhdr)).mpr hstride
  have hlast : (rb.geo.slots.toNat - 1) * rb.geo.slotStride.toNat + rb.geo.slotSize.toNat ≤
      rb.geo.scratchSize := by
    have hroom := hacc.room
    rw [hgeo] at hle ⊢
    change ((cfg.dims b).slots.toNat - 1) * (slotStrideFor b (cfg.dims b).slotSize).toNat +
      (cfg.dims b).slotSize.toNat ≤ scratchSize.toNat
    rcases hsize with hwhole | hdirect
    · rw [need_toNat, hexact, Nat.mod_eq_of_lt hwhole] at hroom
      have hsplit : (cfg.dims b).slots.toNat - 1 + 1 = (cfg.dims b).slots.toNat := by omega
      have hmul := congrArg (· * roundUp (cfg.dims b).slotSize.toNat b.needAlign) hsplit
      have hround := le_roundUp (cfg.dims b).slotSize.toNat htarget.needAlign_pos
      simp only [Nat.succ_mul] at hmul
      rw [hexact]
      omega
    · rwa [hexact]
  have hover := nonOverlapping_of_le hle hlast
  refine { hover with
    size_le := hle
    aligned := ?_
    stores := ?_ }
  · rw [hgeo]
    change b.needAlign ∣ (slotStrideFor b (cfg.dims b).slotSize).toNat
    rw [hexact]
    exact dvd_roundUp _ _
  · intro rb' hreach c r hmem
    obtain ⟨hsame, hrange⟩ := reaches_inRange hacc.inRange hreach
    rw [← hsame] at hhdr ⊢
    refine footprint_inside hrange hhdr ?_ hmem
    intro i hi
    rw [hsame] at hi ⊢
    exact (hacc.sound hover).slotOffset_inside hi

theorem sizesFit_of_fits (hacc : Accepted b addr cfg scratch scratchSize before rb)
    (htarget : b.Target) (hfits : Fits b rb) : cfg.SizesFit b scratchSize.toNat := by
  have hslots := hacc.slots_pos
  have hhdr := hacc.hdr_lt
  have hle := hfits.size_le
  have hlast := hfits.inside (rb.geo.slots.toNat - 1)
  rw [hacc.geo_eq] at hhdr hle hlast
  have hstride : roundUp (cfg.dims b).slotSize.toNat b.needAlign < 2 ^ 32 :=
    (htarget.slotSize_le_stride (Nat.zero_lt_of_lt hhdr)).mp hle
  refine ⟨hstride, Or.inr ?_⟩
  have hexact := htarget.slotStrideFor_toNat (cfg.dims b).slotSize
  rw [Nat.mod_eq_of_lt hstride] at hexact
  rw [← hexact]
  exact hlast (Nat.sub_lt hslots Nat.one_pos)

end Accepted

/-- An accepted layout is as promised exactly when no step of the size check
wrapped around in a way that mattered. -/
theorem rbInit_fits_iff {b : Build} (htarget : b.Target)
    {addr scratch scratchSize : BitVec b.sizeBits} {cfg : Config} {before : Store} {rb : Rb}
    (hinit : rbInit b addr (some cfg) scratch scratchSize before = .ok rb) :
    Fits b rb ↔ cfg.SizesFit b scratchSize.toNat := by
  obtain ⟨cfg', heq, hacc⟩ := rbInit_accepted hinit
  obtain rfl := Option.some.inj heq
  exact ⟨hacc.sizesFit_of_fits htarget, hacc.fits_of_sizesFit htarget⟩

/-! ## A small ring -/

/-- Memory that holds zeros. -/
def blank : Store := ⟨fun _ => 0, fun _ => 0⟩

/-- A ring in blank memory, at address 64 with its scratchpad at 4096. -/
def blankRing (b : Build) (cfg : Config) (scratchSize : BitVec b.sizeBits) : Rb :=
  cfg.fresh b (cfg.geometry b (BitVec.ofNat _ 64) (BitVec.ofNat _ 4096) scratchSize) blank

/-- One large slot. -/
def hugeSlot (slotSize : UInt32) : Config := { capacity := 2, slots := 1, slotSize }

/-- A single slot overlaps no other, so it only has to fit. -/
theorem hugeSlot_nonOverlapping (b : Build) {slotSize : UInt32} {size : BitVec b.sizeBits}
    (hle : slotSize.toNat ≤ size.toNat) (hne : slotSize ≠ 0) :
    (blankRing b (hugeSlot slotSize) size).geo.NonOverlapping := by
  have hsize : (blankRing b (hugeSlot slotSize) size).geo.slotSize = slotSize := if_pos hne
  refine ⟨fun i hi => ?_, fun i j hlt hj => ?_⟩
  · obtain rfl : i = 0 := Nat.lt_one_iff.mp hi
    rw [hsize, Nat.zero_mul, Nat.zero_add]
    exact hle
  · exact absurd (Nat.lt_one_iff.mp hj) (by omega)

/-- Two slots of 64 bytes, with all callbacks installed. -/
def smallConfig : Config where
  capacity := 2
  slots := 2
  slotSize := 64
  cb := { onSlotAdded := true, onLowD := true, onLowE := true, onFull := true }

def smallRing (mode : Mode) : Rb :=
  smallConfig.fresh { mode } (smallConfig.geometry { mode } 64#64 4096#64 128#64) blank

theorem smallRing_init (mode : Mode) :
    rbInit { mode } 64#64 (some smallConfig) 4096#64 128#64 blank = .ok (smallRing mode) := by
  cases mode <;> rfl

theorem smallRing_nonOverlapping (mode : Mode) : (smallRing mode).geo.NonOverlapping := by
  cases mode <;> exact Accepted.nonOverlapping_of_le (by decide) (by decide)

theorem smallRing_fits : Fits { mode := .index } (smallRing .index) := by
  have htarget : Build.Target { mode := .index } :=
    ⟨Or.inr rfl, 4, by decide, by decide, rfl⟩
  exact (rbInit_fits_iff htarget (smallRing_init .index)).mpr (by decide)

/-- A slot size within one alignment of `2 ^ 32` is rounded up to a stride of
zero: two slots of almost 4 GiB are accepted in a scratchpad of 4 KiB. -/
theorem rbInit_accepts_wrapped_stride : ∃ rb,
    rbInit { mode := .index } 64#64
        (some { capacity := 2, slots := 2, slotSize := 0xFFFFFFF8 })
        4096#64 4096#64 blank = .ok rb ∧
      rb.geo.slotStride = 0 ∧ ¬ Fits { mode := .index } rb := by
  refine ⟨_, rfl, rfl, ?_⟩
  intro hfits
  exact absurd hfits.size_le (by decide)

end RingBuff
