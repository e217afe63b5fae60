import RingBuff.Core.Ops

/-! # The message header

`rb_publish_ex` packs a length and a flag into one word and `rb_consume` unpacks
it. The flag always survives, the length as long as it needs 31 bits.
-/

namespace RingBuff

/-- The clamping of `rb_publish_ex` in one formula. -/
theorem clampWritten_eq (cap pendingWanted writtenLen : UInt32) (truncated : Bool) :
    clampWritten cap pendingWanted writtenLen truncated =
      (UInt32.ofNat (min writtenLen.toNat cap.toNat),
        truncated || cap < writtenLen || cap < pendingWanted) := by
  have hmin : UInt32.ofNat (min writtenLen.toNat cap.toNat) =
      if cap < writtenLen then cap else writtenLen := by
    split
    next hlt =>
      have hle := (UInt32.lt_iff_toNat_lt.mp hlt).le
      rw [Nat.min_eq_right hle, UInt32.ofNat_toNat]
    next hle =>
      have hle := UInt32.le_iff_toNat_le.mp (UInt32.not_lt.mp hle)
      rw [Nat.min_eq_left hle, UInt32.ofNat_toNat]
  rw [hmin, clampWritten]
  by_cases hlong : cap < writtenLen <;> by_cases hwant : cap < pendingWanted <;>
    simp [hlong, hwant]

theorem or_and_distrib (x y z : UInt32) : (x ||| y) &&& z = (x &&& z) ||| (y &&& z) := by
  apply UInt32.toNat_inj.mp
  rw [UInt32.toNat_and, UInt32.toNat_or, UInt32.toNat_or, UInt32.toNat_and, UInt32.toNat_and,
    Nat.and_or_distrib_right]

/-- The header keeps the low 31 bits of the length. -/
theorem headerLen_encodeHeader_toNat (len : UInt32) (truncated : Bool) :
    (headerLen (encodeHeader len truncated)).toNat = len.toNat % 2 ^ 31 := by
  have hmask : (len &&& slotLenMask).toNat = len.toNat % 2 ^ 31 := by
    rw [UInt32.toNat_and, show slotLenMask.toNat = 2 ^ 31 - 1 from rfl,
      Nat.and_two_pow_sub_one_eq_mod]
  have hflag : slotTruncated &&& slotLenMask = 0 := by decide
  have htwice : len &&& slotLenMask &&& slotLenMask = len &&& slotLenMask := by
    rw [UInt32.and_assoc, UInt32.and_self]
  cases truncated with
  | false => simp [headerLen, encodeHeader, htwice, hmask]
  | true => simp [headerLen, encodeHeader, or_and_distrib, hflag, htwice, hmask]

/-- A length below `2 ^ 31` survives the header. -/
theorem headerLen_encodeHeader {len : UInt32} (hlen : len.toNat < 2 ^ 31) (truncated : Bool) :
    headerLen (encodeHeader len truncated) = len := by
  apply UInt32.toNat_inj.mp
  rw [headerLen_encodeHeader_toNat, Nat.mod_eq_of_lt hlen]

theorem headerTruncated_encodeHeader (len : UInt32) (truncated : Bool) :
    headerTruncated (encodeHeader len truncated) = truncated := by
  have hmask : slotLenMask &&& slotTruncated = 0 := by decide
  have hclear : len &&& slotLenMask &&& slotTruncated = 0 := by
    rw [UInt32.and_assoc, hmask, UInt32.and_zero]
  have hflag : slotTruncated ≠ 0 := by decide
  cases truncated with
  | false => simp [headerTruncated, encodeHeader, hclear]
  | true => simp [headerTruncated, encodeHeader, or_and_distrib, hclear, hflag]

end RingBuff
