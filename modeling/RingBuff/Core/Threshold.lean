import RingBuff.Core.Ops

/-! # Low-water thresholds

`below_low` compares percentages. On exact numbers it is a comparison with a
threshold, and it can only become true when the occupancy falls.
-/

namespace RingBuff

/-- The least occupancy that is not below `percent` of `limit`. -/
def threshold (limit percent : Nat) : Nat := (limit * percent + 99) / 100

theorem below_iff {count limit percent : Nat} :
    below count limit percent = true ↔ count < threshold limit percent := by
  rcases Nat.eq_zero_or_pos percent with rfl | hpos
  · simp [below, threshold]
  · simp only [below, threshold, Bool.and_eq_true, decide_eq_true_eq, ne_eq]
    omega

theorem belowLow_ofNat {count : Nat} (hlt : count < 2 ^ 32) (limit percent : UInt32) :
    belowLow (UInt32.ofNat count) limit percent = below count limit.toNat percent.toNat := by
  rw [belowLow, Counter.toNat_of_lt hlt]

/-- A release never crosses a threshold upwards. -/
theorem below_of_below_succ {count limit percent : Nat}
    (hbelow : below (count + 1) limit percent = true) : below count limit percent = true := by
  rw [below_iff] at hbelow ⊢
  omega

theorem not_below_and_below_succ {count : Nat} (hlt : count + 1 < 2 ^ 32)
    (limit percent : UInt32) :
    (belowLow (UInt32.ofNat (count + 1)) limit percent &&
      !belowLow (UInt32.ofNat count) limit percent) = false := by
  rw [belowLow_ofNat hlt, belowLow_ofNat (Nat.lt_of_succ_lt hlt)]
  cases hbelow : below (count + 1) limit.toNat percent.toNat with
  | false => rfl
  | true => rw [below_of_below_succ hbelow]; rfl

end RingBuff
