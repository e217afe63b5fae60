import Mathlib.Data.Nat.ModEq
import Mathlib.Data.Nat.Prime.Pow
import Mathlib.Order.Interval.Finset.Nat

/-! # Free-running 32-bit counters

A free-running counter only ever advances and is allowed to wrap. It is read
through the unbounded number it stands for: a counter `c` stands for `n` when
`c = UInt32.ofNat n`. Differences and equalities of two such counters are exact
as long as the numbers they stand for are less than one lap apart.
-/

namespace RingBuff.Counter

theorem toNat_ofNat (n : Nat) : (UInt32.ofNat n).toNat = n % 2 ^ 32 := by
  simp

theorem toNat_lt (c : UInt32) : c.toNat < 2 ^ 32 := by
  simpa using c.toNat_lt

theorem ofNat_succ (n : Nat) : UInt32.ofNat (n + 1) = UInt32.ofNat n + 1 := by
  rw [UInt32.ofNat_add]
  rfl

/-- The wrapped difference of two counters is the exact distance. -/
theorem toNat_sub {m n : Nat} (hle : m ≤ n) (hlap : n - m < 2 ^ 32) :
    (UInt32.ofNat n - UInt32.ofNat m).toNat = n - m := by
  rw [UInt32.toNat_sub, toNat_ofNat, toNat_ofNat]
  omega

/-- Two counters less than one lap apart agree only when nothing lies between. -/
theorem ofNat_inj {m n : Nat} (hle : m ≤ n) (hlap : n - m < 2 ^ 32) :
    UInt32.ofNat m = UInt32.ofNat n ↔ m = n := by
  rw [← UInt32.toNat_inj, toNat_ofNat, toNat_ofNat]
  omega

theorem le_toNat_sub {m n : Nat} {bound : UInt32} (hle : m ≤ n) (hlap : n - m < 2 ^ 32) :
    bound ≤ UInt32.ofNat n - UInt32.ofNat m ↔ bound.toNat ≤ n - m := by
  rw [UInt32.le_iff_toNat_le, toNat_sub hle hlap]

/-- A counter that has not completed its first lap is the number itself. -/
theorem toNat_of_lt {n : Nat} (hlap : n < 2 ^ 32) : (UInt32.ofNat n).toNat = n := by
  rw [toNat_ofNat, Nat.mod_eq_of_lt hlap]

/-! ## Powers of two -/

/-- The power-of-two test `x != 0 && (x & (x - 1)) == 0`. -/
def isPow2 (x : UInt32) : Bool := x ≠ 0 && x &&& (x - 1) = 0

theorem isPow2_iff (x : UInt32) : isPow2 x = true ↔ x.toNat.isPowerOfTwo := by
  rw [← Nat.ne_zero_and_sub_one_eq_zero_iff_isPowerOfTwo]
  by_cases hzero : x = 0
  · simp [isPow2, hzero]
  · have hpos : x.toNat ≠ 0 := fun h => hzero (UInt32.toNat_inj.mp h)
    have hsub : (x - 1).toNat = x.toNat - 1 := by
      rw [UInt32.toNat_sub_of_le _ _ (by rw [UInt32.le_iff_toNat_le]; simp; omega)]
      rfl
    simp [isPow2, hzero, hpos, ← UInt32.toNat_inj, hsub]

theorem dvd_of_isPow2 {x : UInt32} (hpow : isPow2 x = true) : x.toNat ∣ 2 ^ 32 := by
  obtain ⟨k, hk⟩ := (isPow2_iff x).mp hpow
  have hlt := toNat_lt x
  rw [hk] at hlt ⊢
  exact Nat.pow_dvd_pow 2 ((Nat.pow_lt_pow_iff_right (by decide : 1 < 2)).mp hlt).le

/-- A lap leaves nothing over exactly for powers of two. -/
theorem lap_mod_eq_zero_iff {x : UInt32} : 2 ^ 32 % x.toNat = 0 ↔ isPow2 x = true := by
  refine ⟨fun hzero => ?_, fun hpow => Nat.mod_eq_zero_of_dvd (dvd_of_isPow2 hpow)⟩
  obtain ⟨k, -, hk⟩ := (Nat.dvd_prime_pow Nat.prime_two).mp (Nat.dvd_of_mod_eq_zero hzero)
  exact (isPow2_iff x).mpr ⟨k, hk⟩

/-- Masking with a power of two less one is the remainder. -/
theorem toNat_and_sub_one (c : UInt32) {x : UInt32} (hpow : isPow2 x = true) :
    (c &&& (x - 1)).toNat = c.toNat % x.toNat := by
  obtain ⟨k, hk⟩ := (isPow2_iff x).mp hpow
  have hpos : 0 < x.toNat := by rw [hk]; exact Nat.two_pow_pos k
  have hsub : (x - 1).toNat = x.toNat - 1 := by
    rw [UInt32.toNat_sub_of_le _ _ (by rw [UInt32.le_iff_toNat_le]; simp; omega)]
    rfl
  rw [UInt32.toNat_and, hsub, hk, Nat.and_two_pow_sub_one_eq_mod]

/-! ## Windows of consecutive numbers -/

/-- Distinct numbers less than `n` apart have distinct remainders modulo `n`. -/
theorem mod_ne_of_lt {p q n : Nat} (hlt : p < q) (hwindow : q < p + n) :
    p % n ≠ q % n := by
  intro heq
  have hinj := Nat.mod_injOn_Ico p n
    (by simp; omega : p ∈ (Finset.Ico p (p + n) : Set Nat))
    (by simp; omega : q ∈ (Finset.Ico p (p + n) : Set Nat)) heq
  omega

/-- Numbers less than `n` apart get the same remainder after wrapping exactly if
the counter has wrapped between them and a lap leaves their distance over. -/
theorem wrapped_mod_eq_iff {p q n : Nat} (hlt : p < q) (hwindow : q < p + n) (hn : n ≤ 2 ^ 32) :
    p % 2 ^ 32 % n = q % 2 ^ 32 % n ↔ q % 2 ^ 32 < q - p ∧ 2 ^ 32 % n = q - p := by
  by_cases hwrapped : q % 2 ^ 32 < q - p
  · have hback : p % 2 ^ 32 = 2 ^ 32 - (q - p) + q % 2 ^ 32 := by omega
    have hdist : (q - p) % n = q - p := Nat.mod_eq_of_lt (by omega)
    have hcancel : (2 ^ 32 - (q - p) + q % 2 ^ 32) % n = q % 2 ^ 32 % n ↔
        n ∣ 2 ^ 32 - (q - p) := Nat.add_modEq_right_iff
    rw [hback, hcancel, ← Nat.modEq_iff_dvd' (by omega), Nat.ModEq, hdist]
    simp only [hwrapped, true_and, eq_comm]
  · have hback : p % 2 ^ 32 = q % 2 ^ 32 - (q - p) := by omega
    rw [hback]
    exact iff_of_false (mod_ne_of_lt (by omega) (by omega)) fun h => hwrapped h.1

/-- The remainder of a wrapped counter is the remainder of the number it stands
for, when the modulus divides the lap or the counter has not wrapped. -/
theorem toNat_ofNat_mod {n : Nat} (p : Nat) (hwrap : n ∣ 2 ^ 32 ∨ p < 2 ^ 32) :
    (UInt32.ofNat p).toNat % n = p % n := by
  rw [toNat_ofNat]
  rcases hwrap with hdvd | hlt
  · exact Nat.mod_mod_of_dvd p hdvd
  · rw [Nat.mod_eq_of_lt hlt]

end RingBuff.Counter
