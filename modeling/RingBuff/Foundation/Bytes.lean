import Mathlib.Order.Interval.Finset.Nat

/-! # Byte-addressed memory with 32-bit words

A memory maps offsets to bytes. A 32-bit word occupies four consecutive bytes,
least significant first. The lemmas below say what a store leaves behind: the
word itself, and every byte and word outside the four bytes it covers.
-/

namespace RingBuff

/-- A byte-addressed memory. -/
abbrev Memory : Type := Nat → UInt8

namespace Memory

/-- Store one byte. -/
def store8 (mem : Memory) (addr : Nat) (byte : UInt8) : Memory :=
  Function.update mem addr byte

/-- Byte `k` of a word, counted from the least significant one. -/
def wordByte (word : UInt32) (k : Nat) : UInt8 :=
  UInt8.ofNat (word.toNat / 256 ^ k)

/-- Store a word in the four bytes from `addr`. -/
def store32 (mem : Memory) (addr : Nat) (word : UInt32) : Memory := fun other =>
  if addr ≤ other ∧ other < addr + 4 then wordByte word (other - addr) else mem other

/-- Load the word in the four bytes from `addr`. -/
def load32 (mem : Memory) (addr : Nat) : UInt32 :=
  UInt32.ofNat ((mem addr).toNat + 256 * (mem (addr + 1)).toNat +
    65536 * (mem (addr + 2)).toNat + 16777216 * (mem (addr + 3)).toNat)

theorem store8_same (mem : Memory) (addr : Nat) (byte : UInt8) :
    store8 mem addr byte addr = byte := by
  simp [store8]

theorem store8_of_ne (mem : Memory) {addr other : Nat} (byte : UInt8) (hne : other ≠ addr) :
    store8 mem addr byte other = mem other := by
  simp [store8, hne]

/-- A word store changes only the four bytes it covers. -/
theorem store32_outside (mem : Memory) {addr other : Nat} (word : UInt32)
    (hout : other < addr ∨ addr + 4 ≤ other) : store32 mem addr word other = mem other := by
  have hnot : ¬ (addr ≤ other ∧ other < addr + 4) := by omega
  simp only [store32, if_neg hnot]

/-- A load only depends on the four bytes it covers. -/
theorem load32_congr {mem mem' : Memory} {addr : Nat}
    (heq : ∀ k < 4, mem (addr + k) = mem' (addr + k)) : load32 mem addr = load32 mem' addr := by
  have h0 := heq 0 (by omega)
  have h1 := heq 1 (by omega)
  have h2 := heq 2 (by omega)
  have h3 := heq 3 (by omega)
  simp only [Nat.add_zero] at h0
  simp only [load32, h0, h1, h2, h3]

theorem load32_store32_same (mem : Memory) (addr : Nat) (word : UInt32) :
    load32 (store32 mem addr word) addr = word := by
  have hlt := word.toNat_lt
  have hbyte : ∀ k < 4, (store32 mem addr word (addr + k)).toNat =
      word.toNat / 256 ^ k % 256 := by
    intro k hk
    simp [store32, wordByte, hk]
  have h0 := hbyte 0 (by omega)
  simp only [Nat.add_zero] at h0
  apply UInt32.toNat_inj.mp
  simp only [load32, h0, hbyte 1 (by omega), hbyte 2 (by omega), hbyte 3 (by omega),
    UInt32.toNat_ofNat']
  omega

/-- Words that share no byte do not disturb each other. -/
theorem load32_store32_disjoint (mem : Memory) {addr other : Nat} (word : UInt32)
    (hdisj : other + 4 ≤ addr ∨ addr + 4 ≤ other) :
    load32 (store32 mem addr word) other = load32 mem other := by
  apply load32_congr
  intro k hk
  exact store32_outside mem word (by omega)

theorem load32_store8_outside (mem : Memory) {addr other : Nat} (byte : UInt8)
    (hout : addr < other ∨ other + 4 ≤ addr) :
    load32 (store8 mem addr byte) other = load32 mem other := by
  apply load32_congr
  intro k hk
  exact store8_of_ne mem byte (by omega)

end Memory

end RingBuff
