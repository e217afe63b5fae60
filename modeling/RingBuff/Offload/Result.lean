import RingBuff.Foundation.Bytes
import Mathlib.Tactic.IntervalCases

/-! # The result of the offload example

`zo_fast_hash` and `struct zo_result` of `examples/zynq_offload/common.h`. The stub
stores a result field by field into a slot, the host reads it back through a
pointer to the slot; both sides use the same layout, least significant byte first.
-/

namespace RingBuff.Offload

/-- The loop body of `zo_fast_hash`. -/
def hashByte (h : UInt32) (byte : UInt8) : UInt32 := (h ^^^ byte.toUInt32) * 0x01000193

/-- Where `zo_fast_hash` starts. -/
def hashBasis : UInt32 := 0x811c9dc5

/-- `h` after the first `n` bytes. -/
def hashUpTo (data : Memory) : Nat → UInt32
  | 0 => hashBasis
  | n + 1 => hashByte (hashUpTo data n) (data n)

/-- `zo_fast_hash`. -/
def zoFastHash (data : Memory) (len : UInt32) : UInt32 := hashUpTo data len.toNat

/-- `struct zo_result` without its tag, which is a constant. -/
structure ZoResult where
  seq : UInt32
  hash : UInt32
  inLen : UInt32
  computeNs : UInt64
  deriving DecidableEq, Repr

namespace ZoResult

/-- `sizeof(struct zo_result)`. -/
def size : UInt32 := 24

/-- The letters of `tag`. -/
def tagByte (k : Nat) : UInt8 := ([0x48, 0x41, 0x53, 0x48] : List UInt8).getD k 0

/-- Byte `off` of the structure. -/
def byte (r : ZoResult) (off : Nat) : UInt8 :=
  if off < 4 then Memory.wordByte r.seq off
  else if off < 8 then Memory.wordByte r.hash (off - 4)
  else if off < 12 then Memory.wordByte r.inLen (off - 8)
  else if off < 16 then tagByte (off - 12)
  else UInt8.ofNat (r.computeNs.toNat / 256 ^ (off - 16))

/-- The offsets in the order of the stores: `seq`, `hash`, `in_len`, `compute_ns`
and then `tag`. -/
def storeOrder : List Nat :=
  [0, 1, 2, 3, 4, 5, 6, 7, 8, 9, 10, 11, 16, 17, 18, 19, 20, 21, 22, 23, 12, 13, 14, 15]

theorem mem_storeOrder {off : Nat} : off ∈ storeOrder ↔ off < size.toNat := by
  constructor
  · revert off
    decide
  · revert off
    decide

/-- The fields as loaded through a `const struct zo_result *`. -/
def load (obj : Memory) : ZoResult where
  seq := obj.load32 0
  hash := obj.load32 4
  inLen := obj.load32 8
  computeNs := (obj.load32 16).toUInt64 + (obj.load32 20).toUInt64 * 4294967296

/-- A word is loaded from its own bytes. -/
theorem load32_of_bytes {obj : Memory} {addr : Nat} {word : UInt32}
    (hbytes : ∀ k < 4, obj (addr + k) = Memory.wordByte word k) : obj.load32 addr = word := by
  have hsame : obj.load32 addr = (obj.store32 addr word).load32 addr := by
    apply Memory.load32_congr
    intro k hk
    rw [hbytes k hk, Memory.store32, if_pos (by omega), Nat.add_sub_cancel_left]
  rw [hsame, Memory.load32_store32_same]

/-- The bytes of a 64-bit word are the bytes of its two halves. -/
theorem byte_of_half {n k : Nat} (hk : k < 4) :
    UInt8.ofNat (n / 256 ^ k) = Memory.wordByte (UInt32.ofNat n) k := by
  apply UInt8.toNat_inj.mp
  rw [Memory.wordByte, UInt8.toNat_ofNat', UInt8.toNat_ofNat', UInt32.toNat_ofNat']
  interval_cases k <;> omega

theorem byte_computeNs (r : ZoResult) (k : Nat) :
    r.byte (16 + k) = UInt8.ofNat (r.computeNs.toNat / 256 ^ k) := by
  rw [byte, if_neg (by omega), if_neg (by omega), if_neg (by omega), if_neg (by omega),
    Nat.add_sub_cancel_left]

theorem load_computeNs {obj : Memory} {r : ZoResult}
    (hbytes : ∀ off < size.toNat, obj off = r.byte off) : (load obj).computeNs = r.computeNs := by
  have hlow : obj.load32 16 = UInt32.ofNat r.computeNs.toNat := by
    apply load32_of_bytes
    intro k hk
    have hin : 16 + k < size.toNat := (Nat.add_lt_add_left hk 16).trans (by decide)
    rw [hbytes (16 + k) hin, byte_computeNs, byte_of_half hk]
  have hhigh : obj.load32 20 = UInt32.ofNat (r.computeNs.toNat / 4294967296) := by
    apply load32_of_bytes
    intro k hk
    rw [hbytes (20 + k) (Nat.add_lt_add_left hk 20), show 20 + k = 16 + (4 + k) by omega,
      byte_computeNs, ← byte_of_half hk, Nat.div_div_eq_div_mul, pow_add]
    rfl
  have hlt := r.computeNs.toNat_lt
  apply UInt64.toNat_inj.mp
  simp only [load, hlow, hhigh, UInt64.toNat_add, UInt64.toNat_mul, UInt32.toNat_toUInt64,
    UInt32.toNat_ofNat', UInt64.reduceToNat]
  omega

/-- The host reads what the stub stored. -/
theorem load_of_bytes {obj : Memory} {r : ZoResult}
    (hbytes : ∀ off < size.toNat, obj off = r.byte off) : load obj = r := by
  have hword : ∀ (addr : Nat) (word : UInt32), addr + 4 ≤ size.toNat →
      (∀ k < 4, r.byte (addr + k) = Memory.wordByte word k) → obj.load32 addr = word := by
    intro addr word haddr hbyte
    apply load32_of_bytes
    intro k hk
    rw [hbytes _ (by omega), hbyte k hk]
  have hns := load_computeNs hbytes
  obtain ⟨seq, hash, inLen, computeNs⟩ := r
  simp only [load, mk.injEq] at hns ⊢
  refine ⟨hword 0 seq (by decide) ?_, hword 4 hash (by decide) ?_, hword 8 inLen (by decide) ?_,
    hns⟩
  all_goals
    intro k hk
    interval_cases k <;> rfl

end ZoResult

end RingBuff.Offload
