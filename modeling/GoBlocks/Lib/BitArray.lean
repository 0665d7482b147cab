import Mathlib.Data.Nat.Bitwise
import Mathlib.Data.UInt

/-!
# Bytes as arrays of bits

A list of bytes holds eight bits in each byte, the bit with index `i` in the byte
`i / 8` at the place `i % 8`. Setting a bit and joining two lists byte by byte are
described by their effect on the bits, and the bits determine the list.
-/

namespace GoBlocks.BitArray

/-- The bit with the index. Beyond the end all bits are unset. -/
def bit (f : List UInt8) (i : ℕ) : Bool := (f.getD (i / 8) 0).toNat.testBit (i % 8)

/-- The bits of the first byte. -/
theorem bit_cons_of_lt (b : UInt8) (f : List UInt8) {i : ℕ} (hi : i < 8) :
    bit (b :: f) i = b.toNat.testBit i := by
  rw [bit, Nat.div_eq_of_lt hi, Nat.mod_eq_of_lt hi, List.getD_cons_zero]

/-- The bits after the first byte. -/
theorem bit_cons_add (b : UInt8) (f : List UInt8) (i : ℕ) : bit (b :: f) (8 + i) = bit f i := by
  have hdiv : (8 + i) / 8 = i / 8 + 1 := by omega
  have hmod : (8 + i) % 8 = i % 8 := by omega
  rw [bit, bit, hdiv, hmod, List.getD_cons_succ]

/-- Beyond the end no bit is set. -/
theorem bit_of_length_le {f : List UInt8} {i : ℕ} (hi : f.length ≤ i / 8) : bit f i = false := by
  rw [bit, List.getD_eq_default _ _ hi]
  exact Nat.zero_testBit _

/-- The bits of the first bytes. -/
theorem bit_take (f : List UInt8) {n i : ℕ} (hi : i / 8 < n) : bit (f.take n) i = bit f i := by
  rw [bit, bit, List.getD_eq_getElem?_getD, List.getElem?_take_of_lt hi,
    ← List.getD_eq_getElem?_getD]

/-- The bits of the bytes after the first ones. -/
theorem bit_drop (f : List UInt8) (n i : ℕ) : bit (f.drop n) i = bit f (8 * n + i) := by
  have hdiv : (8 * n + i) / 8 = n + i / 8 := by omega
  have hmod : (8 * n + i) % 8 = i % 8 := by omega
  rw [bit, bit, hdiv, hmod, List.getD_eq_getElem?_getD, List.getElem?_drop,
    ← List.getD_eq_getElem?_getD]

/-- A shifted one, as long as it stays inside the byte. -/
theorem toNat_one_shiftLeft {k : UInt8} (hk : k.toNat < 8) :
    ((1 : UInt8) <<< k).toNat = 2 ^ k.toNat := by
  have hpow : 2 ^ k.toNat < 2 ^ 8 := Nat.pow_lt_pow_right (by omega) hk
  rw [UInt8.toNat_shiftLeft, Nat.mod_eq_of_lt hk, Nat.shiftLeft_eq, UInt8.toNat_one, Nat.one_mul,
    Nat.mod_eq_of_lt hpow]

/-- Masking with a shifted one tests a bit. -/
theorem and_one_shiftLeft_ne_zero {b k : UInt8} (hk : k.toNat < 8) :
    b &&& ((1 : UInt8) <<< k) ≠ 0 ↔ b.toNat.testBit k.toNat = true := by
  have hzero : b &&& ((1 : UInt8) <<< k) = 0 ↔ b.toNat &&& 2 ^ k.toNat = 0 := by
    rw [← UInt8.toNat_inj, UInt8.toNat_and, toNat_one_shiftLeft hk]
    rfl
  rw [ne_eq, hzero, Nat.and_two_pow]
  cases b.toNat.testBit k.toNat <;> simp

/-- Joining with a shifted one sets a bit. -/
theorem testBit_or_one_shiftLeft {b k : UInt8} (hk : k.toNat < 8) (j : ℕ) :
    (b ||| ((1 : UInt8) <<< k)).toNat.testBit j = (b.toNat.testBit j || decide (k.toNat = j)) := by
  rw [UInt8.toNat_or, toNat_one_shiftLeft hk, Nat.testBit_or, Nat.testBit_two_pow]

/-- Two indices agree if their bytes and places do. -/
theorem index_eq_iff {i j : ℕ} : i = j ↔ i / 8 = j / 8 ∧ i % 8 = j % 8 := by omega

/-- Setting a bit sets that bit and no other. -/
theorem bit_set {f : List UInt8} {i : ℕ} (hi : i / 8 < f.length) {k : UInt8} (hk : k.toNat = i % 8)
    (j : ℕ) :
    bit (f.set (i / 8) (f.getD (i / 8) 0 ||| ((1 : UInt8) <<< k))) j =
      (bit f j || decide (i = j)) := by
  have hlt : k.toNat < 8 := by omega
  by_cases hbyte : i / 8 = j / 8
  · have hj : decide (i = j) = decide (i % 8 = j % 8) := by
      rw [decide_eq_decide, index_eq_iff]
      exact ⟨fun h => h.2, fun h => ⟨hbyte, h⟩⟩
    rw [bit, bit, hj, ← hbyte, List.getD_eq_getElem?_getD, List.getElem?_set_self hi,
      Option.getD_some,
      testBit_or_one_shiftLeft hlt, hk]
  · have hne : i ≠ j := fun h => hbyte (by rw [h])
    rw [bit, bit, List.getD_eq_getElem?_getD, List.getElem?_set_ne hbyte,
      ← List.getD_eq_getElem?_getD]
    simp [hne]

/-- Joining byte by byte unites the bits. -/
theorem bit_zipWith_or {f g : List UInt8} (hlen : f.length = g.length) (j : ℕ) :
    bit (List.zipWith (· ||| ·) f g) j = (bit f j || bit g j) := by
  simp only [bit, List.getD_eq_getElem?_getD, List.getElem?_zipWith]
  by_cases hj : j / 8 < f.length
  · have hj' : j / 8 < g.length := by omega
    simp [List.getElem?_eq_getElem hj, List.getElem?_eq_getElem hj', UInt8.toNat_or, Nat.testBit_or]
  · have hf : f[j / 8]? = none := List.getElem?_eq_none (by omega)
    have hg : g[j / 8]? = none := List.getElem?_eq_none (by omega)
    simp [hf, hg]

/-- In a list of zero bytes no bit is set. -/
theorem bit_replicate_zero (n j : ℕ) : bit (List.replicate n 0) j = false := by
  have hbyte : (List.replicate n (0 : UInt8)).getD (j / 8) 0 = 0 := by
    rw [List.getD_eq_getElem?_getD, List.getElem?_replicate]
    split <;> rfl
  rw [bit, hbyte]
  simp

/-- Lists of the same length with the same bits are equal. -/
theorem eq_of_bit_eq {f g : List UInt8} (hlen : f.length = g.length) (h : ∀ j, bit f j = bit g j) :
    f = g := by
  refine List.ext_getElem hlen fun i hi hi' => ?_
  apply UInt8.toNat_inj.mp
  apply Nat.eq_of_testBit_eq
  intro k
  by_cases hk : k < 8
  · have hdiv : (8 * i + k) / 8 = i := by omega
    have hmod : (8 * i + k) % 8 = k := by omega
    have hbit := h (8 * i + k)
    simpa [bit, hdiv, hmod, List.getD_eq_getElem?_getD, List.getElem?_eq_getElem hi,
      List.getElem?_eq_getElem hi'] using hbit
  · -- a byte has no bits beyond the eighth
    have hpow : 2 ^ 8 ≤ 2 ^ k := Nat.pow_le_pow_right (by omega) (by omega)
    rw [Nat.testBit_lt_two_pow ((f[i]).toNat_lt.trans_le hpow),
      Nat.testBit_lt_two_pow ((g[i]).toNat_lt.trans_le hpow)]

end GoBlocks.BitArray
