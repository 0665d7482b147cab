import GoBlocks.Lib.BitArray
import Mathlib.Data.Nat.Count
import Mathlib.InformationTheory.Hamming

/-!
# The distance of bit arrays

The distance of two byte lists of the same length is the number of bit positions at
which they differ. It is the Hamming distance of their vectors of bits and hence a
metric. It adds up over the bytes, and the list of the joined bytes lies between the
two lists.
-/

namespace GoBlocks.BitArray

open Finset

/-- The union of two vectors of bits lies between them. -/
theorem hammingDist_or_add {ι : Type*} [Fintype ι] (x y : ι → Bool) :
    hammingDist x (fun i => x i || y i) + hammingDist (fun i => x i || y i) y =
      hammingDist x y := by
  simp only [hammingDist, card_filter]
  rw [← sum_add_distrib]
  refine sum_congr rfl fun i _ => ?_
  cases x i <;> cases y i <;> rfl

/-- The vector of the first bits. -/
def bits (n : ℕ) (f : List UInt8) (i : Fin n) : Bool := bit f i

/-- The number of places at which two bytes differ. -/
def byteDistance (x y : UInt8) : ℕ := #{k ∈ range 8 | x.toNat.testBit k ≠ y.toNat.testBit k}

/-- The number of bit positions at which two byte lists differ. -/
def distance (f g : List UInt8) : ℕ := #{j ∈ range (8 * f.length) | bit f j ≠ bit g j}

variable {f g h : List UInt8}

/-! ## A metric -/

/-- Lists of the same length with the same vector of bits are equal. -/
theorem eq_of_bits_eq (hlen : f.length = g.length)
    (hbits : bits (8 * f.length) f = bits (8 * f.length) g) : f = g := by
  refine eq_of_bit_eq hlen fun j => ?_
  by_cases hj : j < 8 * f.length
  · exact congrFun hbits ⟨j, hj⟩
  · rw [bit_of_length_le (by omega), bit_of_length_le (by omega)]

/-- The distance is the Hamming distance of the vectors of bits. -/
theorem distance_eq_hammingDist {n : ℕ} (hn : f.length = n) (g : List UInt8) :
    distance f g = hammingDist (bits (8 * n) f) (bits (8 * n) g) := by
  subst hn
  have hmap : {j ∈ range (8 * f.length) | bit f j ≠ bit g j} =
      ({i : Fin (8 * f.length) | bits _ f i ≠ bits _ g i} : Finset _).map Fin.valEmbedding := by
    ext j
    simp only [mem_filter, mem_range, mem_map, mem_univ, true_and, Fin.valEmbedding_apply]
    constructor
    · rintro ⟨hj, hne⟩
      exact ⟨⟨j, hj⟩, hne, rfl⟩
    · rintro ⟨i, hne, rfl⟩
      exact ⟨i.isLt, hne⟩
  rw [distance, hmap, card_map]
  rfl

/-- The distance is symmetric. -/
theorem distance_comm (hlen : f.length = g.length) : distance f g = distance g f := by
  rw [distance_eq_hammingDist hlen, distance_eq_hammingDist rfl, hammingDist_comm]

/-- Lists of the same length are at distance zero exactly if they are equal. -/
theorem distance_eq_zero_iff (hlen : f.length = g.length) : distance f g = 0 ↔ f = g := by
  rw [distance_eq_hammingDist rfl, hammingDist_eq_zero]
  constructor
  · exact eq_of_bits_eq hlen
  · rintro rfl
    rfl

/-- The triangle inequality. -/
theorem distance_triangle (hfg : f.length = g.length) :
    distance f h ≤ distance f g + distance g h := by
  rw [distance_eq_hammingDist rfl h, distance_eq_hammingDist rfl g,
    distance_eq_hammingDist hfg.symm h]
  exact hammingDist_triangle _ _ _

/-- The list of the joined bytes lies between the two lists. -/
theorem distance_or_add (hlen : f.length = g.length) :
    distance f (List.zipWith (· ||| ·) f g) + distance (List.zipWith (· ||| ·) f g) g =
      distance f g := by
  have hjoin : (List.zipWith (· ||| ·) f g).length = f.length := by
    rw [List.length_zipWith, ← hlen, Nat.min_self]
  have hbits : bits (8 * f.length) (List.zipWith (· ||| ·) f g) =
      fun i => bits _ f i || bits _ g i := funext fun i => bit_zipWith_or hlen i
  rw [distance_eq_hammingDist rfl, distance_eq_hammingDist hjoin, distance_eq_hammingDist rfl,
    hbits]
  exact hammingDist_or_add _ _

/-! ## Byte by byte -/

/-- The empty list has no bit to compare. -/
@[simp] theorem distance_nil (g : List UInt8) : distance [] g = 0 := rfl

/-- The distance adds up over the bytes. -/
theorem distance_cons (x y : UInt8) (f g : List UInt8) :
    distance (x :: f) (y :: g) = byteDistance x y + distance f g := by
  have hlength : 8 * (x :: f).length = 8 + 8 * f.length := by
    rw [List.length_cons]
    omega
  have hfirst : ∀ k ∈ range 8,
      bit (x :: f) k ≠ bit (y :: g) k ↔ x.toNat.testBit k ≠ y.toNat.testBit k := by
    intro k hk
    have hk : k < 8 := mem_range.mp hk
    rw [bit_cons_of_lt x f hk, bit_cons_of_lt y g hk]
  rw [distance, byteDistance, distance, hlength, ← filter_congr hfirst]
  simp only [← Nat.count_eq_card_filter_range, Nat.count_add, bit_cons_add]

/-- The distance adds up over parts of the same length. -/
theorem distance_append (hlen : f.length = g.length) (f' g' : List UInt8) :
    distance (f ++ f') (g ++ g') = distance f g + distance f' g' := by
  induction f generalizing g with
  | nil =>
    obtain rfl := List.length_eq_zero_iff.mp hlen.symm
    simp
  | cons x f ih =>
    cases g with
    | nil => cases hlen
    | cons y g =>
      have hrest : f.length = g.length := Nat.succ.inj hlen
      rw [List.cons_append, List.cons_append, distance_cons, distance_cons, ih hrest]
      omega

/-- The distance is that of the first bytes and that of the others. -/
theorem distance_take_add_drop (hlen : f.length = g.length) (n : ℕ) :
    distance (f.take n) (g.take n) + distance (f.drop n) (g.drop n) = distance f g := by
  have htake : (f.take n).length = (g.take n).length := by
    rw [List.length_take, List.length_take, hlen]
  rw [← distance_append htake, List.take_append_drop, List.take_append_drop]

end GoBlocks.BitArray
