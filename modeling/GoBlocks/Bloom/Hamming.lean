import GoBlocks.Bloom.Indexing
import GoBlocks.Lib.BitDistance
import Mathlib.Data.FinEnum

/-!
# The Hamming distance of filters

`HammingDistance` looks up the number of set bits of each pair of joined bytes in a
table and adds these numbers up. The result is the number of bit positions at which
two filters differ, and hence a metric. `getBit` takes positions of 32 bits, so it
sees all of them exactly if the filters agree from byte `2 ^ 29` on. Filters that are
made by calls do.
-/

namespace GoBlocks

open Finset

/-! ## The package `hamming` -/

namespace Hamming

/-- The number of set bits of each byte. -/
def table : List UInt8 :=
  [ 0, 1, 1, 2, 1, 2, 2, 3, 1, 2, 2, 3, 2, 3, 3, 4, 1, 2, 2, 3, 2, 3, 3, 4, 2, 3, 3, 4, 3, 4, 4, 5,
    1, 2, 2, 3, 2, 3, 3, 4, 2, 3, 3, 4, 3, 4, 4, 5, 2, 3, 3, 4, 3, 4, 4, 5, 3, 4, 4, 5, 4, 5, 5, 6,
    1, 2, 2, 3, 2, 3, 3, 4, 2, 3, 3, 4, 3, 4, 4, 5, 2, 3, 3, 4, 3, 4, 4, 5, 3, 4, 4, 5, 4, 5, 5, 6,
    2, 3, 3, 4, 3, 4, 4, 5, 3, 4, 4, 5, 4, 5, 5, 6, 3, 4, 4, 5, 4, 5, 5, 6, 4, 5, 5, 6, 5, 6, 6, 7,
    1, 2, 2, 3, 2, 3, 3, 4, 2, 3, 3, 4, 3, 4, 4, 5, 2, 3, 3, 4, 3, 4, 4, 5, 3, 4, 4, 5, 4, 5, 5, 6,
    2, 3, 3, 4, 3, 4, 4, 5, 3, 4, 4, 5, 4, 5, 5, 6, 3, 4, 4, 5, 4, 5, 5, 6, 4, 5, 5, 6, 5, 6, 6, 7,
    2, 3, 3, 4, 3, 4, 4, 5, 3, 4, 4, 5, 4, 5, 5, 6, 3, 4, 4, 5, 4, 5, 5, 6, 4, 5, 5, 6, 5, 6, 6, 7,
    3, 4, 4, 5, 4, 5, 5, 6, 4, 5, 5, 6, 5, 6, 6, 7, 4, 5, 5, 6, 5, 6, 6, 7, 5, 6, 6, 7, 6, 7, 7, 8]

/-- `CountBitsByte`. The table has an entry for each byte. -/
def countBitsByte (x : UInt8) : ℕ := (table.getD x.toNat 0).toNat

/-- `Byte`: the distance of two bytes. -/
def byte (x y : UInt8) : ℕ := countBitsByte (x ^^^ y)

/-- The table has the numbers of set bits. -/
theorem countBitsByte_eq (x : UInt8) : countBitsByte x = #{k ∈ range 8 | x.toNat.testBit k} := by
  have htable : ∀ n < 256, (table.getD n 0).toNat = #{k ∈ range 8 | n.testBit k} := by
    decide +kernel
  exact htable x.toNat x.toNat_lt

/-- `Byte` counts the places at which two bytes differ. -/
theorem byte_eq (x y : UInt8) : byte x y = BitArray.byteDistance x y := by
  rw [byte, countBitsByte_eq, BitArray.byteDistance]
  refine congrArg card (filter_congr fun k _ => ?_)
  rw [UInt8.toNat_xor, Nat.testBit_xor, bne_iff_ne]

end Hamming

namespace Bloom

/-! ## `HammingDistance` -/

/-- The loop of `HammingDistance`, with `none` for an index out of range. -/
def hammingLoop : List UInt8 → List UInt8 → ℕ → Option ℕ
  | [], _, acc => some acc
  | _ :: _, [], _ => none
  | x :: f, y :: g, acc => hammingLoop f g (acc + Hamming.byte x y)

/-- The errors of `HammingDistance`. -/
inductive HammingErr where
  /-- `Unsupported filter type`. -/
  | unsupported
  /-- `filter lengths must match!`. -/
  | lengths
  deriving DecidableEq

/-- `HammingDistance`. It changes nothing. -/
def Heap.hammingDistance (s : Heap) (f : ℕ) : Operand → Option (Except HammingErr ℕ)
  | .foreign => if f < s.filters.length then some (.error .unsupported) else none
  | .filter g =>
    match s.filters[f]?, s.filters[g]? with
    | some filt, some casfil =>
      if filt.filter.length ≠ casfil.filter.length then some (.error .lengths)
      else (hammingLoop filt.filter casfil.filter 0).map .ok
    | _, _ => none

/-- `HammingDistance` of two filters returns this number. -/
def Heap.Distance (s : Heap) (f g d : ℕ) : Prop := s.hammingDistance f (.filter g) = some (.ok d)

/-- The loop adds the number of differing bits. -/
theorem hammingLoop_eq {f g : List UInt8} (hlen : f.length = g.length) (acc : ℕ) :
    hammingLoop f g acc = some (acc + BitArray.distance f g) := by
  induction f generalizing g acc with
  | nil => simp [hammingLoop]
  | cons x f ih =>
    cases g with
    | nil => cases hlen
    | cons y g =>
      have hrest : f.length = g.length := Nat.succ.inj hlen
      rw [hammingLoop, ih hrest, BitArray.distance_cons, Hamming.byte_eq, Nat.add_assoc]

section Distance

variable {s : Heap} {i j : ℕ} {f g : Filter}

/-- `HammingDistance` of filters of the same length is the number of differing bits. -/
theorem distance_of_length_eq (hf : s.filters[i]? = some f) (hg : s.filters[j]? = some g)
    (hlen : f.filter.length = g.filter.length) :
    s.Distance i j (BitArray.distance f.filter g.filter) := by
  simp only [Heap.Distance, Heap.hammingDistance, hf, hg, if_neg (not_not.mpr hlen),
    hammingLoop_eq hlen, Nat.zero_add, Option.map_some]

/-- The merged filter lies between the two filters. -/
theorem exists_merge_between (hf : s.filters[i]? = some f) (hg : s.filters[j]? = some g)
    (hlen : f.filter.length = g.filter.length) (hk : f.k = g.k) :
    ∃ t m a b, s.merge i (.filter j) = some (t, .filter m) ∧ t.Distance i m a ∧ t.Distance m j b ∧
      a + b = BitArray.distance f.filter g.filter := by
  let joined : Filter := ⟨List.zipWith (· ||| ·) f.filter g.filter, f.hash, f.k⟩
  have hmerge : s.merge i (.filter j) =
      some ({ s with filters := s.filters ++ [joined] }, .filter s.filters.length) := by
    simp only [Heap.merge, hf, hg, hlen, hk, ne_eq, not_true_eq_false, if_false, joined]
  have hjoin : joined.filter.length = f.filter.length := by
    rw [List.length_zipWith, ← hlen, Nat.min_self]
  have hf' : (s.filters ++ [joined])[i]? = some f := by
    rw [List.getElem?_append_left (List.getElem?_eq_some_iff.mp hf).1, hf]
  have hg' : (s.filters ++ [joined])[j]? = some g := by
    rw [List.getElem?_append_left (List.getElem?_eq_some_iff.mp hg).1, hg]
  have hnew : (s.filters ++ [joined])[s.filters.length]? = some joined :=
    List.getElem?_concat_length ..
  exact ⟨_, _, _, _, hmerge, distance_of_length_eq hf' hnew hjoin.symm,
    distance_of_length_eq hnew hg' (hjoin.trans hlen), BitArray.distance_or_add hlen⟩

end Distance

/-! ## The positions of `getBit` -/

/-- `getBit` beyond the filter is out of range. -/
theorem getBit_eq_none {filter : List UInt8} {p : UInt32} (hp : filter.length ≤ p.toNat / 8) :
    getBit filter p = none := by
  rw [getBit, toNat_div_eight, List.getElem?_eq_none hp, Option.map_none]

/-- `getBit` differs at the positions of the first `2 ^ 29` bytes at which the bits differ. -/
theorem card_getBit_ne {f g : List UInt8} (hlen : f.length = g.length) :
    #{p : UInt32 | getBit f p ≠ getBit g p} =
      BitArray.distance (f.take (2 ^ 29)) (g.take (2 ^ 29)) := by
  -- with a name for the number it is not unfolded
  generalize hbytes : 2 ^ 29 = bytes
  have hlength : (f.take bytes).length = min bytes f.length := List.length_take
  have himage : ({p : UInt32 | getBit f p ≠ getBit g p} : Finset UInt32).image UInt32.toNat =
      {n ∈ range (8 * (f.take bytes).length) |
        BitArray.bit (f.take bytes) n ≠ BitArray.bit (g.take bytes) n} := by
    ext n
    simp only [mem_image, mem_filter, mem_univ, true_and, mem_range, hlength]
    constructor
    · rintro ⟨p, hne, rfl⟩
      have hlt := p.toNat_lt
      by_cases hp : p.toNat / 8 < f.length
      · rw [getBit_eq hp, getBit_eq (hlen ▸ hp), ne_eq, Option.some_inj] at hne
        rw [BitArray.bit_take f (by omega), BitArray.bit_take g (by omega)]
        exact ⟨by omega, hne⟩
      · rw [getBit_eq_none (by omega), getBit_eq_none (by omega)] at hne
        exact absurd rfl hne
    · rintro ⟨hn, hne⟩
      have hlt : n < 2 ^ 32 := by omega
      have hofNat : (UInt32.ofNat n).toNat = n := UInt32.toNat_ofNat_of_lt hlt
      rw [BitArray.bit_take f (by omega), BitArray.bit_take g (by omega)] at hne
      refine ⟨UInt32.ofNat n, ?_, hofNat⟩
      rwa [getBit_eq (by omega), getBit_eq (by omega), ne_eq, Option.some_inj, hofNat]
  rw [BitArray.distance, ← himage, card_image_of_injective _ fun _ _ => UInt32.toNat_inj.mp]

/-- `getBit` sees all differing positions exactly if the filters agree from byte `2 ^ 29` on. -/
theorem distance_eq_card_getBit_iff {f g : List UInt8} (hlen : f.length = g.length) :
    BitArray.distance f g = #{p : UInt32 | getBit f p ≠ getBit g p} ↔
      f.drop (2 ^ 29) = g.drop (2 ^ 29) := by
  rw [card_getBit_ne hlen]
  generalize 2 ^ 29 = bytes
  have hdrop : (f.drop bytes).length = (g.drop bytes).length := by
    rw [List.length_drop, List.length_drop, hlen]
  rw [← BitArray.distance_take_add_drop hlen bytes, ← BitArray.distance_eq_zero_iff hdrop]
  omega

/-! ## The metric -/

/-- **`HammingDistance` is the metric of the symmetric difference.** For filters of the same
length with any contents it is the number of bit positions at which they differ. `getBit`
tests these bits, and the positions at which it differs are all of them exactly if the filters
agree from byte `2 ^ 29` on, as filters that are made by calls do. The distance is symmetric,
zero exactly for equal contents, and satisfies the triangle inequality, and the merged filter
lies between the two filters. -/
theorem hammingDistance_metric (s : Heap) (i j l : ℕ) (f g h : Filter)
    (hf : s.filters[i]? = some f) (hg : s.filters[j]? = some g) (hh : s.filters[l]? = some h)
    (hfg : f.filter.length = g.filter.length) (hgh : g.filter.length = h.filter.length) :
    ∃ a b c, s.Distance i j a ∧ s.Distance j l b ∧ s.Distance i l c ∧
      a = #{p ∈ range (8 * f.filter.length) |
        BitArray.bit f.filter p ≠ BitArray.bit g.filter p} ∧
      (∀ p : UInt32, p.toNat / 8 < f.filter.length →
        getBit f.filter p = some (BitArray.bit f.filter p.toNat) ∧
          getBit g.filter p = some (BitArray.bit g.filter p.toNat)) ∧
      (a = #{p : UInt32 | getBit f.filter p ≠ getBit g.filter p} ↔
        f.filter.drop (2 ^ 29) = g.filter.drop (2 ^ 29)) ∧
      ((∃ hist, Heap.lts.Run .empty hist s) →
        a = #{p : UInt32 | getBit f.filter p ≠ getBit g.filter p}) ∧
      s.Distance j i a ∧ (a = 0 ↔ f.filter = g.filter) ∧ c ≤ a + b ∧
      (f.k = g.k → ∃ t m a₁ a₂, s.merge i (.filter j) = some (t, .filter m) ∧
        t.Distance i m a₁ ∧ t.Distance m j a₂ ∧ a₁ + a₂ = a) := by
  have hsymm : s.Distance j i (BitArray.distance f.filter g.filter) := by
    rw [BitArray.distance_comm hfg]
    exact distance_of_length_eq hg hf hfg.symm
  have hbits : ∀ p : UInt32, p.toNat / 8 < f.filter.length →
      getBit f.filter p = some (BitArray.bit f.filter p.toNat) ∧
        getBit g.filter p = some (BitArray.bit g.filter p.toNat) := by
    intro p hp
    exact ⟨getBit_eq hp, getBit_eq (hfg ▸ hp)⟩
  have hmade : (∃ hist, Heap.lts.Run .empty hist s) →
      BitArray.distance f.filter g.filter =
        #{p : UInt32 | getBit f.filter p ≠ getBit g.filter p} := by
    rintro ⟨hist, hrun⟩
    exact (distance_eq_card_getBit_iff hfg).mpr ((Addressable.run hrun).drop_eq
      (List.mem_of_getElem? hf) (List.mem_of_getElem? hg) hfg)
  exact ⟨BitArray.distance f.filter g.filter, BitArray.distance g.filter h.filter,
    BitArray.distance f.filter h.filter, distance_of_length_eq hf hg hfg,
    distance_of_length_eq hg hh hgh, distance_of_length_eq hf hh (hfg.trans hgh), rfl, hbits,
    distance_eq_card_getBit_iff hfg, hmade, hsymm, BitArray.distance_eq_zero_iff hfg,
    BitArray.distance_triangle hfg, exists_merge_between hf hg hfg⟩

/-- Two filters of one byte that differ in two bits, and their merged filter between them. -/
theorem hammingDistance_metric_one_byte :
    ∃ s : Heap, s.filters = [⟨[5], 0, 3⟩, ⟨[3], 0, 3⟩] ∧ s.Distance 0 1 2 ∧
      ∃ t m a b, s.merge 0 (.filter 1) = some (t, .filter m) ∧ t.Distance 0 m a ∧
        t.Distance m 1 b ∧ a + b = 2 := by
  obtain ⟨a, b, c, hab, -, -, ha, -, -, -, -, -, -, hmerge⟩ :=
    hammingDistance_metric ⟨[0], [⟨[5], 0, 3⟩, ⟨[3], 0, 3⟩]⟩ 0 1 1 _ _ _ rfl rfl rfl rfl rfl
  have htwo : a = 2 := by
    rw [ha]
    decide
  subst htwo
  exact ⟨_, rfl, hab, hmerge rfl⟩

/-- Filters of `2 ^ 29 + 1` bytes that differ in the last byte: their distance is one, and
`getBit` differs at no position. -/
theorem hammingDistance_beyond_getBit :
    Heap.Distance ⟨[0, 0], [⟨List.replicate (2 ^ 29) 0 ++ [1], 0, 3⟩,
      ⟨List.replicate (2 ^ 29) 0 ++ [0], 1, 3⟩]⟩ 0 1 1 ∧
    #{p : UInt32 | getBit (List.replicate (2 ^ 29) 0 ++ [1]) p ≠
      getBit (List.replicate (2 ^ 29) 0 ++ [0]) p} = 0 := by
  have hlen : ∀ n (x y : UInt8), (List.replicate n (0 : UInt8) ++ [x]).length =
      (List.replicate n (0 : UInt8) ++ [y]).length := by
    intro n x y
    rw [List.length_append, List.length_append, List.length_singleton, List.length_singleton]
  have hself : ∀ n, BitArray.distance (List.replicate n 0) (List.replicate n 0) = 0 := fun n =>
    (BitArray.distance_eq_zero_iff rfl).mpr rfl
  have hdistance : ∀ n, BitArray.distance (List.replicate n 0 ++ [1]) (List.replicate n 0 ++ [0]) =
      1 := by
    intro n
    rw [BitArray.distance_append rfl, hself, BitArray.distance_cons]
    decide
  have hheap : ∀ n, Heap.Distance ⟨[0, 0], [⟨List.replicate n 0 ++ [1], 0, 3⟩,
      ⟨List.replicate n 0 ++ [0], 1, 3⟩]⟩ 0 1 1 := by
    intro n
    have h := distance_of_length_eq (s := ⟨[0, 0], [⟨List.replicate n 0 ++ [1], 0, 3⟩,
      ⟨List.replicate n 0 ++ [0], 1, 3⟩]⟩) (i := 0) (j := 1) rfl rfl (hlen n 1 0)
    rwa [hdistance n] at h
  have htake : ∀ n (x : UInt8), (List.replicate n 0 ++ [x]).take n = List.replicate n 0 :=
    fun n x => List.take_left' List.length_replicate
  refine ⟨hheap (2 ^ 29), ?_⟩
  rw [card_getBit_ne (hlen (2 ^ 29) 1 0), htake, htake, hself]

end Bloom

end GoBlocks
