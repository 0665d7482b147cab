import GoBlocks.Lib.BitArray
import GoBlocks.Lib.Path
import GoBlocks.Lib.Transition
import Mathlib.Data.Int.Notation

/-!
# Bloom filters

A filter is a byte slice of bits and a hash object. The hash object has a state
that every computation of bit positions goes through and resets, and `Merge` makes
a filter that shares the hash object of its receiver. Filters and hash objects are
therefore objects of a heap, named by their numbers. `none` stands for a panic: a
negative size, a division by zero or an index out of range.
-/

namespace GoBlocks.Bloom

/-! ## The hash -/

/-- One byte of `jenkhash.Write`. -/
def mixByte (hash : UInt32) (b : UInt8) : UInt32 :=
  let hash := hash + b.toUInt32
  let hash := hash + (hash <<< 10)
  hash ^^^ (hash >>> 6)

/-- `jenkhash.Write`: the state of the hash object after writing the bytes. -/
def hashWrite (j : UInt32) (key : Bytes) : UInt32 :=
  let hash := key.foldl mixByte j
  let hash := hash + (hash <<< 3)
  let hash := hash ^^^ (hash >>> 11)
  hash + (hash <<< 15)

/-- `binary.LittleEndian.PutUint32`. -/
def littleEndian (v : UInt32) : Bytes :=
  [v.toUInt8, (v >>> 8).toUInt8, (v >>> 16).toUInt8, (v >>> 24).toUInt8]

/-! ## Filters -/

/-- A filter. -/
structure Filter where
  /-- The bits. -/
  filter : List UInt8
  /-- The number of the hash object. -/
  hash : ℕ
  /-- The number of bits for each item. -/
  k : ℕ

/-- The loop of `getBitIndicies` with the modulus `m`, from a state of the hash
object: the indices and the state at the end. -/
def indiciesLoop (m : UInt32) : ℕ → UInt32 → List UInt32 × UInt32
  | 0, hash => ([], hash)
  | i + 1, hash =>
    let rest := indiciesLoop m i (hashWrite hash (littleEndian hash))
    (hash % m :: rest.1, rest.2)

/-- `getBitIndicies` from a state of the hash object: the indices and the new state.
It divides by the number of bits, computed with 32 bits, if there is an index to
compute. -/
def getBitIndicies (f : Filter) (hash : UInt32) (bytes : Bytes) : Option (List UInt32 × UInt32) :=
  let m := UInt32.ofNat f.filter.length * 8
  if f.k ≠ 0 ∧ m = 0 then none
  else some ((indiciesLoop m f.k (hashWrite hash bytes)).1, 0)

/-- `setBit`. -/
def setBit (filter : List UInt8) (i : UInt32) : Option (List UInt8) :=
  (filter[(i / 8).toNat]?).map fun b =>
    filter.set (i / 8).toNat (b ||| ((1 : UInt8) <<< (i % 8).toUInt8))

/-- `getBit`. -/
def getBit (filter : List UInt8) (i : UInt32) : Option Bool :=
  (filter[(i / 8).toNat]?).map fun b => b &&& ((1 : UInt8) <<< (i % 8).toUInt8) != 0

/-- The loop of `Add`. -/
def setBits (filter : List UInt8) : List UInt32 → Option (List UInt8)
  | [] => some filter
  | i :: is =>
    match setBit filter i with
    | none => none
    | some filter' => setBits filter' is

/-- The loop of `Find`. -/
def findBits (filter : List UInt8) : List UInt32 → Option Bool
  | [] => some true
  | i :: is =>
    match getBit filter i with
    | none => none
    | some false => some false
    | some true => findBits filter is

/-! ## The heap -/

/-- The hash objects and the filters that exist. -/
structure Heap where
  /-- The states of the hash objects. -/
  hashes : List UInt32
  /-- The filters. -/
  filters : List Filter

/-- The argument of `Merge`: a filter of this package or another implementation of
the interface. -/
inductive Operand where
  | filter (g : ℕ)
  | foreign

/-- The errors of `Merge`. -/
inductive MergeErr where
  /-- `Unsupported filter type`. -/
  | unsupported
  /-- `filter lengths must match!`. -/
  | lengths
  /-- `filter k-values must match!`. -/
  | kValues
  deriving DecidableEq

/-- The calls. -/
inductive Op where
  | newFilter (size : ℤ)
  | add (f : ℕ) (bytes : Bytes)
  | find (f : ℕ) (bytes : Bytes)
  | merge (f : ℕ) (o : Operand)

/-- The results of the calls. -/
inductive Result where
  /-- A new filter. -/
  | filter (f : ℕ)
  /-- `Add` returns nothing. -/
  | done
  /-- The result of `Find`. -/
  | found (b : Bool)
  /-- `Merge` fails. -/
  | err (e : MergeErr)

namespace Heap

/-- No filter exists. -/
def empty : Heap := ⟨[], []⟩

/-- `NewFilter`. -/
def newFilter (s : Heap) (size : ℤ) : Option (Heap × Result) :=
  if size < 0 then none
  else some (⟨s.hashes ++ [0], s.filters ++ [⟨List.replicate size.toNat 0, s.hashes.length, 3⟩]⟩,
    .filter s.filters.length)

/-- `BasicFilter`. -/
def basicFilter (s : Heap) : Option (Heap × Result) := s.newFilter 2048

/-- The bit indices of an item for a filter, and the heap with the hash object that
computed them. -/
def indicies (s : Heap) (f : Filter) (bytes : Bytes) : Option (List UInt32 × Heap) :=
  match s.hashes[f.hash]? with
  | none => none
  | some hash => (getBitIndicies f hash bytes).map fun r =>
      (r.1, { s with hashes := s.hashes.set f.hash r.2 })

/-- `Add`. -/
def add (s : Heap) (f : ℕ) (bytes : Bytes) : Option (Heap × Result) :=
  match s.filters[f]? with
  | none => none
  | some filt =>
    match s.indicies filt bytes with
    | none => none
    | some (is, s') => (setBits filt.filter is).map fun filter =>
        ({ s' with filters := s'.filters.set f { filt with filter := filter } }, .done)

/-- `Find`. -/
def find (s : Heap) (f : ℕ) (bytes : Bytes) : Option (Heap × Result) :=
  match s.filters[f]? with
  | none => none
  | some filt =>
    match s.indicies filt bytes with
    | none => none
    | some (is, s') => (findBits filt.filter is).map fun b => (s', .found b)

/-- `Merge`. The new filter shares the hash object of the receiver. -/
def merge (s : Heap) (f : ℕ) : Operand → Option (Heap × Result)
  | .foreign => if f < s.filters.length then some (s, .err .unsupported) else none
  | .filter g =>
    match s.filters[f]?, s.filters[g]? with
    | some filt, some casfil =>
      if casfil.filter.length ≠ filt.filter.length then some (s, .err .lengths)
      else if casfil.k ≠ filt.k then some (s, .err .kValues)
      else
        let filter := List.zipWith (· ||| ·) filt.filter casfil.filter
        some ({ s with filters := s.filters ++ [⟨filter, filt.hash, filt.k⟩] },
          .filter s.filters.length)
    | _, _ => none

/-- One call. -/
def step (s : Heap) : Op → Option (Heap × Result)
  | .newFilter size => s.newFilter size
  | .add f bytes => s.add f bytes
  | .find f bytes => s.find f bytes
  | .merge f o => s.merge f o

/-- Calls with their results. -/
def lts : LTS Heap (Op × Result) where
  step s l t := s.step l.1 = some (t, l.2)

end Heap

/-! ## Bit positions -/

/-- A filter as `NewFilter` makes it. -/
def fresh (n : ℕ) : Filter := ⟨List.replicate n 0, 0, 3⟩

/-- The number of bits of a filter, computed with 32 bits. -/
theorem toNat_bits (n : ℕ) : (UInt32.ofNat n * 8).toNat = n * 8 % 2 ^ 32 := by
  have height : (8 : UInt32).toNat = 8 := rfl
  rw [UInt32.toNat_mul, UInt32.toNat_ofNat', height]
  omega

/-- The modulus is not zero. -/
theorem bits_ne_zero {n : ℕ} (hn : n * 8 % 2 ^ 32 ≠ 0) : UInt32.ofNat n * 8 ≠ 0 := by
  intro h
  apply hn
  rw [← toNat_bits, h]
  rfl

/-- The indices are below the modulus. -/
theorem lt_of_mem_indiciesLoop {m : UInt32} (hm : m ≠ 0) {k : ℕ} {hash i : UInt32}
    (hi : i ∈ (indiciesLoop m k hash).1) : i.toNat < m.toNat := by
  induction k generalizing hash with
  | zero => cases hi
  | succ k ih =>
    rcases List.mem_cons.mp hi with rfl | hi
    · have hpos : 0 < m.toNat := by
        rw [Nat.pos_iff_ne_zero]
        exact fun h => hm (UInt32.toNat_inj.mp h)
      rw [UInt32.toNat_mod]
      exact Nat.mod_lt _ hpos
    · exact ih hi

/-- There is an index for each round of the loop. -/
theorem length_indiciesLoop (m : UInt32) (k : ℕ) (hash : UInt32) :
    (indiciesLoop m k hash).1.length = k := by
  induction k generalizing hash with
  | zero => rfl
  | succ k ih => rw [indiciesLoop, List.length_cons, ih]

/-- The bit positions that `getBitIndicies` computes for an item on a fresh filter. -/
def positions (n : ℕ) (bytes : Bytes) : List ℕ :=
  match getBitIndicies (fresh n) 0 bytes with
  | none => []
  | some (is, _) => is.map UInt32.toNat

section Positions

variable {n : ℕ} (hn : n * 8 % 2 ^ 32 ≠ 0)
include hn

/-- The positions are the indices that the loop of `getBitIndicies` finds. -/
theorem positions_eq (bytes : Bytes) : positions n bytes =
    (indiciesLoop (UInt32.ofNat n * 8) 3 (hashWrite 0 bytes)).1.map UInt32.toNat := by
  simp [positions, getBitIndicies, fresh, bits_ne_zero hn]

/-- An item has three positions. -/
theorem length_positions (bytes : Bytes) : (positions n bytes).length = 3 := by
  rw [positions_eq hn, List.length_map, length_indiciesLoop]

/-- The positions are below the number of bits, computed with 32 bits. -/
theorem lt_of_mem_positions {bytes : Bytes} {p : ℕ} (hp : p ∈ positions n bytes) :
    p < n * 8 % 2 ^ 32 := by
  rw [positions_eq hn] at hp
  obtain ⟨i, hi, rfl⟩ := List.mem_map.mp hp
  rw [← toNat_bits]
  exact lt_of_mem_indiciesLoop (bits_ne_zero hn) hi

/-- On a filter of the given length with a reset hash object `getBitIndicies` computes
the positions on a fresh filter and leaves the hash object reset. -/
theorem getBitIndicies_eq {f : Filter} (hlen : f.filter.length = n) (hk : f.k = 3)
    (bytes : Bytes) :
    ∃ is, getBitIndicies f 0 bytes = some (is, 0) ∧ is.map UInt32.toNat = positions n bytes ∧
      ∀ i ∈ is, i.toNat / 8 < n := by
  refine ⟨(indiciesLoop (UInt32.ofNat n * 8) 3 (hashWrite 0 bytes)).1, ?_,
    (positions_eq hn bytes).symm, fun i hi => ?_⟩
  · simp [getBitIndicies, hlen, hk, bits_ne_zero hn]
  · have hp : i.toNat ∈ positions n bytes := by
      rw [positions_eq hn]
      exact List.mem_map_of_mem hi
    have hlt := lt_of_mem_positions hn hp
    omega

end Positions

/-! ## Setting and testing bits -/

/-- The byte and the place of a 32-bit index. -/
theorem toNat_div_eight (i : UInt32) : (i / 8).toNat = i.toNat / 8 := UInt32.toNat_div i 8

/-- The place of a 32-bit index in its byte. -/
theorem toNat_mod_eight (i : UInt32) : (i % 8).toUInt8.toNat = i.toNat % 8 := by
  have hmod : (i % 8).toNat = i.toNat % 8 := UInt32.toNat_mod i 8
  rw [UInt32.toNat_toUInt8, hmod]
  omega

/-- `setBit` inside the filter sets the bit. -/
theorem setBit_spec {filter : List UInt8} {i : UInt32} (hi : i.toNat / 8 < filter.length) :
    ∃ filter', setBit filter i = some filter' ∧ filter'.length = filter.length ∧
      ∀ j, BitArray.bit filter' j = (BitArray.bit filter j || decide (i.toNat = j)) := by
  refine ⟨filter.set (i.toNat / 8)
    (filter.getD (i.toNat / 8) 0 ||| ((1 : UInt8) <<< (i % 8).toUInt8)), ?_, ?_, ?_⟩
  · simp [setBit, List.getElem?_eq_getElem hi]
  · rw [List.length_set]
  · exact BitArray.bit_set hi (toNat_mod_eight i)

/-- `getBit` inside the filter tests the bit. -/
theorem getBit_eq {filter : List UInt8} {i : UInt32} (hi : i.toNat / 8 < filter.length) :
    getBit filter i = some (BitArray.bit filter i.toNat) := by
  have hplace : (i % 8).toUInt8.toNat < 8 := by
    rw [toNat_mod_eight]
    omega
  have hbit : (filter[i.toNat / 8] &&& ((1 : UInt8) <<< (i % 8).toUInt8) != 0) =
      BitArray.bit filter i.toNat := by
    rw [Bool.eq_iff_iff, bne_iff_ne, BitArray.and_one_shiftLeft_ne_zero hplace, toNat_mod_eight,
      BitArray.bit, List.getD_eq_getElem?_getD, List.getElem?_eq_getElem hi, Option.getD_some]
  rw [getBit, toNat_div_eight, List.getElem?_eq_getElem hi, Option.map_some, hbit]

/-- The loop of `Add` sets the bits with the indices. -/
theorem setBits_spec {filter : List UInt8} {is : List UInt32}
    (his : ∀ i ∈ is, i.toNat / 8 < filter.length) :
    ∃ filter', setBits filter is = some filter' ∧ filter'.length = filter.length ∧
      ∀ j, BitArray.bit filter' j = true ↔
        BitArray.bit filter j = true ∨ j ∈ is.map UInt32.toNat := by
  induction is generalizing filter with
  | nil => exact ⟨filter, rfl, rfl, by simp⟩
  | cons i is ih =>
    obtain ⟨filter₁, hset, hlen₁, hbit₁⟩ := setBit_spec (his i (List.mem_cons_self ..))
    have his₁ : ∀ i' ∈ is, i'.toNat / 8 < filter₁.length := by
      intro i' hi'
      rw [hlen₁]
      exact his i' (List.mem_cons_of_mem _ hi')
    obtain ⟨filter', hsets, hlen, hbit⟩ := ih his₁
    refine ⟨filter', ?_, hlen.trans hlen₁, fun j => ?_⟩
    · simp only [setBits, hset, hsets]
    · have hij : i.toNat = j ↔ j = i.toNat := eq_comm
      rw [hbit, hbit₁, List.map_cons, List.mem_cons, Bool.or_eq_true, decide_eq_true_iff, or_assoc,
        hij]

/-- The loop of `Find` tests whether all bits with the indices are set. -/
theorem findBits_spec {filter : List UInt8} {is : List UInt32}
    (his : ∀ i ∈ is, i.toNat / 8 < filter.length) :
    ∃ b, findBits filter is = some b ∧
      (b = true ↔ ∀ j ∈ is.map UInt32.toNat, BitArray.bit filter j = true) := by
  induction is with
  | nil => exact ⟨true, rfl, by simp⟩
  | cons i is ih =>
    have hget := getBit_eq (his i (List.mem_cons_self ..))
    cases hbit : BitArray.bit filter i.toNat with
    | false =>
      rw [hbit] at hget
      exact ⟨false, by simp only [findBits, hget], by simp [hbit]⟩
    | true =>
      rw [hbit] at hget
      obtain ⟨b, hb, hiff⟩ := ih fun i' hi' => his i' (List.mem_cons_of_mem _ hi')
      exact ⟨b, by simp only [findBits, hget, hb], by simpa [hbit] using hiff⟩

end GoBlocks.Bloom
