import GoBlocks.Bloom.Algebra

/-!
# Bit indices for every size

`getBitIndicies` reduces 32-bit hash values modulo the number of bits of the filter,
which it computes with 32 bits as well. On filters of fewer than `2 ^ 29` bytes nothing
wraps. On longer ones the modulus is smaller than the filter, and it is zero for the
multiples of `2 ^ 29`. Filters of all sizes may exist next to each other, and none of
them ever has a set bit at a position of more than 32 bits.
-/

namespace GoBlocks.Bloom

/-! ## The indices of hash values -/

/-- The hash values `res` in the loop of `getBitIndicies`. -/
def hashValues : ℕ → UInt32 → List UInt32
  | 0, _ => []
  | i + 1, hash => hash :: hashValues i (hashWrite hash (littleEndian hash))

/-- `res % (uint32(len(f.filter)) * 8)` for a filter of `n` bytes. -/
def bitIndex (n : ℕ) (res : UInt32) : UInt32 := res % (UInt32.ofNat n * 8)

/-- The loop computes the indices of the hash values. -/
theorem indiciesLoop_eq (n k : ℕ) (hash : UInt32) :
    (indiciesLoop (UInt32.ofNat n * 8) k hash).1 = (hashValues k hash).map (bitIndex n) := by
  induction k generalizing hash with
  | zero => rfl
  | succ k ih => rw [indiciesLoop, hashValues, List.map_cons, ih, bitIndex]

/-- The index is the remainder by the number of bits in 32 bits. -/
theorem toNat_bitIndex (n : ℕ) (res : UInt32) :
    (bitIndex n res).toNat = res.toNat % (n * 8 % 2 ^ 32) := by
  rw [bitIndex, UInt32.toNat_mod, toNat_bits]

/-- On filters of fewer than `2 ^ 29` bytes the index is the remainder by the number of
bits. -/
theorem toNat_bitIndex_of_lt {n : ℕ} (hn : n < 2 ^ 29) (res : UInt32) :
    (bitIndex n res).toNat = res.toNat % (8 * n) := by
  have hbits : n * 8 % 2 ^ 32 = 8 * n := by omega
  rw [toNat_bitIndex, hbits]

/-- On filters of `2 ^ 29` bytes or more the index of the largest multiple of eight is another
one, unless the modulus is zero. -/
theorem toNat_bitIndex_ne {n : ℕ} (hn : 2 ^ 29 ≤ n) (hmod : n % 2 ^ 29 ≠ 0) {res : UInt32}
    (hres : res.toNat = 2 ^ 32 - 8) : (bitIndex n res).toNat ≠ res.toNat % (8 * n) := by
  have hpos : 0 < n * 8 % 2 ^ 32 := by omega
  have hle : n * 8 % 2 ^ 32 ≤ 2 ^ 32 - 8 := by omega
  have hlt : res.toNat % (n * 8 % 2 ^ 32) < n * 8 % 2 ^ 32 := Nat.mod_lt _ hpos
  have hwhole : res.toNat % (8 * n) = res.toNat := Nat.mod_eq_of_lt (by omega)
  rw [toNat_bitIndex, hwhole]
  omega

/-! ## Heaps with filters of all sizes -/

/-- All hash objects are reset, and every filter uses one of them for three bits. -/
structure Wired (s : Heap) : Prop where
  reset : ∀ hash ∈ s.hashes, hash = 0
  uses : ∀ f ∈ s.filters, f.hash < s.hashes.length ∧ f.k = 3

section Wired

variable {s t : Heap} {f : Filter} {i : ℕ}

/-- The hash object of a filter is reset. -/
theorem Wired.getElem?_hash (hs : Wired s) (hf : s.filters[i]? = some f) :
    s.hashes[f.hash]? = some 0 := by
  have hlt := (hs.uses f (List.mem_of_getElem? hf)).1
  rw [List.getElem?_eq_getElem hlt, hs.reset _ (List.getElem_mem hlt)]

/-- Resetting a hash object once more changes nothing. -/
theorem Wired.set_hash (hs : Wired s) (k : ℕ) : s.hashes.set k 0 = s.hashes := by
  refine List.ext_getElem List.length_set fun p hp hp' => ?_
  rw [List.getElem_set]
  split
  next => exact (hs.reset _ (List.getElem_mem hp')).symm
  next => rfl

/-- Computing indices divides by zero if the number of bits vanishes in 32 bits. -/
theorem Wired.indicies_eq_none (hs : Wired s) (hf : s.filters[i]? = some f)
    (hmod : f.filter.length % 2 ^ 29 = 0) (bytes : Bytes) : s.indicies f bytes = none := by
  have hk := (hs.uses f (List.mem_of_getElem? hf)).2
  have hzero : f.filter.length * 8 % 2 ^ 32 = 0 := by omega
  have hbits : UInt32.ofNat f.filter.length * 8 = 0 := by
    apply UInt32.toNat_inj.mp
    rw [toNat_bits, hzero]
    rfl
  simp [Heap.indicies, hs.getElem?_hash hf, getBitIndicies, hk, hbits]

/-- Otherwise it computes the indices of the hash values, which are inside the filter, and
leaves the heap as it is. -/
theorem Wired.indicies_eq (hs : Wired s) (hf : s.filters[i]? = some f)
    (hmod : f.filter.length % 2 ^ 29 ≠ 0) (bytes : Bytes) :
    s.indicies f bytes =
        some ((hashValues 3 (hashWrite 0 bytes)).map (bitIndex f.filter.length), s) ∧
      ∀ p ∈ (hashValues 3 (hashWrite 0 bytes)).map (bitIndex f.filter.length),
        p.toNat / 8 < f.filter.length := by
  have hk := (hs.uses f (List.mem_of_getElem? hf)).2
  have hbits := bits_ne_zero (n := f.filter.length) (by omega)
  have hget : getBitIndicies f 0 bytes =
      some ((hashValues 3 (hashWrite 0 bytes)).map (bitIndex f.filter.length), 0) := by
    rw [← indiciesLoop_eq]
    simp [getBitIndicies, hk, hbits]
  constructor
  · simp only [Heap.indicies, hs.getElem?_hash hf, hget, Option.map_some, hs.set_hash]
  · intro p hp
    rw [← indiciesLoop_eq] at hp
    have hlt := lt_of_mem_indiciesLoop hbits hp
    rw [toNat_bits] at hlt
    omega

/-- If computing indices does not divide by zero, the size is no multiple of `2 ^ 29`. -/
theorem Wired.mod_ne_zero (hs : Wired s) (hf : s.filters[i]? = some f) (bytes : Bytes)
    (h : s.indicies f bytes ≠ none) : f.filter.length % 2 ^ 29 ≠ 0 :=
  fun hmod => h (hs.indicies_eq_none hf hmod bytes)

/-- `Add` that returns has set bits at positions of 32 bits. -/
theorem Wired.add_cases (hs : Wired s) {bytes : Bytes} {r : Result}
    (h : s.add i bytes = some (t, r)) :
    ∃ f filter, s.filters[i]? = some f ∧
      t = { s with filters := s.filters.set i { f with filter := filter } } ∧
      ∀ p, BitArray.bit filter p = true → BitArray.bit f.filter p = true ∨ p < 2 ^ 32 := by
  obtain ⟨f, hf⟩ := Heap.exists_of_add h
  have hmod : f.filter.length % 2 ^ 29 ≠ 0 := by
    refine hs.mod_ne_zero hf bytes fun hnone => ?_
    simp [Heap.add, hf, hnone] at h
  obtain ⟨hindicies, hbound⟩ := hs.indicies_eq hf hmod bytes
  obtain ⟨filter, hset, -, hbits⟩ := setBits_spec hbound
  simp only [Heap.add, hf, hindicies, hset, Option.map_some] at h
  refine ⟨f, filter, hf, (Prod.mk.inj (Option.some.inj h)).1.symm, fun p hp => ?_⟩
  rcases (hbits p).mp hp with hold | hmem
  · exact .inl hold
  · obtain ⟨index, -, rfl⟩ := List.mem_map.mp hmem
    exact .inr index.toNat_lt

/-- `Find` that returns changes nothing. -/
theorem Wired.find_cases (hs : Wired s) {bytes : Bytes} {r : Result}
    (h : s.find i bytes = some (t, r)) : t = s := by
  obtain ⟨f, hf⟩ := Heap.exists_of_find h
  have hmod : f.filter.length % 2 ^ 29 ≠ 0 := by
    refine hs.mod_ne_zero hf bytes fun hnone => ?_
    simp [Heap.find, hf, hnone] at h
  obtain ⟨hindicies, hbound⟩ := hs.indicies_eq hf hmod bytes
  obtain ⟨b, hfind, -⟩ := findBits_spec hbound
  simp only [Heap.find, hf, hindicies, hfind, Option.map_some] at h
  exact (Prod.mk.inj (Option.some.inj h)).1.symm

/-- What a call on a wired heap may do: make a filter, set bits at positions of 32 bits, join
two filters, or nothing. -/
theorem Wired.step_cases (hs : Wired s) {l : Op × Result} (hstep : Heap.lts.step s l t) :
    (∃ n, t = ⟨s.hashes ++ [0], s.filters ++ [⟨List.replicate n 0, s.hashes.length, 3⟩]⟩) ∨
    (∃ i f filter, s.filters[i]? = some f ∧
      t = { s with filters := s.filters.set i { f with filter := filter } } ∧
      ∀ p, BitArray.bit filter p = true → BitArray.bit f.filter p = true ∨ p < 2 ^ 32) ∨
    (∃ f ∈ s.filters, ∃ g ∈ s.filters, f.filter.length = g.filter.length ∧
      t = { s with filters := s.filters ++
        [⟨List.zipWith (· ||| ·) f.filter g.filter, f.hash, f.k⟩] }) ∨ t = s := by
  obtain ⟨op, r⟩ := l
  cases op with
  | newFilter size =>
    have hstep : s.newFilter size = some (t, r) := hstep
    obtain ⟨-, hpair⟩ := Option.ite_none_left_eq_some.mp hstep
    exact .inl ⟨size.toNat, (Prod.mk.inj (Option.some.inj hpair)).1.symm⟩
  | add i bytes => exact .inr (.inl ⟨i, hs.add_cases hstep⟩)
  | find i bytes => exact .inr (.inr (.inr (hs.find_cases hstep)))
  | merge i o =>
    have hstep : s.merge i o = some (t, r) := hstep
    cases o with
    | foreign =>
      obtain ⟨-, hpair⟩ := Option.ite_none_right_eq_some.mp hstep
      exact .inr (.inr (.inr (Prod.mk.inj (Option.some.inj hpair)).1.symm))
    | filter j =>
      obtain ⟨f, g, hf, hg⟩ := Heap.exists_of_merge hstep
      simp only [Heap.merge, hf, hg] at hstep
      split_ifs at hstep with hlen hk
      · exact .inr (.inr (.inr (Prod.mk.inj (Option.some.inj hstep)).1.symm))
      · exact .inr (.inr (.inr (Prod.mk.inj (Option.some.inj hstep)).1.symm))
      · exact .inr (.inr (.inl ⟨f, List.mem_of_getElem? hf, g, List.mem_of_getElem? hg,
          (not_not.mp hlen).symm, (Prod.mk.inj (Option.some.inj hstep)).1.symm⟩))

/-- Every call keeps the heap wired. -/
theorem Wired.step (hs : Wired s) {l : Op × Result} (hstep : Heap.lts.step s l t) : Wired t := by
  rcases hs.step_cases hstep with
    ⟨n, rfl⟩ | ⟨i, f, filter, hf, rfl, -⟩ | ⟨f, hf, g, -, -, rfl⟩ | rfl
  · constructor
    · intro hash hmem
      rcases List.mem_append.mp hmem with hmem | hmem
      · exact hs.reset hash hmem
      · exact List.mem_singleton.mp hmem
    · intro g hg
      rw [List.length_append, List.length_singleton]
      rcases List.mem_append.mp hg with hg | hg
      · exact ⟨Nat.lt_succ_of_lt (hs.uses g hg).1, (hs.uses g hg).2⟩
      · rw [List.mem_singleton.mp hg]
        exact ⟨Nat.lt_succ_self _, rfl⟩
  · refine ⟨hs.reset, fun g hg => ?_⟩
    rcases List.mem_or_eq_of_mem_set hg with hg | rfl
    · exact hs.uses g hg
    · exact hs.uses f (List.mem_of_getElem? hf)
  · refine ⟨hs.reset, fun g' hg' => ?_⟩
    rcases List.mem_append.mp hg' with hg' | hg'
    · exact hs.uses g' hg'
    · rw [List.mem_singleton.mp hg']
      exact hs.uses f hf
  · exact hs

/-- Heaps made by calls are wired. -/
theorem Wired.run {hist : List (Op × Result)} (hrun : Heap.lts.Run .empty hist s) : Wired s := by
  refine hrun.invariant Wired (fun _ _ _ hv hstep => hv.step hstep) ?_
  exact ⟨by simp [Heap.empty], by simp [Heap.empty]⟩

/-! ## Positions beyond 32 bits -/

/-- No filter has a set bit at a position of more than 32 bits. -/
def Addressable (s : Heap) : Prop :=
  ∀ f ∈ s.filters, ∀ p, BitArray.bit f.filter p = true → p < 2 ^ 32

/-- No call sets a bit at a position of more than 32 bits. -/
theorem Addressable.step (h : Addressable s) (hs : Wired s) {l : Op × Result}
    (hstep : Heap.lts.step s l t) : Addressable t := by
  rcases hs.step_cases hstep with
    ⟨n, rfl⟩ | ⟨i, f, filter, hf, rfl, hbits⟩ | ⟨f, hf, g, hg, hlen, rfl⟩ | rfl
  · intro g hg p hp
    rcases List.mem_append.mp hg with hg | hg
    · exact h g hg p hp
    · rw [List.mem_singleton.mp hg, BitArray.bit_replicate_zero] at hp
      cases hp
  · intro g hg p hp
    rcases List.mem_or_eq_of_mem_set hg with hg | rfl
    · exact h g hg p hp
    · rcases hbits p hp with hold | hlt
      · exact h f (List.mem_of_getElem? hf) p hold
      · exact hlt
  · intro g' hg' p hp
    rcases List.mem_append.mp hg' with hg' | hg'
    · exact h g' hg' p hp
    · rw [List.mem_singleton.mp hg', BitArray.bit_zipWith_or hlen, Bool.or_eq_true] at hp
      rcases hp with hp | hp
      · exact h f hf p hp
      · exact h g hg p hp
  · exact h

/-- Heaps made by calls have no set bit at a position of more than 32 bits. -/
theorem Addressable.run {hist : List (Op × Result)} (hrun : Heap.lts.Run .empty hist s) :
    Addressable s := by
  refine hrun.history_induction (fun _ s => Addressable s) ?_ ?_
  · simp [Addressable, Heap.empty]
  · intro hist v l w hv h hstep
    exact h.step (Wired.run hv) hstep

/-- Filters of the same length without such bits agree from byte `2 ^ 29` on. -/
theorem Addressable.drop_eq (h : Addressable s) {g : Filter} (hf : f ∈ s.filters)
    (hg : g ∈ s.filters) (hlen : f.filter.length = g.filter.length) :
    f.filter.drop (2 ^ 29) = g.filter.drop (2 ^ 29) := by
  have hunset : ∀ e ∈ s.filters, ∀ p, BitArray.bit (e.filter.drop (2 ^ 29)) p = false := by
    intro e he p
    rw [BitArray.bit_drop, Bool.eq_false_iff]
    intro hp
    have hlt := h e he _ hp
    omega
  refine BitArray.eq_of_bit_eq ?_ fun p => ?_
  · rw [List.length_drop, List.length_drop, hlen]
  · rw [hunset f hf, hunset g hg]

end Wired

/-! ## Sizes -/

/-- A filter of `n` bytes in a heap made by calls. -/
structure Made (n : ℕ) (s : Heap) (i : ℕ) (f : Filter) : Prop where
  run : ∃ hist, Heap.lts.Run .empty hist s
  filter : s.filters[i]? = some f
  length_eq : f.filter.length = n

/-- `Add` and `Find` on filters of `n` bytes neither divide by zero nor index out of range. -/
structure NeverPanics (n : ℕ) : Prop where
  add : ∀ s i f, Made n s i f → ∀ bytes, ∃ t, s.add i bytes = some (t, .done)
  find : ∀ s i f, Made n s i f → ∀ bytes, ∃ t b, s.find i bytes = some (t, .found b)

/-- `Add` and `Find` on filters of `n` bytes do not panic, the index of every hash value is its
remainder by the number of bits, and every position that 32 bits can name is the index of a
hash value. -/
structure IndexesSafely (n : ℕ) : Prop extends NeverPanics n where
  remainders : ∀ s i f, Made n s i f → ∀ bytes hash, s.hashes[f.hash]? = some hash →
    ∃ is t, s.indicies f bytes = some (is, t) ∧ is.map UInt32.toNat =
      (hashValues f.k (hashWrite hash bytes)).map fun res => res.toNat % (8 * n)
  positions : ∀ p, p < 8 * n → p < 2 ^ 32 → ∃ res, (bitIndex n res).toNat = p

/-- The heap after `NewFilter` has made a first filter of `n` bytes. -/
def freshHeap (n : ℕ) : Heap := ⟨[0], [fresh n]⟩

/-- `NewFilter` makes a filter of every size. -/
theorem newFilter_empty (n : ℕ) : Heap.empty.newFilter n = some (freshHeap n, .filter 0) := by
  have hnat : ¬ (n : ℤ) < 0 := by omega
  rw [Heap.newFilter, if_neg hnat, Int.toNat_natCast]
  rfl

/-- The first filter is made by a call. -/
theorem made_fresh (n : ℕ) : Made n (freshHeap n) 0 (fresh n) where
  run := ⟨[(.newFilter n, .filter 0)], .cons (newFilter_empty n) (.nil _)⟩
  filter := rfl
  length_eq := List.length_replicate

/-- Heaps with a made filter are wired. -/
theorem Made.wired {n : ℕ} {s : Heap} {i : ℕ} {f : Filter} (h : Made n s i f) : Wired s := by
  obtain ⟨hist, hrun⟩ := h.run
  exact Wired.run hrun

section Sizes

variable {n : ℕ}

/-- On a filter whose size is a multiple of `2 ^ 29` every call of `Add` panics. -/
theorem add_eq_none_of_mod_eq_zero (hmod : n % 2 ^ 29 = 0) (bytes : Bytes) :
    (freshHeap n).add 0 bytes = none := by
  have hmade := made_fresh n
  have hnone := hmade.wired.indicies_eq_none hmade.filter (by rwa [hmade.length_eq]) bytes
  simp only [Heap.add, hmade.filter, hnone]

/-- `Add` and `Find` do not panic on filters of the other sizes. -/
theorem neverPanics_of_mod_ne_zero (hmod : n % 2 ^ 29 ≠ 0) : NeverPanics n := by
  constructor
  · intro s i f hmade bytes
    obtain ⟨hindicies, hbound⟩ :=
      hmade.wired.indicies_eq hmade.filter (by rwa [hmade.length_eq]) bytes
    obtain ⟨filter, hset, -, -⟩ := setBits_spec hbound
    have hadd : s.add i bytes =
        some ({ s with filters := s.filters.set i { f with filter := filter } }, .done) := by
      simp only [Heap.add, hmade.filter, hindicies, hset, Option.map_some]
    exact ⟨_, hadd⟩
  · intro s i f hmade bytes
    obtain ⟨hindicies, hbound⟩ :=
      hmade.wired.indicies_eq hmade.filter (by rwa [hmade.length_eq]) bytes
    obtain ⟨b, hfind, -⟩ := findBits_spec hbound
    exact ⟨s, b, by simp only [Heap.find, hmade.filter, hindicies, hfind, Option.map_some]⟩

/-- `Add` and `Find` panic on filters of the sizes that are multiples of `2 ^ 29` only. -/
theorem neverPanics_iff : NeverPanics n ↔ n % 2 ^ 29 ≠ 0 := by
  refine ⟨fun h hmod => ?_, neverPanics_of_mod_ne_zero⟩
  obtain ⟨t, ht⟩ := h.add _ _ _ (made_fresh n) []
  rw [add_eq_none_of_mod_eq_zero hmod] at ht
  cases ht

/-- Indexing is safe and uses the whole filter for the sizes from one to `2 ^ 29 - 1`. -/
theorem indexesSafely_of_lt (hpos : 1 ≤ n) (hlt : n < 2 ^ 29) : IndexesSafely n := by
  have hmod : n % 2 ^ 29 ≠ 0 := by omega
  refine ⟨neverPanics_of_mod_ne_zero hmod, fun s i f hmade bytes hash hhash => ?_,
    fun p hp hp' => ?_⟩
  · have hwired := hmade.wired
    rw [hwired.getElem?_hash hmade.filter] at hhash
    cases hhash
    have hk := (hwired.uses f (List.mem_of_getElem? hmade.filter)).2
    obtain ⟨hindicies, -⟩ := hwired.indicies_eq hmade.filter (by rwa [hmade.length_eq]) bytes
    refine ⟨_, s, hindicies, ?_⟩
    rw [List.map_map, hk, hmade.length_eq]
    exact List.map_congr_left fun res _ => toNat_bitIndex_of_lt hlt res
  · have hofNat : (UInt32.ofNat p).toNat = p := UInt32.toNat_ofNat_of_lt hp'
    refine ⟨UInt32.ofNat p, ?_⟩
    rw [toNat_bitIndex_of_lt hlt, hofNat, Nat.mod_eq_of_lt hp]

/-- An input whose first hash value is the largest multiple of eight. -/
def topInput : Bytes := [94, 21, 221, 207]

/-- The first hash value of the input. -/
theorem hashWrite_topInput : (hashWrite 0 topInput).toNat = 2 ^ 32 - 8 := by decide

/-- On filters of `2 ^ 29` bytes or more the index of the input is not a remainder by the number
of bits. -/
theorem not_indexesSafely_of_le (hle : 2 ^ 29 ≤ n) : ¬ IndexesSafely n := by
  intro h
  have hmod : n % 2 ^ 29 ≠ 0 := neverPanics_iff.mp h.toNeverPanics
  have hmade := made_fresh n
  obtain ⟨is, t, his, hremainders⟩ := h.remainders _ _ _ hmade topInput 0 rfl
  obtain ⟨hindicies, -⟩ := hmade.wired.indicies_eq hmade.filter (by rwa [hmade.length_eq]) topInput
  rw [hindicies] at his
  cases his
  rw [List.map_map, hmade.length_eq] at hremainders
  have hfirst := (List.cons.inj hremainders).1
  exact toNat_bitIndex_ne hle hmod hashWrite_topInput hfirst

end Sizes

/-- **Bit indexing.** `Add` and `Find` neither divide by zero nor index out of range on filters
of `n` bytes exactly if `n` is no multiple of `2 ^ 29`. Moreover the index of every hash value
is its remainder by the number of bits exactly if `n` is below `2 ^ 29`, and then every position
of the filter is the index of a hash value. -/
theorem indexesSafely_iff (n : ℕ) :
    (NeverPanics n ↔ n % 2 ^ 29 ≠ 0) ∧ (IndexesSafely n ↔ 1 ≤ n ∧ n < 2 ^ 29) := by
  refine ⟨neverPanics_iff, fun h => ?_, fun hn => indexesSafely_of_lt hn.1 hn.2⟩
  have hmod : n % 2 ^ 29 ≠ 0 := neverPanics_iff.mp h.toNeverPanics
  have hlt : n < 2 ^ 29 := Nat.lt_of_not_le fun hle => not_indexesSafely_of_le hle h
  omega

/-- `Add` on a new filter of `2 ^ 29` bytes divides by zero. A filter with one byte more uses
only the bits of its first byte. -/
theorem not_indexesSafely_half_gibibyte :
    (Heap.empty.newFilter (2 ^ 29 : ℕ) = some (freshHeap (2 ^ 29), .filter 0) ∧
      (freshHeap (2 ^ 29)).add 0 [] = none ∧ ¬ IndexesSafely (2 ^ 29)) ∧
    (∀ res, (bitIndex (2 ^ 29 + 1) res).toNat = res.toNat % 8) ∧ ¬ IndexesSafely (2 ^ 29 + 1) := by
  refine ⟨⟨newFilter_empty _, add_eq_none_of_mod_eq_zero (by decide) [],
    not_indexesSafely_of_le (le_refl _)⟩, fun res => ?_, not_indexesSafely_of_le (by decide)⟩
  have hbits : (2 ^ 29 + 1) * 8 % 2 ^ 32 = 8 := by decide
  rw [toNat_bitIndex, hbits]

end GoBlocks.Bloom
