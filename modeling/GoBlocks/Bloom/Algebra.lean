import GoBlocks.Bloom.Filter
import Mathlib.Data.Set.Insert

/-!
# The algebra of bloom filters

A filter stands for the set of the items that were added to it or to the filters
it was merged from. Its bits are the union of the bit positions of these items,
whatever the order of the calls was: every computation of positions finds the hash
object reset and leaves it reset, so that sharing it between filters does no harm.
-/

namespace GoBlocks.Bloom

/-! ## The items of a filter -/

/-- How a call changes the items of the filters. -/
def itemsStep (A : ℕ → Set Bytes) : Op × Result → ℕ → Set Bytes
  | (.add f bytes, .done) => Function.update A f (insert bytes (A f))
  | (.merge f (.filter g), .filter h) => Function.update A h (A f ∪ A g)
  | _ => A

/-- The items added to each filter, or to a filter merged into it before the merge. -/
def items (hist : List (Op × Result)) : ℕ → Set Bytes := hist.foldl itemsStep fun _ => ∅

/-- The items after one more call. -/
theorem items_snoc (hist : List (Op × Result)) (l : Op × Result) :
    items (hist ++ [l]) = itemsStep (items hist) l := by
  rw [items, List.foldl_append]
  rfl

/-- The call makes no filter of another size. -/
def OfSize (n : ℕ) : Op → Prop
  | .newFilter size => size = n
  | _ => True

/-! ## The invariant -/

/-- The filter has the length `n` and a hash object below `hashes`, and its bits are
the positions of the items. -/
structure Represents (n hashes : ℕ) (f : Filter) (A : Set Bytes) : Prop where
  hash_lt : f.hash < hashes
  length_eq : f.filter.length = n
  k_eq : f.k = 3
  bit_iff : ∀ j, BitArray.bit f.filter j = true ↔ ∃ x ∈ A, j ∈ positions n x

/-- All hash objects are reset, and every filter represents its items. -/
structure Inv (n : ℕ) (s : Heap) (A : ℕ → Set Bytes) : Prop where
  reset : ∀ hash ∈ s.hashes, hash = 0
  represents : ∀ i f, s.filters[i]? = some f → Represents n s.hashes.length f (A i)
  unborn : ∀ i, s.filters.length ≤ i → A i = ∅

/-- A call of `Add` that returns was made on a filter. -/
theorem Heap.exists_of_add {s : Heap} {i : ℕ} {bytes : Bytes} {r : Heap × Result}
    (h : s.add i bytes = some r) : ∃ f, s.filters[i]? = some f := by
  cases hf : s.filters[i]? with
  | none =>
    rw [Heap.add, hf] at h
    cases h
  | some f => exact ⟨f, rfl⟩

/-- A call of `Find` that returns was made on a filter. -/
theorem Heap.exists_of_find {s : Heap} {i : ℕ} {bytes : Bytes} {r : Heap × Result}
    (h : s.find i bytes = some r) : ∃ f, s.filters[i]? = some f := by
  cases hf : s.filters[i]? with
  | none =>
    rw [Heap.find, hf] at h
    cases h
  | some f => exact ⟨f, rfl⟩

/-- A call of `Merge` that returns was made on two filters. -/
theorem Heap.exists_of_merge {s : Heap} {i j : ℕ} {r : Heap × Result}
    (h : s.merge i (.filter j) = some r) :
    ∃ f g, s.filters[i]? = some f ∧ s.filters[j]? = some g := by
  simp only [Heap.merge] at h
  split at h
  next f g hf hg => exact ⟨f, g, hf, hg⟩
  next => cases h

/-- `Find` keeps the filters. -/
theorem Heap.find_filters {s t : Heap} {i : ℕ} {bytes : Bytes} {r : Result}
    (h : s.find i bytes = some (t, r)) : t.filters = s.filters := by
  unfold Heap.find Heap.indicies at h
  split at h
  · cases h
  · split at h
    · cases h
    · rename_i hindicies
      split at hindicies
      · cases hindicies
      · obtain ⟨_, -, hpair⟩ := Option.map_eq_some_iff.mp hindicies
        obtain ⟨-, rfl⟩ := Prod.mk.inj hpair
        obtain ⟨_, -, hpair⟩ := Option.map_eq_some_iff.mp h
        obtain ⟨rfl, -⟩ := Prod.mk.inj hpair
        rfl

/-- `Merge` keeps the filters and may add one. -/
theorem Heap.merge_filters {s t : Heap} {i : ℕ} {o : Operand} {r : Result}
    (h : s.merge i o = some (t, r)) : s.filters <+: t.filters := by
  cases o with
  | foreign =>
    simp only [Heap.merge, Option.ite_none_right_eq_some] at h
    obtain ⟨rfl, -⟩ := Prod.mk.inj (Option.some.inj h.2)
    exact List.prefix_rfl
  | filter j =>
    simp only [Heap.merge] at h
    split at h
    · split at h
      · obtain ⟨rfl, -⟩ := Prod.mk.inj (Option.some.inj h)
        exact List.prefix_rfl
      · split at h
        · obtain ⟨rfl, -⟩ := Prod.mk.inj (Option.some.inj h)
          exact List.prefix_rfl
        · obtain ⟨rfl, -⟩ := Prod.mk.inj (Option.some.inj h)
          exact List.prefix_append _ _
    · cases h

section Calls

variable {n : ℕ} {s : Heap} {i j : ℕ} {f g : Filter} {A B : Set Bytes}

/-- The filter with this number represents the items, and its hash object is reset. -/
structure Holds (n : ℕ) (s : Heap) (i : ℕ) (f : Filter) (A : Set Bytes) : Prop where
  filter : s.filters[i]? = some f
  represents : Represents n s.hashes.length f A
  reset : s.hashes[f.hash]? = some 0

/-- Under the invariant every filter represents its items and has a reset hash object. -/
theorem Inv.holds {A : ℕ → Set Bytes} (hs : Inv n s A) (hf : s.filters[i]? = some f) :
    Holds n s i f (A i) := by
  have hrep := hs.represents i f hf
  refine ⟨hf, hrep, ?_⟩
  rw [List.getElem?_eq_getElem hrep.hash_lt, hs.reset _ (List.getElem_mem hrep.hash_lt)]

/-- Computing bit indices gives the positions and leaves the heap as it was. -/
theorem Holds.indicies (hn : n * 8 % 2 ^ 32 ≠ 0) (h : Holds n s i f A) (bytes : Bytes) :
    ∃ is, s.indicies f bytes = some (is, s) ∧ is.map UInt32.toNat = positions n bytes ∧
      ∀ p ∈ is, p.toNat / 8 < f.filter.length := by
  obtain ⟨hlt, hlen, hk, -⟩ := h.represents
  obtain ⟨is, his, hpos, hbound⟩ := getBitIndicies_eq hn hlen hk bytes
  have hset : s.hashes.set f.hash 0 = s.hashes := by
    have hreset := h.reset
    rw [List.getElem?_eq_getElem hlt] at hreset
    rw [← Option.some.inj hreset]
    exact List.set_getElem_self hlt
  refine ⟨is, ?_, hpos, by rwa [hlen]⟩
  simp only [Heap.indicies, h.reset, his, Option.map_some, hset]

/-- `Add` sets the positions of the item and changes nothing else. -/
theorem Holds.add (hn : n * 8 % 2 ^ 32 ≠ 0) (h : Holds n s i f A) (bytes : Bytes) :
    ∃ filter, s.add i bytes =
        some ({ s with filters := s.filters.set i { f with filter := filter } }, .done) ∧
      Holds n { s with filters := s.filters.set i { f with filter := filter } } i
        { f with filter := filter } (insert bytes A) := by
  obtain ⟨is, his, hpos, hbound⟩ := h.indicies hn bytes
  obtain ⟨filter, hset, hlen, hbits⟩ := setBits_spec hbound
  have hrep := h.represents
  have hlt : i < s.filters.length := (List.getElem?_eq_some_iff.mp h.filter).1
  refine ⟨filter, ?_, List.getElem?_set_self hlt, ?_, h.reset⟩
  · simp only [Heap.add, h.filter, his, hset, Option.map_some]
  · refine ⟨hrep.hash_lt, hlen.trans hrep.length_eq, hrep.k_eq, fun j => ?_⟩
    rw [hbits, hpos, hrep.bit_iff]
    constructor
    · rintro (⟨x, hx, hj⟩ | hj)
      · exact ⟨x, .inr hx, hj⟩
      · exact ⟨bytes, .inl rfl, hj⟩
    · rintro ⟨x, rfl | hx, hj⟩
      · exact .inr hj
      · exact .inl ⟨x, hx, hj⟩

/-- `Find` tests the positions of the item and changes nothing. -/
theorem Holds.find (hn : n * 8 % 2 ^ 32 ≠ 0) (h : Holds n s i f A) (bytes : Bytes) :
    ∃ b, s.find i bytes = some (s, .found b) ∧
      (b = true ↔ ∀ j ∈ positions n bytes, ∃ x ∈ A, j ∈ positions n x) := by
  obtain ⟨is, his, hpos, hbound⟩ := h.indicies hn bytes
  obtain ⟨b, hfind, hb⟩ := findBits_spec hbound
  refine ⟨b, by simp only [Heap.find, h.filter, his, hfind, Option.map_some], ?_⟩
  rw [hb, hpos]
  exact forall₂_congr fun j _ => h.represents.bit_iff j

/-- `Find` finds the items of a filter. -/
theorem Holds.find_mem (hn : n * 8 % 2 ^ 32 ≠ 0) (h : Holds n s i f A) {x : Bytes} (hx : x ∈ A) :
    s.find i x = some (s, .found true) := by
  obtain ⟨b, hfind, hb⟩ := h.find hn x
  rw [hfind, hb.mpr fun j hj => ⟨x, hx, hj⟩]

/-- `Merge` makes a filter that represents the items of both. -/
theorem Represents.merge {m m' : ℕ} (hrepf : Represents n m f A) (hrepg : Represents n m' g B)
    (hf : s.filters[i]? = some f) (hg : s.filters[j]? = some g) :
    ∃ filter, s.merge i (.filter j) =
        some ({ s with filters := s.filters ++ [⟨filter, f.hash, f.k⟩] },
          .filter s.filters.length) ∧
      Represents n m ⟨filter, f.hash, f.k⟩ (A ∪ B) := by
  have hlen : f.filter.length = g.filter.length := hrepf.length_eq.trans hrepg.length_eq.symm
  have hk : g.k = f.k := hrepg.k_eq.trans hrepf.k_eq.symm
  refine ⟨List.zipWith (· ||| ·) f.filter g.filter, ?_, hrepf.hash_lt, ?_, hrepf.k_eq, fun p => ?_⟩
  · simp only [Heap.merge, hf, hg, hlen, hk, ne_eq, not_true_eq_false, if_false]
  · rw [List.length_zipWith, ← hlen, Nat.min_self, hrepf.length_eq]
  · rw [BitArray.bit_zipWith_or hlen, Bool.or_eq_true, hrepf.bit_iff, hrepg.bit_iff]
    constructor
    · rintro (⟨x, hx, hp⟩ | ⟨x, hx, hp⟩)
      · exact ⟨x, .inl hx, hp⟩
      · exact ⟨x, .inr hx, hp⟩
    · rintro ⟨x, hx | hx, hp⟩
      · exact .inl ⟨x, hx, hp⟩
      · exact .inr ⟨x, hx, hp⟩

/-- A filter without a set bit represents no items. -/
theorem represents_empty (n hashes : ℕ) :
    Represents n (hashes + 1) ⟨List.replicate n 0, hashes, 3⟩ ∅ :=
  ⟨Nat.lt_succ_self _, List.length_replicate, rfl, by simp [BitArray.bit_replicate_zero]⟩

/-- `NewFilter` makes a filter without items next to the others. -/
theorem newFilter_spec (s : Heap) (n : ℕ) : ∃ t f,
    s.newFilter n = some (t, .filter s.filters.length) ∧ Holds n t s.filters.length f ∅ ∧
      ∀ j, j < s.filters.length → t.filters[j]? = s.filters[j]? := by
  refine ⟨⟨s.hashes ++ [0], s.filters ++ [⟨List.replicate n 0, s.hashes.length, 3⟩]⟩,
    ⟨List.replicate n 0, s.hashes.length, 3⟩, ?_, ⟨by simp, ?_, by simp⟩, fun j hj => ?_⟩
  · simp only [Heap.newFilter, Int.toNat_natCast]
    rw [if_neg (by omega)]
  · rw [List.length_append, List.length_singleton]
    exact represents_empty n _
  · exact List.getElem?_append_left hj

end Calls

/-! ## Runs -/

section Runs

variable {n : ℕ} {s t : Heap} {A : ℕ → Set Bytes}

/-- A filter of a heap with one more filter is an old one or the new one. -/
theorem getElem?_append_singleton_cases {fs : List Filter} {f g : Filter} {i : ℕ}
    (h : (fs ++ [f])[i]? = some g) : fs[i]? = some g ∨ i = fs.length ∧ f = g := by
  rw [List.getElem?_append] at h
  split at h
  next => exact .inl h
  next hge =>
    rw [List.getElem?_singleton] at h
    split at h
    next hzero => exact .inr ⟨by omega, Option.some.inj h⟩
    next => cases h

/-- One more filter that represents its items, with the hash objects there are. -/
theorem Inv.append (hs : Inv n s A) {f : Filter} {B : Set Bytes}
    (hf : Represents n s.hashes.length f B) :
    Inv n { s with filters := s.filters ++ [f] } (Function.update A s.filters.length B) := by
  refine ⟨hs.reset, fun i g hg => ?_, fun i hi => ?_⟩
  · rcases getElem?_append_singleton_cases hg with hg | ⟨rfl, rfl⟩
    · have hlt : i < s.filters.length := (List.getElem?_eq_some_iff.mp hg).1
      rw [Function.update_of_ne (by omega)]
      exact hs.represents i g hg
    · rw [Function.update_self]
      exact hf
  · rw [List.length_append, List.length_singleton] at hi
    rw [Function.update_of_ne (by omega)]
    exact hs.unborn i (by omega)

/-- A filter is replaced by one that represents its new items. -/
theorem Inv.set (hs : Inv n s A) {i : ℕ} {f : Filter} {B : Set Bytes} (hi : i < s.filters.length)
    (hf : Represents n s.hashes.length f B) :
    Inv n { s with filters := s.filters.set i f } (Function.update A i B) := by
  refine ⟨hs.reset, fun j g hg => ?_, fun j hj => ?_⟩
  · by_cases hij : i = j
    · subst hij
      rw [List.getElem?_set_self hi] at hg
      cases hg
      rw [Function.update_self]
      exact hf
    · rw [List.getElem?_set_ne hij] at hg
      rw [Function.update_of_ne (Ne.symm hij)]
      exact hs.represents j g hg
  · rw [List.length_set] at hj
    rw [Function.update_of_ne (by omega)]
    exact hs.unborn j hj

/-- `NewFilter` makes a filter without items and its own hash object. -/
theorem Inv.newFilter (hs : Inv n s A) {r : Result} (hstep : s.newFilter n = some (t, r)) :
    Inv n t A := by
  simp only [Heap.newFilter, Int.toNat_natCast] at hstep
  rw [if_neg (by omega)] at hstep
  obtain ⟨rfl, -⟩ := Prod.mk.inj (Option.some.inj hstep)
  -- the new hash object comes first, then the filter that uses it
  have hs' : Inv n ⟨s.hashes ++ [0], s.filters⟩ A := by
    refine ⟨?_, fun i f hf => ?_, hs.unborn⟩
    · intro hash hmem
      rcases List.mem_append.mp hmem with hmem | hmem
      · exact hs.reset hash hmem
      · exact List.mem_singleton.mp hmem
    · have hrep := hs.represents i f hf
      refine ⟨?_, hrep.length_eq, hrep.k_eq, hrep.bit_iff⟩
      have hlt := hrep.hash_lt
      simp only [List.length_append, List.length_singleton]
      omega
  have hnew : Represents n (s.hashes ++ [0]).length ⟨List.replicate n 0, s.hashes.length, 3⟩ ∅ := by
    rw [List.length_append, List.length_singleton]
    exact represents_empty n _
  have hitems : Function.update A s.filters.length ∅ = A := by
    rw [← hs.unborn _ le_rfl, Function.update_eq_self]
  have happend := hs'.append hnew
  rwa [hitems] at happend

/-- Every call keeps the invariant, with the items after the call. -/
theorem Inv.step (hn : n * 8 % 2 ^ 32 ≠ 0) (hs : Inv n s A) {l : Op × Result} (hsize : OfSize n l.1)
    (hstep : Heap.lts.step s l t) : Inv n t (itemsStep A l) := by
  obtain ⟨op, r⟩ := l
  cases op with
  | newFilter size =>
    obtain rfl : size = n := hsize
    have hr : itemsStep A (.newFilter n, r) = A := by cases r <;> rfl
    rw [hr]
    exact hs.newFilter hstep
  | add i bytes =>
    have hstep : s.add i bytes = some (t, r) := hstep
    obtain ⟨f, hf⟩ := Heap.exists_of_add hstep
    obtain ⟨filter, hadd, hholds⟩ := (hs.holds hf).add hn bytes
    rw [hadd] at hstep
    obtain ⟨rfl, rfl⟩ := Prod.mk.inj (Option.some.inj hstep)
    exact hs.set (List.getElem?_eq_some_iff.mp hf).1 hholds.represents
  | find i bytes =>
    have hstep : s.find i bytes = some (t, r) := hstep
    have hr : itemsStep A (.find i bytes, r) = A := by cases r <;> rfl
    obtain ⟨f, hf⟩ := Heap.exists_of_find hstep
    obtain ⟨b, hfind, -⟩ := (hs.holds hf).find hn bytes
    rw [hfind] at hstep
    obtain ⟨rfl, -⟩ := Prod.mk.inj (Option.some.inj hstep)
    rw [hr]
    exact hs
  | merge i o =>
    have hstep : s.merge i o = some (t, r) := hstep
    cases o with
    | foreign =>
      simp only [Heap.merge, Option.ite_none_right_eq_some] at hstep
      obtain ⟨rfl, rfl⟩ := Prod.mk.inj (Option.some.inj hstep.2)
      exact hs
    | filter j =>
      obtain ⟨f, g, hf, hg⟩ := Heap.exists_of_merge hstep
      obtain ⟨filter, hmerge, hrep⟩ := (hs.represents i f hf).merge (hs.represents j g hg) hf hg
      rw [hmerge] at hstep
      obtain ⟨rfl, rfl⟩ := Prod.mk.inj (Option.some.inj hstep)
      exact hs.append hrep

/-- Along every run of calls on filters of one size the filters represent their
items. -/
theorem Inv.run (hn : n * 8 % 2 ^ 32 ≠ 0) {hist : List (Op × Result)}
    (hrun : (Heap.lts.restrict fun _ l => OfSize n l.1).Run .empty hist s) :
    Inv n s (items hist) := by
  refine hrun.history_induction (fun hist s => Inv n s (items hist)) ?_ ?_
  · exact ⟨by simp [Heap.empty], by simp [Heap.empty], fun _ _ => rfl⟩
  · intro hist v l w _ hv hstep
    rw [items_snoc]
    exact hv.step hn hstep.2 hstep.1

/-- Filters of one size that represent the same items have the same bits. -/
theorem Represents.filter_eq {m m' : ℕ} {f f' : Filter} {B : Set Bytes}
    (hf : Represents n m f B) (hf' : Represents n m' f' B) : f.filter = f'.filter := by
  refine BitArray.eq_of_bit_eq (hf.length_eq.trans hf'.length_eq.symm) fun j => ?_
  rw [Bool.eq_iff_iff, hf.bit_iff, hf'.bit_iff]

end Runs

/-- **The algebra of bloom filters.** Take filters of one size whose number of bits
does not vanish in 32 bits, and any run of `NewFilter`, `Add`, `Find` and `Merge` on
them. The set bits of each filter are the union of the positions of its items. No
call on an existing filter panics: `Add` and `Merge` return, and `Find` is true
exactly if all positions of the item are in that union, in particular for every item
that was added. Filters with the same items have the same bytes, in whatever runs
they were made, and `Find` and `Merge` change no filter. -/
theorem filter_algebra (n : ℕ) (hn : n * 8 % 2 ^ 32 ≠ 0) (hist : List (Op × Result)) (s : Heap)
    (hrun : (Heap.lts.restrict fun _ l => OfSize n l.1).Run .empty hist s) :
    (∀ i f, s.filters[i]? = some f →
      (∀ j, BitArray.bit f.filter j = true ↔ ∃ x ∈ items hist i, j ∈ positions n x) ∧
      (∀ x, ∃ t, s.step (.add i x) = some (t, .done)) ∧
      (∀ j g, s.filters[j]? = some g →
        ∃ t, s.step (.merge i (.filter j)) = some (t, .filter s.filters.length)) ∧
      (∀ x, ∃ b, s.step (.find i x) = some (s, .found b) ∧
        (b = true ↔ ∀ j ∈ positions n x, ∃ y ∈ items hist i, j ∈ positions n y) ∧
        (x ∈ items hist i → b = true))) ∧
    (∀ (i j : ℕ) o x r t, (s.step (.find i x) = some (t, r) ∨ s.step (.merge i o) = some (t, r)) →
      ∀ f, s.filters[j]? = some f → t.filters[j]? = some f) ∧
    (∀ hist' s' i i' f f', (Heap.lts.restrict fun _ l => OfSize n l.1).Run .empty hist' s' →
      s.filters[i]? = some f → s'.filters[i']? = some f' → items hist i = items hist' i' →
      f.filter = f'.filter) := by
  have hs := Inv.run hn hrun
  refine ⟨fun i f hf => ⟨(hs.represents i f hf).bit_iff, ?_, ?_, ?_⟩, ?_, ?_⟩
  · intro x
    obtain ⟨filter, hadd, -⟩ := (hs.holds hf).add hn x
    exact ⟨_, hadd⟩
  · intro j g hg
    obtain ⟨filter, hmerge, -⟩ := (hs.represents i f hf).merge (hs.represents j g hg) hf hg
    exact ⟨_, hmerge⟩
  · intro x
    obtain ⟨b, hfind, hb⟩ := (hs.holds hf).find hn x
    exact ⟨b, hfind, hb, fun hx => hb.mpr fun j hj => ⟨x, hx, hj⟩⟩
  · intro i j o x r t hstep f hf
    rcases hstep with hstep | hstep
    · rwa [Heap.find_filters hstep]
    · obtain ⟨rest, hrest⟩ := Heap.merge_filters hstep
      rwa [← hrest, List.getElem?_append_left (List.getElem?_eq_some_iff.mp hf).1]
  · intro hist' s' i i' f f' hrun' hf hf' hitems
    have hrep := hs.represents i f hf
    rw [hitems] at hrep
    exact hrep.filter_eq ((Inv.run hn hrun').represents i' f' hf')

/-- A filter of one byte, merged with itself after an item was added, finds the item. -/
theorem filter_algebra_add_merge :
    ∃ s, (Heap.lts.restrict fun _ l => OfSize 1 l.1).Run .empty
        [(.newFilter 1, .filter 0), (.add 0 [7], .done), (.merge 0 (.filter 0), .filter 1)] s ∧
      s.step (.find 1 [7]) = some (s, .found true) := by
  obtain ⟨s, hrun, hfilters⟩ : ∃ s, (Heap.lts.restrict fun _ l => OfSize 1 l.1).Run .empty
      [(.newFilter 1, .filter 0), (.add 0 [7], .done), (.merge 0 (.filter 0), .filter 1)] s ∧
      ∃ f, s.filters[1]? = some f :=
    ⟨_, .cons ⟨rfl, rfl⟩ (.cons ⟨rfl, trivial⟩ (.cons ⟨rfl, trivial⟩ (.nil _))), _, rfl⟩
  obtain ⟨f, hf⟩ := hfilters
  obtain ⟨hone, -, -⟩ := filter_algebra 1 (by decide) _ s hrun
  obtain ⟨b, hfind, -, hfound⟩ := (hone 1 f hf).2.2.2 [7]
  have hmem : [7] ∈ items [(.newFilter 1, .filter 0), (.add 0 [7], .done),
      (.merge 0 (.filter 0), .filter 1)] 1 := by
    simp [items, itemsStep]
  rw [hfound hmem] at hfind
  exact ⟨s, hrun, hfind⟩

end GoBlocks.Bloom
