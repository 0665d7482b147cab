import GoBlocks.BlockSet.Basic
import GoBlocks.Bloom.Algebra

/-!
# The bloom filters of block sets

`GetBloomFilter` of a simple set makes a new filter and adds the members in the order in
which the map is ranged over. Whatever that order and the history of the set are, and
whatever other filters exist, the bits of the filter are those of the members.
-/

namespace GoBlocks.BlockSet

open Bloom

/-! ## Filters of key lists -/

/-- The number of bits of `BasicFilter` fits in 32 bits. -/
theorem basicFilter_bits : 2048 * 8 % 2 ^ 32 ≠ 0 := by decide

/-- Adding keys to a filter adds them to its items and leaves the other filters alone. -/
theorem addKeys_spec {h : Heap} {i : ℕ} {f : Filter} {A : Set Bytes} (hf : Holds 2048 h i f A)
    (ks : List Key) : ∃ h' f', addKeys i ks h = some h' ∧ Holds 2048 h' i f' (A ∪ {k | k ∈ ks}) ∧
      ∀ j, j ≠ i → h'.filters[j]? = h.filters[j]? := by
  induction ks generalizing h f A with
  | nil => exact ⟨h, f, rfl, by simpa using hf, fun _ _ => rfl⟩
  | cons k ks ih =>
    obtain ⟨filter, hadd, hf'⟩ := hf.add basicFilter_bits k
    obtain ⟨h', f', hks, hholds, hother⟩ := ih hf'
    refine ⟨h', f', by rw [addKeys, hadd]; exact hks, ?_, fun j hj => ?_⟩
    · have hitems : insert k A ∪ {k' | k' ∈ ks} = A ∪ {k' | k' ∈ k :: ks} := by
        ext k'
        simp only [Set.mem_union, Set.mem_insert_iff, Set.mem_ofPred_eq, List.mem_cons]
        tauto
      rwa [hitems] at hholds
    · rw [hother j hj, List.getElem?_set_ne hj.symm]

/-- Ranging over the map is possible. -/
theorem exists_getBloomFilter (s : Finset Key) (h : Heap) : ∃ r, simple.getBloomFilter s h r := by
  obtain ⟨order, horder⟩ := Quot.exists_rep s.val
  exact ⟨_, order, horder, rfl⟩

/-- `GetBloomFilter` makes a filter of the members next to the other filters. -/
theorem getBloomFilter_spec {s : Finset Key} {h : Heap} {r : Option (Heap × ℕ)}
    (hr : simple.getBloomFilter s h r) : ∃ h' f, r = some (h', h.filters.length) ∧
      Holds 2048 h' h.filters.length f {k | k ∈ s} ∧
      ∀ j, j < h.filters.length → h'.filters[j]? = h.filters[j]? := by
  obtain ⟨order, horder, rfl⟩ := hr
  obtain ⟨h₁, f₁, hbasic, hholds₁, hold₁⟩ := newFilter_spec h 2048
  obtain ⟨h', f, hkeys, hholds, hother⟩ := addKeys_spec hholds₁ order
  have hitems : ∅ ∪ {k | k ∈ order} = {k : Key | k ∈ s} := by
    ext k
    rw [Set.empty_union, Set.mem_ofPred_eq, Set.mem_ofPred_eq, ← Finset.mem_val, ← horder,
      Multiset.mem_coe]
  rw [hitems] at hholds
  have hbasic : h.basicFilter = some (h₁, .filter h.filters.length) := hbasic
  refine ⟨h', f, ?_, hholds, fun j hj => ?_⟩
  · rw [hbasic, Option.bind_some, hkeys]
    rfl
  · rw [hother j hj.ne, hold₁ j hj]

/-- The filter that `GetBloomFilter` returns represents the members. -/
theorem getBloomFilter_represents {s : Finset Key} {h h' : Heap} {i : ℕ} {f : Filter}
    (hr : simple.getBloomFilter s h (some (h', i))) (hf : h'.filters[i]? = some f) :
    Represents 2048 h'.hashes.length f {k | k ∈ s} := by
  obtain ⟨_, f', heq, hholds, -⟩ := getBloomFilter_spec hr
  cases heq
  rw [hholds.filter] at hf
  cases hf
  exact hholds.represents

/-! ## Filters of sets -/

/-- How a simple set is made. -/
inductive Origin where
  /-- `NewSimpleBlockSet`. -/
  | new
  /-- `SimpleSetFromKeys`. -/
  | fromKeys (keys : List Key)

/-- The set that is made. -/
def Origin.set : Origin → Finset Key
  | .new => newSimpleBlockSet
  | .fromKeys keys => simpleSetFromKeys keys

/-- The set after a sequence of updates. -/
def built (o : Origin) (us : List Update) : Finset Key := simple.updates us o.set

/-- Sets with the same answers of `HasKey` have the same members. -/
theorem members_eq {s t : Finset Key} (h : ∀ k, simple.hasKey k s = simple.hasKey k t) : s = t := by
  ext k
  simpa [simple] using h k

/-- The members of a set that has the members of two others. -/
theorem members_union {s t u : Finset Key}
    (h : ∀ k, simple.hasKey k u = (simple.hasKey k s || simple.hasKey k t)) :
    {k | k ∈ s} ∪ {k | k ∈ t} = {k : Key | k ∈ u} := by
  ext k
  have hk := h k
  simp only [simple, ← Bool.decide_or, decide_eq_decide] at hk
  exact hk.symm

/-- `Merge` of the filters of two sets makes a filter that represents the members of both. -/
theorem merge_represents {s t : Finset Key} {h h' g g' : Heap} {i j : ℕ}
    (hs : simple.getBloomFilter s h (some (h', i))) (hkeep : g.filters[i]? = h'.filters[i]?)
    (ht : simple.getBloomFilter t g (some (g', j))) :
    ∃ m l f n, g'.merge i (.filter j) = some (m, .filter l) ∧ m.filters[l]? = some f ∧
      Represents 2048 n f ({k | k ∈ s} ∪ {k | k ∈ t}) := by
  obtain ⟨_, f, heq, hholds, -⟩ := getBloomFilter_spec hs
  obtain ⟨_, f', heq', hholds', hold⟩ := getBloomFilter_spec ht
  cases heq
  cases heq'
  have hgi : g.filters[h.filters.length]? = some f := hkeep.trans hholds.filter
  have hlt : h.filters.length < g.filters.length := (List.getElem?_eq_some_iff.mp hgi).1
  obtain ⟨filter, hmerge, hrep⟩ := hholds.represents.merge hholds'.represents
    ((hold _ hlt).trans hgi) hholds'.filter
  exact ⟨_, _, _, _, hmerge, List.getElem?_concat_length .., hrep⟩

/-- **Bloom filters of block sets depend only on membership.** For any histories of
simple sets, any order in which the maps are ranged over and any other filters:
`GetBloomFilter` makes a filter, and `Find` finds every member in it; the filters of sets
with the same members have the same bits; and `Merge` of the filters of two sets makes a
filter with the bits of the filter of every set whose members are those of both. -/
theorem bloomFilter_of_members (o o' : Origin) (us us' : List Update) :
    (∀ h, (∃ r, simple.getBloomFilter (built o us) h r) ∧
      ∀ r, simple.getBloomFilter (built o us) h r → ∃ h' i f, r = some (h', i) ∧
        h'.filters[i]? = some f ∧
        ∀ k, simple.hasKey k (built o us) → h'.find i k = some (h', .found true)) ∧
    (∀ h h' g g' i j f f', simple.getBloomFilter (built o us) h (some (h', i)) →
      simple.getBloomFilter (built o' us') g (some (g', j)) →
      (∀ k, simple.hasKey k (built o us) = simple.hasKey k (built o' us')) →
      h'.filters[i]? = some f → g'.filters[j]? = some f' → f.filter = f'.filter) ∧
    (∀ h h' g g' i j, simple.getBloomFilter (built o us) h (some (h', i)) →
      g.filters[i]? = h'.filters[i]? →
      simple.getBloomFilter (built o' us') g (some (g', j)) →
      ∃ m l f, g'.merge i (.filter j) = some (m, .filter l) ∧ m.filters[l]? = some f ∧
        ∀ o'' us'', (∀ k, simple.hasKey k (built o'' us'') =
            (simple.hasKey k (built o us) || simple.hasKey k (built o' us'))) →
          ∀ u u' p f', simple.getBloomFilter (built o'' us'') u (some (u', p)) →
            u'.filters[p]? = some f' → f.filter = f'.filter) := by
  refine ⟨fun h => ⟨exists_getBloomFilter _ h, fun r hr => ?_⟩, ?_, ?_⟩
  · obtain ⟨h', f, rfl, hholds, -⟩ := getBloomFilter_spec hr
    refine ⟨h', _, f, rfl, hholds.filter, fun k hk => ?_⟩
    exact hholds.find_mem basicFilter_bits (of_decide_eq_true hk)
  · intro h h' g g' i j f f' hr hr' hsame hf hf'
    rw [← members_eq hsame] at hr'
    exact (getBloomFilter_represents hr hf).filter_eq (getBloomFilter_represents hr' hf')
  · intro h h' g g' i j hr hkeep hr'
    obtain ⟨m, l, f, n, hmerge, hf, hrep⟩ := merge_represents hr hkeep hr'
    refine ⟨m, l, f, hmerge, hf, ?_⟩
    intro o'' us'' hunion u u' p f'' hr'' hf''
    rw [members_union hunion] at hrep
    exact hrep.filter_eq (getBloomFilter_represents hr'' hf'')

end GoBlocks.BlockSet
