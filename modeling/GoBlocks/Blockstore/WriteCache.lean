import GoBlocks.Blockstore.FaithfulMap
import GoBlocks.Lru

/-!
# The write cache

`WriteCached` wraps a blockstore with a fixed size cache of the keys it takes to
be stored. A key in the cache makes `Has` reply at once and makes `Put` skip the
store. Over an error-free store that is a faithful map, sequential use of the
wrapped store cannot be told from use of the store itself.
-/

namespace GoBlocks

open Blockstore

/-- The cache of a `writecache`: keys only, the values are empty. -/
abbrev KeyCache := Lru.Cache Key Unit

namespace WriteCache

variable {σ : Type} (bs : Blockstore σ)

/-- `writecache.DeleteBlock`. -/
def deleteBlock (k : Key) (s : KeyCache × σ) : Except Err Unit × KeyCache × σ :=
  ((bs.deleteBlock k s.2).1, s.1.remove k, (bs.deleteBlock k s.2).2)

/-- `writecache.Has`. -/
def has (k : Key) (s : KeyCache × σ) : Except Err Bool × KeyCache × σ :=
  if (s.1.get k).1.isSome then (.ok true, (s.1.get k).2, s.2)
  else ((bs.has k s.2).1, (s.1.get k).2, (bs.has k s.2).2)

/-- `writecache.Get`. -/
def get (k : Key) (s : KeyCache × σ) : Except Err Block × KeyCache × σ :=
  ((bs.get k s.2).1, s.1, (bs.get k s.2).2)

/-- `writecache.Put`: the key enters the cache before the store is asked. -/
def put (b : Block) (s : KeyCache × σ) : Except Err Unit × KeyCache × σ :=
  if (s.1.get b.key).1.isSome then (.ok (), (s.1.get b.key).2, s.2)
  else ((bs.put b s.2).1, (s.1.get b.key).2.add b.key (), (bs.put b s.2).2)

/-- `writecache.GetChan`. -/
def getChan (ks : List Key) (s : KeyCache × σ) : List Block × KeyCache × σ :=
  ((bs.getChan ks s.2).1, s.1, (bs.getChan ks s.2).2)

/-- The `writecache` over a blockstore. -/
def store : Blockstore (KeyCache × σ) where
  deleteBlock := deleteBlock bs
  has := has bs
  get := get bs
  put := put bs
  getChan := getChan bs
  allKeysChan s r := bs.allKeysChan s.2 r

/-- `WriteCached` starts with an empty cache of the given size, and fails if there
is no such cache. -/
def writeCached (size : ℤ) (s : σ) : Option (KeyCache × σ) :=
  (Lru.Cache.new Key Unit size).map fun c => (c, s)

/-- `WriteCached` succeeds for every positive size, with an empty cache. -/
theorem exists_writeCached {size : ℤ} (hsize : 1 ≤ size) (s : σ) :
    ∃ c : KeyCache, writeCached size s = some (c, s) ∧ ∀ k, k ∉ c := by
  obtain ⟨c, hc, hempty⟩ := Lru.Cache.exists_new (κ := Key) (ν := Unit) hsize
  exact ⟨c, by rw [writeCached, hc]; rfl, hempty⟩

variable {bs} {c : KeyCache} {s : σ}

/-- `Has` of a cached key does not ask the store. -/
theorem has_of_mem {k : Key} (h : k ∈ c) : has bs k (c, s) = (.ok true, (c.get k).2, s) :=
  if_pos (Lru.Cache.get_isSome_iff.mpr h)

/-- `Has` of another key asks the store. -/
theorem has_of_notMem {k : Key} (h : k ∉ c) :
    has bs k (c, s) = ((bs.has k s).1, (c.get k).2, (bs.has k s).2) :=
  if_neg (mt Lru.Cache.get_isSome_iff.mp h)

/-- `Put` of a cached key does not ask the store. -/
theorem put_of_mem {b : Block} (h : b.key ∈ c) :
    put bs b (c, s) = (.ok (), (c.get b.key).2, s) :=
  if_pos (Lru.Cache.get_isSome_iff.mpr h)

/-- `Put` of another key adds it to the cache and asks the store. -/
theorem put_of_notMem {b : Block} (h : b.key ∉ c) :
    put bs b (c, s) = ((bs.put b s).1, (c.get b.key).2.add b.key (), (bs.put b s).2) :=
  if_neg (mt Lru.Cache.get_isSome_iff.mp h)

/-- Every cached key is present in the contents. -/
def Covered (c : KeyCache) (m : Contents) : Prop := ∀ k ∈ c, (m k).isSome

variable {m : Contents}

/-- An empty cache is covered. -/
theorem covered_of_empty (h : ∀ k, k ∉ c) : Covered c m := fun k hk => absurd hk (h k)

/-- A lookup keeps the cache covered. -/
theorem Covered.get (h : Covered c m) (k : Key) : Covered (c.get k).2 m :=
  fun k' hk' => h k' (Lru.Cache.mem_get.mp hk')

/-- Adding the key of a block that is put keeps the cache covered. -/
theorem Covered.put (h : Covered c m) (b : Block) : Covered (c.add b.key ()) (m.put b) := by
  intro k hk
  rcases Lru.Cache.eq_or_mem_of_mem_add hk with rfl | hk
  · exact m.isSome_put_self b
  · exact Contents.isSome_put (h k hk) b

/-- Removing a key that is deleted keeps the cache covered. -/
theorem Covered.delete (h : Covered c m) (k : Key) : Covered (c.remove k) (m.delete k) := by
  intro k' hk'
  obtain ⟨hmem, hne⟩ := Lru.Cache.mem_remove.mp hk'
  rw [Contents.delete, Function.update_of_ne hne]
  exact h k' hmem

section Transparency

variable (M : FaithfulMap bs)

/-- The states of the wrapped store and of the store used directly: equal
contents, and the cache vouches for present keys only. -/
def Rel (s : KeyCache × σ) (t : σ) : Prop :=
  M.contents s.2 = M.contents t ∧ Covered s.1 (M.contents s.2)

/-- `Put` through the cache agrees with `Put` on the store. -/
theorem put_agree (b : Block) (s : KeyCache × σ) (t : σ) (hR : Rel M s t) :
    (put bs b s).1 = (bs.put b t).1 ∧ Rel M (put bs b s).2 (bs.put b t).2 := by
  obtain ⟨c, s⟩ := s
  obtain ⟨heq, hcov⟩ := hR
  by_cases hmem : b.key ∈ c
  · have hpresent : (M.contents s b.key).isSome := hcov b.key hmem
    rw [put_of_mem hmem]
    refine ⟨(M.put_reply b t).symm, ?_, hcov.get b.key⟩
    rw [M.contents_put, ← heq, Contents.put_of_isSome hpresent]
  · rw [put_of_notMem hmem]
    refine ⟨(M.put_reply b s).trans (M.put_reply b t).symm, ?_, ?_⟩
    · rw [M.contents_put, M.contents_put, heq]
    · rw [M.contents_put]
      exact (hcov.get b.key).put b

/-- `Has` through the cache agrees with `Has` on the store. -/
theorem has_agree (k : Key) (s : KeyCache × σ) (t : σ) (hR : Rel M s t) :
    (has bs k s).1 = (bs.has k t).1 ∧ Rel M (has bs k s).2 (bs.has k t).2 := by
  obtain ⟨c, s⟩ := s
  obtain ⟨heq, hcov⟩ := hR
  by_cases hmem : k ∈ c
  · have hpresent : (M.contents s k).isSome := hcov k hmem
    rw [has_of_mem hmem]
    refine ⟨?_, ?_, hcov.get k⟩
    · rw [M.has_reply, ← heq, hpresent]
    · rw [M.contents_has, heq]
  · rw [has_of_notMem hmem]
    refine ⟨?_, ?_, ?_⟩
    · rw [M.has_reply, M.has_reply, heq]
    · rw [M.contents_has, M.contents_has, heq]
    · rw [M.contents_has]
      exact hcov.get k

/-- `DeleteBlock` through the cache agrees with `DeleteBlock` on the store. -/
theorem deleteBlock_agree (k : Key) (s : KeyCache × σ) (t : σ) (hR : Rel M s t) :
    (deleteBlock bs k s).1 = (bs.deleteBlock k t).1 ∧
      Rel M (deleteBlock bs k s).2 (bs.deleteBlock k t).2 := by
  obtain ⟨c, s⟩ := s
  obtain ⟨heq, hcov⟩ := hR
  refine ⟨?_, ?_, ?_⟩
  · rw [M.deleteBlock_reply, ← heq]
    exact M.deleteBlock_reply k s
  · rw [M.contents_deleteBlock, ← heq]
    exact M.contents_deleteBlock k s
  · change Covered (c.remove k) (M.contents (bs.deleteBlock k s).2)
    rw [M.contents_deleteBlock]
    exact hcov.delete k

/-- The wrapped store and the store itself agree. -/
theorem store_agree : Agree (store bs) bs (Rel M) where
  put := put_agree M
  has := has_agree M
  deleteBlock := deleteBlock_agree M
  get k s t hR := by
    refine ⟨?_, ?_, ?_⟩
    · rw [M.get_reply, ← hR.1]
      exact M.get_reply k s.2
    · rw [M.contents_get, ← hR.1]
      exact M.contents_get k s.2
    · exact (M.contents_get k s.2).symm ▸ hR.2
  getChan ks s t hR := by
    refine ⟨?_, ?_, ?_⟩
    · rw [M.getChan_reply, ← hR.1]
      exact M.getChan_reply ks s.2
    · rw [M.contents_getChan, ← hR.1]
      exact M.contents_getChan ks s.2
    · exact (M.contents_getChan ks s.2).symm ▸ hR.2
  allKeysChan s t r hR := M.allKeysChan_congr s.2 t r hR.1

/-- **Transparency of the write cache.** For every positive size and any initial
contents, the sequential runs of the wrapped store, with their replies, are those
of the store itself, and they leave the same contents. -/
theorem writeCached_transparent {size : ℤ} (hsize : 1 ≤ size) (s : σ) :
    ∃ w, writeCached size s = some w ∧ ∀ ls : List (Call × Reply),
      (∀ w', (store bs).lts.Run w ls w' →
        ∃ s', bs.lts.Run s ls s' ∧ M.contents w'.2 = M.contents s') ∧
      (∀ s', bs.lts.Run s ls s' →
        ∃ w', (store bs).lts.Run w ls w' ∧ M.contents w'.2 = M.contents s') := by
  obtain ⟨c, hc, hempty⟩ := exists_writeCached hsize s
  have hR : Rel M (c, s) s := ⟨rfl, covered_of_empty hempty⟩
  refine ⟨(c, s), hc, fun ls => ⟨fun w' hrun => ?_, fun s' hrun => ?_⟩⟩
  · obtain ⟨s', hs', hR'⟩ := (store_agree M).simulates.run hR hrun
    exact ⟨s', hs', hR'.1⟩
  · obtain ⟨w', hw', hR'⟩ := (store_agree M).symm.simulates.run hR hrun
    exact ⟨w', hw', hR'.1⟩

end Transparency

/-- A block put through a cache of size one is found and deleted. -/
theorem writeCached_transparent_put_has_delete :
    ∃ w, writeCached 1 (fun _ => none : Contents) = some w ∧
      ∃ w', (store contentsStore).lts.Run w
        [(.put ⟨[1], [2]⟩, .put (.ok ())), (.has [1], .has (.ok true)),
          (.deleteBlock [1], .deleteBlock (.ok ()))] w' := by
  obtain ⟨w, hw, hls⟩ :=
    writeCached_transparent contentsStore.faithful (le_refl 1) fun _ => none
  have hdirect : ∃ m, contentsStore.lts.Run (fun _ => none)
      [(.put ⟨[1], [2]⟩, .put (.ok ())), (.has [1], .has (.ok true)),
        (.deleteBlock [1], .deleteBlock (.ok ()))] m :=
    ⟨_, .cons rfl (.cons rfl (.cons rfl (.nil _)))⟩
  obtain ⟨m, hm⟩ := hdirect
  obtain ⟨w', hw', -⟩ := (hls _).2 m hm
  exact ⟨w, hw, w', hw'⟩

end WriteCache

end GoBlocks
