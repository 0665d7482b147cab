import GoBlocks.Lru
import Mathlib.Data.Finset.Card
import Mathlib.Data.Finset.Dedup

/-!
# Recency in the LRU cache

The eviction list is ordered by use. A key that was used just now is in front, and
every other key that is used later moves ahead of it at most once. As long as the keys
ahead of it are fewer than the size of the cache without it, no addition evicts it. The
cache never holds more keys than its size.
-/

namespace GoBlocks.Lru.Cache

variable {κ ν : Type*} [DecidableEq κ] {c : Cache κ ν} {k key : κ} {U : Finset κ} {value : ν}

/-- No key is twice in the list. -/
theorem keys_nodup (c : Cache κ ν) : c.keys.Nodup := LinkedList.InStep.keys_nodup c.inStep

/-! ## The size -/

/-- The map has as many keys as the list. -/
theorem card_items_keys (c : Cache κ ν) : c.items.keys.card = c.keys.length := by
  have hkeys : c.items.keys = c.keys.toFinset := by
    ext key
    rw [Finmap.mem_keys, List.mem_toFinset]
    exact c.inStep.mem_items_iff
  rw [hkeys, List.toFinset_card_of_nodup c.keys_nodup]

/-- The cache does not exceed its size. -/
def Bounded (c : Cache κ ν) : Prop := (c.keys.length : ℤ) ≤ c.size

/-- `Get` keeps the number of keys. -/
theorem length_keys_get (c : Cache κ ν) (key : κ) :
    (c.get key).2.keys.length = c.keys.length := by
  refine ((List.perm_ext_iff_of_nodup (keys_nodup _) (keys_nodup _)).mpr fun k => ?_).length_eq
  rw [← mem_iff_mem_keys, mem_get, mem_iff_mem_keys]

/-- `Get` keeps the bound. -/
theorem Bounded.get (h : Bounded c) (key : κ) : Bounded (c.get key).2 := by
  rw [Bounded, length_keys_get]
  exact h.trans_eq (c.size_get key).symm

/-- `Remove` keeps the bound. -/
theorem Bounded.remove (h : Bounded c) (key : κ) : Bounded (c.remove key) := by
  have hle : (c.remove key).keys.length ≤ c.keys.length := by
    rw [keys_remove]
    exact List.length_filter_le _ _
  exact (Int.ofNat_le.mpr hle).trans (h.trans_eq (c.size_remove key).symm)

/-- `Add` of a new key keeps the bound. -/
theorem Bounded.add (h : Bounded c) (hkey : key ∉ c) (value : ν) : Bounded (c.add key value) := by
  have hsize : (c.add key value).size = c.size := c.size_add key value
  rw [Bounded, hsize, keys_add_of_notMem hkey]
  split
  next =>
    rw [List.length_dropLast, List.length_cons, Nat.add_sub_cancel]
    exact h
  next hfits =>
    rw [List.length_cons]
    push_cast
    omega

/-! ## Recent keys -/

/-- The key is in the cache, and all keys ahead of it are in `U`. -/
def Recent (c : Cache κ ν) (k : κ) (U : Finset κ) : Prop :=
  ∃ pre post, c.keys = pre ++ k :: post ∧ ∀ k' ∈ pre, k' ∈ U

/-- A recent key is in the cache. -/
theorem Recent.mem (h : Recent c k U) : k ∈ c := by
  obtain ⟨pre, post, hkeys, -⟩ := h
  rw [mem_iff_mem_keys, hkeys]
  simp

/-- A key in front of the list is recent. -/
theorem recent_of_cons {post : List κ} (h : c.keys = k :: post) : Recent c k U :=
  ⟨[], post, h, by simp⟩

/-- A key that `Get` hits is recent. -/
theorem recent_get_self (h : k ∈ c) : Recent (c.get k).2 k U :=
  recent_of_cons (by rw [keys_get, if_pos h])

/-- A key that `Add` brings in is recent. -/
theorem recent_add_self (h : k ∉ c) (value : ν) : Recent (c.add k value) k U := by
  have hself := mem_add_self c k value
  rw [mem_iff_mem_keys, keys_add_of_notMem h] at hself
  split at hself
  next hfull =>
    cases hkeys : c.keys with
    | nil => simp [hkeys] at hself
    | cons first rest =>
      have hadd : (c.add k value).keys = k :: (first :: rest).dropLast := by
        rw [keys_add_of_notMem h, if_pos hfull, hkeys, List.dropLast_cons_cons]
      exact recent_of_cons hadd
  next hfits => exact recent_of_cons (by rw [keys_add_of_notMem h, if_neg hfits])

/-- A key stays recent when another one is filtered out. -/
theorem filter_recent {pre : List κ} (post : List κ) (hpre : ∀ k' ∈ pre, k' ∈ U) (hne : key ≠ k) :
    ∃ pre' post', (pre ++ k :: post).filter (· ≠ key) = pre' ++ k :: post' ∧
      ∀ k' ∈ pre', k' ∈ U := by
  refine ⟨pre.filter (· ≠ key), post.filter (· ≠ key), ?_, fun k' hk' => ?_⟩
  · simp [List.filter_append, hne.symm]
  · exact hpre k' (List.mem_of_mem_filter hk')

/-- `Remove` of another key keeps a key recent. -/
theorem Recent.remove (h : Recent c k U) (hne : key ≠ k) : Recent (c.remove key) k U := by
  obtain ⟨pre, post, hkeys, hpre⟩ := h
  rw [Recent, keys_remove, hkeys]
  exact filter_recent post hpre hne

/-- `Get` keeps a key recent, counting the key it asks for. -/
theorem Recent.get (h : Recent c k U) (hkey : key ≠ k → key ∈ U) : Recent (c.get key).2 k U := by
  by_cases heq : key = k
  · subst heq
    exact recent_get_self h.mem
  · by_cases hmem : key ∈ c
    · obtain ⟨pre, post, hkeys, hpre⟩ := h
      obtain ⟨pre', post', hfilter, hpre'⟩ := filter_recent post hpre heq
      refine ⟨key :: pre', post', ?_, fun k' hk' => ?_⟩
      · rw [keys_get, if_pos hmem, hkeys, hfilter]
        rfl
      · rcases List.mem_cons.mp hk' with rfl | hk'
        · exact hkey heq
        · exact hpre' k' hk'
    · rw [Recent, keys_get, if_neg hmem]
      exact h

/-- `Add` of another key does not evict a recent key if fewer keys than the size of the
cache count as used since. -/
theorem Recent.add (h : Recent c k U) (hkey : key ∉ c) (hU : key ∈ U)
    (hcard : (U.card : ℤ) < c.size) (value : ν) : Recent (c.add key value) k U := by
  obtain ⟨pre, post, hkeys, hpre⟩ := h
  have hpre' : ∀ k' ∈ key :: pre, k' ∈ U := by
    intro k' hk'
    rcases List.mem_cons.mp hk' with rfl | hk'
    · exact hU
    · exact hpre k' hk'
  rw [Recent, keys_add_of_notMem hkey]
  split
  next hfull =>
    have hpost : post ≠ [] := by
      rintro rfl
      -- the keys ahead and the new one are distinct keys used since, and fill the cache
      have hnodup : (key :: pre).Nodup := by
        have hall := c.keys_nodup
        rw [hkeys] at hall
        refine List.nodup_cons.mpr ⟨fun hmem => hkey ?_, (List.nodup_append.mp hall).1⟩
        rw [mem_iff_mem_keys, hkeys]
        exact List.mem_append_left _ hmem
      have hle : (key :: pre).length ≤ U.card := by
        rw [← List.toFinset_card_of_nodup hnodup]
        exact Finset.card_le_card fun k' hk' => hpre' k' (List.mem_toFinset.mp hk')
      rw [hkeys] at hfull
      simp only [List.length_append, List.length_cons, List.length_nil] at hfull hle
      omega
    refine ⟨key :: pre, post.dropLast, ?_, hpre'⟩
    rw [hkeys, ← List.cons_append, List.dropLast_append_of_ne_nil (by simp),
      List.dropLast_cons_of_ne_nil hpost]
  next =>
    refine ⟨key :: pre, post, ?_, hpre'⟩
    rw [hkeys, List.cons_append]

end GoBlocks.Lru.Cache
