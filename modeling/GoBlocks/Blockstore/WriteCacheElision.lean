import GoBlocks.Blockstore.WriteCache
import GoBlocks.Lru.Recency

/-!
# Writes that the write cache elides

A key that was put is in front of the cache, and it stays there as long as fewer other
keys than the size of the cache are put or asked for. A second `Put` of the key then
replies at once. The store below records the calls that are made on it, so that a run
shows which calls the cache lets through.
-/

namespace GoBlocks

open Blockstore

variable {σ ρ : Type}

/-- A call that is recorded before it is made. -/
def record (call : Call) (f : σ → ρ × σ) (s : List Call × σ) : ρ × List Call × σ :=
  ((f s.2).1, s.1 ++ [call], (f s.2).2)

/-- The store that records the calls made on it. A query changes nothing and is not
recorded. -/
def logged (bs : Blockstore σ) : Blockstore (List Call × σ) where
  put b := record (.put b) (bs.put b)
  has k := record (.has k) (bs.has k)
  get k := record (.get k) (bs.get k)
  deleteBlock k := record (.deleteBlock k) (bs.deleteBlock k)
  getChan ks := record (.getChan ks) (bs.getChan ks)
  allKeysChan s r := bs.allKeysChan s.2 r

namespace WriteCache

/-- The key that a `Put` or a `Has` uses. -/
def usedKey : Call → Option Key
  | .put b => some b.key
  | .has k => some k
  | _ => none

/-- The keys that the `Put` and `Has` calls of a run use. -/
def usedKeys (ls : List (Call × Reply)) : Finset Key := (ls.filterMap fun l => usedKey l.1).toFinset

/-- A key is used if a call of the run uses it. -/
theorem mem_usedKeys {ls : List (Call × Reply)} {k : Key} :
    k ∈ usedKeys ls ↔ ∃ l ∈ ls, usedKey l.1 = some k := by
  rw [usedKeys, List.mem_toFinset, List.mem_filterMap]

/-- The cache after a call. -/
def touch (c : KeyCache) : Call → KeyCache
  | .put b => if b.key ∈ c then (c.get b.key).2 else (c.get b.key).2.add b.key ()
  | .has k => (c.get k).2
  | .deleteBlock k => c.remove k
  | _ => c

variable {bs : Blockstore σ} {s t : KeyCache × σ} {l : Call × Reply} {ls : List (Call × Reply)}
  {c : KeyCache} {k : Key} {U : Finset Key}

/-- A call changes the cache in this way, whatever the store replies. -/
theorem cache_of_step (h : (store bs).Step s l t) : t.1 = touch s.1 l.1 := by
  obtain ⟨call, reply⟩ := l
  obtain ⟨c, u⟩ := s
  cases call with
  | put b =>
    cases reply with
    | put r =>
      have h : put bs b (c, u) = (r, t) := h
      by_cases hmem : b.key ∈ c
      · rw [put_of_mem hmem] at h
        cases h
        exact (if_pos hmem).symm
      · rw [put_of_notMem hmem] at h
        cases h
        exact (if_neg hmem).symm
    | _ => cases h
  | has k =>
    cases reply with
    | has r =>
      have h : has bs k (c, u) = (r, t) := h
      by_cases hmem : k ∈ c
      · rw [has_of_mem hmem] at h
        cases h
        rfl
      · rw [has_of_notMem hmem] at h
        cases h
        rfl
    | _ => cases h
  | allKeysChan =>
    cases reply with
    | allKeysChan r =>
      obtain ⟨-, rfl⟩ := h
      rfl
    | _ => cases h
  | _ =>
    cases reply
    all_goals cases h
    rfl

/-! ## The size of the cache -/

/-- A call keeps the size of the cache. -/
theorem size_touch (c : KeyCache) (call : Call) : (touch c call).size = c.size := by
  cases call with
  | put b =>
    simp only [touch]
    split
    · exact c.size_get _
    · exact ((c.get b.key).2.size_add _ _).trans (c.size_get _)
  | has k => exact c.size_get k
  | deleteBlock k => exact c.size_remove k
  | _ => rfl

/-- A call keeps the bound of the cache. -/
theorem bounded_touch (h : c.Bounded) (call : Call) : (touch c call).Bounded := by
  cases call with
  | put b =>
    simp only [touch]
    split
    next => exact h.get b.key
    next hmem => exact (h.get b.key).add (mt Lru.Cache.mem_get.mp hmem) ()
  | has k => exact h.get k
  | deleteBlock k => exact h.remove k
  | _ => exact h

/-- Along every run the cache keeps its size and does not exceed it. -/
theorem bounded_run (hrun : (store bs).lts.Run s ls t) (hs : s.1.Bounded) :
    t.1.size = s.1.size ∧ t.1.Bounded := by
  refine hrun.invariant (fun v => v.1.size = s.1.size ∧ v.1.Bounded) ?_ ⟨rfl, hs⟩
  rintro v l w ⟨hsize, hbounded⟩ hstep
  rw [cache_of_step hstep, size_touch]
  exact ⟨hsize, bounded_touch hbounded l.1⟩

/-! ## Keys that stay in the cache -/

/-- A key is recent after it was put. -/
theorem recent_touch_put (c : KeyCache) (b : Block) (U : Finset Key) :
    (touch c (.put b)).Recent b.key U := by
  simp only [touch]
  split
  next hmem => exact Lru.Cache.recent_get_self hmem
  next hmem => exact Lru.Cache.recent_add_self (mt Lru.Cache.mem_get.mp hmem) ()

/-- A call that does not delete a recent key keeps it recent, counting the key that the
call uses. -/
theorem recent_touch (h : c.Recent k U) {call : Call} (hdelete : call ≠ .deleteBlock k)
    (hused : ∀ k', usedKey call = some k' → k' ≠ k → k' ∈ U) (hcard : (U.card : ℤ) < c.size) :
    (touch c call).Recent k U := by
  cases call with
  | put b =>
    have hget : (c.get b.key).2.Recent k U := h.get (hused b.key rfl)
    simp only [touch]
    split
    next => exact hget
    next hmem =>
      have hne : b.key ≠ k := by
        rintro rfl
        exact hmem h.mem
      refine hget.add (mt Lru.Cache.mem_get.mp hmem) (hused b.key rfl hne) ?_ ()
      exact hcard.trans_eq (c.size_get b.key).symm
  | has k' => exact h.get (hused k' rfl)
  | deleteBlock k' => exact h.remove fun heq => hdelete (by rw [heq])
  | _ => exact h

/-- A recent key stays recent along a run that does not delete it and uses few other
keys. -/
theorem recent_run (hrun : (store bs).lts.Run s ls t) (hs : s.1.Recent k U)
    (hdelete : ∀ r, (.deleteBlock k, r) ∉ ls) (hused : ∀ k' ∈ usedKeys ls, k' ≠ k → k' ∈ U)
    (hcard : (U.card : ℤ) < s.1.size) : t.1.Recent k U := by
  induction hrun with
  | nil s => exact hs
  | @cons v w _ l ls hstep _ ih =>
    have hcache := cache_of_step hstep
    have hw : w.1.Recent k U := by
      rw [hcache]
      refine recent_touch hs ?_ ?_ hcard
      · rintro hcall
        exact hdelete l.2 (by rw [← hcall]; exact List.mem_cons_self)
      · intro k' hk'
        exact hused k' (mem_usedKeys.mpr ⟨l, List.mem_cons_self, hk'⟩)
    refine ih hw (fun r hr => hdelete r (List.mem_cons_of_mem _ hr)) ?_ ?_
    · intro k' hk'
      obtain ⟨l', hl', hk'⟩ := mem_usedKeys.mp hk'
      exact hused k' (mem_usedKeys.mpr ⟨l', List.mem_cons_of_mem _ hl', hk'⟩)
    · rw [hcache, size_touch]
      exact hcard

/-- After a `Put` of a key, and as long as the key is not deleted and fewer other keys
than the size of the cache are used, the key is in the cache. -/
theorem mem_cache_of_put {pre post : List (Call × Reply)} {b : Block} {r : Reply}
    (hrun : (store bs).lts.Run s (pre ++ (.put b, r) :: post) t) (hs : s.1.Bounded)
    (hdelete : ∀ r', (.deleteBlock b.key, r') ∉ post)
    (hcard : (((usedKeys post).erase b.key).card : ℤ) < s.1.size) : b.key ∈ t.1 := by
  obtain ⟨v, hpre, hrest⟩ := LTS.run_append_iff.mp hrun
  cases hrest with
  | @cons _ w _ _ _ hput hpost =>
    have hcache := cache_of_step hput
    have hw : w.1.Recent b.key ((usedKeys post).erase b.key) := by
      rw [hcache]
      exact recent_touch_put v.1 b _
    refine (recent_run hpost hw hdelete (fun k' hk' hne => Finset.mem_erase.mpr ⟨hne, hk'⟩) ?_).mem
    rw [hcache, size_touch, (bounded_run hpre hs).1]
    exact hcard

/-- `WriteCached` starts with a cache of the given size within its bound. -/
theorem bounded_writeCached {size : ℤ} (hsize : 1 ≤ size) (s : σ) :
    ∃ w, writeCached size s = some w ∧ w.1.size = size ∧ w.1.Bounded := by
  have hpos : ¬ size ≤ 0 := by omega
  have hnew : Lru.Cache.new Key Unit size = some _ := dif_neg hpos
  refine ⟨_, by rw [writeCached, hnew]; rfl, rfl, ?_⟩
  change ((0 : ℕ) : ℤ) ≤ size
  omega

/-- **The write cache elides as advertised.** For every positive size and every run
through the cache, the cache never holds more keys than its size. A `Put` whose key was
put before and not deleted since, with fewer other keys than the size used in `Put` and
`Has` calls since, makes no call on the store and succeeds. -/
theorem writeCached_elides (bs : Blockstore σ) {size : ℤ} (hsize : 1 ≤ size) (s : σ) :
    ∃ w, writeCached size (([] : List Call), s) = some w ∧
      ∀ ls w', (store (logged bs)).lts.Run w ls w' →
        (w'.1.items.keys.card : ℤ) ≤ size ∧
        ∀ pre b₀ r post, ls = pre ++ (.put b₀, r) :: post →
          (∀ r', (.deleteBlock b₀.key, r') ∉ post) →
          (((usedKeys post).erase b₀.key).card : ℤ) < size →
          ∀ b, b.key = b₀.key →
            (put (logged bs) b w').1 = .ok () ∧ (put (logged bs) b w').2.2 = w'.2 := by
  obtain ⟨w, hw, hwsize, hbounded⟩ := bounded_writeCached hsize (([] : List Call), s)
  refine ⟨w, hw, fun ls w' hrun => ⟨?_, ?_⟩⟩
  · obtain ⟨hsize', hbounded'⟩ := bounded_run hrun hbounded
    rw [Lru.Cache.card_items_keys, ← hwsize, ← hsize']
    exact hbounded'
  · rintro pre b₀ r post rfl hdelete hcard b hb
    have hmem : b.key ∈ w'.1 := by
      rw [hb]
      exact mem_cache_of_put hrun hbounded hdelete (hwsize ▸ hcard)
    obtain ⟨c, u⟩ := w'
    rw [put_of_mem hmem]
    exact ⟨rfl, rfl⟩

/-- In a cache of size two a second `Put` after a `Has` of another key leaves the record
of the store with the first `Put` and the `Has`. -/
theorem writeCached_elides_second_put :
    ∃ w w', writeCached 2 (([] : List Call), (fun _ => none : Contents)) = some w ∧
      (store (logged contentsStore)).lts.Run w
        [(.put ⟨[1], [2]⟩, .put (.ok ())), (.has [3], .has (.ok false))] w' ∧
      (put (logged contentsStore) ⟨[1], [2]⟩ w').1 = .ok () ∧
      (put (logged contentsStore) ⟨[1], [2]⟩ w').2.2.1 = [.put ⟨[1], [2]⟩, .has [3]] := by
  have hsize : (1 : ℤ) ≤ 2 := by decide
  obtain ⟨w, hw, helides⟩ := writeCached_elides contentsStore hsize (fun _ => none)
  have hrun : ∃ w', (store (logged contentsStore)).lts.Run w
      [(.put ⟨[1], [2]⟩, .put (.ok ())), (.has [3], .has (.ok false))] w' ∧
        w'.2.1 = [.put ⟨[1], [2]⟩, .has [3]] := by
    cases hw
    exact ⟨_, .cons rfl (.cons rfl (.nil _)), rfl⟩
  obtain ⟨w', hrun, hlog⟩ := hrun
  obtain ⟨hok, hsame⟩ :=
    (helides _ w' hrun).2 [] ⟨[1], [2]⟩ _ _ rfl (by simp) (by decide) ⟨[1], [2]⟩ rfl
  exact ⟨w, w', hw, hrun, hok, by rw [hsame, hlog]⟩

end WriteCache

end GoBlocks
