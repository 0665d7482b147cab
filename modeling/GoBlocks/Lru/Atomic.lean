import GoBlocks.Lib.RwMutex
import GoBlocks.Lru.Recency

/-!
# The LRU cache is a recency list

Every method of the cache holds its mutex from the first statement to the last. What any
number of goroutines see of the cache is a list of entries, most recently used first: an
addition puts its entry in front and cuts the list at the size, a hit moves its entry to
the front, and an eviction takes the last one. The map of the cache, the linked list and
the pointers from one into the other do not show.
-/

namespace GoBlocks.Lru

variable {κ ν : Type} [DecidableEq κ]

/-! ## The methods -/

namespace Raw

/-- `Purge`. -/
def purge (c : Raw κ ν) : Raw κ ν := { c with evictList := .empty, items := ∅ }

/-- `Len`. -/
def len (c : Raw κ ν) : ℕ := c.evictList.len

/-- The entries, most recently used first. -/
def entries (c : Raw κ ν) : List (κ × ν) := c.evictList.values

end Raw

namespace Cache

/-- `RemoveOldest` on a cache. -/
def removeOldest (c : Cache κ ν) : Cache κ ν :=
  ⟨c.toRaw.removeOldest, c.inStep.removeOldest, c.size_removeOldest ▸ c.size_pos⟩

/-- `Purge` on a cache. -/
def purge (c : Cache κ ν) : Cache κ ν :=
  ⟨c.toRaw.purge, LinkedList.inStep_empty Prod.fst, c.size_pos⟩

end Cache

/-- The calls of a cache. -/
inductive Op (κ ν : Type) where
  | add (key : κ) (value : ν)
  | get (key : κ)
  | remove (key : κ)
  | removeOldest
  | keys
  | len
  | purge

/-- What the calls return. -/
inductive Reply (κ ν : Type) where
  | unit
  | get (value : Option ν)
  | keys (ks : List κ)
  | len (n : ℕ)
  deriving DecidableEq

/-- Where a call stands that holds the mutex. -/
inductive CachePc (κ ν : Type) where
  | start (op : Op κ ν)
  /-- In the loop of `Keys`, with the keys visited so far. -/
  | ranging (ks : List κ)
  | done (r : Reply κ ν)

/-- The steps of a call that holds the mutex. -/
inductive CacheAct (κ : Type) where
  /-- The body of a method, or the next statement of `Keys`. -/
  | next
  /-- The loop of `Keys` visits a key of the map. -/
  | visit (key : κ)

/-- One step of a call. -/
def CachePc.step : CachePc κ ν × Cache κ ν → CacheAct κ → Option (CachePc κ ν × Cache κ ν)
  | (.start (.add key value), c), .next => some (.done .unit, c.add key value)
  | (.start (.get key), c), .next => some (.done (.get (c.get key).1), (c.get key).2)
  | (.start (.remove key), c), .next => some (.done .unit, c.remove key)
  | (.start .removeOldest, c), .next => some (.done .unit, c.removeOldest)
  | (.start .len, c), .next => some (.done (.len c.len), c)
  | (.start .purge, c), .next => some (.done .unit, c.purge)
  | (.start .keys, c), .next => some (.ranging [], c)
  | (.ranging ks, c), .visit key =>
    if key ∉ ks ∧ key ∈ c then some (.ranging (ks ++ [key]), c) else none
  | (.ranging ks, c), .next =>
    -- the loop ends when every key of the map has been visited
    if c.items.keys ⊆ ks.toFinset then some (.done (.keys ks), c) else none
  | _, _ => none

/-- The methods of the cache. The mutex has no readers. -/
def methods (κ ν : Type) [DecidableEq κ] :
    Methods (Op κ ν) (Reply κ ν) (Cache κ ν) (CachePc κ ν) (CacheAct κ) where
  start := .start
  step := CachePc.step
  result
    | .done r => some r
    | _ => none
  writes _ := true

/-! ## The recency list -/

/-- The calls on a recency list of the size. -/
def recency (size : ℤ) (op : Op κ ν) (es : List (κ × ν)) (r : Reply κ ν) (es' : List (κ × ν)) :
    Prop :=
  match op, r with
  | .add key value, .unit =>
    es' = ((key, value) :: es.filter fun e => e.1 ≠ key).take size.toNat
  | .get key, .get value =>
    value = (es.find? fun e => e.1 = key).map Prod.snd ∧
      es' = (es.find? fun e => e.1 = key).toList ++ es.filter fun e => e.1 ≠ key
  | .remove key, .unit => es' = es.filter fun e => e.1 ≠ key
  | .removeOldest, .unit => es' = es.dropLast
  | .keys, .keys ks => ks.Perm (es.map Prod.fst) ∧ es' = es
  | .len, .len n => n = es.length ∧ es' = es
  | .purge, .unit => es' = []
  | _, _ => False

/-- `removeOldest` takes out the last entry. -/
theorem Raw.entries_removeOldest (c : Raw κ ν) : c.removeOldest.entries = c.entries.dropLast := by
  unfold Raw.removeOldest
  cases hb : c.evictList.back? with
  | none =>
    have hnil : c.evictList.elems = [] := List.getLast?_eq_none_iff.mp hb
    simp [entries, LinkedList.values, hnil]
  | some e => exact LinkedList.values_remove_back hb

namespace Cache

variable {c : Cache κ ν} {key : κ} {value : ν}

/-- The entry of a key in the cache. -/
theorem find?_entries {ent : ℕ} (h : (ent, key, value) ∈ c.evictList.elems) :
    (c.entries.find? fun e => e.1 = key) = some (key, value) := by
  have hmem : (key, value) ∈ c.entries := List.mem_map.mpr ⟨_, h, rfl⟩
  cases hfind : c.entries.find? fun e => e.1 = key with
  | none =>
    have hnone := List.find?_eq_none.mp hfind _ hmem
    simp at hnone
  | some e =>
    have hkey : e.1 = key := by simpa using List.find?_some hfind
    rw [List.inj_on_of_nodup_map c.keys_nodup (List.mem_of_find?_eq_some hfind) hmem hkey]

/-- A key that is not in the cache has no entry. -/
theorem filter_entries_of_notMem (h : key ∉ c) :
    (c.entries.filter fun e => e.1 ≠ key) = c.entries := by
  refine List.filter_eq_self.mpr fun e he => decide_eq_true ?_
  rintro rfl
  exact h (mem_iff_mem_keys.mpr (List.mem_map_of_mem he))

/-- A key that is not in the cache is not found among the entries. -/
theorem find?_entries_of_notMem (h : key ∉ c) : (c.entries.find? fun e => e.1 = key) = none := by
  refine List.find?_eq_none.mpr fun e he => ?_
  simp only [decide_eq_true_eq]
  rintro rfl
  exact h (mem_iff_mem_keys.mpr (List.mem_map_of_mem he))

/-- The bound in terms of the entries. -/
theorem bounded_iff : Bounded c ↔ (c.entries.length : ℤ) ≤ c.size := by
  rw [Bounded, Raw.keys, List.length_map, Raw.entries]

/-- `Get` returns the value of the key and moves its entry to the front. -/
theorem entries_get (c : Cache κ ν) (key : κ) :
    (c.get key).1 = (c.entries.find? fun e => e.1 = key).map Prod.snd ∧
      (c.get key).2.entries =
        (c.entries.find? fun e => e.1 = key).toList ++ c.entries.filter fun e => e.1 ≠ key := by
  simp only [get, Raw.get]
  cases hl : c.items.lookup key with
  | none =>
    have hkey : key ∉ c := Finmap.lookup_eq_none.mp hl
    rw [find?_entries_of_notMem hkey, filter_entries_of_notMem hkey]
    exact ⟨rfl, rfl⟩
  | some ent =>
    obtain ⟨value, hfind, hmem⟩ := c.inStep.find?_of_lookup hl
    rw [find?_entries hmem]
    refine ⟨?_, LinkedList.InStep.values_moveToFront c.inStep hmem⟩
    simp only [hfind]
    rfl

/-- `Remove` takes out the entry of the key. -/
theorem entries_remove (c : Cache κ ν) (key : κ) :
    (c.remove key).entries = c.entries.filter fun e => e.1 ≠ key := by
  simp only [remove, Raw.remove]
  cases hl : c.items.lookup key with
  | none => exact (filter_entries_of_notMem (Finmap.lookup_eq_none.mp hl)).symm
  | some ent =>
    obtain ⟨value, hfind, hmem⟩ := c.inStep.find?_of_lookup hl
    simp only [hfind]
    exact LinkedList.InStep.values_remove c.inStep hmem

/-- `Add` of a key in the cache puts the entry in front. -/
theorem entries_add_of_mem (h : key ∈ c) (value : ν) :
    (c.add key value).entries = (key, value) :: c.entries.filter fun e => e.1 ≠ key := by
  obtain ⟨ent, hl⟩ := mem_iff_lookup.mp h
  obtain ⟨old, -, hmem⟩ := c.inStep.find?_of_lookup hl
  have hfront := LinkedList.mem_moveToFront (h := ent).mpr hmem
  have hmodify := (LinkedList.InStep.moveToFront c.inStep ent).values_modify hfront
    fun e => (e.1, value)
  have hrest : (c.entries.filter fun e => e.1 ≠ key).map
      (fun e => if e.1 = key then (e.1, value) else e) = c.entries.filter fun e => e.1 ≠ key := by
    refine (List.map_congr_left fun e he => ?_).trans (List.map_id _)
    rw [if_neg (of_decide_eq_true (List.mem_filter.mp he).2)]
    rfl
  simp only [add, Raw.add, hl, Raw.entries]
  rw [hmodify, LinkedList.InStep.values_moveToFront c.inStep hmem, List.map_cons, if_pos rfl]
  exact congrArg _ hrest

/-- `Add` of a new key puts the entry in front and keeps the bound. -/
theorem entries_add_of_notMem (h : key ∉ c) (value : ν) : (c.add key value).entries =
    if (c.entries.length : ℤ) + 1 > c.size then ((key, value) :: c.entries).dropLast
    else (key, value) :: c.entries := by
  have hlen : ((c.toRaw.pushEntry key value).evictList.len : ℤ) = c.entries.length + 1 := by
    simp [LinkedList.len_eq, Raw.pushEntry, Raw.entries]
  simp only [add, Raw.add, Finmap.lookup_eq_none.mpr h, Raw.addNew, hlen]
  split
  · exact Raw.entries_removeOldest _
  · rfl

/-- `Add` puts the entry in front and cuts the list at the size. -/
theorem entries_add (hc : Bounded c) (key : κ) (value : ν) : (c.add key value).entries =
    ((key, value) :: c.entries.filter fun e => e.1 ≠ key).take c.size.toNat := by
  have hlen := bounded_iff.mp hc
  by_cases h : key ∈ c
  · -- the entry that is replaced makes room for the new one
    obtain ⟨e, he, rfl⟩ := List.mem_map.mp (mem_iff_mem_keys.mp h)
    have hlt : (c.entries.filter fun e' => e'.1 ≠ e.1).length < c.entries.length :=
      List.length_filter_lt_length_iff_exists.mpr ⟨e, he, by simp⟩
    rw [entries_add_of_mem h, List.take_of_length_le]
    simp only [List.length_cons]
    omega
  · rw [entries_add_of_notMem h, filter_entries_of_notMem h]
    split
    next hfull =>
      rw [List.dropLast_eq_take]
      congr 1
      simp only [List.length_cons]
      omega
    next hfits =>
      rw [List.take_of_length_le]
      simp only [List.length_cons]
      omega

/-! ## One call -/

/-- A call of a cache that runs in one step. -/
def Sem (op : Op κ ν) (c : Cache κ ν) (r : Reply κ ν) (c' : Cache κ ν) : Prop :=
  match op, r with
  | .add key value, .unit => c.add key value = c'
  | .get key, .get value => c.get key = (value, c')
  | .remove key, .unit => c.remove key = c'
  | .removeOldest, .unit => c.removeOldest = c'
  | .keys, .keys ks => ks.Perm c.keys ∧ c = c'
  | .len, .len n => c.len = n ∧ c = c'
  | .purge, .unit => c.purge = c'
  | _, _ => False

/-- The cache does what the recency list does. -/
theorem Sem.recency {op : Op κ ν} {r : Reply κ ν} {c' : Cache κ ν} (hc : Bounded c)
    (h : Sem op c r c') :
    recency c.size op c.entries r c'.entries ∧ Bounded c' ∧ c'.size = c.size := by
  cases op with
  | add key value =>
    cases r with
    | unit =>
      obtain rfl := h
      have hadd := entries_add hc key value
      have hsize : (c.add key value).size = c.size := c.size_add key value
      refine ⟨hadd, bounded_iff.mpr ?_, hsize⟩
      have hpos := c.size_pos
      rw [hadd, hsize, List.length_take]
      omega
    | _ => cases h
  | get key =>
    cases r with
    | get value =>
      obtain ⟨hvalue, hentries⟩ := entries_get c key
      have hbounded := hc.get key
      have hsize : (c.get key).2.size = c.size := c.size_get key
      have hget : c.get key = (value, c') := h
      rw [hget] at hvalue hentries hbounded hsize
      exact ⟨⟨hvalue, hentries⟩, hbounded, hsize⟩
    | _ => cases h
  | remove key =>
    cases r with
    | unit =>
      obtain rfl := h
      exact ⟨entries_remove c key, hc.remove key, c.size_remove key⟩
    | _ => cases h
  | removeOldest =>
    cases r with
    | unit =>
      obtain rfl := h
      have hentries : c.removeOldest.entries = c.entries.dropLast := c.entries_removeOldest
      have hsize : c.removeOldest.size = c.size := c.size_removeOldest
      refine ⟨hentries, bounded_iff.mpr ?_, hsize⟩
      have hlen := bounded_iff.mp hc
      rw [hentries, hsize, List.length_dropLast]
      omega
    | _ => cases h
  | keys =>
    cases r with
    | keys ks =>
      obtain ⟨hks, rfl⟩ := h
      exact ⟨⟨hks, rfl⟩, hc, rfl⟩
    | _ => cases h
  | len =>
    cases r with
    | len n =>
      obtain ⟨rfl, rfl⟩ := h
      exact ⟨⟨LinkedList.len_eq _, rfl⟩, hc, rfl⟩
    | _ => cases h
  | purge =>
    cases r with
    | unit =>
      obtain rfl := h
      exact ⟨rfl, bounded_iff.mpr c.size_pos.le, rfl⟩
    | _ => cases h

/-- The recency list of a cache of the size. -/
structure Represents (size : ℤ) (c : Cache κ ν) (es : List (κ × ν)) : Prop where
  size_eq : c.size = size
  bounded : Bounded c
  entries_eq : c.entries = es

/-- A new cache has no entries. -/
theorem represents_new {size : ℤ} (h : new κ ν size = some c) : Represents size c [] := by
  obtain ⟨hpos, hc⟩ := Option.dite_none_left_eq_some.mp h
  cases hc
  exact ⟨rfl, bounded_iff.mpr (not_le.mp hpos).le, rfl⟩

/-- A call of the cache is one on the recency list. -/
theorem Represents.sem {size : ℤ} {es : List (κ × ν)} {op : Op κ ν} {r : Reply κ ν}
    {c' : Cache κ ν} (hc : Represents size c es) (h : Sem op c r c') :
    ∃ es', Lru.recency size op es r es' ∧ Represents size c' es' := by
  obtain ⟨rfl, hbounded, rfl⟩ := hc
  obtain ⟨hrecency, hbounded', hsize⟩ := h.recency hbounded
  exact ⟨c'.entries, hrecency, hsize, hbounded', rfl⟩

end Cache

/-- What holds of a call that runs alone from the cache `c`. -/
def CachePc.Along (c : Cache κ ν) (op : Op κ ν) (x : CachePc κ ν × Cache κ ν) : Prop :=
  match x.1 with
  | .start op' => op' = op ∧ x.2 = c
  | .ranging ks => op = .keys ∧ x.2 = c ∧ ks.Nodup ∧ ∀ key ∈ ks, key ∈ c
  | .done r => Cache.Sem op c r x.2

/-- Every step of a call that runs alone is one of the call in one step. -/
theorem CachePc.Along.step {c : Cache κ ν} {op : Op κ ν} {x y : CachePc κ ν × Cache κ ν}
    {a : CacheAct κ} (h : CachePc.Along c op x) (hstep : CachePc.step x a = some y) :
    CachePc.Along c op y := by
  obtain ⟨p, d⟩ := x
  cases p with
  | start op' =>
    obtain ⟨rfl, rfl⟩ := h
    cases a with
    | visit key => cases op' <;> cases hstep
    | next =>
      cases op' with
      | keys =>
        cases hstep
        exact ⟨rfl, rfl, List.nodup_nil, by simp⟩
      | len =>
        cases hstep
        exact ⟨rfl, rfl⟩
      | _ =>
        cases hstep
        rfl
  | ranging ks =>
    obtain ⟨rfl, rfl, hnodup, hks⟩ := h
    cases a with
    | visit key =>
      obtain ⟨⟨hnew, hkey⟩, hy⟩ := Option.ite_none_right_eq_some.mp hstep
      cases hy
      refine ⟨rfl, rfl, hnodup.append (List.nodup_singleton _) (by simpa using hnew), ?_⟩
      intro key' hkey'
      rcases List.mem_append.mp hkey' with hkey' | hkey'
      · exact hks key' hkey'
      · rwa [List.mem_singleton.mp hkey']
    | next =>
      obtain ⟨hall, hy⟩ := Option.ite_none_right_eq_some.mp hstep
      cases hy
      refine ⟨(List.perm_ext_iff_of_nodup hnodup d.keys_nodup).mpr fun key => ?_, rfl⟩
      rw [← Cache.mem_iff_mem_keys]
      exact ⟨hks key, fun hkey => List.mem_toFinset.mp (hall (Finmap.mem_keys.mpr hkey))⟩
  | done r => cases a <;> cases hstep

/-- What holds of a call that runs alone, wherever it gets. -/
theorem CachePc.along_of_reaches {c : Cache κ ν} {op : Op κ ν} {x : CachePc κ ν × Cache κ ν}
    (h : (methods κ ν).Reaches c op x) : CachePc.Along c op x := by
  obtain ⟨as, has⟩ := h
  exact has.invariant (CachePc.Along c op) (fun _ _ _ hv hstep => hv.step hstep) ⟨rfl, rfl⟩

/-- The methods have the replies and the effects of the calls in one step. -/
theorem methods_implements : (methods κ ν).Implements Cache.Sem := by
  intro c op p c' r hreaches hr
  have halong := CachePc.along_of_reaches hreaches
  cases p with
  | done r' =>
    cases hr
    exact halong
  | _ => cases hr

/-- A call that has not come to its end goes on. -/
theorem methods_proceeds : (methods κ ν).Proceeds := by
  rintro c op ⟨p, d⟩ - hr
  cases p with
  | start op => cases op <;> exact ⟨.next, _, rfl⟩
  | ranging ks =>
    by_cases hall : d.items.keys ⊆ ks.toFinset
    · exact ⟨.next, _, if_pos hall⟩
    · obtain ⟨key, hkey, hnew⟩ := Finset.not_subset.mp hall
      rw [List.mem_toFinset] at hnew
      exact ⟨.visit key, _, if_pos ⟨hnew, Finmap.mem_keys.mp hkey⟩⟩
  | done r => cases hr

/-! ## Any number of goroutines -/

section

variable {ι : Type} [DecidableEq ι] [DecidableEq ν]

/-- **The LRU cache is a recency list.** Any number of goroutines call a new cache, and
their steps interleave in any order that the mutex allows. The calls and their replies are
those of a run in which each call takes effect in one step on a list of entries, most
recently used first, at a moment between its call and its return. The list never has more
entries than the size. As long as a call has not returned, some call can go on. -/
theorem cache_is_recency_list (size : ℤ) (c : Cache κ ν) (hc : Cache.new κ ν size = some c)
    (ls : List (ι × GuardedAct (Op κ ν) (Reply κ ν) (CacheAct κ)))
    (s : Threads ι (Guarded (Cache κ ν)) (GuardedPc (Op κ ν) (Reply κ ν) (CachePc κ ν)))
    (hrun : (Guarded.lts (methods κ ν)).Run (Guarded.start ι _ _ _ c) ls s) :
    (∃ u, (Guarded.atomic (recency size)).Run ⟨[], fun _ => .idle⟩
        (ls.filterMap GuardedAct.visible) u ∧
      (∀ i, u.loc i = (s.loc i).abs) ∧ (u.shared.length : ℤ) ≤ size ∧
      ((∀ i op p, s.loc i ≠ .inside op p) → u.shared = s.shared.state.entries)) ∧
    ((∃ i, s.loc i ≠ .idle) → ∃ j a t, (∀ op, a ≠ .call op) ∧
      (Guarded.lts (methods κ ν)).step s (j, a) t) := by
  have hread : (methods κ ν).ReadOnly := fun _ _ _ hwrites => by cases hwrites
  obtain ⟨u, hu, hrel⟩ := Guarded.exists_atomic_run hread methods_implements hrun
  have hsim : LTS.Simulates (Guarded.atomic (ι := ι) Cache.Sem) (Guarded.atomic (recency size))
      fun (u : Threads ι (Cache κ ν) (CallPc (Op κ ν) (Reply κ ν))) v =>
        Cache.Represents size u.shared v.shared ∧ v.loc = u.loc :=
    Guarded.atomic_simulates fun _ _ _ _ _ hes hsem => hes.sem hsem
  obtain ⟨v, hv, hrep, hloc⟩ :=
    hsim.run (t := ⟨[], fun _ => .idle⟩) ⟨Cache.represents_new hc, rfl⟩ hu
  refine ⟨⟨v, hv, fun i => ?_, ?_, fun hnobody => ?_⟩, ?_⟩
  · rw [hloc, hrel.loc]
  · rw [← hrep.entries_eq, ← hrep.size_eq]
    exact Cache.bounded_iff.mp hrep.bounded
  · rw [← hrep.entries_eq, hrel.state]
    by_contra hw
    obtain ⟨i, ⟨op, p, hi⟩, -⟩ := hrel.alone (by simpa using hw)
    exact hnobody i op p hi
  · rintro ⟨i, hi⟩
    exact hrel.live methods_proceeds hi

end

/-- Two goroutines add a key each to a cache of size one, and the second asks for the key of
the first. -/
def addAndGet : List (Bool × GuardedAct (Op ℕ ℕ) (Reply ℕ ℕ) (CacheAct ℕ)) :=
  [(false, .call (.add 1 10)), (true, .call (.add 2 20)), (false, .lock), (false, .step .next),
    (false, .unlock), (true, .lock), (true, .step .next), (false, .ret .unit), (true, .unlock),
    (true, .ret .unit), (true, .call (.get 1)), (true, .lock), (true, .step .next),
    (true, .unlock), (true, .ret (.get none))]

/-- The key of the first is evicted. -/
theorem cache_is_recency_list_evicts :
    ∃ u : Threads Bool (List (ℕ × ℕ)) (CallPc (Op ℕ ℕ) (Reply ℕ ℕ)),
      (Guarded.atomic (recency 1)).Run ⟨[], fun _ => .idle⟩
        (addAndGet.filterMap GuardedAct.visible) u ∧ u.shared = [(2, 20)] := by
  have hrun : ∃ c s, Cache.new ℕ ℕ 1 = some c ∧
      (Guarded.lts (methods ℕ ℕ)).Run (Guarded.start Bool _ _ _ c) addAndGet s ∧
      s.loc true = .idle ∧ s.loc false = .idle ∧ s.shared.state.entries = [(2, 20)] :=
    ⟨_, _, rfl, LTS.run_ofFun_iff.mpr rfl, rfl, rfl, rfl⟩
  obtain ⟨c, s, hc, hrun, htrue, hfalse, hentries⟩ := hrun
  obtain ⟨⟨u, hu, -, -, hshared⟩, -⟩ := cache_is_recency_list 1 c hc addAndGet s hrun
  refine ⟨u, hu, (hshared fun i op p hi => ?_).trans hentries⟩
  cases i
  · rw [hfalse] at hi
    cases hi
  · rw [htrue] at hi
    cases hi

end GoBlocks.Lru
