import GoBlocks.Lib.LinkedList

/-!
# The fixed size LRU cache

The cache of `golang-lru`: an eviction list of entries, most recently used first,
and a map from keys to the elements of that list. The raw operations are those of
the source; a `Cache` carries the fact that list and map are in step. Each
operation is specified by its effect on the list of keys in order of use.
-/

namespace GoBlocks.Lru

variable {κ ν : Type*} [DecidableEq κ]

/-- The data of a cache. -/
structure Raw (κ ν : Type*) where
  /-- The bound on the number of entries. -/
  size : ℤ
  /-- The entries, most recently used first. -/
  evictList : LinkedList (κ × ν)
  /-- The element of each key. -/
  items : Finmap (fun _ : κ => ℕ)

namespace Raw

/-- `removeElement`. -/
def removeElement (c : Raw κ ν) (e : ℕ × κ × ν) : Raw κ ν :=
  { c with evictList := c.evictList.remove e.1, items := c.items.erase e.2.1 }

/-- `removeOldest`. -/
def removeOldest (c : Raw κ ν) : Raw κ ν :=
  match c.evictList.back? with
  | none => c
  | some ent => c.removeElement ent

/-- Push a new entry to the front and point the map to it. -/
def pushEntry (c : Raw κ ν) (key : κ) (value : ν) : Raw κ ν :=
  { c with
    evictList := c.evictList.pushFront (key, value)
    items := c.items.insert key c.evictList.next }

/-- The branch of `Add` for a new key: verify that the size is not exceeded. -/
def addNew (c : Raw κ ν) (key : κ) (value : ν) : Raw κ ν :=
  if ((c.pushEntry key value).evictList.len : ℤ) > c.size then
    (c.pushEntry key value).removeOldest
  else c.pushEntry key value

/-- `Add`. -/
def add (c : Raw κ ν) (key : κ) (value : ν) : Raw κ ν :=
  match c.items.lookup key with
  | some ent =>
    { c with evictList := (c.evictList.moveToFront ent).modify ent fun e => (e.1, value) }
  | none => c.addNew key value

/-- `Get`. -/
def get (c : Raw κ ν) (key : κ) : Option ν × Raw κ ν :=
  match c.items.lookup key with
  | some ent =>
    ((c.evictList.find? ent).map fun e => e.2.2,
      { c with evictList := c.evictList.moveToFront ent })
  | none => (none, c)

/-- `Remove`. -/
def remove (c : Raw κ ν) (key : κ) : Raw κ ν :=
  match c.items.lookup key with
  | some ent =>
    match c.evictList.find? ent with
    | some e => c.removeElement e
    | none => c
  | none => c

/-- `removeOldest` keeps the size. -/
theorem size_removeOldest (c : Raw κ ν) : c.removeOldest.size = c.size := by
  unfold removeOldest
  split <;> rfl

/-- `Add` keeps the size. -/
theorem size_add (c : Raw κ ν) (key : κ) (value : ν) : (c.add key value).size = c.size := by
  unfold add addNew
  split
  · rfl
  · split
    · exact size_removeOldest _
    · rfl

/-- `Get` keeps the size. -/
theorem size_get (c : Raw κ ν) (key : κ) : (c.get key).2.size = c.size := by
  unfold get
  split <;> rfl

/-- `Remove` keeps the size. -/
theorem size_remove (c : Raw κ ν) (key : κ) : (c.remove key).size = c.size := by
  unfold remove
  split
  · split <;> rfl
  · rfl

/-- List and map are in step. -/
def InStep (c : Raw κ ν) : Prop := c.evictList.InStep c.items Prod.fst

/-- The keys of the entries, most recently used first. -/
def keys (c : Raw κ ν) : List κ := c.evictList.values.map Prod.fst

variable {c : Raw κ ν} {key : κ}

/-- The map holds the keys of the list. -/
theorem InStep.mem_items_iff (hs : c.InStep) : key ∈ c.items ↔ key ∈ c.keys :=
  LinkedList.InStep.mem_index_iff hs

/-- The element of a present key. -/
theorem InStep.find?_of_lookup (hs : c.InStep) {ent : ℕ} (hl : c.items.lookup key = some ent) :
    ∃ value, c.evictList.find? ent = some (ent, key, value) ∧
      (ent, key, value) ∈ c.evictList.elems := by
  obtain ⟨⟨k, value⟩, hmem, rfl⟩ := (hs key ent).mp hl
  exact ⟨value, LinkedList.find?_eq_some_iff.mpr ⟨hmem, rfl⟩, hmem⟩

/-- Filtering the entries by key filters the keys. -/
theorem map_fst_filter (l : List (κ × ν)) (key : κ) :
    (l.filter fun e => e.1 ≠ key).map Prod.fst = (l.map Prod.fst).filter (· ≠ key) := by
  rw [List.filter_map]
  rfl

/-- `removeElement` keeps list and map in step. -/
theorem InStep.removeElement (hs : c.InStep) {e : ℕ × κ × ν} (he : e ∈ c.evictList.elems) :
    (c.removeElement e).InStep :=
  LinkedList.InStep.remove hs he

/-- `removeElement` takes out the key of its element. -/
theorem InStep.keys_removeElement (hs : c.InStep) {e : ℕ × κ × ν}
    (he : e ∈ c.evictList.elems) :
    (c.removeElement e).keys = c.keys.filter (· ≠ e.2.1) := by
  rw [keys, Raw.removeElement, LinkedList.InStep.values_remove hs he, map_fst_filter]
  rfl

/-- `removeOldest` keeps list and map in step. -/
theorem InStep.removeOldest (hs : c.InStep) : c.removeOldest.InStep := by
  unfold Raw.removeOldest
  cases hb : c.evictList.back? with
  | none => exact hs
  | some e => exact hs.removeElement (List.mem_of_getLast? hb)

/-- `removeOldest` drops the least recently used key. -/
theorem InStep.keys_removeOldest (hs : c.InStep) : c.removeOldest.keys = c.keys.dropLast := by
  unfold Raw.removeOldest
  cases hb : c.evictList.back? with
  | none =>
    have hnil : c.evictList.elems = [] := List.getLast?_eq_none_iff.mp hb
    simp [keys, LinkedList.values, hnil]
  | some e =>
    obtain ⟨init, hinit⟩ := List.getLast?_eq_some_iff.mp hb
    have hkeys : c.keys = init.map (fun e => e.2.1) ++ [e.2.1] := by
      simp [keys, LinkedList.values, hinit]
    -- The keys are distinct, so filtering out the last key removes the last element only.
    have hnodup : c.keys.Nodup := LinkedList.InStep.keys_nodup hs
    rw [hkeys, ← List.concat_eq_append, List.nodup_concat] at hnodup
    have hfilter : (init.map fun e => e.2.1).filter (· ≠ e.2.1) = init.map fun e => e.2.1 := by
      refine List.filter_eq_self.mpr fun k hk => decide_eq_true ?_
      rintro rfl
      exact hnodup.1 hk
    have hrest := hs.keys_removeElement (List.mem_of_getLast? hb)
    rw [hkeys, List.filter_append, hfilter] at hrest
    simpa [hkeys] using hrest

/-- Pushing an entry under a new key keeps list and map in step. -/
theorem InStep.pushEntry (hs : c.InStep) (hkey : key ∉ c.items) (value : ν) :
    (c.pushEntry key value).InStep :=
  LinkedList.InStep.pushFront (v := (key, value)) hs hkey

/-- `Add` of a new key keeps list and map in step. -/
theorem InStep.addNew (hs : c.InStep) (hkey : key ∉ c.items) (value : ν) :
    (c.addNew key value).InStep := by
  unfold Raw.addNew
  split
  · exact (hs.pushEntry hkey value).removeOldest
  · exact hs.pushEntry hkey value

/-- `Add` of a new key puts it in front and drops the least recently used key
if the size is exceeded. -/
theorem InStep.keys_addNew (hs : c.InStep) (hkey : key ∉ c.items) (value : ν) :
    (c.addNew key value).keys =
      if (c.keys.length : ℤ) + 1 > c.size then (key :: c.keys).dropLast else key :: c.keys := by
  have hlen : ((c.pushEntry key value).evictList.len : ℤ) = c.keys.length + 1 := by
    simp [LinkedList.len_eq, Raw.pushEntry, keys]
  unfold Raw.addNew
  rw [hlen]
  split
  · exact (hs.pushEntry hkey value).keys_removeOldest
  · rfl

/-- `Add` keeps list and map in step. -/
theorem InStep.add (hs : c.InStep) (key : κ) (value : ν) : (c.add key value).InStep := by
  unfold Raw.add
  cases hl : c.items.lookup key with
  | none => exact hs.addNew (Finmap.lookup_eq_none.mp hl) value
  | some ent =>
    exact (LinkedList.InStep.moveToFront hs ent).modify ent fun _ => rfl

/-- `Get` keeps list and map in step. -/
theorem InStep.get (hs : c.InStep) (key : κ) : (c.get key).2.InStep := by
  unfold Raw.get
  cases c.items.lookup key with
  | none => exact hs
  | some ent => exact LinkedList.InStep.moveToFront hs ent

/-- `Remove` keeps list and map in step. -/
theorem InStep.remove (hs : c.InStep) (key : κ) : (c.remove key).InStep := by
  unfold Raw.remove
  cases hl : c.items.lookup key with
  | none => exact hs
  | some ent =>
    obtain ⟨value, hfind, hmem⟩ := hs.find?_of_lookup hl
    simp only [hfind]
    exact hs.removeElement hmem

end Raw

/-- A cache of positive size with list and map in step. -/
structure Cache (κ ν : Type*) [DecidableEq κ] extends Raw κ ν where
  /-- The map points to the entries of the list. -/
  inStep : toRaw.InStep
  /-- `New` refuses other sizes. -/
  size_pos : 0 < size

namespace Cache

/-- `New` creates a cache of the given size, which must be positive. -/
def new (κ ν : Type*) [DecidableEq κ] (size : ℤ) : Option (Cache κ ν) :=
  if h : size ≤ 0 then none
  else some ⟨⟨size, .empty, ∅⟩, LinkedList.inStep_empty Prod.fst, not_le.mp h⟩

/-- `Add` on a cache. -/
def add (c : Cache κ ν) (key : κ) (value : ν) : Cache κ ν :=
  ⟨c.toRaw.add key value, c.inStep.add key value, c.size_add key value ▸ c.size_pos⟩

/-- `Get` on a cache. -/
def get (c : Cache κ ν) (key : κ) : Option ν × Cache κ ν :=
  ((c.toRaw.get key).1,
    ⟨(c.toRaw.get key).2, c.inStep.get key, c.size_get key ▸ c.size_pos⟩)

/-- `Remove` on a cache. -/
def remove (c : Cache κ ν) (key : κ) : Cache κ ν :=
  ⟨c.toRaw.remove key, c.inStep.remove key, c.size_remove key ▸ c.size_pos⟩

/-- A key is in the cache when the map has it. -/
instance : Membership κ (Cache κ ν) := ⟨fun c key => key ∈ c.items⟩

/-- It can be decided whether a key is in the cache. -/
instance (key : κ) (c : Cache κ ν) : Decidable (key ∈ c) :=
  inferInstanceAs (Decidable (key ∈ c.items))

variable {c : Cache κ ν} {key : κ}

/-- Membership in the cache, by the list of keys. -/
theorem mem_iff_mem_keys : key ∈ c ↔ key ∈ c.keys := c.inStep.mem_items_iff

/-- `New` succeeds for every positive size, with an empty cache. -/
theorem exists_new {size : ℤ} (hsize : 1 ≤ size) :
    ∃ c, new κ ν size = some c ∧ ∀ key, key ∉ c := by
  have hpos : ¬ size ≤ 0 := by omega
  refine ⟨_, dif_neg hpos, fun key hkey => ?_⟩
  exact Finmap.notMem_empty hkey

/-- A key is in the cache when its lookup in the map succeeds. -/
theorem mem_iff_lookup : key ∈ c ↔ ∃ ent, c.items.lookup key = some ent :=
  Finmap.lookup_isSome.symm.trans Option.isSome_iff_exists

/-- `Get` hits exactly the keys in the cache. -/
theorem get_isSome_iff : (c.get key).1.isSome ↔ key ∈ c := by
  rw [mem_iff_lookup]
  change (c.toRaw.get key).1.isSome ↔ _
  unfold Raw.get
  cases hl : c.items.lookup key with
  | none => simp
  | some ent =>
    obtain ⟨value, hfind, -⟩ := c.inStep.find?_of_lookup hl
    simp [hfind]

/-- `Get` moves a key that it hits to the front. -/
theorem keys_get : (c.get key).2.keys =
    if key ∈ c then key :: c.keys.filter (· ≠ key) else c.keys := by
  change (c.toRaw.get key).2.keys = _
  unfold Raw.get
  cases hl : c.items.lookup key with
  | none =>
    have hmem : key ∉ c := Finmap.lookup_eq_none.mp hl
    rw [if_neg hmem]
  | some ent =>
    rw [if_pos (mem_iff_lookup.mpr ⟨ent, hl⟩)]
    obtain ⟨value, -, hmem⟩ := c.inStep.find?_of_lookup hl
    have hvalues := LinkedList.InStep.values_moveToFront c.inStep hmem
    simp only [Raw.keys, hvalues, List.map_cons, Raw.map_fst_filter]

/-- `Remove` takes out the key. -/
theorem keys_remove : (c.remove key).keys = c.keys.filter (· ≠ key) := by
  change (c.toRaw.remove key).keys = _
  unfold Raw.remove
  cases hl : c.items.lookup key with
  | none =>
    refine (List.filter_eq_self.mpr fun k hk => decide_eq_true ?_).symm
    rintro rfl
    exact Finmap.lookup_eq_none.mp hl (mem_iff_mem_keys.mpr hk)
  | some ent =>
    obtain ⟨value, hfind, hmem⟩ := c.inStep.find?_of_lookup hl
    simp only [hfind]
    exact c.inStep.keys_removeElement hmem

/-- `Add` of a key in the cache moves it to the front. -/
theorem keys_add_of_mem (h : key ∈ c) (value : ν) :
    (c.add key value).keys = key :: c.keys.filter (· ≠ key) := by
  obtain ⟨ent, hl⟩ := mem_iff_lookup.mp h
  obtain ⟨_, -, hmem⟩ := c.inStep.find?_of_lookup hl
  have hvalues := LinkedList.InStep.values_moveToFront c.inStep hmem
  have hkeys : ((c.evictList.moveToFront ent).modify ent fun e => (e.1, value)).values.map
      Prod.fst = (c.evictList.moveToFront ent).values.map Prod.fst :=
    LinkedList.map_values_modify _ _ fun _ => rfl
  simp only [add, Raw.add, hl, Raw.keys]
  rw [hkeys, hvalues, List.map_cons, Raw.map_fst_filter]

/-- `Add` of a new key puts it in front and keeps the bound. -/
theorem keys_add_of_notMem (h : key ∉ c) (value : ν) :
    (c.add key value).keys =
      if (c.keys.length : ℤ) + 1 > c.size then (key :: c.keys).dropLast else key :: c.keys := by
  simp only [add, Raw.add, Finmap.lookup_eq_none.mpr h]
  exact c.inStep.keys_addNew h value

/-- `Get` keeps the keys of the cache. -/
@[simp] theorem mem_get {k : κ} : k ∈ (c.get key).2 ↔ k ∈ c := by
  rw [mem_iff_mem_keys, keys_get]
  by_cases h : key ∈ c
  · simp only [if_pos h, List.mem_cons, List.mem_filter, decide_eq_true_eq, ← mem_iff_mem_keys]
    constructor
    · rintro (rfl | ⟨hk, -⟩)
      · exact h
      · exact hk
    · intro hk
      by_cases heq : k = key
      · exact .inl heq
      · exact .inr ⟨hk, heq⟩
  · rw [if_neg h, mem_iff_mem_keys]

/-- `Remove` keeps the other keys. -/
@[simp] theorem mem_remove {k : κ} : k ∈ c.remove key ↔ k ∈ c ∧ k ≠ key := by
  simp [mem_iff_mem_keys, keys_remove]

/-- `Add` brings no other key into the cache. -/
theorem eq_or_mem_of_mem_add {k : κ} {value : ν} (hk : k ∈ c.add key value) :
    k = key ∨ k ∈ c := by
  rw [mem_iff_mem_keys] at hk ⊢
  by_cases h : key ∈ c
  · rw [keys_add_of_mem h] at hk
    rcases List.mem_cons.mp hk with rfl | hk
    · exact .inl rfl
    · exact .inr (List.mem_of_mem_filter hk)
  · rw [keys_add_of_notMem h] at hk
    have hcons : k ∈ key :: c.keys := by
      split at hk
      · exact List.mem_of_mem_dropLast hk
      · exact hk
    exact List.mem_cons.mp hcons

/-- The key just added is in the cache: the eviction takes the other end of the
list. -/
theorem mem_add_self (c : Cache κ ν) (key : κ) (value : ν) : key ∈ c.add key value := by
  rw [mem_iff_mem_keys]
  by_cases h : key ∈ c
  · rw [keys_add_of_mem h]
    exact List.mem_cons_self
  · rw [keys_add_of_notMem h]
    split
    next hlen =>
      have hne : c.keys ≠ [] := by
        intro hnil
        rw [hnil, List.length_nil] at hlen
        have := c.size_pos
        omega
      rw [List.dropLast_cons_of_ne_nil hne]
      exact List.mem_cons_self
    next => exact List.mem_cons_self

end Cache

end GoBlocks.Lru
