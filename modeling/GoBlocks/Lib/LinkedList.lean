import Mathlib.Data.Finmap
import Mathlib.Data.List.Nodup

/-!
# Linked lists with element handles

A doubly linked list whose elements have an identity of their own, so that a map
can point into it. Each element is a handle with a value; a handle is allocated
when the element is pushed and never reused. A list is *in step* with an index
when the index maps the key of every value to the handle of its element and maps
nothing else. The in-step rules below are the ones that keep it so.
-/

namespace GoBlocks

/-- A linked list of values with handles. -/
structure LinkedList (α : Type*) where
  /-- The elements from front to back, each with its handle. -/
  elems : List (ℕ × α)
  /-- The next handle to allocate. -/
  next : ℕ
  /-- Allocated handles lie below the next one. -/
  fresh : ∀ e ∈ elems, e.1 < next
  /-- No two elements share a handle. -/
  nodup : (elems.map Prod.fst).Nodup

namespace LinkedList

variable {α κ : Type*}

/-- The empty list. -/
def empty : LinkedList α := ⟨[], 0, by simp, by simp⟩

/-- The values from front to back. -/
def values (l : LinkedList α) : List α := l.elems.map Prod.snd

/-- The number of elements. -/
def len (l : LinkedList α) : ℕ := l.elems.length

/-- The first element. -/
def front? (l : LinkedList α) : Option (ℕ × α) := l.elems.head?

/-- The last element. -/
def back? (l : LinkedList α) : Option (ℕ × α) := l.elems.getLast?

/-- The element with a handle, if it is in the list. -/
def find? (l : LinkedList α) (h : ℕ) : Option (ℕ × α) := l.elems.find? (fun e => e.1 = h)

/-- A new handle is not in use. -/
theorem next_notMem (l : LinkedList α) : l.next ∉ l.elems.map Prod.fst := by
  intro h
  obtain ⟨e, he, heq⟩ := List.mem_map.mp h
  have := l.fresh e he
  omega

/-- Insert a value at the front under the next handle. -/
def pushFront (l : LinkedList α) (v : α) : LinkedList α where
  elems := (l.next, v) :: l.elems
  next := l.next + 1
  fresh e he := by
    rcases List.mem_cons.mp he with rfl | he
    · exact Nat.lt_succ_self _
    · exact Nat.lt_succ_of_lt (l.fresh e he)
  nodup := by
    rw [List.map_cons, List.nodup_cons]
    exact ⟨l.next_notMem, l.nodup⟩

/-- Insert a value at the back under the next handle. -/
def pushBack (l : LinkedList α) (v : α) : LinkedList α where
  elems := l.elems ++ [(l.next, v)]
  next := l.next + 1
  fresh e he := by
    rcases List.mem_append.mp he with he | he
    · exact Nat.lt_succ_of_lt (l.fresh e he)
    · cases List.mem_singleton.mp he
      exact Nat.lt_succ_self _
  nodup := by
    rw [List.map_append, List.map_singleton, ← List.concat_eq_append, List.nodup_concat]
    exact ⟨l.next_notMem, l.nodup⟩

/-- Remove the element with a handle, if it is in the list. -/
def remove (l : LinkedList α) (h : ℕ) : LinkedList α where
  elems := l.elems.filter (fun e => e.1 ≠ h)
  next := l.next
  fresh e he := l.fresh e (List.mem_of_mem_filter he)
  nodup := l.nodup.sublist (List.filter_sublist.map _)

/-- The lookup finds the element that has the handle. -/
theorem find?_eq_some_iff {l : LinkedList α} {h : ℕ} {e : ℕ × α} :
    l.find? h = some e ↔ e ∈ l.elems ∧ e.1 = h := by
  constructor
  · intro hf
    have heq := List.find?_some hf
    exact ⟨List.mem_of_find?_eq_some hf, of_decide_eq_true heq⟩
  · rintro ⟨hmem, rfl⟩
    cases hf : l.find? e.1 with
    | none => exact absurd rfl (of_decide_eq_false
        (Bool.eq_false_iff.mpr (List.find?_eq_none.mp hf e hmem)))
    | some e' =>
      have heq := List.find?_some hf
      have hinj := List.inj_on_of_nodup_map l.nodup (List.mem_of_find?_eq_some hf) hmem
        (of_decide_eq_true heq)
      rw [hinj]

/-- Move the element with a handle to the front, if it is in the list. -/
def moveToFront (l : LinkedList α) (h : ℕ) : LinkedList α where
  elems := (l.find? h).toList ++ (l.remove h).elems
  next := l.next
  fresh e he := by
    rcases List.mem_append.mp he with he | he
    · exact l.fresh e (find?_eq_some_iff.mp (Option.mem_toList.mp he)).1
    · exact (l.remove h).fresh e he
  nodup := by
    cases hf : l.find? h with
    | none => exact (l.remove h).nodup
    | some e =>
      have heq := (find?_eq_some_iff.mp hf).2
      rw [Option.toList_some, List.singleton_append, List.map_cons, List.nodup_cons]
      refine ⟨?_, (l.remove h).nodup⟩
      rw [heq]
      simp [remove]

/-- Change the value of the element with a handle in place. -/
def modify (l : LinkedList α) (h : ℕ) (f : α → α) : LinkedList α where
  elems := l.elems.map fun e => (e.1, if e.1 = h then f e.2 else e.2)
  next := l.next
  fresh e he := by
    obtain ⟨e', he', rfl⟩ := List.mem_map.mp he
    exact l.fresh e' he'
  nodup := by
    rw [List.map_map]
    exact l.nodup

/-- The empty list has no values. -/
@[simp] theorem values_empty : (empty : LinkedList α).values = [] := rfl

/-- `PushFront` puts the value before the others. -/
@[simp] theorem values_pushFront (l : LinkedList α) (v : α) :
    (l.pushFront v).values = v :: l.values := rfl

/-- `PushBack` puts the value after the others. -/
@[simp] theorem values_pushBack (l : LinkedList α) (v : α) :
    (l.pushBack v).values = l.values ++ [v] := by
  simp [values, pushBack]

/-- A change in place that keeps the key of every value keeps the list of keys. -/
theorem map_values_modify (l : LinkedList α) (h : ℕ) {f : α → α} {key : α → κ}
    (hf : ∀ v, key (f v) = key v) : (l.modify h f).values.map key = l.values.map key := by
  simp only [values, modify, List.map_map]
  refine List.map_congr_left fun e _ => ?_
  by_cases he : e.1 = h <;> simp [he, hf]

/-- The length counts the values. -/
theorem len_eq (l : LinkedList α) : l.len = l.values.length := by
  simp [len, values]

/-- Removing the first element leaves the others. -/
theorem cons_values_remove_front {l : LinkedList α} {e : ℕ × α} (h : l.front? = some e) :
    e.2 :: (l.remove e.1).values = l.values := by
  obtain ⟨rest, hrest⟩ := List.head?_eq_some_iff.mp h
  have hnodup := l.nodup
  rw [hrest, List.map_cons, List.nodup_cons] at hnodup
  -- No other element has the handle of the first one.
  have hfilter : rest.filter (fun e' => e'.1 ≠ e.1) = rest := by
    refine List.filter_eq_self.mpr fun e' he' => decide_eq_true fun heq => ?_
    exact hnodup.1 (heq ▸ List.mem_map_of_mem he')
  simp only [values, remove, hrest, List.filter_cons, ne_eq, not_true_eq_false, decide_false,
    Bool.false_eq_true, if_false, List.map_cons]
  rw [hfilter]

/-- Moving to the front keeps the elements. -/
theorem mem_moveToFront {l : LinkedList α} {h : ℕ} {e : ℕ × α} :
    e ∈ (l.moveToFront h).elems ↔ e ∈ l.elems := by
  simp only [moveToFront, remove, List.mem_append, Option.mem_toList, find?_eq_some_iff,
    List.mem_filter, decide_eq_true_eq]
  tauto

/-- Removing the last element leaves the others. -/
theorem values_remove_back {l : LinkedList α} {e : ℕ × α} (h : l.back? = some e) :
    (l.remove e.1).values = l.values.dropLast := by
  obtain ⟨init, hinit⟩ := List.getLast?_eq_some_iff.mp h
  have hnodup := l.nodup
  rw [hinit, List.map_append, List.map_singleton, ← List.concat_eq_append,
    List.nodup_concat] at hnodup
  have hfilter : init.filter (fun e' => e'.1 ≠ e.1) = init := by
    refine List.filter_eq_self.mpr fun e' he' => decide_eq_true fun heq => ?_
    exact hnodup.1 (heq ▸ List.mem_map_of_mem he')
  simp only [values, remove, hinit, List.filter_append, hfilter]
  simp

section InStep

variable [DecidableEq κ]

/-- The index maps the key of every value to its element, and nothing else. -/
def InStep (l : LinkedList α) (index : Finmap (fun _ : κ => ℕ)) (key : α → κ) : Prop :=
  ∀ k h, index.lookup k = some h ↔ ∃ v, (h, v) ∈ l.elems ∧ key v = k

variable {l : LinkedList α} {index : Finmap (fun _ : κ => ℕ)} {key : α → κ} {h : ℕ} {v w : α}

/-- The empty list is in step with the empty index. -/
theorem inStep_empty (key : α → κ) : InStep empty (∅ : Finmap (fun _ : κ => ℕ)) key := by
  intro k h
  simp [empty]

/-- The index holds exactly the keys of the values. -/
theorem InStep.mem_index_iff (hs : l.InStep index key) {k : κ} :
    k ∈ index ↔ k ∈ l.values.map key := by
  rw [← Finmap.lookup_isSome, Option.isSome_iff_exists]
  simp only [hs k, values, List.mem_map, Prod.exists]
  constructor
  · rintro ⟨h, v, hmem, rfl⟩
    exact ⟨v, ⟨h, v, hmem, rfl⟩, rfl⟩
  · rintro ⟨_, ⟨h, v, hmem, rfl⟩, rfl⟩
    exact ⟨h, v, hmem, rfl⟩

/-- Elements whose values share a key are the same element. -/
theorem InStep.handle_eq (hs : l.InStep index key) {h' : ℕ} (hv : (h, v) ∈ l.elems)
    (hw : (h', w) ∈ l.elems) (hkey : key v = key w) : h = h' := by
  have hlv := (hs (key w) h).mpr ⟨v, hv, hkey⟩
  have hlw := (hs (key w) h').mpr ⟨w, hw, rfl⟩
  exact Option.some.inj (hlv.symm.trans hlw)

/-- The keys of the values are pairwise distinct. -/
theorem InStep.keys_nodup (hs : l.InStep index key) : (l.values.map key).Nodup := by
  rw [values, List.map_map]
  refine List.Nodup.map_on ?_ (List.Nodup.of_map _ l.nodup)
  rintro ⟨h, v⟩ hv ⟨h', w⟩ hw hkey
  exact List.inj_on_of_nodup_map l.nodup hv hw (hs.handle_eq hv hw hkey)

/-- In step depends only on which elements the list holds. -/
theorem InStep.congr (hs : l.InStep index key) {l' : LinkedList α}
    (hmem : ∀ e, e ∈ l'.elems ↔ e ∈ l.elems) : l'.InStep index key := by
  intro k h
  simp only [hs k h, hmem]

/-- A value under a new key can be added in step. -/
theorem InStep.insert (hs : l.InStep index key) {l' : LinkedList α} (hv : key v ∉ index)
    (hmem : ∀ e, e ∈ l'.elems ↔ e = (h, v) ∨ e ∈ l.elems) :
    l'.InStep (index.insert (key v) h) key := by
  intro k h'
  by_cases hk : k = key v
  · subst hk
    rw [Finmap.lookup_insert]
    constructor
    · intro heq
      cases heq
      exact ⟨v, (hmem _).mpr (.inl rfl), rfl⟩
    · rintro ⟨w, hw, hkey⟩
      rcases (hmem _).mp hw with heq | hw
      · cases heq
        rfl
      · exact absurd (hs.mem_index_iff.mpr (hkey ▸ List.mem_map_of_mem
          (List.mem_map.mpr ⟨_, hw, rfl⟩))) hv
  · rw [Finmap.lookup_insert_of_ne _ hk, hs k h']
    refine exists_congr fun w => and_congr_left fun hkey => ?_
    rw [hmem]
    constructor
    · exact .inr
    · rintro (heq | hw)
      · cases heq
        exact absurd hkey.symm hk
      · exact hw

/-- Pushing a value with a new key at the front stays in step. -/
theorem InStep.pushFront (hs : l.InStep index key) (hv : key v ∉ index) :
    (l.pushFront v).InStep (index.insert (key v) l.next) key :=
  hs.insert hv fun _ => List.mem_cons

/-- Pushing a value with a new key at the back stays in step. -/
theorem InStep.pushBack (hs : l.InStep index key) (hv : key v ∉ index) :
    (l.pushBack v).InStep (index.insert (key v) l.next) key :=
  hs.insert hv fun _ => by simp [LinkedList.pushBack, or_comm]

/-- Removing an element and its key stays in step. -/
theorem InStep.remove (hs : l.InStep index key) (hv : (h, v) ∈ l.elems) :
    (l.remove h).InStep (index.erase (key v)) key := by
  intro k h'
  by_cases hk : k = key v
  · subst hk
    rw [Finmap.lookup_erase]
    constructor
    · intro heq
      cases heq
    · rintro ⟨w, hw, hkey⟩
      have heq := hs.handle_eq (List.mem_of_mem_filter hw) hv hkey
      simp [LinkedList.remove, heq] at hw
  · rw [Finmap.lookup_erase_ne hk, hs k h']
    refine exists_congr fun w => and_congr_left fun hkey => ?_
    simp only [LinkedList.remove, List.mem_filter, decide_eq_true_eq]
    refine ⟨fun hw => ⟨hw, ?_⟩, And.left⟩
    rintro rfl
    have heq := List.inj_on_of_nodup_map l.nodup hw hv rfl
    exact hk (hkey ▸ congrArg (fun e => key e.2) heq)

/-- Moving an element to the front stays in step. -/
theorem InStep.moveToFront (hs : l.InStep index key) (h : ℕ) :
    (l.moveToFront h).InStep index key :=
  hs.congr fun _ => mem_moveToFront

/-- Changing a value in place stays in step when the change keeps its key. -/
theorem InStep.modify (hs : l.InStep index key) (h : ℕ) {f : α → α}
    (hf : ∀ v, key (f v) = key v) : (l.modify h f).InStep index key := by
  intro k h'
  rw [hs k h']
  simp only [LinkedList.modify, List.mem_map, Prod.mk.injEq, Prod.exists]
  constructor
  · rintro ⟨v, hv, rfl⟩
    refine ⟨_, ⟨h', v, hv, rfl, rfl⟩, ?_⟩
    split
    · exact hf v
    · rfl
  · rintro ⟨_, ⟨_, v, hv, rfl, rfl⟩, hkey⟩
    refine ⟨v, hv, ?_⟩
    split at hkey
    · exact (hf v).symm.trans hkey
    · exact hkey

/-- What remains after removing an element: the values with another key. -/
theorem InStep.values_remove (hs : l.InStep index key) (hv : (h, v) ∈ l.elems) :
    (l.remove h).values = l.values.filter (fun w => key w ≠ key v) := by
  rw [values, values, LinkedList.remove, List.filter_map]
  refine congrArg _ (List.filter_congr ?_)
  rintro ⟨h', w⟩ hw
  refine decide_eq_decide.mpr (not_congr ?_)
  constructor
  · rintro rfl
    have heq := List.inj_on_of_nodup_map l.nodup hw hv rfl
    exact congrArg (fun e => key e.2) heq
  · exact hs.handle_eq hw hv

/-- Moving an element to the front keeps the order of the others. -/
theorem InStep.values_moveToFront (hs : l.InStep index key) (hv : (h, v) ∈ l.elems) :
    (l.moveToFront h).values = v :: l.values.filter (fun w => key w ≠ key v) := by
  have helems : (l.moveToFront h).elems = (l.find? h).toList ++ (l.remove h).elems := rfl
  rw [← hs.values_remove hv, values, helems, find?_eq_some_iff.mpr ⟨hv, rfl⟩]
  rfl

/-- A change in place changes the value with the key. -/
theorem InStep.values_modify (hs : l.InStep index key) (hv : (h, v) ∈ l.elems) (f : α → α) :
    (l.modify h f).values = l.values.map fun w => if key w = key v then f w else w := by
  simp only [values, LinkedList.modify, List.map_map]
  refine List.map_congr_left ?_
  rintro ⟨h', w⟩ hw
  by_cases hkey : key w = key v
  · simp [hkey, hs.handle_eq hw hv hkey]
  · have hne : h' ≠ h := by
      rintro rfl
      exact hkey (congrArg (fun e => key e.2) (List.inj_on_of_nodup_map l.nodup hw hv rfl))
    simp [hkey, hne]

end InStep

end LinkedList

end GoBlocks
