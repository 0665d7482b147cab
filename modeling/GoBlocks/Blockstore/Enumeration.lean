import GoBlocks.Blockstore.MapStore

/-!
# Enumeration of the stored keys

`AllKeysChan` queries the raw datastore for all keys that start with the text of
the block prefix, removes that text, and passes on what is a multihash. Over an
in-memory map a full drain is the list of keys that the raw keys emit one by one,
in the order in which the map is ranged over.
-/

namespace GoBlocks

open GoBlocks.Path

/-! ## Ranging over a map -/

section Iteration

variable {d : Ds.KeyMap} {order : List (Ds.Key × Ds.Value)}

/-- Every map can be ranged over. -/
theorem Ds.KeyMap.exists_iterates (d : Ds.KeyMap) : ∃ order, d.Iterates order := by
  obtain ⟨es, hes⟩ := Quot.exists_rep d.entries
  refine ⟨es.map fun e => (e.1, e.2), ?_⟩
  have hmap : (es.map fun e => (e.1, e.2)).map
      (fun e => (⟨e.1, e.2⟩ : Sigma fun _ : Ds.Key => Ds.Value)) = es := by
    simp [Function.comp_def]
  rw [Ds.KeyMap.Iterates, hmap]
  exact hes

/-- Ranging over a map visits its keys. -/
theorem Ds.KeyMap.Iterates.keys_eq (h : d.Iterates order) :
    (order.map Prod.fst : Multiset Ds.Key) = d.entries.keys := by
  rw [← h, Multiset.coe_keys, List.keys, List.map_map]
  rfl

/-- The keys that are visited are those of the map. -/
theorem Ds.KeyMap.Iterates.mem_iff (h : d.Iterates order) {rk : Ds.Key} :
    rk ∈ order.map Prod.fst ↔ rk ∈ d := by
  rw [Finmap.mem_def, ← h.keys_eq, Multiset.mem_coe]

/-- No key is visited twice. -/
theorem Ds.KeyMap.Iterates.nodup (h : d.Iterates order) : (order.map Prod.fst).Nodup := by
  rw [← Multiset.coe_nodup, h.keys_eq]
  exact d.nodupKeys.nodup_keys

end Iteration

/-! ## The keys that raw keys emit -/

/-- The key that `AllKeysChan` passes on for a raw datastore key, if any. -/
def emitKey (rk : Ds.Key) : Option Key :=
  if blockPrefix.isAncestorOf rk then
    let k := keyFromDsKey (Ds.newKey (Ds.trimPrefix rk.string blockPrefix.string))
    if Multihash.IsMultihash k then some k else none
  else none

/-- The key that `AllKeysChan` passes on for a result of the namespace. -/
def passKey (r : Ds.Result) : Option Key :=
  let k := keyFromDsKey (Ds.newKey r.entry.key)
  if Multihash.IsMultihash k then some k else none

/-- Without errors the stream is passed on to its end. -/
theorem drainKeys_eq_filterMap {rs : List Ds.Result} (hrs : ∀ r ∈ rs, r.error = none) :
    drainKeys rs = rs.filterMap passKey := by
  induction rs with
  | nil => rfl
  | cons r rs ih =>
    have hrest := ih fun r' hr' => hrs r' (List.mem_cons_of_mem _ hr')
    have herr : r.error.isSome = false := by simp [hrs r (List.mem_cons_self ..)]
    simp only [drainKeys, herr, Bool.false_eq_true, if_false, hrest, List.filterMap_cons, passKey]
    by_cases hmh : Multihash.IsMultihash (keyFromDsKey (Ds.newKey r.entry.key))
    · simp [hmh, hmh.ne_nil]
    · simp [hmh]

/-- The namespace makes no errors. -/
theorem error_of_namespaceResult {pre : Ds.Key} {t : Ds.KeyTransform} {r r' : Ds.Result}
    (hr : r.error = none) (h : Ds.namespaceResult pre t r = some r') : r'.error = none := by
  simp only [Ds.namespaceResult, hr, Option.isSome_none, Bool.false_eq_true, if_false] at h
  split at h
  · obtain ⟨k', -, rfl⟩ := Option.map_eq_some_iff.mp h
    rfl
  · cases h

/-- An ancestor's text is a prefix. -/
theorem isPrefixOf_of_isAncestorOf {k other : Ds.Key} (h : k.isAncestorOf other = true) :
    k.string.isPrefixOf other.string = true := by
  unfold Ds.Key.isAncestorOf at h
  split at h
  · cases h
  · exact h

/-- One visited entry: filtering by prefix, inverting the key and passing it on
comes down to `emitKey`. -/
theorem pass_entry (e : Ds.Key × Ds.Value) :
    (if Ds.filterKeyPrefix blockPrefix.string ⟨e.1.string, e.2⟩ then
        (Ds.namespaceResult blockPrefix (Ds.prefixTransform blockPrefix)
          ⟨⟨e.1.string, e.2⟩, none⟩).bind passKey
      else none) = emitKey e.1 := by
  by_cases hanc : blockPrefix.isAncestorOf e.1 = true
  · simp [Ds.filterKeyPrefix, isPrefixOf_of_isAncestorOf hanc, Ds.namespaceResult,
      Ds.prefixTransform, hanc, passKey, emitKey]
  · simp [Ds.namespaceResult, hanc, emitKey]

/-- The text of the block prefix. -/
theorem blockPrefix_string : blockPrefix.string = slash :: blocksName := by decide

/-- A query in some order delivers the visited entries with the block prefix. -/
theorem queryInOrder_keysQuery (order : List (Ds.Key × Ds.Value)) :
    Ds.queryInOrder (Ds.keysQuery blockPrefix.string) order =
      (order.map fun e => (⟨⟨e.1.string, e.2⟩, none⟩ : Ds.Result)).filter
        fun r => Ds.filterKeyPrefix blockPrefix.string r.entry := by
  rw [Ds.queryInOrder, Ds.naiveQueryApply_keysQuery (by rw [blockPrefix_string]; simp),
    Ds.naiveFilter, Ds.resultsWithEntries, List.map_map]
  apply List.filter_congr
  intro r hr
  obtain ⟨e, -, rfl⟩ := List.mem_map.mp hr
  simp

/-- A full drain of `AllKeysChan` lists what the raw keys emit, in the order in
which the map is ranged over. -/
theorem mapStore_allKeysChan_iff (env : HashEnv) (d : Ds.KeyMap) (r : Except Err (List Key)) :
    (mapStore env).allKeysChan d r ↔
      ∃ order, d.Iterates order ∧ r = .ok (order.filterMap fun e => emitKey e.1) := by
  have hdrain : ∀ order : List (Ds.Key × Ds.Value),
      drainKeys ((Ds.queryInOrder (Ds.keysQuery blockPrefix.string) order).filterMap
        (Ds.namespaceResult blockPrefix (Ds.prefixTransform blockPrefix))) =
      order.filterMap fun e => emitKey e.1 := by
    intro order
    rw [queryInOrder_keysQuery, drainKeys_eq_filterMap, List.filterMap_filter,
      List.filterMap_filterMap, List.filterMap_map]
    · congr 1
      funext e
      rw [← pass_entry]
      simp only [Function.comp_apply]
      split <;> rfl
    · intro r hr
      obtain ⟨r₀, hr₀, hpass⟩ := List.mem_filterMap.mp hr
      obtain ⟨e, -, rfl⟩ := List.mem_map.mp (List.mem_filter.mp hr₀).1
      exact error_of_namespaceResult rfl hpass
  constructor
  · rintro ⟨r₀, ⟨r₁, ⟨order, horder, rfl⟩, rfl⟩, rfl⟩
    exact ⟨order, horder, congrArg Except.ok (hdrain order)⟩
  · rintro ⟨order, horder, rfl⟩
    exact ⟨_, ⟨_, ⟨order, horder, rfl⟩, rfl⟩, congrArg Except.ok (hdrain order).symm⟩

end GoBlocks
