import GoBlocks.Blockstore.AllKeys

/-!
# Completeness of `AllKeysChan`

A block key is put and deleted as a byte string, but it is stored and listed in
its cleaned form. A key that was put and not deleted since is therefore listed
exactly if it is canonical and no deletion of another key with the same cleaned
form came after the last put of that form.
-/

namespace GoBlocks

open GoBlocks.Path Blockstore

/-- The last update of a key that satisfies `p` is a put. -/
def LastIsPut (p : Key → Bool) (us : List Update) : Prop :=
  ∃ b, us.reverse.find? (fun u => p u.key) = some (.put b)

/-- The key was put and not deleted since. -/
def Live (us : List Update) (k : Key) : Prop := LastIsPut (fun k' => k' = k) us

/-- Some key of the class was put, and none was deleted since. -/
def ClassLive (us : List Update) (k : Key) : Prop := LastIsPut (fun k' => Key.Equiv k' k) us

/-- A full drain of `AllKeysChan`, after these updates of an empty store, lists
every live key exactly once. -/
def AllKeysComplete (env : HashEnv) (us : List Update) : Prop :=
  ∀ ks, (mapStore env).allKeysChan ((mapStore env).updates us ∅) (.ok ks) →
    ∀ k, Live us k → ks.count k = 1

/-- The last update decides if it is one of those asked for. -/
theorem lastIsPut_append_singleton (p : Key → Bool) (us : List Update) (u : Update) :
    LastIsPut p (us ++ [u]) ↔ if p u.key then ∃ b, u = .put b else LastIsPut p us := by
  unfold LastIsPut
  rw [List.reverse_append, List.reverse_singleton, List.singleton_append, List.find?_cons]
  cases p u.key <;> simp

/-- The class of a key is stored exactly if it is live. -/
theorem mem_updates_iff (env : HashEnv) (us : List Update) (k : Key) :
    rawKey k ∈ (mapStore env).updates us ∅ ↔ ClassLive us k := by
  induction us using List.reverseRecOn with
  | nil =>
    simp only [updates, ClassLive, LastIsPut, List.foldl_nil, List.reverse_nil, List.find?_nil,
      reduceCtorEq, exists_false, iff_false]
    exact Finmap.notMem_empty
  | append_singleton us u ih =>
    have happ : (mapStore env).updates (us ++ [u]) ∅ =
        (mapStore env).update ((mapStore env).updates us ∅) u := by
      simp [updates]
    rw [happ, ← Finmap.lookup_isSome, ClassLive, lastIsPut_append_singleton]
    by_cases hk : Key.Equiv u.key k
    · have hraw : rawKey k = rawKey u.key := (rawKey_eq_iff.mpr hk).symm
      simp only [hk, decide_true, if_true]
      rw [hraw]
      cases u with
      | put b =>
        rw [Update.key_put, mapStore.lookup_update_put]
        simp
      | deleteBlock k' =>
        rw [Update.key_deleteBlock, mapStore.lookup_update_deleteBlock]
        simp
    · have hraw : rawKey k ≠ rawKey u.key := fun h => hk (rawKey_eq_iff.mp h.symm)
      simp only [hk, decide_false, Bool.false_eq_true, if_false]
      rw [mapStore.lookup_update_of_ne _ _ hraw, Finmap.lookup_isSome]
      exact ih

/-- Every raw key stored by updates of the empty store is that of a key used. -/
theorem exists_update_of_mem {env : HashEnv} {us : List Update} {rk : Ds.Key}
    (hrk : rk ∈ (mapStore env).updates us ∅) : ∃ u ∈ us, rk = rawKey u.key := by
  revert rk
  apply updates_invariant (I := fun d : Ds.KeyMap => ∀ {rk}, rk ∈ d → ∃ u ∈ us, rk = rawKey u.key)
  · intro u hu d hd rk hrk
    by_cases hne : rk = rawKey u.key
    · exact ⟨u, hu, hne⟩
    · rw [← Finmap.lookup_isSome, mapStore.lookup_update_of_ne _ _ hne,
        Finmap.lookup_isSome] at hrk
      exact hd hrk
  · intro rk hrk
    exact absurd hrk Finmap.notMem_empty

/-- A live key was used in some update. -/
theorem Live.exists_update {us : List Update} {k : Key} (h : Live us k) :
    ∃ u ∈ us, u.key = k := by
  obtain ⟨b, hb⟩ := h
  refine ⟨.put b, List.mem_reverse.mp (List.mem_of_find?_eq_some hb), ?_⟩
  have hkey := List.find?_some hb
  exact of_decide_eq_true hkey

/-- The raw key of a block key emits at most the cleaned key. -/
theorem eq_keyFromDsKey_of_emitKey {k k' : Key} (h : emitKey (rawKey k) = some k') :
    k' = keyFromDsKey k.dsKey := by
  rw [emitKey_rawKey] at h
  split at h
  · exact (Option.some.inj h).symm
  · cases h

/-- Block keys whose raw keys emit the same key share their raw key. -/
theorem rawKey_eq_of_emitKey {k k' key : Key} (h : emitKey (rawKey k) = some key)
    (h' : emitKey (rawKey k') = some key) : rawKey k = rawKey k' := by
  have hds : k.dsKey = k'.dsKey := keyFromDsKey_injective
    ((eq_keyFromDsKey_of_emitKey h).symm.trans (eq_keyFromDsKey_of_emitKey h'))
  rw [rawKey, rawKey, hds]

/-- After updates of the empty store no key is listed twice. -/
theorem nodup_allKeys {env : HashEnv} {us : List Update} {order : List (Ds.Key × Ds.Value)}
    (horder : ((mapStore env).updates us ∅).Iterates order) :
    (order.filterMap fun e => emitKey e.1).Nodup := by
  rw [List.Nodup, List.pairwise_filterMap]
  have hnodup := List.pairwise_map.mp horder.nodup
  refine hnodup.imp_of_mem ?_
  intro e e' he he' hne k hk k' hk' heq
  subst heq
  obtain ⟨u, -, hu⟩ := exists_update_of_mem (horder.mem_iff.mp (List.mem_map_of_mem he))
  obtain ⟨u', -, hu'⟩ := exists_update_of_mem (horder.mem_iff.mp (List.mem_map_of_mem he'))
  rw [hu] at hk hne
  rw [hu'] at hk' hne
  exact hne (rawKey_eq_of_emitKey hk hk')

/-- A canonical live key whose class is live is listed. -/
theorem emitKey_rawKey_of_canonical {k : Key} (hmh : Multihash.IsMultihash k)
    (hk : k.Canonical) : emitKey (rawKey k) = some k := by
  rw [emitKey_rawKey, keyFromDsKey_dsKey_iff.mpr hk, if_pos hmh]

/-- **Completeness of `AllKeysChan`.** After any updates of the empty store with
well-formed multihashes, a full drain lists every live key exactly once if and
only if every live key is canonical and its class is live. -/
theorem allKeysComplete_iff (env : HashEnv) (us : List Update)
    (hus : ∀ u ∈ us, Multihash.IsMultihash u.key) :
    AllKeysComplete env us ↔ ∀ k, Live us k → k.Canonical ∧ ClassLive us k := by
  constructor
  · intro h k hlive
    obtain ⟨order, horder⟩ := ((mapStore env).updates us ∅).exists_iterates
    have hcount := h _ ((mapStore_allKeysChan_iff env _ _).mpr ⟨order, horder, rfl⟩) k hlive
    have hmem : k ∈ order.filterMap fun e => emitKey e.1 :=
      List.count_pos_iff.mp (by omega)
    obtain ⟨rk, hrk, hemit⟩ := (mem_allKeys_iff horder).mp hmem
    obtain ⟨u, -, rfl⟩ := exists_update_of_mem hrk
    have hkey := eq_keyFromDsKey_of_emitKey hemit
    have hds : k.dsKey = u.key.dsKey := by rw [hkey, dsKey_keyFromDsKey]
    refine ⟨hkey ▸ canonical_keyFromDsKey _, ?_⟩
    rw [← mem_updates_iff env, rawKey, hds]
    exact hrk
  · intro h ks hks k hlive
    obtain ⟨order, horder, hks⟩ := (mapStore_allKeysChan_iff env _ _).mp hks
    cases hks
    obtain ⟨hcanon, hclass⟩ := h k hlive
    obtain ⟨u, hu, rfl⟩ := hlive.exists_update
    apply List.count_eq_one_of_mem (nodup_allKeys horder)
    rw [mem_allKeys_iff horder]
    exact ⟨rawKey u.key, (mem_updates_iff env us u.key).mpr hclass,
      emitKey_rawKey_of_canonical (hus u hu) hcanon⟩

/-- Putting, deleting and putting again one canonical key leaves it listed once. -/
theorem allKeysComplete_put_delete_put :
    (∀ u ∈ [Update.put ⟨shortKey, [7]⟩, .deleteBlock shortKey, .put ⟨shortKey, [8]⟩],
      Multihash.IsMultihash u.key) ∧
    AllKeysComplete ⟨id, false⟩
      [.put ⟨shortKey, [7]⟩, .deleteBlock shortKey, .put ⟨shortKey, [8]⟩] := by
  have hus : ∀ u ∈ [Update.put ⟨shortKey, [7]⟩, .deleteBlock shortKey, .put ⟨shortKey, [8]⟩],
      Multihash.IsMultihash u.key := by decide
  refine ⟨hus, (allKeysComplete_iff _ _ hus).mpr fun k hk => ?_⟩
  obtain ⟨u, hu, rfl⟩ := hk.exists_update
  have hkeys : ∀ u ∈ [Update.put ⟨shortKey, [7]⟩, .deleteBlock shortKey,
      .put ⟨shortKey, [8]⟩], u.key = shortKey := by decide
  rw [hkeys u hu]
  exact ⟨by decide, _, rfl⟩

/-- A multihash with the digest `a/`. -/
def trailingSlashKey : Key := [0x01, 0x02, 0x61, slash]

/-- A key that ends in a slash is well formed and live, but not listed. -/
theorem not_allKeysComplete_trailingSlash :
    Multihash.IsMultihash trailingSlashKey ∧
      ¬ AllKeysComplete ⟨id, false⟩ [.put ⟨trailingSlashKey, []⟩] := by
  refine ⟨by decide, fun h => ?_⟩
  have hkeys : (mapStore ⟨id, false⟩).allKeysChan
      ((mapStore ⟨id, false⟩).updates [.put ⟨trailingSlashKey, []⟩] ∅) (.ok []) :=
    (mapStore_allKeysChan_iff _ _ _).mpr
      ⟨[(rawKey trailingSlashKey, .bytes [])], rfl, by decide⟩
  have hcount := h _ hkeys trailingSlashKey ⟨_, rfl⟩
  exact absurd hcount (by decide)

end GoBlocks
