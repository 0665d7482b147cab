import GoBlocks.Blockstore.Enumeration

/-!
# Soundness of `AllKeysChan`

The query behind `AllKeysChan` selects raw keys by the text of the block prefix,
while lookups go to the children of the prefix. Both agree on the raw keys that
continue the text with a slash. A raw key that continues it otherwise, written by
another user of the datastore, is emitted although no lookup finds it.
-/

namespace GoBlocks

open GoBlocks.Path Blockstore

/-- The only name of the block prefix. -/
theorem blockPrefix_names : blockPrefix.names = [blocksName] := by decide

/-! ## Raw keys below the block prefix -/

/-- The raw key of a block key has the block prefix before the names of the key. -/
theorem rawKey_names (k : Key) : (rawKey k).names = blocksName :: k.dsKey.names := by
  rw [rawKey, Ds.Key.child_names, blockPrefix_names]
  rfl

/-- The raw key of a key with names continues the text of the block prefix with
the text of the datastore key. -/
theorem rawKey_string {k : Key} (hk : k.dsKey.names ≠ []) :
    (rawKey k).string = blockPrefix.string ++ k.dsKey.string := by
  rw [Ds.Key.string_eq, rawKey_names, join_cons _ hk, k.dsKey.string_eq, blockPrefix_string]
  simp

/-- An ancestor's text is continued by a nonempty one. -/
theorem isAncestorOf_iff {k other : Ds.Key} :
    k.isAncestorOf other = true ↔ ∃ s, s ≠ [] ∧ other.string = k.string ++ s := by
  unfold Ds.Key.isAncestorOf
  split
  · rename_i heq
    simp only [Bool.false_eq_true, false_iff, not_exists, not_and]
    intro s hs h
    rw [heq] at h
    exact hs (List.self_eq_append_right.mp h)
  · rename_i hne
    rw [List.isPrefixOf_iff_prefix]
    constructor
    · rintro ⟨s, hs⟩
      refine ⟨s, ?_, hs.symm⟩
      rintro rfl
      exact hne (by simpa using hs.symm)
    · rintro ⟨s, -, hs⟩
      exact ⟨s, hs.symm⟩

/-- What a raw key emits whose text continues that of the block prefix. -/
theorem emitKey_of_string_eq {rk : Ds.Key} {s : Bytes} (hs : s ≠ [])
    (hrk : rk.string = blockPrefix.string ++ s) :
    emitKey rk = if Multihash.IsMultihash (keyFromDsKey (Ds.newKey s))
      then some (keyFromDsKey (Ds.newKey s)) else none := by
  have hanc : blockPrefix.isAncestorOf rk = true := isAncestorOf_iff.mpr ⟨s, hs, hrk⟩
  have hpre : blockPrefix.string.isPrefixOf (blockPrefix.string ++ s) = true :=
    List.isPrefixOf_iff_prefix.mpr ⟨s, rfl⟩
  have htrim : Ds.trimPrefix rk.string blockPrefix.string = s := by
    rw [hrk, Ds.trimPrefix, if_pos hpre, List.drop_left]
  simp only [emitKey, hanc, if_true, htrim]

/-- The raw key of a block key emits the cleaned key if that is a multihash. -/
theorem emitKey_rawKey (k : Key) :
    emitKey (rawKey k) = if Multihash.IsMultihash (keyFromDsKey k.dsKey)
      then some (keyFromDsKey k.dsKey) else none := by
  by_cases hk : k.dsKey.names = []
  · -- the root key is stored under the prefix itself, which is not its own ancestor
    have hraw : rawKey k = blockPrefix := by
      apply Ds.Key.ext_names
      rw [rawKey_names, hk, blockPrefix_names]
    have hkey : keyFromDsKey k.dsKey = [] := by
      rw [keyFromDsKey_eq, hk]
      rfl
    rw [hraw, hkey]
    decide
  · have hs : k.dsKey.string ≠ [] := by
      rw [k.dsKey.string_eq]
      simp
    rw [emitKey_of_string_eq hs (rawKey_string hk), Ds.newKey_string]

/-- A raw key whose text continues that of the block prefix with a slash is the
raw key of the block key it emits. -/
theorem eq_rawKey_of_string_eq {rk : Ds.Key} {t : Bytes}
    (hrk : rk.string = blockPrefix.string ++ slash :: t) :
    rk = rawKey (keyFromDsKey (Ds.newKey (slash :: t))) := by
  have hne : rk.names ≠ [] := by
    intro hnil
    rw [rk.string_eq, hnil, blockPrefix_string] at hrk
    simp [join, blocksName] at hrk
  have helems : [] :: rk.names = [] :: blocksName :: elements t := by
    calc [] :: rk.names = elements rk.string := by
          rw [rk.string_eq, elements_slash_cons,
            elements_join hne fun e he => (Ds.Key.isName_of_mem_names he).2.2.2]
      _ = elements (slash :: blocksName) ++ elements t := by
          rw [hrk, elements_append_slash, blockPrefix_string]
      _ = [] :: blocksName :: elements t := rfl
  have hnames : rk.names = blocksName :: elements t := (List.cons.inj helems).2
  have ht : ∀ e ∈ elements t, IsName e := fun e he =>
    Ds.Key.isName_of_mem_names (k := rk) (by rw [hnames]; exact List.mem_cons_of_mem _ he)
  apply Ds.Key.ext_names
  rw [rawKey_names, dsKey_keyFromDsKey, Ds.newKey_names, names_slash_cons, Path.names,
    resolve_names ht, hnames]

/-! ## Soundness on a shared datastore -/

/-- The raw key lies beside the blocks namespace: its text continues that of the
block prefix by `s`, but not with a slash. -/
def IsSibling (rk : Ds.Key) (s : Bytes) : Prop :=
  rk.string = blockPrefix.string ++ s ∧ s ≠ [] ∧ s.head? ≠ some slash

/-- Every listed key is found by `Has` on the same contents. -/
def AllKeysSound (env : HashEnv) (d : Ds.KeyMap) : Prop :=
  ∀ ks, (mapStore env).allKeysChan d (.ok ks) →
    ∀ k ∈ ks, ((mapStore env).has k d).1 = .ok true

/-- `Has` finds the keys whose raw key is present. -/
theorem has_eq_true_iff (env : HashEnv) (d : Ds.KeyMap) (k : Key) :
    ((mapStore env).has k d).1 = .ok true ↔ rawKey k ∈ d := by
  rw [mapStore.has_eq, ← Finmap.lookup_isSome]
  simp

/-- The listed keys are those that the raw keys of the contents emit. -/
theorem mem_allKeys_iff {d : Ds.KeyMap} {order : List (Ds.Key × Ds.Value)}
    (horder : d.Iterates order) {k : Key} :
    k ∈ order.filterMap (fun e => emitKey e.1) ↔ ∃ rk ∈ d, emitKey rk = some k := by
  rw [List.mem_filterMap]
  constructor
  · rintro ⟨e, he, hemit⟩
    exact ⟨e.1, horder.mem_iff.mp (List.mem_map_of_mem he), hemit⟩
  · rintro ⟨rk, hrk, hemit⟩
    obtain ⟨e, he, rfl⟩ := List.mem_map.mp (horder.mem_iff.mpr hrk)
    exact ⟨e, he, hemit⟩

/-- **Soundness of `AllKeysChan`.** On any raw contents every listed key is found
by `Has` exactly if each raw key beside the namespace whose continuation cleans to
a multihash has that multihash stored inside the namespace too. -/
theorem allKeysSound_iff (env : HashEnv) (d : Ds.KeyMap) :
    AllKeysSound env d ↔ ∀ rk ∈ d, ∀ s, IsSibling rk s →
      Multihash.IsMultihash (keyFromDsKey (Ds.newKey s)) →
        rawKey (keyFromDsKey (Ds.newKey s)) ∈ d := by
  constructor
  · intro h rk hrk s hs hmh
    obtain ⟨order, horder⟩ := d.exists_iterates
    rw [← has_eq_true_iff env]
    apply h _ ((mapStore_allKeysChan_iff env d _).mpr ⟨order, horder, rfl⟩)
    rw [mem_allKeys_iff horder]
    exact ⟨rk, hrk, by rw [emitKey_of_string_eq hs.2.1 hs.1, if_pos hmh]⟩
  · intro h ks hks k hk
    obtain ⟨order, horder, hks⟩ := (mapStore_allKeysChan_iff env d _).mp hks
    cases hks
    obtain ⟨rk, hrk, hemit⟩ := (mem_allKeys_iff horder).mp hk
    rw [has_eq_true_iff]
    have hanc : blockPrefix.isAncestorOf rk = true := by
      by_contra hanc
      simp [emitKey, hanc] at hemit
    obtain ⟨s, hs, hstring⟩ := isAncestorOf_iff.mp hanc
    rw [emitKey_of_string_eq hs hstring] at hemit
    split at hemit
    · rename_i hmh
      cases hemit
      by_cases hhead : s.head? = some slash
      · obtain ⟨t, rfl⟩ : ∃ t, s = slash :: t := by
          cases s with
          | nil => exact absurd rfl hs
          | cons c t => exact ⟨t, by simpa using hhead⟩
        rwa [← eq_rawKey_of_string_eq hstring]
      · exact h rk hrk s ⟨hstring, hs, hhead⟩ hmh
    · cases hemit

/-- The multihash of one byte of digest under an application code. -/
def shortKey : Key := [0x01, 0x01, 0x61]

/-- The contents of a datastore with one entry beside the namespace. -/
def siblingContents : Ds.KeyMap :=
  Finmap.singleton (Ds.newKey (blocksName ++ shortKey)) (.bytes [])

/-- The entry beside the namespace is listed, and `Has` does not find it. -/
theorem not_allKeysSound_sibling : ¬ AllKeysSound ⟨id, false⟩ siblingContents := by
  intro h
  have hkeys : (mapStore ⟨id, false⟩).allKeysChan siblingContents (.ok [shortKey]) :=
    (mapStore_allKeysChan_iff _ _ _).mpr
      ⟨[(Ds.newKey (blocksName ++ shortKey), .bytes [])], rfl, by decide⟩
  have hhas := (has_eq_true_iff _ _ _).mp (h _ hkeys shortKey (List.mem_singleton_self _))
  exact absurd hhas (by decide)

end GoBlocks
