import GoBlocks.Blockstore.Basic

/-!
# The blockstore over a map datastore

Over an in-memory map every call of the blockstore is a lookup or an update at
one raw key: the child of the block prefix that the cleaned block key names. The
equations here are the only place where the calls are unfolded.
-/

namespace GoBlocks

open GoBlocks.Path

/-- The raw datastore key under which a block key is looked up. -/
def rawKey (k : Key) : Ds.Key := blockPrefix.child k.dsKey

/-- The raw keys of two block keys agree exactly if the keys name the same path. -/
theorem rawKey_eq_iff {k k' : Key} : rawKey k = rawKey k' ↔ k.Equiv k' := by
  rw [Key.equiv_iff]
  exact blockPrefix.child_injective.eq_iff

/-- `NewBlockstore` over a `MapDatastore`. -/
def mapStore (env : HashEnv) : Blockstore Ds.KeyMap := Blockstore.new env Ds.mapDatastore

namespace mapStore

variable (env : HashEnv) (d : Ds.KeyMap)

/-- `Put` stores the data unless the raw key is present, and never fails. -/
theorem put_eq (b : Block) : (mapStore env).put b d =
    (.ok (), if (d.lookup (rawKey b.key)).isSome then d
      else d.insert (rawKey b.key) (.bytes b.data)) := by
  change Blockstore.dsPut (Ds.wrap Ds.mapDatastore blockPrefix) b d = _
  have hhas : (Ds.wrap Ds.mapDatastore blockPrefix).has b.key.dsKey d =
      (.ok (d.lookup (rawKey b.key)).isSome, d) := rfl
  have hput : (Ds.wrap Ds.mapDatastore blockPrefix).put b.key.dsKey (.bytes b.data) d =
      (.ok (), d.insert (rawKey b.key) (.bytes b.data)) := rfl
  unfold Blockstore.dsPut
  rw [hhas]
  cases hfound : (d.lookup (rawKey b.key)).isSome with
  | true => rfl
  | false => simpa using hput

/-- `Has` reports whether the raw key is present. -/
theorem has_eq (k : Key) :
    (mapStore env).has k d = (.ok (d.lookup (rawKey k)).isSome, d) := rfl

/-- `DeleteBlock` erases the raw key or reports that it is absent. -/
theorem deleteBlock_eq (k : Key) : (mapStore env).deleteBlock k d =
    if (d.lookup (rawKey k)).isSome then (.ok (), d.erase (rawKey k))
    else (.error .dsNotFound, d) := rfl

/-- `Get` labels the bytes under the raw key with the requested key. -/
theorem get_eq (k : Key) : (mapStore env).get k d =
    (match d.lookup (rawKey k) with
      | none => .error .notFound
      | some (.bytes data) => newBlockWithHash env data k
      | some (.other _) => .error .valueTypeMismatch, d) := by
  change Blockstore.dsGet env (Ds.wrap Ds.mapDatastore blockPrefix) k d = _
  have hget : (Ds.wrap Ds.mapDatastore blockPrefix).get k.dsKey d =
      Ds.mapDatastore.get (rawKey k) d := rfl
  rw [Blockstore.dsGet, hget]
  simp only [Ds.mapDatastore]
  cases d.lookup (rawKey k) with
  | none => rfl
  | some v => cases v <;> rfl

/-- A block that `Get` returns carries the requested key. -/
theorem key_of_get {d : Ds.KeyMap} {k : Key} {b : Block}
    (h : ((mapStore env).get k d).1 = .ok b) : b.key = k := by
  rw [get_eq] at h
  simp only at h
  split at h
  · cases h
  · unfold newBlockWithHash at h
    split at h
    · cases h
    · cases h
      rfl
  · cases h

/-- `GetChan` delivers the blocks that `Get` finds, in the order of the keys. -/
theorem getChan_eq (ks : List Key) : (mapStore env).getChan ks d =
    (ks.filterMap fun k => ((mapStore env).get k d).1.toOption, d) := by
  change Blockstore.dsGetChan env (Ds.wrap Ds.mapDatastore blockPrefix) ks d = _
  induction ks with
  | nil => rfl
  | cons k ks ih =>
    have hget : Blockstore.dsGet env (Ds.wrap Ds.mapDatastore blockPrefix) k d =
        (((mapStore env).get k d).1, d) := by
      change (mapStore env).get k d = _
      rw [get_eq]
    rw [Blockstore.dsGetChan, hget]
    cases hr : ((mapStore env).get k d).1 with
    | error e => simp [ih, hr, Except.toOption]
    | ok b => simp [ih, hr, Except.toOption]

/-- An update touches no raw key but that of its own block key. -/
theorem lookup_update_of_ne {u : Blockstore.Update} {rk : Ds.Key} (hrk : rk ≠ rawKey u.key) :
    ((mapStore env).update d u).lookup rk = d.lookup rk := by
  cases u with
  | put b =>
    simp only [Blockstore.update, put_eq]
    split
    · rfl
    · exact Finmap.lookup_insert_of_ne d hrk
  | deleteBlock k =>
    simp only [Blockstore.update, deleteBlock_eq]
    split
    · exact Finmap.lookup_erase_ne hrk
    · rfl

/-- A put keeps the value that is present and stores the data otherwise. -/
theorem lookup_update_put (b : Block) :
    ((mapStore env).update d (.put b)).lookup (rawKey b.key) =
      some ((d.lookup (rawKey b.key)).getD (.bytes b.data)) := by
  simp only [Blockstore.update, put_eq]
  cases hfound : d.lookup (rawKey b.key) with
  | none => simp
  | some v => simpa using hfound

/-- A deletion leaves nothing under the raw key. -/
theorem lookup_update_deleteBlock (k : Key) :
    ((mapStore env).update d (.deleteBlock k)).lookup (rawKey k) = none := by
  simp only [Blockstore.update, deleteBlock_eq]
  cases hfound : d.lookup (rawKey k) with
  | none => simpa using hfound
  | some v => simp

end mapStore

end GoBlocks
