import GoBlocks.BlockSet.Basic

/-!
# Agreement of the two levels of the database-backed set

The database-backed set is put over an empty map datastore and an empty simple set.
The datastore is indexed by cleaned keys and the set by raw ones, so two members may
share one datastore key, and removing one of them deletes the entry of both. The two
levels agree along a sequence of calls exactly if no key is removed while another
member shares its datastore key.
-/

namespace GoBlocks.BlockSet

/-- The database-backed set over a map datastore and a simple set. -/
def mapSet : BlockSet (Ds.KeyMap × Finset Key) := newDBWrapperSet Ds.mapDatastore simple

/-- An empty datastore and an empty set. -/
def mapSetInit : Ds.KeyMap × Finset Key := (∅, newSimpleBlockSet)

/-- The keys in the datastore are the datastore keys of the members. -/
def Agrees (s : Ds.KeyMap × Finset Key) : Prop :=
  ∀ dsk : Ds.Key, dsk ∈ s.1 ↔ ∃ k, mapSet.hasKey k s ∧ k.dsKey = dsk

/-- No key is removed while another member shares its datastore key. -/
def RemovesAlone (us : List Update) : Prop :=
  ∀ pre k, pre ++ [.removeBlock k] <+: us →
    ∀ k', mapSet.hasKey k' (mapSet.updates pre mapSetInit) → k'.dsKey = k.dsKey → k' = k

variable (s : Ds.KeyMap × Finset Key) (k k' : Key)

/-- The members are those of the simple set. -/
theorem mapSet_hasKey : mapSet.hasKey k s = true ↔ k ∈ s.2 :=
  dbSet_hasKey (d := Ds.mapDatastore)

/-- `AddBlock` inserts on both levels. -/
theorem mapSet_addBlock : mapSet.update s (.addBlock k) =
    (s.1.insert k.dsKey (.bytes []), insert k s.2) := rfl

/-- `RemoveBlock` erases on both levels. -/
theorem mapSet_removeBlock : mapSet.update s (.removeBlock k) =
    (s.1.erase k.dsKey, s.2.erase k) := by
  have hdelete : (Ds.mapDatastore.delete k.dsKey s.1).2 = s.1.erase k.dsKey := by
    by_cases hmem : k.dsKey ∈ s.1
    · simp [Ds.mapDatastore, Finmap.lookup_isSome, hmem]
    · have herase : s.1.erase k.dsKey = s.1 := by
        apply Finmap.ext_lookup
        intro dsk
        by_cases hdsk : dsk = k.dsKey
        · rw [hdsk, Finmap.lookup_erase, Finmap.lookup_eq_none.mpr hmem]
        · rw [Finmap.lookup_erase_ne hdsk]
      simp [Ds.mapDatastore, Finmap.lookup_isSome, hmem, herase]
  have hremove := dbSet_removeBlock (d := Ds.mapDatastore) k s
  rw [hdelete] at hremove
  exact congrArg Prod.snd hremove

variable {s k}

/-- Agreement in terms of the simple set. -/
theorem agrees_iff : Agrees s ↔ ∀ dsk, dsk ∈ s.1 ↔ ∃ k ∈ s.2, k.dsKey = dsk := by
  simp only [Agrees, mapSet_hasKey]

/-- The two levels agree at the start. -/
theorem agrees_init : Agrees mapSetInit := by
  rw [agrees_iff]
  intro dsk
  simp [mapSetInit, newSimpleBlockSet, Finmap.notMem_empty]

/-- `AddBlock` keeps the agreement. -/
theorem Agrees.addBlock (h : Agrees s) : Agrees (mapSet.update s (.addBlock k)) := by
  rw [agrees_iff] at h ⊢
  intro dsk
  rw [mapSet_addBlock, Finmap.mem_insert, h dsk]
  simp only [Finset.mem_insert, exists_eq_or_imp, @eq_comm _ dsk]

/-- `RemoveBlock` keeps the agreement if no other member shares the datastore key. -/
theorem Agrees.removeBlock (h : Agrees s) (halone : ∀ k' ∈ s.2, k'.dsKey = k.dsKey → k' = k) :
    Agrees (mapSet.update s (.removeBlock k)) := by
  rw [agrees_iff] at h ⊢
  intro dsk
  rw [mapSet_removeBlock, Finmap.mem_erase, h dsk]
  constructor
  · rintro ⟨hne, k', hk', rfl⟩
    exact ⟨k', Finset.mem_erase.mpr ⟨fun heq => hne (congrArg Key.dsKey heq), hk'⟩, rfl⟩
  · rintro ⟨k', hk', rfl⟩
    obtain ⟨hne, hk'⟩ := Finset.mem_erase.mp hk'
    exact ⟨fun heq => hne (halone k' hk' heq), k', hk', rfl⟩

/-- If the levels agree after a removal, no other member shared the datastore key. -/
theorem Agrees.alone_of_removeBlock (h : Agrees (mapSet.update s (.removeBlock k)))
    (hk' : k' ∈ s.2) (heq : k'.dsKey = k.dsKey) : k' = k := by
  by_contra hne
  rw [agrees_iff, mapSet_removeBlock] at h
  have hmem := (h k'.dsKey).mpr ⟨k', Finset.mem_erase.mpr ⟨hne, hk'⟩, rfl⟩
  exact (Finmap.mem_erase.mp hmem).1 heq

/-- The two levels agree after every call of a sequence exactly if no key is removed
while another member shares its datastore key. -/
theorem agrees_iff_removesAlone (us : List Update) :
    (∀ pre, pre <+: us → Agrees (mapSet.updates pre mapSetInit)) ↔ RemovesAlone us := by
  constructor
  · intro h pre k hpre k' hk' heq
    have hafter := h _ hpre
    rw [updates_snoc] at hafter
    exact hafter.alone_of_removeBlock k' ((mapSet_hasKey _ k').mp hk') heq
  · intro h pre hpre
    refine prefix_induction (fun pre => Agrees (mapSet.updates pre mapSetInit)) agrees_init ?_ hpre
    intro hist u hhist hagrees
    rw [updates_snoc]
    cases u with
    | addBlock k => exact hagrees.addBlock
    | removeBlock k =>
      refine hagrees.removeBlock fun k' hk' heq => ?_
      exact h hist k hhist k' ((mapSet_hasKey _ k').mpr hk') heq

/-- The keys `a` and `/a` share a datastore key. After adding both and removing the
first, the second is a member without an entry in the datastore. -/
theorem not_agrees_shared_dsKey :
    ¬ Agrees (mapSet.updates [.addBlock [97], .addBlock [47, 97], .removeBlock [97]]
      mapSetInit) := by
  intro h
  have hshared : Key.dsKey [47, 97] = Key.dsKey [97] := by decide
  have hsteps : [Update.addBlock [97], .addBlock [47, 97], .removeBlock [97]] =
      [.addBlock [97], .addBlock [47, 97]] ++ [.removeBlock [97]] := rfl
  rw [hsteps, updates_snoc] at h
  have hmem : ([47, 97] : Key) ∈
      (mapSet.updates [.addBlock [97], .addBlock [47, 97]] mapSetInit).2 :=
    Finset.mem_insert_self _ _
  have heq := h.alone_of_removeBlock [47, 97] hmem hshared
  exact absurd heq (by decide)

end GoBlocks.BlockSet
