import GoBlocks.BlockSet.Basic
import GoBlocks.Flaky

/-!
# Failed updates of the database-backed set

The datastore below the database-backed set may fail: a failing `Put` or `Delete`
returns an error and leaves the contents unchanged. `AddBlock` asks the datastore first,
so its failure changes nothing. `RemoveBlock` takes the key out of the other set before
it asks the datastore, and does not put it back. Failed updates change nothing along a
sequence of calls exactly if no removal of a member fails.
-/

namespace GoBlocks

/-- Failing calls of the datastore leave its contents unchanged. -/
structure Ds.Datastore.FailsCleanly {σ C : Type} (d : Ds.Datastore σ) (contents : σ → C) :
    Prop where
  put : ∀ k v s err, (d.put k v s).1 = .error err → contents (d.put k v s).2 = contents s
  delete : ∀ k s err, (d.delete k s).1 = .error err → contents (d.delete k s).2 = contents s

/-- The datastore whose `Put` and `Delete` fail at given calls. -/
def Ds.flaky {σ : Type} (d : Ds.Datastore σ) : Ds.Datastore (Flaky σ) where
  put k v := Flaky.attempt (d.put k v)
  get k := Flaky.lift (d.get k)
  has k := Flaky.lift (d.has k)
  delete k := Flaky.attempt (d.delete k)
  query q s r := d.query q s.store r

/-- A map datastore that fails at given calls fails cleanly. -/
theorem Ds.failsCleanly_flaky : (Ds.flaky Ds.mapDatastore).FailsCleanly Flaky.store where
  put k v s err h := Flaky.store_attempt (fun _ _ hput => by cases hput) h
  delete k s err h := by
    refine Flaky.store_attempt (fun u e hdelete => ?_) h
    simp only [Ds.mapDatastore] at hdelete ⊢
    split at hdelete
    next => cases hdelete
    next hmiss => rw [if_neg hmiss]

namespace BlockSet

variable {σ C : Type}

/-- What an update returns. -/
def result (bset : BlockSet σ) (s : σ) : Update → Except Err Unit
  | .addBlock k => (bset.addBlock k s).1
  | .removeBlock k => (bset.removeBlock k s).1

/-- The update returns an error. -/
def Fails (bset : BlockSet σ) (s : σ) (u : Update) : Prop := ∃ err, bset.result s u = .error err

/-- The contents of the datastore and all answers of the set are the same. -/
structure Unchanged (d : Ds.Datastore σ) (contents : σ → C) (s t : σ × Finset Key) : Prop where
  contents_eq : contents t.1 = contents s.1
  hasKey_eq : ∀ k, (dbSet d).hasKey k t = (dbSet d).hasKey k s
  getKeys_iff : ∀ ks, (dbSet d).getKeys t ks ↔ (dbSet d).getKeys s ks
  getBloomFilter_iff : ∀ h r, (dbSet d).getBloomFilter t h r ↔ (dbSet d).getBloomFilter s h r

/-- Every failing update of a sequence of calls changes nothing. -/
def FailuresChangeNothing (d : Ds.Datastore σ) (contents : σ → C) (s : σ × Finset Key)
    (us : List Update) : Prop :=
  ∀ pre u, pre ++ [u] <+: us → (dbSet d).Fails ((dbSet d).updates pre s) u →
    Unchanged d contents ((dbSet d).updates pre s) ((dbSet d).updates (pre ++ [u]) s)

/-- `RemoveBlock` of a member is called only when the datastore can delete its key. -/
def RemovesMembers (d : Ds.Datastore σ) (s : σ × Finset Key) (us : List Update) : Prop :=
  ∀ pre k, pre ++ [.removeBlock k] <+: us →
    (dbSet d).hasKey k ((dbSet d).updates pre s) = true →
      ∀ err, (d.delete k.dsKey ((dbSet d).updates pre s).1).1 ≠ .error err

variable {d : Ds.Datastore σ} {contents : σ → C} {s t : σ × Finset Key} {k : Key}

/-- Nothing is changed exactly if the contents and the members are the same. -/
theorem unchanged_iff : Unchanged d contents s t ↔ contents t.1 = contents s.1 ∧ t.2 = s.2 := by
  constructor
  · intro h
    refine ⟨h.contents_eq, ?_⟩
    ext k
    simpa [dbSet, newDBWrapperSet, simple] using h.hasKey_eq k
  · rintro ⟨hcontents, hmembers⟩
    refine ⟨hcontents, fun k => ?_, fun ks => ?_, fun h r => ?_⟩
    all_goals simp only [dbSet, newDBWrapperSet, hmembers]

/-- `RemoveBlock` fails exactly if the datastore fails to delete the key. -/
theorem fails_removeBlock_iff :
    (dbSet d).Fails s (.removeBlock k) ↔ ∃ err, (d.delete k.dsKey s.1).1 = .error err := by
  unfold Fails result
  simp only [dbSet_removeBlock]

/-- A failing `AddBlock` changes nothing. -/
theorem unchanged_of_addBlock_fails (hd : d.FailsCleanly contents)
    (h : (dbSet d).Fails s (.addBlock k)) :
    Unchanged d contents s ((dbSet d).update s (.addBlock k)) := by
  obtain ⟨err, h⟩ := h
  rw [unchanged_iff]
  have h : (dbAddBlock d simple k s).1 = .error err := h
  change contents (dbAddBlock d simple k s).2.1 = contents s.1 ∧ (dbAddBlock d simple k s).2.2 = s.2
  have hclean := hd.put k.dsKey (.bytes []) s.1
  unfold dbAddBlock at h ⊢
  split
  next err' d' hput =>
    rw [hput] at hclean
    exact ⟨hclean err' rfl, rfl⟩
  next d' hput =>
    rw [hput] at h
    cases h

/-- A failing `RemoveBlock` changes nothing exactly if the key is no member. -/
theorem unchanged_removeBlock_iff (hd : d.FailsCleanly contents)
    (h : (dbSet d).Fails s (.removeBlock k)) :
    Unchanged d contents s ((dbSet d).update s (.removeBlock k)) ↔ k ∉ s.2 := by
  obtain ⟨err, h⟩ := fails_removeBlock_iff.mp h
  have hupdate : (dbSet d).update s (.removeBlock k) = ((dbSet d).removeBlock k s).2 := rfl
  rw [unchanged_iff, hupdate, dbSet_removeBlock]
  have hclean := hd.delete k.dsKey s.1 err h
  constructor
  · exact fun hsame => Finset.erase_eq_self.mp hsame.2
  · exact fun hk => ⟨hclean, Finset.erase_eq_self.mpr hk⟩

/-- **Failed updates of the database-backed set.** For a datastore that fails cleanly,
from any state and along any sequence of calls, every failing update changes nothing
exactly if members are removed only when the datastore can delete their keys. -/
theorem failuresChangeNothing_iff (hd : d.FailsCleanly contents) (s : σ × Finset Key)
    (us : List Update) : FailuresChangeNothing d contents s us ↔ RemovesMembers d s us := by
  constructor
  · intro h pre k hpre hmember err hdelete
    have hfails := fails_removeBlock_iff.mpr ⟨err, hdelete⟩
    have hsame := h pre (.removeBlock k) hpre hfails
    rw [updates_snoc, unchanged_removeBlock_iff hd hfails] at hsame
    exact hsame (dbSet_hasKey.mp hmember)
  · intro h pre u hpre hfails
    rw [updates_snoc]
    cases u with
    | addBlock k => exact unchanged_of_addBlock_fails hd hfails
    | removeBlock k =>
      rw [unchanged_removeBlock_iff hd hfails]
      obtain ⟨err, hdelete⟩ := fails_removeBlock_iff.mp hfails
      exact fun hmember => h pre k hpre (dbSet_hasKey.mpr hmember) err hdelete

/-- A failing `AddBlock` and a second one that succeeds. -/
theorem failuresChangeNothing_addBlock_twice :
    FailuresChangeNothing (Ds.flaky Ds.mapDatastore) Flaky.store
      (⟨∅, fun n => n = 0⟩, newSimpleBlockSet) [.addBlock [97], .addBlock [97]] := by
  refine (failuresChangeNothing_iff Ds.failsCleanly_flaky _ _).mpr ?_
  intro pre k hpre
  have hmem : Update.removeBlock k ∈ [Update.addBlock [97], .addBlock [97]] :=
    hpre.subset (by simp)
  simp at hmem

/-- A member is removed, and the `Delete` of the datastore fails: the call returns an
error, and the key is a member no more. -/
theorem not_failuresChangeNothing_removeBlock :
    ¬ FailuresChangeNothing (Ds.flaky Ds.mapDatastore) Flaky.store
      (⟨∅, fun n => n = 1⟩, newSimpleBlockSet) [.addBlock [97], .removeBlock [97]] := by
  intro h
  have hunchanged := h [.addBlock [97]] (.removeBlock [97]) List.prefix_rfl ⟨.failure, rfl⟩
  have hsame := hunchanged.hasKey_eq [97]
  exact absurd hsame (by decide)

end BlockSet

end GoBlocks
