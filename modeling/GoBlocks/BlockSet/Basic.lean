import GoBlocks.Bloom.Filter
import GoBlocks.Datastore.Basic

/-!
# Block sets

A block set is given by the calls of its interface. The simple set is a Go map used
as a set of block keys. The database-backed set keeps a datastore next to another
block set: adding writes the datastore first, and removing updates the other set
first.
-/

namespace GoBlocks

/-- The `BlockSet` interface over a state type: a mutable set of keyed blocks. -/
structure BlockSet (σ : Type) where
  /-- `AddBlock`. -/
  addBlock : Key → σ → Except Err Unit × σ
  /-- `RemoveBlock`. -/
  removeBlock : Key → σ → Except Err Unit × σ
  /-- `HasKey`. -/
  hasKey : Key → σ → Bool
  /-- `GetBloomFilter` on a heap of filters may return the filter with this number on
  this heap. `none` is a panic. -/
  getBloomFilter : σ → Bloom.Heap → Option (Bloom.Heap × ℕ) → Prop
  /-- `GetKeys` may return this list. -/
  getKeys : σ → List Key → Prop

namespace BlockSet

/-- A call that may change the set. -/
inductive Update where
  | addBlock (k : Key)
  | removeBlock (k : Key)
  deriving DecidableEq

variable {σ τ : Type}

/-- The state after an update, whatever it returned. -/
def update (bset : BlockSet σ) (s : σ) : Update → σ
  | .addBlock k => (bset.addBlock k s).2
  | .removeBlock k => (bset.removeBlock k s).2

/-- The state after a sequence of updates. -/
def updates (bset : BlockSet σ) (us : List Update) (s : σ) : σ := us.foldl bset.update s

/-- The last update of a sequence acts on the state after the others. -/
@[simp] theorem updates_snoc (bset : BlockSet σ) (us : List Update) (u : Update) (s : σ) :
    bset.updates (us ++ [u]) s = bset.update (bset.updates us s) u := List.foldl_concat ..

/-! ## The simple set -/

/-- The loop of `GetBloomFilter`: adding the keys to a filter in this order. -/
def addKeys (f : ℕ) : List Key → Bloom.Heap → Option Bloom.Heap
  | [], h => some h
  | k :: ks, h => (h.add f k).bind fun r => addKeys f ks r.1

/-- `simpleBlockSet`. Ranging over the map visits the keys in any order. -/
def simple : BlockSet (Finset Key) where
  addBlock k s := (.ok (), insert k s)
  removeBlock k s := (.ok (), s.erase k)
  hasKey k s := decide (k ∈ s)
  getBloomFilter s h r := ∃ order : List Key, (order : Multiset Key) = s.val ∧
    r = h.basicFilter.bind fun f => (addKeys h.filters.length order f.1).map (·, h.filters.length)
  getKeys s ks := (ks : Multiset Key) = s.val

/-- `NewSimpleBlockSet`. -/
def newSimpleBlockSet : Finset Key := ∅

/-- `SimpleSetFromKeys`. -/
def simpleSetFromKeys (keys : List Key) : Finset Key := keys.foldl (fun s k => insert k s) ∅

/-! ## The database-backed set -/

/-- `datastoreBlockSet.AddBlock`. An error of the wrapped set is dropped. -/
def dbAddBlock (dstore : Ds.Datastore σ) (bset : BlockSet τ) (k : Key) (s : σ × τ) :
    Except Err Unit × (σ × τ) :=
  match dstore.put k.dsKey (.bytes []) s.1 with
  | (.error err, d) => (.error err, (d, s.2))
  | (.ok (), d) => (.ok (), (d, (bset.addBlock k s.2).2))

/-- `datastoreBlockSet.RemoveBlock`. An error of the wrapped set is dropped. -/
def dbRemoveBlock (dstore : Ds.Datastore σ) (bset : BlockSet τ) (k : Key) (s : σ × τ) :
    Except Err Unit × (σ × τ) :=
  let b := (bset.removeBlock k s.2).2
  if bset.hasKey k b then (.ok (), (s.1, b))
  else
    let r := dstore.delete k.dsKey s.1
    (r.1, (r.2, b))

/-- `NewDBWrapperSet` returns a block set wrapping a given datastore. -/
def newDBWrapperSet (dstore : Ds.Datastore σ) (bset : BlockSet τ) : BlockSet (σ × τ) where
  addBlock := dbAddBlock dstore bset
  removeBlock := dbRemoveBlock dstore bset
  hasKey k s := bset.hasKey k s.2
  getBloomFilter s := bset.getBloomFilter s.2
  getKeys s := bset.getKeys s.2

/-- The database-backed set over a simple set. -/
def dbSet (d : Ds.Datastore σ) : BlockSet (σ × Finset Key) := newDBWrapperSet d simple

/-- The members are those of the simple set. -/
theorem dbSet_hasKey {d : Ds.Datastore σ} {s : σ × Finset Key} {k : Key} :
    (dbSet d).hasKey k s = true ↔ k ∈ s.2 := decide_eq_true_iff

/-- `RemoveBlock` always asks the datastore: the simple set has given up the key. -/
theorem dbSet_removeBlock {d : Ds.Datastore σ} (k : Key) (s : σ × Finset Key) :
    (dbSet d).removeBlock k s =
      ((d.delete k.dsKey s.1).1, (d.delete k.dsKey s.1).2, s.2.erase k) := by
  have hgone : simple.hasKey k (s.2.erase k) = false := by simp [simple]
  change (if simple.hasKey k (s.2.erase k) then _ else _) = _
  rw [hgone, if_neg Bool.false_ne_true]
  rfl

end BlockSet

end GoBlocks
