import GoBlocks.Datastore.Basic
import GoBlocks.Multihash
import GoBlocks.Lib.Transition

/-!
# The blockstore

The blockstore is a thin wrapper over a datastore, giving a clean interface for
getting and putting block objects. It converts block keys to datastore keys,
puts them below the prefix `/blocks` and maps the errors. The interface is a
structure over the state of the store, so that the write cache can wrap any
implementation, and its calls with their replies form a transition system.
-/

namespace GoBlocks

open GoBlocks.Path

/-- The `Blockstore` interface over a state type. -/
structure Blockstore (σ : Type) where
  /-- `DeleteBlock`. -/
  deleteBlock : Key → σ → Except Err Unit × σ
  /-- `Has`. -/
  has : Key → σ → Except Err Bool × σ
  /-- `Get`. -/
  get : Key → σ → Except Err Block × σ
  /-- `Put`. -/
  put : Block → σ → Except Err Unit × σ
  /-- `GetChan`, with the blocks that draining the channel delivers. -/
  getChan : List Key → σ → List Block × σ
  /-- `AllKeysChan` may deliver this list of keys to a reader that drains it
  under a context that is never cancelled. -/
  allKeysChan : σ → Except Err (List Key) → Prop

/-- The text `blocks` of the block prefix. -/
def blocksName : Bytes := [0x62, 0x6c, 0x6f, 0x63, 0x6b, 0x73]

/-- `BlockPrefix` namespaces blockstore datastores. -/
def blockPrefix : Ds.Key := Ds.newKey blocksName

/-- The keys that the goroutine of `AllKeysChan` passes on: the stream ends at
the first error, and keys that are not multihashes are dropped. -/
def drainKeys : List Ds.Result → List Key
  | [] => []
  | r :: rs =>
    if r.error.isSome then []
    else
      let k := keyFromDsKey (Ds.newKey r.entry.key)
      if Multihash.IsMultihash k ∧ k ≠ [] then k :: drainKeys rs else drainKeys rs

namespace Blockstore

variable {σ : Type}

section New

variable (env : HashEnv) (dd : Ds.Datastore σ)

/-- `blockstore.Get`. -/
def dsGet (k : Key) (s : σ) : Except Err Block × σ :=
  match dd.get k.dsKey s with
  | (.error .dsNotFound, s') => (.error .notFound, s')
  | (.error e, s') => (.error e, s')
  | (.ok (.bytes data), s') => (newBlockWithHash env data k, s')
  | (.ok (.other _), s') => (.error .valueTypeMismatch, s')

/-- `blockstore.GetChan`: the keys that cannot be read are skipped. -/
def dsGetChan : List Key → σ → List Block × σ
  | [], s => ([], s)
  | k :: ks, s =>
    match dsGet env dd k s with
    | (.error _, s') => dsGetChan ks s'
    | (.ok b, s') => ((b :: (dsGetChan ks s').1), (dsGetChan ks s').2)

/-- `blockstore.Put`: `Has` is cheaper than `Put`, so see if the block is
already stored. -/
def dsPut (b : Block) (s : σ) : Except Err Unit × σ :=
  match dd.has b.key.dsKey s with
  | (.ok true, s') => (.ok (), s')
  | (_, s') => dd.put b.key.dsKey (.bytes b.data) s'

end New

/-- `NewBlockstore` wraps the datastore with the block prefix. -/
def new (env : HashEnv) (d : Ds.Datastore σ) : Blockstore σ :=
  let dd := Ds.wrap d blockPrefix
  { deleteBlock := fun k => dd.delete k.dsKey
    has := fun k => dd.has k.dsKey
    get := dsGet env dd
    put := dsPut dd
    getChan := dsGetChan env dd
    allKeysChan := fun s r => ∃ r₀,
      dd.query (Ds.keysQuery blockPrefix.string) s r₀ ∧ r = r₀.map drainKeys }

/-- The calls of the interface. -/
inductive Call where
  | put (b : Block)
  | has (k : Key)
  | get (k : Key)
  | deleteBlock (k : Key)
  | getChan (ks : List Key)
  | allKeysChan
  deriving DecidableEq

/-- The results of the calls. -/
inductive Reply where
  | put (r : Except Err Unit)
  | has (r : Except Err Bool)
  | get (r : Except Err Block)
  | deleteBlock (r : Except Err Unit)
  | getChan (bs : List Block)
  | allKeysChan (r : Except Err (List Key))
  deriving DecidableEq

/-- A call with its reply takes the store from one state to another. -/
def Step (bs : Blockstore σ) (s : σ) : Call × Reply → σ → Prop
  | (.put b, .put r), s' => bs.put b s = (r, s')
  | (.has k, .has r), s' => bs.has k s = (r, s')
  | (.get k, .get r), s' => bs.get k s = (r, s')
  | (.deleteBlock k, .deleteBlock r), s' => bs.deleteBlock k s = (r, s')
  | (.getChan ks, .getChan out), s' => bs.getChan ks s = (out, s')
  | (.allKeysChan, .allKeysChan r), s' => bs.allKeysChan s r ∧ s' = s
  | _, _ => False

/-- A call that may change the contents. -/
inductive Update where
  | put (b : Block)
  | deleteBlock (k : Key)
  deriving DecidableEq

/-- The key an update stores or deletes. -/
def Update.key : Update → Key
  | .put b => b.key
  | .deleteBlock k => k

/-- `Put` is about the key of the block. -/
@[simp] theorem Update.key_put (b : Block) : (Update.put b).key = b.key := rfl

/-- `DeleteBlock` is about the key that it is given. -/
@[simp] theorem Update.key_deleteBlock (k : Key) : (Update.deleteBlock k).key = k := rfl

/-- The state after an update, whatever it replied. -/
def update (bs : Blockstore σ) (s : σ) : Update → σ
  | .put b => (bs.put b s).2
  | .deleteBlock k => (bs.deleteBlock k s).2

/-- The state after a sequence of updates. -/
def updates (bs : Blockstore σ) (us : List Update) (s : σ) : σ := us.foldl bs.update s

/-- An invariant kept by every update of a sequence is kept by the sequence. -/
theorem updates_invariant (bs : Blockstore σ) (I : σ → Prop) {us : List Update}
    (hstep : ∀ u ∈ us, ∀ s, I s → I (bs.update s u)) {s : σ} (hs : I s) : I (bs.updates us s) := by
  induction us generalizing s with
  | nil => exact hs
  | cons u us ih =>
    exact ih (fun u' hu' => hstep u' (List.mem_cons_of_mem _ hu'))
      (hstep u (List.mem_cons_self ..) s hs)

/-- Sequential use of a blockstore: the labels are calls with their replies. -/
def lts (bs : Blockstore σ) : LTS σ (Call × Reply) where
  step s l s' := bs.Step s l s'

end Blockstore

end GoBlocks
