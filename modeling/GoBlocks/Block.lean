import GoBlocks.Key

/-!
# Blocks

A block is a byte string together with the multihash that names it. The hash
function is a parameter, and `Debug` tells whether blocks built with a known
hash are hashed again.
-/

namespace GoBlocks

/-- The error values the packages tell apart. -/
inductive Err where
  /-- `ds.ErrNotFound`. -/
  | dsNotFound
  /-- `blockstore.ErrNotFound`. -/
  | notFound
  /-- `blockstore.ValueTypeMismatch`. -/
  | valueTypeMismatch
  /-- `Data did not match given hash!`. -/
  | hashMismatch
  /-- `blockservice.ErrNotFound`. -/
  | blockserviceNotFound
  /-- `blockservice is closed`. -/
  | blockserviceClosed
  /-- Any other error of an underlying store. -/
  | failure
  deriving DecidableEq

/-- The package variables of `hash`: the hash function of `hash.Hash` and the
flag `hash.Debug`. -/
structure HashEnv where
  /-- `hash.Hash`. -/
  hash : Bytes → Bytes
  /-- `hash.Debug` governs whether known hashes are checked. -/
  debug : Bool

/-- `Block` is a singular block of data. -/
structure Block where
  /-- The multihash that names the block. -/
  multihash : Bytes
  /-- The contents. -/
  data : Bytes
  deriving DecidableEq

/-- `NewBlock` creates a block from opaque data. It hashes the data. -/
def newBlock (env : HashEnv) (data : Bytes) : Block := ⟨env.hash data, data⟩

/-- `NewBlockWithHash` creates a block whose hash is already known. The hash is
checked in debug mode only. -/
def newBlockWithHash (env : HashEnv) (data h : Bytes) : Except Err Block :=
  if env.debug && env.hash data != h then .error .hashMismatch else .ok ⟨h, data⟩

/-- `Block.Key` returns the multihash of the block as a key. -/
def Block.key (b : Block) : Key := b.multihash

/-- Outside debug mode every hash is accepted. -/
@[simp] theorem newBlockWithHash_of_not_debug (H : Bytes → Bytes) (data h : Bytes) :
    newBlockWithHash ⟨H, false⟩ data h = .ok ⟨h, data⟩ := by
  simp [newBlockWithHash]

/-- The number of blocks with the key. -/
def keyCount (k : Key) (bs : List Block) : ℕ := (bs.map Block.key).count k

/-- No block has the key. -/
@[simp] theorem keyCount_nil (k : Key) : keyCount k [] = 0 := rfl

/-- The first block counts if it has the key. -/
@[simp] theorem keyCount_cons (k : Key) (b : Block) (bs : List Block) :
    keyCount k (b :: bs) = keyCount k bs + if b.key = k then 1 else 0 := by
  simp [keyCount, List.count_cons]

/-- The blocks with the key in two lists add up. -/
@[simp] theorem keyCount_append (k : Key) (bs bs' : List Block) :
    keyCount k (bs ++ bs') = keyCount k bs + keyCount k bs' := by
  simp [keyCount]

end GoBlocks
