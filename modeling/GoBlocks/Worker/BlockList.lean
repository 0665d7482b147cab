import GoBlocks.Block
import GoBlocks.Lib.LinkedList

/-!
# The work queue

`BlockList` is the queue of the background worker: a linked list of blocks and a
map from the keys of the queued blocks to their elements, made at the first push.
A block whose key is queued already is not pushed again. The zero value is an
empty queue.
-/

namespace GoBlocks

namespace BlockList

/-- The data of a queue. -/
structure Raw where
  /-- The queued blocks. -/
  list : LinkedList Block
  /-- The element of each queued key; the map is `nil` until the first push. -/
  uniques : Option (Finmap fun _ : Key => ℕ)

namespace Raw

/-- The map, where a `nil` map has no keys. -/
def index (s : Raw) : Finmap fun _ : Key => ℕ := s.uniques.getD ∅

/-- The common body of the push functions. It makes the map if there is none and
inserts the block with `place` unless its key is queued. -/
def insert (place : LinkedList Block → Block → LinkedList Block) (s : Raw) (b : Block) : Raw :=
  match s.index.lookup b.key with
  | some _ => { s with uniques := some s.index }
  | none => ⟨place s.list b, some (s.index.insert b.key s.list.next)⟩

/-- `PushFront`. -/
def pushFront : Raw → Block → Raw := insert LinkedList.pushFront

/-- `Push`. -/
def push : Raw → Block → Raw := insert LinkedList.pushBack

/-- `Pop`. -/
def pop (s : Raw) : Option Block × Raw :=
  match s.list.front? with
  | none => (none, s)
  | some e => (some e.2, ⟨s.list.remove e.1, s.uniques.map (·.erase e.2.key)⟩)

/-- The map points to the queued blocks. -/
def InStep (s : Raw) : Prop := s.list.InStep s.index Block.key

/-- A push keeps list and map in step if its placement does. -/
theorem InStep.insert {s : Raw} (hs : s.InStep) {b : Block}
    {place : LinkedList Block → Block → LinkedList Block}
    (hplace : b.key ∉ s.index →
      (place s.list b).InStep (s.index.insert b.key s.list.next) Block.key) :
    (s.insert place b).InStep := by
  unfold Raw.insert
  cases hl : s.index.lookup b.key with
  | none => exact hplace (Finmap.lookup_eq_none.mp hl)
  | some e => exact hs

/-- `Pop` keeps list and map in step. -/
theorem InStep.pop {s : Raw} (hs : s.InStep) : s.pop.2.InStep := by
  unfold Raw.pop
  cases hf : s.list.front? with
  | none => exact hs
  | some e =>
    have hmem : e ∈ s.list.elems := List.mem_of_head? hf
    have hremove := LinkedList.InStep.remove hs hmem
    cases hu : s.uniques with
    | none =>
      -- A queue that holds a block has been pushed to, so it has its map.
      have hlookup := (hs e.2.key e.1).mpr ⟨e.2, hmem, rfl⟩
      simp [index, hu] at hlookup
    | some u =>
      rw [index, hu] at hremove
      exact hremove

end Raw

end BlockList

/-- The queue with list and map in step. -/
structure BlockList extends BlockList.Raw where
  /-- The map points to the queued blocks. -/
  inStep : toRaw.InStep

namespace BlockList

/-- The zero value. -/
def zero : BlockList := ⟨⟨.empty, none⟩, LinkedList.inStep_empty Block.key⟩

/-- `PushFront` on a queue. -/
def pushFront (q : BlockList) (b : Block) : BlockList :=
  ⟨q.toRaw.pushFront b, q.inStep.insert fun h => LinkedList.InStep.pushFront q.inStep h⟩

/-- `Push` on a queue. -/
def push (q : BlockList) (b : Block) : BlockList :=
  ⟨q.toRaw.push b, q.inStep.insert fun h => LinkedList.InStep.pushBack q.inStep h⟩

/-- `Pop` on a queue. -/
def pop (q : BlockList) : Option Block × BlockList :=
  (q.toRaw.pop.1, ⟨q.toRaw.pop.2, q.inStep.pop⟩)

/-- `Len`. -/
def len (q : BlockList) : ℕ := q.list.len

/-- The queued blocks from front to back. -/
def blocks (q : BlockList) : List Block := q.list.values

/-- The keys of the queued blocks. -/
def keys (q : BlockList) : List Key := q.blocks.map Block.key

/-- No key is queued twice. -/
theorem keys_nodup (q : BlockList) : q.keys.Nodup := LinkedList.InStep.keys_nodup q.inStep

/-- A queued key is in the map. -/
theorem mem_index_iff {q : BlockList} {k : Key} : k ∈ q.index ↔ k ∈ q.keys :=
  LinkedList.InStep.mem_index_iff q.inStep

/-- A new list has no blocks. -/
@[simp] theorem blocks_zero : zero.blocks = [] := rfl

/-- The blocks after a push that places a new block with `place`. -/
theorem values_insert (q : BlockList) (b : Block)
    (place : LinkedList Block → Block → LinkedList Block) :
    (q.toRaw.insert place b).list.values =
      if b.key ∈ q.keys then q.blocks else (place q.list b).values := by
  unfold Raw.insert
  cases hl : q.index.lookup b.key with
  | none => rw [if_neg fun hk => Finmap.lookup_eq_none.mp hl (mem_index_iff.mpr hk)]
  | some e =>
    have hmem : b.key ∈ q.index := Finmap.lookup_isSome.mp (by rw [hl]; rfl)
    rw [if_pos (mem_index_iff.mp hmem)]
    rfl

/-- `Push` appends a block whose key is not queued. -/
theorem blocks_push (q : BlockList) (b : Block) :
    (q.push b).blocks = if b.key ∈ q.keys then q.blocks else q.blocks ++ [b] := by
  have h := q.values_insert b LinkedList.pushBack
  rwa [LinkedList.values_pushBack] at h

/-- `PushFront` prepends a block whose key is not queued. -/
theorem blocks_pushFront (q : BlockList) (b : Block) :
    (q.pushFront b).blocks = if b.key ∈ q.keys then q.blocks else b :: q.blocks := by
  have h := q.values_insert b LinkedList.pushFront
  rwa [LinkedList.values_pushFront] at h

/-- `Pop` takes the front block, and there is none in an empty queue. -/
theorem pop_eq (q : BlockList) : q.pop.1.toList ++ q.pop.2.blocks = q.blocks := by
  change q.toRaw.pop.1.toList ++ q.toRaw.pop.2.list.values = q.list.values
  unfold Raw.pop
  cases hf : q.list.front? with
  | none => rfl
  | some e => exact LinkedList.cons_values_remove_front hf

/-- `Pop` returns the front block. -/
theorem pop_fst (q : BlockList) : q.pop.1 = q.blocks.head? := by
  change q.toRaw.pop.1 = (q.list.elems.map Prod.snd).head?
  unfold Raw.pop LinkedList.front?
  cases q.list.elems <;> rfl

/-- A push brings no other block into the queue. -/
theorem mem_blocks_of_mem_push {q : BlockList} {b b' : Block} (h : b ∈ (q.push b').blocks) :
    b ∈ q.blocks ∨ b = b' := by
  rw [blocks_push] at h
  split at h
  · exact .inl h
  · simpa using h

/-- The keys after a push. -/
theorem mem_keys_push {q : BlockList} {b : Block} {k : Key} :
    k ∈ (q.push b).keys ↔ k ∈ q.keys ∨ k = b.key := by
  rw [keys, blocks_push]
  split
  next hmem =>
    constructor
    · exact .inl
    · rintro (hk | rfl)
      · exact hk
      · exact hmem
  next => simp [keys]

end BlockList

end GoBlocks
