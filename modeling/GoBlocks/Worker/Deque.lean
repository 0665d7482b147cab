import GoBlocks.Worker.BlockList

/-!
# The work queue as a deque

The reference for the work queue is a plain list of blocks: a push adds a block at
its end of the list unless a block with the same key is in the list, and `Pop`
takes the block at the front. From the zero value on, whatever the operations, the
queue returns what the reference returns and has its length, and its map points to
the element of each queued key.
-/

namespace GoBlocks.BlockList

/-- The operations on a queue. -/
inductive Op where
  /-- `Push`. -/
  | push (b : Block)
  /-- `PushFront`. -/
  | pushFront (b : Block)
  /-- `Pop`. -/
  | pop

section Outputs

variable {σ τ : Type}

/-- A queue with states `σ`: its operations, with the block that `Pop` returns, and `Len`. -/
structure Queue (σ : Type) where
  /-- The effect of an operation. The pushes return nothing. -/
  apply : σ → Op → Option Block × σ
  /-- The length. -/
  len : σ → ℕ

/-- The results of operations in a row, each with the length after it, and the last state. -/
def Queue.run (q : Queue σ) : σ → List Op → List (Option Block × ℕ) × σ
  | s, [] => ([], s)
  | s, op :: ops =>
    let r := q.apply s op
    let rest := q.run r.2 ops
    ((r.1, q.len r.2) :: rest.1, rest.2)

/-- Queues whose operations agree in related states have the same results. -/
theorem Queue.run_of_agree {q : Queue σ} {p : Queue τ} (R : σ → τ → Prop)
    (happly : ∀ s t op, R s t →
      (q.apply s op).1 = (p.apply t op).1 ∧ R (q.apply s op).2 (p.apply t op).2)
    (hlen : ∀ s t, R s t → q.len s = p.len t) {s : σ} {t : τ} (hR : R s t) (ops : List Op) :
    (q.run s ops).1 = (p.run t ops).1 ∧ R (q.run s ops).2 (p.run t ops).2 := by
  induction ops generalizing s t with
  | nil => exact ⟨rfl, hR⟩
  | cons op ops ih =>
    obtain ⟨hresult, hnext⟩ := happly s t op hR
    obtain ⟨hrest, hlast⟩ := ih hnext
    refine ⟨?_, hlast⟩
    simp only [Queue.run, hresult, hlen _ _ hnext, hrest]

end Outputs

/-- The queue of the source. -/
def queue : Queue Raw where
  apply s
    | .push b => (none, s.push b)
    | .pushFront b => (none, s.pushFront b)
    | .pop => s.pop
  len s := s.list.len

/-- The reference: a list of blocks without two blocks of the same key. -/
def deque : Queue (List Block) where
  apply d
    | .push b => (none, if b.key ∈ d.map Block.key then d else d ++ [b])
    | .pushFront b => (none, if b.key ∈ d.map Block.key then d else b :: d)
    | .pop => (d.head?, d.tail)
  len d := d.length

/-- The queue is in step and holds the blocks of the reference. -/
def Holds (s : Raw) (d : List Block) : Prop := s.InStep ∧ s.list.values = d

/-- `Pop` leaves the blocks behind the front block. -/
theorem blocks_pop (q : BlockList) : q.pop.2.blocks = q.blocks.tail := by
  have h := q.pop_eq
  rw [pop_fst] at h
  cases hd : q.blocks with
  | nil =>
    rw [hd] at h
    exact h
  | cons b d =>
    rw [hd] at h
    exact List.cons_inj_right b |>.mp h

/-- Every operation agrees with the reference. -/
theorem queue_agrees (s : Raw) (d : List Block) (op : Op) (h : Holds s d) :
    (queue.apply s op).1 = (deque.apply d op).1 ∧
      Holds (queue.apply s op).2 (deque.apply d op).2 := by
  obtain ⟨hs, rfl⟩ := h
  let q : BlockList := ⟨s, hs⟩
  cases op with
  | push b => exact ⟨rfl, (q.push b).inStep, q.blocks_push b⟩
  | pushFront b => exact ⟨rfl, (q.pushFront b).inStep, q.blocks_pushFront b⟩
  | pop => exact ⟨q.pop_fst, q.pop.2.inStep, q.blocks_pop⟩

/-- **The work queue is a deque without duplicates.** After any operations on the zero value
the keys of the queued blocks are pairwise distinct, the map has exactly these keys and maps
each to the element that holds it, and the results and lengths were those of the reference. -/
theorem queue_is_deque (ops : List Op) :
    ((queue.run zero.toRaw ops).2.list.values.map Block.key).Nodup ∧
    (∀ k, k ∈ (queue.run zero.toRaw ops).2.index ↔
      k ∈ (queue.run zero.toRaw ops).2.list.values.map Block.key) ∧
    (∀ k e, (queue.run zero.toRaw ops).2.index.lookup k = some e ↔
      ∃ b, (e, b) ∈ (queue.run zero.toRaw ops).2.list.elems ∧ b.key = k) ∧
    (queue.run zero.toRaw ops).1 = (deque.run [] ops).1 := by
  have hlen : ∀ s d, Holds s d → queue.len s = deque.len d := fun s d h => by
    rw [← h.2]
    exact s.list.len_eq
  have hzero : Holds zero.toRaw [] := ⟨zero.inStep, rfl⟩
  obtain ⟨hresults, hinStep, -⟩ := Queue.run_of_agree Holds queue_agrees hlen hzero ops
  let q : BlockList := ⟨(queue.run zero.toRaw ops).2, hinStep⟩
  exact ⟨q.keys_nodup, fun k => q.mem_index_iff, hinStep, hresults⟩

/-- A key is queued again after its block was popped, and not before. -/
example : (queue.run zero.toRaw
    [.push ⟨[1], [2]⟩, .pushFront ⟨[1], [3]⟩, .pop, .push ⟨[1], [3]⟩, .pop, .pop]).1 =
    [(none, 1), (none, 1), (some ⟨[1], [2]⟩, 0), (none, 1), (some ⟨[1], [3]⟩, 0), (none, 0)] := by
  decide +kernel

end GoBlocks.BlockList
