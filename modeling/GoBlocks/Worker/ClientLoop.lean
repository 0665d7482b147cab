import GoBlocks.Lib.Transition
import GoBlocks.Worker.BlockList

/-!
# The client worker loop

The first goroutine of a worker takes blocks from the clients and sends them to
the second. Every iteration pops the next block off the queue and then waits for
one of four things: the block can be sent, the debug ticker fires, a client sends
another block, or the worker is closing. Only the third branch puts the popped
block back. A tick while a block is held drops that block, and this is the only
way an open worker loses one.
-/

namespace GoBlocks.Worker

/-- What the `select` of the client worker loop can do. -/
inductive LoopEvent where
  /-- `block := <-w.added`. -/
  | recv (b : Block)
  /-- `sendToWorker <- nextBlock`. -/
  | send (b : Block)
  /-- `<-debugInfo.C`. -/
  | tick
  /-- `<-proc.Closing()`. -/
  | closing
  deriving DecidableEq

/-- The block received from `w.added`. -/
def LoopEvent.received : LoopEvent → Option Block
  | .recv b => some b
  | _ => none

/-- The block sent on `workerChan`. -/
def LoopEvent.sent : LoopEvent → Option Block
  | .send b => some b
  | _ => none

/-- The client worker loop at the head of its `select`. -/
inductive ClientLoop where
  /-- Waiting, with a work queue and perhaps a next block to send. -/
  | select (workQueue : BlockList) (nextBlock : Option Block)
  /-- The loop returned. -/
  | exited

namespace ClientLoop

/-- The start of an iteration: pop the next block. -/
def iterate (workQueue : BlockList) : ClientLoop := .select workQueue.pop.2 workQueue.pop.1

/-- The loop starts with an empty work queue. -/
def start : ClientLoop := iterate .zero

/-- The queue after a reception: a popped block missed its chance to be sent. -/
def requeue (workQueue : BlockList) : Option Block → BlockList
  | none => workQueue
  | some nextBlock => workQueue.push nextBlock

/-- One branch of the `select`. -/
def next : ClientLoop → LoopEvent → Option ClientLoop
  | .select workQueue nextBlock, .recv b => some (iterate ((requeue workQueue nextBlock).push b))
  | .select workQueue nextBlock, .send b =>
    -- A nil channel blocks, so nothing is sent without a next block.
    if nextBlock = some b then some (iterate workQueue) else none
  | .select workQueue _, .tick => some (iterate workQueue)
  | .select _ _, .closing => some .exited
  | .exited, _ => none

/-- The client worker loop as a transition system. -/
def lts : LTS ClientLoop LoopEvent := .ofFun next

/-- The blocks that wait to be sent: the held block and the queued ones. -/
def pending : ClientLoop → List Block
  | .select workQueue nextBlock => nextBlock.toList ++ workQueue.blocks
  | .exited => []

/-- A block with the key is held or queued. -/
def Holds (s : ClientLoop) (k : Key) : Prop := ∃ b ∈ s.pending, b.key = k

/-- The loop holds a block that it has popped. -/
def nextBlock : ClientLoop → Option Block
  | .select _ nextBlock => nextBlock
  | .exited => none

/-- Popping moves the first block from the queue to the loop. -/
@[simp] theorem pending_iterate (q : BlockList) : (iterate q).pending = q.blocks := q.pop_eq

/-- At the head of the `select`, the loop has just popped a block off some queue. -/
def AtHead (s : ClientLoop) : Prop := ∀ q nb, s = .select q nb → ∃ q₀, s = iterate q₀

/-- Every step leads to the head of an iteration. -/
theorem atHead_of_next {s s' : ClientLoop} {e : LoopEvent} (h : s.next e = some s') :
    s'.AtHead := by
  cases s with
  | exited => cases h
  | select q nb =>
    cases e with
    | recv b =>
      cases h
      exact fun _ _ _ => ⟨_, rfl⟩
    | send b =>
      simp only [next, Option.ite_none_right_eq_some, Option.some.injEq] at h
      obtain ⟨-, rfl⟩ := h
      exact fun _ _ _ => ⟨_, rfl⟩
    | tick =>
      cases h
      exact fun _ _ _ => ⟨_, rfl⟩
    | closing =>
      cases h
      exact fun _ _ hs => by cases hs

/-- At the head of the `select`, no key is pending twice. -/
theorem AtHead.pending_nodup {s : ClientLoop} (hs : s.AtHead) :
    (s.pending.map Block.key).Nodup := by
  cases s with
  | exited => exact List.nodup_nil
  | select q nb =>
    obtain ⟨q₀, hq₀⟩ := hs q nb rfl
    rw [hq₀, pending_iterate]
    exact q₀.keys_nodup

/-- At the head of the `select`, the held block is the first pending one. -/
theorem AtHead.nextBlock_eq {s : ClientLoop} (hs : s.AtHead) :
    s.nextBlock = s.pending.head? := by
  cases s with
  | exited => rfl
  | select q nb =>
    obtain ⟨q₀, hq₀⟩ := hs q nb rfl
    rw [hq₀, pending_iterate]
    exact q₀.pop_fst

/-- The loop gets its blocks by reception only. -/
theorem mem_pending_of_next {s s' : ClientLoop} {e : LoopEvent} (h : s.next e = some s')
    {b : Block} (hb : b ∈ s'.pending) : b ∈ s.pending ∨ e = .recv b := by
  cases s with
  | exited => cases h
  | select q nb =>
    have hqueue : b ∈ q.blocks → b ∈ (select q nb).pending := List.mem_append_right _
    cases e with
    | recv b' =>
      cases h
      rw [pending_iterate] at hb
      rcases BlockList.mem_blocks_of_mem_push hb with hb | rfl
      · left
        cases nb with
        | none => exact hqueue hb
        | some nb =>
          rcases BlockList.mem_blocks_of_mem_push hb with hb | rfl
          · exact hqueue hb
          · exact List.mem_cons_self ..
      · exact .inr rfl
    | send b' =>
      simp only [next, Option.ite_none_right_eq_some, Option.some.injEq] at h
      obtain ⟨-, rfl⟩ := h
      rw [pending_iterate] at hb
      exact .inl (hqueue hb)
    | tick =>
      cases h
      rw [pending_iterate] at hb
      exact .inl (hqueue hb)
    | closing =>
      cases h
      cases hb

/-- The loop sends a block that it has. -/
theorem mem_pending_of_send {s s' : ClientLoop} {b : Block} (h : s.next (.send b) = some s') :
    b ∈ s.pending := by
  cases s with
  | exited => cases h
  | select q nb =>
    simp only [next, Option.ite_none_right_eq_some] at h
    simp [pending, h.1]

/-- The loop holds what it started the iteration with. -/
theorem holds_iterate {q : BlockList} {k : Key} : (iterate q).Holds k ↔ k ∈ q.keys := by
  simp [Holds, BlockList.keys]

/-- The pending keys are the held one and the queued ones. -/
theorem holds_select {q : BlockList} {nb : Option Block} {k : Key} :
    (select q nb).Holds k ↔ nb.map Block.key = some k ∨ k ∈ q.keys := by
  cases nb <;> simp [Holds, pending, BlockList.keys]

/-- A new iteration without putting the held block back gives up its key, which is
not queued a second time. -/
theorem holds_iterate_of_atHead {q : BlockList} {nb : Option Block}
    (hs : (select q nb).AtHead) {k : Key} :
    (iterate q).Holds k ↔ (select q nb).Holds k ∧ nb.map Block.key ≠ some k := by
  have hnodup := hs.pending_nodup
  rw [holds_iterate, holds_select]
  cases nb with
  | none => simp
  | some b =>
    have hb : b.key ∉ q.keys := by
      simpa [pending, BlockList.keys] using (List.nodup_cons.mp hnodup).1
    constructor
    · intro hk
      refine ⟨.inr hk, fun heq => hb ?_⟩
      cases heq
      exact hk
    · rintro ⟨heq | hk, hne⟩
      · exact absurd heq hne
      · exact hk

/-- After a reception the loop holds the received key besides the others. -/
theorem holds_recv {s s' : ClientLoop} {b : Block} (h : s.next (.recv b) = some s') {k : Key} :
    s'.Holds k ↔ s.Holds k ∨ k = b.key := by
  cases s with
  | exited => cases h
  | select q nb =>
    cases h
    rw [holds_iterate, BlockList.mem_keys_push, holds_select]
    refine or_congr_left ?_
    cases nb with
    | none => simp [requeue]
    | some b' =>
      rw [requeue, BlockList.mem_keys_push, Option.map_some, Option.some.injEq, or_comm,
        eq_comm]

/-- After a send the loop holds the other keys. -/
theorem holds_send {s s' : ClientLoop} {b : Block} (hs : s.AtHead)
    (h : s.next (.send b) = some s') {k : Key} : s'.Holds k ↔ s.Holds k ∧ b.key ≠ k := by
  cases s with
  | exited => cases h
  | select q nb =>
    simp only [next, Option.ite_none_right_eq_some, Option.some.injEq] at h
    obtain ⟨rfl, rfl⟩ := h
    rw [holds_iterate_of_atHead hs]
    simp

/-- After a tick the loop holds the keys but that of the block it had popped. -/
theorem holds_tick {s s' : ClientLoop} (hs : s.AtHead) (h : s.next .tick = some s') {k : Key} :
    s'.Holds k ↔ s.Holds k ∧ s.nextBlock.map Block.key ≠ some k := by
  cases s with
  | exited => cases h
  | select q nb =>
    cases h
    exact holds_iterate_of_atHead hs

end ClientLoop

/-- The history has a reception of the key that no send of the key follows. -/
def Unsent (k : Key) (hist : List LoopEvent) : Prop :=
  ∃ pre b post, hist = pre ++ .recv b :: post ∧ b.key = k ∧ ∀ b', .send b' ∈ post → b'.key ≠ k

/-- How one more event changes which keys are unsent. -/
theorem unsent_snoc_iff {k : Key} {hist : List LoopEvent} {e : LoopEvent} :
    Unsent k (hist ++ [e]) ↔
      (∃ b, e = .recv b ∧ b.key = k) ∨ (Unsent k hist ∧ ∀ b, e = .send b → b.key ≠ k) := by
  constructor
  · rintro ⟨pre, b, post, heq, hb, hpost⟩
    rcases List.eq_nil_or_concat post with rfl | ⟨post, e', rfl⟩
    · obtain ⟨-, he⟩ := List.append_inj' heq rfl
      exact .inl ⟨b, (List.cons.inj he).1, hb⟩
    · rw [List.concat_eq_append, ← List.cons_append, ← List.append_assoc] at heq
      obtain ⟨rfl, he⟩ := List.append_inj' heq rfl
      obtain rfl := (List.cons.inj he).1
      refine .inr ⟨⟨pre, b, post, rfl, hb, fun b' hb' => ?_⟩, ?_⟩
      · exact hpost b' (by simp [hb'])
      · rintro b' rfl
        exact hpost b' (by simp)
  · rintro (⟨b, rfl, hb⟩ | ⟨⟨pre, b, post, rfl, hb, hpost⟩, he⟩)
    · exact ⟨hist, b, [], rfl, hb, by simp⟩
    · refine ⟨pre, b, post ++ [e], by simp, hb, fun b' hb' => ?_⟩
      rcases List.mem_append.mp hb' with hb' | hb'
      · exact hpost b' hb'
      · exact he b' (List.mem_singleton.mp hb').symm

/-- For every block received so far, the loop holds a block with its key, or one
was sent since. -/
def NotLost (hist : List LoopEvent) (s : ClientLoop) : Prop :=
  ∀ pre b post, hist = pre ++ .recv b :: post →
    s.Holds b.key ∨ ∃ b', .send b' ∈ post ∧ b'.key = b.key

/-- Nothing is lost when the loop holds every unsent key. -/
theorem notLost_iff {hist : List LoopEvent} {s : ClientLoop} :
    NotLost hist s ↔ ∀ k, Unsent k hist → s.Holds k := by
  constructor
  · rintro h k ⟨pre, b, post, heq, rfl, hpost⟩
    rcases h pre b post heq with hholds | ⟨b', hb', hkey⟩
    · exact hholds
    · exact absurd hkey (hpost b' hb')
  · intro h pre b post heq
    by_cases hsent : ∃ b', .send b' ∈ post ∧ b'.key = b.key
    · exact .inr hsent
    · exact .inl (h b.key ⟨pre, b, post, heq, rfl, fun b' hb' hkey => hsent ⟨b', hb', hkey⟩⟩)

namespace ClientLoop

/-- The loop starts at the head of an iteration. -/
theorem atHead_start : start.AtHead := fun _ _ _ => ⟨_, rfl⟩

/-- Along every run the loop is at the head of an iteration. -/
theorem atHead_of_run {hist : List LoopEvent} {s : ClientLoop} (h : lts.Run start hist s) :
    s.AtHead :=
  h.invariant AtHead (fun _ _ _ _ hstep => atHead_of_next hstep) atHead_start

/-- The loop holds keys that were received and not sent since. -/
theorem unsent_of_holds {hist : List LoopEvent} {s : ClientLoop} (h : lts.Run start hist s)
    {k : Key} (hk : s.Holds k) : Unsent k hist := by
  refine h.history_induction (fun hist s => ∀ k, s.Holds k → Unsent k hist) ?_ ?_ k hk
  · intro k hk
    simp [start, holds_iterate, BlockList.keys] at hk
  · intro hist v e w hrun ih hstep k hk
    rw [unsent_snoc_iff]
    cases e with
    | recv b =>
      rcases (holds_recv hstep).mp hk with hk | rfl
      · exact .inr ⟨ih k hk, fun _ he => by cases he⟩
      · exact .inl ⟨b, rfl, rfl⟩
    | send b =>
      obtain ⟨hk, hne⟩ := (holds_send (atHead_of_run hrun) hstep).mp hk
      refine .inr ⟨ih k hk, ?_⟩
      rintro _ ⟨⟩
      exact hne
    | tick =>
      obtain ⟨hk, -⟩ := (holds_tick (atHead_of_run hrun) hstep).mp hk
      exact .inr ⟨ih k hk, fun _ he => by cases he⟩
    | closing =>
      cases v with
      | exited => cases hstep
      | select q nb =>
        cases hstep
        obtain ⟨_, hmem, -⟩ := hk
        cases hmem

/-- One event other than closing or a tick with a block held keeps what the loop
has to hold. -/
theorem notLost_step {hist : List LoopEvent} {s s' : ClientLoop} {e : LoopEvent}
    (hs : s.AtHead) (h : NotLost hist s) (hstep : s.next e = some s') (hopen : e ≠ .closing)
    (htick : e = .tick → s.nextBlock = none) : NotLost (hist ++ [e]) s' := by
  rw [notLost_iff] at h ⊢
  intro k hk
  rw [unsent_snoc_iff] at hk
  cases e with
  | recv b =>
    rw [holds_recv hstep]
    rcases hk with ⟨_, ⟨⟩, hkey⟩ | ⟨hk, -⟩
    · exact .inr hkey.symm
    · exact .inl (h k hk)
  | send b =>
    rw [holds_send hs hstep]
    rcases hk with ⟨_, ⟨⟩, -⟩ | ⟨hk, hne⟩
    exact ⟨h k hk, hne b rfl⟩
  | tick =>
    rw [holds_tick hs hstep, htick rfl]
    rcases hk with ⟨_, ⟨⟩, -⟩ | ⟨hk, -⟩
    exact ⟨h k hk, by simp⟩
  | closing => exact absurd rfl hopen

/-- Nothing is lost in any state of the run. -/
def NoneLost (ls : List LoopEvent) : Prop :=
  ∀ pre s, pre <+: ls → lts.Run start pre s → NotLost pre s

/-- The ticker never fires while the loop holds a block that it has popped. -/
def TicksUnheld (ls : List LoopEvent) : Prop :=
  ∀ pre s, pre ++ [.tick] <+: ls → lts.Run start pre s → s.nextBlock = none

/-- A held block is pending. -/
theorem holds_of_nextBlock {s : ClientLoop} {b : Block} (h : s.nextBlock = some b) :
    s.Holds b.key := by
  cases s with
  | exited => cases h
  | select q nb =>
    obtain rfl : nb = some b := h
    exact ⟨b, by simp [pending], rfl⟩

/-- A tick with a block held loses it. -/
theorem not_notLost_of_tick {hist : List LoopEvent} {s s' : ClientLoop} {b : Block}
    (hrun : lts.Run start hist s) (hb : s.nextBlock = some b) (hstep : s.next .tick = some s') :
    ¬ NotLost (hist ++ [.tick]) s' := by
  rw [notLost_iff]
  intro h
  have hunsent : Unsent b.key (hist ++ [.tick]) :=
    unsent_snoc_iff.mpr
      (.inr ⟨unsent_of_holds hrun (holds_of_nextBlock hb), fun _ he => by cases he⟩)
  obtain ⟨-, hne⟩ := (holds_tick (atHead_of_run hrun) hstep).mp (h b.key hunsent)
  exact hne (by rw [hb]; rfl)

/-- A run in which closing has not begun loses nothing exactly if no tick fires
while a block is held. -/
theorem noneLost_iff_ticksUnheld {ls : List LoopEvent} (hopen : .closing ∉ ls) :
    NoneLost ls ↔ TicksUnheld ls := by
  constructor
  · intro hnone pre s hpre hrun
    by_contra hne
    obtain ⟨b, hb⟩ := Option.ne_none_iff_exists'.mp hne
    cases s with
    | exited => cases hb
    | select q nb =>
      have hstep : (select q nb).next .tick = some (iterate q) := rfl
      exact not_notLost_of_tick hrun hb hstep (hnone _ _ hpre (hrun.snoc hstep))
  · intro hticks pre s hpre
    refine prefix_induction (fun pre => ∀ s, lts.Run start pre s → NotLost pre s) ?_ ?_ hpre s
    · intro s _ pre b post heq
      simp at heq
    · intro hist e hhist ih s' hrun'
      obtain ⟨s, hrun, hstep⟩ := LTS.run_snoc_iff.mp hrun'
      refine notLost_step (atHead_of_run hrun) (ih s hrun) hstep ?_ ?_
      · rintro rfl
        exact hopen (hhist.subset (by simp))
      · rintro rfl
        exact hticks hist s hhist hrun

end ClientLoop

end GoBlocks.Worker
