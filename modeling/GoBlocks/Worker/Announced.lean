import GoBlocks.Worker.Accepted

/-!
# Announcements are not multiplied

Every block that a client hands over is announced to the exchange at most once. Per
key, a block that the client worker loop receives is pending in the loop, or in
`workerChan`, or in the hands of the limiter loop, or with a child process that has
not started, or the exchange was called with it; a step moves it on or drops it.
-/

namespace GoBlocks.Worker

/-- A list around one of its places. -/
theorem exists_split_of_getElem? {α : Type*} {as : List α} {i : ℕ} {a : α}
    (h : as[i]? = some a) : ∃ pre post, as = pre ++ a :: post ∧
      (∀ a', as.set i a' = pre ++ a' :: post) ∧ as.eraseIdx i = pre ++ post := by
  obtain ⟨hlt, rfl⟩ := List.getElem?_eq_some_iff.mp h
  refine ⟨as.take i, as.drop (i + 1), ?_, fun a' => ?_, List.eraseIdx_eq_take_drop_succ as i⟩
  · rw [List.getElem_cons_drop, List.take_append_drop]
  · rw [List.set_eq_take_append_cons_drop, if_pos hlt]

/-- A push adds at most its own block to those with a key. -/
theorem keyCount_push_le (k : Key) (q : BlockList) (b : Block) :
    keyCount k (q.push b).blocks ≤ keyCount k q.blocks + keyCount k [b] := by
  rw [BlockList.blocks_push]
  split
  · exact Nat.le_add_right _ _
  · rw [keyCount_append]

/-- A step of the client worker loop gets what it holds and sends from what it held
and received. -/
theorem ClientLoop.keyCount_pending_le {s s' : ClientLoop} {le : LoopEvent}
    (h : s.next le = some s') (k : Key) :
    keyCount k s'.pending + keyCount k le.sent.toList ≤
      keyCount k s.pending + keyCount k le.received.toList := by
  cases s with
  | exited => cases h
  | select q nb =>
    have hpending : keyCount k (select q nb).pending =
        keyCount k nb.toList + keyCount k q.blocks := keyCount_append ..
    cases le with
    | recv b =>
      cases h
      have hpush := keyCount_push_le k (requeue q nb) b
      have hrequeue : keyCount k (requeue q nb).blocks ≤
          keyCount k nb.toList + keyCount k q.blocks := by
        cases nb with
        | none => exact Nat.le_add_left _ _
        | some nb =>
          have := keyCount_push_le k q nb
          simp only [requeue, Option.toList_some]
          omega
      simp only [pending_iterate, LoopEvent.sent, LoopEvent.received, Option.toList_none,
        Option.toList_some, keyCount_nil]
      omega
    | send b =>
      simp only [next, Option.ite_none_right_eq_some, Option.some.injEq] at h
      obtain ⟨rfl, rfl⟩ := h
      simp only [pending_iterate, LoopEvent.sent, LoopEvent.received, Option.toList_none,
        keyCount_nil]
      omega
    | tick =>
      cases h
      simp only [pending_iterate, LoopEvent.sent, LoopEvent.received]
      omega
    | closing =>
      cases h
      exact Nat.le_add_left _ _

/-- The block that the client worker loop receives from `added`. -/
def Event.received (l : Event) : Option Block := (loopEvent l).bind LoopEvent.received

/-- The block that the client worker loop sends on `workerChan`. -/
def Event.sent (l : Event) : Option Block := (loopEvent l).bind LoopEvent.sent

/-- The block of a child whose function has not started. -/
def Child.waiting {X : Type} : Child X → Option Block
  | .spawned b => some b
  | _ => none

/-- The block of a limiter loop that waits for a token. -/
def LimiterLoop.taken : LimiterLoop → Option Block
  | .limited b => some b
  | _ => none

/-- The block with which an event starts a call of `HasBlock` of the exchange. -/
def called {G X : Type} (s : G × State X) : Event → Option Block
  | .run i => s.2.children[i]?.bind Child.waiting
  | _ => none

/-- The blocks with which `HasBlock` of the exchange is called in a run. -/
def calls {G X : Type} (e : Exchange G X) (s : G × State X) (ls : List Event) : List Block :=
  LTS.outputs (next e) called s ls

/-- The blocks with the key that have left the client worker loop and with which the
exchange was not called. -/
def downstream {X : Type} (k : Key) (w : State X) : ℕ :=
  keyCount k w.workerChan.buf + keyCount k w.limiter.taken.toList +
    keyCount k (w.children.filterMap Child.waiting)

section Step

variable {G X : Type} {e : Exchange G X} {s t : G × State X} {l : Event} {ls : List Event}

/-- The client worker loop sends only what it received. -/
theorem keyCount_loop_le (h : (lts e).step s l t) (k : Key) :
    keyCount k t.2.loop.pending + keyCount k l.sent.toList ≤
      keyCount k s.2.loop.pending + keyCount k l.received.toList := by
  cases hl : loopEvent l with
  | none => simp [Event.sent, Event.received, hl, loop_eq_of_step h hl]
  | some le =>
    have hstep := ClientLoop.keyCount_pending_le (loop_step h hl) k
    simpa [Event.sent, Event.received, hl] using hstep

/-- A child that takes a step has started its function, or it was waiting to. -/
theorem waiting_of_run {g g' : G} {child child' : Child X}
    (h : child.run e g = some (g', child')) : child'.waiting = none := by
  cases child with
  | spawned b =>
    cases h
    rfl
  | calling b x =>
    simp only [Child.run] at h
    split at h <;>
    · cases h
      rfl
  | returned b => cases h

/-- The blocks of waiting children around one child. -/
theorem keyCount_waiting (k : Key) (pre : List (Child X)) (child : Child X)
    (post : List (Child X)) :
    keyCount k ((pre ++ child :: post).filterMap Child.waiting) =
      keyCount k (pre.filterMap Child.waiting) + keyCount k child.waiting.toList +
        keyCount k (post.filterMap Child.waiting) := by
  cases hchild : child.waiting with
  | none => simp [hchild]
  | some b =>
    simp only [List.filterMap_append, List.filterMap_cons_some hchild, keyCount_append,
      keyCount_cons, Option.toList_some, keyCount_nil]
    omega

/-- The exchange is called only with what the client worker loop sent. -/
theorem keyCount_downstream_le (h : (lts e).step s l t) (k : Key) :
    downstream k t.2 + keyCount k (called s l).toList ≤
      downstream k s.2 + keyCount k l.sent.toList := by
  cases step_of_next e h with
  | push hsend hloop =>
    have hbuf := Chan.buf_of_send hsend
    simp only [downstream, called, Event.sent, loopEvent, LoopEvent.sent, hbuf, keyCount_append,
      Option.bind_some, Option.toList_none, Option.toList_some, keyCount_nil]
    omega
  | pass hlimiter hmeet hloop =>
    simp only [downstream, called, Event.sent, loopEvent, LoopEvent.sent, LimiterLoop.taken,
      hlimiter, Option.bind_some, Option.toList_none, Option.toList_some, keyCount_nil]
    omega
  | take hlimiter hrecv =>
    have hbuf := Chan.buf_of_recv hrecv
    simp only [downstream, called, LimiterLoop.taken, hlimiter, hbuf, keyCount_cons,
      Option.toList_none, Option.toList_some, keyCount_nil]
    omega
  | spawn hlimiter hrecv =>
    simp only [downstream, called, LimiterLoop.taken, Child.waiting, hlimiter,
      List.filterMap_append, List.filterMap_cons, List.filterMap_nil, keyCount_append,
      Option.toList_none, Option.toList_some, keyCount_nil]
    omega
  | @run g g' w i child child' hchild hrun =>
    obtain ⟨pre, post, hchildren, hset, -⟩ := exists_split_of_getElem? hchild
    have hcalled : called (g, w) (.run i) = child.waiting := by simp [called, hchild]
    have hbefore := keyCount_waiting k pre child post
    have hafter := keyCount_waiting k pre child' post
    rw [← hchildren] at hbefore
    rw [← hset, waiting_of_run hrun, Option.toList_none, keyCount_nil] at hafter
    simp only [downstream, hcalled]
    omega
  | @release g w i b tokens hchild hsend =>
    obtain ⟨pre, post, hchildren, -, herase⟩ := exists_split_of_getElem? hchild
    have hbefore := keyCount_waiting k pre (.returned b) post
    rw [← hchildren] at hbefore
    simp only [downstream, called, herase, List.filterMap_append, keyCount_append,
      Option.toList_none, keyCount_nil]
    omega
  | drained hlimiter hdrained | limiterExit hlimiter hclosing =>
    simp only [downstream, called, LimiterLoop.taken, Option.toList_none, keyCount_nil]
    omega
  | _ => exact Nat.le_add_right _ _

/-- The blocks with the key that were received and with which the exchange was not
called. -/
def inFlight (k : Key) (w : State X) : ℕ := keyCount k w.loop.pending + downstream k w

/-- Along a run, the exchange was called with the received blocks that are not in
flight any more. -/
theorem keyCount_calls_le (h : (lts e).Run s ls t) (k : Key) :
    keyCount k (calls e s ls) + inFlight k t.2 ≤
      inFlight k s.2 + keyCount k (ls.filterMap Event.received) := by
  refine h.history_induction (fun ls t => keyCount k (calls e s ls) + inFlight k t.2 ≤
    inFlight k s.2 + keyCount k (ls.filterMap Event.received)) ?_ ?_
  · simp [calls, LTS.outputs]
  · intro hist v l w hrun ih hstep
    have hcalls : calls e s (hist ++ [l]) = calls e s hist ++ (called v l).toList :=
      LTS.outputs_snoc called hrun l
    have hreceived : (hist ++ [l]).filterMap Event.received =
        hist.filterMap Event.received ++ l.received.toList := by
      cases hl : l.received <;> simp [hl]
    have hloop := keyCount_loop_le hstep k
    have hdownstream := keyCount_downstream_le hstep k
    rw [hcalls, hreceived, keyCount_append, keyCount_append]
    unfold inFlight at ih ⊢
    omega

end Step

/-- Nothing is in flight in a new worker. -/
theorem inFlight_newWorker {X : Type} {c : Config} {w : State X} (h : newWorker X c = some w)
    (k : Key) : inFlight k w = 0 := by
  unfold newWorker at h
  split at h
  next hadded hworkerChan =>
    cases h
    obtain ⟨-, hbuf, -⟩ := Chan.make_spec hworkerChan
    simp [inFlight, downstream, LimiterLoop.taken, ClientLoop.start, hbuf]
  next => cases h

/-- **Announcements are not multiplied.** In every run of a worker, for every
configuration and exchange, the calls of `HasBlock` of the exchange with blocks of a
key, and the blocks with the key in `workerChan`, in the work queue and held as the
next block, are together at most as many as the blocks with the key received from
`added`. The work queue and the held block have at most one block of a key. -/
theorem announced_le_received {G X : Type} (e : Exchange G X) (c : Config) (g : G) (w : State X)
    (hw : newWorker X c = some w) (ls : List Event) (t : G × State X)
    (hrun : (lts e).Run (g, w) ls t) (k : Key) :
    keyCount k (calls e (g, w) ls) + keyCount k t.2.workerChan.buf + keyCount k t.2.loop.pending ≤
      keyCount k (ls.filterMap Event.received) ∧ (t.2.loop.pending.map Block.key).Nodup := by
  constructor
  · have hcalls := keyCount_calls_le hrun k
    rw [inFlight_newWorker hw k] at hcalls
    unfold inFlight downstream at hcalls
    omega
  · have hloop := loop_run hrun
    rw [loop_newWorker hw] at hloop
    exact (ClientLoop.atHead_of_run hloop).pending_nodup

/-- A block that was received once was announced once. -/
theorem announced_once :
    ∃ w t, newWorker Unit defaultConfig = some w ∧
      (lts idleExchange).Run ((), w) [.handoff ⟨[1], [2]⟩, .pass ⟨[1], [2]⟩, .spawn, .run 0] t ∧
      keyCount [1] (calls idleExchange ((), w)
        [.handoff ⟨[1], [2]⟩, .pass ⟨[1], [2]⟩, .spawn, .run 0]) = 1 ∧
      keyCount [1] t.2.workerChan.buf + keyCount [1] t.2.loop.pending = 0 := by
  refine ⟨_, _, rfl, LTS.run_ofFun_iff.mpr rfl, rfl, ?_⟩
  have h := (announced_le_received idleExchange defaultConfig () _ rfl
    [.handoff ⟨[1], [2]⟩, .pass ⟨[1], [2]⟩, .spawn, .run 0] _ (LTS.run_ofFun_iff.mpr rfl) [1]).1
  rw [Nat.add_assoc] at h
  exact Nat.le_zero.mp (Nat.le_of_add_le_add_left h)

end GoBlocks.Worker
