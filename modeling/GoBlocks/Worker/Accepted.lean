import GoBlocks.Worker.Basic

/-!
# What becomes of accepted blocks

The client worker loop is one part of a worker, whatever the configuration and the
exchange are. Its runs say what becomes of a block that a client has handed over:
it waits to be sent, or a block with its key is sent, or a tick of the debug timer
drops it.
-/

namespace GoBlocks.Worker

/-- The branch of the client worker loop that an event of the worker takes. -/
def loopEvent : Event → Option LoopEvent
  | .handoff b | .recv b => some (.recv b)
  | .push b | .pass b => some (.send b)
  | .tick => some .tick
  | .loopExit => some .closing
  | _ => none

section Projection

variable {G X : Type} {e : Exchange G X} {s t : G × State X} {l : Event}

/-- At its own events, the client worker loop takes a step. -/
theorem loop_step {le : LoopEvent} (h : (lts e).step s l t) (hl : loopEvent l = some le) :
    ClientLoop.lts.step s.2.loop le t.2.loop := by
  cases step_of_next e h with
  | handoff hmeet hloop =>
    cases hl
    exact hloop
  | recv hrecv hloop =>
    cases hl
    exact hloop
  | push hsend hloop =>
    cases hl
    exact hloop
  | pass hlimiter hmeet hloop =>
    cases hl
    exact hloop
  | tick hloop =>
    cases hl
    exact hloop
  | loopExit hclosing hloop =>
    cases hl
    exact hloop
  | _ => cases hl

/-- The other events leave the client worker loop alone. -/
theorem loop_eq_of_step (h : (lts e).step s l t) (hl : loopEvent l = none) :
    t.2.loop = s.2.loop := by
  cases step_of_next e h with
  | handoff hmeet hloop => cases hl
  | recv hrecv hloop => cases hl
  | push hsend hloop => cases hl
  | pass hlimiter hmeet hloop => cases hl
  | tick hloop => cases hl
  | loopExit hclosing hloop => cases hl
  | _ => rfl

/-- A run of a worker is a run of its client worker loop. -/
theorem loop_run {ls : List Event} (h : (lts e).Run s ls t) :
    ClientLoop.lts.Run s.2.loop (ls.filterMap loopEvent) t.2.loop :=
  h.project (fun s => s.2.loop) loopEvent (fun _ _ _ _ => loop_step) fun _ _ _ => loop_eq_of_step

end Projection

/-- A new worker has its client worker loop at the start. -/
theorem loop_newWorker {X : Type} {c : Config} {w : State X} (h : newWorker X c = some w) :
    w.loop = .start := by
  unfold newWorker at h
  split at h
  · cases h
    rfl
  · cases h

/-- **Accepted blocks of an open worker.** Take any run of the client worker loop in
which closing has not begun. In each of its states every block received so far is
held or queued, or a block with its key was sent since, if and only if the ticker
never fires while the loop holds a block that it has popped. For every
configuration and exchange, a run of the worker is such a run of its loop. -/
theorem noneLost_iff {G X : Type} (e : Exchange G X) (c : Config) (g : G) (ls : List LoopEvent)
    (hopen : .closing ∉ ls) :
    (ClientLoop.NoneLost ls ↔ ClientLoop.TicksUnheld ls) ∧
    ∀ w, newWorker X c = some w → ∀ es t, (lts e).Run (g, w) es t →
      ClientLoop.lts.Run .start (es.filterMap loopEvent) t.2.loop := by
  refine ⟨ClientLoop.noneLost_iff_ticksUnheld hopen, ?_⟩
  intro w hw es t hrun
  rw [← loop_newWorker hw]
  exact loop_run hrun

/-- An exchange whose `HasBlock` returns at once. -/
def idleExchange : Exchange Unit Unit := ⟨fun _ => (), fun _ _ => ((), none)⟩

/-- A tick after the block was sent on loses nothing. -/
theorem noneLost_tick_after_send :
    ClientLoop.NoneLost [.recv ⟨[1], [2]⟩, .send ⟨[1], [2]⟩, .tick] := by
  refine (noneLost_iff idleExchange defaultConfig () _ (by simp)).1.mpr ?_
  intro pre s hpre hrun
  obtain rfl : pre = [.recv ⟨[1], [2]⟩, .send ⟨[1], [2]⟩] := by
    rcases pre with _ | ⟨_, _ | ⟨_, _ | ⟨_, pre⟩⟩⟩ <;> simp_all [List.cons_prefix_cons]
  obtain rfl := Option.some.inj (LTS.run_ofFun_iff.mp hrun)
  rfl

/-- A worker with the default configuration receives a block from a client, and the
ticker fires before the block is sent on. The block is gone. -/
theorem not_notLost_tick_while_held :
    ∃ w t, newWorker Unit defaultConfig = some w ∧
      (lts idleExchange).Run ((), w) [.handoff ⟨[1], [2]⟩, .tick] t ∧
      ¬ NotLost ([.handoff ⟨[1], [2]⟩, .tick].filterMap loopEvent) t.2.loop ∧
      t.2.loop.pending = [] := by
  refine ⟨_, _, rfl, LTS.run_ofFun_iff.mpr rfl, ?_, rfl⟩
  intro h
  rcases h [] ⟨[1], [2]⟩ [.tick] rfl with ⟨b, hb, -⟩ | ⟨b, hb, -⟩
  · cases hb
  · simp at hb

end GoBlocks.Worker
