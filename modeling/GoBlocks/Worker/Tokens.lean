import GoBlocks.Worker.Accepted

/-!
# The tokens of the limiter

`LimitedGo` takes a token from the channel of the limiter and then spawns a child; a
goroutine of its own gives the token back after the child has closed. Between the two
steps the token belongs to a child that is about to be spawned. A worker in which they
are separate steps behaves like one that does both at once, and the tokens in the
channel and those of the children always add up to the number of workers.
-/

namespace GoBlocks.Worker

variable {G X : Type}

/-! ## `LimitedGo` in two steps -/

/-- A worker whose limiter loop may be inside `LimitedGo` with a token. -/
structure Limited (X : Type) where
  /-- The worker. -/
  worker : State X
  /-- The block for which the limiter loop has a token and has not spawned a child. -/
  taken : Option Block

namespace Limited

/-- The steps of such a worker. -/
inductive Event where
  /-- A step of the worker, which spawns no child. -/
  | worker (l : Worker.Event)
  /-- The limiter loop takes a token. -/
  | token
  /-- The limiter loop spawns the child. -/
  | go

variable (e : Exchange G X)

/-- One step with the state that the worker shares with others. -/
def next (s : G × Limited X) : Event → Option (G × Limited X)
  | .worker .spawn => none
  | .worker l => (Worker.next e (s.1, s.2.worker) l).map fun r => (r.1, { s.2 with worker := r.2 })
  | .token =>
    match s.2.taken, s.2.worker.limiter, s.2.worker.tokens.recv with
    | none, .limited b, some (_, tokens) =>
      some (s.1, ⟨{ s.2.worker with tokens := tokens }, some b⟩)
    | _, _, _ => none
  | .go =>
    match s.2.taken with
    | some b => some (s.1, ⟨{ s.2.worker with
        limiter := .select, children := s.2.worker.children ++ [.spawned b] }, none⟩)
    | none => none

/-- A worker with `LimitedGo` in two steps as a transition system. -/
def lts : LTS (G × Limited X) Event := .ofFun (next e)

/-- The number of children that are spawned or about to be spawned and whose token has
not been given back. -/
def holders (s : Limited X) : ℕ := s.worker.children.length + s.taken.toList.length

/-- The number of calls of `HasBlock` in progress. -/
def calls (s : Limited X) : ℕ :=
  s.worker.children.countP fun child => match child with
    | .calling _ _ => true
    | _ => false

end Limited

/-! ## The worker with `LimitedGo` in one step -/

/-- The worker after the limiter loop has spawned a child for the block. -/
def State.spawned (w : State X) (b : Block) : State X :=
  { w with limiter := .select, children := w.children ++ [.spawned b] }

/-- The worker that has spawned the child for which the token was taken. -/
def Limited.settled (s : Limited X) : State X :=
  match s.taken with
  | none => s.worker
  | some b => s.worker.spawned b

/-- A token is taken for the block with which the limiter loop waits. -/
def Limited.Waits (s : Limited X) : Prop := ∀ b, s.taken = some b → s.worker.limiter = .limited b

/-- The steps of the worker that its one-step counterpart takes as well. -/
def Limited.ownEvent : Limited.Event → Option Worker.Event
  | .worker l => some l
  | .token => some .spawn
  | .go => none

section Simulation

variable {e : Exchange G X}

/-- A worker whose limiter loop waits in `LimitedGo` takes the same steps after the child
was spawned, and the limiter loop goes on waiting. -/
theorem next_spawned {g g' : G} {w w' : State X} {b : Block} {l : Event} (hl : l ≠ .spawn)
    (hlimiter : w.limiter = .limited b) (h : next e (g, w) l = some (g', w')) :
    next e (g, w.spawned b) l = some (g', w'.spawned b) ∧ w'.limiter = .limited b := by
  have hlt : ∀ {i : ℕ} {child : Child X}, w.children[i]? = some child →
      i < w.children.length := fun hchild => (List.getElem?_eq_some_iff.mp hchild).1
  cases step_of_next e h with
  | send hsend => exact ⟨by simp [next, State.spawned, hsend], hlimiter⟩
  | handoff hmeet hloop => exact ⟨by simp [next, State.spawned, hmeet, hloop], hlimiter⟩
  | recv hrecv hloop => exact ⟨by simp [next, State.spawned, hrecv, hloop], hlimiter⟩
  | tick hloop => exact ⟨by simp [next, State.spawned, hloop], hlimiter⟩
  | push hsend hloop => exact ⟨by simp [next, State.spawned, hsend, hloop], hlimiter⟩
  | @run _ _ _ i child child' hchild hrun =>
    refine ⟨?_, hlimiter⟩
    have hchild' : (w.children ++ [Child.spawned b])[i]? = some child := by
      rw [List.getElem?_append_left (hlt hchild), hchild]
    simp [next, State.spawned, hchild', hrun, List.set_append_left _ _ (hlt hchild)]
  | @release _ _ i b' tokens hchild hsend =>
    refine ⟨?_, hlimiter⟩
    have hchild' : (w.children ++ [Child.spawned b])[i]? = some (.returned b') := by
      rw [List.getElem?_append_left (hlt hchild), hchild]
    simp [next, State.spawned, hchild', hsend, List.eraseIdx_append_of_lt_length (hlt hchild)]
  | close => exact ⟨rfl, hlimiter⟩
  | loopExit hclosing hloop => exact ⟨by simp [next, State.spawned, hclosing, hloop], hlimiter⟩
  | spawn => exact absurd rfl hl
  -- the other steps find the limiter loop elsewhere
  | pass hother | take hother | drained hother | limiterExit hother | closed _ hother =>
    rw [hlimiter] at hother
    cases hother

/-- The one-step worker matches the steps of the worker and takes a token and spawns at
once. -/
theorem Limited.settled_own {s t : G × Limited X} {l : Limited.Event} {m : Worker.Event}
    (hs : s.2.Waits) (hstep : Limited.next e s l = some t) (hm : Limited.ownEvent l = some m) :
    Worker.next e (s.1, s.2.settled) m = some (t.1, t.2.settled) ∧ t.2.Waits := by
  obtain ⟨g, w, o⟩ := s
  cases l with
  | worker l =>
    cases hm
    have hspawn : m ≠ .spawn := by
      rintro rfl
      cases hstep
    have hstep :
        (Worker.next e (g, w) m).map (fun r => (r.1, (⟨r.2, o⟩ : Limited X))) = some t := by
      cases m <;> first | exact absurd rfl hspawn | exact hstep
    obtain ⟨⟨g', w'⟩, hnext, rfl⟩ := Option.map_eq_some_iff.mp hstep
    cases o with
    | none => exact ⟨hnext, fun b hb => by cases hb⟩
    | some b =>
      obtain ⟨hspawned, hlimiter⟩ := next_spawned hspawn (hs b rfl) hnext
      refine ⟨hspawned, fun b' hb' => ?_⟩
      cases hb'
      exact hlimiter
  | token =>
    cases hm
    simp only [Limited.next] at hstep
    split at hstep
    next htaken hlimiter hrecv =>
      cases hstep
      refine ⟨by simp [Worker.next, Limited.settled, State.spawned, hlimiter, hrecv],
        fun b' hb' => ?_⟩
      cases hb'
      exact hlimiter
    next => cases hstep
  | go => cases hm

/-- The one-step worker rests when the child is spawned. -/
theorem Limited.settled_rest {s t : G × Limited X} {l : Limited.Event}
    (hstep : Limited.next e s l = some t) (hl : Limited.ownEvent l = none) :
    (t.1, t.2.settled) = (s.1, s.2.settled) ∧ t.2.Waits := by
  obtain ⟨g, w, o⟩ := s
  cases l with
  | worker l => cases hl
  | token => cases hl
  | go =>
    simp only [Limited.next] at hstep
    split at hstep
    next b htaken =>
      cases hstep
      exact ⟨rfl, fun b' hb' => by cases hb'⟩
    next => cases hstep

/-- A run of the worker with `LimitedGo` in two steps is a run of the worker. -/
theorem Limited.run_settled {g : G} {w : State X} {ls : List Limited.Event} {s : G × Limited X}
    (hrun : (Limited.lts e).Run (g, ⟨w, none⟩) ls s) :
    (Worker.lts e).Run (g, w) (ls.filterMap Limited.ownEvent) (s.1, s.2.settled) := by
  have hsim : ∃ t, (Worker.lts e).Run (g, w) (ls.filterMap Limited.ownEvent) t ∧
      t = (s.1, s.2.settled) ∧ s.2.Waits := by
    refine hrun.weakSimulate (fun s t => t = (s.1, s.2.settled) ∧ s.2.Waits) _ ?_ ?_
      ⟨rfl, fun b hb => by cases hb⟩
    · rintro v l v' m u ⟨rfl, hv⟩ hstep hm
      obtain ⟨hnext, hv'⟩ := Limited.settled_own hv hstep hm
      exact ⟨_, hnext, rfl, hv'⟩
    · rintro v l v' u ⟨rfl, -⟩ hstep hl
      obtain ⟨hsame, hv'⟩ := Limited.settled_rest hstep hl
      exact ⟨hsame.symm, hv'⟩
  obtain ⟨t, ht, rfl, -⟩ := hsim
  exact ht

end Simulation

/-! ## Conservation -/

section Conservation

variable {e : Exchange G X}

/-- A step moves tokens between the channel and the children. -/
theorem tokens_of_next {s t : G × State X} {l : Event} (h : next e s l = some t) :
    t.2.tokens.buf.length + t.2.children.length = s.2.tokens.buf.length + s.2.children.length := by
  cases step_of_next e h with
  | spawn _ hrecv =>
    have hbuf := congrArg List.length (Chan.buf_of_recv hrecv)
    simp only [List.length_cons] at hbuf
    simp only [List.length_append, List.length_singleton]
    omega
  | run => simp
  | release hchild hsend =>
    have hbuf := congrArg List.length (Chan.buf_of_send hsend)
    have hlt := (List.getElem?_eq_some_iff.mp hchild).1
    simp only [List.length_append, List.length_singleton] at hbuf
    simp only [List.length_eraseIdx_of_lt hlt]
    omega
  | _ => rfl

/-- A new worker has all tokens in the channel. -/
theorem tokens_newWorker {c : Config} {w : State X} (hw : newWorker X c = some w) :
    w.tokens.buf.length = c.limit ∧ w.children = [] := by
  unfold newWorker at hw
  split at hw
  next =>
    cases hw
    exact ⟨List.length_replicate, rfl⟩
  next => cases hw

/-- Along every run the tokens in the channel and the children that hold one add up to
the limit. -/
theorem tokens_run {c : Config} {w : State X} (hw : newWorker X c = some w) {g : G}
    {ls : List Event} {s : G × State X} (hrun : (lts e).Run (g, w) ls s) :
    s.2.tokens.buf.length + s.2.children.length = c.limit := by
  refine hrun.invariant (fun s => s.2.tokens.buf.length + s.2.children.length = c.limit) ?_ ?_
  · intro v l u hv hstep
    exact (tokens_of_next hstep).trans hv
  · obtain ⟨htokens, hchildren⟩ := tokens_newWorker hw
    rw [htokens, hchildren]
    rfl

/-- The limit is the number of workers, and at least one. -/
theorem Config.limit_eq (c : Config) : (c.limit : ℤ) = max 1 c.numWorkers := by
  unfold Config.limit
  split <;> omega

/-- The settled worker has a child for every token that is not in the channel. -/
theorem Limited.length_children_settled (s : Limited X) :
    s.settled.children.length = s.holders ∧ s.settled.tokens = s.worker.tokens := by
  obtain ⟨w, taken⟩ := s
  cases taken with
  | none => exact ⟨rfl, rfl⟩
  | some b => exact ⟨List.length_append, rfl⟩

/-- **The worker bounds its concurrency.** For every configuration and every run of the
worker, the calls of `HasBlock` in progress are at most the number of workers, which is
at least one. The tokens in the channel of the limiter and the children, spawned or about
to be spawned, whose token has not been given back always add up to that number. -/
theorem worker_bounds_concurrency (e : Exchange G X) (c : Config) (w : State X)
    (hw : newWorker X c = some w) (g : G) (ls : List Limited.Event) (s : G × Limited X)
    (hrun : (Limited.lts e).Run (g, ⟨w, none⟩) ls s) :
    (s.2.calls : ℤ) ≤ max 1 c.numWorkers ∧
      (s.2.worker.tokens.buf.length + s.2.holders : ℤ) = max 1 c.numWorkers := by
  have htokens := tokens_run hw (Limited.run_settled hrun)
  obtain ⟨hholders, hsame⟩ := s.2.length_children_settled
  rw [hholders, hsame] at htokens
  have hcalls : s.2.calls ≤ s.2.worker.children.length := List.countP_le_length
  have hchildren : s.2.worker.children.length ≤ s.2.holders := Nat.le_add_right _ _
  rw [← c.limit_eq]
  omega

/-- A worker with the default configuration has taken its only token for a block. -/
theorem worker_bounds_concurrency_taken :
    ∃ w s, newWorker Unit defaultConfig = some w ∧
      (Limited.lts idleExchange).Run ((), ⟨w, none⟩)
        [.worker (.handoff ⟨[1], [2]⟩), .worker (.pass ⟨[1], [2]⟩), .token] s ∧
      s.2.worker.tokens.buf = [] ∧ s.2.holders = 1 ∧ s.2.calls ≤ 1 := by
  have hrun : ∃ w s, newWorker Unit defaultConfig = some w ∧
      (Limited.lts idleExchange).Run ((), ⟨w, none⟩)
        [.worker (.handoff ⟨[1], [2]⟩), .worker (.pass ⟨[1], [2]⟩), .token] s ∧
      s.2.worker.tokens.buf = [] :=
    ⟨_, _, rfl, LTS.run_ofFun_iff.mpr rfl, rfl⟩
  obtain ⟨w, s, hw, hrun, hbuf⟩ := hrun
  obtain ⟨hcalls, hsum⟩ := worker_bounds_concurrency idleExchange defaultConfig w hw () _ s hrun
  have hmax : max 1 defaultConfig.numWorkers = 1 := rfl
  rw [hmax] at hcalls hsum
  rw [hbuf, List.length_nil] at hsum
  exact ⟨w, s, hw, hrun, hbuf, by omega, by omega⟩

end Conservation

end GoBlocks.Worker
