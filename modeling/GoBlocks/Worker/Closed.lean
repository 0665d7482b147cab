import GoBlocks.Lib.Closing
import GoBlocks.Worker.Basic

/-!
# Closing a worker

Clients call `HasBlock` of a worker, which waits until the block goes into `added` or
the worker is closed, and others call `Close`. When `Close` has returned, the client
worker loop is gone, so nothing is handed over to it any more. A buffer of `added`
remains, and as long as there is room in it, the `select` of `HasBlock` may pick the
send.
-/

namespace GoBlocks.Worker

/-- Where a client of `HasBlock` stands. -/
inductive Client where
  | idle
  /-- In the `select` of `HasBlock`. -/
  | offering (b : Block)
  /-- `HasBlock` returned `nil`. -/
  | accepted
  /-- `HasBlock` returned the error that the worker is closed. -/
  | refused
  deriving DecidableEq

/-- No call is in progress. -/
def Client.Resting : Client → Bool
  | .offering _ => false
  | _ => true

/-- A worker with its clients and the state it shares with others. -/
structure Pool (G X ι : Type) where
  /-- The state shared with others. -/
  shared : G
  /-- The worker. -/
  worker : State X
  /-- The clients. -/
  client : ι → Client

/-- The steps of a worker and its clients. -/
inductive PoolLabel (ι : Type) where
  /-- A client calls `HasBlock`. -/
  | start (i : ι) (b : Block)
  /-- `HasBlock` sends the block into the buffer of `added`. -/
  | send (i : ι) (b : Block)
  /-- `HasBlock` hands the block to the client worker loop. -/
  | handoff (i : ι) (b : Block)
  /-- `HasBlock` finds the worker closed. -/
  | refuse (i : ι)
  /-- The worker takes a step of its own. -/
  | worker (ev : Event)

namespace Pool

variable {G X ι : Type} [DecidableEq ι] (e : Exchange G X)

/-- The worker takes a step, and then the clients stand as given. -/
def workerStep (s : Pool G X ι) (ev : Event) (client : ι → Client) : Option (Pool G X ι) :=
  (Worker.next e (s.shared, s.worker) ev).map fun r => ⟨r.1, r.2, client⟩

/-- One step. -/
def next (s : Pool G X ι) : PoolLabel ι → Option (Pool G X ι)
  | .start i b =>
    if (s.client i).Resting then
      some { s with client := Function.update s.client i (.offering b) }
    else none
  | .send i b =>
    if s.client i = .offering b then
      workerStep e s (.send b) (Function.update s.client i .accepted)
    else none
  | .handoff i b =>
    if s.client i = .offering b then
      workerStep e s (.handoff b) (Function.update s.client i .accepted)
    else none
  | .refuse i =>
    match s.client i, s.worker.closed with
    | .offering _, true => some { s with client := Function.update s.client i .refused }
    | _, _ => none
  -- Blocks come from the clients only.
  | .worker (.send _) | .worker (.handoff _) => none
  | .worker ev => workerStep e s ev s.client

/-- A worker with its clients and callers of `Close`. -/
def lts (ι κ : Type) [DecidableEq ι] [DecidableEq κ] :
    LTS (Pool G X ι × (κ → Closer)) (Closing κ (PoolLabel ι)) :=
  Closing.lts (next e) (.worker .close) (fun s => s.worker.closed) κ

/-- Nobody has called anything. -/
def init (ι κ : Type) (g : G) (w : State X) : Pool G X ι × (κ → Closer) :=
  (⟨g, w, fun _ => .idle⟩, fun _ => .idle)

end Pool

/-- A `HasBlock` call that starts after a `Close` call has returned does not return
`nil`. -/
def RefusesLate {G X : Type} (e : Exchange G X) (ι κ : Type) [DecidableEq ι] [DecidableEq κ] (g : G)
    (w : State X) : Prop :=
  ∀ pre i b post t, (Pool.lts e ι κ).Run (Pool.init ι κ g w) (pre ++ .own (.start i b) :: post) t →
    (∃ j, .returns j ∈ pre) → t.1.client i ≠ .accepted

/-- What shutting down leaves of a worker: `added` has its capacity, and the worker is
closed only without its client worker loop. -/
structure Shutting (cap : ℕ) {X : Type} (w : State X) : Prop where
  cap_eq : w.added.cap = cap
  exited : w.closed → w.loop = .exited

/-- `NewWorker` accepts the buffer sizes that are not negative. -/
theorem exists_newWorker (X : Type) {c : Config} (hclient : 0 ≤ c.clientBufferSize)
    (hworker : 0 ≤ c.workerBufferSize) : ∃ w, newWorker X c = some w := by
  simp [newWorker, Chan.make, Int.not_lt.mpr hclient, Int.not_lt.mpr hworker]

/-- A new worker has the capacity of its configuration. -/
theorem shutting_newWorker {X : Type} {c : Config} {w : State X} (h : newWorker X c = some w) :
    Shutting c.clientBufferSize.toNat w := by
  unfold newWorker at h
  split at h
  next hadded hworkerChan =>
    cases h
    exact ⟨(Chan.make_spec hadded).1, fun hclosed => by cases hclosed⟩
  next => cases h

section Worker

variable {G X : Type} {e : Exchange G X} {s t : G × State X} {l : Event} {n : ℕ}

/-- A loop that has returned takes no step. -/
theorem loop_ne_exited {loop loop' : ClientLoop} {le : LoopEvent} (h : loop.next le = some loop') :
    loop ≠ .exited := by
  rintro rfl
  cases h

/-- One step of a worker that shuts down. -/
theorem Shutting.step (hs : Shutting n s.2) (h : Worker.next e s l = some t) : Shutting n t.2 := by
  cases step_of_next e h with
  | send hsend => exact ⟨(Chan.cap_of_send hsend).trans hs.cap_eq, hs.exited⟩
  | recv hrecv hloop =>
    refine ⟨(Chan.cap_of_recv hrecv).trans hs.cap_eq, fun hclosed => ?_⟩
    exact absurd (hs.exited hclosed) (loop_ne_exited hloop)
  | handoff _ hloop | tick hloop | push _ hloop | pass _ _ hloop | loopExit _ hloop =>
    exact ⟨hs.cap_eq, fun hclosed => absurd (hs.exited hclosed) (loop_ne_exited hloop)⟩
  | closed hloop hlimiter hclosing hchildren => exact ⟨hs.cap_eq, fun _ => hloop⟩
  | _ => exact ⟨hs.cap_eq, hs.exited⟩

/-- A closed worker stays closed. -/
theorem closed_step (h : Worker.next e s l = some t) (hclosed : s.2.closed) : t.2.closed := by
  cases step_of_next e h with
  | closed hloop hlimiter hclosing hchildren => rfl
  | _ => exact hclosed

/-- A closed worker without a buffer for its clients takes no block. -/
theorem Shutting.refuses (hs : Shutting 0 s.2) (hclosed : s.2.closed) (b : Block) :
    Worker.next e s (.send b) = none ∧ Worker.next e s (.handoff b) = none := by
  have hcap := hs.cap_eq
  have hloop := hs.exited hclosed
  constructor
  · simp [Worker.next, Chan.send, hcap]
  · simp [Worker.next, hloop, ClientLoop.next]

end Worker

namespace Pool

variable {G X ι κ : Type} [DecidableEq ι] [DecidableEq κ] {e : Exchange G X}

/-- What a step of a worker with its clients can do: the worker is left alone and no
block is accepted, or the worker takes a step with the block of a client or without
one. -/
theorem next_spec {s t : Pool G X ι} {l : PoolLabel ι} (h : next e s l = some t) :
    (t.worker = s.worker ∧ ∀ i, t.client i = .accepted → s.client i = .accepted) ∨
    ∃ ev, Worker.next e (s.shared, s.worker) ev = some (t.shared, t.worker) ∧
      ((∃ b, ev = .send b ∨ ev = .handoff b) ∨ t.client = s.client) := by
  have hworker : ∀ {ev client}, workerStep e s ev client = some t →
      Worker.next e (s.shared, s.worker) ev = some (t.shared, t.worker) ∧ t.client = client := by
    intro ev client hstep
    obtain ⟨r, hr, rfl⟩ := Option.map_eq_some_iff.mp hstep
    exact ⟨hr, rfl⟩
  have hupdate : ∀ {i client}, client ≠ .accepted → ∀ i',
      Function.update s.client i client i' = .accepted → s.client i' = .accepted := by
    intro i client hne i' hi'
    by_cases heq : i' = i
    · rw [heq, Function.update_self] at hi'
      exact absurd hi' hne
    · rwa [Function.update_of_ne heq] at hi'
  cases l with
  | start i b =>
    obtain ⟨-, ht⟩ := Option.ite_none_right_eq_some.mp h
    cases ht
    exact .inl ⟨rfl, hupdate (by simp)⟩
  | send i b =>
    obtain ⟨-, ht⟩ := Option.ite_none_right_eq_some.mp h
    exact .inr ⟨_, (hworker ht).1, .inl ⟨b, .inl rfl⟩⟩
  | handoff i b =>
    obtain ⟨-, ht⟩ := Option.ite_none_right_eq_some.mp h
    exact .inr ⟨_, (hworker ht).1, .inl ⟨b, .inr rfl⟩⟩
  | refuse i =>
    simp only [next] at h
    split at h
    · cases h
      exact .inl ⟨rfl, hupdate (by simp)⟩
    · cases h
  | worker ev =>
    cases ev with
    | send b | handoff b => cases h
    | _ => exact .inr ⟨_, (hworker h).1, .inr (hworker h).2⟩

/-- A step keeps what a worker that shuts down satisfies. -/
theorem shutting_next {n : ℕ} {s t : Pool G X ι} {l : PoolLabel ι} (h : next e s l = some t)
    (hs : Shutting n s.worker) : Shutting n t.worker := by
  rcases next_spec h with ⟨hworker, -⟩ | ⟨ev, hev, -⟩
  · rwa [hworker]
  · exact Shutting.step hs hev

/-- A closed worker stays closed. -/
theorem closed_next {s t : Pool G X ι} {l : PoolLabel ι} (h : next e s l = some t)
    (hs : s.worker.closed) : t.worker.closed := by
  rcases next_spec h with ⟨hworker, -⟩ | ⟨ev, hev, -⟩
  · rwa [hworker]
  · exact closed_step hev hs

/-- A closed worker without a buffer for its clients accepts nothing. -/
theorem accepted_next {s t : Pool G X ι} {l : PoolLabel ι} (h : next e s l = some t)
    (hs : Shutting 0 s.worker) (hclosed : s.worker.closed) {i : ι}
    (hi : s.client i ≠ .accepted) : t.client i ≠ .accepted := by
  rcases next_spec h with ⟨-, hclient⟩ | ⟨ev, hev, ⟨b, rfl | rfl⟩ | hclient⟩
  · exact fun hacc => hi (hclient i hacc)
  · have hnone : Worker.next e (s.shared, s.worker) (.send b) = none := (hs.refuses hclosed b).1
    rw [hnone] at hev
    cases hev
  · have hnone : Worker.next e (s.shared, s.worker) (.handoff b) = none := (hs.refuses hclosed b).2
    rw [hnone] at hev
    cases hev
  · rwa [hclient]

end Pool

section Late

variable {G X ι κ : Type} [DecidableEq ι] [DecidableEq κ] {e : Exchange G X} {c : Config} {g : G}
  {w : State X}

/-- Without a buffer for the clients, late calls are refused. -/
theorem refusesLate_of_unbuffered (hw : newWorker X c = some w) (hc : c.clientBufferSize = 0) :
    RefusesLate e ι κ g w := by
  rintro pre i b post t hrun ⟨j, hj⟩
  have hcap : Shutting 0 (Pool.init ι κ g w).1.worker := by
    have hnew := shutting_newWorker hw
    rwa [hc] at hnew
  have hstart : ∀ s t : Pool G X ι, Pool.next e s (.start i b) = some t →
      t.client i ≠ .accepted := by
    intro s t hstep
    obtain ⟨-, ht⟩ := Option.ite_none_right_eq_some.mp hstep
    cases ht
    simp
  exact Closing.late_invariant hrun hj hcap (fun _ _ _ => Pool.shutting_next)
    (fun _ _ _ => Pool.closed_next)
    (fun _ _ _ hstep hs hclosed hi => Pool.accepted_next hstep hs hclosed hi) hstart

/-- The steps by which one caller closes an idle worker. -/
def shutdown (j : κ) : List (Closing κ (PoolLabel ι)) :=
  [.call j, .begins j, .own (.worker .loopExit), .own (.worker .limiterExit),
    .own (.worker .closed), .returns j]

/-- With a buffer for the clients, a late call may be accepted. -/
theorem not_refusesLate_of_buffered (hw : newWorker X c = some w) (hc : 0 < c.clientBufferSize)
    (i : ι) (j : κ) (b : Block) : ¬ RefusesLate e ι κ g w := by
  intro h
  have hrun : ∃ t, (Pool.lts e ι κ).Run (Pool.init ι κ g w)
      (shutdown j ++ .own (.start i b) :: [.own (.send i b)]) t ∧ t.1.client i = .accepted := by
    unfold newWorker at hw
    split at hw
    next added workerChan hadded _ =>
      cases hw
      obtain ⟨hcap, hbuf, hclosed⟩ := Chan.make_spec hadded
      have hroom : 0 < added.cap := by omega
      simp only [Pool.lts, Closing.lts, LTS.run_ofFun_iff]
      simp [LTS.exec, shutdown, Pool.init, Closing.next, Closer.Resting, Pool.next,
        Pool.workerStep, Worker.next, ClientLoop.start, ClientLoop.iterate, ClientLoop.next,
        Client.Resting, Chan.send, hbuf, hroom, hclosed]
    next => cases hw
  obtain ⟨t, ht, hi⟩ := hrun
  exact h _ i b _ t ht ⟨j, by simp [shutdown]⟩ hi

end Late

end GoBlocks.Worker
