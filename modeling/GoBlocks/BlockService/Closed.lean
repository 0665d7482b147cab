import GoBlocks.BlockService.Basic
import GoBlocks.Worker.Accepted
import GoBlocks.Worker.Closed

/-!
# Adding blocks to a closed block service

`AddBlock` over any blockstore and any exchange puts the block and then offers it to
the worker, and `Close` of the block service closes the worker. The worker of a block
service has no buffer for its clients, so when `Close` has returned, `AddBlock` fails.
A worker with such a buffer may go on accepting blocks.
-/

namespace GoBlocks.BlockService

open Worker (Pool PoolLabel)

/-- Where a client of `AddBlock` stands. -/
inductive Adder where
  | idle
  /-- About to call `Blockstore.Put`. -/
  | putting (b : Block)
  /-- In `worker.HasBlock`. -/
  | offering (b : Block)
  /-- `AddBlock` returned. -/
  | returned (k : Key) (err : Option Err)

/-- No call is in progress. -/
def Adder.Resting : Adder → Bool
  | .idle | .returned _ _ => true
  | _ => false

/-- A block service with the clients of `AddBlock`. -/
structure Service (G X ι : Type) where
  /-- The worker with the calls of `HasBlock`. -/
  pool : Pool G X ι
  /-- The calls of `AddBlock`. -/
  adder : ι → Adder

/-- The steps of a block service. -/
inductive ServiceLabel (G ι : Type) where
  /-- A client calls `AddBlock`. -/
  | addBlock (i : ι) (b : Block)
  /-- `AddBlock` calls `Blockstore.Put` and then `worker.HasBlock`. -/
  | put (i : ι)
  /-- `worker.HasBlock` returned, and so does `AddBlock`. -/
  | returns (i : ι)
  /-- A step of the worker or in a call of `HasBlock`. -/
  | pool (l : PoolLabel ι)
  /-- Others change the shared state, which holds the blockstore. -/
  | other (g : G)

namespace Service

variable {G X ι : Type} [DecidableEq ι] (e : Exchange G X) (put : Block → G → Except Err Unit × G)

/-- One step. -/
def next (s : Service G X ι) : ServiceLabel G ι → Option (Service G X ι)
  | .addBlock i b =>
    if (s.adder i).Resting then some { s with adder := Function.update s.adder i (.putting b) }
    else none
  | .put i =>
    match s.adder i with
    | .putting b =>
      match put b s.pool.shared with
      | (.error err, g) => some ⟨{ s.pool with shared := g },
          Function.update s.adder i (.returned b.key (some err))⟩
      | (.ok (), g) => (Pool.next e { s.pool with shared := g } (.start i b)).map fun pool =>
          ⟨pool, Function.update s.adder i (.offering b)⟩
    | _ => none
  | .returns i =>
    match s.adder i, s.pool.client i with
    | .offering b, .accepted =>
      some { s with adder := Function.update s.adder i (.returned b.key none) }
    | .offering _, .refused =>
      some { s with
        adder := Function.update s.adder i (.returned [] (some .blockserviceClosed)) }
    | _, _ => none
  -- `HasBlock` is called by `AddBlock` only.
  | .pool (.start _ _) => none
  | .pool l => (Pool.next e s.pool l).map fun pool => { s with pool := pool }
  | .other g => some { s with pool := { s.pool with shared := g } }

/-- A block service with its clients and the callers of `Close`. -/
def lts (ι κ : Type) [DecidableEq ι] [DecidableEq κ] :
    LTS (Service G X ι × (κ → Closer)) (Closing κ (ServiceLabel G ι)) :=
  Closing.lts (next e put) (.pool (.worker .close)) (fun s => s.pool.worker.closed) κ

/-- Nobody has called anything. -/
def init (ι κ : Type) (g : G) (w : Worker.State X) : Service G X ι × (κ → Closer) :=
  (⟨⟨g, w, fun _ => .idle⟩, fun _ => .idle⟩, fun _ => .idle)

end Service

/-- An `AddBlock` call that starts after a `Close` call has returned does not succeed. -/
def AddsNothingLate {G X : Type} (e : Exchange G X) (put : Block → G → Except Err Unit × G)
    (ι κ : Type) [DecidableEq ι] [DecidableEq κ] (g : G) (w : Worker.State X) : Prop :=
  ∀ pre i b post t,
    (Service.lts e put ι κ).Run (Service.init ι κ g w) (pre ++ .own (.addBlock i b) :: post) t →
    (∃ j, .returns j ∈ pre) → ∀ k, t.1.adder i ≠ .returned k none

namespace Service

variable {G X ι κ : Type} [DecidableEq ι] [DecidableEq κ] {e : Exchange G X}
  {put : Block → G → Except Err Unit × G} {s t : Service G X ι} {l : ServiceLabel G ι}

/-- The call of `AddBlock` has not succeeded and is not about to. -/
def Unadded : Adder → Worker.Client → Prop
  | .offering _, client => client ≠ .accepted
  | .returned _ none, _ => False
  | _, _ => True

/-- A call that is not about to succeed needs `HasBlock` to return `nil`. -/
theorem Unadded.mono {a : Adder} {client client' : Worker.Client} (h : Unadded a client)
    (hclient : client ≠ .accepted → client' ≠ .accepted) : Unadded a client' := by
  cases a with
  | offering b => exact hclient h
  | returned k err =>
    cases err with
    | none => exact h
    | some err => trivial
  | _ => trivial

/-- What the steps of a block service do. -/
inductive Step (e : Exchange G X) : Service G X ι → Service G X ι → Prop
  /-- No call of `HasBlock` takes part, and `AddBlock` does not succeed. -/
  | quiet {s : Service G X ι} {g : G} {i : ι} {a : Adder} (ha : ∀ client, Unadded a client) :
    Step e s ⟨{ s.pool with shared := g }, Function.update s.adder i a⟩
  /-- `AddBlock` succeeds because `HasBlock` returned `nil`. -/
  | succeed {s : Service G X ι} {i : ι} {b : Block} (hadder : s.adder i = .offering b)
    (hclient : s.pool.client i = .accepted) :
    Step e s { s with adder := Function.update s.adder i (.returned b.key none) }
  /-- `AddBlock` calls `HasBlock`. -/
  | offer {s : Service G X ι} {g : G} {pool : Pool G X ι} {i : ι} {b : Block}
    (hpool : Pool.next e { s.pool with shared := g } (.start i b) = some pool) :
    Step e s ⟨pool, Function.update s.adder i (.offering b)⟩
  /-- A step of the worker or in a call of `HasBlock`. -/
  | pool {s : Service G X ι} {pool : Pool G X ι} {l : PoolLabel ι}
    (hpool : Pool.next e s.pool l = some pool) : Step e s { s with pool := pool }
  /-- Others change the shared state. -/
  | other {s : Service G X ι} {g : G} : Step e s { s with pool := { s.pool with shared := g } }

/-- The step function takes such steps only. -/
theorem step_of_next (h : next e put s l = some t) : Step e s t := by
  cases l with
  | addBlock i b =>
    obtain ⟨-, ht⟩ := Option.ite_none_right_eq_some.mp h
    cases ht
    exact .quiet fun _ => trivial
  | put i =>
    simp only [next] at h
    split at h
    next b hadder =>
      split at h
      · cases h
        exact .quiet fun _ => trivial
      · obtain ⟨pool, hpool, rfl⟩ := Option.map_eq_some_iff.mp h
        exact .offer hpool
    next => cases h
  | returns i =>
    simp only [next] at h
    split at h
    next hadder hclient =>
      cases h
      exact .succeed hadder hclient
    next =>
      cases h
      exact .quiet fun _ => trivial
    next => cases h
  | pool l =>
    cases l with
    | start i b => cases h
    | _ =>
      obtain ⟨pool, hpool, rfl⟩ := Option.map_eq_some_iff.mp h
      exact .pool hpool
  | other g =>
    cases h
    exact .other

/-- A step keeps what a worker that shuts down satisfies. -/
theorem shutting_next {n : ℕ} (h : next e put s l = some t)
    (hs : Worker.Shutting n s.pool.worker) : Worker.Shutting n t.pool.worker := by
  cases step_of_next h with
  | offer hpool | pool hpool => exact Pool.shutting_next hpool hs
  | _ => exact hs

/-- A closed worker stays closed. -/
theorem closed_next (h : next e put s l = some t) (hs : s.pool.worker.closed) :
    t.pool.worker.closed := by
  cases step_of_next h with
  | offer hpool | pool hpool => exact Pool.closed_next hpool hs
  | _ => exact hs

/-- With a closed worker that has no buffer for its clients, a call of `AddBlock` does not
come closer to success. -/
theorem unadded_next (h : next e put s l = some t) (hs : Worker.Shutting 0 s.pool.worker)
    (hclosed : s.pool.worker.closed) {i : ι} (hi : Unadded (s.adder i) (s.pool.client i)) :
    Unadded (t.adder i) (t.pool.client i) := by
  cases step_of_next h with
  | quiet ha =>
    simp only [Function.update_apply]
    split
    · exact ha _
    · exact hi
  | @succeed j b hadder hclient =>
    simp only [Function.update_apply]
    split
    next heq =>
      -- `HasBlock` has not returned `nil` to a late client.
      rw [heq, hadder] at hi
      exact absurd hclient hi
    next => exact hi
  | @offer g pool j b hpool =>
    simp only [Function.update_apply]
    split
    next heq =>
      obtain ⟨-, hstart⟩ := Option.ite_none_right_eq_some.mp hpool
      cases hstart
      simp [heq, Unadded]
    next => exact hi.mono (Pool.accepted_next hpool hs hclosed)
  | pool hpool => exact hi.mono (Pool.accepted_next hpool hs hclosed)
  | other => exact hi

end Service

/-- Without a buffer for the clients of the worker, late calls of `AddBlock` fail. -/
theorem addsNothingLate_of_unbuffered {G X ι κ : Type} [DecidableEq ι] [DecidableEq κ]
    {e : Exchange G X} {put : Block → G → Except Err Unit × G} {c : Worker.Config} {g : G}
    {w : Worker.State X} (hw : Worker.newWorker X c = some w) (hc : c.clientBufferSize = 0) :
    AddsNothingLate e put ι κ g w := by
  rintro pre i b post t hrun ⟨j, hj⟩ k hk
  have hcap : Worker.Shutting 0 (Service.init ι κ g w).1.pool.worker := by
    have hnew := Worker.shutting_newWorker hw
    rwa [hc] at hnew
  have hstart : ∀ s t : Service G X ι, Service.next e put s (.addBlock i b) = some t →
      Service.Unadded (t.adder i) (t.pool.client i) := by
    intro s t hstep
    obtain ⟨-, ht⟩ := Option.ite_none_right_eq_some.mp hstep
    cases ht
    simp [Service.Unadded]
  have hunadded := Closing.late_invariant hrun hj hcap (fun _ _ _ => Service.shutting_next)
    (fun _ _ _ => Service.closed_next)
    (fun _ _ _ hstep hs hclosed hi => Service.unadded_next hstep hs hclosed hi) hstart
  rwa [hk] at hunadded

/-- **A closed worker without a client buffer accepts nothing.** For every
configuration that `NewWorker` accepts, and every exchange, a `HasBlock` call that
starts after a `Close` call has returned never returns `nil`, in any interleaving, if
and only if the client buffer has size zero. The worker of a block service has no
client buffer, so an `AddBlock` call that starts after a `Close` call has returned
never succeeds, for every blockstore and exchange. -/
theorem closed_accepts_nothing_iff {G X : Type} (e : Exchange G X)
    (put : Block → G → Except Err Unit × G) (ι κ : Type) [DecidableEq ι] [DecidableEq κ]
    [Nonempty ι] [Nonempty κ] (c : Worker.Config) (hclient : 0 ≤ c.clientBufferSize)
    (hworker : 0 ≤ c.workerBufferSize) (g : G) :
    ((∀ w, Worker.newWorker X c = some w → Worker.RefusesLate e ι κ g w) ↔
      c.clientBufferSize = 0) ∧
    ∃ w, Worker.newWorker X wc = some w ∧ AddsNothingLate e put ι κ g w := by
  have hwc : wc.clientBufferSize = 0 := rfl
  obtain ⟨w, hw⟩ := Worker.exists_newWorker X (c := wc) le_rfl le_rfl
  refine ⟨⟨fun h => ?_, fun hc w hw => Worker.refusesLate_of_unbuffered hw hc⟩,
    w, hw, addsNothingLate_of_unbuffered hw hwc⟩
  by_contra hne
  obtain ⟨w, hw⟩ := Worker.exists_newWorker X hclient hworker
  obtain ⟨i⟩ := ‹Nonempty ι›
  obtain ⟨j⟩ := ‹Nonempty κ›
  exact Worker.not_refusesLate_of_buffered hw (by omega) i j ⟨[], []⟩ (h w hw)

/-- Late calls are refused with the default configuration. -/
theorem refusesLate_defaultConfig :
    ∃ w, Worker.newWorker Unit Worker.defaultConfig = some w ∧
      Worker.RefusesLate Worker.idleExchange Unit Unit () w :=
  ⟨_, rfl, (closed_accepts_nothing_iff Worker.idleExchange (fun _ _ => (.ok (), ())) Unit Unit
    Worker.defaultConfig le_rfl le_rfl ()).1.mpr rfl _ rfl⟩

/-- A worker with a client buffer of size one is closed, and when `Close` has returned,
a client calls `HasBlock`, which returns `nil`. -/
theorem accepted_after_close :
    ∃ w t, Worker.newWorker Unit ⟨1, 1, 0⟩ = some w ∧
      (Pool.lts Worker.idleExchange Unit Unit).Run (Pool.init Unit Unit () w)
        [.call (), .begins (), .own (.worker .loopExit), .own (.worker .limiterExit),
          .own (.worker .closed), .returns (), .own (.start () ⟨[1], [2]⟩),
          .own (.send () ⟨[1], [2]⟩)] t ∧
      t.1.client () = .accepted :=
  ⟨_, _, rfl, LTS.run_ofFun_iff.mpr rfl, rfl⟩

end GoBlocks.BlockService
