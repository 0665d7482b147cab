import GoBlocks.Blockstore.Atomic
import GoBlocks.Worker.Basic

/-!
# The block service in offline mode

A block service over a blockstore and the offline exchange of the same blockstore.
`AddBlock` puts the block and then hands it to the background worker, and the
worker calls `HasBlock` of the exchange, which puts the block once more. Clients
run `AddBlock`, `GetBlock` and `DeleteBlock` of the service and `Put` of the
blockstore; every raw datastore call is one atomic step, and the steps of the
clients and of the worker interleave freely.
-/

namespace GoBlocks

open Blockstore

/-- `offline.Exchange`: `HasBlock` puts the block into the blockstore. -/
def offlineExchange : Exchange Ds.KeyMap Putting where
  hasBlock b := .has b
  step d p := ((p.step blocksDatastore d).1, (p.step blocksDatastore d).2.getRight?)

namespace BlockService

/-- The worker configuration of the block service. -/
def wc : Worker.Config := ⟨25, 0, 0⟩

/-- The calls of the clients. -/
inductive Op where
  | addBlock (b : Block)
  | getBlock (k : Key)
  | deleteBlock (k : Key)
  /-- `Put` on the blockstore itself. -/
  | put (b : Block)

/-- The results of the calls. -/
inductive Result where
  | addBlock (k : Key) (err : Option Err)
  | getBlock (r : Except Err Block)
  | deleteBlock (r : Except Err Unit)
  | put (r : Except Err Unit)

/-- Where a client stands. -/
inductive Pc where
  | idle
  /-- `AddBlock` in `Blockstore.Put`. -/
  | adding (b : Block) (p : Putting)
  /-- `AddBlock` in `worker.HasBlock`. -/
  | offering (b : Block)
  /-- `GetBlock`, about to ask the blockstore. -/
  | getting (k : Key)
  /-- `GetBlock`, about to ask the exchange. -/
  | fetching (k : Key)
  /-- `DeleteBlock`, about to call `Delete` of the datastore. -/
  | deleting (k : Key)
  /-- `Put` on the blockstore. -/
  | putting (p : Putting)
  /-- The last call returned. -/
  | returned (r : Result)

/-- The start of a call. -/
def Op.start : Op → Pc
  | .addBlock b => .adding b (.has b)
  | .getBlock k => .getting k
  | .deleteBlock k => .deleting k
  | .put b => .putting (.has b)

/-- No call is in progress. -/
def Pc.Resting : Pc → Bool
  | .idle | .returned _ => true
  | _ => false

/-- A raw datastore call of a client. -/
def Pc.raw (env : HashEnv) (d : Ds.KeyMap) : Pc → Option (Ds.KeyMap × Pc)
  | .adding b p =>
    match p.step blocksDatastore d with
    | (d', .inr p') => some (d', .adding b p')
    | (d', .inl (.ok ())) => some (d', .offering b)
    | (d', .inl (.error err)) => some (d', .returned (.addBlock b.key (some err)))
  | .putting p =>
    match p.step blocksDatastore d with
    | (d', .inr p') => some (d', .putting p')
    | (d', .inl r) => some (d', .returned (.put r))
  | .getting k =>
    match (mapStore env).get k d with
    | (.ok b, d') => some (d', .returned (.getBlock (.ok b)))
    | (.error .notFound, d') => some (d', .fetching k)
    | (.error _, d') => some (d', .returned (.getBlock (.error .blockserviceNotFound)))
  | .fetching k =>
    some (((mapStore env).get k d).2, .returned (.getBlock ((mapStore env).get k d).1))
  | .deleting k => some (((mapStore env).deleteBlock k d).2,
      .returned (.deleteBlock ((mapStore env).deleteBlock k d).1))
  | .idle | .offering _ | .returned _ => none

/-- A block service with its blockstore and its clients. -/
structure System (ι : Type) where
  /-- The raw datastore. -/
  store : Ds.KeyMap
  /-- The background worker. -/
  worker : Worker.State Putting
  /-- The clients. -/
  client : ι → Pc

/-- `New(bs, offline.Exchange(bs))` over the given contents. -/
def new (ι : Type) (d : Ds.KeyMap) : Option (System ι) :=
  (Worker.newWorker Putting wc).map fun w => ⟨d, w, fun _ => .idle⟩

/-- The steps of the system. -/
inductive Label (ι : Type) where
  /-- A client starts a call. -/
  | start (i : ι) (op : Op)
  /-- A client makes a raw datastore call. -/
  | raw (i : ι)
  /-- `worker.HasBlock` of a client sends its block into the buffer of `added`. -/
  | send (i : ι)
  /-- `worker.HasBlock` of a client hands its block to the client worker loop. -/
  | handoff (i : ι)
  /-- `worker.HasBlock` of a client finds the worker closed. -/
  | refuse (i : ι)
  /-- The worker takes a step of its own. -/
  | worker (e : Worker.Event)

/-- The event needs a client of the worker. -/
def OfClient : Worker.Event → Bool
  | .send _ | .handoff _ => true
  | _ => false

variable {ι : Type} [DecidableEq ι]

/-- A client offers its block to the worker, which takes it with the given event. -/
def offer (s : System ι) (i : ι) (event : Block → Worker.Event) : Option (System ι) :=
  match s.client i with
  | .offering b => (Worker.next offlineExchange (s.store, s.worker) (event b)).map fun r =>
      ⟨r.1, r.2, Function.update s.client i (.returned (.addBlock b.key none))⟩
  | _ => none

/-- One step of the system. -/
def next (env : HashEnv) (s : System ι) : Label ι → Option (System ι)
  | .start i op =>
    if (s.client i).Resting then some { s with client := Function.update s.client i op.start }
    else none
  | .raw i => ((s.client i).raw env s.store).map fun r =>
      { s with store := r.1, client := Function.update s.client i r.2 }
  | .send i => offer s i .send
  | .handoff i => offer s i .handoff
  | .refuse i =>
    match s.client i, s.worker.closed with
    | .offering _, true =>
      some { s with
        client := Function.update s.client i (.returned (.addBlock [] (some .blockserviceClosed))) }
    | _, _ => none
  | .worker e =>
    if OfClient e then none
    else (Worker.next offlineExchange (s.store, s.worker) e).map fun r =>
      { s with store := r.1, worker := r.2 }

/-- The block service with its clients as a transition system. -/
def lts (env : HashEnv) (ι : Type) [DecidableEq ι] : LTS (System ι) (Label ι) :=
  .ofFun (next env)

end BlockService

end GoBlocks
