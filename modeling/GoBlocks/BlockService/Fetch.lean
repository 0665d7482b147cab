import GoBlocks.BlockService.GetBlocks
import GoBlocks.Blockstore.Atomic

/-!
# Retrieving blocks concurrently

One call of `GetBlocks` of a block service in offline mode. Its goroutine looks every
key up in the blockstore and sends the hits; then the goroutine of the offline exchange
looks the misses up once more and sends its hits to the first goroutine, which passes
them on. Meanwhile other clients change the blockstore, the consumer takes its time,
and the context may be cancelled. Per key, what was delivered and what is still on its
way never exceeds the occurrences of the key, and only a cancellation or a key that is
absent from the blockstore makes it less.
-/

namespace GoBlocks.BlockService

open Blockstore

/-- The goroutine of `offlineExchange.GetBlocks`. -/
inductive Remote where
  /-- At the head of its loop. -/
  | looping (rest : List Key)
  /-- In the `select` after a miss. -/
  | missed (rest : List Key)
  /-- In the `select` with a hit to send. -/
  | sending (hit : Block) (rest : List Key)
  /-- The goroutine returned and closed its channel. -/
  | closed

/-- The steps of that goroutine on its own. -/
inductive RemoteEvent where
  /-- `e.bs.Get(k)`. -/
  | get
  /-- The `default` after a miss. -/
  | proceed
  /-- `<-ctx.Done()`. -/
  | abort
  /-- The loop is over. -/
  | finish

/-- One step of the goroutine of the offline exchange. -/
def Remote.next (env : HashEnv) (d : Ds.KeyMap) (cancelled : Bool) :
    RemoteEvent → Remote → Option Remote
  | .get, .looping (k :: rest) =>
    match ((mapStore env).get k d).1 with
    | .ok hit => some (.sending hit rest)
    | .error _ => some (.missed rest)
  -- The `default` is taken only if the context is not done.
  | .proceed, .missed rest => if cancelled then none else some (.looping rest)
  | .abort, .missed _ | .abort, .sending _ _ => if cancelled then some .closed else none
  | .finish, .looping [] => some .closed
  | _, _ => none

/-- What the steps of that goroutine do. -/
inductive Remote.Step (env : HashEnv) (d : Ds.KeyMap) (cancelled : Bool) : Remote → Remote → Prop
  | hit {k : Key} {rest : List Key} {hit : Block} (hget : ((mapStore env).get k d).1 = .ok hit) :
    Step env d cancelled (.looping (k :: rest)) (.sending hit rest)
  | miss {k : Key} {rest : List Key} {err : Err} (hget : ((mapStore env).get k d).1 = .error err) :
    Step env d cancelled (.looping (k :: rest)) (.missed rest)
  | proceed {rest : List Key} : Step env d cancelled (.missed rest) (.looping rest)
  | abort {r : Remote} (hcancelled : cancelled = true) : Step env d cancelled r .closed
  | finish : Step env d cancelled (.looping []) .closed

/-- The step function takes such steps only. -/
theorem Remote.step_of_next {env : HashEnv} {d : Ds.KeyMap} {cancelled : Bool} {ev : RemoteEvent}
    {r r' : Remote} (h : Remote.next env d cancelled ev r = some r') :
    Step env d cancelled r r' := by
  unfold Remote.next at h
  split at h
  · split at h
    next hget =>
      cases h
      exact .hit hget
    next hget =>
      cases h
      exact .miss hget
  · split at h
    · cases h
    · cases h
      exact .proceed
  · obtain ⟨hcancelled, hr'⟩ := Option.ite_none_right_eq_some.mp h
    cases hr'
    exact .abort hcancelled
  · obtain ⟨hcancelled, hr'⟩ := Option.ite_none_right_eq_some.mp h
    cases hr'
    exact .abort hcancelled
  · cases h
    exact .finish
  · cases h

/-- The goroutine of `BlockService.GetBlocks`, with that of the exchange once it runs. -/
inductive Fetch where
  /-- At the head of the loop over the keys. -/
  | looping (rest misses : List Key)
  /-- In the `select` with a hit to send. -/
  | sending (hit : Block) (rest misses : List Key)
  /-- Waiting for a block of the exchange. -/
  | ranging (remote : Remote)
  /-- In the `select` with a block of the exchange to send. -/
  | forwarding (b : Block) (remote : Remote)
  /-- Returned because the context is done. -/
  | aborted (remote : Option Remote)
  /-- Returned because the exchange has closed its channel. -/
  | finished

/-- The goroutine returned and closed the output channel. -/
def Fetch.Closed : Fetch → Bool
  | .aborted _ | .finished => true
  | _ => false

/-- The goroutine of the exchange takes a step. -/
def Fetch.onRemote (f : Remote → Option Remote) : Fetch → Option Fetch
  | .ranging remote => (f remote).map .ranging
  | .forwarding b remote => (f remote).map (.forwarding b)
  | .aborted (some remote) => (f remote).map fun remote => .aborted (some remote)
  | _ => none

/-- Only the goroutine of the exchange takes the step. -/
inductive Fetch.OnRemote (f : Remote → Option Remote) : Fetch → Fetch → Prop
  | ranging {r r' : Remote} (hr : f r = some r') : OnRemote f (.ranging r) (.ranging r')
  | forwarding {b : Block} {r r' : Remote} (hr : f r = some r') :
    OnRemote f (.forwarding b r) (.forwarding b r')
  | aborted {r r' : Remote} (hr : f r = some r') :
    OnRemote f (.aborted (some r)) (.aborted (some r'))

/-- The step of the goroutine of the exchange is one of these. -/
theorem Fetch.onRemote_spec {f : Remote → Option Remote} {p p' : Fetch}
    (h : p.onRemote f = some p') : OnRemote f p p' := by
  unfold Fetch.onRemote at h
  split at h
  · obtain ⟨r', hr, rfl⟩ := Option.map_eq_some_iff.mp h
    exact .ranging hr
  · obtain ⟨r', hr, rfl⟩ := Option.map_eq_some_iff.mp h
    exact .forwarding hr
  · obtain ⟨r', hr, rfl⟩ := Option.map_eq_some_iff.mp h
    exact .aborted hr
  · cases h

/-- A call of `GetBlocks` among other clients of the blockstore. -/
structure FetchSystem (κ : Type) where
  /-- The raw datastore. -/
  store : Ds.KeyMap
  /-- The goroutines of the call. -/
  fetch : Fetch
  /-- The blocks that the consumer has received. -/
  delivered : List Block
  /-- The context is done. -/
  cancelled : Bool
  /-- The other clients of the blockstore. -/
  client : κ → Clients.Pc

/-- The steps of the system. -/
inductive FetchLabel (κ : Type) where
  /-- `s.Blockstore.Get(k)`. -/
  | get
  /-- The consumer receives the block that is being sent. -/
  | deliver
  /-- `<-ctx.Done()`. -/
  | abort
  /-- `s.Exchange.GetBlocks(ctx, misses)`. -/
  | ask
  /-- The two goroutines meet on the channel of the exchange. -/
  | pass
  /-- The channel of the exchange is closed. -/
  | finish
  /-- The goroutine of the exchange takes a step on its own. -/
  | remote (ev : RemoteEvent)
  /-- The context is cancelled. -/
  | cancel
  /-- Another client of the blockstore takes a step. -/
  | client (i : κ) (a : Clients.Act)

namespace FetchSystem

variable {κ : Type} [DecidableEq κ]

/-- One step of the system. -/
def next (env : HashEnv) (s : FetchSystem κ) : FetchLabel κ → Option (FetchSystem κ)
  | .get =>
    match s.fetch with
    | .looping (k :: rest) misses =>
      match ((mapStore env).get k s.store).1 with
      | .ok hit => some { s with fetch := .sending hit rest misses }
      | .error _ => some { s with fetch := .looping rest (misses ++ [k]) }
    | _ => none
  | .deliver =>
    match s.fetch with
    | .sending hit rest misses =>
      some { s with fetch := .looping rest misses, delivered := s.delivered ++ [hit] }
    | .forwarding b remote =>
      some { s with fetch := .ranging remote, delivered := s.delivered ++ [b] }
    | _ => none
  | .abort =>
    match s.fetch, s.cancelled with
    | .sending _ _ _, true => some { s with fetch := .aborted none }
    | .forwarding _ remote, true => some { s with fetch := .aborted (some remote) }
    | _, _ => none
  | .ask =>
    match s.fetch with
    | .looping [] misses => some { s with fetch := .ranging (.looping misses) }
    | _ => none
  | .pass =>
    match s.fetch with
    | .ranging (.sending hit rest) => some { s with fetch := .forwarding hit (.looping rest) }
    | _ => none
  | .finish =>
    match s.fetch with
    | .ranging .closed => some { s with fetch := .finished }
    | _ => none
  | .remote ev =>
    (s.fetch.onRemote (Remote.next env s.store s.cancelled ev)).map fun fetch =>
      { s with fetch := fetch }
  | .cancel => some { s with cancelled := true }
  | .client i a =>
    (Clients.client env s.store (s.client i) a).map fun r =>
      { s with store := r.1, client := Function.update s.client i r.2 }

/-- What the steps of the system do. -/
inductive Step (env : HashEnv) (s : FetchSystem κ) : FetchLabel κ → FetchSystem κ → Prop
  | hit {k : Key} {rest misses : List Key} {hit : Block}
    (hfetch : s.fetch = .looping (k :: rest) misses)
    (hget : ((mapStore env).get k s.store).1 = .ok hit) :
    Step env s .get { s with fetch := .sending hit rest misses }
  | miss {k : Key} {rest misses : List Key} {err : Err}
    (hfetch : s.fetch = .looping (k :: rest) misses)
    (hget : ((mapStore env).get k s.store).1 = .error err) :
    Step env s .get { s with fetch := .looping rest (misses ++ [k]) }
  | deliver {hit : Block} {rest misses : List Key} (hfetch : s.fetch = .sending hit rest misses) :
    Step env s .deliver { s with fetch := .looping rest misses, delivered := s.delivered ++ [hit] }
  | forward {b : Block} {remote : Remote} (hfetch : s.fetch = .forwarding b remote) :
    Step env s .deliver { s with fetch := .ranging remote, delivered := s.delivered ++ [b] }
  | abort {remote : Option Remote} (hcancelled : s.cancelled = true) :
    Step env s .abort { s with fetch := .aborted remote }
  | ask {misses : List Key} (hfetch : s.fetch = .looping [] misses) :
    Step env s .ask { s with fetch := .ranging (.looping misses) }
  | pass {hit : Block} {rest : List Key} (hfetch : s.fetch = .ranging (.sending hit rest)) :
    Step env s .pass { s with fetch := .forwarding hit (.looping rest) }
  | finish (hfetch : s.fetch = .ranging .closed) : Step env s .finish { s with fetch := .finished }
  | remote {ev : RemoteEvent} {fetch : Fetch}
    (hfetch : s.fetch.onRemote (Remote.next env s.store s.cancelled ev) = some fetch) :
    Step env s (.remote ev) { s with fetch := fetch }
  | cancel : Step env s .cancel { s with cancelled := true }
  | client {i : κ} {a : Clients.Act} {r : Ds.KeyMap × Clients.Pc}
    (hclient : Clients.client env s.store (s.client i) a = some r) :
    Step env s (.client i a) { s with store := r.1, client := Function.update s.client i r.2 }

/-- The step function takes such steps only. -/
theorem step_of_next {env : HashEnv} {s t : FetchSystem κ} {l : FetchLabel κ}
    (h : next env s l = some t) : Step env s l t := by
  cases l with
  | get =>
    simp only [next] at h
    split at h
    next hfetch =>
      split at h
      next hget =>
        cases h
        exact .hit hfetch hget
      next hget =>
        cases h
        exact .miss hfetch hget
    next => cases h
  | deliver =>
    simp only [next] at h
    split at h
    next hfetch =>
      cases h
      exact .deliver hfetch
    next hfetch =>
      cases h
      exact .forward hfetch
    next => cases h
  | abort =>
    simp only [next] at h
    split at h
    next hcancelled =>
      cases h
      exact .abort hcancelled
    next hcancelled =>
      cases h
      exact .abort hcancelled
    next => cases h
  | ask =>
    simp only [next] at h
    split at h
    next hfetch =>
      cases h
      exact .ask hfetch
    next => cases h
  | pass =>
    simp only [next] at h
    split at h
    next hfetch =>
      cases h
      exact .pass hfetch
    next => cases h
  | finish =>
    simp only [next] at h
    split at h
    next hfetch =>
      cases h
      exact .finish hfetch
    next => cases h
  | remote ev =>
    obtain ⟨fetch, hfetch, rfl⟩ := Option.map_eq_some_iff.mp h
    exact .remote hfetch
  | cancel =>
    cases h
    exact .cancel
  | client i a =>
    obtain ⟨r, hclient, rfl⟩ := Option.map_eq_some_iff.mp h
    exact .client hclient

/-- The call with the other clients as a transition system. -/
def lts (env : HashEnv) (κ : Type) [DecidableEq κ] : LTS (FetchSystem κ) (FetchLabel κ) :=
  .ofFun (next env)

/-- The start of a call for the keys, over any contents and whatever the others do. -/
def start (d : Ds.KeyMap) (ks : List Key) (client : κ → Clients.Pc) : FetchSystem κ :=
  ⟨d, .looping ks [], [], false, client⟩

end FetchSystem

end GoBlocks.BlockService
