import GoBlocks.Lib.Channel
import GoBlocks.Worker.ClientLoop

/-!
# The worker

A worker provides blocks to an exchange in the background. Clients send blocks
on `added`; the client worker loop queues them and sends them on `workerChan`; the
limiter loop takes them from there and spawns a child process for each, as many at
a time as there are limiter tokens; and the child calls `HasBlock` of the exchange.
The exchange is a parameter: its `HasBlock` is a program of atomic steps over a
state that it shares with others.
-/

namespace GoBlocks

/-- `HasBlock` of an exchange as a program over a shared state `G`. -/
structure Exchange (G X : Type) where
  /-- The program for a block. -/
  hasBlock : Block → X
  /-- One atomic step, and what remains of the program unless it returned. -/
  step : G → X → G × Option X

namespace Worker

/-- `Config`. -/
structure Config where
  /-- The number of background workers that provide blocks to the exchange. -/
  numWorkers : ℤ
  /-- Clients can send up to this many blocks without blocking. -/
  clientBufferSize : ℤ
  /-- The buffer between the two loops. -/
  workerBufferSize : ℤ

/-- `DefaultConfig`. -/
def defaultConfig : Config := ⟨1, 0, 0⟩

/-- The limiter loop. -/
inductive LimiterLoop where
  /-- At the head of its `select`. -/
  | select
  /-- In `LimitedGo`, waiting for a token. -/
  | limited (b : Block)
  /-- The loop returned. -/
  | exited

/-- A child process of the limiter. -/
inductive Child (X : Type) where
  /-- Spawned, its function has not started. -/
  | spawned (b : Block)
  /-- In the call of `HasBlock`. -/
  | calling (b : Block) (x : X)
  /-- Its function returned, and its token has not been given back. -/
  | returned (b : Block)

/-- The state of a worker. -/
structure State (X : Type) where
  /-- Accepts blocks from clients. -/
  added : Chan Block
  /-- The client worker loop. -/
  loop : ClientLoop
  /-- The channel between the two loops. -/
  workerChan : Chan Block
  /-- The limiter loop. -/
  limiter : LimiterLoop
  /-- The tokens of the limiter. -/
  tokens : Chan Unit
  /-- The children that hold a token. -/
  children : List (Child X)
  /-- The process is closing. -/
  closing : Bool
  /-- The process is closed. -/
  closed : Bool

/-- The number of limiter tokens: `NewWorker` provides a sane default. -/
def Config.limit (c : Config) : ℕ := if c.numWorkers < 1 then 1 else c.numWorkers.toNat

/-- `NewWorker`, which panics for a negative buffer size. -/
def newWorker (X : Type) (c : Config) : Option (State X) :=
  match Chan.make Block c.clientBufferSize, Chan.make Block c.workerBufferSize with
  | some added, some workerChan =>
    some ⟨added, .start, workerChan, .select, .full c.limit (), [], false, false⟩
  | _, _ => none

/-- The atomic steps of a worker and its clients. -/
inductive Event where
  /-- A client sends a block into the buffer of `added`. -/
  | send (b : Block)
  /-- A client and the client worker loop meet on `added`. -/
  | handoff (b : Block)
  /-- The client worker loop receives from the buffer of `added`. -/
  | recv (b : Block)
  /-- The debug ticker fires. -/
  | tick
  /-- The client worker loop sends into the buffer of `workerChan`. -/
  | push (b : Block)
  /-- The two loops meet on `workerChan`. -/
  | pass (b : Block)
  /-- The limiter loop receives from the buffer of `workerChan`. -/
  | take (b : Block)
  /-- The limiter loop finds `workerChan` closed and returns. -/
  | drained
  /-- The limiter loop gets a token and spawns a child. -/
  | spawn
  /-- A child takes a step. -/
  | run (i : ℕ)
  /-- A child has closed, and its token is given back. -/
  | release (i : ℕ)
  /-- The process begins to close. -/
  | close
  /-- The client worker loop sees that its process is closing and returns. -/
  | loopExit
  /-- The limiter loop sees that its process is closing and returns. -/
  | limiterExit
  /-- All children of the process have closed, and so has the process. -/
  | closed

section Next

variable {G X : Type} (e : Exchange G X)

/-- One step of a child. -/
def Child.run (g : G) : Child X → Option (G × Child X)
  | .spawned b => some (g, .calling b (e.hasBlock b))
  | .calling b x =>
    match e.step g x with
    | (g', some x') => some (g', .calling b x')
    | (g', none) => some (g', .returned b)
  | .returned _ => none

/-- The function of the child has returned. -/
def Child.Returned : Child X → Bool
  | .returned _ => true
  | _ => false

/-- One step of a worker with the state it shares with others. -/
def next (s : G × State X) : Event → Option (G × State X)
  | .send b => (s.2.added.send b).map fun added => (s.1, { s.2 with added := added })
  | .handoff b =>
    if s.2.added.CanMeet then
      (s.2.loop.next (.recv b)).map fun loop => (s.1, { s.2 with loop := loop })
    else none
  | .recv b =>
    match s.2.added.recv with
    | some (b', added) =>
      if b' = b then
        (s.2.loop.next (.recv b)).map fun loop =>
          (s.1, { s.2 with added := added, loop := loop })
      else none
    | none => none
  | .tick => (s.2.loop.next .tick).map fun loop => (s.1, { s.2 with loop := loop })
  | .push b =>
    match s.2.workerChan.send b with
    | some workerChan =>
      (s.2.loop.next (.send b)).map fun loop =>
        (s.1, { s.2 with workerChan := workerChan, loop := loop })
    | none => none
  | .pass b =>
    match s.2.limiter, s.2.workerChan.CanMeet with
    | .select, true =>
      (s.2.loop.next (.send b)).map fun loop =>
        (s.1, { s.2 with loop := loop, limiter := .limited b })
    | _, _ => none
  | .take b =>
    match s.2.limiter, s.2.workerChan.recv with
    | .select, some (b', workerChan) =>
      if b' = b then
        some (s.1, { s.2 with workerChan := workerChan, limiter := .limited b })
      else none
    | _, _ => none
  | .drained =>
    match s.2.limiter, s.2.workerChan.Drained with
    | .select, true => some (s.1, { s.2 with limiter := .exited })
    | _, _ => none
  | .spawn =>
    match s.2.limiter, s.2.tokens.recv with
    | .limited b, some (_, tokens) =>
      some (s.1, { s.2 with
        tokens := tokens
        limiter := .select
        children := s.2.children ++ [.spawned b] })
    | _, _ => none
  | .run i =>
    match s.2.children[i]? with
    | some child => (child.run e s.1).map fun r =>
        (r.1, { s.2 with children := s.2.children.set i r.2 })
    | none => none
  | .release i =>
    match s.2.children[i]?, s.2.tokens.send () with
    | some (.returned _), some tokens =>
      some (s.1, { s.2 with tokens := tokens, children := s.2.children.eraseIdx i })
    | _, _ => none
  | .close => some (s.1, { s.2 with closing := true })
  | .loopExit =>
    if s.2.closing then
      (s.2.loop.next .closing).map fun loop =>
        (s.1, { s.2 with loop := loop, workerChan := s.2.workerChan.close })
    else none
  | .limiterExit =>
    match s.2.limiter, s.2.closing with
    | .select, true => some (s.1, { s.2 with limiter := .exited })
    | _, _ => none
  | .closed =>
    match s.2.loop, s.2.limiter, s.2.closing && s.2.children.all Child.Returned with
    | .exited, .exited, true => some (s.1, { s.2 with closed := true })
    | _, _, _ => none

/-- What the steps of a worker do, one case for each event. -/
inductive Step : G × State X → Event → G × State X → Prop
  | send {g : G} {w : State X} {b : Block} {added : Chan Block}
      (hsend : w.added.send b = some added) :
    Step (g, w) (.send b) (g, { w with added := added })
  | handoff {g : G} {w : State X} {b : Block} {loop : ClientLoop} (hmeet : w.added.CanMeet)
    (hloop : w.loop.next (.recv b) = some loop) :
    Step (g, w) (.handoff b) (g, { w with loop := loop })
  | recv {g : G} {w : State X} {b : Block} {added : Chan Block} {loop : ClientLoop}
    (hrecv : w.added.recv = some (b, added)) (hloop : w.loop.next (.recv b) = some loop) :
    Step (g, w) (.recv b) (g, { w with added := added, loop := loop })
  | tick {g : G} {w : State X} {loop : ClientLoop} (hloop : w.loop.next .tick = some loop) :
    Step (g, w) .tick (g, { w with loop := loop })
  | push {g : G} {w : State X} {b : Block} {workerChan : Chan Block} {loop : ClientLoop}
    (hsend : w.workerChan.send b = some workerChan) (hloop : w.loop.next (.send b) = some loop) :
    Step (g, w) (.push b) (g, { w with workerChan := workerChan, loop := loop })
  | pass {g : G} {w : State X} {b : Block} {loop : ClientLoop} (hlimiter : w.limiter = .select)
    (hmeet : w.workerChan.CanMeet) (hloop : w.loop.next (.send b) = some loop) :
    Step (g, w) (.pass b) (g, { w with loop := loop, limiter := .limited b })
  | take {g : G} {w : State X} {b : Block} {workerChan : Chan Block}
      (hlimiter : w.limiter = .select)
    (hrecv : w.workerChan.recv = some (b, workerChan)) :
    Step (g, w) (.take b) (g, { w with workerChan := workerChan, limiter := .limited b })
  | drained {g : G} {w : State X} (hlimiter : w.limiter = .select)
      (hdrained : w.workerChan.Drained) :
    Step (g, w) .drained (g, { w with limiter := .exited })
  | spawn {g : G} {w : State X} {b : Block} {tokens : Chan Unit} (hlimiter : w.limiter = .limited b)
    (hrecv : w.tokens.recv = some ((), tokens)) :
    Step (g, w) .spawn (g, { w with
      tokens := tokens, limiter := .select, children := w.children ++ [.spawned b] })
  | run {g g' : G} {w : State X} {i : ℕ} {child child' : Child X}
    (hchild : w.children[i]? = some child) (hrun : child.run e g = some (g', child')) :
    Step (g, w) (.run i) (g', { w with children := w.children.set i child' })
  | release {g : G} {w : State X} {i : ℕ} {b : Block} {tokens : Chan Unit}
    (hchild : w.children[i]? = some (.returned b)) (hsend : w.tokens.send () = some tokens) :
    Step (g, w) (.release i) (g, { w with tokens := tokens, children := w.children.eraseIdx i })
  | close {g : G} {w : State X} : Step (g, w) .close (g, { w with closing := true })
  | loopExit {g : G} {w : State X} {loop : ClientLoop} (hclosing : w.closing)
    (hloop : w.loop.next .closing = some loop) :
    Step (g, w) .loopExit (g, { w with loop := loop, workerChan := w.workerChan.close })
  | limiterExit {g : G} {w : State X} (hlimiter : w.limiter = .select) (hclosing : w.closing) :
    Step (g, w) .limiterExit (g, { w with limiter := .exited })
  | closed {g : G} {w : State X} (hloop : w.loop = .exited) (hlimiter : w.limiter = .exited)
    (hclosing : w.closing) (hchildren : w.children.all Child.Returned) :
    Step (g, w) .closed (g, { w with closed := true })

/-- The step function takes such steps only. -/
theorem step_of_next {s t : G × State X} {l : Event} (h : next e s l = some t) :
    Step e s l t := by
  obtain ⟨g, w⟩ := s
  cases l with
  | send b =>
    obtain ⟨added, hsend, rfl⟩ := Option.map_eq_some_iff.mp h
    exact .send hsend
  | handoff b =>
    simp only [next, Option.ite_none_right_eq_some, Option.map_eq_some_iff] at h
    obtain ⟨hmeet, loop, hloop, rfl⟩ := h
    exact .handoff hmeet hloop
  | recv b =>
    simp only [next] at h
    split at h
    next hrecv =>
      simp only [Option.ite_none_right_eq_some, Option.map_eq_some_iff] at h
      obtain ⟨rfl, loop, hloop, rfl⟩ := h
      exact .recv hrecv hloop
    next => cases h
  | tick =>
    obtain ⟨loop, hloop, rfl⟩ := Option.map_eq_some_iff.mp h
    exact .tick hloop
  | push b =>
    simp only [next] at h
    split at h
    next hsend =>
      obtain ⟨loop, hloop, rfl⟩ := Option.map_eq_some_iff.mp h
      exact .push hsend hloop
    next => cases h
  | pass b =>
    simp only [next] at h
    split at h
    next hlimiter hmeet =>
      obtain ⟨loop, hloop, rfl⟩ := Option.map_eq_some_iff.mp h
      exact .pass hlimiter hmeet hloop
    next => cases h
  | take b =>
    simp only [next] at h
    split at h
    next hlimiter hrecv =>
      simp only [Option.ite_none_right_eq_some, Option.some.injEq] at h
      obtain ⟨rfl, rfl⟩ := h
      exact .take hlimiter hrecv
    next => cases h
  | drained =>
    simp only [next] at h
    split at h
    next hlimiter hdrained =>
      cases h
      exact .drained hlimiter hdrained
    next => cases h
  | spawn =>
    simp only [next] at h
    split at h
    next hlimiter hrecv =>
      cases h
      exact .spawn hlimiter hrecv
    next => cases h
  | run i =>
    simp only [next] at h
    split at h
    next hchild =>
      obtain ⟨⟨g', child'⟩, hrun, rfl⟩ := Option.map_eq_some_iff.mp h
      exact .run hchild hrun
    next => cases h
  | release i =>
    simp only [next] at h
    split at h
    next hchild hsend =>
      cases h
      exact .release hchild hsend
    next => cases h
  | close =>
    cases h
    exact .close
  | loopExit =>
    simp only [next, Option.ite_none_right_eq_some, Option.map_eq_some_iff] at h
    obtain ⟨hclosing, loop, hloop, rfl⟩ := h
    exact .loopExit hclosing hloop
  | limiterExit =>
    simp only [next] at h
    split at h
    next hlimiter hclosing =>
      cases h
      exact .limiterExit hlimiter hclosing
    next => cases h
  | closed =>
    simp only [next] at h
    split at h
    next hloop hlimiter hboth =>
      cases h
      obtain ⟨hclosing, hchildren⟩ := Bool.and_eq_true_iff.mp hboth
      exact .closed hloop hlimiter hclosing hchildren
    next => cases h

/-- A worker with its shared state as a transition system. -/
def lts : LTS (G × State X) Event := .ofFun (next e)

end Next

end Worker

end GoBlocks
