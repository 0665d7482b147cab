import GoBlocks.Blockstore.KeyStream

/-!
# The pipeline behind `AllKeysChan`

A query of a map datastore starts a goroutine that produces the entries, one that
filters them by the prefix of the query and one that inverts the keys of the
namespace. `AllKeysChan` adds its own goroutine. They are joined by channels without
buffers and share the results process of the producer: sender and receiver meet,
which is one step of both. For the consumer the pipeline is a stream of the results
of the query.
-/

namespace GoBlocks

/-- The worker of `ResultsWithEntries`. -/
inductive Producer where
  /-- In its loop, with the results that it has not sent. -/
  | sending (rs : List Ds.Result)
  /-- The worker returned. -/
  | returned

/-- The results that the producer may still send. -/
def Producer.rest : Producer → List Ds.Result
  | .sending rs => rs
  | .returned => []

/-- A producer in its loop may send what it has not sent. -/
@[simp] theorem Producer.rest_sending (rs : List Ds.Result) : (sending rs).rest = rs := rfl

/-- A producer that returned sends nothing. -/
@[simp] theorem Producer.rest_returned : returned.rest = [] := rfl

/-- A producer with results to send is in its loop. -/
theorem Producer.eq_sending {p : Producer} {r : Ds.Result} {rs : List Ds.Result}
    (h : p.rest = r :: rs) : p = .sending (r :: rs) := by
  cases p with
  | sending rs' => exact congrArg sending h
  | returned => cases h

/-- The goroutines of the pipeline and the results process they share. -/
structure KeyPipeline where
  /-- The worker that produces the entries. -/
  producer : Producer
  /-- The results process is closing. -/
  closing : Bool
  /-- The results process is closed, and so is the channel of the producer. -/
  closed : Bool
  /-- The goroutine of `NaiveFilter`. -/
  filter : Stage Ds.Result
  /-- The goroutine of the namespace, which inverts the keys. -/
  inverter : Stage Ds.Result
  /-- The goroutine of `AllKeysChan`. -/
  loop : Stage Key
  /-- The context is cancelled. -/
  cancelled : Bool
  /-- The keys that the consumer has received. -/
  received : List Key

namespace KeyPipeline

/-- The steps of the pipeline. -/
inductive Event where
  /-- The producer and the filter meet. -/
  | emit
  /-- The producer has sent all results and returns. -/
  | produced
  /-- The producer sees that the process is closing and returns. -/
  | interrupted
  /-- `CloseAfterChildren` closes the process after the producer returned. -/
  | closeAfterChildren
  /-- The closing process has no children left; it closes the channel of the producer. -/
  | teardown
  /-- The filter and the inverter meet. -/
  | forward
  /-- The inverter and the goroutine of `AllKeysChan` meet. -/
  | deliver
  /-- The filter finds the channel of the producer closed. -/
  | filterEnded
  /-- The filter closes the process. -/
  | filterCloses
  /-- The process is closed, and the filter closes its channel. -/
  | filterClosed
  /-- The inverter finds the channel of the filter closed. -/
  | inverterEnded
  /-- The inverter closes the process. -/
  | inverterCloses
  /-- The process is closed, and the inverter closes its channel. -/
  | inverterClosed
  /-- The goroutine of `AllKeysChan` finds the channel of the inverter closed. -/
  | loopEnded
  /-- The goroutine of `AllKeysChan` closes the process. -/
  | loopCloses
  /-- The process is closed, and the goroutine of `AllKeysChan` closes the output. -/
  | loopClosed
  /-- The context is cancelled. -/
  | cancel
  /-- The goroutine of `AllKeysChan` sees the cancellation. -/
  | ctxDone
  /-- The consumer receives a key. -/
  | key
  deriving DecidableEq

section Step

-- The filter and the inverter send on a result for a result that they read, or skip it.
variable (f g : Ds.Result → Option Ds.Result)

/-- One step of the pipeline. -/
inductive Step : KeyPipeline → Event → KeyPipeline → Prop
  | emit {s : KeyPipeline} {r : Ds.Result} {rs : List Ds.Result}
    (hproducer : s.producer = .sending (r :: rs)) (hfilter : s.filter = .reading) :
    Step s .emit { s with producer := .sending rs, filter := .ofOption (f r) }
  | produced {s : KeyPipeline} (hproducer : s.producer = .sending []) :
    Step s .produced { s with producer := .returned }
  | interrupted {s : KeyPipeline} {r : Ds.Result} {rs : List Ds.Result}
    (hproducer : s.producer = .sending (r :: rs)) (hclosing : s.closing = true) :
    Step s .interrupted { s with producer := .returned }
  | closeAfterChildren {s : KeyPipeline} (hproducer : s.producer = .returned) :
    Step s .closeAfterChildren { s with closing := true }
  | teardown {s : KeyPipeline} (hproducer : s.producer = .returned) (hclosing : s.closing = true) :
    Step s .teardown { s with closed := true }
  | forward {s : KeyPipeline} {r : Ds.Result} (hfilter : s.filter = .sending r)
    (hinverter : s.inverter = .reading) :
    Step s .forward { s with filter := .reading, inverter := .ofOption (g r) }
  | deliver {s : KeyPipeline} {r : Ds.Result} (hinverter : s.inverter = .sending r)
    (hloop : s.loop = .reading) :
    Step s .deliver { s with inverter := .reading, loop := afterGet (getKey (some r)) }
  | filterEnded {s : KeyPipeline} (hfilter : s.filter = .reading) (hclosed : s.closed = true) :
    Step s .filterEnded { s with filter := .leaving }
  | filterCloses {s : KeyPipeline} (hfilter : s.filter = .leaving) :
    Step s .filterCloses { s with filter := .waiting, closing := true }
  | filterClosed {s : KeyPipeline} (hfilter : s.filter = .waiting) (hclosed : s.closed = true) :
    Step s .filterClosed { s with filter := .done }
  | inverterEnded {s : KeyPipeline} (hinverter : s.inverter = .reading)
    (hfilter : s.filter = .done) : Step s .inverterEnded { s with inverter := .leaving }
  | inverterCloses {s : KeyPipeline} (hinverter : s.inverter = .leaving) :
    Step s .inverterCloses { s with inverter := .waiting, closing := true }
  | inverterClosed {s : KeyPipeline} (hinverter : s.inverter = .waiting)
    (hclosed : s.closed = true) : Step s .inverterClosed { s with inverter := .done }
  | loopEnded {s : KeyPipeline} (hloop : s.loop = .reading) (hinverter : s.inverter = .done) :
    Step s .loopEnded { s with loop := afterGet (getKey none) }
  | loopCloses {s : KeyPipeline} (hloop : s.loop = .leaving) :
    Step s .loopCloses { s with loop := .waiting, closing := true }
  | loopClosed {s : KeyPipeline} (hloop : s.loop = .waiting) (hclosed : s.closed = true) :
    Step s .loopClosed { s with loop := .done }
  | cancel {s : KeyPipeline} : Step s .cancel { s with cancelled := true }
  | ctxDone {s : KeyPipeline} (hcancelled : s.cancelled = true) (hloop : s.loop.Exited = false) :
    Step s .ctxDone { s with loop := .leaving }
  | key {s : KeyPipeline} {k : Key} (hloop : s.loop = .sending k) :
    Step s .key { s with loop := .reading, received := s.received ++ [k] }

/-- The pipeline as a transition system. -/
def lts : LTS KeyPipeline Event where
  step := Step f g

/-- The pipeline when `AllKeysChan` returns, for the results of the producer. -/
def start (rs : List Ds.Result) : KeyPipeline :=
  ⟨.sending rs, false, false, .reading, .reading, .reading, false, []⟩

/-- The results on their way to the goroutine of `AllKeysChan`. -/
def pending (s : KeyPipeline) : List Ds.Result :=
  s.inverter.held ++ s.filter.held.filterMap g ++ (s.producer.rest.filterMap f).filterMap g

end Step

variable {f g : Ds.Result → Option Ds.Result} {s t : KeyPipeline} {l : Event} {ls : List Event}

/-! ## What the goroutines know of each other -/

/-- The order in which the goroutines shut down. -/
structure Ordered (s : KeyPipeline) : Prop where
  /-- As long as `AllKeysChan` is in its loop, only the end of the results closes the
  process. -/
  returned : s.loop.Exited = false → s.closing = true → s.producer = .returned
  closed : s.closed = true → s.producer = .returned
  filter : s.filter.Exited = true → s.closed = true
  inverter : s.inverter.Exited = true → s.filter = .done

/-- The pipeline starts in order. -/
theorem ordered_start (rs : List Ds.Result) : Ordered (start rs) :=
  ⟨fun _ hclosing => (by cases hclosing), fun hclosed => (by cases hclosed),
    fun hexit => (by cases hexit), fun hexit => by cases hexit⟩

/-- A filter that has left its loop has seen the producer return. -/
theorem Ordered.returned_of_filter (h : Ordered s) (hfilter : s.filter.Exited = true) :
    s.producer = .returned := h.closed (h.filter hfilter)

/-- An inverter that has left its loop has seen the producer return. -/
theorem Ordered.returned_of_inverter (h : Ordered s) (hinverter : s.inverter.Exited = true) :
    s.producer = .returned := by
  refine h.returned_of_filter ?_
  rw [h.inverter hinverter]
  rfl

/-- Every step keeps the order. -/
theorem Ordered.step (h : Ordered s) (hstep : Step f g s l t) : Ordered t := by
  cases hstep with
  | emit hproducer hfilter =>
    refine ⟨fun hloop hclosing => ?_, fun hclosed => ?_, fun hexit => ?_, fun hexit => ?_⟩
    · rw [h.returned hloop hclosing] at hproducer
      cases hproducer
    · rw [h.closed hclosed] at hproducer
      cases hproducer
    · simp at hexit
    · rw [h.inverter hexit] at hfilter
      cases hfilter
  | produced | interrupted => exact ⟨fun _ _ => rfl, fun _ => rfl, h.filter, h.inverter⟩
  | closeAfterChildren hproducer => exact ⟨fun _ _ => hproducer, h.closed, h.filter, h.inverter⟩
  | teardown hproducer hclosing =>
    exact ⟨h.returned, fun _ => hproducer, fun _ => rfl, h.inverter⟩
  | forward hfilter hinverter =>
    refine ⟨h.returned, h.closed, fun hexit => (by cases hexit), fun hexit => ?_⟩
    simp at hexit
  | deliver hinverter hloop =>
    exact ⟨fun _ => h.returned (by rw [hloop]; rfl), h.closed, h.filter,
      fun hexit => by cases hexit⟩
  | filterEnded hfilter hclosed =>
    refine ⟨h.returned, h.closed, fun _ => hclosed, fun hexit => ?_⟩
    rw [h.inverter hexit] at hfilter
    cases hfilter
  | filterCloses hfilter =>
    have hexit : s.filter.Exited = true := by rw [hfilter]; rfl
    refine ⟨fun _ _ => h.returned_of_filter hexit, h.closed, fun _ => h.filter hexit,
      fun hinv => ?_⟩
    rw [h.inverter hinv] at hfilter
    cases hfilter
  | filterClosed hfilter hclosed => exact ⟨h.returned, h.closed, fun _ => hclosed, fun _ => rfl⟩
  | inverterEnded hinverter hfilter => exact ⟨h.returned, h.closed, h.filter, fun _ => hfilter⟩
  | inverterCloses hinverter =>
    have hexit : s.inverter.Exited = true := by rw [hinverter]; rfl
    exact ⟨fun _ _ => h.returned_of_inverter hexit, h.closed, h.filter, fun _ => h.inverter hexit⟩
  | inverterClosed hinverter hclosed =>
    exact ⟨h.returned, h.closed, h.filter, fun _ => h.inverter (by rw [hinverter]; rfl)⟩
  | loopEnded | loopCloses | loopClosed | ctxDone =>
    exact ⟨fun hrun => (by cases hrun), h.closed, h.filter, h.inverter⟩
  | cancel => exact ⟨h.returned, h.closed, h.filter, h.inverter⟩
  | key hloop => exact ⟨fun _ => h.returned (by rw [hloop]; rfl), h.closed, h.filter, h.inverter⟩

/-- The goroutines keep the order along every run. -/
theorem Ordered.run (hs : Ordered s) (hrun : (lts f g).Run s ls t) : Ordered t :=
  hrun.invariant Ordered (fun _ _ _ hv hstep => hv.step hstep) hs

/-! ## Results on their way -/

/-- Nothing is on its way after the inverter has left its loop. -/
theorem Ordered.pending_of_inverter (h : Ordered s) (hinverter : s.inverter.Exited = true) :
    pending f g s = [] := by
  simp [pending, Stage.held_of_exited hinverter, h.inverter hinverter,
    h.returned_of_inverter hinverter]

/-- Only the meeting with the goroutine of `AllKeysChan` and an interrupted producer
take results from their way. -/
theorem pending_of_step (hstep : Step f g s l t) :
    (∃ r, l = .deliver ∧ s.inverter = .sending r ∧ pending f g s = r :: pending f g t) ∨
    (l = .interrupted ∧ pending f g t <+: pending f g s) ∨ pending f g t = pending f g s := by
  cases hstep with
  | @emit r rs hproducer hfilter =>
    right; right
    cases hr : f r with
    | none => simp [pending, hproducer, hfilter, hr]
    | some r' => cases hr' : g r' <;> simp [pending, hproducer, hfilter, hr, hr']
  | produced hproducer => right; right; simp [pending, hproducer]
  | interrupted hproducer hclosing =>
    right; left
    refine ⟨rfl, ?_⟩
    simp only [pending, Producer.rest_returned, List.filterMap_nil, List.append_nil]
    exact List.prefix_append _ _
  | @forward r hfilter hinverter =>
    right; right
    cases hr : g r <;> simp [pending, hfilter, hinverter, hr]
  | @deliver r hinverter hloop =>
    left
    exact ⟨r, rfl, hinverter, by simp [pending, hinverter]⟩
  | filterEnded hfilter _ | filterCloses hfilter | filterClosed hfilter _ =>
    right; right; simp [pending, hfilter]
  | inverterEnded hinverter _ | inverterCloses hinverter | inverterClosed hinverter _ =>
    right; right; simp [pending, hinverter]
  | _ => exact .inr (.inr rfl)

/-! ## The pipeline as a stream -/

/-- The steps of the pipeline that the stream takes part in. -/
def streamEvent : Event → Option KeyStream.Event
  | .deliver => some .result
  | .loopEnded => some .ended
  | .cancel => some .cancel
  | .ctxDone => some .ctxDone
  | .key => some .key
  | .loopCloses => some .closes
  | .loopClosed => some .closed
  | _ => none

/-- The stream has the goroutine of `AllKeysChan` and, as long as it is in its loop, the
results on their way to it. -/
structure Streams (f g : Ds.Result → Option Ds.Result) (s : KeyPipeline) (u : KeyStream) :
    Prop where
  ordered : Ordered s
  loop : u.loop = s.loop
  cancelled : u.cancelled = s.cancelled
  received : u.received = s.received
  results : s.loop.Exited = false → u.results = pending f g s

variable {u : KeyStream}

/-- The stream matches the steps of the goroutine of `AllKeysChan`. -/
theorem Streams.own (h : Streams f g s u) (hstep : Step f g s l t) {m : KeyStream.Event}
    (hm : streamEvent l = some m) : ∃ u', u.next m = some u' ∧ Streams f g t u' := by
  have hordered := h.ordered.step hstep
  obtain ⟨rs, loop, cancelled, received⟩ := u
  obtain ⟨-, rfl, rfl, rfl, hresults⟩ := h
  cases hstep with
  | @deliver r hinverter hloop =>
    cases hm
    have hrs : rs = pending f g s := hresults (by rw [hloop]; rfl)
    have hpending : pending f g s = r :: pending f g { s with inverter := .reading } := by
      simp [pending, hinverter]
    refine ⟨⟨pending f g { s with inverter := .reading }, _, s.cancelled, s.received⟩, ?_,
      hordered, rfl, rfl, rfl, fun _ => rfl⟩
    simp only [KeyStream.next, hloop, hrs, hpending]
  | loopEnded hloop hinverter =>
    cases hm
    have hrs : rs = [] := by
      have hpending : rs = pending f g s := hresults (by rw [hloop]; rfl)
      rw [hpending]
      exact hordered.pending_of_inverter (by rw [hinverter]; rfl)
    subst hrs
    refine ⟨⟨[], .leaving, s.cancelled, s.received⟩, ?_, hordered, rfl, rfl, rfl,
      fun hrun => by cases hrun⟩
    simp only [KeyStream.next, hloop]
    rfl
  | cancel =>
    cases hm
    exact ⟨⟨rs, s.loop, true, s.received⟩, rfl, hordered, rfl, rfl, rfl, hresults⟩
  | ctxDone hcancelled hloop =>
    cases hm
    exact ⟨⟨rs, .leaving, s.cancelled, s.received⟩, if_pos ⟨hcancelled, hloop⟩, hordered, rfl, rfl,
      rfl, fun hrun => by cases hrun⟩
  | @key k hloop =>
    cases hm
    refine ⟨⟨rs, .reading, s.cancelled, s.received ++ [k]⟩, ?_, hordered, rfl, rfl, rfl,
      fun _ => ?_⟩
    · simp only [KeyStream.next, hloop]
    · exact hresults (by rw [hloop]; rfl)
  | loopCloses hloop =>
    cases hm
    refine ⟨⟨rs, .waiting, s.cancelled, s.received⟩, ?_, hordered, rfl, rfl, rfl,
      fun hrun => by cases hrun⟩
    simp only [KeyStream.next, hloop]
  | loopClosed hloop hclosed =>
    cases hm
    refine ⟨⟨rs, .done, s.cancelled, s.received⟩, ?_, hordered, rfl, rfl, rfl,
      fun hrun => by cases hrun⟩
    simp only [KeyStream.next, hloop]
  | _ => cases hm

/-- The stream rests at the steps of the other goroutines. -/
theorem Streams.rest (h : Streams f g s u) (hstep : Step f g s l t) (hl : streamEvent l = none) :
    Streams f g t u := by
  have hordered := h.ordered.step hstep
  have hpending : s.loop.Exited = false → pending f g t = pending f g s := by
    intro hrun
    rcases pending_of_step hstep with ⟨r, rfl, -⟩ | ⟨rfl, -⟩ | hsame
    · cases hl
    · cases hstep with
      | interrupted hproducer hclosing =>
        rw [h.ordered.returned hrun hclosing] at hproducer
        cases hproducer
    · exact hsame
  obtain ⟨-, hloop, hcancelled, hreceived, hresults⟩ := h
  cases hstep with
  | deliver | loopEnded | loopCloses | loopClosed | cancel | ctxDone | key => cases hl
  | _ =>
    exact ⟨hordered, hloop, hcancelled, hreceived, fun hrun =>
      (hresults hrun).trans (hpending hrun).symm⟩

/-- For the consumer every run of the pipeline is a run of the stream of the results
that the filter and the inverter send on. -/
theorem exists_stream_run {rs : List Ds.Result} (hrun : (lts f g).Run (start rs) ls s) :
    ∃ u, KeyStream.lts.Run (KeyStream.start ((rs.filterMap f).filterMap g))
      (ls.filterMap streamEvent) u ∧ Streams f g s u := by
  refine hrun.weakSimulate (Streams f g) streamEvent
    (fun v l w m u hu hstep hm => hu.own hstep hm) (fun v l w u hu hstep hl => hu.rest hstep hl) ?_
  exact ⟨ordered_start rs, rfl, rfl, rfl, fun _ => rfl⟩

/-! ## The pipeline over a map datastore -/

/-- The pipeline of `AllKeysChan` on the blockstore over a map datastore. -/
def allKeys : LTS KeyPipeline Event :=
  lts (Ds.filterResult (Ds.filterKeyPrefix blockPrefix.string))
    (Ds.namespaceResult blockPrefix (Ds.prefixTransform blockPrefix))

/-- `AllKeysChan` on a map datastore that is ranged over in this order. -/
def allKeysStart (order : List (Ds.Key × Ds.Value)) : KeyPipeline :=
  start (Ds.resultsWithEntries (order.map fun e => ⟨e.1.string, e.2⟩))

/-- A pipeline that is never cancelled delivers, until its output is closed, a list of
keys that `AllKeysChan` may deliver. -/
theorem allKeysChan_of_run (env : HashEnv) {d : Ds.KeyMap} {order : List (Ds.Key × Ds.Value)}
    (horder : d.Iterates order) (hrun : allKeys.Run (allKeysStart order) ls s)
    (hnever : .cancel ∉ ls) (hdone : s.loop = .done) :
    (mapStore env).allKeysChan d (.ok s.received) := by
  obtain ⟨u, hu, hstreams⟩ := exists_stream_run hrun
  have hnever' : .cancel ∉ ls.filterMap streamEvent := by
    intro hmem
    obtain ⟨l, hl, heq⟩ := List.mem_filterMap.mp hmem
    cases l with
    | cancel => exact hnever hl
    | _ => cases heq
  have hall := KeyStream.received_of_done hu hnever' (hstreams.loop.trans hdone)
  refine ⟨_, ⟨_, ⟨order, horder, rfl⟩, rfl⟩, ?_⟩
  rw [← hstreams.received, hall, KeyStream.expectedKeys_eq_drainKeys, Ds.queryInOrder,
    Ds.naiveQueryApply_keysQuery (by rw [blockPrefix_string]; simp), Ds.naiveFilter_eq_filterMap]
  rfl

end KeyPipeline

end GoBlocks
