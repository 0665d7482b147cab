import GoBlocks.Blockstore.Enumeration
import GoBlocks.Lib.Stage

/-!
# The stream of `AllKeysChan`

The goroutine of `AllKeysChan` receives results from a query, converts them to keys
and sends the keys on its output channel. Both are a `select` against the
cancellation of the context. The results may be any sequence of entries and errors,
and they arrive, are read by the consumer and are cut off by the cancellation in any
interleaving.
-/

namespace GoBlocks

/-- The closure `get` of `AllKeysChan` on what it receives, where `none` is the end of
the results. The empty key tells the loop to go on without a key. -/
def getKey : Option Ds.Result → Key × Bool
  | none => ([], false)
  | some e =>
    if e.error.isSome then ([], false)
    else
      let k := keyFromDsKey (Ds.newKey e.entry.key)
      if Multihash.IsMultihash k then (k, true) else ([], true)

/-- The loop of `AllKeysChan` after a call of `get`. -/
def afterGet : Key × Bool → Stage Key
  | (_, false) => .leaving
  | (k, true) => if k = [] then .reading else .sending k

/-- The keys of a sequence of results: those before the first error, converted, of
which only the multihashes are kept. -/
def expectedKeys (rs : List Ds.Result) : List Key :=
  ((rs.takeWhile fun r => r.error.isNone).map fun r => keyFromDsKey (Ds.newKey r.entry.key)).filter
    fun k => Multihash.IsMultihash k

/-- The goroutine of `AllKeysChan` between its results and its consumer. -/
structure KeyStream where
  /-- The results that have not been received. -/
  results : List Ds.Result
  /-- The goroutine. -/
  loop : Stage Key
  /-- The context is cancelled. -/
  cancelled : Bool
  /-- The keys that the consumer has received. -/
  received : List Key

namespace KeyStream

/-- The steps of the stream. -/
inductive Event where
  /-- The goroutine receives a result. -/
  | result
  /-- The goroutine finds the results at their end. -/
  | ended
  /-- The context is cancelled. -/
  | cancel
  /-- The goroutine sees the cancellation. -/
  | ctxDone
  /-- The consumer receives a key. -/
  | key
  /-- The goroutine closes the results process. -/
  | closes
  /-- The results process is closed, and the goroutine closes its output. -/
  | closed
  deriving DecidableEq

/-- One step of the stream. -/
def next (s : KeyStream) : Event → Option KeyStream
  | .result =>
    match s.loop, s.results with
    | .reading, r :: rs => some { s with results := rs, loop := afterGet (getKey (some r)) }
    | _, _ => none
  | .ended =>
    match s.loop, s.results with
    | .reading, [] => some { s with loop := afterGet (getKey none) }
    | _, _ => none
  | .cancel => some { s with cancelled := true }
  | .ctxDone =>
    if s.cancelled ∧ s.loop.Exited = false then some { s with loop := .leaving } else none
  | .key =>
    match s.loop with
    | .sending k => some { s with loop := .reading, received := s.received ++ [k] }
    | _ => none
  | .closes =>
    match s.loop with
    | .leaving => some { s with loop := .waiting }
    | _ => none
  | .closed =>
    match s.loop with
    | .waiting => some { s with loop := .done }
    | _ => none

/-- The stream as a transition system. -/
def lts : LTS KeyStream Event := .ofFun next

/-- `AllKeysChan` starts its goroutine on the results of a query. -/
def start (rs : List Ds.Result) : KeyStream := ⟨rs, .reading, false, []⟩

/-! ## The keys of the results -/

/-- No results give no keys. -/
@[simp] theorem expectedKeys_nil : expectedKeys [] = [] := rfl

/-- The first result gives the key that the loop then sends, and ends the keys if the
loop leaves. -/
theorem expectedKeys_cons (r : Ds.Result) (rs : List Ds.Result) :
    expectedKeys (r :: rs) = (afterGet (getKey (some r))).held ++
      if (afterGet (getKey (some r))).Exited then [] else expectedKeys rs := by
  by_cases herr : r.error.isSome = true
  · have hnone : r.error.isNone = false := by simpa using herr
    simp [expectedKeys, getKey, afterGet, herr, hnone]
  · have hnone : r.error.isNone = true := by simpa using herr
    by_cases hmh : Multihash.IsMultihash (keyFromDsKey (Ds.newKey r.entry.key))
    · simp [expectedKeys, getKey, afterGet, herr, hnone, hmh, hmh.ne_nil]
    · simp [expectedKeys, getKey, afterGet, herr, hnone, hmh]

/-- The keys of the results are what draining them passes on. -/
theorem expectedKeys_eq_drainKeys (rs : List Ds.Result) : expectedKeys rs = drainKeys rs := by
  induction rs with
  | nil => rfl
  | cons r rs ih =>
    rw [expectedKeys_cons, ih]
    by_cases herr : r.error.isSome = true
    · simp [drainKeys, getKey, afterGet, herr]
    · by_cases hmh : Multihash.IsMultihash (keyFromDsKey (Ds.newKey r.entry.key))
      · simp [drainKeys, getKey, afterGet, herr, hmh, hmh.ne_nil]
      · simp [drainKeys, getKey, afterGet, herr, hmh]

/-! ## The invariant -/

/-- In the loop the received keys, the key that is being sent and the keys of the
results to come are all keys. After it, the received keys are a part of them from the
start, and all of them unless the context was cancelled. -/
structure Faithful (rs : List Ds.Result) (s : KeyStream) : Prop where
  running : s.loop.Exited = false →
    s.received ++ s.loop.held ++ expectedKeys s.results = expectedKeys rs
  exited : s.loop.Exited = true →
    s.received <+: expectedKeys rs ∧ (s.cancelled = false → s.received = expectedKeys rs)

variable {rs : List Ds.Result} {s t : KeyStream} {l : Event} {ls : List Event}

/-- The stream starts with all keys to come. -/
theorem faithful_start (rs : List Ds.Result) : Faithful rs (start rs) :=
  ⟨fun _ => rfl, fun hexit => by cases hexit⟩

/-- The received keys are a part of all keys from the start. -/
theorem Faithful.received_mono (h : Faithful rs s) : s.received <+: expectedKeys rs := by
  cases hexit : s.loop.Exited with
  | false =>
    rw [← h.running hexit, List.append_assoc]
    exact List.prefix_append _ _
  | true => exact (h.exited hexit).1

/-- A result that is received gives a key to send, is skipped or ends the keys. -/
theorem Faithful.result {r : Ds.Result} {rest : List Ds.Result} (h : Faithful rs s)
    (hloop : s.loop = .reading) (hresults : s.results = r :: rest) :
    Faithful rs { s with results := rest, loop := afterGet (getKey (some r)) } := by
  have hall := h.running (by rw [hloop]; rfl)
  rw [hloop, Stage.held_reading, List.append_nil, hresults, expectedKeys_cons] at hall
  refine ⟨fun hrun => ?_, fun hexit => ?_⟩
  · have hrun : (afterGet (getKey (some r))).Exited = false := hrun
    rw [hrun] at hall
    rw [List.append_assoc]
    exact hall
  · have hexit : (afterGet (getKey (some r))).Exited = true := hexit
    rw [hexit, Stage.held_of_exited hexit] at hall
    have heq : s.received = expectedKeys rs := by simpa using hall
    exact ⟨heq ▸ List.prefix_rfl, fun _ => heq⟩

/-- The end of the results ends the keys. -/
theorem Faithful.ended (h : Faithful rs s) (hloop : s.loop = .reading) (hresults : s.results = []) :
    Faithful rs { s with loop := .leaving } := by
  have hall := h.running (by rw [hloop]; rfl)
  have heq : s.received = expectedKeys rs := by simpa [hloop, hresults] using hall
  exact ⟨fun hrun => (by cases hrun), fun _ => ⟨heq ▸ List.prefix_rfl, fun _ => heq⟩⟩

/-- A loop that has left keeps the received keys, whatever it does. -/
theorem Faithful.move (h : Faithful rs s) (hloop : s.loop.Exited = true) {g : Stage Key}
    (hg : g.Exited = true) : Faithful rs { s with loop := g } := by
  refine ⟨fun hrun => ?_, fun _ => h.exited hloop⟩
  have hrun : g.Exited = false := hrun
  rw [hg] at hrun
  cases hrun

/-- Every step keeps the stream faithful. -/
theorem Faithful.step (h : Faithful rs s) (hstep : s.next l = some t) : Faithful rs t := by
  cases l with
  | result =>
    simp only [next] at hstep
    split at hstep
    next r rest hloop hresults =>
      cases hstep
      exact h.result hloop hresults
    next => cases hstep
  | ended =>
    simp only [next] at hstep
    split at hstep
    next hloop hresults =>
      cases hstep
      exact h.ended hloop hresults
    next => cases hstep
  | cancel =>
    cases hstep
    exact ⟨h.running, fun _ => ⟨h.received_mono, fun hnot => by cases hnot⟩⟩
  | ctxDone =>
    obtain ⟨⟨hcancelled, -⟩, ht⟩ := Option.ite_none_right_eq_some.mp hstep
    cases ht
    refine ⟨fun hrun => (by cases hrun), fun _ => ⟨h.received_mono, fun hnot => ?_⟩⟩
    have hnot : s.cancelled = false := hnot
    rw [hcancelled] at hnot
    cases hnot
  | key =>
    simp only [next] at hstep
    split at hstep
    next k hloop =>
      cases hstep
      have hall := h.running (by rw [hloop]; rfl)
      refine ⟨fun _ => ?_, fun hexit => by cases hexit⟩
      simpa [hloop] using hall
    next => cases hstep
  | closes | closed =>
    simp only [next] at hstep
    split at hstep
    next hloop =>
      cases hstep
      exact h.move (by rw [hloop]; rfl) rfl
    next => cases hstep

/-- The stream is faithful along every run. -/
theorem Faithful.run (hrun : lts.Run (start rs) ls s) : Faithful rs s :=
  hrun.invariant (Faithful rs) (fun _ _ _ hv hstep => hv.step hstep) (faithful_start rs)

/-- Only a cancellation cancels the context. -/
theorem cancelled_of_next (hstep : s.next l = some t) (ht : t.cancelled = true) :
    l = .cancel ∨ s.cancelled = true := by
  unfold next at hstep
  split at hstep
  case h_3 => exact .inl rfl
  all_goals
    right
    split at hstep <;> (cases hstep; try exact ht)

/-- The context of a run is cancelled only by a cancellation in the run. -/
theorem cancel_mem_of_cancelled (hrun : lts.Run (start rs) ls s) (hs : s.cancelled = true) :
    .cancel ∈ ls := by
  refine hrun.history_induction (fun ls s => s.cancelled = true → .cancel ∈ ls) ?_ ?_ hs
  · intro hstart
    cases hstart
  · intro hist v l w _ hv hstep hw
    rcases cancelled_of_next hstep hw with rfl | hbefore
    · simp
    · exact List.mem_append_left _ (hv hbefore)

/-- A stream that is never cancelled has delivered all keys when its output is closed. -/
theorem received_of_done (hrun : lts.Run (start rs) ls s) (hnever : .cancel ∉ ls)
    (hdone : s.loop = .done) : s.received = expectedKeys rs := by
  refine ((Faithful.run hrun).exited (by rw [hdone]; rfl)).2 ?_
  by_contra hcancelled
  exact hnever (cancel_mem_of_cancelled hrun (by simpa using hcancelled))

/-- **`AllKeysChan` delivers a faithful, cancellable stream.** For any results of the
query and any interleaving of their arrival, the reads of the consumer and the
cancellation, the received keys are a part of the keys of the results from the start.
If the context is never cancelled and the output is closed, they are all of them. -/
theorem allKeysChan_faithful_stream (rs : List Ds.Result) (ls : List Event) (s : KeyStream)
    (hrun : lts.Run (start rs) ls s) :
    s.received <+: expectedKeys rs ∧
      (.cancel ∉ ls → s.loop = .done → s.received = expectedKeys rs) :=
  ⟨(Faithful.run hrun).received_mono, received_of_done hrun⟩

/-- A stream of a multihash, an entry that is none, and an error is read to its end. -/
theorem allKeysChan_faithful_stream_error :
    ∃ s, lts.Run (start [⟨⟨[1, 1, 7], .bytes []⟩, none⟩, ⟨⟨[1], .bytes []⟩, none⟩,
        ⟨⟨[], .bytes []⟩, some .failure⟩, ⟨⟨[1, 1, 8], .bytes []⟩, none⟩])
        [.result, .key, .result, .result, .closes, .closed] s ∧
      s.received = [[1, 1, 7]] := by
  have hrun : ∃ s, lts.Run (start [⟨⟨[1, 1, 7], .bytes []⟩, none⟩, ⟨⟨[1], .bytes []⟩, none⟩,
        ⟨⟨[], .bytes []⟩, some .failure⟩, ⟨⟨[1, 1, 8], .bytes []⟩, none⟩])
        [.result, .key, .result, .result, .closes, .closed] s ∧ s.loop = .done :=
    ⟨_, LTS.run_ofFun_iff.mpr rfl, rfl⟩
  obtain ⟨s, hrun, hdone⟩ := hrun
  refine ⟨s, hrun, ?_⟩
  rw [(allKeysChan_faithful_stream _ _ s hrun).2 (by decide) hdone]
  decide

end KeyStream

end GoBlocks
