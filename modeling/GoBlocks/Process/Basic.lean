import GoBlocks.Lib.Transition
import Mathlib.Logic.Function.Basic
import Mathlib.Logic.Relation

/-!
# Processes

A process of `goprocess` closes its children, waits for the processes it has to wait
for, runs its teardown function, and is closed then. Any number of goroutines make
processes, link them and close them. A critical section of the mutex of a process is
one step. The mutex stays locked from one step to another only while the teardown
function runs, or if a caller panics inside. Processes and links are numbered in the
order in which they are made. Callers pass processes that `newProcess` made: with `nil`
the package panics at once, and with a process of another type in `AddToChild`.
-/

namespace GoBlocks

/-- `process`, with teardown functions of type `T` and errors of type `E`. -/
structure Process (T E : Type) where
  /-- Links to the processes to close with this one. -/
  children : List ℕ
  /-- Links to the processes to wait for. -/
  waitfors : List ℕ
  /-- Links of the processes that wait for this one. -/
  waiters : List ℕ
  /-- The teardown function, with `none` for `nilTeardownFunc`. -/
  teardown : Option T
  /-- The channel `closing` is closed. -/
  closing : Bool
  /-- The channel `closed` is closed. -/
  closed : Bool
  /-- What `Close` returns. -/
  closeErr : Option E
  /-- The mutex is locked. -/
  locked : Bool
  /-- The process is a local variable of `Go`, which no caller knows. -/
  hidden : Bool

/-- `newProcess`. -/
def newProcess {T : Type} (E : Type) (tf : Option T) (hidden : Bool) : Process T E :=
  ⟨[], [], [], tf, false, false, none, false, hidden⟩

/-- What a goroutine is about to do. The goroutine of a function that `Go` runs closes
the process `waitFor` and then, in `k`, the child. -/
inductive Goroutine (E : Type) where
  /-- Lock the mutex in `Close`. -/
  | close (p : ℕ) (k : Option ℕ)
  /-- In `doClose`, wait for the child of the link `w`, and then for those of `wf`. -/
  | waiting (p w : ℕ) (wf : List ℕ) (k : Option ℕ)
  /-- In `doClose`, return from the teardown function. -/
  | tearing (p : ℕ) (k : Option ℕ)
  /-- In `Close`, wait until another goroutine has closed the process. -/
  | joined (p : ℕ) (k : Option ℕ)
  /-- Nothing: `Close` returned. -/
  | returned (p : ℕ) (e : Option E)
  /-- `AddToChild`. -/
  | addToChild (l : ℕ)
  /-- `ClearChild` of each of the links. -/
  | clear (ls : List ℕ)
  /-- Lock the mutex in `CloseAfterChildren`. -/
  | closeAfterChildren (p : ℕ)
  /-- `nextToWaitFor` in `CloseAfterChildren`. -/
  | nextToWaitFor (p : ℕ)
  /-- In `CloseAfterChildren`, wait until `c` is closed. -/
  | awaits (p c : ℕ)
  /-- Return from the function that `Go` runs for the child `c`. -/
  | body (c w : ℕ)
  /-- Nothing: the goroutine panicked. -/
  | panicked
  /-- Nothing. -/
  | done

/-- The processes, the links and the goroutines. -/
structure Processes (T E : Type) where
  /-- The number of processes. -/
  size : ℕ
  /-- The processes. -/
  proc : ℕ → Process T E
  /-- The number of links. -/
  numLinks : ℕ
  /-- The child of each `processLink`. Nothing reads the parent. -/
  link : ℕ → Option ℕ
  /-- The goroutines. -/
  threads : List (Goroutine E)
  /-- Some goroutine panicked. -/
  panicked : Bool

/-- The steps of goroutines. -/
inductive ProcessEvent (T E : Type) where
  /-- `newProcess` by `WithTeardown` or `WithParent`. -/
  | newProcess (tf : Option T)
  /-- `SetTeardown`. -/
  | setTeardown (p : ℕ) (tf : Option T)
  /-- `WaitFor`. -/
  | waitFor (p q : ℕ)
  /-- `AddChildNoWait`. The process may be closed already, if the `select` takes the
  case `Closing`. -/
  | addChildNoWait (p q : ℕ) (late : Bool)
  /-- `AddChild`, also by `WithParent`. -/
  | addChild (p q : ℕ) (late : Bool)
  /-- `Go`, which returns the child `c`. -/
  | go (p c : ℕ) (late : Bool)
  /-- One of the last four finds the process closed and panics. -/
  | panic (p : ℕ)
  /-- A goroutine calls `Close`. -/
  | close (p : ℕ)
  /-- A goroutine calls `CloseAfterChildren`. -/
  | closeAfterChildren (p : ℕ)
  /-- A goroutine takes its next step. -/
  | run (i : ℕ)
  /-- The teardown function of `p` returns. -/
  | teardown (i p : ℕ) (e : Option E)
  /-- A function that `Go` runs returns. -/
  | returns (i : ℕ)

/-- A goroutine takes a step that it is about to take. -/
def ProcessEvent.Internal {T E : Type} : ProcessEvent T E → Bool
  | .run _ | .teardown _ _ _ | .returns _ => true
  | _ => false

/-- What a goroutine does after `Close` has returned. -/
def Goroutine.after {E : Type} (p : ℕ) (e : Option E) : Option ℕ → Goroutine E
  | none => .returned p e
  | some c => .closeAfterChildren c

/-- What `doClose` does after it has taken the processes to wait for. -/
def Goroutine.swept {E : Type} (p : ℕ) (k : Option ℕ) : List ℕ → Goroutine E
  | [] => .tearing p k
  | w :: wf => .waiting p w wf k

namespace Processes

variable {T E : Type} (s : Processes T E)

/-- Change one process. -/
def modify (p : ℕ) (f : Process T E → Process T E) : Processes T E :=
  { s with proc := Function.update s.proc p (f (s.proc p)) }

/-- Set what a goroutine is about to do. -/
def goto (i : ℕ) (g : Goroutine E) : Processes T E := { s with threads := s.threads.set i g }

/-- Start goroutines. -/
def spawn (gs : List (Goroutine E)) : Processes T E := { s with threads := s.threads ++ gs }

/-- Make a process. -/
def add (tf : Option T) (hidden : Bool) : Processes T E :=
  { s with size := s.size + 1, proc := Function.update s.proc s.size (newProcess E tf hidden) }

/-- Link a process `p` to `q`, and start the goroutine of `AddToChild`. -/
def addLink (p q : ℕ) (child wait : Bool) : Processes T E :=
  { s with
    proc := Function.update s.proc p { s.proc p with
      children := if child then (s.proc p).children ++ [s.numLinks] else (s.proc p).children
      waitfors := if wait then (s.proc p).waitfors ++ [s.numLinks] else (s.proc p).waitfors }
    numLinks := s.numLinks + 1
    link := Function.update s.link s.numLinks (some q)
    threads := s.threads ++ [.addToChild s.numLinks] }

/-- `AddChild` and, without waiting, `AddChildNoWait`: a process that is closing closes
the child at once. -/
def adopt (p q : ℕ) (wait : Bool) : Processes T E :=
  (if (s.proc p).closing then s.spawn [.close q none] else s).addLink p q true wait

/-- The process `waitFor` of `Go`, with the goroutine that runs the function of the
child `c` and closes that process afterwards. -/
def addFunction (c : ℕ) : Processes T E := (s.add none true).spawn [.body c s.size]

/-- `Go`: the child waits for a process of its own until its function has returned. -/
def go (p : ℕ) : Processes T E :=
  let c := s.size
  let w := s.size + 1
  (((s.add none false).addFunction c).addLink c w false true).adopt p c true

/-- `ChildClosed` is ready. -/
def childClosed (w : ℕ) : Bool := (s.link w).all fun c => (s.proc c).closed

/-- `nextToWaitFor`: the first process to wait for that is not closed. -/
def nextToWaitFor (p : ℕ) : Option ℕ :=
  ((s.proc p).waitfors.filterMap s.link).find? fun c => !(s.proc c).closed

/-- The loop of `doClose` up to the next point at which it waits, without the mutex, or
calls the teardown function, with the mutex: it closes the children, and takes the
processes to wait for. -/
def sweep (i p : ℕ) (k : Option ℕ) : Processes T E :=
  let closers := ((s.proc p).children.filterMap s.link).map fun c => .close c none
  ((s.modify p fun P =>
    { P with children := [], waitfors := [], locked := P.waitfors.isEmpty }).goto i
      (.swept p k (s.proc p).waitfors)).spawn closers

/-- The end of `doClose`, after the teardown function. -/
def finish (i p : ℕ) (e : Option E) (k : Option ℕ) : Processes T E :=
  ((s.modify p fun P => { P with closeErr := e, closed := true, locked := false }).goto i
    (.after p e k)).spawn [.clear (s.proc p).waiters]

/-- The next step of a goroutine. -/
def run (i : ℕ) : Option (Processes T E) :=
  match s.threads[i]? with
  | some (.close p k) =>
    if (s.proc p).locked then none
    else if (s.proc p).closing then some (s.goto i (.joined p k))
    else some ((s.modify p fun P => { P with closing := true }).sweep i p k)
  | some (.waiting p w wf k) =>
    if (s.proc p).locked || !s.childClosed w then none
    else match wf with
      | [] => some (s.sweep i p k)
      | w' :: wf' => some (s.goto i (.waiting p w' wf' k))
  | some (.joined p k) =>
    if (s.proc p).closed then some (s.goto i (.after p (s.proc p).closeErr k)) else none
  | some (.addToChild l) =>
    match s.link l with
    -- the type assertion on the child fails
    | none => some ({ s with panicked := true }.goto i .panicked)
    | some c =>
      if (s.proc c).locked then none
      else if (s.proc c).closed then some (s.goto i (.clear [l]))
      else some ((s.modify c fun P => { P with waiters := P.waiters ++ [l] }).goto i .done)
  | some (.clear []) => some (s.goto i .done)
  | some (.clear (l :: ls)) =>
    some ({ s with link := Function.update s.link l none }.goto i (.clear ls))
  | some (.closeAfterChildren p) =>
    -- the channel `waiting` is nil, so its case is never ready
    if (s.proc p).locked then none
    else if (s.proc p).closed then some (s.goto i (.close p none))
    else some (s.goto i (.nextToWaitFor p))
  | some (.nextToWaitFor p) =>
    if (s.proc p).locked then none
    else match s.nextToWaitFor p with
      | some c => some (s.goto i (.awaits p c))
      | none => some (s.goto i (.close p none))
  | some (.awaits p c) =>
    if (s.proc c).closed then some (s.goto i (.nextToWaitFor p)) else none
  | _ => none

/-- Callers know the process. -/
def Known (p : ℕ) : Bool := p < s.size && !(s.proc p).hidden

/-- A caller can enter a critical section of the process. -/
def Free (p : ℕ) : Bool := s.Known p && !(s.proc p).locked

/-- One step. -/
def next : ProcessEvent T E → Option (Processes T E)
  | .newProcess tf => some (s.add tf false)
  | .setTeardown p tf =>
    if s.Free p then some (s.modify p fun P => { P with teardown := tf }) else none
  | .waitFor p q =>
    if s.Free p && s.Known q && !(s.proc p).closed then some (s.addLink p q false true) else none
  | .addChildNoWait p q late =>
    if s.Free p && s.Known q && (s.proc p).closed == late then some (s.adopt p q false) else none
  | .addChild p q late =>
    if s.Free p && s.Known q && (s.proc p).closed == late then some (s.adopt p q true) else none
  | .go p c late =>
    if s.Free p && c == s.size && (s.proc p).closed == late then some (s.go p) else none
  | .panic p =>
    -- the mutex stays locked
    if s.Free p && (s.proc p).closed then
      some { s.modify p fun P => { P with locked := true } with panicked := true }
    else none
  | .close p => if s.Known p then some (s.spawn [.close p none]) else none
  | .closeAfterChildren p => if s.Known p then some (s.spawn [.closeAfterChildren p]) else none
  | .run i => s.run i
  | .teardown i p e =>
    match s.threads[i]? with
    | some (.tearing p' k) =>
      if p' = p ∧ ((s.proc p).teardown = none → e = none) then
        -- a second `close` of the channel `closed` panics
        if (s.proc p).closed then some ({ s with panicked := true }.goto i .panicked)
        else some (s.finish i p e k)
      else none
    | _ => none
  | .returns i =>
    match s.threads[i]? with
    | some (.body c w) => some (s.goto i (.close w (some c)))
    | _ => none

/-- The processes as a transition system. -/
def lts (T E : Type) : LTS (Processes T E) (ProcessEvent T E) := .ofFun next

/-- No processes. -/
def start (T E : Type) : Processes T E :=
  ⟨0, fun _ => newProcess E none false, 0, fun _ => none, [], false⟩

/-! ## Moves

Every step is a sequence of moves: one change of the processes, the links and the
goroutines each. -/

variable {s}

/-- A goroutine moves on and changes nothing else. -/
inductive Silent (s : Processes T E) : Goroutine E → Goroutine E → Prop
  | join {p : ℕ} {k : Option ℕ} (hclosing : (s.proc p).closing) :
    Silent s (.close p k) (.joined p k)
  | next {p w w' : ℕ} {wf : List ℕ} {k : Option ℕ} (hw : s.childClosed w) :
    Silent s (.waiting p w (w' :: wf) k) (.waiting p w' wf k)
  | after {p : ℕ} {k : Option ℕ} (hclosed : (s.proc p).closed) :
    Silent s (.joined p k) (.after p (s.proc p).closeErr k)
  | found {l c : ℕ} (hl : s.link l = some c) (hclosed : (s.proc c).closed) :
    Silent s (.addToChild l) (.clear [l])
  | cleared : Silent s (.clear []) .done
  | already {p : ℕ} (hclosed : (s.proc p).closed) :
    Silent s (.closeAfterChildren p) (.close p none)
  | search {p : ℕ} : Silent s (.closeAfterChildren p) (.nextToWaitFor p)
  | await {p c : ℕ} (hopen : (s.proc c).closed = false) :
    Silent s (.nextToWaitFor p) (.awaits p c)
  | complete {p : ℕ} : Silent s (.nextToWaitFor p) (.close p none)
  | awaited {p c : ℕ} (hclosed : (s.proc c).closed) : Silent s (.awaits p c) (.nextToWaitFor p)
  | returns {c w : ℕ} : Silent s (.body c w) (.close w (some c))

/-- A goroutine takes a step. -/
inductive Step : Processes T E → Processes T E → Prop
  | silent {s : Processes T E} {i : ℕ} {g g' : Goroutine E} (hi : s.threads[i]? = some g)
    (hg : Silent s g g') : Step s (s.goto i g')
  | begin {s : Processes T E} {i p : ℕ} {k : Option ℕ} (hi : s.threads[i]? = some (.close p k))
    (hfree : (s.proc p).locked = false) (hopen : (s.proc p).closing = false) :
    Step s ((s.modify p fun P => { P with closing := true }).sweep i p k)
  | resume {s : Processes T E} {i p w : ℕ} {k : Option ℕ}
    (hi : s.threads[i]? = some (.waiting p w [] k)) (hfree : (s.proc p).locked = false)
    (hw : s.childClosed w) : Step s (s.sweep i p k)
  | added {s : Processes T E} {i l c : ℕ} (hi : s.threads[i]? = some (.addToChild l))
    (hl : s.link l = some c) (hopen : (s.proc c).closed = false) :
    Step s ((s.modify c fun P => { P with waiters := P.waiters ++ [l] }).goto i .done)
  | clear {s : Processes T E} {i l : ℕ} {ls : List ℕ}
    (hi : s.threads[i]? = some (.clear (l :: ls))) :
    Step s ({ s with link := Function.update s.link l none }.goto i (.clear ls))
  | finish {s : Processes T E} {i p : ℕ} {k : Option ℕ} (e : Option E)
    (hi : s.threads[i]? = some (.tearing p k)) (hopen : (s.proc p).closed = false) :
    Step s (s.finish i p e k)
  | crash {s : Processes T E} {i : ℕ} {g : Goroutine E} (hi : s.threads[i]? = some g)
    (hg : (∃ l, g = .addToChild l ∧ s.link l = none) ∨
      ∃ p k, g = .tearing p k ∧ (s.proc p).closed) :
    Step s ({ s with panicked := true }.goto i .panicked)

/-- One change. -/
inductive Move : Processes T E → Processes T E → Prop
  | add {s : Processes T E} (tf : Option T) : Move s (s.add tf false)
  | addFunction {s : Processes T E} {c : ℕ} (hc : c < s.size) (hknown : (s.proc c).hidden = false) :
    Move s (s.addFunction c)
  | close {s : Processes T E} {p : ℕ} (hp : p < s.size) (hknown : (s.proc p).hidden = false) :
    Move s (s.spawn [.close p none])
  | closeAfterChildren {s : Processes T E} {p : ℕ} (hp : p < s.size)
    (hknown : (s.proc p).hidden = false) : Move s (s.spawn [.closeAfterChildren p])
  | addLink {s : Processes T E} {p q : ℕ} (child wait : Bool) (hp : p < s.size) (hq : q < s.size)
    (hknown : child = true → (s.proc q).hidden = false) : Move s (s.addLink p q child wait)
  | setTeardown {s : Processes T E} {p : ℕ} (tf : Option T) (hp : p < s.size) :
    Move s (s.modify p fun P => { P with teardown := tf })
  | panic {s : Processes T E} {p : ℕ} (hp : p < s.size) (hclosed : (s.proc p).closed) :
    Move s { s.modify p fun P => { P with locked := true } with panicked := true }
  | step {s t : Processes T E} (hstep : Step s t) : Move s t

/-- What the next step of a goroutine is. -/
theorem step_of_run {t : Processes T E} {i : ℕ} (h : s.run i = some t) : Step s t := by
  unfold run at h
  split at h
  case h_1 p k hi =>
    split at h
    · cases h
    next hfree =>
      split at h
      next hclosing =>
        cases h
        exact .silent hi (.join hclosing)
      next hopen =>
        cases h
        exact .begin hi (by simpa using hfree) (by simpa using hopen)
  case h_2 p w wf k hi =>
    split at h
    · cases h
    next hready =>
      simp only [Bool.or_eq_true, Bool.not_eq_true', not_or, Bool.not_eq_true,
        Bool.not_eq_false] at hready
      split at h
      · cases h
        exact .resume hi hready.1 hready.2
      · cases h
        exact .silent hi (.next hready.2)
  case h_3 p k hi =>
    obtain ⟨hclosed, ht⟩ := Option.ite_none_right_eq_some.mp h
    cases ht
    exact .silent hi (.after hclosed)
  case h_4 l hi =>
    split at h
    next hl =>
      cases h
      exact .crash hi (.inl ⟨l, rfl, hl⟩)
    next c hl =>
      split at h
      · cases h
      split at h
      next hclosed =>
        cases h
        exact .silent hi (.found hl hclosed)
      next hopen =>
        cases h
        exact .added hi hl (by simpa using hopen)
  case h_5 hi =>
    cases h
    exact .silent hi .cleared
  case h_6 l ls hi =>
    cases h
    exact .clear hi
  case h_7 p hi =>
    split at h
    · cases h
    split at h
    next hclosed =>
      cases h
      exact .silent hi (.already hclosed)
    next =>
      cases h
      exact .silent hi .search
  case h_8 p hi =>
    split at h
    · cases h
    split at h
    next c hc =>
      cases h
      exact .silent hi (.await (by simpa using List.find?_some hc))
    next =>
      cases h
      exact .silent hi .complete
  case h_9 p c hi =>
    obtain ⟨hclosed, ht⟩ := Option.ite_none_right_eq_some.mp h
    cases ht
    exact .silent hi (.awaited hclosed)
  case h_10 => cases h

/-- What a step of a goroutine is. -/
theorem step_of_internal {t : Processes T E} {l : ProcessEvent T E} (hl : l.Internal)
    (h : s.next l = some t) : Step s t := by
  cases l with
  | run i => exact step_of_run h
  | teardown i p e =>
    simp only [next] at h
    split at h
    next p' k hi =>
      obtain ⟨⟨rfl, -⟩, ht⟩ := Option.ite_none_right_eq_some.mp h
      split at ht
      next hclosed =>
        cases ht
        exact .crash hi (.inr ⟨_, k, rfl, hclosed⟩)
      next hopen =>
        cases ht
        exact .finish e hi (by simpa using hopen)
    next => cases h
  | returns i =>
    simp only [next] at h
    split at h
    next c w hi =>
      cases h
      exact .silent hi .returns
    next => cases h
  | _ => cases hl

/-- `AddChild` is a sequence of moves. -/
theorem moves_adopt {p q : ℕ} {wait : Bool} (hp : p < s.size) (hq : q < s.size)
    (hknown : (s.proc q).hidden = false) : Relation.ReflTransGen Move s (s.adopt p q wait) := by
  unfold adopt
  split
  · exact (Relation.ReflTransGen.single (.close hq hknown)).tail
      (.addLink true wait hp hq fun _ => hknown)
  · exact .single (.addLink true wait hp hq fun _ => hknown)

/-- `Go` is a sequence of moves. -/
theorem moves_go {p : ℕ} (hp : p < s.size) : Relation.ReflTransGen Move s (s.go p) := by
  have hchild : ((s.add none false).proc s.size).hidden = false := by simp [add, newProcess]
  have hfun : (((s.add none false).addFunction s.size).proc s.size).hidden = false := by
    simp [addFunction, spawn, add, newProcess]
  have hlink : ((((s.add none false).addFunction s.size).addLink s.size (s.size + 1) false
      true).proc s.size).hidden = false := by
    simpa [addLink] using hfun
  refine .trans ?_ (moves_adopt (Nat.lt_succ_of_lt (Nat.lt_succ_of_lt hp))
    (Nat.lt_succ_of_lt (Nat.lt_succ_self _)) hlink)
  exact ((Relation.ReflTransGen.single (.add none)).tail
    (.addFunction (Nat.lt_succ_self _) hchild)).tail
      (.addLink false true (Nat.lt_succ_of_lt (Nat.lt_succ_self _)) (Nat.lt_succ_self _)
        (fun hchild => by cases hchild))

/-- Callers know the process. -/
theorem known_iff {p : ℕ} : s.Known p ↔ p < s.size ∧ (s.proc p).hidden = false := by
  simp [Known]

/-- A caller can enter a critical section of the process. -/
theorem free_iff {p : ℕ} :
    s.Free p ↔ (p < s.size ∧ (s.proc p).hidden = false) ∧ (s.proc p).locked = false := by
  simp [Free, known_iff]

/-- Every step is a sequence of moves. -/
theorem moves_of_next {t : Processes T E} {l : ProcessEvent T E} (h : s.next l = some t) :
    Relation.ReflTransGen Move s t := by
  cases l with
  | newProcess tf =>
    cases h
    exact .single (.add tf)
  | setTeardown p tf =>
    obtain ⟨hfree, ht⟩ := Option.ite_none_right_eq_some.mp h
    cases ht
    exact .single (.setTeardown tf (free_iff.mp hfree).1.1)
  | waitFor p q =>
    simp only [next, Option.ite_none_right_eq_some, Bool.and_eq_true] at h
    obtain ⟨⟨⟨hfree, hq⟩, -⟩, ht⟩ := h
    cases ht
    exact .single (.addLink false true (free_iff.mp hfree).1.1 (known_iff.mp hq).1
      (fun hchild => by cases hchild))
  | addChildNoWait p q late | addChild p q late =>
    simp only [next, Option.ite_none_right_eq_some, Bool.and_eq_true] at h
    obtain ⟨⟨⟨hfree, hq⟩, -⟩, ht⟩ := h
    cases ht
    exact moves_adopt (free_iff.mp hfree).1.1 (known_iff.mp hq).1 (known_iff.mp hq).2
  | go p c late =>
    simp only [next, Option.ite_none_right_eq_some, Bool.and_eq_true] at h
    obtain ⟨⟨⟨hfree, -⟩, -⟩, ht⟩ := h
    cases ht
    exact moves_go (free_iff.mp hfree).1.1
  | panic p =>
    simp only [next, Option.ite_none_right_eq_some, Bool.and_eq_true] at h
    obtain ⟨⟨hfree, hclosed⟩, ht⟩ := h
    cases ht
    exact .single (.panic (free_iff.mp hfree).1.1 hclosed)
  | close p =>
    obtain ⟨hp, ht⟩ := Option.ite_none_right_eq_some.mp h
    cases ht
    exact .single (.close (known_iff.mp hp).1 (known_iff.mp hp).2)
  | closeAfterChildren p =>
    obtain ⟨hp, ht⟩ := Option.ite_none_right_eq_some.mp h
    cases ht
    exact .single (.closeAfterChildren (known_iff.mp hp).1 (known_iff.mp hp).2)
  | run i | teardown i p e | returns i => exact .single (.step (step_of_internal rfl h))

/-- What every move keeps, every step keeps. -/
theorem next_induction {t : Processes T E} {l : ProcessEvent T E} (I : Processes T E → Prop)
    (hmove : ∀ s t, Move s t → I s → I t) (h : s.next l = some t) (hs : I s) : I t := by
  have hmoves := moves_of_next h
  clear h
  induction hmoves with
  | refl => exact hs
  | tail _ hlast ih => exact hmove _ _ hlast ih

end Processes

end GoBlocks
