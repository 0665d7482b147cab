import GoBlocks.Lib.Transition
import Mathlib.Data.List.Basic
import Mathlib.Logic.Function.Basic

/-!
# Contexts

The contexts of `golang.org/x/net/context` form a tree. A context that can be cancelled
keeps its children in a map, and `cancel` cancels them with the mutex of the context
locked, so that a goroutine holds the mutexes of a path in the tree. Any number of
goroutines derive contexts, cancel them and let deadlines pass. A critical section of a
mutex is one step, unless the goroutine locks another mutex inside.
-/

namespace GoBlocks

/-- What `Err` returns after `Done` is closed. -/
inductive CtxErr where
  | canceled
  | deadlineExceeded
  deriving DecidableEq

/-- A `Context`. The struct of a `cancelCtx` or a `timerCtx` has a number. -/
inductive Ctx where
  /-- `Background` and `TODO`. -/
  | empty
  /-- A type of another package that implements the interface. -/
  | custom (i : ℕ) (deadline : Option ℕ)
  | cancelCtx (id : ℕ) (parent : Ctx)
  | timerCtx (id deadline : ℕ) (parent : Ctx)
  /-- `valueCtx`, without its key and its value. -/
  | valueCtx (parent : Ctx)
  deriving DecidableEq

/-- A `canceler`: a `cancelCtx`, or a `timerCtx` with its deadline. -/
structure Canceler where
  id : ℕ
  deadline : Option ℕ
  parent : Ctx
  deriving DecidableEq

/-- The canceler as a context. -/
def Canceler.toCtx (x : Canceler) : Ctx :=
  match x.deadline with
  | none => .cancelCtx x.id x.parent
  | some d => .timerCtx x.id d x.parent

namespace Ctx

/-- `Deadline`. -/
def deadline? : Ctx → Option ℕ
  | .empty => none
  | .custom _ d => d
  | .timerCtx _ d _ => some d
  | .cancelCtx _ parent | .valueCtx parent => parent.deadline?

/-- `Done` returns nil. -/
def neverDone : Ctx → Bool
  | .empty => true
  | .custom _ _ | .cancelCtx _ _ | .timerCtx _ _ _ => false
  | .valueCtx parent => parent.neverDone

/-- The cancelers among a context and those it was derived from, from the context on. -/
def cancelers : Ctx → List Canceler
  | .empty | .custom _ _ => []
  | .cancelCtx id parent => ⟨id, none, parent⟩ :: parent.cancelers
  | .timerCtx id d parent => ⟨id, some d, parent⟩ :: parent.cancelers
  | .valueCtx parent => parent.cancelers

end Ctx

/-- `parentCancelCtx`. -/
def parentCancelCtx : Ctx → Option Canceler
  | .cancelCtx id parent => some ⟨id, none, parent⟩
  | .timerCtx id d parent => some ⟨id, some d, parent⟩
  | .valueCtx parent => parentCancelCtx parent
  | .empty | .custom _ _ => none

/-- The cancelers above the context of a canceler are itself and those above its parent. -/
@[simp] theorem Canceler.cancelers_toCtx (x : Canceler) :
    x.toCtx.cancelers = x :: x.parent.cancelers := by
  obtain ⟨id, d, parent⟩ := x
  cases d <;> rfl

/-- A canceler is the first of those that its context is derived from. -/
theorem Canceler.mem_cancelers_toCtx (x : Canceler) : x ∈ x.toCtx.cancelers := by
  rw [cancelers_toCtx]
  exact List.mem_cons_self

/-- The cancelers of a context are those of the first of them. -/
theorem Ctx.cancelers_of_parentCancelCtx {c : Ctx} {p : Canceler}
    (h : parentCancelCtx c = some p) : c.cancelers = p :: p.parent.cancelers := by
  induction c with
  | empty | custom => cases h
  | cancelCtx | timerCtx =>
    cases h
    rfl
  | valueCtx parent ih => exact ih h

/-- The struct of a canceler. -/
structure CancelCell where
  /-- The error of the first cancel call. -/
  err : Option CtxErr
  /-- The channel `done` is closed. -/
  done : Bool
  children : List Canceler
  /-- The goroutine that has locked the mutex. -/
  mu : Option ℕ
  /-- The timer runs. -/
  timer : Bool

/-- `newCancelCtx`. -/
def newCancelCtx : CancelCell := ⟨none, false, [], none, false⟩

namespace Contexts

/-- Where a call of `cancel` stands. -/
inductive CallPc where
  /-- Lock the mutex. -/
  | enter
  /-- With the mutex locked, cancel the children that are left. -/
  | sweep (rest : List Canceler)
  /-- `removeChild`. -/
  | detach
  /-- Stop the timer of a `timerCtx`. -/
  | stop

/-- A call of `cancel`. -/
structure Call where
  c : Canceler
  removeFromParent : Bool
  err : CtxErr
  pc : CallPc

/-- Where a goroutine stands outside of its calls of `cancel`. -/
inductive Base where
  /-- `propagateCancel`. -/
  | propagate (x : Canceler)
  /-- In `propagateCancel`, with the mutex of the parent `p` locked, cancel the child. -/
  | adopted (p x : Canceler)
  /-- Look at the clock in `WithDeadline`. -/
  | expires (x : Canceler)
  /-- Start the timer in `WithDeadline`. -/
  | arm (x : Canceler)
  /-- Return the context. -/
  | ret (x : Canceler)
  /-- The goroutine of `propagateCancel` that waits for a parent of another package. -/
  | watch (x : Canceler)
  | done

/-- What a goroutine runs. -/
inductive Task where
  /-- `WithCancel` or `WithDeadline`. -/
  | make (x : Canceler)
  /-- The `CancelFunc` of the context. -/
  | cancel (x : Canceler)
  /-- The function of the timer. -/
  | timer (x : Canceler)
  /-- The goroutine of `propagateCancel`. -/
  | watch (x : Canceler)

/-- A goroutine. The call that it is in comes first. -/
structure Thread where
  task : Task
  base : Base
  calls : List Call

/-- A choice that a goroutine makes. -/
inductive Act where
  /-- The next statement, or the first case of the `select`. -/
  | next
  /-- The loop over the children comes to one of them. -/
  | visit (x : Canceler)
  /-- The second case of the `select`. -/
  | leave

/-- What remains of a call after `cancelCtx.cancel`, which may have returned because the
context was cancelled before. -/
def Call.afterCancel (k : Call) (before : Bool) : List Call :=
  match k.c.deadline with
  | none => if k.removeFromParent && !before then [{ k with pc := .detach }] else []
  | some _ =>
    if k.removeFromParent then [{ k with pc := .detach }] else [{ k with pc := .stop }]

/-- What remains of a call after `removeChild`. -/
def Call.afterDetach (k : Call) : List Call :=
  match k.c.deadline with
  | none => []
  | some _ => [{ k with pc := .stop }]

/-- What remains of `WithCancel` or `WithDeadline` after `propagateCancel`. -/
def afterPropagate (x : Canceler) : Base :=
  match x.deadline with
  | none => .ret x
  | some _ => .expires x

end Contexts

open Contexts in
/-- The contexts and the goroutines. -/
structure Contexts where
  /-- The cancelers in the order in which they were made. -/
  made : List Canceler
  cell : ℕ → CancelCell
  /-- The error of each custom context that is done. -/
  custom : ℕ → Option CtxErr
  /-- The contexts that were returned to a caller. -/
  known : List Ctx
  threads : List Thread
  /-- The clock. -/
  now : ℕ
  /-- Some goroutine closed a channel for the second time. -/
  panicked : Bool

/-- The steps of goroutines. -/
inductive CtxEvent where
  | withCancel (parent : Ctx)
  | withDeadline (parent : Ctx) (d : ℕ)
  | withValue (parent : Ctx)
  /-- A goroutine calls a `CancelFunc`. -/
  | cancel (x : Canceler)
  /-- A timer fires. -/
  | fire (x : Canceler)
  /-- A custom context is done. -/
  | finish (i : ℕ) (e : CtxErr)
  /-- Time passes. -/
  | tick
  /-- A goroutine takes its next step. -/
  | run (i : ℕ) (a : Contexts.Act)

namespace Contexts

/-- There is only `Background`. -/
def start : Contexts := ⟨[], fun _ => newCancelCtx, fun _ => none, [], [], 0, false⟩

variable (s : Contexts)

/-- `Err`, and whether `Done` is closed. -/
def err? : Ctx → Option CtxErr
  | .empty => none
  | .custom i _ => s.custom i
  | .cancelCtx id _ | .timerCtx id _ _ => (s.cell id).err
  | .valueCtx parent => err? parent

/-- Change the struct of a canceler. -/
def modify (n : ℕ) (f : CancelCell → CancelCell) : Contexts :=
  { s with cell := Function.update s.cell n (f (s.cell n)) }

/-- Set what a goroutine is about to do. -/
def goto (i : ℕ) (th : Thread) (base : Base) (calls : List Call) : Contexts :=
  { s with threads := s.threads.set i ⟨th.task, base, calls⟩ }

/-- Start a goroutine. -/
def spawn (th : Thread) : Contexts := { s with threads := s.threads ++ [th] }

/-- Set what a goroutine is about to do, and start another one that watches the parent of
a context. -/
def become (i : ℕ) (th : Thread) (base : Base) (calls : List Call) : Option Canceler → Contexts
  | none => s.goto i th base calls
  | some x => (s.goto i th base calls).spawn ⟨.watch x, .watch x, []⟩

/-- The first call of `cancel` for a context: set the error, close `done` and begin with
the children. -/
def win (i : ℕ) (k : Call) : Contexts :=
  { s.modify k.c.id fun c => { c with err := some k.err, done := true, mu := some i } with
    panicked := s.panicked || (s.cell k.c.id).done }

/-- A step in a call of `cancel`. -/
def stepCall (i : ℕ) (th : Thread) (k : Call) (ks : List Call) : CallPc → Act → Option Contexts
  | .enter, .next =>
    if (s.cell k.c.id).mu.isSome then none
    else if (s.cell k.c.id).err.isSome then
      some (s.goto i th th.base (k.afterCancel true ++ ks))
    else
      some ((s.win i k).goto i th th.base
        ({ k with pc := .sweep (s.cell k.c.id).children } :: ks))
  | .sweep rest, .visit x =>
    if x ∈ rest then
      some (s.goto i th th.base
        (⟨x, false, k.err, .enter⟩ :: { k with pc := .sweep (rest.erase x) } :: ks))
    else none
  | .sweep [], .next =>
    some ((s.modify k.c.id fun c => { c with children := [], mu := none }).goto i th th.base
      (k.afterCancel false ++ ks))
  | .detach, .next =>
    match parentCancelCtx k.c.parent with
    | none => some (s.goto i th th.base (k.afterDetach ++ ks))
    | some p =>
      if (s.cell p.id).mu.isSome then none
      else some ((s.modify p.id fun c => { c with children := c.children.erase k.c }).goto i th
        th.base (k.afterDetach ++ ks))
  | .stop, .next =>
    if (s.cell k.c.id).mu.isSome then none
    else some ((s.modify k.c.id fun c => { c with timer := false }).goto i th th.base ks)
  | _, _ => none

/-- A step outside of the calls of `cancel`. -/
def stepBase (i : ℕ) (th : Thread) : Base → Act → Option Contexts
  | .propagate x, .next =>
    if x.parent.neverDone then some (s.goto i th (afterPropagate x) [])
    else
      match parentCancelCtx x.parent with
      | none => some (s.become i th (afterPropagate x) [] (some x))
      | some p =>
        if (s.cell p.id).mu.isSome then none
        else
          match (s.cell p.id).err with
          | some e =>
            some ((s.modify p.id fun c => { c with mu := some i }).goto i th (.adopted p x)
              [⟨x, false, e, .enter⟩])
          | none =>
            some ((s.modify p.id fun c => { c with children := c.children.insert x }).goto i th
              (afterPropagate x) [])
  | .adopted p x, .next =>
    some ((s.modify p.id fun c => { c with mu := none }).goto i th (afterPropagate x) [])
  | .expires x, .next =>
    match x.deadline with
    | none => none
    | some d =>
      if d ≤ s.now then some (s.goto i th (.ret x) [⟨x, true, .deadlineExceeded, .enter⟩])
      else some (s.goto i th (.arm x) [])
  | .arm x, .next =>
    if (s.cell x.id).mu.isSome then none
    else some ((s.modify x.id fun c => { c with timer := c.err.isNone }).goto i th (.ret x) [])
  | .ret x, .next => some ({ s with known := x.toCtx :: s.known }.goto i th .done [])
  | .watch x, .next =>
    (s.err? x.parent).map fun e => s.goto i th .done [⟨x, false, e, .enter⟩]
  | .watch x, .leave => if (s.cell x.id).done then some (s.goto i th .done []) else none
  | _, _ => none

/-- One step of a goroutine. -/
def step (i : ℕ) (a : Act) : Option Contexts :=
  match s.threads[i]? with
  | none => none
  | some th =>
    match th.calls with
    | [] => s.stepBase i th th.base a
    | k :: ks => s.stepCall i th k ks k.pc a

/-- Make a canceler, and call `propagateCancel`. -/
def make (d : Option ℕ) (parent : Ctx) : Contexts :=
  { s with
    made := s.made ++ [⟨s.made.length, d, parent⟩]
    cell := Function.update s.cell s.made.length newCancelCtx
    threads := s.threads ++
      [⟨.make ⟨s.made.length, d, parent⟩, .propagate ⟨s.made.length, d, parent⟩, []⟩] }

/-- A caller has the context. -/
def Has : Ctx → Bool
  | .empty | .custom _ _ => true
  | c => c ∈ s.known

/-- One step. -/
def next : CtxEvent → Option Contexts
  | .withCancel parent => if s.Has parent then some (s.make none parent) else none
  | .withDeadline parent d =>
    if s.Has parent then
      match parent.deadline? with
      | some cur => if cur < d then some (s.make none parent) else some (s.make (some d) parent)
      | none => some (s.make (some d) parent)
    else none
  | .withValue parent =>
    if s.Has parent then some { s with known := .valueCtx parent :: s.known } else none
  | .cancel x =>
    if x.toCtx ∈ s.known then some (s.spawn ⟨.cancel x, .done, [⟨x, true, .canceled, .enter⟩]⟩)
    else none
  | .fire x =>
    if x ∈ s.made ∧ (s.cell x.id).timer ∧ x.deadline.any (· ≤ s.now) then
      some ((s.modify x.id fun c => { c with timer := false }).spawn
        ⟨.timer x, .done, [⟨x, true, .deadlineExceeded, .enter⟩]⟩)
    else none
  | .finish i e =>
    if (s.custom i).isSome then none
    else some { s with custom := Function.update s.custom i (some e) }
  | .tick => some { s with now := s.now + 1 }
  | .run i a => s.step i a

/-- The contexts as a transition system. -/
def lts : LTS Contexts CtxEvent := .ofFun next

/-- What the steps of a goroutine do: the contexts after the step, where the goroutine
stands then, and the context whose parent a new goroutine watches. -/
inductive Step (s : Contexts) (i : ℕ) (th : Thread) :
    Contexts → Base → List Call → Option Canceler → Prop
  /-- The context was cancelled before. -/
  | late {k : Call} {ks : List Call} (hcalls : th.calls = k :: ks) (hpc : k.pc = .enter)
      (hmu : (s.cell k.c.id).mu = none) (herr : (s.cell k.c.id).err.isSome) :
    Step s i th s th.base (k.afterCancel true ++ ks) none
  | win {k : Call} {ks : List Call} (hcalls : th.calls = k :: ks) (hpc : k.pc = .enter)
      (hmu : (s.cell k.c.id).mu = none) (herr : (s.cell k.c.id).err = none) :
    Step s i th (s.win i k) th.base ({ k with pc := .sweep (s.cell k.c.id).children } :: ks) none
  | visit {k : Call} {ks : List Call} {rest : List Canceler} {x : Canceler}
      (hcalls : th.calls = k :: ks) (hpc : k.pc = .sweep rest) (hx : x ∈ rest) :
    Step s i th s th.base
      (⟨x, false, k.err, .enter⟩ :: { k with pc := .sweep (rest.erase x) } :: ks) none
  | swept {k : Call} {ks : List Call} (hcalls : th.calls = k :: ks) (hpc : k.pc = .sweep []) :
    Step s i th (s.modify k.c.id fun c => { c with children := [], mu := none }) th.base
      (k.afterCancel false ++ ks) none
  | rootless {k : Call} {ks : List Call} (hcalls : th.calls = k :: ks) (hpc : k.pc = .detach)
      (hparent : parentCancelCtx k.c.parent = none) :
    Step s i th s th.base (k.afterDetach ++ ks) none
  | detach {k : Call} {ks : List Call} {p : Canceler} (hcalls : th.calls = k :: ks)
      (hpc : k.pc = .detach) (hparent : parentCancelCtx k.c.parent = some p)
      (hmu : (s.cell p.id).mu = none) :
    Step s i th (s.modify p.id fun c => { c with children := c.children.erase k.c }) th.base
      (k.afterDetach ++ ks) none
  | stop {k : Call} {ks : List Call} (hcalls : th.calls = k :: ks) (hpc : k.pc = .stop)
      (hmu : (s.cell k.c.id).mu = none) :
    Step s i th (s.modify k.c.id fun c => { c with timer := false }) th.base ks none
  /-- The parent is never cancelled. -/
  | never {x : Canceler} (hcalls : th.calls = []) (hbase : th.base = .propagate x)
      (hparent : x.parent.neverDone) : Step s i th s (afterPropagate x) [] none
  | watch {x : Canceler} (hcalls : th.calls = []) (hbase : th.base = .propagate x)
      (hparent : parentCancelCtx x.parent = none) : Step s i th s (afterPropagate x) [] (some x)
  /-- The parent has already been cancelled. -/
  | adopt {x p : Canceler} {e : CtxErr} (hcalls : th.calls = []) (hbase : th.base = .propagate x)
      (hparent : parentCancelCtx x.parent = some p) (hmu : (s.cell p.id).mu = none)
      (herr : (s.cell p.id).err = some e) :
    Step s i th (s.modify p.id fun c => { c with mu := some i }) (.adopted p x)
      [⟨x, false, e, .enter⟩] none
  | register {x p : Canceler} (hcalls : th.calls = []) (hbase : th.base = .propagate x)
      (hparent : parentCancelCtx x.parent = some p) (hmu : (s.cell p.id).mu = none)
      (herr : (s.cell p.id).err = none) :
    Step s i th (s.modify p.id fun c => { c with children := c.children.insert x })
      (afterPropagate x) [] none
  | release {p x : Canceler} (hcalls : th.calls = []) (hbase : th.base = .adopted p x) :
    Step s i th (s.modify p.id fun c => { c with mu := none }) (afterPropagate x) [] none
  | expired {x : Canceler} {d : ℕ} (hcalls : th.calls = []) (hbase : th.base = .expires x)
      (hd : x.deadline = some d) (hnow : d ≤ s.now) :
    Step s i th s (.ret x) [⟨x, true, .deadlineExceeded, .enter⟩] none
  | expires {x : Canceler} (hcalls : th.calls = []) (hbase : th.base = .expires x) :
    Step s i th s (.arm x) [] none
  | arm {x : Canceler} (hcalls : th.calls = []) (hbase : th.base = .arm x)
      (hmu : (s.cell x.id).mu = none) :
    Step s i th (s.modify x.id fun c => { c with timer := c.err.isNone }) (.ret x) [] none
  | ret {x : Canceler} (hcalls : th.calls = []) (hbase : th.base = .ret x) :
    Step s i th { s with known := x.toCtx :: s.known } .done [] none
  | alarm {x : Canceler} {e : CtxErr} (hcalls : th.calls = []) (hbase : th.base = .watch x)
      (herr : s.err? x.parent = some e) : Step s i th s .done [⟨x, false, e, .enter⟩] none
  | leave {x : Canceler} (hcalls : th.calls = []) (hbase : th.base = .watch x)
      (hdone : (s.cell x.id).done) : Step s i th s .done [] none

/-- The step function takes such steps only. -/
theorem step_of_run {s t : Contexts} {i : ℕ} {a : Act} (h : s.step i a = some t) :
    ∃ th r base calls w, s.threads[i]? = some th ∧ Step s i th r base calls w ∧
      r.become i th base calls w = t := by
  unfold step at h
  split at h
  next => cases h
  next th hi =>
    suffices hstep : ∃ r base calls w, Step s i th r base calls w ∧
        r.become i th base calls w = t by
      obtain ⟨r, base, calls, w, hstep, ht⟩ := hstep
      exact ⟨th, r, base, calls, w, hi, hstep, ht⟩
    split at h
    next hcalls =>
      generalize hbase : th.base = base at h
      unfold stepBase at h
      split at h
      · split at h
        next hnever =>
          cases h
          exact ⟨_, _, _, _, .never hcalls hbase hnever, rfl⟩
        next =>
          split at h
          next hparent =>
            cases h
            exact ⟨_, _, _, _, .watch hcalls hbase hparent, rfl⟩
          next hparent =>
            split at h
            next => cases h
            next hmu =>
              have hmu := Option.not_isSome_iff_eq_none.mp hmu
              split at h
              next herr =>
                cases h
                exact ⟨_, _, _, _, .adopt hcalls hbase hparent hmu herr, rfl⟩
              next herr =>
                cases h
                exact ⟨_, _, _, _, .register hcalls hbase hparent hmu herr, rfl⟩
      · cases h
        exact ⟨_, _, _, _, .release hcalls hbase, rfl⟩
      · split at h
        next => cases h
        next hd =>
          split at h
          next hnow =>
            cases h
            exact ⟨_, _, _, _, .expired hcalls hbase hd hnow, rfl⟩
          next =>
            cases h
            exact ⟨_, _, _, _, .expires hcalls hbase, rfl⟩
      · split at h
        next => cases h
        next hmu =>
          cases h
          exact ⟨_, _, _, _, .arm hcalls hbase (Option.not_isSome_iff_eq_none.mp hmu), rfl⟩
      · cases h
        exact ⟨_, _, _, _, .ret hcalls hbase, rfl⟩
      · obtain ⟨e, herr, rfl⟩ := Option.map_eq_some_iff.mp h
        exact ⟨_, _, _, _, .alarm hcalls hbase herr, rfl⟩
      · obtain ⟨hdone, h⟩ := Option.ite_none_right_eq_some.mp h
        cases h
        exact ⟨_, _, _, _, .leave hcalls hbase hdone, rfl⟩
      · cases h
    next k ks hcalls =>
      generalize hpc : k.pc = pc at h
      unfold stepCall at h
      split at h
      · split at h
        next => cases h
        next hmu =>
          have hmu := Option.not_isSome_iff_eq_none.mp hmu
          split at h
          next herr =>
            cases h
            exact ⟨_, _, _, _, .late hcalls hpc hmu herr, rfl⟩
          next herr =>
            cases h
            exact ⟨_, _, _, _, .win hcalls hpc hmu (Option.not_isSome_iff_eq_none.mp herr), rfl⟩
      · obtain ⟨hx, h⟩ := Option.ite_none_right_eq_some.mp h
        cases h
        exact ⟨_, _, _, _, .visit hcalls hpc hx, rfl⟩
      · cases h
        exact ⟨_, _, _, _, .swept hcalls hpc, rfl⟩
      · split at h
        next hparent =>
          cases h
          exact ⟨_, _, _, _, .rootless hcalls hpc hparent, rfl⟩
        next hparent =>
          split at h
          next => cases h
          next hmu =>
            have hmu := Option.not_isSome_iff_eq_none.mp hmu
            cases h
            exact ⟨_, _, _, _, .detach hcalls hpc hparent hmu, rfl⟩
      · split at h
        next => cases h
        next hmu =>
          cases h
          exact ⟨_, _, _, _, .stop hcalls hpc (Option.not_isSome_iff_eq_none.mp hmu), rfl⟩
      · cases h

/-- The moves of callers, and the steps of goroutines. -/
inductive Move (s : Contexts) : Contexts → Prop
  /-- A deadline is not later than that of the parent. -/
  | make (d : Option ℕ) {parent : Ctx} (hparent : s.Has parent)
      (hd : ∀ d' cur, d = some d' → parent.deadline? = some cur → d' ≤ cur) :
    Move s (s.make d parent)
  | withValue {parent : Ctx} (hparent : s.Has parent) :
    Move s { s with known := .valueCtx parent :: s.known }
  | cancel {x : Canceler} (hx : x.toCtx ∈ s.known) :
    Move s (s.spawn ⟨.cancel x, .done, [⟨x, true, .canceled, .enter⟩]⟩)
  | fire {x : Canceler} {d : ℕ} (hx : x ∈ s.made) (htimer : (s.cell x.id).timer)
      (hd : x.deadline = some d) (hnow : d ≤ s.now) :
    Move s ((s.modify x.id fun c => { c with timer := false }).spawn
      ⟨.timer x, .done, [⟨x, true, .deadlineExceeded, .enter⟩]⟩)
  | finish {i : ℕ} (e : CtxErr) (hi : s.custom i = none) :
    Move s { s with custom := Function.update s.custom i (some e) }
  | tick : Move s { s with now := s.now + 1 }
  | step {i : ℕ} {th : Thread} {r : Contexts} {base : Base} {calls : List Call}
      {w : Option Canceler} (hi : s.threads[i]? = some th) (hstep : Step s i th r base calls w) :
    Move s (r.become i th base calls w)

/-- The step function makes such moves only. -/
theorem move_of_next {s t : Contexts} {l : CtxEvent} (h : s.next l = some t) : Move s t := by
  cases l with
  | withCancel parent =>
    obtain ⟨hparent, h⟩ := Option.ite_none_right_eq_some.mp h
    cases h
    exact .make none hparent fun _ _ hd => by cases hd
  | withDeadline parent d =>
    obtain ⟨hparent, h⟩ := Option.ite_none_right_eq_some.mp h
    split at h
    next cur hcur =>
      split at h
      next =>
        cases h
        exact .make none hparent fun _ _ hd => by cases hd
      next hle =>
        cases h
        refine .make (some d) hparent fun d' cur' hd hcur' => ?_
        cases hd
        cases hcur.symm.trans hcur'
        exact Nat.not_lt.mp hle
    next hnone =>
      cases h
      exact .make (some d) hparent fun _ _ _ hcur => by cases hnone.symm.trans hcur
  | withValue parent =>
    obtain ⟨hparent, h⟩ := Option.ite_none_right_eq_some.mp h
    cases h
    exact .withValue hparent
  | cancel x =>
    obtain ⟨hx, h⟩ := Option.ite_none_right_eq_some.mp h
    cases h
    exact .cancel hx
  | fire x =>
    obtain ⟨⟨hx, htimer, hd⟩, h⟩ := Option.ite_none_right_eq_some.mp h
    cases h
    obtain ⟨d, hd, hnow⟩ := (Option.any_eq_true _ _).mp hd
    exact .fire hx htimer hd (of_decide_eq_true hnow)
  | finish i e =>
    obtain ⟨hi, h⟩ := Option.ite_none_left_eq_some.mp h
    cases h
    exact .finish e (Option.not_isSome_iff_eq_none.mp hi)
  | tick =>
    cases h
    exact .tick
  | run i a =>
    obtain ⟨th, r, base, calls, w, hi, hstep, rfl⟩ := step_of_run h
    exact .step hi hstep

end Contexts

end GoBlocks
