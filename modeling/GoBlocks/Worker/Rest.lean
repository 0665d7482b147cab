import GoBlocks.Lib.Counting
import GoBlocks.Lib.Progress
import GoBlocks.Worker.Announced
import GoBlocks.Worker.Tokens

/-!
# The worker comes to rest

A block that a client hands over moves on from one part of the worker to the next, and
each step of the worker brings some block nearer to the exchange or ends a goroutine. If
`HasBlock` of the exchange returns and clients and ticker keep still, then the worker
comes to rest. It has called the exchange for every block then, unless it was closed. It
never stops before, whatever the buffer sizes and the number of workers are.
-/

namespace GoBlocks.Worker

variable {G X : Type}

/-! ## Steps of its own -/

/-- The goroutines of the worker take the step without a client, the ticker or `Close`. -/
def Event.Own : Event → Bool
  | .recv _ | .push _ | .pass _ | .take _ | .drained | .spawn | .run _ | .release _ | .loopExit
  | .limiterExit | .closed => true
  | .send _ | .handoff _ | .tick | .close => false

/-- The worker with the steps of its own. It is closed only once. -/
def own (e : Exchange G X) : LTS (G × State X) Event :=
  (lts e).restrict fun s l => l.Own ∧ (l = .closed → s.2.closed = false)

/-- No goroutine of the worker can take a step. -/
def AtRest (e : Exchange G X) (s : G × State X) : Prop := ∀ l t, ¬ (own e).step s l t

/-! ## What the parts of a worker know of each other -/

/-- The loops return only when the worker closes, and the tokens fit into their channel. -/
structure Wired (n : ℕ) (w : State X) : Prop where
  exited : w.loop = .exited → w.closing
  chan : w.workerChan.closed → w.loop = .exited
  limiter : w.limiter = .exited → w.closing
  atHead : w.loop.AtHead
  cap : w.tokens.cap = n
  tokens : w.tokens.closed = false
  conserved : w.tokens.buf.length + w.children.length = n

/-- The parts of a new worker fit. -/
theorem wired_newWorker {c : Config} {w : State X} (h : newWorker X c = some w) :
    Wired c.limit w := by
  obtain ⟨htokens, hchildren⟩ := tokens_newWorker h
  unfold newWorker at h
  split at h
  next hadded hworkerChan =>
    cases h
    obtain ⟨-, -, hopen⟩ := Chan.make_spec hworkerChan
    refine ⟨fun h => (by cases h), fun h => ?_, fun h => (by cases h), ClientLoop.atHead_start, rfl,
      rfl, ?_⟩
    · rw [hopen] at h
      cases h
    · rw [htokens]
      rfl
  next => cases h

variable {e : Exchange G X} {s t : G × State X} {l : Event} {n : ℕ}

/-- The client worker loop returns only when it sees that the worker is closing. -/
theorem ClientLoop.next_ne_exited {loop loop' : ClientLoop} {le : LoopEvent}
    (h : loop.next le = some loop') (hle : le ≠ .closing) : loop' ≠ .exited := by
  rintro rfl
  cases loop with
  | exited => cases h
  | select q nb =>
    cases le with
    | send b =>
      obtain ⟨-, h'⟩ := Option.ite_none_right_eq_some.mp h
      cases h'
    | closing => exact hle rfl
    | _ => cases h

/-- The client worker loop returns when it sees that the worker is closing. -/
theorem ClientLoop.next_closing {loop loop' : ClientLoop} (h : loop.next .closing = some loop') :
    loop' = .exited := by
  cases loop <;> cases h
  rfl

/-- Every step keeps the parts together. -/
theorem Wired.step (hs : Wired n s.2) (h : next e s l = some t) : Wired n t.2 := by
  have hconserved := (tokens_of_next h).trans hs.conserved
  -- the client worker loop goes on, or was not concerned
  have hloop : ∀ {loop le}, s.2.loop.next le = some loop → le ≠ .closing →
      (loop = .exited → s.2.closing) ∧ (s.2.workerChan.closed → loop = .exited) ∧ loop.AtHead := by
    intro loop le hnext hle
    refine ⟨fun hexited => absurd hexited (ClientLoop.next_ne_exited hnext hle), fun hclosed => ?_,
      ClientLoop.atHead_of_next hnext⟩
    rw [hs.chan hclosed] at hnext
    cases hnext
  cases step_of_next e h with
  | send => exact ⟨hs.exited, hs.chan, hs.limiter, hs.atHead, hs.cap, hs.tokens, hconserved⟩
  | handoff _ hnext | recv _ hnext | tick hnext =>
    obtain ⟨hexited, hchan, hhead⟩ := hloop hnext (by simp)
    exact ⟨hexited, hchan, hs.limiter, hhead, hs.cap, hs.tokens, hconserved⟩
  | push hsend hnext =>
    obtain ⟨hexited, hchan, hhead⟩ := hloop hnext (by simp)
    refine ⟨hexited, fun hclosed => hchan ?_, hs.limiter, hhead, hs.cap, hs.tokens, hconserved⟩
    rwa [← Chan.closed_of_send hsend]
  | pass _ _ hnext =>
    obtain ⟨hexited, hchan, hhead⟩ := hloop hnext (by simp)
    exact ⟨hexited, hchan, fun hl => (by cases hl), hhead, hs.cap, hs.tokens, hconserved⟩
  | take _ hrecv =>
    refine ⟨hs.exited, fun hclosed => hs.chan ?_, fun hl => (by cases hl), hs.atHead, hs.cap,
      hs.tokens, hconserved⟩
    rwa [← Chan.closed_of_recv hrecv]
  | drained _ hdrained =>
    refine ⟨hs.exited, hs.chan, fun _ => hs.exited (hs.chan ?_), hs.atHead, hs.cap, hs.tokens,
      hconserved⟩
    exact (Bool.and_eq_true_iff.mp hdrained).1
  | spawn _ hrecv =>
    exact ⟨hs.exited, hs.chan, fun hl => (by cases hl), hs.atHead,
      (Chan.cap_of_recv hrecv).trans hs.cap, (Chan.closed_of_recv hrecv).trans hs.tokens,
      hconserved⟩
  | run => exact ⟨hs.exited, hs.chan, hs.limiter, hs.atHead, hs.cap, hs.tokens, hconserved⟩
  | release _ hsend =>
    exact ⟨hs.exited, hs.chan, hs.limiter, hs.atHead, (Chan.cap_of_send hsend).trans hs.cap,
      (Chan.closed_of_send hsend).trans hs.tokens, hconserved⟩
  | close =>
    exact ⟨fun _ => rfl, hs.chan, fun _ => rfl, hs.atHead, hs.cap, hs.tokens, hconserved⟩
  | loopExit hclosing hnext =>
    refine ⟨fun _ => hclosing, fun _ => ?_, hs.limiter, ClientLoop.atHead_of_next hnext, hs.cap,
      hs.tokens, hconserved⟩
    exact ClientLoop.next_closing hnext
  | limiterExit _ hclosing =>
    exact ⟨hs.exited, hs.chan, fun _ => hclosing, hs.atHead, hs.cap, hs.tokens, hconserved⟩
  | closed => exact ⟨hs.exited, hs.chan, hs.limiter, hs.atHead, hs.cap, hs.tokens, hconserved⟩

/-- The parts of a worker fit in every run. -/
theorem wired_run {c : Config} {w : State X} (hw : newWorker X c = some w) {g : G}
    {ls : List Event} (hrun : (lts e).Run (g, w) ls s) : Wired c.limit s.2 :=
  hrun.invariant (fun v => Wired c.limit v.2) (fun _ _ _ hv hstep => hv.step hstep)
    (wired_newWorker hw)

/-! ## The work that is left -/

/-- The steps of the client worker loop besides those for blocks: it returns. -/
def ClientLoop.live : ClientLoop → ℕ
  | .select _ _ => 1
  | .exited => 0

/-- The steps of the limiter loop besides those for blocks: it returns. -/
def LimiterLoop.live : LimiterLoop → ℕ
  | .select | .limited _ => 1
  | .exited => 0

/-- A push adds at most its own block. -/
theorem sum_push_le (f : Block → ℕ) (q : BlockList) (b : Block) :
    ((q.push b).blocks.map f).sum ≤ (q.blocks.map f).sum + f b := by
  rw [BlockList.blocks_push]
  split
  · exact Nat.le_add_right _ _
  · simp

/-- A step of the client worker loop gets what it has and sends from what it had and
received. -/
theorem ClientLoop.sum_pending_le (f : Block → ℕ) {loop loop' : ClientLoop} {le : LoopEvent}
    (h : loop.next le = some loop') :
    (loop'.pending.map f).sum + (le.sent.toList.map f).sum ≤
      (loop.pending.map f).sum + (le.received.toList.map f).sum := by
  cases loop with
  | exited => cases h
  | select q nb =>
    have hpending : ((select q nb).pending.map f).sum =
        (nb.toList.map f).sum + (q.blocks.map f).sum := by simp [pending]
    cases le with
    | recv b =>
      cases h
      have hpush := sum_push_le f (requeue q nb) b
      have hrequeue : ((requeue q nb).blocks.map f).sum ≤
          (nb.toList.map f).sum + (q.blocks.map f).sum := by
        cases nb with
        | none => exact Nat.le_add_left _ _
        | some nb =>
          have hnb := sum_push_le f q nb
          simp only [requeue, Option.toList_some, List.map_singleton, List.sum_singleton]
          omega
      simp only [pending_iterate, LoopEvent.sent, LoopEvent.received, Option.toList_none,
        Option.toList_some, List.map_nil, List.sum_nil, List.map_singleton, List.sum_singleton]
      omega
    | send b =>
      obtain ⟨rfl, h'⟩ := Option.ite_none_right_eq_some.mp h
      cases h'
      simp only [pending_iterate, LoopEvent.sent, LoopEvent.received, Option.toList_none,
        List.map_nil, List.sum_nil]
      omega
    | tick =>
      cases h
      simp only [pending_iterate, LoopEvent.sent, LoopEvent.received, Option.toList_none,
        List.map_nil, List.sum_nil]
      omega
    | closing =>
      cases h
      exact Nat.zero_le _

/-- The client worker loop goes on, or returns. -/
theorem ClientLoop.live_of_next {loop loop' : ClientLoop} {le : LoopEvent}
    (h : loop.next le = some loop') :
    loop.live = 1 ∧ loop'.live ≤ 1 ∧ (le = .closing → loop'.live = 0) := by
  cases loop with
  | exited => cases h
  | select q nb =>
    cases le with
    | send b =>
      obtain ⟨-, h'⟩ := Option.ite_none_right_eq_some.mp h
      cases h'
      exact ⟨rfl, le_rfl, fun hle => by cases hle⟩
    | closing =>
      cases h
      exact ⟨rfl, Nat.zero_le _, fun _ => rfl⟩
    | _ =>
      cases h
      exact ⟨rfl, le_rfl, fun hle => by cases hle⟩

section Work

variable (e) (μ : X → ℕ)

/-- The steps of a child that are left, if `μ` bounds those of `HasBlock`. -/
def Child.work : Child X → ℕ
  | .spawned b => μ (e.hasBlock b) + 3
  | .calling _ x => μ x + 2
  | .returned _ => 1

/-- The steps that are left for a block that is `n` steps away from a child. -/
def blockWork (n : ℕ) (b : Block) : ℕ := μ (e.hasBlock b) + 3 + n

/-- The steps of a worker that are left. -/
def work (w : State X) : ℕ :=
  (w.added.buf.map (blockWork e μ 4)).sum + (w.loop.pending.map (blockWork e μ 3)).sum +
    (w.workerChan.buf.map (blockWork e μ 2)).sum +
    (w.limiter.taken.toList.map (blockWork e μ 1)).sum + (w.children.map (Child.work e μ)).sum +
    w.loop.live + w.limiter.live + (!w.closed).toNat

variable {e μ}

/-- A child that takes a step has less to do. -/
theorem Child.work_lt (hμ : ∀ g x g' x', e.step g x = (g', some x') → μ x' < μ x) {g g' : G}
    {child child' : Child X} (h : child.run e g = some (g', child')) :
    child'.work e μ < child.work e μ := by
  cases child with
  | spawned b =>
    cases h
    simp [Child.work]
  | calling b x =>
    simp only [Child.run] at h
    split at h
    next x' hx =>
      cases h
      have hlt := hμ _ _ _ _ hx
      simp only [Child.work]
      omega
    next =>
      cases h
      simp [Child.work]
  | returned b => cases h

/-- Every step of its own leaves the worker less to do. -/
theorem work_lt (hμ : ∀ g x g' x', e.step g x = (g', some x') → μ x' < μ x)
    (h : (own e).step s l t) : work e μ t.2 < work e μ s.2 := by
  obtain ⟨hstep, hown, hclosed⟩ := h
  have hblock : ∀ n b, blockWork e μ (n + 1) b = blockWork e μ n b + 1 := fun _ _ => rfl
  cases step_of_next e hstep with
  | send | handoff | tick | close => cases hown
  | recv hrecv hnext =>
    have hbuf := Chan.buf_of_recv hrecv
    have hpending := ClientLoop.sum_pending_le (blockWork e μ 3) hnext
    obtain ⟨hlive, hlive', -⟩ := ClientLoop.live_of_next hnext
    simp only [LoopEvent.sent, LoopEvent.received, Option.toList_none, Option.toList_some,
      List.map_nil, List.sum_nil, List.map_singleton, List.sum_singleton] at hpending
    simp only [work, hbuf, hlive, List.map_cons, List.sum_cons, hblock 3]
    omega
  | push hsend hnext =>
    have hbuf := Chan.buf_of_send hsend
    have hpending := ClientLoop.sum_pending_le (blockWork e μ 3) hnext
    obtain ⟨hlive, hlive', -⟩ := ClientLoop.live_of_next hnext
    simp only [LoopEvent.sent, LoopEvent.received, Option.toList_none, Option.toList_some,
      List.map_nil, List.sum_nil, List.map_singleton, List.sum_singleton, hblock 2] at hpending
    simp only [work, hbuf, hlive, List.map_append, List.sum_append, List.map_singleton,
      List.sum_singleton]
    omega
  | pass hlimiter _ hnext =>
    have hpending := ClientLoop.sum_pending_le (blockWork e μ 3) hnext
    obtain ⟨hlive, hlive', -⟩ := ClientLoop.live_of_next hnext
    simp only [LoopEvent.sent, LoopEvent.received, Option.toList_none, Option.toList_some,
      List.map_nil, List.sum_nil, List.map_singleton, List.sum_singleton, hblock 2,
      hblock 1] at hpending
    simp only [work, hlive, hlimiter, LimiterLoop.taken, LimiterLoop.live, Option.toList_none,
      Option.toList_some, List.map_nil, List.sum_nil, List.map_singleton, List.sum_singleton]
    omega
  | take hlimiter hrecv =>
    have hbuf := Chan.buf_of_recv hrecv
    simp only [work, hbuf, hlimiter, LimiterLoop.taken, LimiterLoop.live, List.map_cons,
      List.sum_cons, Option.toList_none, Option.toList_some, List.map_nil, List.sum_nil, hblock 1]
    omega
  | drained hlimiter =>
    simp only [work, hlimiter, LimiterLoop.taken, LimiterLoop.live]
    omega
  | @spawn _ _ b _ hlimiter =>
    have hchild : (Child.spawned b).work e μ + 1 = blockWork e μ 1 b := rfl
    simp only [work, hlimiter, LimiterLoop.taken, LimiterLoop.live, List.map_append,
      List.sum_append, Option.toList_none, Option.toList_some, List.map_nil, List.sum_nil,
      List.map_singleton, List.sum_singleton]
    omega
  | @run _ _ _ _ _ child' hchild hrun =>
    have hlt := Child.work_lt hμ hrun
    have hset := sum_map_set_add (Child.work e μ) hchild child'
    simp only [work]
    omega
  | release hchild =>
    obtain ⟨pre, post, hchildren, -, herase⟩ := exists_split_of_getElem? hchild
    simp only [work, herase]
    rw [hchildren]
    simp only [List.map_append, List.map_cons, List.sum_append, List.sum_cons, Child.work]
    omega
  | loopExit _ hnext =>
    have hpending := ClientLoop.sum_pending_le (blockWork e μ 3) hnext
    obtain ⟨hlive, -, hlive'⟩ := ClientLoop.live_of_next hnext
    simp only [LoopEvent.sent, LoopEvent.received, Option.toList_none, List.map_nil,
      List.sum_nil] at hpending
    simp only [work, hlive, hlive' rfl, Chan.close]
    omega
  | limiterExit hlimiter =>
    simp only [work, hlimiter, LimiterLoop.taken, LimiterLoop.live]
    omega
  | @closed _ w =>
    have hopen : w.closed = false := hclosed rfl
    simp [work, hopen]

/-- A run of steps of its own is as long as the work that it does, at most. -/
theorem length_add_work_le (hμ : ∀ g x g' x', e.step g x = (g', some x') → μ x' < μ x)
    {ls : List Event} (h : (own e).Run s ls t) : ls.length + work e μ t.2 ≤ work e μ s.2 := by
  have hstep : ∀ (v : G × State X) l u, True → True → (own e).step v l u →
      True ∧ work e μ u.2 < work e μ v.2 := fun _ _ _ _ _ h => ⟨trivial, work_lt hμ h⟩
  exact LTS.Run.length_add_le (P := fun _ => True) hstep h (fun _ _ => trivial) trivial

end Work

/-! ## At rest -/

section AtRest

/-- A step that is possible is one of the worker's own. -/
theorem AtRest.next_eq_none (hrest : AtRest e s) (hown : l.Own) (hl : l ≠ .closed) :
    next e s l = none := by
  by_contra hne
  obtain ⟨t, ht⟩ := Option.ne_none_iff_exists'.mp hne
  exact hrest l t ⟨ht, hown, fun heq => absurd heq hl⟩

/-- No child is left. -/
theorem AtRest.children (hrest : AtRest e s) (hs : Wired n s.2) : s.2.children = [] := by
  cases hchildren : s.2.children with
  | nil => rfl
  | cons child children =>
    have hget : s.2.children[0]? = some child := by rw [hchildren]; rfl
    have hconserved := hs.conserved
    rw [hchildren, List.length_cons] at hconserved
    cases child with
    | spawned b =>
      have hrun := hrest.next_eq_none (l := .run 0) rfl (by simp)
      simp [next, hget, Child.run] at hrun
    | calling b x =>
      have hrun := hrest.next_eq_none (l := .run 0) rfl (by simp)
      simp only [next, hget, Child.run] at hrun
      split at hrun <;> cases hrun
    | returned b =>
      -- there is room for the token of the child
      have hroom : s.2.tokens.buf.length < s.2.tokens.cap := by
        rw [hs.cap]
        omega
      obtain ⟨tokens, htokens⟩ := Chan.exists_send hroom hs.tokens ()
      have hrelease := hrest.next_eq_none (l := .release 0) rfl (by simp)
      simp [next, hget, htokens] at hrelease

/-- The limiter loop does not wait for a token. -/
theorem AtRest.not_limited (hrest : AtRest e s) (hs : Wired n s.2) (hn : 0 < n) (b : Block) :
    s.2.limiter ≠ .limited b := by
  intro hlimiter
  have hconserved := hs.conserved
  rw [hrest.children hs, List.length_nil] at hconserved
  have hbuf : s.2.tokens.buf ≠ [] := List.ne_nil_of_length_pos (by omega)
  obtain ⟨v, tokens, htokens⟩ := Chan.exists_recv hbuf
  have hspawn := hrest.next_eq_none (l := .spawn) rfl (by simp)
  simp [next, hlimiter, htokens] at hspawn

/-- An open worker at rest has nothing left to do. -/
theorem AtRest.idle (hrest : AtRest e s) (hs : Wired n s.2) (hn : 0 < n)
    (hopen : s.2.closing = false) : s.2.limiter = .select ∧ s.2.added.buf = [] ∧
      s.2.workerChan.buf = [] ∧ s.2.loop.pending = [] := by
  have hselect : s.2.limiter = .select := by
    cases hlimiter : s.2.limiter with
    | select => rfl
    | limited b => exact absurd hlimiter (hrest.not_limited hs hn b)
    | exited =>
      have hclosing := hs.limiter hlimiter
      rw [hopen] at hclosing
      cases hclosing
  have hloop : s.2.loop ≠ .exited := by
    intro hexited
    have hclosing := hs.exited hexited
    rw [hopen] at hclosing
    cases hclosing
  have hchan : s.2.workerChan.closed = false := by
    by_contra hclosed
    exact hloop (hs.chan (by simpa using hclosed))
  have hadded : s.2.added.buf = [] := by
    by_contra hne
    obtain ⟨b, added, hrecv⟩ := Chan.exists_recv hne
    have hnone := hrest.next_eq_none (l := .recv b) rfl (by simp)
    cases hl : s.2.loop with
    | exited => exact hloop hl
    | select q nb => simp [next, hrecv, hl, ClientLoop.next] at hnone
  have hbuf : s.2.workerChan.buf = [] := by
    by_contra hne
    obtain ⟨b, workerChan, hrecv⟩ := Chan.exists_recv hne
    have hnone := hrest.next_eq_none (l := .take b) rfl (by simp)
    simp [next, hselect, hrecv] at hnone
  refine ⟨hselect, hadded, hbuf, ?_⟩
  by_contra hne
  obtain ⟨b, bs, hpending⟩ := List.exists_cons_of_ne_nil hne
  -- the held block can be sent, into the buffer or to the limiter loop
  have hnext := hs.atHead.nextBlock_eq
  rw [hpending, List.head?_cons] at hnext
  cases hl : s.2.loop with
  | exited => exact hloop hl
  | select q nb =>
    rw [hl] at hnext
    have hnb : nb = some b := hnext
    rcases Nat.eq_zero_or_pos s.2.workerChan.cap with hcap | hcap
    · have hnone := hrest.next_eq_none (l := .pass b) rfl (by simp)
      have hmeet : s.2.workerChan.CanMeet = true := by simp [Chan.CanMeet, hcap, hchan]
      simp [next, hselect, hmeet, hl, ClientLoop.next, hnb] at hnone
    · have hroom : s.2.workerChan.buf.length < s.2.workerChan.cap := by
        rw [hbuf]
        exact hcap
      obtain ⟨workerChan, hsend⟩ := Chan.exists_send hroom hchan b
      have hnone := hrest.next_eq_none (l := .push b) rfl (by simp)
      simp [next, hsend, hl, ClientLoop.next, hnb] at hnone

/-- A closing worker at rest is closed. -/
theorem AtRest.closing (hrest : AtRest e s) (hs : Wired n s.2) (hn : 0 < n)
    (hclosing : s.2.closing) : s.2.closed ∧ s.2.loop = .exited ∧ s.2.limiter = .exited := by
  have hloop : s.2.loop = .exited := by
    cases hl : s.2.loop with
    | exited => rfl
    | select q nb =>
      have hnone := hrest.next_eq_none (l := .loopExit) rfl (by simp)
      simp [next, hclosing, hl, ClientLoop.next] at hnone
  have hlimiter : s.2.limiter = .exited := by
    cases hl : s.2.limiter with
    | exited => rfl
    | limited b => exact absurd hl (hrest.not_limited hs hn b)
    | select =>
      have hnone := hrest.next_eq_none (l := .limiterExit) rfl (by simp)
      simp [next, hclosing, hl] at hnone
  refine ⟨?_, hloop, hlimiter⟩
  by_contra hopen
  refine hrest .closed (s.1, { s.2 with closed := true }) ⟨?_, rfl, fun _ => by simpa using hopen⟩
  simp [lts, LTS.ofFun, next, hloop, hlimiter, hclosing, hrest.children hs]

end AtRest

/-! ## The way of a block -/

/-- A block with the key is on its way from a client to the exchange. -/
inductive State.Waits (w : State X) (k : Key) : Prop
  | added (b : Block) (hb : b ∈ w.added.buf) (hkey : b.key = k)
  | loop (hk : w.loop.Holds k)
  | workerChan (b : Block) (hb : b ∈ w.workerChan.buf) (hkey : b.key = k)
  | limiter (b : Block) (hb : w.limiter = .limited b) (hkey : b.key = k)
  | child (b : Block) (hb : .spawned b ∈ w.children) (hkey : b.key = k)

section Way

variable {b : Block} {k : Key}

/-- A block stays in `added` until the client worker loop receives it. -/
theorem added_of_next (h : next e s l = some t) (hb : b ∈ s.2.added.buf) :
    b ∈ t.2.added.buf ∨ t.2.loop.Holds b.key := by
  cases step_of_next e h with
  | send hsend =>
    rw [Chan.buf_of_send hsend]
    exact .inl (List.mem_append_left _ hb)
  | recv hrecv hnext =>
    rw [Chan.buf_of_recv hrecv] at hb
    rcases List.mem_cons.mp hb with rfl | hb
    · exact .inr ((ClientLoop.holds_recv hnext).mpr (.inr rfl))
    · exact .inl hb
  | _ => exact .inl hb

/-- The client worker loop of an open worker holds a key until it sends it, unless the
ticker makes it drop the block. -/
theorem holds_of_next (h : next e s l = some t) (hs : s.2.loop.AtHead)
    (htick : l = .tick → s.2.loop.nextBlock = none) (hopen : t.2.closing = false)
    (hk : s.2.loop.Holds k) : t.2.Waits k := by
  cases step_of_next e h with
  | handoff _ hnext | recv _ hnext => exact .loop ((ClientLoop.holds_recv hnext).mpr (.inl hk))
  | tick hnext =>
    have hnone := htick rfl
    exact .loop ((ClientLoop.holds_tick hs hnext).mpr ⟨hk, by simp [hnone]⟩)
  | @push _ _ b _ _ hsend hnext =>
    by_cases hkey : b.key = k
    · exact .workerChan b (by simp [Chan.buf_of_send hsend]) hkey
    · exact .loop ((ClientLoop.holds_send hs hnext).mpr ⟨hk, hkey⟩)
  | @pass _ _ b _ _ _ hnext =>
    by_cases hkey : b.key = k
    · exact .limiter b rfl hkey
    · exact .loop ((ClientLoop.holds_send hs hnext).mpr ⟨hk, hkey⟩)
  | loopExit hclosing =>
    rw [hclosing] at hopen
    cases hopen
  | _ => exact .loop hk

/-- A block stays in `workerChan` until the limiter loop takes it. -/
theorem workerChan_of_next (h : next e s l = some t) (hb : b ∈ s.2.workerChan.buf) :
    b ∈ t.2.workerChan.buf ∨ t.2.limiter = .limited b := by
  cases step_of_next e h with
  | push hsend =>
    rw [Chan.buf_of_send hsend]
    exact .inl (List.mem_append_left _ hb)
  | take _ hrecv =>
    rw [Chan.buf_of_recv hrecv] at hb
    rcases List.mem_cons.mp hb with rfl | hb
    · exact .inr rfl
    · exact .inl hb
  | _ => exact .inl hb

/-- The limiter loop keeps its block until it spawns a child for it. -/
theorem limited_of_next (h : next e s l = some t) (hb : s.2.limiter = .limited b) :
    t.2.limiter = .limited b ∨ .spawned b ∈ t.2.children := by
  cases step_of_next e h with
  | pass hlimiter | take hlimiter | drained hlimiter | limiterExit hlimiter =>
    cases hlimiter.symm.trans hb
  | spawn hlimiter =>
    cases hlimiter.symm.trans hb
    exact .inr (by simp)
  | _ => exact .inl hb

/-- A child waits until it calls the exchange. -/
theorem spawned_of_next (h : next e s l = some t) (hb : .spawned b ∈ s.2.children) :
    .spawned b ∈ t.2.children ∨ called s l = some b := by
  cases step_of_next e h with
  | spawn => exact .inl (List.mem_append_left _ hb)
  | @run _ _ _ _ child child' hchild =>
    by_cases heq : .spawned b = child
    · exact .inr (by simp [called, hchild, ← heq, Child.waiting])
    · exact .inl (mem_set_of_ne hchild child' hb heq)
  | release hchild =>
    obtain ⟨pre, post, hchildren, -, herase⟩ := exists_split_of_getElem? hchild
    simp only [herase]
    rw [hchildren] at hb
    exact .inl (by simpa using hb)
  | _ => exact .inl hb

/-- A step of an open worker moves a block on or calls the exchange with it, unless the
ticker makes the worker drop it. -/
theorem State.Waits.step (hk : s.2.Waits k) (h : next e s l = some t) (hs : s.2.loop.AtHead)
    (htick : l = .tick → s.2.loop.nextBlock = none) (hopen : t.2.closing = false) :
    t.2.Waits k ∨ ∃ b, called s l = some b ∧ b.key = k := by
  cases hk with
  | added b hb hkey =>
    rcases added_of_next h hb with hb | hholds
    · exact .inl (.added b hb hkey)
    · exact .inl (.loop (hkey ▸ hholds))
  | loop hk => exact .inl (holds_of_next h hs htick hopen hk)
  | workerChan b hb hkey =>
    rcases workerChan_of_next h hb with hb | hb
    · exact .inl (.workerChan b hb hkey)
    · exact .inl (.limiter b hb hkey)
  | limiter b hb hkey =>
    rcases limited_of_next h hb with hb | hb
    · exact .inl (.limiter b hb hkey)
    · exact .inl (.child b hb hkey)
  | child b hb hkey =>
    rcases spawned_of_next h hb with hb | hcalled
    · exact .inl (.child b hb hkey)
    · exact .inr ⟨b, hcalled, hkey⟩

/-- A closing worker stays so. -/
theorem closing_of_next (h : next e s l = some t) (hs : s.2.closing) : t.2.closing := by
  cases step_of_next e h with
  | close => rfl
  | _ => exact hs

/-- What holds of the ticks of a run holds of those of its beginning. -/
theorem ClientLoop.TicksUnheld.of_prefix {pre ls : List LoopEvent} (h : TicksUnheld ls)
    (hpre : pre <+: ls) : TicksUnheld pre :=
  fun pre' s hpre' => h pre' s (hpre'.trans hpre)

/-- A block on its way stays so until the exchange is called with its key. -/
theorem waits_or_called {c : Config} {w : State X} (hw : newWorker X c = some w) {g : G}
    {pre post : List Event} (hpre : (lts e).Run (g, w) pre s) (hk : s.2.Waits k)
    (hpost : (lts e).Run s post t)
    (hticks : ClientLoop.TicksUnheld ((pre ++ post).filterMap loopEvent))
    (hopen : t.2.closing = false) : t.2.Waits k ∨ ∃ b ∈ calls e s post, b.key = k := by
  refine hpost.history_induction (fun post t =>
    ClientLoop.TicksUnheld ((pre ++ post).filterMap loopEvent) → t.2.closing = false →
      t.2.Waits k ∨ ∃ b ∈ calls e s post, b.key = k) (fun _ _ => .inl hk) ?_ hticks hopen
  intro hist v l u hrun ih hstep hticks hopen
  have hcalls : calls e s (hist ++ [l]) = calls e s hist ++ (called v l).toList :=
    LTS.outputs_snoc called hrun l
  have hv : v.2.closing = false := by
    by_contra hclosing
    rw [closing_of_next hstep (by simpa using hclosing)] at hopen
    cases hopen
  have hevents : (pre ++ (hist ++ [l])).filterMap loopEvent =
      (pre ++ hist).filterMap loopEvent ++ (loopEvent l).toList := by
    cases hl : loopEvent l <;> simp [hl]
  have hloop := loop_run (LTS.run_append_iff.mpr ⟨s, hpre, hrun⟩)
  rw [loop_newWorker hw] at hloop
  rw [hcalls]
  rw [hevents] at hticks
  rcases ih (hticks.of_prefix (List.prefix_append _ _)) hv with hwaits | ⟨b, hb, hkey⟩
  · have htick : l = .tick → v.2.loop.nextBlock = none := by
      rintro rfl
      exact hticks _ _ (List.prefix_refl _) hloop
    rcases hwaits.step hstep (ClientLoop.atHead_of_run hloop) htick hopen with h | ⟨b, hb, hkey⟩
    · exact .inl h
    · exact .inr ⟨b, by simp [hb], hkey⟩
  · exact .inr ⟨b, List.mem_append_left _ hb, hkey⟩

/-- An open worker at rest has no block on its way. -/
theorem AtRest.not_waits (hrest : AtRest e s) (hs : Wired n s.2) (hn : 0 < n)
    (hopen : s.2.closing = false) : ¬ s.2.Waits k := by
  obtain ⟨hlimiter, hadded, hbuf, hpending⟩ := hrest.idle hs hn hopen
  intro hk
  cases hk with
  | added b hb =>
    rw [hadded] at hb
    cases hb
  | loop hk =>
    obtain ⟨b, hb, -⟩ := hk
    rw [hpending] at hb
    cases hb
  | workerChan b hb =>
    rw [hbuf] at hb
    cases hb
  | limiter b hb => cases hlimiter.symm.trans hb
  | child b hb =>
    rw [hrest.children hs] at hb
    cases hb

end Way

/-- The block that a client hands over. -/
def Event.accepted : Event → Option Block
  | .send b | .handoff b => some b
  | _ => none

/-- A block that a client has handed over is on its way. -/
theorem waits_of_accepted {b : Block} (h : next e s l = some t) (hb : l.accepted = some b) :
    t.2.Waits b.key := by
  cases step_of_next e h with
  | send hsend =>
    cases hb
    exact .added b (by simp [Chan.buf_of_send hsend]) rfl
  | handoff _ hnext =>
    cases hb
    exact .loop ((ClientLoop.holds_recv hnext).mpr (.inr rfl))
  | _ => cases hb

/-- **A worker comes to rest, and then it has announced what it was given.** Take any
configuration, any exchange whose `HasBlock` returns and any run of a worker with it, with
any number of clients. From its state, the goroutines of the worker can take only a bounded
number of steps by themselves. If they can take none, then no child is left. A worker that
is closing has closed then. One that is not has nothing in its channels and its queue, and
has called the exchange, for every block that a client handed over, with the key of the
block after that, provided the ticker never fired while the loop held a popped block. -/
theorem worker_comes_to_rest (e : Exchange G X) (μ : X → ℕ)
    (hμ : ∀ g x g' x', e.step g x = (g', some x') → μ x' < μ x) (c : Config) (g : G) (w : State X)
    (hw : newWorker X c = some w) (ls : List Event) (s : G × State X)
    (hrun : (lts e).Run (g, w) ls s) :
    (∃ n, ∀ ls' t, (own e).Run s ls' t → ls'.length ≤ n) ∧
    (AtRest e s → s.2.children = [] ∧
      (s.2.closing → s.2.closed ∧ s.2.loop = .exited ∧ s.2.limiter = .exited) ∧
      (s.2.closing = false →
        s.2.added.buf = [] ∧ s.2.loop.pending = [] ∧ s.2.workerChan.buf = [] ∧
        s.2.limiter = .select ∧
        (ClientLoop.TicksUnheld (ls.filterMap loopEvent) →
          ∀ pre l post b, ls = pre ++ l :: post → l.accepted = some b →
            ∃ v, (lts e).Run (g, w) (pre ++ [l]) v ∧ ∃ b' ∈ calls e v post, b'.key = b.key))) := by
  have hs := wired_run hw hrun
  have hlimit : 0 < c.limit := by
    have := c.limit_eq
    omega
  constructor
  · refine ⟨work e μ s.2, fun ls' t hown => ?_⟩
    have hle := length_add_work_le hμ hown
    omega
  · intro hrest
    refine ⟨hrest.children hs, hrest.closing hs hlimit, fun hopen => ?_⟩
    obtain ⟨hlimiter, hadded, hbuf, hpending⟩ := hrest.idle hs hlimit hopen
    refine ⟨hadded, hpending, hbuf, hlimiter, ?_⟩
    intro hticks pre l post b hsplit hb
    subst hsplit
    obtain ⟨u, hpre, hpost⟩ := LTS.run_append_iff.mp hrun
    cases hpost with
    | @cons _ v _ _ _ hstep hpost =>
      have hv := hpre.snoc hstep
      refine ⟨v, hv, ?_⟩
      rw [List.append_cons] at hticks
      rcases waits_or_called hw hv (waits_of_accepted hstep hb) hpost hticks hopen with hk | hcall
      · exact absurd hk (hrest.not_waits hs hlimit hopen)
      · exact hcall

/-- A worker with the default configuration has announced a block and is at rest. -/
theorem worker_comes_to_rest_announced :
    ∃ w s, newWorker Unit defaultConfig = some w ∧ AtRest idleExchange s ∧ s.2.closing = false ∧
      (lts idleExchange).Run ((), w)
        [.handoff ⟨[1], [2]⟩, .pass ⟨[1], [2]⟩, .spawn, .run 0, .run 0, .release 0] s ∧
      ∃ v, (lts idleExchange).Run ((), w) [.handoff ⟨[1], [2]⟩] v ∧
        ∃ b ∈ calls idleExchange v [.pass ⟨[1], [2]⟩, .spawn, .run 0, .run 0, .release 0],
          b.key = [1] := by
  have hrest := fun hrest => worker_comes_to_rest idleExchange (fun _ => 0)
    (fun _ _ _ _ h => by cases h) defaultConfig () _ rfl
    [.handoff ⟨[1], [2]⟩, .pass ⟨[1], [2]⟩, .spawn, .run 0, .run 0, .release 0] _
    (LTS.run_ofFun_iff.mpr rfl) |>.2 hrest
  refine ⟨_, _, rfl, ?atRest, rfl, LTS.run_ofFun_iff.mpr rfl,
    ((hrest ?atRest).2.2 rfl).2.2.2.2 ?_ [] _ _ _ rfl rfl⟩
  case atRest =>
    rintro l t ⟨hstep, hown, -⟩
    cases l <;> cases hown <;> cases hstep
  · intro pre s hpre
    have htick : LoopEvent.tick ∈ _ := hpre.subset (List.mem_append_right _ List.mem_cons_self)
    simp [loopEvent] at htick

end GoBlocks.Worker
