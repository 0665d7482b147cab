import GoBlocks.Context.Reach

/-!
# The cause of an error

A context gets an error from a `CancelFunc` of a context that it was derived from, or
because its deadline has passed, or from a context of another package at the root. The
error never changes. The deadline that `Deadline` gives is the first of those of the
contexts that a context was derived from.
-/

namespace GoBlocks

/-- The context at the root. -/
def Ctx.root : Ctx → Ctx
  | .cancelCtx _ parent | .timerCtx _ _ parent | .valueCtx parent => parent.root
  | .empty => .empty
  | .custom i d => .custom i d

/-- A context has the root of its parent. -/
@[simp] theorem Canceler.root_toCtx (x : Canceler) : x.toCtx.root = x.parent.root := by
  obtain ⟨id, d, parent⟩ := x
  cases d <;> rfl

/-- The context that `parentCancelCtx` finds has the same root. -/
theorem Ctx.root_of_parentCancelCtx {c : Ctx} {p : Canceler} (h : parentCancelCtx c = some p) :
    c.root = p.parent.root := by
  induction c with
  | empty | custom => cases h
  | cancelCtx | timerCtx =>
    cases h
    rfl
  | valueCtx parent ih => exact ih h

namespace Contexts

/-- Why a context has an error. -/
inductive Cause (s : Contexts) (c : Ctx) : CtxErr → Prop
  | canceled {y : Canceler} {th : Thread} (hy : y ∈ c.cancelers) (hth : th ∈ s.threads)
      (htask : th.task = .cancel y) : Cause s c .canceled
  | deadline {y : Canceler} {d : ℕ} (hy : y ∈ c.cancelers) (hd : y.deadline = some d)
      (hnow : d ≤ s.now) : Cause s c .deadlineExceeded
  | custom {i : ℕ} {d : Option ℕ} {e : CtxErr} (hroot : c.root = .custom i d)
      (he : s.custom i = some e) : Cause s c e

section Cause

variable {s r t : Contexts} {i : ℕ} {th : Thread} {base : Base} {calls : List Call}
  {w : Option Canceler} {x y p : Canceler} {c c' : Ctx} {e : CtxErr} {k : Call}

/-- A cause of a context is one of those that are derived from it. -/
theorem Cause.derive (h : Cause s c e) (hsub : ∀ y ∈ c.cancelers, y ∈ c'.cancelers)
    (hroot : c'.root = c.root) : Cause s c' e := by
  cases h with
  | canceled hy hth htask => exact .canceled (hsub _ hy) hth htask
  | deadline hy hd hnow => exact .deadline (hsub _ hy) hd hnow
  | custom hroot' he => exact .custom (hroot.trans hroot') he

/-- What is a cause for the parent is one for the context. -/
theorem Cause.toCtx (h : Cause s x.parent e) : Cause s x.toCtx e := by
  refine h.derive (fun y hy => ?_) x.root_toCtx
  rw [Canceler.cancelers_toCtx]
  exact List.mem_cons_of_mem _ hy

/-- What is a cause for the context that `parentCancelCtx` finds is one for those below. -/
theorem Cause.of_parentCancelCtx (h : Cause s p.toCtx e) (hp : parentCancelCtx x.parent = some p) :
    Cause s x.toCtx e := by
  refine Cause.toCtx (h.derive (fun y hy => ?_) ?_)
  · rwa [Ctx.cancelers_of_parentCancelCtx hp, ← Canceler.cancelers_toCtx]
  · rw [Ctx.root_of_parentCancelCtx hp, Canceler.root_toCtx]

/-- A cause stays. -/
theorem Cause.mono (h : Cause s c e)
    (htasks : ∀ th ∈ s.threads, ∃ th' ∈ t.threads, th'.task = th.task) (hnow : s.now ≤ t.now)
    (hcustom : ∀ i e, s.custom i = some e → t.custom i = some e) : Cause t c e := by
  cases h with
  | canceled hy hth htask =>
    obtain ⟨th', hth', htask'⟩ := htasks _ hth
    exact .canceled hy hth' (htask'.trans htask)
  | deadline hy hd hle => exact .deadline hy hd (hle.trans hnow)
  | custom hroot he => exact .custom hroot (hcustom _ _ he)

/-- A cause stays if a caller makes a move. -/
theorem Cause.grows (hc : Cause s c e) (h : Grows s t) : Cause t c e :=
  hc.mono (fun th hth => ⟨th, h.old th hth, rfl⟩) h.now h.custom

/-- No step of a goroutine ends a context of another package. -/
theorem Step.custom (h : Step s i th r base calls w) :
    (r.become i th base calls w).custom = s.custom := by
  cases h <;> rfl

/-- No time passes in a step of a goroutine. -/
theorem Step.now (h : Step s i th r base calls w) : (r.become i th base calls w).now = s.now := by
  cases h <;> rfl

/-- A cause stays if a goroutine takes a step. -/
theorem Cause.step (hc : Cause s c e) (hi : s.threads[i]? = some th)
    (h : Step s i th r base calls w) : Cause (r.become i th base calls w) c e := by
  refine hc.mono (fun th' hth' => ?_) h.now.ge fun _ _ he => by rwa [h.custom]
  rcases eq_or_ne th' th with rfl | hne
  · exact ⟨_, h.mem_self hi, rfl⟩
  · exact ⟨th', h.mem_of_ne hi hth' hne, rfl⟩

/-- The errors that are set and those that are to be set have causes. -/
structure Caused (s : Contexts) : Prop where
  err : ∀ x, MadeIn s.made x → ∀ e, (s.cell x.id).err = some e → Cause s x.toCtx e
  call : ∀ th ∈ s.threads, ∀ k ∈ th.calls, Cause s k.c.toCtx k.err

/-- At first there is no error. -/
theorem caused_start : Caused start where
  err _ h := by cases h
  call _ h := by cases h

/-- A caller sets no error, and the call of `cancel` that it starts has a cause. -/
theorem Caused.grows (hs : Caused s) (h : Grows s t) : Caused t := by
  refine ⟨fun x hx e he => ?_, fun th hth k hk => ?_⟩
  · rcases h.fresh x hx with hx | ⟨hnew, -⟩
    · rw [h.field hx CancelCell.err fun _ _ => rfl] at he
      exact (hs.err x hx e he).grows h
    · rw [hnew] at he
      cases he
  · rcases h.thread th hth with hth' | hth'
    · exact (hs.call th hth' k hk).grows h
    · cases hth' with
      | make => cases hk
      | @cancel x =>
        cases List.mem_singleton.mp hk
        exact .canceled (by simp) hth rfl
      | @timer x d hx htimer hd hnow =>
        cases List.mem_singleton.mp hk
        exact .deadline (by simp) hd (hnow.trans h.now)

/-- Whatever `Err` returns has a cause. -/
theorem Caused.err? (hs : Caused s) (hc : ∀ y ∈ c.cancelers, MadeIn s.made y)
    (he : s.err? c = some e) : Cause s c e := by
  induction c with
  | empty => cases he
  | custom i d => exact .custom rfl he
  | cancelCtx id parent => exact hs.err ⟨id, none, parent⟩ (hc _ List.mem_cons_self) e he
  | timerCtx id d parent => exact hs.err ⟨id, some d, parent⟩ (hc _ List.mem_cons_self) e he
  | valueCtx parent ih => exact (ih hc he).derive (fun y hy => hy) rfl

/-- An error is set by a call that brings it. -/
theorem Step.err_cases {n : ℕ} (h : Step s i th r base calls w) (he : (r.cell n).err = some e) :
    (s.cell n).err = some e ∨ ∃ k ∈ th.calls, k.c.id = n ∧ k.err = e := by
  cases h with
  | @win k ks hcalls =>
    rcases eq_or_ne n k.c.id with rfl | hne
    · simp only [Contexts.win, modify_cell_self, Option.some.injEq] at he
      exact .inr ⟨k, hcalls ▸ List.mem_cons_self, rfl, he⟩
    · simp only [Contexts.win, modify_cell_of_ne _ _ hne] at he
      exact .inl he
  | swept | detach | stop | adopt | register | release | arm =>
    exact .inl ((modify_field _ _ _ _ CancelCell.err rfl).symm.trans he)
  | _ => exact .inl he

/-- A call brings the error of another call, or of the parent, or that of a deadline. -/
theorem Caused.call_step (hs : Caused s) (hsound : Sound s) (hi : s.threads[i]? = some th)
    (h : Step s i th r base calls w) : ∀ k ∈ calls, Cause s k.c.toCtx k.err := by
  have hmem := List.mem_of_getElem? hi
  have hth := hsound.thread th hmem
  intro k hk
  cases h.origin hk with
  | kept hk₀ | past hk₀ | won hk₀ | sweeps hk₀ =>
    have hcause := hs.call th hmem _ hk₀
    exact hcause
  | child hk₀ hpc hx =>
    have hcause := hs.call th hmem _ hk₀
    exact hcause.of_parentCancelCtx (hth.sweep _ hk₀ _ hpc _ hx).2
  | @adopted x p e _ hbase _ hparent herr =>
    have hx := hth.base x (by rw [hbase]; rfl)
    have hcause := hs.err p (hsound.above hx hparent).2 e herr
    exact hcause.of_parentCancelCtx hparent
  | expired _ _ hd hnow => exact .deadline (by simp) hd hnow
  | @alarm x e _ hbase herr =>
    have hx := hth.base x (by rw [hbase]; rfl)
    have hcause := hs.err? (fun y hy => ((hsound.made _ _ hx).2 y hy).2) herr
    exact hcause.toCtx

/-- An error that a goroutine sets or passes on has a cause. -/
theorem Caused.step (hs : Caused s) (hsound : Sound s) (hi : s.threads[i]? = some th)
    (h : Step s i th r base calls w) : Caused (r.become i th base calls w) := by
  have hmem := List.mem_of_getElem? hi
  refine ⟨fun x hx e he => ?_, fun th' hth' k' hk' => ?_⟩
  · rw [become_made, h.made] at hx
    rw [become_cell] at he
    rcases h.err_cases he with he | ⟨k, hk, hid, rfl⟩
    · exact (hs.err x hx e he).step hi h
    · rw [← ((hsound.thread th hmem).call k hk).eq hx hid]
      exact (hs.call th hmem k hk).step hi h
  · rcases mem_become hth' with rfl | hth' | ⟨y, -, rfl⟩
    · exact (hs.call_step hsound hi h k' hk').step hi h
    · exact (hs.call th' (h.threads ▸ hth') k' hk').step hi h
    · cases hk'

/-- Every error has a cause after a move. -/
theorem Caused.move (hs : Caused s) (hsound : Sound s) (h : Move s t) : Caused t := by
  rcases h.grows_or_step with h | ⟨i, th, r, base, calls, w, hi, hstep, rfl⟩
  · exact hs.grows h
  · exact hs.step hsound hi hstep

end Cause

/-! ## Deadlines -/

/-- A deadline is not later than that of the parent. -/
def Timed (s : Contexts) : Prop :=
  ∀ x, MadeIn s.made x → ∀ d cur, x.deadline = some d → x.parent.deadline? = some cur → d ≤ cur

section Timed

variable {s t : Contexts} {c : Ctx} {y : Canceler} {d : ℕ}

/-- At first there is no deadline. -/
theorem timed_start : Timed start := fun _ h => by cases h

/-- `WithDeadline` makes a timer only for a deadline that is not later than that of the parent. -/
theorem Timed.move (hs : Timed s) (h : Move s t) : Timed t := by
  cases h with
  | make d hparent hd =>
    intro x hx d' cur hd' hcur
    rcases getElem?_snoc_cases hx with hx | ⟨-, rfl⟩
    · exact hs x hx d' cur hd' hcur
    · exact hd d' cur hd' hcur
  | withValue | cancel | fire | finish | tick => exact hs
  | step hi hstep =>
    unfold Timed
    rw [become_made, hstep.made]
    exact hs

/-- `Deadline` gives the first deadline. -/
theorem Timed.deadline?_le (hs : Timed s) (hc : ∀ y ∈ c.cancelers, MadeIn s.made y)
    (hy : y ∈ c.cancelers) (hd : y.deadline = some d) : ∃ d', c.deadline? = some d' ∧ d' ≤ d := by
  induction c with
  | empty | custom => cases hy
  | cancelCtx id parent ih =>
    rcases List.mem_cons.mp hy with rfl | hy
    · cases hd
    · exact ih (fun z hz => hc z (List.mem_cons_of_mem _ hz)) hy
  | timerCtx id d₀ parent ih =>
    rcases List.mem_cons.mp hy with rfl | hy
    · cases hd
      exact ⟨d, rfl, le_rfl⟩
    · obtain ⟨d', hd', hle⟩ := ih (fun z hz => hc z (List.mem_cons_of_mem _ hz)) hy
      exact ⟨d₀, rfl, (hs _ (hc _ List.mem_cons_self) d₀ d' rfl hd').trans hle⟩
  | valueCtx parent ih => exact ih hc hy

end Timed

/-! ## Runs -/

/-- What has happened before. -/
structure Past (es : List CtxEvent) (s : Contexts) : Prop where
  cancel : ∀ th ∈ s.threads, ∀ x, th.task = .cancel x → .cancel x ∈ es
  finish : ∀ i e, s.custom i = some e → .finish i e ∈ es

section Run

variable {s t : Contexts} {es es' : List CtxEvent} {c : Ctx} {e : CtxErr} {l : CtxEvent}

/-- A step that starts no `CancelFunc` and after which no custom context is done. -/
theorem Past.keep (hs : Past es s) (hcustom : t.custom = s.custom)
    (htask : ∀ th ∈ t.threads, (∃ th' ∈ s.threads, th'.task = th.task) ∨ ∀ x, th.task ≠ .cancel x) :
    Past (es ++ [l]) t := by
  refine ⟨fun th hth x hx => ?_, fun i e he => ?_⟩
  · rcases htask th hth with ⟨th', hth', heq⟩ | hne
    · exact List.mem_append_left _ (hs.cancel th' hth' x (heq.trans hx))
    · exact absurd hx (hne x)
  · rw [hcustom] at he
    exact List.mem_append_left _ (hs.finish i e he)

/-- The event of a step belongs to what has happened before the next. -/
theorem Past.snoc (hs : Past es s) (h : s.next l = some t) : Past (es ++ [l]) t := by
  have hold : ∀ th ∈ s.threads, (∃ th' ∈ s.threads, th'.task = th.task) ∨
      ∀ x, th.task ≠ .cancel x := fun th hth => .inl ⟨th, hth, rfl⟩
  have hspawn : ∀ {th : Thread}, (∀ x, th.task ≠ .cancel x) → ∀ th' ∈ s.threads ++ [th],
      (∃ th₀ ∈ s.threads, th₀.task = th'.task) ∨ ∀ x, th'.task ≠ .cancel x := by
    intro th hne th' hth'
    rcases List.mem_append.mp hth' with hth' | hth'
    · exact hold th' hth'
    · cases List.mem_singleton.mp hth'
      exact .inr hne
  have hmake : ∀ (d : Option ℕ) (parent : Ctx), Past (es ++ [l]) (s.make d parent) :=
    fun d parent => hs.keep rfl (hspawn (by simp))
  cases l with
  | withCancel parent =>
    obtain ⟨-, h⟩ := Option.ite_none_right_eq_some.mp h
    cases h
    exact hmake none parent
  | withDeadline parent d =>
    obtain ⟨-, h⟩ := Option.ite_none_right_eq_some.mp h
    split at h
    · split at h <;>
      · cases h
        exact hmake _ parent
    · cases h
      exact hmake _ parent
  | withValue parent =>
    obtain ⟨-, h⟩ := Option.ite_none_right_eq_some.mp h
    cases h
    exact hs.keep rfl hold
  | cancel x =>
    obtain ⟨-, h⟩ := Option.ite_none_right_eq_some.mp h
    cases h
    refine ⟨fun th hth y hy => ?_, fun i e he => List.mem_append_left _ (hs.finish i e he)⟩
    rcases List.mem_append.mp hth with hth | hth
    · exact List.mem_append_left _ (hs.cancel th hth y hy)
    · cases List.mem_singleton.mp hth
      cases hy
      exact List.mem_append_right _ (List.mem_singleton_self _)
  | fire x =>
    obtain ⟨-, h⟩ := Option.ite_none_right_eq_some.mp h
    cases h
    exact hs.keep rfl (hspawn (by simp))
  | finish i e =>
    obtain ⟨-, h⟩ := Option.ite_none_left_eq_some.mp h
    cases h
    refine ⟨fun th hth y hy => List.mem_append_left _ (hs.cancel th hth y hy), fun j e' he => ?_⟩
    rcases eq_or_ne j i with rfl | hne
    · cases (Function.update_self ..).symm.trans he
      exact List.mem_append_right _ (List.mem_singleton_self _)
    · exact List.mem_append_left _ (hs.finish j e' ((Function.update_of_ne hne ..).symm.trans he))
  | tick =>
    cases h
    exact hs.keep rfl hold
  | run i a =>
    obtain ⟨th, r, base, calls, w, hi, hstep, rfl⟩ := step_of_run h
    refine hs.keep hstep.custom fun th' hth' => ?_
    rcases mem_become hth' with rfl | hth' | ⟨y, -, rfl⟩
    · exact .inl ⟨th, List.mem_of_getElem? hi, rfl⟩
    · exact hold th' (hstep.threads ▸ hth')
    · exact .inr (by simp)

/-- Every call of a `CancelFunc` and every end of a custom context is an event of the run. -/
theorem past_of_run (h : lts.Run start es s) : Past es s :=
  h.history_induction Past ⟨fun _ h => (by cases h), fun _ _ h => by cases h⟩
    fun _ _ _ _ _ hs hstep => hs.snoc hstep

/-- Errors have causes and deadlines are ordered in every run. -/
theorem caused_of_run (h : lts.Run start es s) : Sound s ∧ Caused s ∧ Timed s :=
  h.invariant (fun s => Sound s ∧ Caused s ∧ Timed s)
    (fun _ _ _ hs hstep => ⟨hs.1.move (move_of_next hstep), hs.2.1.move hs.1 (move_of_next hstep),
      hs.2.2.move (move_of_next hstep)⟩)
    ⟨sound_start, caused_start, timed_start⟩

/-- What was made stays so, and keeps its error. -/
theorem Move.keep {y : Canceler} (h : Move s t) (hy : MadeIn s.made y) : MadeIn t.made y ∧
    ∀ e, (s.cell y.id).err = some e → (t.cell y.id).err = some e := by
  rcases h.grows_or_step with h | ⟨i, th, r, base, calls, w, hi, hstep, rfl⟩
  · refine ⟨h.made y hy, fun e he => ?_⟩
    rwa [h.field hy CancelCell.err fun _ _ => rfl]
  · rw [become_made, hstep.made, become_cell]
    exact ⟨hy, fun e he => hstep.err_mono he⟩

/-- A context of another package that is done stays done, with its error. -/
theorem Move.custom {i : ℕ} (h : Move s t) (he : s.custom i = some e) : t.custom i = some e := by
  rcases h.grows_or_step with h | ⟨j, th, r, base, calls, w, hj, hstep, rfl⟩
  · exact h.custom i e he
  · rwa [hstep.custom]

/-- What `Err` has returned, it returns after a move. -/
theorem Move.err? (h : Move s t) (hc : ∀ y ∈ c.cancelers, MadeIn s.made y)
    (he : s.err? c = some e) : t.err? c = some e := by
  induction c with
  | empty => cases he
  | custom i d => exact h.custom he
  | cancelCtx id parent => exact (h.keep (hc _ List.mem_cons_self)).2 e he
  | timerCtx id d parent => exact (h.keep (hc _ List.mem_cons_self)).2 e he
  | valueCtx parent ih => exact ih hc he

/-- What `Err` has returned, it returns for the rest of the run. -/
theorem err?_of_run (h : lts.Run s es t) (hc : ∀ y ∈ c.cancelers, MadeIn s.made y)
    (he : s.err? c = some e) : t.err? c = some e := by
  refine (h.invariant (fun v => (∀ y ∈ c.cancelers, MadeIn v.made y) ∧ v.err? c = some e) ?_
    ⟨hc, he⟩).2
  rintro v l u ⟨hc, he⟩ hstep
  have hmove := move_of_next hstep
  exact ⟨fun y hy => (hmove.keep (hc y hy)).1, hmove.err? hc he⟩

/-- The error of a context that a caller has never changes. It comes from the custom
context at the root, or from the `CancelFunc` of a context that the context was derived
from, or the time that `Deadline` gives has passed. -/
theorem err_has_cause (es es' : List CtxEvent) (s t : Contexts) (hrun : lts.Run start es s)
    (hrun' : lts.Run s es' t) : ∀ c ∈ s.known, ∀ e, s.err? c = some e →
      t.err? c = some e ∧ ((∃ i d, c.root = .custom i d ∧ .finish i e ∈ es) ∨
        (e = .canceled ∧ ∃ y ∈ c.cancelers, .cancel y ∈ es) ∨
        (e = .deadlineExceeded ∧ ∃ d, c.deadline? = some d ∧ d ≤ s.now)) := by
  intro c hc e he
  obtain ⟨hsound, hcaused, htimed⟩ := caused_of_run hrun
  have hpast := past_of_run hrun
  have hmade := hsound.known c hc
  refine ⟨err?_of_run hrun' hmade he, ?_⟩
  cases hcaused.err? hmade he with
  | canceled hy hth htask => exact .inr (.inl ⟨rfl, _, hy, hpast.cancel _ hth _ htask⟩)
  | deadline hy hd hnow =>
    obtain ⟨d', hd', hle⟩ := htimed.deadline?_le hmade hy hd
    exact .inr (.inr ⟨rfl, d', hd', hle.trans hnow⟩)
  | custom hroot he => exact .inl ⟨_, _, hroot, hpast.finish _ _ he⟩

/-- A context with a deadline below a custom one, which is done before the deadline. -/
def finishBelow : List CtxEvent :=
  [.withDeadline (.custom 7 none) 5, .run 0 .next, .run 0 .next, .run 0 .next, .run 0 .next,
    .finish 7 .deadlineExceeded, .run 1 .next, .run 1 .next, .run 1 .next]

/-- The error comes from the root, and the deadline has not passed. -/
theorem err_has_cause_custom : ∃ s, lts.Run start finishBelow s ∧
    s.err? (.timerCtx 0 5 (.custom 7 none)) = some .deadlineExceeded ∧
    .finish 7 .deadlineExceeded ∈ finishBelow := by
  have hrun : ∃ s, lts.Run start finishBelow s ∧ s.now = 0 ∧
      .timerCtx 0 5 (.custom 7 none) ∈ s.known ∧
      s.err? (.timerCtx 0 5 (.custom 7 none)) = some .deadlineExceeded :=
    ⟨_, LTS.run_ofFun_iff.mpr rfl, rfl, .head _, rfl⟩
  obtain ⟨s, hrun, hnow, hknown, he⟩ := hrun
  obtain ⟨-, ⟨i, d, hroot, hfinish⟩ | ⟨hcanceled, -⟩ | ⟨-, d, hd, hle⟩⟩ :=
    err_has_cause finishBelow [] s s hrun (.nil s) _ hknown _ he
  · cases hroot
    exact ⟨s, hrun, he, hfinish⟩
  · cases hcanceled
  · cases hd
    rw [hnow] at hle
    exact absurd hle (by decide)

end Run

end Contexts

end GoBlocks
