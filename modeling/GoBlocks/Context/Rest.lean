import GoBlocks.Context.Reach
import GoBlocks.Context.Work
import GoBlocks.Lib.Progress

/-!
# Goroutines of contexts come to rest

A goroutine that waits for a mutex holds those of contexts above only, so that some
goroutine that holds a mutex can go on. When no goroutine can go on, each has returned,
except those that watch a parent, and no mutex is locked.
-/

namespace GoBlocks.Contexts

/-! ## Waiting for a mutex -/

/-- What holds of a goroutine by itself. -/
structure Shaped (th : Thread) : Prop where
  detach : ∀ k ∈ th.calls, k.pc = .detach → k.removeFromParent
  timer : ∀ x, th.base = .expires x ∨ th.base = .arm x → x.deadline.isSome
  watch : ∀ x, th.base = .watch x → parentCancelCtx x.parent = none

section Shaped

variable {s r t : Contexts} {i n : ℕ} {th : Thread} {base : Base} {calls : List Call}
  {w : Option Canceler} {k : Call} {ks : List Call} {x : Canceler}

/-- What holds of a goroutine by itself holds of one that was just started. -/
theorem Fresh.shaped (h : Fresh s th) : Shaped th := by
  cases h with
  | make =>
    refine ⟨fun _ hk => (by cases hk), fun y hy => ?_, fun y hy => (by cases hy)⟩
    rcases hy with hy | hy <;> cases hy
  | cancel | timer =>
    refine ⟨List.forall_mem_singleton.mpr fun hpc => (by cases hpc), fun y hy => ?_,
      fun y hy => (by cases hy)⟩
    rcases hy with hy | hy <;> cases hy

/-- After `propagateCancel` only a context with a deadline is looked at, and nothing is watched. -/
theorem afterPropagate_shape (x : Canceler) :
    (∀ y, afterPropagate x = .expires y ∨ afterPropagate x = .arm y → y.deadline.isSome) ∧
      ∀ y, afterPropagate x ≠ .watch y := by
  unfold afterPropagate
  split
  next => simp
  next d hd => simp [hd]

/-- What holds of a goroutine by itself holds after its step. -/
theorem Step.shaped (h : Step s i th r base calls w) (hth : Shaped th) :
    Shaped ⟨th.task, base, calls⟩ := by
  have hdetach : ∀ k ∈ calls, k.pc = .detach → k.removeFromParent := by
    intro k hk hpc
    cases h.origin hk with
    | kept hk₀ => exact hth.detach k hk₀ hpc
    | past _ hpc' =>
      rcases hpc' with rfl | ⟨-, hremove⟩
      · cases hpc
      · exact hremove
    | _ => cases hpc
  cases h with
  | late | win | visit | swept | rootless | detach | stop => exact ⟨hdetach, hth.timer, hth.watch⟩
  | @never x | @watch x | @register x | @release _ x =>
    obtain ⟨htimer, hwatch⟩ := afterPropagate_shape x
    exact ⟨hdetach, htimer, fun y hy => absurd hy (hwatch y)⟩
  | expires _ hbase =>
    refine ⟨hdetach, fun y hy => ?_, by simp⟩
    rcases hy with hy | hy <;> cases hy
    exact hth.timer _ (.inl hbase)
  | _ => exact ⟨hdetach, by simp, by simp⟩

/-- A goroutine watches a parent that is not of this package. -/
theorem Step.watch_parent (h : Step s i th r base calls (some x)) :
    parentCancelCtx x.parent = none := by
  cases h with
  | watch _ _ hparent => exact hparent

/-- What holds of each goroutine by itself holds after a move. -/
theorem shaped_move (hs : ∀ th ∈ s.threads, Shaped th) (h : Move s t) :
    ∀ th ∈ t.threads, Shaped th := by
  intro th' hth'
  rcases h.grows_or_step with h | ⟨i, th, r, base, calls, w, hi, hstep, rfl⟩
  · rcases h.thread th' hth' with hth' | hth'
    · exact hs th' hth'
    · exact hth'.shaped
  · rcases mem_become hth' with rfl | hth' | ⟨y, rfl, rfl⟩
    · exact hstep.shaped (hs th (List.mem_of_getElem? hi))
    · exact hs th' (hstep.threads ▸ hth')
    · refine ⟨by simp, by simp, fun x hx => ?_⟩
      cases hx
      exact hstep.watch_parent

end Shaped

/-- The mutex that a goroutine locks with its next step. -/
def Thread.wants (th : Thread) : Option ℕ :=
  match th.calls with
  | k :: _ =>
    match k.pc with
    | .enter | .stop => some k.c.id
    | .detach => (parentCancelCtx k.c.parent).map Canceler.id
    | .sweep _ => none
  | [] =>
    match th.base with
    | .propagate x => (parentCancelCtx x.parent).map Canceler.id
    | .arm x => some x.id
    | _ => none

/-- The goroutine waits for a mutex. -/
def Waits (s : Contexts) (i n : ℕ) : Prop :=
  ∃ th, s.threads[i]? = some th ∧ th.wants = some n ∧ (s.cell n).mu.isSome

/-- The goroutine has returned, or it watches a parent, and neither the parent nor the
context is done. -/
def Resting (s : Contexts) (th : Thread) : Prop :=
  th.calls = [] ∧ (th.base = .done ∨ ∃ x, th.base = .watch x ∧ s.err? x.parent = none ∧
    (s.cell x.id).done = false)

section Waits

variable {s : Contexts} {i n m : ℕ} {th : Thread} {k : Call} {ks : List Call} {x : Canceler}

/-- A goroutine holds no mutex below a call that removes its context from the parent. -/
theorem ThreadSound.not_mem_held {made : List Canceler} (h : ThreadSound made th)
    (hcalls : th.calls = k :: ks) (hremove : k.removeFromParent) :
    n ∉ (⟨th.task, th.base, ks⟩ : Thread).held := by
  intro hn
  have hnested := h.nested
  rw [hcalls] at hnested
  rcases List.mem_append.mp hn with hn | hn
  · obtain ⟨k', hk', -⟩ := List.mem_flatMap.mp hn
    have hkeep := ((List.pairwise_cons.mp hnested).1 k' hk').2.1
    cases hkeep.symm.trans hremove
  · cases hbase : th.base with
    | adopted p x =>
      have hkeep := ((h.adopted p x hbase).2 k (hcalls ▸ List.mem_cons_self)).2
      cases hkeep.symm.trans hremove
    | _ =>
      rw [hbase] at hn
      cases hn

/-- Mutexes are locked in the order of the numbers. -/
theorem held_lt_wants {made : List Canceler} (hsound : ThreadSound made th) (hshaped : Shaped th)
    (hn : n ∈ th.held) (hm : th.wants = some m) : n < m := by
  cases hcalls : th.calls with
  | nil =>
    rw [held_of_nil hcalls] at hn
    simp only [Thread.wants, hcalls] at hm
    cases hbase : th.base <;> simp [hbase, Base.held] at hn hm
  | cons k ks =>
    rw [held_of_cons hcalls] at hn
    simp only [Thread.wants, hcalls] at hm
    have hfirst : k.held = [] → k.c.id = m → n < m := by
      rintro hnil rfl
      rw [hnil] at hn
      exact hsound.lt_of_mem_held hcalls hn
    cases hpc : k.pc with
    | enter | stop =>
      rw [hpc] at hm
      exact hfirst (by simp [Call.held, hpc]) (Option.some.inj hm)
    | sweep rest =>
      rw [hpc] at hm
      cases hm
    | detach =>
      have hremove := hshaped.detach k (hcalls ▸ List.mem_cons_self) hpc
      rw [Call.held, hpc] at hn
      exact absurd hn (hsound.not_mem_held hcalls hremove)

/-- Whoever waits, waits for the mutex of a context that was made. -/
theorem Sound.lt_of_wants (hs : Sound s) (hth : th ∈ s.threads) (hm : th.wants = some m) :
    m < s.made.length := by
  have hsound := hs.thread th hth
  have hparent : ∀ {y : Canceler}, MadeIn s.made y →
      (parentCancelCtx y.parent).map Canceler.id = some m → m < s.made.length := by
    intro y hy hm
    obtain ⟨p, hp, rfl⟩ := Option.map_eq_some_iff.mp hm
    exact (hs.above hy hp).2.id_lt
  cases hcalls : th.calls with
  | nil =>
    simp only [Thread.wants, hcalls] at hm
    cases hbase : th.base with
    | propagate x =>
      rw [hbase] at hm
      exact hparent (hsound.base x (by rw [hbase]; rfl)) hm
    | arm x =>
      rw [hbase] at hm
      cases hm
      exact (hsound.base x (by rw [hbase]; rfl)).id_lt
    | _ =>
      rw [hbase] at hm
      cases hm
  | cons k ks =>
    have hk := hsound.call k (hcalls ▸ List.mem_cons_self)
    simp only [Thread.wants, hcalls] at hm
    cases hpc : k.pc with
    | enter | stop =>
      rw [hpc] at hm
      cases hm
      exact hk.id_lt
    | sweep rest =>
      rw [hpc] at hm
      cases hm
    | detach =>
      rw [hpc] at hm
      exact hparent hk hm

/-- A goroutine in a call that does not wait for a mutex can go on. -/
theorem step_of_call (hi : s.threads[i]? = some th) (hcalls : th.calls = k :: ks)
    (hfree : ∀ n, th.wants = some n → (s.cell n).mu = none) : ∃ a t, s.step i a = some t := by
  have hstep : ∀ a, s.step i a = s.stepCall i th k ks k.pc a := by
    intro a
    simp only [step, hi, hcalls]
  simp only [Thread.wants, hcalls] at hfree
  simp only [hstep]
  cases hpc : k.pc with
  | enter =>
    have hmu := hfree k.c.id (by rw [hpc])
    refine ⟨.next, ?_⟩
    by_cases herr : (s.cell k.c.id).err.isSome <;> simp [stepCall, hmu, herr]
  | sweep rest =>
    cases rest with
    | nil => exact ⟨.next, _, rfl⟩
    | cons x rest => exact ⟨.visit x, by simp [stepCall]⟩
  | detach =>
    rw [hpc] at hfree
    refine ⟨.next, ?_⟩
    cases hparent : parentCancelCtx k.c.parent with
    | none => simp [stepCall, hparent]
    | some p =>
      have hmu := hfree p.id (by rw [hparent]; rfl)
      simp [stepCall, hparent, hmu]
  | stop =>
    have hmu := hfree k.c.id (by rw [hpc])
    exact ⟨.next, by simp [stepCall, hmu]⟩

/-- A goroutine outside of calls that does not wait for a mutex can go on, or it rests. -/
theorem step_of_base (hi : s.threads[i]? = some th) (hcalls : th.calls = [])
    (hshaped : Shaped th) (hfree : ∀ n, th.wants = some n → (s.cell n).mu = none) :
    (∃ a t, s.step i a = some t) ∨ Resting s th := by
  have hstep : ∀ a, s.step i a = s.stepBase i th th.base a := by
    intro a
    simp only [step, hi, hcalls]
  simp only [Thread.wants, hcalls] at hfree
  simp only [hstep]
  cases hbase : th.base with
  | propagate x =>
    rw [hbase] at hfree
    refine .inl ⟨.next, ?_⟩
    by_cases hnever : x.parent.neverDone
    · simp [stepBase, hnever]
    · cases hparent : parentCancelCtx x.parent with
      | none => simp [stepBase, hnever, hparent]
      | some p =>
        have hmu := hfree p.id (by simp [hparent])
        cases herr : (s.cell p.id).err <;> simp [stepBase, hnever, hparent, hmu, herr]
  | adopted p x => exact .inl ⟨.next, _, rfl⟩
  | expires x =>
    obtain ⟨d, hd⟩ := Option.isSome_iff_exists.mp (hshaped.timer x (.inl hbase))
    refine .inl ⟨.next, ?_⟩
    by_cases hnow : d ≤ s.now <;> simp [stepBase, hd, hnow]
  | arm x =>
    have hmu := hfree x.id (by rw [hbase])
    exact .inl ⟨.next, by simp [stepBase, hmu]⟩
  | ret x => exact .inl ⟨.next, _, rfl⟩
  | watch x =>
    cases herr : s.err? x.parent with
    | some e => exact .inl ⟨.next, by simp [stepBase, herr]⟩
    | none =>
      cases hdone : (s.cell x.id).done with
      | true => exact .inl ⟨.leave, by simp [stepBase, hdone]⟩
      | false => exact .inr ⟨hcalls, .inr ⟨x, hbase, herr, hdone⟩⟩
  | done => exact .inr ⟨hcalls, .inl hbase⟩

/-- A goroutine that holds a mutex does not rest. -/
theorem Resting.held (h : Resting s th) : th.held = [] := by
  obtain ⟨hcalls, hbase | ⟨x, hbase, -⟩⟩ := h <;> rw [held_of_nil hcalls, hbase] <;> rfl

/-- If no goroutine can go on, then all rest. -/
theorem resting_of_stuck (hs : Orderly s) (hshaped : ∀ th ∈ s.threads, Shaped th)
    (hstuck : ∀ i a t, s.step i a ≠ some t) : ∀ th ∈ s.threads, Resting s th := by
  have hrests : ∀ {i th}, s.threads[i]? = some th → (∀ n, ¬ Waits s i n) → Resting s th := by
    intro i th hi hwaits
    have hfree : ∀ n, th.wants = some n → (s.cell n).mu = none := by
      intro n hn
      by_contra hmu
      exact hwaits n ⟨th, hi, hn, Option.isSome_iff_ne_none.mpr hmu⟩
    have hno : ¬ ∃ a t, s.step i a = some t := fun ⟨a, t, ht⟩ => hstuck i a t ht
    cases hcalls : th.calls with
    | nil =>
      have hbase := step_of_base hi hcalls (hshaped th (List.mem_of_getElem? hi)) hfree
      exact hbase.resolve_left hno
    | cons k ks => exact absurd (step_of_call hi hcalls hfree) hno
  intro th hth
  obtain ⟨i, hi⟩ := List.mem_iff_getElem?.mp hth
  refine hrests hi fun n hn => ?_
  -- some goroutine on the way holds a mutex and does not wait
  have hholder : ∃ j m, (∃ th, s.threads[j]? = some th ∧ m ∈ th.held) ∧ ∀ m', ¬ Waits s j m' := by
    refine exists_not_waiting (n := s.made.length) ?_ ?_ ?_ hn
    · rintro j m ⟨th, hj, hwants, -⟩
      exact hs.sound.lt_of_wants (List.mem_of_getElem? hj) hwants
    · rintro j m ⟨th, hj, -, hmu⟩
      obtain ⟨j', hj'⟩ := Option.isSome_iff_exists.mp hmu
      exact ⟨j', (hs.locks m j').mp hj'⟩
    · rintro j m m' ⟨th, hj, hm⟩ ⟨th', hj', hwants, -⟩
      cases hj.symm.trans hj'
      have hmem := List.mem_of_getElem? hj
      exact held_lt_wants (hs.sound.thread th hmem) (hshaped th hmem) hm hwants
  obtain ⟨j, m, ⟨th', hj, hm⟩, hnot⟩ := hholder
  rw [(hrests hj hnot).held] at hm
  cases hm

end Waits

/-! ## Runs -/

/-- A goroutine takes the step, or a timer fires. -/
def Own : CtxEvent → Bool
  | .fire _ | .run _ _ => true
  | _ => false

/-- The steps that a call brings. -/
def cost : CtxEvent → ℕ
  | .withCancel _ | .withDeadline _ _ => 14
  | .cancel _ => 4
  | _ => 0

/-- No goroutine can take a step, and no timer fires. -/
def AtRest (s : Contexts) : Prop := lts.Quiet (fun l => Own l) s

section Run

variable {s t : Contexts} {es : List CtxEvent} {l : CtxEvent}

/-- A new goroutine brings its work. -/
theorem work_spawn (s : Contexts) (th : Thread) : (s.spawn th).work = s.work + th.work := by
  simp only [work, threadWork, Contexts.spawn, List.map_append, List.map_singleton, List.sum_append,
    List.sum_singleton, cellWork]
  omega

/-- A new context brings the work of making it. -/
theorem work_make (s : Contexts) (d : Option ℕ) (parent : Ctx) :
    (s.make d parent).work = s.work + 14 := by
  have hold : ∀ n ∈ Finset.range s.made.length,
      CancelCell.work (Function.update s.cell s.made.length newCancelCtx n) =
        CancelCell.work (s.cell n) := by
    intro n hn
    rw [Function.update_of_ne (Nat.ne_of_lt (Finset.mem_range.mp hn))]
  have hcells : (s.make d parent).cellWork = s.cellWork := by
    simp only [cellWork, Contexts.make, List.length_append, List.length_singleton]
    rw [Finset.sum_range_succ, Function.update_self, Finset.sum_congr rfl hold]
    rfl
  have hthread : ∀ x, (⟨.make x, .propagate x, []⟩ : Thread).work = 14 := fun _ => rfl
  simp only [work, hcells, threadWork]
  simp only [Contexts.make, List.map_append, List.map_singleton, List.sum_append,
    List.sum_singleton, hthread]
  omega

/-- A timer that fires has five steps to give. -/
theorem work_fire {x : Canceler} (hs : Sound s) (hx : x ∈ s.made) (htimer : (s.cell x.id).timer) :
    (s.modify x.id fun c => { c with timer := false }).work + 5 ≤ s.work := by
  have hlt : x.id < s.made.length := (hs.madeIn hx).id_lt
  have hcells := cellWork_modify (a := 5) (b := 0) (f := fun c => { c with timer := false }) hlt
    (by simp [CancelCell.work, htimer])
  have hthreads : ∀ f, (s.modify x.id f).threadWork = s.threadWork := fun _ => rfl
  simp only [work, hthreads]
  omega

/-- A step of a goroutine takes one from the work, and a caller adds what the call costs. -/
theorem work_next (hs : Sound s) (h : s.next l = some t) :
    t.work + (Own l).toNat ≤ s.work + cost l := by
  cases l with
  | withCancel parent =>
    obtain ⟨-, h⟩ := Option.ite_none_right_eq_some.mp h
    cases h
    exact (work_make s none parent).le
  | withDeadline parent d =>
    obtain ⟨-, h⟩ := Option.ite_none_right_eq_some.mp h
    split at h
    · split at h <;>
      · cases h
        exact (work_make s _ parent).le
    · cases h
      exact (work_make s _ parent).le
  | withValue parent =>
    obtain ⟨-, h⟩ := Option.ite_none_right_eq_some.mp h
    cases h
    exact le_rfl
  | cancel x =>
    obtain ⟨-, h⟩ := Option.ite_none_right_eq_some.mp h
    cases h
    exact (work_spawn s _).le
  | fire x =>
    obtain ⟨⟨hx, htimer, -⟩, h⟩ := Option.ite_none_right_eq_some.mp h
    cases h
    have hle := work_fire hs hx htimer
    rw [work_spawn, work_call, work_enter]
    exact hle
  | finish i e =>
    obtain ⟨-, h⟩ := Option.ite_none_left_eq_some.mp h
    cases h
    exact le_rfl
  | tick =>
    cases h
    exact le_rfl
  | run i a =>
    obtain ⟨th, r, base, calls, w, hi, hstep, rfl⟩ := step_of_run h
    exact hstep.work_lt hs hi

/-- What a goroutine does by itself brings no further steps. -/
theorem cost_of_own (h : Own l) : cost l = 0 := by
  cases l <;> first | rfl | cases h

/-- What holds of each goroutine by itself holds in every run. -/
theorem shaped_of_run (h : lts.Run start es s) : ∀ th ∈ s.threads, Shaped th :=
  h.invariant (fun s => ∀ th ∈ s.threads, Shaped th)
    (fun _ _ _ hs hstep => shaped_move hs (move_of_next hstep)) fun _ hth => by cases hth

/-- The goroutines take at most fourteen steps for each context and four for each call of a
`CancelFunc`, in any order with the callers. They can go on until each has returned, or
watches a parent, and then no mutex is locked. -/
theorem contexts_come_to_rest (es : List CtxEvent) (s : Contexts) (hrun : lts.Run start es s) :
    es.countP Own ≤ (es.map cost).sum ∧
      (AtRest s → (∀ th ∈ s.threads, Resting s th) ∧ ∀ n, (s.cell n).mu = none) ∧
      ∃ ls t, (∀ l ∈ ls, Own l) ∧ lts.Run s ls t ∧ AtRest t := by
  obtain ⟨hs, -⟩ := orderly_of_run hrun
  refine ⟨?_, fun hrest => ?_, ?_⟩
  · have hle : es.countP Own + s.work ≤ start.work + (es.map cost).sum :=
      hrun.countP_add_le_sum (I := Sound)
        (fun _ _ _ hs hstep => ⟨hs.move (move_of_next hstep), work_next hs hstep⟩) sound_start
    have hstart : start.work = 0 := rfl
    omega
  · have hstuck : ∀ i a t, s.step i a ≠ some t := fun i a t ht => hrest (.run i a) t rfl ht
    have hresting := resting_of_stuck hs (shaped_of_run hrun) hstuck
    refine ⟨hresting, fun n => ?_⟩
    by_contra hmu
    obtain ⟨j, hj⟩ := Option.ne_none_iff_exists'.mp hmu
    obtain ⟨th, hth, hn⟩ := (hs.locks n j).mp hj
    rw [(hresting th (List.mem_of_getElem? hth)).held] at hn
    cases hn
  · refine LTS.exists_quiet (I := Sound) (μ := work) (fun v l u hv hl hstep => ?_) hs.sound
    have hle := work_next hv hstep
    rw [hl, cost_of_own hl, Bool.toNat_true] at hle
    exact ⟨hv.move (move_of_next hstep), hle⟩

/-- A context below one of another package, which is not done. -/
def watchBelow : List CtxEvent := [.withCancel (.custom 7 none), .run 0 .next, .run 0 .next]

/-- The goroutine that watches the parent is left. -/
theorem contexts_come_to_rest_watch : ∃ s, lts.Run start watchBelow s ∧ AtRest s ∧
    (∀ th ∈ s.threads, Resting s th) ∧ ∃ th ∈ s.threads, th.base ≠ .done := by
  have hrun : ∃ s, lts.Run start watchBelow s ∧ AtRest s ∧ ∃ th ∈ s.threads, th.base ≠ .done := by
    refine ⟨_, LTS.run_ofFun_iff.mpr rfl, fun l t hl hstep => ?_, _, .tail _ (.head _), by simp⟩
    cases l with
    | run i a => rcases i with _ | _ | i <;> cases a <;> cases hstep
    | fire x =>
      obtain ⟨⟨hx, htimer, -⟩, -⟩ := Option.ite_none_right_eq_some.mp hstep
      cases List.mem_singleton.mp hx
      cases htimer
    | _ => cases hl
  obtain ⟨s, hrun, hrest, hwatch⟩ := hrun
  exact ⟨s, hrun, hrest, ((contexts_come_to_rest watchBelow s hrun).2.1 hrest).1, hwatch⟩

end Run

end GoBlocks.Contexts
