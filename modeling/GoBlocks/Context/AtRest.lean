import GoBlocks.Context.Cause
import GoBlocks.Context.Rest

/-!
# Contexts at rest

A context that has a deadline has a timer until it is cancelled, and one whose parent is of
another package has a goroutine that watches the parent. So when the goroutines have come
to rest, a context is done if one that it was derived from is, or if its deadline has
passed. A timer runs only for a context that is not done.
-/

namespace GoBlocks.Contexts

/-- The context has an error, or a goroutine cancels it. -/
def Cancelling (s : Contexts) (x : Canceler) : Prop :=
  (s.cell x.id).err.isSome ∨ ∃ th ∈ s.threads, ∃ k ∈ th.calls, k.c = x ∧ k.Active

/-- Whoever has to cancel a context is there. -/
structure Prompt (s : Contexts) : Prop where
  watch : ∀ x, Registered s x → parentCancelCtx x.parent = none → x.parent.neverDone = false →
    Cancelling s x ∨ ∃ th ∈ s.threads, th.base = .watch x
  timer : ∀ x, MadeIn s.made x → x.deadline.isSome → Cancelling s x ∨ (s.cell x.id).timer ∨
    ∃ th ∈ s.threads, th.base.makes = some x ∧ th.base ≠ .ret x
  armed : ∀ x, MadeIn s.made x → x.deadline.isSome → (s.cell x.id).timer →
    (s.cell x.id).err = none ∨ ∃ th ∈ s.threads, ∃ k ∈ th.calls, k.c = x

section Grows

variable {s t : Contexts} {x : Canceler}

/-- A context that is being cancelled stays so if a caller makes a move. -/
theorem Cancelling.grows (hx : Cancelling s x) (h : Grows s t) (hmade : MadeIn s.made x) :
    Cancelling t x := by
  rcases hx with hx | ⟨th, hth, hk⟩
  · left
    rwa [h.field hmade CancelCell.err fun _ _ => rfl]
  · exact .inr ⟨th, h.old th hth, hk⟩

/-- Whoever has to cancel a context is there after a move of a caller. -/
theorem Prompt.grows (hs : Prompt s) (hsound : Sound s) (h : Grows s t) : Prompt t := by
  refine ⟨fun x hx hparent hnever => ?_, fun x hx hd => ?_, fun x hx hd htimer => ?_⟩
  · have hx := h.registered hx
    rcases hs.watch x hx hparent hnever with hcancel | ⟨th, hth, hbase⟩
    · exact .inl (hcancel.grows h hx.1)
    · exact .inr ⟨th, h.old th hth, hbase⟩
  · rcases h.fresh x hx with hx | ⟨-, hnew⟩
    · rcases hs.timer x hx hd with hcancel | htimer | ⟨th, hth, hbase⟩
      · exact .inl (hcancel.grows h hx)
      · rcases h.fired x hx htimer with htimer | ⟨th, hth, k, hk, hmade, hid, hpc⟩
        · exact .inr (.inl htimer)
        · have hc := (hsound.madeIn hmade).eq hx hid
          exact .inl (.inr ⟨th, hth, k, hk, hc, .inl hpc⟩)
      · exact .inr (.inr ⟨th, h.old th hth, hbase⟩)
    · exact .inr (.inr ⟨_, hnew, rfl, by simp⟩)
  · rcases h.fresh x hx with hx | ⟨hnew, -⟩
    · rcases hs.armed x hx hd (h.armed x.id htimer) with herr | ⟨th, hth, hk⟩
      · left
        rwa [h.field hx CancelCell.err fun _ _ => rfl]
      · exact .inr ⟨th, h.old th hth, hk⟩
    · rw [hnew] at htimer
      cases htimer

end Grows

section Step

variable {s r t : Contexts} {i n : ℕ} {th : Thread} {base : Base} {calls : List Call}
  {w : Option Canceler} {x : Canceler} {k : Call} {ks : List Call}

/-- A context that is being cancelled stays so if a goroutine takes a step. -/
theorem Cancelling.step (hx : Cancelling s x) (hi : s.threads[i]? = some th)
    (h : Step s i th r base calls w) (hs : Orderly s) :
    Cancelling (r.become i th base calls w) x := by
  rcases hx with hx | ⟨th', hth', hk⟩
  · left
    rw [become_cell]
    exact h.isSome_err hx
  · rcases eq_or_ne th' th with rfl | hne
    · rcases Attended.step (.inr hk) hi h hs with hx | hk
      · exact .inl hx.err
      · exact .inr ⟨_, h.mem_self hi, hk⟩
    · exact .inr ⟨th', h.mem_of_ne hi hth' hne, hk⟩

/-- A goroutine that watches a parent goes on, or it cancels the context, or that is
done. -/
theorem Step.watch_cases (h : Step s i th r base calls w) (hbase : th.base = .watch x) :
    base = .watch x ∨ (∃ k ∈ calls, k.c = x ∧ k.Active) ∨ (s.cell x.id).done := by
  cases h with
  | late | win | visit | swept | rootless | detach | stop => exact .inl hbase
  | alarm _ hbase' =>
    cases hbase.symm.trans hbase'
    exact .inr (.inl ⟨_, List.mem_singleton_self _, rfl, .inl rfl⟩)
  | leave _ hbase' hdone =>
    cases hbase.symm.trans hbase'
    exact .inr (.inr hdone)
  | _ => cases hbase.symm.trans ‹th.base = _›

/-- A goroutine that makes a context with a deadline comes to the clock and to the
timer. -/
theorem Step.makes_cases (h : Step s i th r base calls w) (hmakes : th.base.makes = some x)
    (hret : th.base ≠ .ret x) (hd : x.deadline.isSome) :
    (base.makes = some x ∧ base ≠ .ret x) ∨ (∃ k ∈ calls, k.c = x ∧ k.Active) ∨
      (r.cell x.id).timer ∨ (r.cell x.id).err.isSome := by
  have hpropagated : (afterPropagate x).makes = some x ∧ afterPropagate x ≠ .ret x := by
    obtain ⟨d, hd⟩ := Option.isSome_iff_exists.mp hd
    simp [afterPropagate, hd, Base.makes]
  cases h with
  | late | win | visit | swept | rootless | detach | stop => exact .inl ⟨hmakes, hret⟩
  | never _ hbase | watch _ hbase | register _ hbase | release _ hbase =>
    rw [hbase] at hmakes
    cases hmakes
    exact .inl hpropagated
  | adopt _ hbase =>
    rw [hbase] at hmakes
    cases hmakes
    exact .inl ⟨rfl, by simp⟩
  | expired _ hbase =>
    rw [hbase] at hmakes
    cases hmakes
    exact .inr (.inl ⟨_, List.mem_singleton_self _, rfl, .inl rfl⟩)
  | expires _ hbase =>
    rw [hbase] at hmakes
    cases hmakes
    exact .inl ⟨rfl, by simp⟩
  | arm _ hbase =>
    rw [hbase] at hmakes
    cases hmakes
    refine .inr (.inr ?_)
    cases herr : (s.cell x.id).err <;> simp [herr]
  | ret _ hbase =>
    rw [hbase] at hmakes
    cases hmakes
    exact absurd hbase hret
  | alarm _ hbase | leave _ hbase =>
    rw [hbase] at hmakes
    cases hmakes

/-- A timer is stopped by a call that is past `cancelCtx.cancel`, and one that is to be
started for a context with an error is not. -/
theorem Step.timer_cases (h : Step s i th r base calls w) (htimer : (s.cell n).timer) :
    (r.cell n).timer ∨ (∃ k ∈ th.calls, k.c.id = n ∧ ¬ k.Active) ∨ (s.cell n).err.isSome := by
  cases h with
  | @win k =>
    rcases eq_or_ne n k.c.id with rfl | hne
    · exact .inl (by simpa [Contexts.win] using htimer)
    · exact .inl (by simpa [Contexts.win, hne] using htimer)
  | @stop k ks hcalls hpc =>
    rcases eq_or_ne n k.c.id with rfl | hne
    · refine .inr (.inl ⟨k, hcalls ▸ List.mem_cons_self, rfl, ?_⟩)
      rintro (hk | ⟨rest, hk⟩) <;> cases hpc.symm.trans hk
    · exact .inl (by rwa [modify_cell_of_ne _ _ hne])
  | @arm x =>
    rcases eq_or_ne n x.id with rfl | hne
    · cases herr : (s.cell x.id).err with
      | none => exact .inl (by simp [herr])
      | some e => exact .inr (.inr rfl)
    · exact .inl (by rwa [modify_cell_of_ne _ _ hne])
  | swept | detach | adopt | register | release =>
    exact .inl ((modify_field _ _ _ _ CancelCell.timer rfl).trans htimer)
  | _ => exact .inl htimer

/-- A timer is started for a context without an error. -/
theorem Step.armed_cases (h : Step s i th r base calls w) (htimer : (r.cell n).timer) :
    (s.cell n).timer ∨ (r.cell n).err = none ∧ th.calls = [] ∧
      ∃ x, th.base.about = some x ∧ x.id = n := by
  cases h with
  | @win k =>
    rcases eq_or_ne n k.c.id with rfl | hne
    · exact .inl (by simpa [Contexts.win] using htimer)
    · exact .inl (by simpa [Contexts.win, hne] using htimer)
  | @stop k =>
    rcases eq_or_ne n k.c.id with rfl | hne
    · simp at htimer
    · exact .inl (by rwa [modify_cell_of_ne _ _ hne] at htimer)
  | @arm x hcalls hbase =>
    rcases eq_or_ne n x.id with rfl | hne
    · exact .inr ⟨by simpa using htimer, hcalls, x, by rw [hbase]; rfl, rfl⟩
    · exact .inl (by rwa [modify_cell_of_ne _ _ hne] at htimer)
  | swept | detach | adopt | register | release =>
    exact .inl ((modify_field _ _ _ _ CancelCell.timer rfl).symm.trans htimer)
  | _ => exact .inl htimer

/-- A call for a context with a deadline goes on after `cancelCtx.cancel`. -/
theorem afterCancel_ne_nil (hd : k.c.deadline.isSome) (before : Bool) :
    ∃ k' ∈ k.afterCancel before, k'.c = k.c := by
  obtain ⟨d, hd⟩ := Option.isSome_iff_exists.mp hd
  simp only [Call.afterCancel, hd]
  split <;> exact ⟨_, List.mem_singleton_self _, rfl⟩

/-- A call for a context with a deadline goes on after `removeChild`. -/
theorem afterDetach_ne_nil (hd : k.c.deadline.isSome) : ∃ k' ∈ k.afterDetach, k'.c = k.c := by
  obtain ⟨d, hd⟩ := Option.isSome_iff_exists.mp hd
  simp only [Call.afterDetach, hd]
  exact ⟨_, List.mem_singleton_self _, rfl⟩

/-- A call for a context with a deadline goes on until it has stopped the timer. -/
theorem Step.call_cases (h : Step s i th r base calls w) (hk : k ∈ th.calls)
    (hd : k.c.deadline.isSome) :
    (∃ k' ∈ calls, k'.c = k.c) ∨ (r.cell k.c.id).timer = false := by
  rcases h.mem_or_head hk with hk | ⟨ks, hcalls⟩
  · exact .inl ⟨k, hk, rfl⟩
  · cases h with
    | late hcalls' | swept hcalls' =>
      cases hcalls.symm.trans hcalls'
      obtain ⟨k', hk', hc⟩ := afterCancel_ne_nil hd _
      exact .inl ⟨k', List.mem_append_left _ hk', hc⟩
    | win hcalls' =>
      cases hcalls.symm.trans hcalls'
      exact .inl ⟨_, List.mem_cons_self, rfl⟩
    | visit hcalls' =>
      cases hcalls.symm.trans hcalls'
      exact .inl ⟨_, List.mem_cons_of_mem _ List.mem_cons_self, rfl⟩
    | rootless hcalls' | detach hcalls' =>
      cases hcalls.symm.trans hcalls'
      obtain ⟨k', hk', hc⟩ := afterDetach_ne_nil hd
      exact .inl ⟨k', List.mem_append_left _ hk', hc⟩
    | stop hcalls' =>
      cases hcalls.symm.trans hcalls'
      exact .inr (by simp)
    | _ => cases hcalls.symm.trans ‹th.calls = []›

/-- An error is set in a call. -/
theorem Step.err_none_cases (h : Step s i th r base calls w) (herr : (s.cell n).err = none) :
    (r.cell n).err = none ∨ ∃ k ∈ calls, k.c.id = n ∧ k.held ≠ [] := by
  cases h with
  | @win k =>
    rcases eq_or_ne n k.c.id with rfl | hne
    · exact .inr ⟨_, List.mem_cons_self, rfl, by simp [Call.held]⟩
    · exact .inl (by simp [Contexts.win, hne, herr])
  | swept | detach | stop | adopt | register | release | arm =>
    exact .inl ((modify_field _ _ _ _ CancelCell.err rfl).trans herr)
  | _ => exact .inl herr

/-- The watcher of a context is started, or the parent is of this package. -/
theorem Step.watch_started (h : Step s i th r base calls w) (hsound : ThreadSound s.made th)
    (hprop : th.base.Propagates x) (hbase : ¬ base.Propagates x)
    (hparent : parentCancelCtx x.parent = none) (hnever : x.parent.neverDone = false) :
    w = some x := by
  have habout := hprop.about
  cases h with
  | never _ hbase' hnever' =>
    rw [hbase'] at habout
    cases habout
    cases hnever.symm.trans hnever'
  | watch _ hbase' =>
    rw [hbase'] at habout
    cases habout
    rfl
  | adopt _ hbase' hp | register _ hbase' hp =>
    rw [hbase'] at habout
    cases habout
    cases hparent.symm.trans hp
  | release _ hbase' =>
    rw [hbase'] at habout
    cases habout
    cases hparent.symm.trans (hsound.adopted _ _ hbase').1
  | expired _ hbase' | expires _ hbase' | arm _ hbase' | ret _ hbase' | alarm _ hbase'
  | leave _ hbase' =>
    rw [hbase'] at hprop
    rcases hprop with hprop | ⟨p, hprop⟩ <;> cases hprop
  | _ => exact absurd hprop hbase

/-- The goroutine that a step starts is there. -/
theorem mem_become_watch (r : Contexts) : (⟨.watch x, .watch x, []⟩ : Thread) ∈
    (r.become i th base calls (some x)).threads :=
  List.mem_append_right _ (List.mem_singleton_self _)

/-- A goroutine watches the parent until it is done. -/
theorem Prompt.watch_step (hs : Prompt s) (horderly : Orderly s) (hi : s.threads[i]? = some th)
    (h : Step s i th r base calls w) (hx : Registered (r.become i th base calls w) x)
    (hparent : parentCancelCtx x.parent = none) (hnever : x.parent.neverDone = false) :
    Cancelling (r.become i th base calls w) x ∨
      ∃ th' ∈ (r.become i th base calls w).threads, th'.base = .watch x := by
  rcases h.registered hi hx with hx | ⟨hprop, hbase⟩
  · rcases hs.watch x hx hparent hnever with hcancel | ⟨th', hth', hbase⟩
    · exact .inl (hcancel.step hi h horderly)
    · rcases eq_or_ne th' th with rfl | hne
      · rcases h.watch_cases hbase with hbase | hk | hdone
        · exact .inr ⟨_, h.mem_self hi, hbase⟩
        · exact .inl (.inr ⟨_, h.mem_self hi, hk⟩)
        · rw [horderly.marked.done] at hdone
          exact .inl (Cancelling.step (.inl hdone) hi h horderly)
      · exact .inr ⟨th', h.mem_of_ne hi hth' hne, hbase⟩
  · have hth := horderly.sound.thread th (List.mem_of_getElem? hi)
    cases h.watch_started hth hprop hbase hparent hnever
    exact .inr ⟨_, mem_become_watch r, rfl⟩

/-- A timer runs until the context is cancelled, or it is about to be started. -/
theorem Prompt.timer_step (hs : Prompt s) (horderly : Orderly s) (hcovered : Covered s)
    (hi : s.threads[i]? = some th) (h : Step s i th r base calls w) (hx : MadeIn s.made x)
    (hd : x.deadline.isSome) :
    Cancelling (r.become i th base calls w) x ∨ (r.cell x.id).timer ∨
      ∃ th' ∈ (r.become i th base calls w).threads,
        th'.base.makes = some x ∧ th'.base ≠ .ret x := by
  rcases hs.timer x hx hd with hcancel | htimer | ⟨th', hth', hmakes, hret⟩
  · exact .inl (hcancel.step hi h horderly)
  · rcases h.timer_cases htimer with htimer | ⟨k, hk, hid, hactive⟩ | herr
    · exact .inr (.inl htimer)
    · have hsettled := hcovered.after th (List.mem_of_getElem? hi) k hk hactive
      rw [hsettled.made.eq hx hid] at hsettled
      exact .inl (Cancelling.step (.inl hsettled.err) hi h horderly)
    · exact .inl (Cancelling.step (.inl herr) hi h horderly)
  · rcases eq_or_ne th' th with rfl | hne
    · rcases h.makes_cases hmakes hret hd with hmakes | hk | htimer | herr
      · exact .inr (.inr ⟨_, h.mem_self hi, hmakes⟩)
      · exact .inl (.inr ⟨_, h.mem_self hi, hk⟩)
      · exact .inr (.inl htimer)
      · exact .inl (.inl (by rwa [become_cell]))
    · exact .inr (.inr ⟨th', h.mem_of_ne hi hth' hne, hmakes, hret⟩)

/-- The goroutine that cancels a context stops its timer before it returns. -/
theorem Prompt.armed_step (hs : Prompt s) (horderly : Orderly s) (hi : s.threads[i]? = some th)
    (h : Step s i th r base calls w) (hx : MadeIn s.made x) (hd : x.deadline.isSome)
    (htimer : (r.cell x.id).timer) :
    (r.cell x.id).err = none ∨
      ∃ th' ∈ (r.become i th base calls w).threads, ∃ k ∈ th'.calls, k.c = x := by
  rcases h.armed_cases htimer with htimer' | ⟨herr, -⟩
  · rcases hs.armed x hx hd htimer' with herr | ⟨th', hth', k, hk, rfl⟩
    · rcases h.err_none_cases herr with herr | ⟨k, hk, hid, -⟩
      · exact .inl herr
      · have hk' := ((horderly.sound.step hi h).thread _ (h.mem_self hi)).call k hk
        rw [become_made, h.made] at hk'
        exact .inr ⟨_, h.mem_self hi, k, hk, hk'.eq hx hid⟩
    · rcases eq_or_ne th' th with rfl | hne
      · rcases h.call_cases hk hd with hk' | hstopped
        · exact .inr ⟨_, h.mem_self hi, hk'⟩
        · cases hstopped.symm.trans htimer
      · exact .inr ⟨th', h.mem_of_ne hi hth' hne, k, hk, rfl⟩
  · exact .inl herr

/-- Whoever has to cancel a context is there after a step of a goroutine. -/
theorem Prompt.step (hs : Prompt s) (horderly : Orderly s) (hcovered : Covered s)
    (hi : s.threads[i]? = some th) (h : Step s i th r base calls w) :
    Prompt (r.become i th base calls w) := by
  refine ⟨fun x hx => hs.watch_step horderly hi h hx, fun x hx hd => ?_, fun x hx hd htimer => ?_⟩
  · rw [become_made, h.made] at hx
    rw [become_cell]
    exact hs.timer_step horderly hcovered hi h hx hd
  · rw [become_made, h.made] at hx
    rw [become_cell] at htimer ⊢
    exact hs.armed_step horderly hi h hx hd htimer

end Step

/-- Whoever has to cancel a context is there after a move. -/
theorem Prompt.move {s t : Contexts} (hs : Prompt s) (horderly : Orderly s) (hcovered : Covered s)
    (h : Move s t) : Prompt t := by
  rcases h.grows_or_step with h | ⟨i, th, r, base, calls, w, hi, hstep, rfl⟩
  · exact hs.grows horderly.sound h
  · exact hs.step horderly hcovered hi hstep

/-! ## Runs -/

section Run

variable {s t : Contexts} {es : List CtxEvent} {x y : Canceler} {c : Ctx} {th : Thread}

/-- A goroutine keeps its task. -/
theorem Move.task (h : Move s t) (hth : th ∈ s.threads) :
    ∃ th' ∈ t.threads, th'.task = th.task := by
  rcases h.grows_or_step with h | ⟨i, th₀, r, base, calls, w, hi, hstep, rfl⟩
  · exact ⟨th, h.old th hth, rfl⟩
  · rcases eq_or_ne th th₀ with rfl | hne
    · exact ⟨_, hstep.mem_self hi, rfl⟩
    · exact ⟨th, hstep.mem_of_ne hi hth hne, rfl⟩

/-- At rest, no goroutine is in a call. -/
theorem Cancelling.settled (hx : Cancelling s x) (hmade : MadeIn s.made x)
    (hresting : ∀ th ∈ s.threads, Resting s th) : Settled s x := by
  have hcalls : ∀ th ∈ s.threads, ∀ k, k ∉ th.calls := by
    intro th hth k hk
    rw [(hresting th hth).1] at hk
    cases hk
  rcases hx with hx | ⟨th, hth, k, hk, -⟩
  · exact ⟨hmade, hx, fun th hth k hk => absurd hk (hcalls th hth k)⟩
  · exact absurd hk (hcalls th hth k)

end Run

end GoBlocks.Contexts
