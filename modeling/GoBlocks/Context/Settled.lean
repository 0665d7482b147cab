import GoBlocks.Context.Making

/-!
# Contexts that are settled

A context is settled when it has an error and no goroutine is at its children any more.
It stays so. Whoever comes to lock the mutex of a context with an error finds it settled,
since the goroutine that set the error keeps the mutex locked until it has cancelled the
children. So a call of `cancel` that returns leaves the context settled, even if another
goroutine did the work, and with it every context that was derived from it.
-/

namespace GoBlocks.Contexts

/-! ## Where calls come from -/

/-- Where a call of a goroutine comes from that has taken a step. -/
inductive Origin (s : Contexts) (th : Thread) (r : Contexts) (base : Base) (calls : List Call) :
    Call → Prop
  | kept {k : Call} (hk : k ∈ th.calls) : Origin s th r base calls k
  /-- The call goes on after `cancelCtx.cancel`. -/
  | past {k : Call} {pc : CallPc} (hk : k ∈ th.calls)
      (hpc : pc = .stop ∨ pc = .detach ∧ k.removeFromParent) :
    Origin s th r base calls { k with pc := pc }
  | won {k : Call} (hk : k ∈ th.calls) (herr : (s.cell k.c.id).err = none)
      (herr' : (r.cell k.c.id).err.isSome) :
    Origin s th r base calls { k with pc := .sweep (s.cell k.c.id).children }
  | sweeps {k : Call} {rest : List Canceler} {x : Canceler} (hk : k ∈ th.calls)
      (hpc : k.pc = .sweep rest) : Origin s th r base calls { k with pc := .sweep (rest.erase x) }
  /-- The sweep of the context above comes to a child. -/
  | child {k : Call} {rest : List Canceler} {x : Canceler} (hk : k ∈ th.calls)
      (hpc : k.pc = .sweep rest) (hx : x ∈ rest)
      (hsweeps : { k with pc := .sweep (rest.erase x) } ∈ calls) :
    Origin s th r base calls ⟨x, false, k.err, .enter⟩
  | adopted {x p : Canceler} {e : CtxErr} (hnil : th.calls = []) (hbase : th.base = .propagate x)
      (hbase' : base = .adopted p x) (hparent : parentCancelCtx x.parent = some p)
      (herr : (s.cell p.id).err = some e) : Origin s th r base calls ⟨x, false, e, .enter⟩
  | expired {x : Canceler} {d : ℕ} (hnil : th.calls = []) (hbase : th.base = .expires x)
      (hd : x.deadline = some d) (hnow : d ≤ s.now) :
    Origin s th r base calls ⟨x, true, .deadlineExceeded, .enter⟩
  | alarm {x : Canceler} {e : CtxErr} (hnil : th.calls = []) (hbase : th.base = .watch x)
      (herr : s.err? x.parent = some e) : Origin s th r base calls ⟨x, false, e, .enter⟩

section Origin

variable {s r : Contexts} {i : ℕ} {th : Thread} {base : Base} {calls : List Call}
  {w : Option Canceler} {k k' : Call}

/-- `removeChild` is called where `removeFromParent` says so. -/
theorem of_mem_afterCancel {before : Bool} (h : k' ∈ k.afterCancel before) :
    ∃ pc, k' = { k with pc := pc } ∧ (pc = .stop ∨ pc = .detach ∧ k.removeFromParent) := by
  unfold Call.afterCancel at h
  split at h <;> split at h
  next hremove =>
    exact ⟨_, List.mem_singleton.mp h, .inr ⟨rfl, (Bool.and_eq_true_iff.mp hremove).1⟩⟩
  next => cases h
  next hremove => exact ⟨_, List.mem_singleton.mp h, .inr ⟨rfl, hremove⟩⟩
  next => exact ⟨_, List.mem_singleton.mp h, .inl rfl⟩

/-- After `removeChild` a call can only go on to stop the timer. -/
theorem of_mem_afterDetach (h : k' ∈ k.afterDetach) : k' = { k with pc := .stop } := by
  rcases k.afterDetach_cases with hafter | hafter <;> rw [hafter] at h
  · cases h
  · exact List.mem_singleton.mp h

/-- Every call of a goroutine that has taken a step has an origin. -/
theorem Step.origin (h : Step s i th r base calls w) (hk : k ∈ calls) :
    Origin s th r base calls k := by
  have hbelow : ∀ {k₀ ks}, th.calls = k₀ :: ks → k ∈ ks → Origin s th r base calls k :=
    fun hcalls hk => .kept (hcalls ▸ List.mem_cons_of_mem _ hk)
  cases h with
  | late hcalls | swept hcalls =>
    rcases List.mem_append.mp hk with hk | hk
    · obtain ⟨pc, rfl, hpc⟩ := of_mem_afterCancel hk
      exact .past (hcalls ▸ List.mem_cons_self) hpc
    · exact hbelow hcalls hk
  | win hcalls _ _ herr =>
    rcases List.mem_cons.mp hk with rfl | hk
    · exact .won (hcalls ▸ List.mem_cons_self) herr (by simp [Contexts.win])
    · exact hbelow hcalls hk
  | visit hcalls hpc hx =>
    rcases List.mem_cons.mp hk with rfl | hk
    · exact .child (hcalls ▸ List.mem_cons_self) hpc hx
        (List.mem_cons_of_mem _ List.mem_cons_self)
    · rcases List.mem_cons.mp hk with rfl | hk
      · exact .sweeps (hcalls ▸ List.mem_cons_self) hpc
      · exact hbelow hcalls hk
  | rootless hcalls | detach hcalls =>
    rcases List.mem_append.mp hk with hk | hk
    · rw [of_mem_afterDetach hk]
      exact .past (hcalls ▸ List.mem_cons_self) (.inl rfl)
    · exact hbelow hcalls hk
  | stop hcalls => exact hbelow hcalls hk
  | adopt hcalls hbase hparent _ herr =>
    cases List.mem_singleton.mp hk
    exact .adopted hcalls hbase rfl hparent herr
  | expired hcalls hbase hd hnow =>
    cases List.mem_singleton.mp hk
    exact .expired hcalls hbase hd hnow
  | alarm hcalls hbase herr =>
    cases List.mem_singleton.mp hk
    exact .alarm hcalls hbase herr
  | _ => cases hk

end Origin

/-! ## Errors and channels -/

section Step

variable {s r t : Contexts} {i n : ℕ} {th : Thread} {base : Base} {calls : List Call}
  {w : Option Canceler} {e : CtxErr} {k : Call} {ks : List Call}

/-- An error stays. -/
theorem Step.err_mono (h : Step s i th r base calls w) (he : (s.cell n).err = some e) :
    (r.cell n).err = some e := by
  cases h with
  | @win k _ _ _ _ herr =>
    have hne : n ≠ k.c.id := by
      rintro rfl
      rw [he] at herr
      cases herr
    simp [Contexts.win, hne, he]
  | swept | detach | stop | adopt | register | release | arm =>
    exact (modify_field _ _ _ _ CancelCell.err rfl).trans he
  | _ => exact he

/-- An error stays set if a goroutine takes a step. -/
theorem Step.isSome_err (h : Step s i th r base calls w) (he : (s.cell n).err.isSome) :
    (r.cell n).err.isSome := by
  obtain ⟨e, he⟩ := Option.isSome_iff_exists.mp he
  rw [h.err_mono he]
  rfl

/-- A goroutine that sweeps the children of a context did so before, or it has just set
the error. -/
theorem Step.held_of_mem (h : Step s i th r base calls w) {k' : Call} (hk' : k' ∈ calls) :
    k'.held = [] ∨ (∃ k ∈ th.calls, k.c = k'.c ∧ k.held ≠ []) ∨
      ((s.cell k'.c.id).err = none ∧ (r.cell k'.c.id).err.isSome) := by
  cases h.origin hk' with
  | kept hk =>
    by_cases hheld : k'.held = []
    · exact .inl hheld
    · exact .inr (.inl ⟨k', hk, rfl, hheld⟩)
  | past hk hpc =>
    rcases hpc with rfl | ⟨rfl, -⟩
    · exact .inl rfl
    · exact .inl rfl
  | won hk herr herr' => exact .inr (.inr ⟨herr, herr'⟩)
  | sweeps hk hpc => exact .inr (.inl ⟨_, hk, rfl, by simp [Call.held_of_sweep hpc]⟩)
  | child | adopted | expired | alarm => exact .inl rfl

/-- A context has an error exactly if its channel is closed. -/
structure Marked (s : Contexts) : Prop where
  done : ∀ n, (s.cell n).done = (s.cell n).err.isSome
  panicked : s.panicked = false
  sweep : ∀ th ∈ s.threads, ∀ k ∈ th.calls, k.held ≠ [] → (s.cell k.c.id).err.isSome

/-- At first no context has an error. -/
theorem marked_start : Marked start where
  done _ := rfl
  panicked := rfl
  sweep _ h := by cases h

/-- The channel of a context is closed together with setting its error. -/
theorem Step.done_eq (h : Step s i th r base calls w)
    (hn : (s.cell n).done = (s.cell n).err.isSome) :
    (r.cell n).done = (r.cell n).err.isSome := by
  cases h with
  | @win k =>
    rcases eq_or_ne n k.c.id with rfl | hne
    · simp [Contexts.win]
    · simp [Contexts.win, hne, hn]
  | swept | detach | stop | adopt | register | release | arm =>
    rw [modify_field _ _ _ _ CancelCell.done rfl, modify_field _ _ _ _ CancelCell.err rfl, hn]
  | _ => exact hn

/-- No channel is closed a second time. -/
theorem Step.panicked (h : Step s i th r base calls w) (hs : Marked s) :
    (r.become i th base calls w).panicked = false := by
  have hbecome : (r.become i th base calls w).panicked = r.panicked := by cases w <;> rfl
  rw [hbecome]
  cases h with
  | win _ _ _ herr => simp [Contexts.win, hs.panicked, hs.done, herr]
  | _ => exact hs.panicked

/-- A goroutine sets the error and closes the channel in one section of the mutex. -/
theorem Marked.step (hs : Marked s) (hi : s.threads[i]? = some th)
    (h : Step s i th r base calls w) : Marked (r.become i th base calls w) := by
  refine ⟨fun n => ?_, h.panicked hs, fun th' hth' k hk hheld => ?_⟩
  · rw [become_cell]
    exact h.done_eq (hs.done n)
  · rw [become_cell]
    rcases mem_become hth' with rfl | hth' | ⟨y, -, rfl⟩
    · rcases h.held_of_mem hk with hnil | ⟨k₀, hk₀, hc, hne⟩ | ⟨-, herr⟩
      · exact absurd hnil hheld
      · exact h.isSome_err (hc ▸ hs.sweep th (List.mem_of_getElem? hi) k₀ hk₀ hne)
      · exact herr
    · exact h.isSome_err (hs.sweep th' (h.threads ▸ hth') k hk hheld)
    · cases hk

end Step

/-! ## The moves of callers -/

/-- A goroutine that a caller or a timer has just started. -/
inductive Fresh (s : Contexts) : Thread → Prop
  | make {x : Canceler} (hx : x.id = s.made.length) : Fresh s ⟨.make x, .propagate x, []⟩
  | cancel {x : Canceler} (hx : x.toCtx ∈ s.known) :
    Fresh s ⟨.cancel x, .done, [⟨x, true, .canceled, .enter⟩]⟩
  | timer {x : Canceler} {d : ℕ} (hx : x ∈ s.made) (htimer : (s.cell x.id).timer)
      (hd : x.deadline = some d) (hnow : d ≤ s.now) :
    Fresh s ⟨.timer x, .done, [⟨x, true, .deadlineExceeded, .enter⟩]⟩

/-- What a move of a caller does: it adds a context or a goroutine, or a timer is over, or
time passes. -/
structure Grows (s t : Contexts) : Prop where
  made : ∀ x, MadeIn s.made x → MadeIn t.made x
  fresh : ∀ x, MadeIn t.made x → MadeIn s.made x ∨
    t.cell x.id = newCancelCtx ∧ ⟨.make x, .propagate x, []⟩ ∈ t.threads
  cell : ∀ n, n = s.made.length ∧ t.cell n = newCancelCtx ∨
    ∃ b, t.cell n = { s.cell n with timer := b }
  old : ∀ th ∈ s.threads, th ∈ t.threads
  thread : ∀ th ∈ t.threads, th ∈ s.threads ∨ Fresh s th
  custom : ∀ i e, s.custom i = some e → t.custom i = some e
  now : s.now ≤ t.now
  panicked : t.panicked = s.panicked
  fired : ∀ x, MadeIn s.made x → (s.cell x.id).timer → (t.cell x.id).timer ∨
    ∃ th ∈ t.threads, ∃ k ∈ th.calls, k.c ∈ s.made ∧ k.c.id = x.id ∧ k.pc = .enter
  armed : ∀ n, (t.cell n).timer → (s.cell n).timer

section Grows

variable {s t : Contexts} {x y : Canceler} {n : ℕ}

/-- The timer of a context is over, or nothing changes. -/
theorem modify_timer (b : Bool) (m : ℕ) :
    ∃ b', (s.modify n fun c => { c with timer := b }).cell m = { s.cell m with timer := b' } := by
  rcases eq_or_ne m n with rfl | hne
  · exact ⟨b, modify_cell_self ..⟩
  · exact ⟨(s.cell m).timer, modify_cell_of_ne _ _ hne⟩

/-- A move that changes no context. -/
theorem Grows.of_eq (hmade : t.made = s.made) (hcell : t.cell = s.cell)
    (hold : ∀ th ∈ s.threads, th ∈ t.threads)
    (hthread : ∀ th ∈ t.threads, th ∈ s.threads ∨ Fresh s th)
    (hcustom : ∀ i e, s.custom i = some e → t.custom i = some e) (hnow : s.now ≤ t.now)
    (hpanicked : t.panicked = s.panicked) : Grows s t where
  made x hx := by rwa [hmade]
  fresh x hx := .inl (by rwa [← hmade])
  cell n := .inr ⟨(s.cell n).timer, by rw [hcell]⟩
  old := hold
  thread := hthread
  custom := hcustom
  now := hnow
  panicked := hpanicked
  fired x _ htimer := .inl (by rwa [hcell])
  armed n htimer := by rwa [hcell] at htimer

/-- A move is one of a caller, or a step of a goroutine. -/
theorem Move.grows_or_step (h : Move s t) : Grows s t ∨ ∃ i th r base calls w,
    s.threads[i]? = some th ∧ Step s i th r base calls w ∧ r.become i th base calls w = t := by
  have hspawn : ∀ {th}, Fresh s th → ∀ th' ∈ s.threads ++ [th], th' ∈ s.threads ∨ Fresh s th' := by
    intro th hth th' hth'
    rcases List.mem_append.mp hth' with hth' | hth'
    · exact .inl hth'
    · cases List.mem_singleton.mp hth'
      exact .inr hth
  cases h with
  | @make d parent hparent =>
    have hcell : ∀ n, n ≠ s.made.length → (s.make d parent).cell n = s.cell n :=
      fun n hne => Function.update_of_ne hne ..
    have hnew : (s.make d parent).cell s.made.length = newCancelCtx := Function.update_self ..
    refine .inl ⟨fun x hx => hx.append _, fun x hx => ?_, fun n => ?_,
      fun th hth => List.mem_append_left _ hth, hspawn (.make rfl), fun i e he => he, le_rfl, rfl,
      fun x hx htimer => .inl ?_, fun n htimer => ?_⟩
    · rcases getElem?_snoc_cases hx with hx | ⟨-, rfl⟩
      · exact .inl hx
      · exact .inr ⟨hnew, List.mem_append_right _ (List.mem_singleton_self _)⟩
    · rcases eq_or_ne n s.made.length with rfl | hne
      · exact .inl ⟨rfl, hnew⟩
      · exact .inr ⟨(s.cell n).timer, hcell n hne⟩
    · rwa [hcell _ (Nat.ne_of_lt (MadeIn.id_lt hx))]
    · rcases eq_or_ne n s.made.length with rfl | hne
      · rw [hnew] at htimer
        cases htimer
      · rwa [hcell n hne] at htimer
  | withValue =>
    exact .inl (.of_eq rfl rfl (fun th hth => hth) (fun th hth => .inl hth) (fun i e he => he)
      le_rfl rfl)
  | @finish i e hi =>
    refine .inl (.of_eq rfl rfl (fun th hth => hth) (fun th hth => .inl hth) (fun j e' he => ?_)
      le_rfl rfl)
    have hne : j ≠ i := by
      rintro rfl
      cases hi.symm.trans he
    exact (Function.update_of_ne hne ..).trans he
  | tick =>
    exact .inl (.of_eq rfl rfl (fun th hth => hth) (fun th hth => .inl hth) (fun i e he => he)
      (Nat.le_succ _) rfl)
  | cancel hx =>
    exact .inl (.of_eq rfl rfl (fun th hth => List.mem_append_left _ hth) (hspawn (.cancel hx))
      (fun i e he => he) le_rfl rfl)
  | @fire x d hx htimer hd hnow =>
    refine .inl ⟨fun x hx => hx, fun x hx => .inl hx, fun n => .inr (modify_timer false n),
      fun th hth => List.mem_append_left _ hth, hspawn (.timer hx htimer hd hnow), fun i e he => he,
      le_rfl, rfl, fun y _ htimer' => ?_, fun n htimer' => ?_⟩
    · rcases eq_or_ne y.id x.id with hid | hne
      · exact .inr ⟨_, List.mem_append_right _ (List.mem_singleton_self _), _,
          List.mem_singleton_self _, hx, hid.symm, rfl⟩
      · left
        rwa [spawn_cell, modify_cell_of_ne _ _ hne]
    · rw [spawn_cell] at htimer'
      rcases eq_or_ne n x.id with rfl | hne
      · exact htimer
      · rwa [modify_cell_of_ne _ _ hne] at htimer'
  | step hi hstep => exact .inr ⟨_, _, _, _, _, _, hi, hstep, rfl⟩

/-- The struct of a context that was made. -/
theorem Grows.field (h : Grows s t) (hx : MadeIn s.made x) {α : Type} (field : CancelCell → α)
    (hfield : ∀ c b, field { c with timer := b } = field c) :
    field (t.cell x.id) = field (s.cell x.id) := by
  rcases h.cell x.id with ⟨hlen, -⟩ | ⟨b, hcell⟩
  · exact absurd hx.id_lt (by rw [hlen]; exact Nat.lt_irrefl _)
  · rw [hcell, hfield]

/-- The calls of a new goroutine have locked nothing. -/
theorem Fresh.held {th : Thread} (h : Fresh s th) : ∀ k ∈ th.calls, k.held = [] := by
  cases h with
  | make => exact fun k hk => by cases hk
  | cancel | timer => exact List.forall_mem_singleton.mpr rfl

/-- A caller sets no error and closes no channel. -/
theorem Marked.grows (hs : Marked s) (hsound : Sound s) (h : Grows s t) : Marked t := by
  refine ⟨fun n => ?_, h.panicked.trans hs.panicked, fun th hth k hk hheld => ?_⟩
  · rcases h.cell n with ⟨-, hcell⟩ | ⟨b, hcell⟩
    · rw [hcell]
      rfl
    · rw [hcell]
      exact hs.done n
  · rcases h.thread th hth with hth | hth
    · rw [h.field ((hsound.thread th hth).call k hk) CancelCell.err fun _ _ => rfl]
      exact hs.sweep th hth k hk hheld
    · exact absurd (hth.held k hk) hheld

/-- A context has an error exactly if its channel is closed, after a move. -/
theorem Marked.move (hs : Marked s) (hsound : Sound s) (h : Move s t) : Marked t := by
  rcases h.grows_or_step with h | ⟨i, th, r, base, calls, w, hi, hstep, rfl⟩
  · exact hs.grows hsound h
  · exact hs.step hi hstep

end Grows

/-- What holds of the contexts in every run. -/
structure Orderly (s : Contexts) : Prop where
  sound : Sound s
  locks : Locks s
  making : Making s
  marked : Marked s

/-- At first the contexts are in order. -/
theorem orderly_start : Orderly start := ⟨sound_start, locks_start, making_start, marked_start⟩

/-- The contexts are in order after a move. -/
theorem Orderly.move {s t : Contexts} (hs : Orderly s) (h : Move s t) : Orderly t :=
  ⟨hs.sound.move h, hs.locks.move hs.sound h, hs.making.move h, hs.marked.move hs.sound h⟩

/-! ## Settled contexts -/

/-- The context has an error, and no goroutine is at its children. -/
structure Settled (s : Contexts) (x : Canceler) : Prop where
  made : MadeIn s.made x
  err : (s.cell x.id).err.isSome
  still : ∀ th ∈ s.threads, ∀ k ∈ th.calls, k.c = x → k.held = []

/-- The call has not come to the end of `cancelCtx.cancel`. -/
def Call.Active (k : Call) : Prop := k.pc = .enter ∨ ∃ rest, k.pc = .sweep rest

/-- The context is settled, or the goroutine cancels it. -/
def Attended (s : Contexts) (th : Thread) (x : Canceler) : Prop :=
  Settled s x ∨ ∃ k ∈ th.calls, k.c = x ∧ k.Active

section Settled

variable {s r t : Contexts} {i : ℕ} {th : Thread} {base : Base} {calls : List Call}
  {w : Option Canceler} {x y : Canceler} {k : Call} {ks : List Call}

/-- A settled context stays so if a caller makes a move. -/
theorem Settled.grows (hx : Settled s x) (h : Grows s t) : Settled t x := by
  refine ⟨h.made x hx.made, ?_, fun th hth k hk hc => ?_⟩
  · rw [h.field hx.made CancelCell.err fun _ _ => rfl]
    exact hx.err
  · rcases h.thread th hth with hth | hth
    · exact hx.still th hth k hk hc
    · exact hth.held k hk

/-- A settled context stays so if a goroutine takes a step. -/
theorem Settled.step (hx : Settled s x) (hi : s.threads[i]? = some th)
    (h : Step s i th r base calls w) : Settled (r.become i th base calls w) x := by
  refine ⟨by rw [become_made, h.made]; exact hx.made, ?_, fun th' hth' k hk hc => ?_⟩
  · rw [become_cell]
    exact h.isSome_err hx.err
  · rcases mem_become hth' with rfl | hth' | ⟨y, -, rfl⟩
    · rcases h.held_of_mem hk with hnil | ⟨k₀, hk₀, hc₀, hne⟩ | ⟨hnone, -⟩
      · exact hnil
      · exact absurd (hx.still th (List.mem_of_getElem? hi) k₀ hk₀ (hc₀.trans hc)) hne
      · rw [hc, Option.eq_none_iff_forall_ne_some] at hnone
        obtain ⟨e, he⟩ := Option.isSome_iff_exists.mp hx.err
        exact absurd he (hnone e)
    · exact hx.still th' (h.threads ▸ hth') k hk hc
    · cases hk

/-- A call that has locked a mutex has locked that of its context. -/
theorem Call.held_eq (h : k.held ≠ []) : k.held = [k.c.id] := by
  unfold Call.held at h ⊢
  split
  · rfl
  · rename_i hpc
    exact absurd (by split <;> simp_all) h

/-- Whoever locks the mutex of a context with an error finds it settled. -/
theorem Locks.settled (hs : Locks s) (hx : MadeIn s.made x) (hmu : (s.cell x.id).mu = none)
    (herr : (s.cell x.id).err.isSome) : Settled s x := by
  refine ⟨hx, herr, fun th hth k hk hc => ?_⟩
  by_contra hne
  obtain ⟨j, hj⟩ := List.mem_iff_getElem?.mp hth
  have hheld : x.id ∈ th.held := by
    refine List.mem_append_left _ (List.mem_flatMap.mpr ⟨k, hk, ?_⟩)
    rw [Call.held_eq hne, hc]
    exact List.mem_singleton_self _
  rw [(hs x.id j).mpr ⟨th, hj, hheld⟩] at hmu
  cases hmu

/-- A call of `cancelCtx.cancel` that comes late leaves the context settled. -/
theorem Orderly.settled_late (hs : Orderly s) (hi : s.threads[i]? = some th)
    (hcalls : th.calls = k :: ks) (hmu : (s.cell k.c.id).mu = none)
    (herr : (s.cell k.c.id).err.isSome) : Settled s k.c := by
  have hth := hs.sound.thread th (List.mem_of_getElem? hi)
  exact hs.locks.settled (hth.call k (hcalls ▸ List.mem_cons_self)) hmu herr

/-- So does one that has cancelled the children. -/
theorem Orderly.settled_swept (hs : Orderly s) (hi : s.threads[i]? = some th)
    (hcalls : th.calls = k :: ks) (hpc : k.pc = .sweep []) :
    Settled ((s.modify k.c.id fun c => { c with children := [], mu := none }).goto i th th.base
      (k.afterCancel false ++ ks)) k.c := by
  have hmem := List.mem_of_getElem? hi
  have hk : k ∈ th.calls := hcalls ▸ List.mem_cons_self
  have hheld : k.held ≠ [] := by simp [Call.held_of_sweep hpc]
  refine (hs.locks.step hs.sound hi (.swept hcalls hpc)).settled ?_ ?_ ?_
  · exact (hs.sound.thread th hmem).call k hk
  · simp [Contexts.become]
  · rw [become_cell, modify_field _ _ _ _ CancelCell.err rfl]
    exact hs.marked.sweep th hmem k hk hheld

/-- A call goes on until the context is settled. -/
theorem Step.settled (h : Step s i th r base calls w) (hi : s.threads[i]? = some th)
    (hs : Orderly s) (hcalls : th.calls = k :: ks) (hk : k.Active) :
    (∃ k' ∈ calls, k'.c = k.c ∧ k'.Active) ∨ Settled (r.become i th base calls w) k.c := by
  cases h with
  | late hcalls' hpc hmu herr =>
    cases hcalls.symm.trans hcalls'
    exact .inr ((hs.settled_late hi hcalls hmu herr).step hi (.late hcalls hpc hmu herr))
  | win hcalls' =>
    cases hcalls.symm.trans hcalls'
    exact .inl ⟨_, List.mem_cons_self, rfl, .inr ⟨_, rfl⟩⟩
  | visit hcalls' =>
    cases hcalls.symm.trans hcalls'
    exact .inl ⟨_, List.mem_cons_of_mem _ List.mem_cons_self, rfl, .inr ⟨_, rfl⟩⟩
  | swept hcalls' hpc =>
    cases hcalls.symm.trans hcalls'
    exact .inr (hs.settled_swept hi hcalls hpc)
  | rootless hcalls' hpc | detach hcalls' hpc | stop hcalls' hpc =>
    cases hcalls.symm.trans hcalls'
    rcases hk with hk | ⟨rest, hk⟩ <;> cases hpc.symm.trans hk
  | _ => cases hcalls.symm.trans ‹th.calls = []›

/-- Past `cancelCtx.cancel` the context is settled. -/
theorem Step.inactive (h : Step s i th r base calls w) (hi : s.threads[i]? = some th)
    (hs : Orderly s) {k' : Call} (hk' : k' ∈ calls) (hinactive : ¬ k'.Active) :
    Settled (r.become i th base calls w) k'.c ∨ ∃ k ∈ th.calls, k.c = k'.c ∧ ¬ k.Active := by
  have hold : ∀ {k ks}, th.calls = k :: ks → k' ∈ ks → ∃ k ∈ th.calls, k.c = k'.c ∧ ¬ k.Active :=
    fun hcalls hmem => ⟨k', hcalls ▸ List.mem_cons_of_mem _ hmem, rfl, hinactive⟩
  have hpast : ∀ {k : Call}, k.pc = .detach → ¬ k.Active := by
    rintro k hpc (hk | ⟨rest, hk⟩) <;> cases hpc.symm.trans hk
  cases h with
  | late hcalls hpc hmu herr =>
    rcases List.mem_append.mp hk' with hk' | hk'
    · obtain ⟨pc, rfl, -⟩ := of_mem_afterCancel hk'
      exact .inl ((hs.settled_late hi hcalls hmu herr).step hi (.late hcalls hpc hmu herr))
    · exact .inr (hold hcalls hk')
  | win hcalls =>
    rcases List.mem_cons.mp hk' with rfl | hk'
    · exact absurd (.inr ⟨_, rfl⟩) hinactive
    · exact .inr (hold hcalls hk')
  | visit hcalls =>
    rcases List.mem_cons.mp hk' with rfl | hk'
    · exact absurd (.inl rfl) hinactive
    · rcases List.mem_cons.mp hk' with rfl | hk'
      · exact absurd (.inr ⟨_, rfl⟩) hinactive
      · exact .inr (hold hcalls hk')
  | swept hcalls hpc =>
    rcases List.mem_append.mp hk' with hk' | hk'
    · obtain ⟨pc, rfl, -⟩ := of_mem_afterCancel hk'
      exact .inl (hs.settled_swept hi hcalls hpc)
    · exact .inr (hold hcalls hk')
  | @rootless k _ hcalls hpc | @detach k _ _ hcalls hpc =>
    rcases List.mem_append.mp hk' with hk' | hk'
    · rw [of_mem_afterDetach hk']
      exact .inr ⟨k, hcalls ▸ List.mem_cons_self, rfl, hpast hpc⟩
    · exact .inr (hold hcalls hk')
  | stop hcalls => exact .inr (hold hcalls hk')
  | adopt | expired | alarm =>
    cases List.mem_singleton.mp hk'
    exact absurd (.inl rfl) hinactive
  | _ => cases hk'

/-- The calls below the first one stay as they are. -/
theorem Step.mem_calls (h : Step s i th r base calls w) (hcalls : th.calls = k :: ks) :
    ∀ k' ∈ ks, k' ∈ calls := by
  intro k' hk'
  cases h with
  | late hcalls' | swept hcalls' | rootless hcalls' | detach hcalls' =>
    cases hcalls.symm.trans hcalls'
    exact List.mem_append_right _ hk'
  | win hcalls' =>
    cases hcalls.symm.trans hcalls'
    exact List.mem_cons_of_mem _ hk'
  | visit hcalls' =>
    cases hcalls.symm.trans hcalls'
    exact List.mem_cons_of_mem _ (List.mem_cons_of_mem _ hk')
  | stop hcalls' =>
    cases hcalls.symm.trans hcalls'
    exact hk'
  | _ => cases hcalls.symm.trans ‹th.calls = []›

/-- A call stays as it is unless it is the first one. -/
theorem Step.mem_or_head (h : Step s i th r base calls w) (hk : k ∈ th.calls) :
    k ∈ calls ∨ ∃ ks, th.calls = k :: ks := by
  obtain ⟨k₀, ks, hcalls⟩ := List.exists_cons_of_ne_nil (List.ne_nil_of_mem hk)
  rcases List.mem_cons.mp (hcalls ▸ hk) with rfl | hk
  · exact .inr ⟨ks, hcalls⟩
  · exact .inl (h.mem_calls hcalls k hk)

/-- A goroutine that cancels a context goes on with it until it is settled. -/
theorem Attended.step (hx : Attended s th x) (hi : s.threads[i]? = some th)
    (h : Step s i th r base calls w) (hs : Orderly s) :
    Attended (r.become i th base calls w) ⟨th.task, base, calls⟩ x := by
  rcases hx with hx | ⟨k', hk', rfl, hactive⟩
  · exact .inl (hx.step hi h)
  · rcases h.mem_or_head hk' with hk' | ⟨ks, hcalls⟩
    · exact .inr ⟨k', hk', rfl, hactive⟩
    · exact (h.settled hi hs hcalls hactive).symm

end Settled

end GoBlocks.Contexts
