import GoBlocks.Context.Listed

/-!
# Cancelled contexts are released

The children map of a context keeps the contexts below alive. A call of `cancel` that
removes its context from the parent does so after it has set the error. A call that does
not is made by a goroutine that sweeps the parent, or for a context that was never among
the children. So when the goroutines have come to rest, the map of a context holds
exactly those of its children that are not done.
-/

namespace GoBlocks.Contexts

/-! ## Calls that leave the context among the children -/

/-- A call that does not remove its context from the parent is made by the sweep of the
parent, or in `propagateCancel`, or there is no parent to be removed from. -/
def Rooted (th : Thread) : Prop :=
  ∀ k ∈ th.calls, k.removeFromParent = false →
    (∃ k' ∈ th.calls, parentCancelCtx k.c.parent = some k'.c ∧ k'.held ≠ []) ∨
      (∃ p, th.base = .adopted p k.c) ∨ parentCancelCtx k.c.parent = none

section Rooted

variable {s r t : Contexts} {i n : ℕ} {th : Thread} {base : Base} {calls : List Call}
  {w : Option Canceler} {x y d : Canceler} {k : Call} {ks : List Call}

/-- A call holds the mutex of its context while it sweeps. -/
theorem Call.sweep_of_held (h : k.held ≠ []) : ∃ rest, k.pc = .sweep rest := by
  unfold Call.held at h
  split at h
  next rest hpc => exact ⟨rest, hpc⟩
  next => exact absurd rfl h

/-- A call that sweeps goes on, or the children are gone. -/
theorem Step.held_cases (h : Step s i th r base calls w) (hk : k ∈ th.calls) (hheld : k.held ≠ []) :
    (∃ k' ∈ calls, k'.c = k.c ∧ k'.removeFromParent = k.removeFromParent ∧ k'.held ≠ []) ∨
      ∃ ks, th.calls = k :: ks ∧ calls = k.afterCancel false ++ ks ∧
        (r.cell k.c.id).children = [] := by
  obtain ⟨rest, hpc⟩ := Call.sweep_of_held hheld
  rcases h.sweep_cases hk hpc with hk' | ⟨x, hk', -⟩ | ⟨ks, -, hswept⟩
  · exact .inl ⟨k, hk', rfl, rfl, hheld⟩
  · exact .inl ⟨_, hk', rfl, rfl, by simp [Call.held]⟩
  · exact .inr ⟨ks, hswept⟩

/-- In a call, the rest of the goroutine waits. -/
theorem Step.base_eq (h : Step s i th r base calls w) (hk : k ∈ th.calls) : base = th.base := by
  cases h with
  | late | win | visit | swept | rootless | detach | stop => rfl
  | _ =>
    rw [‹th.calls = []›] at hk
    cases hk

/-- The first call is for a context that is above none of those of the other calls. -/
theorem ThreadSound.not_head (hth : ThreadSound s.made th) (hs : Sound s)
    {k' : Call} (hcalls : th.calls = k' :: ks) (hk : k ∈ th.calls) :
    parentCancelCtx k.c.parent ≠ some k'.c := by
  intro hparent
  have hlt := (hs.above (hth.call k hk) hparent).1
  rw [hcalls] at hk
  rcases List.mem_cons.mp hk with rfl | hk
  · exact Nat.lt_irrefl _ hlt
  · exact Nat.lt_asymm hlt (hth.id_lt hcalls k hk)

/-- A goroutine makes no other calls that leave a context among the children. -/
theorem Rooted.step (hth : Rooted th) (hsound : ThreadSound s.made th) (hs : Sound s)
    (hshaped : Shaped th) (h : Step s i th r base calls w) : Rooted ⟨th.task, base, calls⟩ := by
  intro k hk hremove
  -- a call that was there before
  have hold : ∀ k₀ ∈ th.calls, k₀.c = k.c → k₀.removeFromParent = false →
      (∃ k' ∈ calls, parentCancelCtx k.c.parent = some k'.c ∧ k'.held ≠ []) ∨
        (∃ p, base = .adopted p k.c) ∨ parentCancelCtx k.c.parent = none := by
    intro k₀ hk₀ hc hremove₀
    rw [← hc]
    rcases hth k₀ hk₀ hremove₀ with ⟨k', hk', hparent, hheld⟩ | ⟨p, hbase⟩ | hnone
    · rcases h.held_cases hk' hheld with ⟨k₁, hk₁, hc₁, -, hheld₁⟩ | ⟨ks, hcalls, -⟩
      · exact .inl ⟨k₁, hk₁, by rw [hparent, hc₁], hheld₁⟩
      · exact absurd hparent (hsound.not_head hs hcalls hk₀)
    · exact .inr (.inl ⟨p, (h.base_eq hk₀).trans hbase⟩)
    · exact .inr (.inr hnone)
  cases h.origin hk with
  | kept hk₀ | past hk₀ | won hk₀ | sweeps hk₀ => exact hold _ hk₀ rfl hremove
  | child hk₀ hpc hx hsweeps =>
    exact .inl ⟨_, hsweeps, (hsound.sweep _ hk₀ _ hpc _ hx).2, by simp [Call.held]⟩
  | adopted _ _ hbase => exact .inr (.inl ⟨_, hbase⟩)
  | expired => cases hremove
  | alarm _ hbase => exact .inr (.inr (hshaped.watch _ hbase))

/-- The call that a caller or a timer starts removes its context from the parent. -/
theorem Fresh.rooted (h : Fresh s th) : Rooted th := by
  cases h with
  | make => exact fun k hk => by cases hk
  | cancel | timer => exact List.forall_mem_singleton.mpr fun hremove => by cases hremove

/-- No goroutine makes another call that leaves a context among the children, after a move. -/
theorem rooted_move (hs : ∀ th ∈ s.threads, Rooted th) (hsound : Sound s)
    (hshaped : ∀ th ∈ s.threads, Shaped th) (h : Move s t) : ∀ th ∈ t.threads, Rooted th := by
  intro th' hth'
  rcases h.grows_or_step with h | ⟨i, th, r, base, calls, w, hi, hstep, rfl⟩
  · rcases h.thread th' hth' with hth' | hth'
    · exact hs th' hth'
    · exact hth'.rooted
  · have hmem := List.mem_of_getElem? hi
    rcases mem_become hth' with rfl | hth' | ⟨y, rfl, rfl⟩
    · exact (hs th hmem).step (hsound.thread th hmem) hsound (hshaped th hmem) hstep
    · exact hs th' (hstep.threads ▸ hth')
    · exact fun k hk => by cases hk

end Rooted

/-! ## Children that are done -/

/-- The call has cancelled its context and will remove it from the parent. -/
def Call.Removes (k : Call) : Prop := k.removeFromParent ∧ (k.held ≠ [] ∨ k.pc = .detach)

/-- A child of the context with the number `n` is not done, or a goroutine is about to
remove it, or a goroutine sweeps the context. -/
def Leaves (s : Contexts) (n : ℕ) (d : Canceler) : Prop :=
  (s.cell d.id).err = none ∨ (∃ th ∈ s.threads, ∃ k ∈ th.calls, k.c = d ∧ k.Removes) ∨
    ∃ th ∈ s.threads, ∃ k ∈ th.calls, k.c.id = n ∧ k.held ≠ []

/-- What holds of the children maps during a run. -/
structure Released (s : Contexts) : Prop where
  rooted : ∀ th ∈ s.threads, Rooted th
  listed : Listed s
  nodup : ∀ n, (s.cell n).children.Nodup
  leaves : ∀ n, ∀ d ∈ (s.cell n).children, Leaves s n d

/-- At first no context has children. -/
theorem released_start : Released start where
  rooted _ h := by cases h
  listed := listed_start
  nodup _ := List.nodup_nil
  leaves _ _ h := by cases h

section Released

variable {s r t : Contexts} {i n : ℕ} {th : Thread} {base : Base} {calls : List Call}
  {w : Option Canceler} {x y d : Canceler} {k : Call} {ks : List Call}

/-- A call in `removeChild` waits for the mutex of the parent, or it removes its context. -/
theorem Step.detach_cases (h : Step s i th r base calls w) (hk : k ∈ th.calls)
    (hpc : k.pc = .detach) (hp : parentCancelCtx k.c.parent = some x) :
    k ∈ calls ∨ (r.cell x.id).children = (s.cell x.id).children.erase k.c := by
  rcases h.mem_or_head hk with hk | ⟨ks, hcalls⟩
  · exact .inl hk
  · cases h with
    | detach hcalls' _ hparent =>
      cases hcalls.symm.trans hcalls'
      cases hp.symm.trans hparent
      exact .inr (by rw [modify_cell_self])
    | rootless hcalls' _ hparent =>
      cases hcalls.symm.trans hcalls'
      cases hp.symm.trans hparent
    | late hcalls' hpc' | win hcalls' hpc' | visit hcalls' hpc' | swept hcalls' hpc'
    | stop hcalls' hpc' =>
      cases hcalls.symm.trans hcalls'
      cases hpc.symm.trans hpc'
    | _ => cases hcalls.symm.trans ‹th.calls = []›

/-- A call that has to remove its context from the parent goes on to do so. -/
theorem Call.detach_mem_afterCancel (h : k.removeFromParent) :
    { k with pc := .detach } ∈ k.afterCancel false := by
  unfold Call.afterCancel
  split <;> simp [h]

/-- A call that will remove its context goes on to do so, or has done it. -/
theorem Call.Removes.step (hk : k ∈ th.calls) (hremoves : k.Removes)
    (hp : parentCancelCtx k.c.parent = some x) (h : Step s i th r base calls w) :
    (∃ k' ∈ calls, k'.c = k.c ∧ k'.Removes) ∨
      (r.cell x.id).children = (s.cell x.id).children.erase k.c := by
  obtain ⟨hremove, hheld | hpc⟩ := hremoves
  · rcases h.held_cases hk hheld with ⟨k', hk', hc, hremove', hheld'⟩ | ⟨ks, -, hcalls, -⟩
    · exact .inl ⟨k', hk', hc, hremove'.trans hremove, .inl hheld'⟩
    · refine .inl ⟨{ k with pc := .detach }, ?_, rfl, hremove, .inr rfl⟩
      rw [hcalls]
      exact List.mem_append_left _ (Call.detach_mem_afterCancel hremove)
  · rcases h.detach_cases hk hpc hp with hk' | herase
    · exact .inl ⟨k, hk', rfl, hremove, .inr hpc⟩
    · exact .inr herase

/-- The goroutine that sets the error of a child removes it, or it sweeps the parent. -/
theorem Leaves.of_none (h : Step s i th r base calls w) (hi : s.threads[i]? = some th)
    (ht : Sound (r.become i th base calls w)) (hrooted : Rooted ⟨th.task, base, calls⟩)
    (hreg : Registered (r.become i th base calls w) d)
    (hd : d ∈ ((r.become i th base calls w).cell n).children) (herr : (s.cell d.id).err = none) :
    Leaves (r.become i th base calls w) n d := by
  have hself := h.mem_self hi
  obtain ⟨hmade, p, hp, rfl⟩ := ht.child n d hd
  rcases h.err_none_cases herr with herr | ⟨k, hk, hid, hheld⟩
  · exact .inl (by rwa [become_cell])
  · obtain rfl := ((ht.thread _ hself).call k hk).eq hmade hid
    cases hremove : k.removeFromParent with
    | true => exact .inr (.inl ⟨_, hself, k, hk, rfl, hremove, .inl hheld⟩)
    | false =>
      rcases hrooted k hk hremove with ⟨k', hk', hparent, hheld'⟩ | ⟨p', hbase⟩ | hnone
      · cases hp.symm.trans hparent
        exact .inr (.inr ⟨_, hself, k', hk', rfl, hheld'⟩)
      · exact absurd (.inr ⟨p', hbase⟩) (hreg.2 _ hself)
      · cases hp.symm.trans hnone

/-- A child that is done is still about to leave if a goroutine takes a step. -/
theorem Leaves.step (h : Step s i th r base calls w) (hi : s.threads[i]? = some th)
    (ht : Sound (r.become i th base calls w)) (hrooted : Rooted ⟨th.task, base, calls⟩)
    (hreg : Registered (r.become i th base calls w) d) (hnodup : (s.cell n).children.Nodup)
    (hd : d ∈ ((r.become i th base calls w).cell n).children) (hleaves : Leaves s n d) :
    Leaves (r.become i th base calls w) n d := by
  have hself := h.mem_self hi
  rcases hleaves with herr | ⟨th', hth', k, hk, rfl, hremoves⟩ | ⟨th', hth', k, hk, rfl, hheld⟩
  · exact .of_none h hi ht hrooted hreg hd herr
  · by_cases heq : th' = th
    · subst heq
      obtain ⟨-, p, hp, rfl⟩ := ht.child n k.c hd
      rcases hremoves.step hk hp h with ⟨k', hk', hc, hremoves'⟩ | herase
      · exact .inr (.inl ⟨_, hself, k', hk', hc, hremoves'⟩)
      · rw [become_cell, herase] at hd
        exact absurd hd hnodup.not_mem_erase
    · exact .inr (.inl ⟨th', h.mem_of_ne hi hth' heq, k, hk, rfl, hremoves⟩)
  · by_cases heq : th' = th
    · subst heq
      rcases h.held_cases hk hheld with ⟨k', hk', hc, -, hheld'⟩ | ⟨ks, -, -, hnil⟩
      · exact .inr (.inr ⟨_, hself, k', hk', by rw [hc], hheld'⟩)
      · rw [become_cell, hnil] at hd
        cases hd
    · exact .inr (.inr ⟨th', h.mem_of_ne hi hth' heq, k, hk, rfl, hheld⟩)

/-- A child that is done is still about to leave if a caller makes a move. -/
theorem Leaves.grows (h : Grows s t) (hs : Sound s) (hd : d ∈ (s.cell n).children)
    (hleaves : Leaves s n d) : Leaves t n d := by
  rcases hleaves with herr | ⟨th, hth, hk⟩ | ⟨th, hth, hk⟩
  · exact .inl ((h.field (hs.child n d hd).1 CancelCell.err fun _ _ => rfl).trans herr)
  · exact .inr (.inl ⟨th, h.old th hth, hk⟩)
  · exact .inr (.inr ⟨th, h.old th hth, hk⟩)

/-- Children that are done are about to leave after a move. -/
theorem Released.move (hs : Released s) (horderly : Orderly s)
    (hshaped : ∀ th ∈ s.threads, Shaped th) (hmove : Move s t) : Released t := by
  have ht := horderly.sound.move hmove
  have hrooted := rooted_move hs.rooted horderly.sound hshaped hmove
  rcases hmove.grows_or_step with h | ⟨i, th, r, base, calls, w, hi, h, rfl⟩
  · refine ⟨hrooted, hs.listed.grows horderly hmove h, fun n => ?_, fun n d hd => ?_⟩
    · rcases h.cell n with ⟨-, hcell⟩ | ⟨b, hcell⟩ <;> rw [hcell]
      · exact List.nodup_nil
      · exact hs.nodup n
    · rcases h.cell n with ⟨-, hcell⟩ | ⟨b, hcell⟩ <;> rw [hcell] at hd
      · cases hd
      · exact (hs.leaves n d hd).grows h horderly.sound hd
  · have hlisted := hs.listed.step horderly hi h
    have hself := hrooted _ (h.mem_self hi)
    refine ⟨hrooted, hlisted, fun n => ?_, fun n d hd => ?_⟩
    · rw [become_cell]
      exact h.nodup (hs.nodup n)
    · have hreg := hlisted.registered n d hd
      rcases h.children_cases (by rwa [become_cell] at hd) with hold | ⟨hbase, -⟩
      · exact (hs.leaves n d hold).step h hi ht hself hreg (hs.nodup n) hd
      · -- the context is added now, and nobody has cancelled it
        have hhidden := hs.listed.hidden th (List.mem_of_getElem? hi) d hbase
        exact .of_none h hi ht hself hreg hd hhidden.err

end Released

/-! ## Runs -/

section Run

variable {s : Contexts} {es : List CtxEvent}

/-- Children that are done are about to leave in every run. -/
theorem released_of_run (h : lts.Run start es s) :
    (Orderly s ∧ ∀ th ∈ s.threads, Shaped th) ∧ Released s :=
  h.invariant (fun s => (Orderly s ∧ ∀ th ∈ s.threads, Shaped th) ∧ Released s)
    (fun _ _ _ ⟨⟨horderly, hshaped⟩, hs⟩ hstep => by
      have hmove := move_of_next hstep
      exact ⟨⟨horderly.move hmove, shaped_move hshaped hmove⟩, hs.move horderly hshaped hmove⟩)
    ⟨⟨orderly_start, fun _ h => by cases h⟩, released_start⟩

/-- When the goroutines have come to rest, the children map of a context holds exactly the
contexts derived from it that are not done. -/
theorem children_iff_at_rest (es : List CtxEvent) (s : Contexts) (hrun : lts.Run start es s)
    (hrest : AtRest s) :
    (∀ x, ∀ y ∈ s.made, parentCancelCtx y.parent = some x →
      (y ∈ (s.cell x.id).children ↔ (s.cell y.id).err = none)) ∧
    ∀ n, (s.cell n).children.Nodup ∧ ∀ y ∈ (s.cell n).children,
      y ∈ s.made ∧ ∃ x, parentCancelCtx y.parent = some x ∧ x.id = n := by
  obtain ⟨⟨horderly, hshaped⟩, hreleased⟩ := released_of_run hrun
  obtain ⟨-, hcovered⟩ := orderly_of_run hrun
  have hresting := resting_of_stuck horderly hshaped fun i a t ht => hrest (.run i a) t rfl ht
  have hcall : ∀ th ∈ s.threads, ∀ k, k ∉ th.calls := fun th hth k hk => by
    rw [(hresting th hth).1] at hk
    cases hk
  refine ⟨fun x y hy hparent => ⟨fun hchild => ?_, fun herr => ?_⟩, fun n =>
    ⟨hreleased.nodup n, fun y hy => ?_⟩⟩
  · rcases hreleased.leaves x.id y hchild with herr | ⟨th, hth, k, hk, -⟩ | ⟨th, hth, k, hk, -⟩
    · exact herr
    · exact absurd hk (hcall th hth k)
    · exact absurd hk (hcall th hth k)
  · have hreg : Registered s y := by
      refine ⟨horderly.sound.madeIn hy, fun th hth hprop => ?_⟩
      rcases (hresting th hth).2 with hbase | ⟨z, hbase, -⟩ <;> rw [hbase] at hprop <;>
        rcases hprop with hprop | ⟨p, hprop⟩ <;> cases hprop
    rcases hcovered.child x y hparent hreg with hsettled | ⟨-, hchild⟩ | ⟨th, hth, k, hk, -⟩
    · have hsome := hsettled.err
      rw [herr] at hsome
      cases hsome
    · exact hchild
    · exact absurd hk (hcall th hth k)
  · obtain ⟨hmade, hparent⟩ := horderly.sound.child n y hy
    exact ⟨List.mem_of_getElem? hmade, hparent⟩

/-- One of two children is cancelled by its caller. -/
def oneReleased : List CtxEvent :=
  [.withCancel .empty, .run 0 .next, .run 0 .next,
    .withCancel (.cancelCtx 0 .empty), .run 1 .next, .run 1 .next,
    .withCancel (.cancelCtx 0 .empty), .run 2 .next, .run 2 .next,
    .cancel ⟨1, none, .cancelCtx 0 .empty⟩, .run 3 .next, .run 3 .next, .run 3 .next]

/-- The other one stays among the children. -/
theorem children_iff_at_rest_one : ∃ s, lts.Run start oneReleased s ∧ AtRest s ∧
    ⟨1, none, .cancelCtx 0 .empty⟩ ∉ (s.cell 0).children ∧
    ⟨2, none, .cancelCtx 0 .empty⟩ ∈ (s.cell 0).children := by
  have hrun : ∃ s, lts.Run start oneReleased s ∧ AtRest s ∧
      (∀ n ∈ [1, 2], ⟨n, none, .cancelCtx 0 .empty⟩ ∈ s.made) ∧
      (s.cell 1).err = some .canceled ∧ (s.cell 2).err = none := by
    refine ⟨_, LTS.run_ofFun_iff.mpr rfl, fun l t hl hstep => ?_, by decide, rfl, rfl⟩
    cases l with
    | run i a => rcases i with _ | _ | _ | _ | i <;> cases a <;> cases hstep
    | fire x =>
      obtain ⟨⟨hx, htimer, -⟩, -⟩ := Option.ite_none_right_eq_some.mp hstep
      rcases List.mem_cons.mp hx with rfl | hx
      · cases htimer
      · rcases List.mem_cons.mp hx with rfl | hx
        · cases htimer
        · cases List.mem_singleton.mp hx
          cases htimer
    | _ => cases hl
  obtain ⟨s, hrun, hrest, hmade, hdone, hopen⟩ := hrun
  have hchild := (children_iff_at_rest oneReleased s hrun hrest).1 ⟨0, none, .empty⟩
  refine ⟨s, hrun, hrest, fun hmem => ?_, (hchild _ (hmade 2 (by simp)) rfl).mpr hopen⟩
  have herr := (hchild _ (hmade 1 (by simp)) rfl).mp hmem
  cases hdone.symm.trans herr

end Run

end GoBlocks.Contexts
