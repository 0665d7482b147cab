import GoBlocks.Context.Settled

/-!
# A cancellation reaches the contexts below

A registered context is among the children of the context above until a goroutine sweeps
these, and that goroutine cancels it before it unlocks the mutex. So when a context is
settled, the contexts that were derived from it are. After a `CancelFunc` has returned,
whatever a caller has that was derived from its context is done.
-/

namespace GoBlocks.Contexts

/-! ## The children -/

/-- The context `y` below `x` is settled, or it is among the children of `x`, or a
goroutine that sweeps `x` will come to it. -/
def Reached (s : Contexts) (x y : Canceler) : Prop :=
  Settled s y ∨ ((s.cell x.id).err = none ∧ y ∈ (s.cell x.id).children) ∨
    ∃ th ∈ s.threads, ∃ k ∈ th.calls, k.c = x ∧ ∃ rest, k.pc = .sweep rest ∧
      (y ∈ rest ∨ Attended s th y)

/-- Whatever is to be cancelled is settled or attended. -/
structure Covered (s : Contexts) : Prop where
  after : ∀ th ∈ s.threads, ∀ k ∈ th.calls, ¬ k.Active → Settled s k.c
  adopted : ∀ th ∈ s.threads, ∀ p x, th.base = .adopted p x → Attended s th x
  task : ∀ th ∈ s.threads, ∀ x, th.task = .cancel x ∨ th.task = .timer x → Attended s th x
  child : ∀ x y, parentCancelCtx y.parent = some x → Registered s y → Reached s x y

/-- At first there is nothing to cancel. -/
theorem covered_start : Covered start where
  after _ h := by cases h
  adopted _ h := by cases h
  task _ h := by cases h
  child _ _ _ h := by cases h.1

section Covered

variable {s r t : Contexts} {i : ℕ} {th : Thread} {base : Base} {calls : List Call}
  {w : Option Canceler} {x y : Canceler} {k : Call} {ks : List Call}

/-- An attended context stays so if a caller makes a move. -/
theorem Attended.grows (hx : Attended s th x) (h : Grows s t) : Attended t th x :=
  hx.imp_left fun hx => hx.grows h

/-- A context that is registered after a move of a caller was so before. -/
theorem Grows.registered (h : Grows s t) (hy : Registered t y) : Registered s y := by
  rcases h.fresh y hy.1 with hmade | ⟨-, hnew⟩
  · exact ⟨hmade, fun th hth => hy.2 th (h.old th hth)⟩
  · exact absurd (.inl rfl) (hy.2 _ hnew)

/-- A cancellation still reaches the context below if a caller makes a move. -/
theorem Reached.grows (hy : Reached s x y) (h : Grows s t) (hx : MadeIn s.made x) :
    Reached t x y := by
  rcases hy with hy | ⟨herr, hchild⟩ | ⟨th, hth, k, hk, hc, rest, hpc, hy⟩
  · exact .inl (hy.grows h)
  · refine .inr (.inl ?_)
    rw [h.field hx CancelCell.err fun _ _ => rfl, h.field hx CancelCell.children fun _ _ => rfl]
    exact ⟨herr, hchild⟩
  · exact .inr (.inr ⟨th, h.old th hth, k, hk, hc, rest, hpc, hy.imp_right fun hy => hy.grows h⟩)

/-- Whatever is to be cancelled is settled or attended after a move of a caller. -/
theorem Covered.grows (hs : Covered s) (hsound : Sound s) (h : Grows s t) : Covered t := by
  refine ⟨fun th hth k hk hactive => ?_, fun th hth p x hbase => ?_, fun th hth x htask => ?_,
    fun x y hparent hy => ?_⟩
  · rcases h.thread th hth with hth | hth
    · exact (hs.after th hth k hk hactive).grows h
    · cases hth with
      | make => cases hk
      | cancel | timer =>
        cases List.mem_singleton.mp hk
        exact absurd (.inl rfl) hactive
  · rcases h.thread th hth with hth | hth
    · exact (hs.adopted th hth p x hbase).grows h
    · cases hth <;> cases hbase
  · rcases h.thread th hth with hth | hth
    · exact (hs.task th hth x htask).grows h
    · cases hth with
      | make => rcases htask with htask | htask <;> cases htask
      | cancel | timer =>
        rcases htask with htask | htask <;> cases htask
        exact .inr ⟨_, List.mem_singleton_self _, rfl, .inl rfl⟩
  · have hy := h.registered hy
    exact (hs.child x y hparent hy).grows h (hsound.above hy.1 hparent).2

/-- A call that sweeps goes on, or it comes to a child, or there is none left and the
context has no children any more. -/
theorem Step.sweep_cases (h : Step s i th r base calls w) (hk : k ∈ th.calls)
    {rest : List Canceler} (hpc : k.pc = .sweep rest) :
    k ∈ calls ∨ (∃ x, { k with pc := .sweep (rest.erase x) } ∈ calls ∧
      ∃ k' ∈ calls, k'.c = x ∧ k'.Active) ∨
      ∃ ks, rest = [] ∧ th.calls = k :: ks ∧ calls = k.afterCancel false ++ ks ∧
        (r.cell k.c.id).children = [] := by
  rcases h.mem_or_head hk with hk | ⟨ks, hcalls⟩
  · exact .inl hk
  · cases h with
    | @visit _ _ _ x hcalls' hpc' =>
      cases hcalls.symm.trans hcalls'
      cases hpc.symm.trans hpc'
      exact .inr (.inl ⟨x, List.mem_cons_of_mem _ List.mem_cons_self, _, List.mem_cons_self, rfl,
        .inl rfl⟩)
    | swept hcalls' hpc' =>
      cases hcalls.symm.trans hcalls'
      cases hpc.symm.trans hpc'
      exact .inr (.inr ⟨ks, rfl, hcalls, rfl, by simp⟩)
    | late hcalls' hpc' | win hcalls' hpc' | rootless hcalls' hpc' | detach hcalls' hpc'
    | stop hcalls' hpc' =>
      cases hcalls.symm.trans hcalls'
      cases hpc.symm.trans hpc'
    | _ => cases hcalls.symm.trans ‹th.calls = []›

/-- A child of a context without an error stays, or a goroutine begins to sweep the
context, or the child is settled. -/
theorem Step.child_cases (h : Step s i th r base calls w) (hi : s.threads[i]? = some th)
    (hs : Orderly s) (hx : MadeIn s.made x) (herr : (s.cell x.id).err = none)
    (hy : y ∈ (s.cell x.id).children) :
    ((r.cell x.id).err = none ∧ y ∈ (r.cell x.id).children) ∨
      (∃ k ∈ calls, k.c = x ∧ ∃ rest, k.pc = .sweep rest ∧ y ∈ rest) ∨
      ∃ k ∈ th.calls, k.c = y ∧ ¬ k.Active := by
  have hmem := List.mem_of_getElem? hi
  cases h with
  | @win k ks hcalls =>
    rcases eq_or_ne x.id k.c.id with hid | hne
    · have hmade := (hs.sound.thread th hmem).call k (hcalls ▸ List.mem_cons_self)
      have hk : k.c = x := hmade.eq hx hid.symm
      exact .inr (.inl ⟨_, List.mem_cons_self, hk, _, rfl, by rwa [hk]⟩)
    · exact .inl (by simp [Contexts.win, hne, herr, hy])
  | @swept k ks hcalls hpc =>
    have hne : x.id ≠ k.c.id := by
      intro hid
      have hsome := hs.marked.sweep th hmem k (hcalls ▸ List.mem_cons_self)
        (by simp [Call.held_of_sweep hpc])
      rw [← hid, herr] at hsome
      cases hsome
    exact .inl (by simp [hne, herr, hy])
  | @detach k ks p hcalls hpc =>
    rcases eq_or_ne y k.c with rfl | hne
    · refine .inr (.inr ⟨k, hcalls ▸ List.mem_cons_self, rfl, ?_⟩)
      rintro (hk | ⟨rest, hk⟩) <;> cases hpc.symm.trans hk
    · refine .inl ⟨(modify_field _ _ _ _ CancelCell.err rfl).trans herr, ?_⟩
      rcases eq_or_ne x.id p.id with hid | hid
      · rw [hid, modify_cell_self, ← hid]
        exact (List.mem_erase_of_ne hne).mpr hy
      · rwa [modify_cell_of_ne _ _ hid]
  | @register z p =>
    refine .inl ⟨(modify_field _ _ _ _ CancelCell.err rfl).trans herr, ?_⟩
    rcases eq_or_ne x.id p.id with hid | hid
    · rw [hid, modify_cell_self, ← hid]
      exact List.mem_insert_of_mem hy
    · rwa [modify_cell_of_ne _ _ hid]
  | stop | adopt | release | arm =>
    refine .inl ⟨(modify_field _ _ _ _ CancelCell.err rfl).trans herr, ?_⟩
    rwa [modify_field _ _ _ _ CancelCell.children rfl]
  | _ => exact .inl ⟨herr, hy⟩

/-- The calls of a goroutine are for different contexts. -/
theorem ThreadSound.id_lt {made : List Canceler} (h : ThreadSound made th)
    (hcalls : th.calls = k :: ks) : ∀ k' ∈ ks, k'.c.id < k.c.id := by
  have hnested := h.nested
  rw [hcalls] at hnested
  exact fun k' hk' => ((List.pairwise_cons.mp hnested).1 k' hk').1

/-- A cancellation still reaches the context below if a goroutine takes a step. -/
theorem Reached.step (hy : Reached s x y) (hi : s.threads[i]? = some th)
    (h : Step s i th r base calls w) (hs : Orderly s) (hcovered : Covered s)
    (hparent : parentCancelCtx y.parent = some x) (hmade : MadeIn s.made y) :
    Reached (r.become i th base calls w) x y := by
  have hmem := List.mem_of_getElem? hi
  obtain ⟨hlt, hx⟩ := hs.sound.above hmade hparent
  have hself := h.mem_self hi
  rcases hy with hy | ⟨herr, hchild⟩ | ⟨th', hth', k, hk, hc, rest, hpc, hy⟩
  · exact .inl (hy.step hi h)
  · rcases h.child_cases hi hs hx herr hchild with hchild | ⟨k, hk, hc, rest, hpc, hy⟩ |
      ⟨k, hk, rfl, hactive⟩
    · exact .inr (.inl (by rwa [become_cell]))
    · exact .inr (.inr ⟨_, hself, k, hk, hc, rest, hpc, .inl hy⟩)
    · exact .inl ((hcovered.after th hmem k hk hactive).step hi h)
  · rcases eq_or_ne th' th with rfl | hne
    · rcases h.sweep_cases hk hpc with hk' | ⟨z, hk', k', hk'', hz, hactive⟩ | ⟨ks, rfl, hcalls, -⟩
      · exact .inr (.inr ⟨_, hself, k, hk', hc, rest, hpc,
          hy.imp_right fun hy => hy.step hi h hs⟩)
      · refine .inr (.inr ⟨_, hself, _, hk', hc, _, rfl, ?_⟩)
        rcases hy with hy | hy
        · rcases eq_or_ne y z with rfl | hne
          · exact .inr (.inr ⟨k', hk'', hz, hactive⟩)
          · exact .inl ((List.mem_erase_of_ne hne).mpr hy)
        · exact .inr (hy.step hi h hs)
      · -- the sweep is over, and the calls below are for contexts above
        rcases hy with hy | hy | ⟨k', hk', rfl, -⟩
        · cases hy
        · exact .inl (hy.step hi h)
        · exfalso
          rw [hcalls] at hk'
          rcases List.mem_cons.mp hk' with rfl | hk'
          · exact Nat.lt_irrefl _ (hc ▸ hlt)
          · have := (hs.sound.thread th' hmem).id_lt hcalls k' hk'
            rw [hc] at this
            exact Nat.lt_asymm hlt this
    · refine .inr (.inr ⟨th', h.mem_of_ne hi hth' hne, k, hk, hc, rest, hpc, ?_⟩)
      exact hy.imp_right fun hy => hy.imp_left fun hy => hy.step hi h

/-- A parent that is never done has no canceler. -/
theorem parentCancelCtx_of_neverDone {c : Ctx} (h : c.neverDone) : parentCancelCtx c = none := by
  induction c with
  | empty => rfl
  | custom | cancelCtx | timerCtx => cases h
  | valueCtx parent ih => exact ih h

/-- `propagateCancel` returns: the context is a child of the one above, or settled. -/
theorem Step.reached (h : Step s i th r base calls w) (hi : s.threads[i]? = some th)
    (hcovered : Covered s) (hparent : parentCancelCtx y.parent = some x)
    (hprop : th.base.Propagates y) (hbase : ¬ base.Propagates y) :
    Reached (r.become i th base calls w) x y := by
  have hmem := List.mem_of_getElem? hi
  have habout := hprop.about
  cases h with
  | never _ hbase' hnever =>
    rw [hbase'] at habout
    cases habout
    cases hparent.symm.trans (parentCancelCtx_of_neverDone hnever)
  | watch _ hbase' hnone =>
    rw [hbase'] at habout
    cases habout
    cases hparent.symm.trans hnone
  | adopt _ hbase' =>
    rw [hbase'] at habout
    cases habout
    exact absurd (.inr ⟨_, rfl⟩) hbase
  | register _ hbase' hp _ herr =>
    rw [hbase'] at habout
    cases habout
    cases hparent.symm.trans hp
    refine .inr (.inl ?_)
    simp [Contexts.become, herr]
  | release hcalls hbase' =>
    rw [hbase'] at habout
    cases habout
    rcases hcovered.adopted th hmem _ _ hbase' with hy | ⟨k, hk, -⟩
    · exact .inl (hy.step hi (.release hcalls hbase'))
    · rw [hcalls] at hk
      cases hk
  | expired _ hbase' | expires _ hbase' | arm _ hbase' | ret _ hbase' | alarm _ hbase'
  | leave _ hbase' =>
    rw [hbase'] at hprop
    rcases hprop with hprop | ⟨p, hprop⟩ <;> cases hprop
  | _ => exact absurd hprop hbase

/-- A goroutine that comes into the branch of `propagateCancel` for a cancelled parent
cancels the child. -/
theorem Step.adopted {p : Canceler} (h : Step s i th r base calls w) (hbase : base = .adopted p x) :
    th.base = .adopted p x ∨ ∃ k ∈ calls, k.c = x ∧ k.Active := by
  cases h with
  | late | win | visit | swept | rootless | detach | stop => exact .inl hbase
  | adopt =>
    cases hbase
    exact .inr ⟨_, List.mem_singleton_self _, rfl, .inl rfl⟩
  | never | watch | register | release => exact absurd hbase (afterPropagate_ne_adopted _ _ _)
  | _ => cases hbase

/-- Who is registered after a step was so before, or the goroutine was in
`propagateCancel`. -/
theorem Step.registered (h : Step s i th r base calls w) (hi : s.threads[i]? = some th)
    (hy : Registered (r.become i th base calls w) y) :
    Registered s y ∨ th.base.Propagates y ∧ ¬ base.Propagates y := by
  have hmade : MadeIn s.made y := by
    have hmade := hy.1
    rwa [become_made, h.made] at hmade
  by_cases hprop : th.base.Propagates y
  · exact .inr ⟨hprop, hy.2 _ (h.mem_self hi)⟩
  · refine .inl ⟨hmade, fun th' hth' hprop' => ?_⟩
    have hne : th' ≠ th := by
      rintro rfl
      exact hprop hprop'
    exact hy.2 th' (h.mem_of_ne hi hth' hne) hprop'

/-- Whatever is to be cancelled is settled or attended after a step of a goroutine. -/
theorem Covered.step (hs : Covered s) (horderly : Orderly s) (hi : s.threads[i]? = some th)
    (h : Step s i th r base calls w) : Covered (r.become i th base calls w) := by
  have hmem := List.mem_of_getElem? hi
  refine ⟨fun th' hth' k hk hactive => ?_, fun th' hth' p x hbase => ?_,
    fun th' hth' x htask => ?_, fun x y hparent hy => ?_⟩
  · rcases mem_become hth' with rfl | hth' | ⟨y, -, rfl⟩
    · rcases h.inactive hi horderly hk hactive with hk | ⟨k₀, hk₀, hc, hactive⟩
      · exact hk
      · exact hc ▸ (hs.after th hmem k₀ hk₀ hactive).step hi h
    · exact (hs.after th' (h.threads ▸ hth') k hk hactive).step hi h
    · cases hk
  · rcases mem_become hth' with rfl | hth' | ⟨y, -, rfl⟩
    · rcases h.adopted hbase with hbase | hk
      · exact (hs.adopted th hmem p x hbase).step hi h horderly
      · exact .inr hk
    · exact (hs.adopted th' (h.threads ▸ hth') p x hbase).imp_left fun hx => hx.step hi h
    · cases hbase
  · rcases mem_become hth' with rfl | hth' | ⟨y, -, rfl⟩
    · exact (hs.task th hmem x htask).step hi h horderly
    · exact (hs.task th' (h.threads ▸ hth') x htask).imp_left fun hx => hx.step hi h
    · rcases htask with htask | htask <;> cases htask
  · rcases h.registered hi hy with hy | ⟨hprop, hbase⟩
    · exact (hs.child x y hparent hy).step hi h horderly hs hparent hy.1
    · exact h.reached hi hs hparent hprop hbase

/-- Whatever is to be cancelled is settled or attended after a move. -/
theorem Covered.move (hs : Covered s) (horderly : Orderly s) (h : Move s t) : Covered t := by
  rcases h.grows_or_step with h | ⟨i, th, r, base, calls, w, hi, hstep, rfl⟩
  · exact hs.grows horderly.sound h
  · exact hs.step horderly hi hstep

end Covered

/-! ## Runs -/

section Run

variable {s : Contexts} {es : List CtxEvent} {x y p : Canceler} {c : Ctx} {th : Thread}

/-- The contexts are in order and covered in every run. -/
theorem orderly_of_run (h : lts.Run start es s) : Orderly s ∧ Covered s :=
  h.invariant (fun s => Orderly s ∧ Covered s)
    (fun _ _ _ hs hstep => ⟨hs.1.move (move_of_next hstep), hs.2.move hs.1 (move_of_next hstep)⟩)
    ⟨orderly_start, covered_start⟩

end Run

end GoBlocks.Contexts
