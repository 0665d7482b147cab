import GoBlocks.Context.Settled

/-!
# The steps that contexts take

Making a context takes at most fourteen steps in all: those of the goroutine that makes
it, of the one that watches its parent, of its timer and of the sweep of the context
above. A call of a `CancelFunc` takes four more. The children of a context are counted
where they are stored, so that a sweep takes as many steps as it finds children.
-/

namespace GoBlocks.Contexts

/-- The steps that a call of `cancel` takes, with those of the children that it visits. -/
def Call.work (k : Call) : ℕ :=
  match k.pc with
  | .enter => 4
  | .sweep rest => 5 * rest.length + 3
  | .detach => 2
  | .stop => 1

/-- The steps that are left outside of calls, with those of what is started. -/
def Base.work : Base → ℕ
  | .propagate _ => 14
  | .adopted _ _ => 9
  | .expires _ => 8
  | .arm _ => 7
  | .ret _ => 1
  | .watch _ => 5
  | .done => 0

/-- The steps that a goroutine has before it, outside of calls and in them. -/
def Thread.work (th : Thread) : ℕ := th.base.work + (th.calls.map Call.work).sum

/-- A child will be visited, and a timer fires. -/
def CancelCell.work (c : CancelCell) : ℕ :=
  (if c.err.isNone then 5 * c.children.length else 0) + if c.timer then 5 else 0

/-- The steps that all goroutines have before them. -/
def threadWork (s : Contexts) : ℕ := (s.threads.map Thread.work).sum

/-- The steps that the structs may bring. -/
def cellWork (s : Contexts) : ℕ := ∑ n ∈ Finset.range s.made.length, CancelCell.work (s.cell n)

/-- The work that is left. -/
def work (s : Contexts) : ℕ := s.threadWork + s.cellWork

section Work

variable {s r : Contexts} {i n : ℕ} {th : Thread} {base : Base} {calls : List Call}
  {w : Option Canceler} {k : Call} {ks : List Call} {f : CancelCell → CancelCell}

/-- The work of the structs if one of them changes. -/
theorem cellWork_modify {a b : ℕ} (hn : n < s.made.length)
    (h : CancelCell.work (f (s.cell n)) + a ≤ CancelCell.work (s.cell n) + b) :
    (s.modify n f).cellWork + a ≤ s.cellWork + b := by
  have hsum := sum_range_add (f := fun m => CancelCell.work ((s.modify n f).cell m))
    (g := fun m => CancelCell.work (s.cell m)) hn fun m hm => by rw [modify_cell_of_ne _ _ hm]
  rw [modify_cell_self] at hsum
  have hmade : (s.modify n f).made = s.made := rfl
  unfold cellWork
  rw [hmade]
  omega

/-- The children of a context that is cancelled are visited. -/
theorem cellWork_win (hk : k.c.id < s.made.length) (herr : (s.cell k.c.id).err = none) :
    (s.win i k).cellWork + 5 * (s.cell k.c.id).children.length ≤ s.cellWork := by
  have hwin : (s.win i k).cellWork = (s.modify k.c.id fun c =>
      { c with err := some k.err, done := true, mu := some i }).cellWork := rfl
  rw [hwin]
  refine cellWork_modify (b := 0) hk ?_
  simp only [CancelCell.work, herr, Option.isNone_none, Option.isNone_some, if_true,
    Bool.false_eq_true, if_false]
  omega

/-- The work of a goroutine that is started to watch a parent. -/
def watchWork : Option Canceler → ℕ
  | none => 0
  | some _ => 5

/-- The work after a goroutine has gone on and maybe started another one. -/
theorem work_become (hi : r.threads[i]? = some th) (base : Base) (calls : List Call)
    (w : Option Canceler) : (r.become i th base calls w).work + th.work =
      r.work + (⟨th.task, base, calls⟩ : Thread).work + watchWork w := by
  have hset := sum_map_set_add Thread.work hi ⟨th.task, base, calls⟩
  have hcells : (r.become i th base calls w).cellWork = r.cellWork := by
    simp only [cellWork, become_made, become_cell]
  unfold work
  rw [hcells]
  cases w with
  | none =>
    simp only [threadWork, Contexts.become, Contexts.goto, watchWork]
    omega
  | some x =>
    have hwatch : (⟨.watch x, .watch x, []⟩ : Thread).work = 5 := rfl
    simp only [threadWork, Contexts.become, Contexts.goto, Contexts.spawn, List.map_append,
      List.map_singleton, List.sum_append, List.sum_singleton, hwatch, watchWork]
    omega

/-- After `cancelCtx.cancel` a call takes at most two steps. -/
theorem work_afterCancel (before : Bool) : ((k.afterCancel before).map Call.work).sum ≤ 2 := by
  rcases k.afterCancel_cases before with hafter | hafter | hafter <;>
    simp [hafter, Call.work]

/-- After `removeChild` a call takes at most one step. -/
theorem work_afterDetach : (k.afterDetach.map Call.work).sum ≤ 1 := by
  rcases k.afterDetach_cases with hafter | hafter <;> simp [hafter, Call.work]

/-- After `propagateCancel` at most the steps for a deadline are left. -/
theorem work_afterPropagate (x : Canceler) : (afterPropagate x).work ≤ 8 := by
  unfold afterPropagate
  split <;> simp [Base.work]

/-- The work of a goroutine in a call. -/
theorem work_of_cons (hcalls : th.calls = k :: ks) :
    th.work = th.base.work + k.work + (ks.map Call.work).sum := by
  rw [Thread.work, hcalls, List.map_cons, List.sum_cons, Nat.add_assoc]

/-- The work of a goroutine outside of calls. -/
theorem work_of_nil (hcalls : th.calls = []) : th.work = th.base.work := by
  rw [Thread.work, hcalls]
  rfl

/-- The work of a goroutine that has just come into a call. -/
theorem work_call (task : Task) (base : Base) (k : Call) (ks : List Call) :
    (⟨task, base, k :: ks⟩ : Thread).work = base.work + k.work + (ks.map Call.work).sum :=
  work_of_cons rfl

/-- The work of a goroutine that has just left its calls. -/
theorem work_outside (task : Task) (base : Base) : (⟨task, base, []⟩ : Thread).work = base.work :=
  rfl

/-- The work of a call that has just begun. -/
theorem work_enter {x : Canceler} {b : Bool} {e : CtxErr} :
    (⟨x, b, e, .enter⟩ : Call).work = 4 := rfl

/-- The work of a call that has the rest of the children to visit. -/
theorem work_sweep (k : Call) (rest : List Canceler) :
    ({ k with pc := .sweep rest } : Call).work = 5 * rest.length + 3 := rfl

/-- The work of the structs if one of them changes in nothing that matters. -/
theorem cellWork_modify_le (hn : n < s.made.length)
    (h : CancelCell.work (f (s.cell n)) ≤ CancelCell.work (s.cell n)) :
    (s.modify n f).cellWork ≤ s.cellWork :=
  cellWork_modify (a := 0) (b := 0) hn h

/-- What a step in a call does to the structs is paid by the goroutine. -/
theorem Step.call_cellWork_le (h : Step s i th r base calls w) (hs : Sound s)
    (hi : s.threads[i]? = some th) (hcalls : th.calls = k :: ks) :
    r.cellWork + (⟨th.task, base, calls⟩ : Thread).work + watchWork w + 1 ≤
      s.cellWork + th.work := by
  have hk := (hs.thread th (List.mem_of_getElem? hi)).call k (hcalls ▸ List.mem_cons_self)
  have hafterCancel : ∀ before, (⟨th.task, th.base, k.afterCancel before ++ ks⟩ : Thread).work ≤
      th.base.work + 2 + (ks.map Call.work).sum := by
    intro before
    have hle := work_afterCancel (k := k) before
    simp only [Thread.work, List.map_append, List.sum_append]
    omega
  have hafterDetach : (⟨th.task, th.base, k.afterDetach ++ ks⟩ : Thread).work ≤
      th.base.work + 1 + (ks.map Call.work).sum := by
    have hle := work_afterDetach (k := k)
    simp only [Thread.work, List.map_append, List.sum_append]
    omega
  rw [work_of_cons hcalls]
  cases h with
  | late hcalls' hpc =>
    cases hcalls.symm.trans hcalls'
    have hle := hafterCancel true
    have hwork : k.work = 4 := by simp [Call.work, hpc]
    simp only [watchWork]
    omega
  | win hcalls' hpc hmu herr =>
    cases hcalls.symm.trans hcalls'
    have hwork : k.work = 4 := by simp [Call.work, hpc]
    have hcells := cellWork_win (i := i) hk.id_lt herr
    rw [work_call, work_sweep]
    simp only [watchWork]
    omega
  | @visit _ _ rest x hcalls' hpc hx =>
    cases hcalls.symm.trans hcalls'
    have hwork : k.work = 5 * rest.length + 3 := by simp [Call.work, hpc]
    have hlen := List.length_erase_of_mem hx
    have hpos := List.length_pos_of_mem hx
    rw [work_call, List.map_cons, List.sum_cons, work_sweep, work_enter]
    simp only [watchWork]
    omega
  | swept hcalls' hpc =>
    cases hcalls.symm.trans hcalls'
    have hle := hafterCancel false
    have hwork : k.work = 3 := by simp [Call.work, hpc]
    have hcells := cellWork_modify_le (f := fun c => { c with children := [], mu := none }) hk.id_lt
      (by simp [CancelCell.work])
    simp only [watchWork]
    omega
  | rootless hcalls' hpc =>
    cases hcalls.symm.trans hcalls'
    have hwork : k.work = 2 := by simp [Call.work, hpc]
    simp only [watchWork]
    omega
  | @detach _ _ p hcalls' hpc hparent =>
    cases hcalls.symm.trans hcalls'
    have hwork : k.work = 2 := by simp [Call.work, hpc]
    have hcells := cellWork_modify_le (f := fun c => { c with children := c.children.erase k.c })
      (hs.above hk hparent).2.id_lt <| by
        have hle := (s.cell p.id).children.length_erase_le (a := k.c)
        simp only [CancelCell.work]
        split <;> omega
    simp only [watchWork]
    omega
  | stop hcalls' hpc =>
    cases hcalls.symm.trans hcalls'
    have hwork : k.work = 1 := by simp [Call.work, hpc]
    have hcells := cellWork_modify_le (f := fun c => { c with timer := false }) hk.id_lt
      (by simp [CancelCell.work])
    simp only [watchWork, Thread.work]
    omega
  | _ => cases hcalls.symm.trans ‹th.calls = []›

/-- What a step does to the structs is paid by the goroutine. -/
theorem Step.cellWork_le (h : Step s i th r base calls w) (hs : Sound s)
    (hi : s.threads[i]? = some th) :
    r.cellWork + (⟨th.task, base, calls⟩ : Thread).work + watchWork w + 1 ≤
      s.cellWork + th.work := by
  cases hcalls : th.calls with
  | cons k ks => exact h.call_cellWork_le hs hi hcalls
  | nil =>
    have hth := hs.thread th (List.mem_of_getElem? hi)
    have hbase : ∀ {x}, th.base.about = some x → MadeIn s.made x := fun hx => hth.base _ hx
    rw [work_of_nil hcalls]
    cases h with
    | @never x _ hbase' | @watch x _ hbase' =>
      have hle := work_afterPropagate x
      have hwork : th.base.work = 14 := by rw [hbase']; rfl
      rw [work_outside]
      simp only [watchWork]
      omega
    | @adopt x p e _ hbase' hparent =>
      have hcells := cellWork_modify_le (f := fun c => { c with mu := some i })
        (hs.above (hbase (by rw [hbase']; rfl)) hparent).2.id_lt le_rfl
      rw [work_call, work_enter]
      simp only [hbase', watchWork, Base.work, List.map_nil, List.sum_nil]
      omega
    | @register x p _ hbase' hparent =>
      have hle := work_afterPropagate x
      have hwork : th.base.work = 14 := by rw [hbase']; rfl
      have hcells := cellWork_modify (a := 0) (b := 5)
        (f := fun c => { c with children := c.children.insert x })
        (hs.above (hbase (by rw [hbase']; rfl)) hparent).2.id_lt <| by
          have hlen : ((s.cell p.id).children.insert x).length ≤
              (s.cell p.id).children.length + 1 := by
            by_cases hx : x ∈ (s.cell p.id).children <;> simp [hx]
          simp only [CancelCell.work]
          split <;> omega
      rw [work_outside]
      simp only [watchWork]
      omega
    | @release p x _ hbase' =>
      have hle := work_afterPropagate x
      have hwork : th.base.work = 9 := by rw [hbase']; rfl
      have hparent := (hth.adopted p x hbase').1
      have hcells := cellWork_modify_le (f := fun c => { c with mu := none })
        (hs.above (hbase (by rw [hbase']; rfl)) hparent).2.id_lt le_rfl
      rw [work_outside]
      simp only [watchWork]
      omega
    | @arm x _ hbase' =>
      have hcells := cellWork_modify (a := 0) (b := 5)
        (f := fun c => { c with timer := c.err.isNone }) (hbase (by rw [hbase']; rfl)).id_lt <| by
          simp only [CancelCell.work]
          split <;> split <;> omega
      rw [work_outside]
      simp only [hbase', watchWork, Base.work]
      omega
    | @ret x _ hbase' =>
      have hcells : ({ s with known := x.toCtx :: s.known } : Contexts).cellWork = s.cellWork := rfl
      rw [work_outside, hcells]
      simp only [hbase', watchWork, Base.work]
      omega
    | expired _ hbase' | alarm _ hbase' =>
      rw [work_call, work_enter]
      simp only [hbase', watchWork, Base.work, List.map_nil, List.sum_nil]
      omega
    | expires _ hbase' | leave _ hbase' =>
      rw [work_outside]
      simp only [hbase', watchWork, Base.work]
      omega
    | _ => cases hcalls.symm.trans ‹th.calls = _ :: _›

/-- A step takes one from the work that is left. -/
theorem Step.work_lt (h : Step s i th r base calls w) (hs : Sound s)
    (hi : s.threads[i]? = some th) : (r.become i th base calls w).work < s.work := by
  have hle := h.cellWork_le hs hi
  have hbecome := work_become (h.threads ▸ hi) base calls w
  have hthreads : r.threadWork = s.threadWork := by rw [threadWork, h.threads, threadWork]
  simp only [Contexts.work, hthreads] at hbecome ⊢
  omega

end Work

end GoBlocks.Contexts
