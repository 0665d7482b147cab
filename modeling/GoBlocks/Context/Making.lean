import GoBlocks.Context.Invariant

/-!
# The making of contexts

A context is registered when `propagateCancel` is through with it: it is among the
children of the context above, or it was cancelled, or a goroutine watches its parent, or
its parent is never cancelled. One goroutine makes a context, and it returns the context
to its caller after that. So whatever a caller derives a context from is registered.
-/

namespace GoBlocks.Contexts

section Step

variable {s r : Contexts} {i : ℕ} {th : Thread} {base : Base} {calls : List Call}
  {w : Option Canceler}

/-- A step of a goroutine leaves the others alone. -/
theorem Step.threads (h : Step s i th r base calls w) : r.threads = s.threads := by
  cases h <;> rfl

/-- No step of a goroutine makes a context. -/
theorem Step.made (h : Step s i th r base calls w) : r.made = s.made := by
  cases h <;> rfl

/-- A goroutine that goes on, and one that it starts, change no struct by that. -/
@[simp] theorem become_cell : (r.become i th base calls w).cell = r.cell := by cases w <;> rfl

/-- A goroutine that goes on makes no context by that. -/
@[simp] theorem become_made : (r.become i th base calls w).made = r.made := by cases w <;> rfl

/-- A goroutine that goes on gives callers no context by that. -/
@[simp] theorem become_known : (r.become i th base calls w).known = r.known := by cases w <;> rfl

/-- The goroutines after a step. -/
theorem getElem?_become {j : ℕ} {th' : Thread}
    (h : (r.become i th base calls w).threads[j]? = some th') :
    (j = i ∧ th' = ⟨th.task, base, calls⟩) ∨ (j ≠ i ∧ r.threads[j]? = some th') ∨
      (j = r.threads.length ∧ ∃ x, w = some x ∧ th' = ⟨.watch x, .watch x, []⟩) := by
  have hset : ∀ {j'}, (r.threads.set i ⟨th.task, base, calls⟩)[j']? = some th' →
      (j' = i ∧ th' = ⟨th.task, base, calls⟩) ∨ (j' ≠ i ∧ r.threads[j']? = some th') := by
    intro j' hj'
    rcases getElem?_set_cases hj' with ⟨hj', hth'⟩ | hj'
    · exact .inl ⟨hj', hth'.symm⟩
    · exact .inr hj'
  cases w with
  | none =>
    rcases hset h with h | h
    · exact .inl h
    · exact .inr (.inl h)
  | some x =>
    rcases getElem?_snoc_cases h with h | ⟨hj, rfl⟩
    · rcases hset h with h | h
      · exact .inl h
      · exact .inr (.inl h)
    · exact .inr (.inr ⟨by rw [hj]; exact List.length_set, x, rfl, rfl⟩)

/-- A goroutine after a step is the one that took it, another one, or the one that was started. -/
theorem mem_become {th' : Thread} (h : th' ∈ (r.become i th base calls w).threads) :
    th' = ⟨th.task, base, calls⟩ ∨ th' ∈ r.threads ∨
      ∃ x, w = some x ∧ th' = ⟨.watch x, .watch x, []⟩ := by
  obtain ⟨j, hj⟩ := List.mem_iff_getElem?.mp h
  rcases getElem?_become hj with ⟨-, h⟩ | ⟨-, h⟩ | ⟨-, h⟩
  · exact .inl h
  · exact .inr (.inl (List.mem_of_getElem? h))
  · exact .inr (.inr h)

/-- The goroutine of the step. -/
theorem Step.mem_self (h : Step s i th r base calls w) (hi : s.threads[i]? = some th) :
    (⟨th.task, base, calls⟩ : Thread) ∈ (r.become i th base calls w).threads := by
  have hlt : i < r.threads.length := by
    rw [h.threads]
    exact (List.getElem?_eq_some_iff.mp hi).1
  cases w with
  | none => exact List.mem_set hlt _
  | some x => exact List.mem_append_left _ (List.mem_set hlt _)

/-- The other goroutines. -/
theorem Step.mem_of_ne (h : Step s i th r base calls w) (hi : s.threads[i]? = some th)
    {th' : Thread} (hth' : th' ∈ s.threads) (hne : th' ≠ th) :
    th' ∈ (r.become i th base calls w).threads := by
  rw [← h.threads] at hi hth'
  cases w with
  | none => exact mem_set_of_ne hi _ hth' hne
  | some x => exact List.mem_append_left _ (mem_set_of_ne hi _ hth' hne)

end Step

/-- The context that the goroutine makes. -/
def Base.makes : Base → Option Canceler
  | .propagate x | .adopted _ x | .expires x | .arm x | .ret x => some x
  | .watch _ | .done => none

/-- The goroutine is in `propagateCancel` for the context. -/
def Base.Propagates (base : Base) (x : Canceler) : Prop :=
  base = .propagate x ∨ ∃ p, base = .adopted p x

/-- `propagateCancel` has returned for the context. -/
def Registered (s : Contexts) (x : Canceler) : Prop :=
  MadeIn s.made x ∧ ∀ th ∈ s.threads, ¬ th.base.Propagates x

/-- Who makes contexts, and how far they are. -/
structure Making (s : Contexts) : Prop where
  task : ∀ th ∈ s.threads, ∀ x, th.base.makes = some x → th.task = .make x
  made : ∀ th ∈ s.threads, ∀ x, th.task = .make x → MadeIn s.made x
  unique : ∀ (i j : ℕ) (th th' : Thread) (x : Canceler), s.threads[i]? = some th →
    s.threads[j]? = some th' → th.task = .make x → th'.task = .make x → i = j
  past : ∀ th ∈ s.threads, ∀ x, th.base.about = some x → th.base.Propagates x ∨ Registered s x
  known : ∀ c ∈ s.known, ∀ y ∈ c.cancelers, Registered s y
  parents : ∀ x, MadeIn s.made x → ∀ y ∈ x.parent.cancelers, Registered s y

/-- At first no goroutine makes a context. -/
theorem making_start : Making start where
  task _ h := by cases h
  made _ h := by cases h
  unique _ _ _ _ _ h := by cases h
  past _ h := by cases h
  known _ h := by cases h
  parents _ h := by cases h

section Making

variable {s r t : Contexts} {i : ℕ} {th : Thread} {base : Base} {calls : List Call}
  {w : Option Canceler} {x y : Canceler}

/-- `propagateCancel` is called for the context that the goroutine makes. -/
theorem Base.Propagates.makes (h : base.Propagates x) : base.makes = some x := by
  rcases h with rfl | ⟨p, rfl⟩ <;> rfl

/-- `propagateCancel` is called for the context that the goroutine is about. -/
theorem Base.Propagates.about (h : base.Propagates x) : base.about = some x := by
  rcases h with rfl | ⟨p, rfl⟩ <;> rfl

/-- A goroutine is about the context that it makes. -/
theorem Base.about_of_makes (h : base.makes = some x) : base.about = some x := by
  cases base <;> first | exact h | cases h

/-- After `propagateCancel` the goroutine is not in it any more. -/
theorem not_propagates_afterPropagate : ¬ (afterPropagate x).Propagates y := by
  unfold afterPropagate
  split <;> simp [Base.Propagates]

/-- After `propagateCancel` the goroutine still has to return the context. -/
theorem afterPropagate_makes (x : Canceler) : (afterPropagate x).makes = some x := by
  unfold afterPropagate
  split <;> rfl

/-- Where a goroutine that makes a context or watches a parent stands after a step. -/
theorem Step.base_cases (h : Step s i th r base calls w) :
    base = th.base ∨ ∃ x, th.base.about = some x ∧
      (base = .done ∨ base.makes = some x ∧ th.base.makes = some x) ∧
      ∀ y, base.Propagates y → th.base.Propagates y := by
  cases h with
  | never _ hbase | watch _ hbase | register _ hbase | release _ hbase =>
    refine .inr ⟨_, by rw [hbase]; rfl, .inr ⟨afterPropagate_makes _, by rw [hbase]; rfl⟩, ?_⟩
    exact fun y hy => absurd hy not_propagates_afterPropagate
  | adopt _ hbase =>
    refine .inr ⟨_, by rw [hbase]; rfl, .inr ⟨rfl, by rw [hbase]; rfl⟩, fun y hy => ?_⟩
    cases hy.makes
    exact .inl hbase
  | expired _ hbase | expires _ hbase | arm _ hbase =>
    refine .inr ⟨_, by rw [hbase]; rfl, .inr ⟨rfl, by rw [hbase]; rfl⟩, fun y hy => ?_⟩
    rcases hy with hy | ⟨p, hy⟩ <;> cases hy
  | ret _ hbase | alarm _ hbase | leave _ hbase =>
    refine .inr ⟨_, by rw [hbase]; rfl, .inl rfl, fun y hy => ?_⟩
    rcases hy with hy | ⟨p, hy⟩ <;> cases hy
  | _ => exact .inl rfl

/-- `propagateCancel` begins only with a new context. -/
theorem Step.propagates (h : Step s i th r base calls w) (hx : base.Propagates x) :
    th.base.Propagates x := by
  rcases h.base_cases with hbase | ⟨y, -, -, hy⟩
  · rwa [hbase] at hx
  · exact hy x hx

/-- A registered context stays so if a goroutine takes a step. -/
theorem Registered.step (hx : Registered s x) (hi : s.threads[i]? = some th)
    (h : Step s i th r base calls w) : Registered (r.become i th base calls w) x := by
  refine ⟨by rw [become_made, h.made]; exact hx.1, fun th' hth' hprop => ?_⟩
  rcases mem_become hth' with rfl | hth' | ⟨y, -, rfl⟩
  · exact hx.2 th (List.mem_of_getElem? hi) (h.propagates hprop)
  · exact hx.2 th' (h.threads ▸ hth') hprop
  · rcases hprop with hprop | ⟨p, hprop⟩ <;> cases hprop

/-- The goroutine that makes a context has gone past `propagateCancel`. -/
theorem Making.registered (hs : Making s) (hi : s.threads[i]? = some th)
    (h : Step s i th r base calls w) (hx : th.base.makes = some x) (hbase : ¬ base.Propagates x) :
    Registered (r.become i th base calls w) x := by
  have htask := hs.task th (List.mem_of_getElem? hi) x hx
  have hmade := hs.made th (List.mem_of_getElem? hi) x htask
  refine ⟨by rw [become_made, h.made]; exact hmade, fun th' hth' hprop => ?_⟩
  obtain ⟨j, hj⟩ := List.mem_iff_getElem?.mp hth'
  rcases getElem?_become hj with ⟨-, rfl⟩ | ⟨hne, hj⟩ | ⟨-, y, -, rfl⟩
  · exact hbase hprop
  · -- no other goroutine makes the context
    rw [h.threads] at hj
    have htask' := hs.task th' (List.mem_of_getElem? hj) x hprop.makes
    exact hne (hs.unique j i th' th x hj hi htask' htask)
  · rcases hprop with hprop | ⟨p, hprop⟩ <;> cases hprop

/-- A goroutine that watches a parent is started by the one that makes the context. -/
theorem Step.watched (h : Step s i th r base calls (some x)) :
    th.base.makes = some x ∧ ¬ base.Propagates x := by
  cases h with
  | watch _ hbase => exact ⟨by rw [hbase]; rfl, not_propagates_afterPropagate⟩

/-- The contexts that are returned to callers. -/
theorem Step.known (h : Step s i th r base calls w) :
    r.known = s.known ∨ ∃ x, th.base = .ret x ∧ r.known = x.toCtx :: s.known := by
  cases h with
  | ret _ hbase => exact .inr ⟨_, hbase, rfl⟩
  | _ => exact .inl rfl

/-- The cancelers of a context that was returned are registered. -/
theorem Making.registered_toCtx (hs : Making s) (hx : Registered s x) :
    ∀ y ∈ x.toCtx.cancelers, Registered s y := by
  rw [Canceler.cancelers_toCtx]
  exact List.forall_mem_cons.mpr ⟨hx, hs.parents x hx.1⟩

/-- Every context is made by one goroutine if a goroutine takes a step. -/
theorem Making.step (hs : Making s) (hi : s.threads[i]? = some th)
    (h : Step s i th r base calls w) : Making (r.become i th base calls w) := by
  have hmem := List.mem_of_getElem? hi
  have hmade : (r.become i th base calls w).made = s.made := by rw [become_made, h.made]
  refine ⟨?_, ?_, ?_, ?_, ?_, ?_⟩
  · intro th' hth' x hx
    rcases mem_become hth' with rfl | hth' | ⟨y, -, rfl⟩
    · refine hs.task th hmem x ?_
      rcases h.base_cases with hbase | ⟨y, -, hdone | ⟨hy, hy'⟩, -⟩
      · rwa [hbase] at hx
      · rw [hdone] at hx
        cases hx
      · rw [hy', ← hy]
        exact hx
    · exact hs.task th' (h.threads ▸ hth') x hx
    · cases hx
  · intro th' hth' x hx
    rw [hmade]
    rcases mem_become hth' with rfl | hth' | ⟨y, -, rfl⟩
    · exact hs.made th hmem x hx
    · exact hs.made th' (h.threads ▸ hth') x hx
    · cases hx
  · -- the tasks are those from before the step
    have htask : ∀ {j : ℕ} {th' : Thread} {x : Canceler},
        (r.become i th base calls w).threads[j]? = some th' → th'.task = .make x →
          ∃ th₀ : Thread, s.threads[j]? = some th₀ ∧ th₀.task = .make x := by
      intro j th' x hj hx
      rcases getElem?_become hj with ⟨rfl, rfl⟩ | ⟨-, hj⟩ | ⟨-, y, -, rfl⟩
      · exact ⟨th, hi, hx⟩
      · exact ⟨th', h.threads ▸ hj, hx⟩
      · cases hx
    intro j j' th₁ th₂ x hj hj' hx hx'
    obtain ⟨th₁', hj, hx⟩ := htask hj hx
    obtain ⟨th₂', hj', hx'⟩ := htask hj' hx'
    exact hs.unique j j' th₁' th₂' x hj hj' hx hx'
  · intro th' hth' x hx
    rcases mem_become hth' with rfl | hth' | ⟨y, rfl, rfl⟩
    · rcases h.base_cases with hbase | ⟨y, hy, hdone | ⟨hmakes, hmakes'⟩, -⟩
      · rcases hs.past th hmem x (hbase ▸ hx) with hprop | hreg
        · exact .inl (by rwa [hbase])
        · exact .inr (hreg.step hi h)
      · simp [hdone, Base.about] at hx
      · obtain rfl : y = x := Option.some.inj ((Base.about_of_makes hmakes).symm.trans hx)
        by_cases hprop : base.Propagates y
        · exact .inl hprop
        · exact .inr (hs.registered hi h hmakes' hprop)
    · rcases hs.past th' (h.threads ▸ hth') x hx with hprop | hreg
      · exact .inl hprop
      · exact .inr (hreg.step hi h)
    · cases hx
      obtain ⟨hmakes, hprop⟩ := h.watched
      exact .inr (hs.registered hi h hmakes hprop)
  · rw [become_known]
    rcases h.known with hknown | ⟨x, hbase, hknown⟩
    · rw [hknown]
      exact fun c hc y hy => (hs.known c hc y hy).step hi h
    · rw [hknown]
      refine List.forall_mem_cons.mpr ⟨?_, fun c hc y hy => (hs.known c hc y hy).step hi h⟩
      rcases hs.past th hmem x (by rw [hbase]; rfl) with hprop | hreg
      · rw [hbase] at hprop
        rcases hprop with hprop | ⟨p, hprop⟩ <;> cases hprop
      · exact fun y hy => (hs.registered_toCtx hreg y hy).step hi h
  · rw [hmade]
    exact fun x hx y hy => (hs.parents x hx y hy).step hi h

/-- A registered context stays so if a goroutine is started that makes none. -/
theorem Registered.spawn (hx : Registered s x) (hbase : th.base = .done) :
    Registered (s.spawn th) x := by
  refine ⟨hx.1, fun th' hth' hprop => ?_⟩
  rcases List.mem_append.mp hth' with hth' | hth'
  · exact hx.2 th' hth' hprop
  · cases List.mem_singleton.mp hth'
    rw [hbase] at hprop
    rcases hprop with hprop | ⟨p, hprop⟩ <;> cases hprop

/-- A goroutine that makes nothing. -/
theorem Making.spawn (hs : Making s) (hbase : th.base = .done) (htask : ∀ x, th.task ≠ .make x) :
    Making (s.spawn th) := by
  have hreg : ∀ {x}, Registered s x → Registered (s.spawn th) x := fun hx => hx.spawn hbase
  refine ⟨?_, ?_, ?_, ?_, fun c hc y hy => hreg (hs.known c hc y hy),
    fun x hx y hy => hreg (hs.parents x hx y hy)⟩
  · intro th' hth' x hx
    rcases List.mem_append.mp hth' with hth' | hth'
    · exact hs.task th' hth' x hx
    · cases List.mem_singleton.mp hth'
      rw [hbase] at hx
      cases hx
  · intro th' hth' x hx
    rcases List.mem_append.mp hth' with hth' | hth'
    · exact hs.made th' hth' x hx
    · cases List.mem_singleton.mp hth'
      exact absurd hx (htask x)
  · intro j j' th₁ th₂ x hj hj' hx hx'
    rcases getElem?_snoc_cases hj with hj | ⟨-, rfl⟩
    · rcases getElem?_snoc_cases hj' with hj' | ⟨-, rfl⟩
      · exact hs.unique j j' th₁ th₂ x hj hj' hx hx'
      · exact absurd hx' (htask x)
    · exact absurd hx (htask x)
  · intro th' hth' x hx
    rcases List.mem_append.mp hth' with hth' | hth'
    · rcases hs.past th' hth' x hx with hprop | hx
      · exact .inl hprop
      · exact .inr (hreg hx)
    · cases List.mem_singleton.mp hth'
      rw [hbase] at hx
      cases hx

/-- The cancelers of a context that a caller has are registered. -/
theorem Making.has (hs : Making s) {c : Ctx} (hc : s.Has c) :
    ∀ y ∈ c.cancelers, Registered s y := by
  unfold Has at hc
  split at hc
  · simp [Ctx.cancelers]
  · simp [Ctx.cancelers]
  · exact hs.known c (of_decide_eq_true hc)

/-- What is made is new. -/
theorem MadeIn.ne_new {d : Option ℕ} {parent : Ctx} (hx : MadeIn s.made x) :
    x ≠ ⟨s.made.length, d, parent⟩ := by
  rintro rfl
  exact absurd hx.id_lt (Nat.lt_irrefl _)

/-- A registered context stays so if another one is made. -/
theorem Registered.make (hx : Registered s x) (d : Option ℕ) (parent : Ctx) :
    Registered (s.make d parent) x := by
  refine ⟨hx.1.append _, fun th' hth' hprop => ?_⟩
  rcases List.mem_append.mp hth' with hth' | hth'
  · exact hx.2 th' hth' hprop
  · cases List.mem_singleton.mp hth'
    exact hx.1.ne_new (Option.some.inj hprop.makes).symm

/-- A context that a caller asks for is made by a goroutine of its own. -/
theorem Making.make (hs : Making s) (d : Option ℕ) {parent : Ctx} (hparent : s.Has parent) :
    Making (s.make d parent) := by
  have hreg : ∀ {x}, Registered s x → Registered (s.make d parent) x := fun hx => hx.make d parent
  refine ⟨?_, ?_, ?_, ?_, fun c hc y hy => hreg (hs.known c hc y hy), ?_⟩
  · intro th' hth' x hx
    rcases List.mem_append.mp hth' with hth' | hth'
    · exact hs.task th' hth' x hx
    · cases List.mem_singleton.mp hth'
      cases hx
      rfl
  · intro th' hth' x hx
    rcases List.mem_append.mp hth' with hth' | hth'
    · exact (hs.made th' hth' x hx).append _
    · cases List.mem_singleton.mp hth'
      cases hx
      simp [MadeIn, Contexts.make]
  · intro j j' th₁ th₂ x hj hj' hx hx'
    rcases getElem?_snoc_cases hj with hj | ⟨rfl, rfl⟩ <;>
      rcases getElem?_snoc_cases hj' with hj' | ⟨rfl, rfl⟩
    · exact hs.unique j j' th₁ th₂ x hj hj' hx hx'
    · cases hx'
      exact absurd rfl (hs.made th₁ (List.mem_of_getElem? hj) _ hx).ne_new
    · cases hx
      exact absurd rfl (hs.made th₂ (List.mem_of_getElem? hj') _ hx').ne_new
    · rfl
  · intro th' hth' x hx
    rcases List.mem_append.mp hth' with hth' | hth'
    · rcases hs.past th' hth' x hx with hprop | hx
      · exact .inl hprop
      · exact .inr (hreg hx)
    · cases List.mem_singleton.mp hth'
      cases hx
      exact .inl (.inl rfl)
  · intro x hx y hy
    rcases getElem?_snoc_cases hx with hx | ⟨-, rfl⟩
    · exact hreg (hs.parents x hx y hy)
    · exact hreg (hs.has hparent y hy)

/-- A registered context stays so. -/
theorem Registered.move (hx : Registered s x) (h : Move s t) : Registered t x := by
  cases h with
  | make d => exact hx.make d _
  | withValue | finish | tick => exact ⟨hx.1, hx.2⟩
  | cancel => exact hx.spawn rfl
  | fire => exact Registered.spawn ⟨hx.1, hx.2⟩ rfl
  | step hi hstep => exact hx.step hi hstep

/-- Every context is made by one goroutine after a move. -/
theorem Making.move (hs : Making s) (h : Move s t) : Making t := by
  cases h with
  | make d hparent => exact hs.make d hparent
  | withValue hparent =>
    exact ⟨hs.task, hs.made, hs.unique, hs.past,
      List.forall_mem_cons.mpr ⟨fun y hy => hs.has hparent y hy, hs.known⟩, hs.parents⟩
  | cancel => exact hs.spawn rfl (by simp)
  | fire =>
    exact Making.spawn ⟨hs.task, hs.made, hs.unique, hs.past, hs.known, hs.parents⟩ rfl (by simp)
  | finish | tick => exact ⟨hs.task, hs.made, hs.unique, hs.past, hs.known, hs.parents⟩
  | step hi hstep => exact hs.step hi hstep

end Making

end GoBlocks.Contexts
