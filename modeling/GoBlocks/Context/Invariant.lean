import GoBlocks.Context.Basic
import GoBlocks.Lib.Counting

/-!
# Mutexes of contexts

A goroutine in a call of `cancel` inside another one has locked the mutexes of the
contexts above. The mutexes are locked from the root of the tree downwards, and a
context is made after those that it is derived from, so that the numbers of the locked
mutexes go up. A mutex is locked exactly by the goroutine that is in a section of it.
-/

namespace GoBlocks.Contexts

/-! ## Small facts about the parts of a step -/

section Frames

variable (s : Contexts) (i n m : ℕ) (f : CancelCell → CancelCell) (th : Thread) (base : Base)
  (calls : List Call)

/-- The struct that changes. -/
@[simp] theorem modify_cell_self : (s.modify n f).cell n = f (s.cell n) := Function.update_self ..

/-- The other structs do not change. -/
@[simp] theorem modify_cell_of_ne {n m : ℕ} (h : m ≠ n) : (s.modify n f).cell m = s.cell m :=
  Function.update_of_ne h ..

/-- A field that the change keeps. -/
theorem modify_field {α : Type} (field : CancelCell → α)
    (h : field (f (s.cell n)) = field (s.cell n)) :
    field ((s.modify n f).cell m) = field (s.cell m) := by
  rcases eq_or_ne m n with rfl | hne
  · rw [modify_cell_self, h]
  · rw [modify_cell_of_ne _ _ hne]

/-- A goroutine that goes on changes no struct by that. -/
@[simp] theorem goto_cell : (s.goto i th base calls).cell = s.cell := rfl

/-- A new goroutine changes no struct. -/
@[simp] theorem spawn_cell : (s.spawn th).cell = s.cell := rfl

end Frames

/-- The call holds the mutex of its context. -/
def Call.held (k : Call) : List ℕ :=
  match k.pc with
  | .sweep _ => [k.c.id]
  | _ => []

/-- The mutex that is locked in `propagateCancel`. -/
def Base.held : Base → List ℕ
  | .adopted p _ => [p.id]
  | _ => []

/-- The mutexes that a goroutine has locked. -/
def Thread.held (th : Thread) : List ℕ := th.calls.flatMap Call.held ++ th.base.held

/-- The context that the goroutine makes, or whose parent it watches. -/
def Base.about : Base → Option Canceler
  | .propagate x | .adopted _ x | .expires x | .arm x | .ret x | .watch x => some x
  | .done => none

/-- A call is made by the sweep of a context above. -/
def Call.Over (k k' : Call) : Prop :=
  k'.c.id < k.c.id ∧ k.removeFromParent = false ∧ ∃ rest, k'.pc = .sweep rest

/-! ## Numbers -/

/-- The canceler is one of those that were made. -/
def MadeIn (made : List Canceler) (x : Canceler) : Prop := made[x.id]? = some x

/-- What holds of a goroutine among the cancelers that were made. -/
structure ThreadSound (made : List Canceler) (th : Thread) : Prop where
  call : ∀ k ∈ th.calls, MadeIn made k.c
  sweep : ∀ k ∈ th.calls, ∀ rest, k.pc = .sweep rest → ∀ x ∈ rest,
    MadeIn made x ∧ parentCancelCtx x.parent = some k.c
  nested : th.calls.Pairwise Call.Over
  base : ∀ x, th.base.about = some x → MadeIn made x
  adopted : ∀ p x, th.base = .adopted p x → parentCancelCtx x.parent = some p ∧
    ∀ k ∈ th.calls, p.id < k.c.id ∧ k.removeFromParent = false

/-- Numbers are given in the order of making, and everything refers to what was made. -/
structure Sound (s : Contexts) : Prop where
  made : ∀ n x, s.made[n]? = some x → x.id = n ∧
    ∀ y ∈ x.parent.cancelers, y.id < n ∧ MadeIn s.made y
  known : ∀ c ∈ s.known, ∀ y ∈ c.cancelers, MadeIn s.made y
  child : ∀ n, ∀ x ∈ (s.cell n).children, MadeIn s.made x ∧
    ∃ p, parentCancelCtx x.parent = some p ∧ p.id = n
  thread : ∀ th ∈ s.threads, ThreadSound s.made th

/-- At first nothing is made. -/
theorem sound_start : Sound start where
  made _ _ h := by cases h
  known _ h := by cases h
  child _ _ h := by cases h
  thread _ h := by cases h

section Sound

variable {s t : Contexts} {made : List Canceler} {th : Thread} {k : Call} {ks : List Call}
  {x y p : Canceler} {i : ℕ}

/-- The number determines the canceler. -/
theorem MadeIn.eq (hx : MadeIn made x) (hy : MadeIn made y) (h : x.id = y.id) : x = y := by
  rw [MadeIn, h] at hx
  exact Option.some.inj (hx.symm.trans hy)

/-- A canceler that was made has a number below the count of those that were made. -/
theorem MadeIn.id_lt (hx : MadeIn made x) : x.id < made.length :=
  (List.getElem?_eq_some_iff.mp hx).1

/-- What was made stays so when more is made. -/
theorem MadeIn.append (hx : MadeIn made x) (made' : List Canceler) : MadeIn (made ++ made') x := by
  rw [MadeIn, List.getElem?_append_left hx.id_lt]
  exact hx

/-- The number of a canceler is its place. -/
theorem Sound.madeIn (hs : Sound s) (hx : x ∈ s.made) : MadeIn s.made x := by
  obtain ⟨n, hn⟩ := List.mem_iff_getElem?.mp hx
  rw [MadeIn, (hs.made n x hn).1, hn]

/-- The canceler above was made before. -/
theorem Sound.above (hs : Sound s) (hx : MadeIn s.made x)
    (hp : parentCancelCtx x.parent = some p) : p.id < x.id ∧ MadeIn s.made p := by
  refine (hs.made _ _ hx).2 p ?_
  rw [Ctx.cancelers_of_parentCancelCtx hp]
  exact List.mem_cons_self

/-- What a goroutine refers to stays made when more is made. -/
theorem ThreadSound.append (h : ThreadSound made th) (made' : List Canceler) :
    ThreadSound (made ++ made') th where
  call k hk := (h.call k hk).append made'
  sweep k hk rest hpc x hx := ⟨(h.sweep k hk rest hpc x hx).1.append made',
    (h.sweep k hk rest hpc x hx).2⟩
  nested := h.nested
  base x hx := (h.base x hx).append made'
  adopted := h.adopted

/-- The first call returns. -/
theorem ThreadSound.pop (h : ThreadSound made th) (hcalls : th.calls = k :: ks) :
    ThreadSound made ⟨th.task, th.base, ks⟩ := by
  have hsub : ∀ k' ∈ ks, k' ∈ th.calls := fun k' hk' => hcalls ▸ List.mem_cons_of_mem k hk'
  have hnested := h.nested
  rw [hcalls] at hnested
  exact ⟨fun k' hk' => h.call k' (hsub k' hk'), fun k' hk' => h.sweep k' (hsub k' hk'),
    hnested.of_cons, h.base, fun p x hbase => ⟨(h.adopted p x hbase).1, fun k' hk' =>
      (h.adopted p x hbase).2 k' (hsub k' hk')⟩⟩

/-- The first call goes on. -/
theorem ThreadSound.setPc (h : ThreadSound made th) (hcalls : th.calls = k :: ks) {pc : CallPc}
    (hpc : ∀ rest, pc = .sweep rest → ∀ x ∈ rest,
      MadeIn made x ∧ parentCancelCtx x.parent = some k.c) :
    ThreadSound made ⟨th.task, th.base, { k with pc := pc } :: ks⟩ := by
  have hk : k ∈ th.calls := hcalls ▸ List.mem_cons_self
  have hks := h.pop hcalls
  have hnested := h.nested
  rw [hcalls] at hnested
  refine ⟨?_, ?_, ?_, h.base, fun p x hbase => ⟨(h.adopted p x hbase).1, ?_⟩⟩
  · exact List.forall_mem_cons.mpr ⟨h.call k hk, hks.call⟩
  · exact List.forall_mem_cons.mpr ⟨hpc, hks.sweep⟩
  · exact List.pairwise_cons.mpr ⟨(List.pairwise_cons.mp hnested).1, hnested.of_cons⟩
  · exact List.forall_mem_cons.mpr ⟨(h.adopted p x hbase).2 k hk, (hks.adopted p x hbase).2⟩

/-- After `cancelCtx.cancel`, a call returns or goes on without the mutex. -/
theorem Call.afterCancel_cases (k : Call) (before : Bool) : k.afterCancel before = [] ∨
    k.afterCancel before = [{ k with pc := .detach }] ∨
    k.afterCancel before = [{ k with pc := .stop }] := by
  unfold Call.afterCancel
  split
  · split
    · exact .inr (.inl rfl)
    · exact .inl rfl
  · split
    · exact .inr (.inl rfl)
    · exact .inr (.inr rfl)

/-- After `removeChild` the call is over, or it stops the timer. -/
theorem Call.afterDetach_cases (k : Call) :
    k.afterDetach = [] ∨ k.afterDetach = [{ k with pc := .stop }] := by
  unfold Call.afterDetach
  split
  · exact .inl rfl
  · exact .inr rfl

/-- A goroutine refers to what was made when `cancelCtx.cancel` returns in it. -/
theorem ThreadSound.afterCancel (h : ThreadSound made th) (hcalls : th.calls = k :: ks)
    (before : Bool) : ThreadSound made ⟨th.task, th.base, k.afterCancel before ++ ks⟩ := by
  rcases k.afterCancel_cases before with hafter | hafter | hafter
  · rw [hafter]
    exact h.pop hcalls
  · rw [hafter]
    exact h.setPc hcalls fun _ hpc => by cases hpc
  · rw [hafter]
    exact h.setPc hcalls fun _ hpc => by cases hpc

/-- A goroutine refers to what was made when `removeChild` returns in it. -/
theorem ThreadSound.afterDetach (h : ThreadSound made th) (hcalls : th.calls = k :: ks) :
    ThreadSound made ⟨th.task, th.base, k.afterDetach ++ ks⟩ := by
  rcases k.afterDetach_cases with hafter | hafter
  · rw [hafter]
    exact h.pop hcalls
  · rw [hafter]
    exact h.setPc hcalls fun _ hpc => by cases hpc

/-- After `propagateCancel` the goroutine still makes the same context. -/
theorem afterPropagate_about (x : Canceler) : (afterPropagate x).about = some x := by
  unfold afterPropagate
  split <;> rfl

/-- After `propagateCancel` the mutex of the parent is unlocked. -/
theorem afterPropagate_ne_adopted (x p y : Canceler) : afterPropagate x ≠ .adopted p y := by
  unfold afterPropagate
  split <;> simp

/-- A goroutine outside of calls goes on, perhaps with a call. -/
theorem ThreadSound.setBase (h : ThreadSound made th) (hx : th.base.about = some x) {base : Base}
    (hbase : ∀ y, base.about = some y → y = x)
    (hadopted : ∀ p y, base = .adopted p y → parentCancelCtx x.parent = some p ∧ p.id < x.id)
    {calls : List Call} (hcalls : calls = [] ∨ ∃ b e, calls = [⟨x, b, e, .enter⟩] ∧
      ((∃ p y, base = .adopted p y) → b = false)) :
    ThreadSound made ⟨th.task, base, calls⟩ := by
  have hmade := h.base x hx
  have hbase' : ∀ y, base.about = some y → MadeIn made y := by
    intro y hy
    rw [hbase y hy]
    exact hmade
  have hparent : ∀ p y, base = .adopted p y → parentCancelCtx y.parent = some p := by
    intro p y hy
    rw [hbase y (by rw [hy]; rfl)]
    exact (hadopted p y hy).1
  rcases hcalls with rfl | ⟨b, e, rfl, hb⟩
  · exact ⟨by simp, by simp, .nil, hbase', fun p y hy => ⟨hparent p y hy, by simp⟩⟩
  · refine ⟨?_, ?_, List.pairwise_singleton _ _, hbase', fun p y hy => ⟨hparent p y hy, ?_⟩⟩
    · exact List.forall_mem_singleton.mpr hmade
    · exact List.forall_mem_singleton.mpr fun _ hpc => by cases hpc
    · exact List.forall_mem_singleton.mpr ⟨(hadopted p y hy).2, hb ⟨p, y, hy⟩⟩

/-- A goroutine goes on. -/
theorem Sound.goto (hs : Sound s) {base : Base} {calls : List Call}
    (hth : ThreadSound s.made ⟨th.task, base, calls⟩) : Sound (s.goto i th base calls) := by
  refine ⟨hs.made, hs.known, hs.child, fun th' hth' => ?_⟩
  rcases List.mem_or_eq_of_mem_set hth' with hth' | rfl
  · exact hs.thread th' hth'
  · exact hth

/-- A new goroutine. -/
theorem Sound.spawn (hs : Sound s) (hth : ThreadSound s.made th) : Sound (s.spawn th) := by
  refine ⟨hs.made, hs.known, hs.child, fun th' hth' => ?_⟩
  rcases List.mem_append.mp hth' with hth' | hth'
  · exact hs.thread th' hth'
  · cases List.mem_singleton.mp hth'
    exact hth

/-- A struct is changed. -/
theorem Sound.modify (hs : Sound s) {n : ℕ} {f : CancelCell → CancelCell}
    (h : ∀ x ∈ (f (s.cell n)).children, x ∈ (s.cell n).children ∨
      MadeIn s.made x ∧ ∃ p, parentCancelCtx x.parent = some p ∧ p.id = n) :
    Sound (s.modify n f) := by
  refine ⟨hs.made, hs.known, fun m x hx => ?_, hs.thread⟩
  rcases eq_or_ne m n with rfl | hne
  · rw [modify_cell_self] at hx
    rcases h x hx with hx | hx
    · exact hs.child m x hx
    · exact hx
  · rw [modify_cell_of_ne _ _ hne] at hx
    exact hs.child m x hx

/-- A goroutine sweeps the children that the context has. -/
theorem Sound.win (hs : Sound s) (k : Call) : Sound (s.win i k) := by
  have hmodify := hs.modify (n := k.c.id)
    (f := fun c => { c with err := some k.err, done := true, mu := some i }) fun _ hx => .inl hx
  exact ⟨hmodify.made, hmodify.known, hmodify.child, hmodify.thread⟩

/-- The sweep of a context calls `cancel` of a child. -/
theorem ThreadSound.visit (h : ThreadSound made th) (hcalls : th.calls = k :: ks)
    {rest : List Canceler} (hpc : k.pc = .sweep rest) (hx : x ∈ rest) (hid : k.c.id < x.id) :
    ThreadSound made ⟨th.task, th.base,
      ⟨x, false, k.err, .enter⟩ :: { k with pc := .sweep (rest.erase x) } :: ks⟩ := by
  have hk : k ∈ th.calls := hcalls ▸ List.mem_cons_self
  have hrest := h.sweep k hk rest hpc
  have hset : ThreadSound made
      ⟨th.task, th.base, { k with pc := .sweep (rest.erase x) } :: ks⟩ := by
    refine h.setPc hcalls fun _ hpc' y hy => ?_
    cases hpc'
    exact hrest y (List.mem_of_mem_erase hy)
  have hnested := h.nested
  rw [hcalls] at hnested
  refine ⟨?_, ?_, ?_, h.base, fun p y hbase => ⟨(h.adopted p y hbase).1, ?_⟩⟩
  · exact List.forall_mem_cons.mpr ⟨(hrest x hx).1, hset.call⟩
  · exact List.forall_mem_cons.mpr ⟨fun _ hpc' => (by cases hpc'), hset.sweep⟩
  · refine List.pairwise_cons.mpr ⟨?_, hset.nested⟩
    refine List.forall_mem_cons.mpr ⟨⟨hid, rfl, _, rfl⟩, fun k' hk' => ?_⟩
    obtain ⟨hlt, -, hsweep⟩ := (List.pairwise_cons.mp hnested).1 k' hk'
    exact ⟨Nat.lt_trans hlt hid, rfl, hsweep⟩
  · obtain ⟨-, hover⟩ := hset.adopted p y hbase
    have hlt := (hover _ List.mem_cons_self).1
    exact List.forall_mem_cons.mpr ⟨⟨Nat.lt_trans hlt hid, rfl⟩, hover⟩

/-- Everything refers to what was made after a step of a goroutine. -/
theorem Sound.step (hs : Sound s) (hi : s.threads[i]? = some th) {base : Base} {calls : List Call}
    {w : Option Canceler} (h : Step s i th t base calls w) :
    Sound (t.become i th base calls w) := by
  have hth := hs.thread th (List.mem_of_getElem? hi)
  -- what a step outside of calls needs
  have hsetBase : ∀ {x base}, th.base.about = some x → (base.about = some x ∨ base.about = none) →
      (∀ p y, base ≠ .adopted p y) → ∀ {calls}, (calls = [] ∨ ∃ b e, calls = [⟨x, b, e, .enter⟩]) →
      ThreadSound s.made ⟨th.task, base, calls⟩ := by
    intro x base hx hbase hne calls hcalls
    refine hth.setBase hx (fun y hy => ?_) (fun p y hy => absurd hy (hne p y)) ?_
    · rcases hbase with hbase | hbase
      · exact Option.some.inj (hy.symm.trans hbase)
      · cases hy.symm.trans hbase
    · rcases hcalls with rfl | ⟨b, e, rfl⟩
      · exact .inl rfl
      · exact .inr ⟨b, e, rfl, fun ⟨p, y, hy⟩ => absurd hy (hne p y)⟩
  have hpropagated : ∀ {x}, th.base.about = some x →
      ThreadSound s.made ⟨th.task, afterPropagate x, []⟩ := fun {x} hx =>
    hsetBase hx (.inl (afterPropagate_about x)) (afterPropagate_ne_adopted x) (.inl rfl)
  cases h with
  | late hcalls => exact hs.goto (hth.afterCancel hcalls true)
  | @win k ks hcalls =>
    have hk := hth.call k (hcalls ▸ List.mem_cons_self)
    refine (hs.win k).goto (hth.setPc hcalls ?_)
    rintro rest ⟨⟩ x hx
    obtain ⟨hx, p, hp, hid⟩ := hs.child _ x hx
    rw [hp, ((hs.above hx hp).2.eq hk hid)]
    exact ⟨hx, rfl⟩
  | @visit k ks rest x hcalls hpc hx =>
    obtain ⟨hmade, hparent⟩ := hth.sweep k (hcalls ▸ List.mem_cons_self) rest hpc x hx
    exact hs.goto (hth.visit hcalls hpc hx (hs.above hmade hparent).1)
  | swept hcalls => exact (hs.modify (by simp)).goto (hth.afterCancel hcalls false)
  | rootless hcalls => exact hs.goto (hth.afterDetach hcalls)
  | detach hcalls =>
    exact (hs.modify fun x hx => .inl (List.mem_of_mem_erase hx)).goto (hth.afterDetach hcalls)
  | stop hcalls => exact (hs.modify fun x hx => .inl hx).goto (hth.pop hcalls)
  | never hcalls hbase => exact hs.goto (hpropagated (by rw [hbase]; rfl))
  | @watch x hcalls hbase =>
    have hx : th.base.about = some x := by rw [hbase]; rfl
    refine (hs.goto (hpropagated hx)).spawn ⟨by simp, by simp, .nil, ?_, fun _ _ hb => by cases hb⟩
    rintro y ⟨⟩
    exact hth.base x hx
  | @adopt x p e hcalls hbase hparent =>
    have hx : th.base.about = some x := by rw [hbase]; rfl
    have hlt := (hs.above (hth.base x hx) hparent).1
    refine (hs.modify fun x hx => .inl hx).goto (hth.setBase hx ?_ ?_ (.inr ⟨false, e, rfl, ?_⟩))
    · rintro y ⟨⟩
      rfl
    · rintro p' y ⟨⟩
      exact ⟨hparent, hlt⟩
    · exact fun _ => rfl
  | @register x p hcalls hbase hparent =>
    have hx : th.base.about = some x := by rw [hbase]; rfl
    refine (hs.modify fun y hy => ?_).goto (hpropagated hx)
    rcases List.mem_insert_iff.mp hy with rfl | hy
    · exact .inr ⟨hth.base y hx, p, hparent, rfl⟩
    · exact .inl hy
  | release hcalls hbase =>
    exact (hs.modify fun x hx => .inl hx).goto (hpropagated (by rw [hbase]; rfl))
  | expired hcalls hbase =>
    exact hs.goto (hsetBase (by rw [hbase]; rfl) (.inl rfl) (by simp) (.inr ⟨_, _, rfl⟩))
  | expires hcalls hbase =>
    exact hs.goto (hsetBase (by rw [hbase]; rfl) (.inl rfl) (by simp) (.inl rfl))
  | arm hcalls hbase =>
    exact (hs.modify fun x hx => .inl hx).goto
      (hsetBase (by rw [hbase]; rfl) (.inl rfl) (by simp) (.inl rfl))
  | @ret x hcalls hbase =>
    have hx : th.base.about = some x := by rw [hbase]; rfl
    have hmade := hth.base x hx
    have hknown : Sound { s with known := x.toCtx :: s.known } := by
      refine ⟨hs.made, List.forall_mem_cons.mpr ⟨?_, hs.known⟩, hs.child, hs.thread⟩
      rw [Canceler.cancelers_toCtx]
      exact List.forall_mem_cons.mpr ⟨hmade, fun y hy => ((hs.made _ _ hmade).2 y hy).2⟩
    exact hknown.goto (hsetBase hx (.inr rfl) (by simp) (.inl rfl))
  | alarm hcalls hbase =>
    exact hs.goto (hsetBase (by rw [hbase]; rfl) (.inr rfl) (by simp) (.inr ⟨_, _, rfl⟩))
  | leave hcalls hbase =>
    exact hs.goto (hsetBase (by rw [hbase]; rfl) (.inr rfl) (by simp) (.inl rfl))

/-- A goroutine that calls `cancel`. -/
theorem threadSound_call (hx : MadeIn made x) {task : Task} {b : Bool} {e : CtxErr} :
    ThreadSound made ⟨task, .done, [⟨x, b, e, .enter⟩]⟩ where
  call := List.forall_mem_singleton.mpr hx
  sweep := List.forall_mem_singleton.mpr fun _ hpc => by cases hpc
  nested := List.pairwise_singleton _ _
  base _ h := by cases h
  adopted _ _ h := by cases h

/-- The cancelers of a context that a caller has were made. -/
theorem Sound.has (hs : Sound s) {c : Ctx} (hc : s.Has c) : ∀ y ∈ c.cancelers, MadeIn s.made y := by
  unfold Has at hc
  split at hc
  · simp [Ctx.cancelers]
  · simp [Ctx.cancelers]
  · exact hs.known c (of_decide_eq_true hc)

/-- Everything refers to what was made after a move. -/
theorem Sound.move (hs : Sound s) (h : Move s t) : Sound t := by
  cases h with
  | @make d parent hparent =>
    have hhas := hs.has hparent
    have hlt : ∀ y ∈ parent.cancelers, y.id < s.made.length := fun y hy =>
      (hhas y hy).id_lt
    have hnew : MadeIn (s.made ++ [⟨s.made.length, d, parent⟩]) ⟨s.made.length, d, parent⟩ := by
      simp [MadeIn]
    refine ⟨fun n x hx => ?_, fun c hc y hy => (hs.known c hc y hy).append _, fun n x hx => ?_,
      fun th hth => ?_⟩
    · rcases getElem?_snoc_cases hx with hx | ⟨rfl, rfl⟩
      · obtain ⟨hid, hparents⟩ := hs.made n x hx
        exact ⟨hid, fun y hy => ⟨(hparents y hy).1, (hparents y hy).2.append _⟩⟩
      · exact ⟨rfl, fun y hy => ⟨hlt y hy, (hhas y hy).append _⟩⟩
    · rcases eq_or_ne n s.made.length with rfl | hne
      · simp [Contexts.make, newCancelCtx] at hx
      · have hx : x ∈ (Function.update s.cell s.made.length newCancelCtx n).children := hx
        rw [Function.update_of_ne hne] at hx
        exact ⟨(hs.child n x hx).1.append _, (hs.child n x hx).2⟩
    · rcases List.mem_append.mp hth with hth | hth
      · exact (hs.thread th hth).append _
      · cases List.mem_singleton.mp hth
        refine ⟨by simp, by simp, .nil, ?_, fun _ _ hb => by cases hb⟩
        rintro y ⟨⟩
        exact hnew
  | withValue hparent =>
    exact ⟨hs.made, List.forall_mem_cons.mpr ⟨fun y hy => hs.has hparent y hy, hs.known⟩, hs.child,
      hs.thread⟩
  | cancel hx =>
    exact hs.spawn (threadSound_call (hs.known _ hx _ (Canceler.mem_cancelers_toCtx _)))
  | @fire x d hx =>
    exact (hs.modify fun x hx => .inl hx).spawn (threadSound_call (hs.madeIn hx))
  | finish | tick => exact ⟨hs.made, hs.known, hs.child, hs.thread⟩
  | step hi hstep => exact hs.step hi hstep

end Sound

/-! ## Mutexes -/

/-- A mutex is locked by the goroutine that is in a section of it. -/
def Locks (s : Contexts) : Prop :=
  ∀ n j, (s.cell n).mu = some j ↔ ∃ th, s.threads[j]? = some th ∧ n ∈ th.held

section Locks

variable {s t r : Contexts} {th : Thread} {k : Call} {ks : List Call} {i : ℕ} {base : Base}
  {calls : List Call} {task : Task}

/-- At first no mutex is locked. -/
theorem locks_start : Locks start := by
  intro n j
  simp [start, newCancelCtx]

/-- Outside of calls a goroutine holds at most the mutex of `propagateCancel`. -/
@[simp] theorem held_nil : (⟨task, base, []⟩ : Thread).held = base.held := rfl

/-- A goroutine in a call holds the mutex of that call besides the others. -/
@[simp] theorem held_cons :
    (⟨task, base, k :: ks⟩ : Thread).held = k.held ++ (⟨task, base, ks⟩ : Thread).held :=
  List.append_assoc ..

/-- What comes after `cancelCtx.cancel` holds no mutex. -/
@[simp] theorem held_afterCancel (before : Bool) :
    (⟨task, base, k.afterCancel before ++ ks⟩ : Thread).held =
      (⟨task, base, ks⟩ : Thread).held := by
  rcases k.afterCancel_cases before with hafter | hafter | hafter <;> rw [hafter] <;> rfl

/-- What comes after `removeChild` holds no mutex. -/
@[simp] theorem held_afterDetach :
    (⟨task, base, k.afterDetach ++ ks⟩ : Thread).held = (⟨task, base, ks⟩ : Thread).held := by
  rcases k.afterDetach_cases with hafter | hafter <;> rw [hafter] <;> rfl

/-- What comes after `propagateCancel` holds no mutex. -/
@[simp] theorem held_afterPropagate (x : Canceler) : (afterPropagate x).held = [] := by
  unfold afterPropagate
  split <;> rfl

/-- A call that sweeps the children holds the mutex of its context. -/
theorem Call.held_of_sweep {rest : List Canceler} (h : k.pc = .sweep rest) :
    k.held = [k.c.id] := by
  simp [Call.held, h]

/-- A goroutine locks and unlocks mutexes of its own. -/
theorem Locks.goto (hs : Locks s) (hi : s.threads[i]? = some th) (hr : r.threads = s.threads)
    (hown : ∀ n, (r.cell n).mu = some i ↔ n ∈ (⟨th.task, base, calls⟩ : Thread).held)
    (hother : ∀ n j, j ≠ i → ((r.cell n).mu = some j ↔ (s.cell n).mu = some j)) :
    Locks (r.goto i th base calls) := by
  intro n j
  have hset : (r.goto i th base calls).threads = s.threads.set i ⟨th.task, base, calls⟩ := by
    rw [← hr]
    rfl
  rcases eq_or_ne j i with rfl | hne
  · rw [goto_cell, hown n, hset, List.getElem?_set_self (List.getElem?_eq_some_iff.mp hi).1]
    simp
  · rw [goto_cell, hother n j hne, hs n j, hset, List.getElem?_set_ne hne.symm]

/-- A goroutine goes on with the same mutexes. -/
theorem Locks.goto_same (hs : Locks s) (hi : s.threads[i]? = some th) (hr : r.threads = s.threads)
    (hmu : ∀ n, (r.cell n).mu = (s.cell n).mu)
    (hheld : (⟨th.task, base, calls⟩ : Thread).held = th.held) :
    Locks (r.goto i th base calls) := by
  refine hs.goto hi hr (fun n => ?_) fun n j _ => by rw [hmu]
  rw [hmu, hs n i, hheld, hi]
  simp

/-- A new goroutine holds no mutex. -/
theorem Locks.spawn (hs : Locks s) (hth : th.held = []) : Locks (s.spawn th) := by
  intro n j
  refine (hs n j).trans ⟨?_, ?_⟩
  · rintro ⟨th', hj, hn⟩
    exact ⟨th', by
      rw [Contexts.spawn, List.getElem?_append_left (List.getElem?_eq_some_iff.mp hj).1, hj], hn⟩
  · rintro ⟨th', hj, hn⟩
    rcases getElem?_snoc_cases hj with hj | ⟨-, rfl⟩
    · exact ⟨th', hj, hn⟩
    · rw [hth] at hn
      cases hn

/-- A goroutine that has locked no mutex for its first call. -/
theorem held_of_cons (hcalls : th.calls = k :: ks) :
    th.held = k.held ++ (⟨th.task, th.base, ks⟩ : Thread).held := by
  rw [← held_cons, ← hcalls]

/-- The mutexes of a goroutine outside of calls. -/
theorem held_of_nil (hcalls : th.calls = []) : th.held = th.base.held := by
  rw [Thread.held, hcalls]
  rfl

/-- A goroutine in a call holds mutexes of contexts above only. -/
theorem ThreadSound.lt_of_mem_held {made : List Canceler} (h : ThreadSound made th)
    (hcalls : th.calls = k :: ks) {n : ℕ} (hn : n ∈ (⟨th.task, th.base, ks⟩ : Thread).held) :
    n < k.c.id := by
  have hnested := h.nested
  rw [hcalls] at hnested
  rcases List.mem_append.mp hn with hn | hn
  · obtain ⟨k', hk', hn⟩ := List.mem_flatMap.mp hn
    obtain ⟨hlt, -, rest, hpc⟩ := (List.pairwise_cons.mp hnested).1 k' hk'
    rw [Call.held_of_sweep hpc] at hn
    cases List.mem_singleton.mp hn
    exact hlt
  · cases hbase : th.base with
    | adopted p x =>
      rw [hbase] at hn
      cases List.mem_singleton.mp hn
      exact ((h.adopted p x hbase).2 k (hcalls ▸ List.mem_cons_self)).1
    | _ =>
      rw [hbase] at hn
      cases hn

/-- A step of a goroutine locks and unlocks the mutexes of the sections that it enters and
leaves. -/
theorem Locks.step (hs : Locks s) (hsound : Sound s) (hi : s.threads[i]? = some th)
    {w : Option Canceler} (h : Step s i th t base calls w) :
    Locks (t.become i th base calls w) := by
  have hth := hsound.thread th (List.mem_of_getElem? hi)
  have hpropagated : ∀ {x}, th.calls = [] → th.base = .propagate x →
      (⟨th.task, afterPropagate x, []⟩ : Thread).held = th.held := by
    intro x hcalls hbase
    rw [held_nil, held_afterPropagate, held_of_nil hcalls, hbase]
    rfl
  cases h with
  | late hcalls hpc =>
    refine hs.goto_same hi rfl (fun n => rfl) ?_
    rw [held_afterCancel, held_of_cons hcalls]
    simp [Call.held, hpc]
  | @win k ks hcalls hpc hmu =>
    have hheld : th.held = (⟨th.task, th.base, ks⟩ : Thread).held := by
      rw [held_of_cons hcalls]
      simp [Call.held, hpc]
    refine hs.goto hi rfl (fun n => ?_) fun n j hne => ?_
    · rw [held_cons, Call.held_of_sweep rfl, ← hheld]
      rcases eq_or_ne n k.c.id with rfl | hn
      · simp [Contexts.win]
      · simp [Contexts.win, hn, hs n i, hi]
    · rcases eq_or_ne n k.c.id with rfl | hn
      · simp [Contexts.win, hmu, hne.symm]
      · simp [Contexts.win, hn]
  | visit hcalls hpc =>
    refine hs.goto_same hi rfl (fun n => rfl) ?_
    simp [held_of_cons hcalls, Call.held, hpc]
  | @swept k ks hcalls hpc =>
    have hheld := held_of_cons hcalls
    rw [Call.held_of_sweep hpc] at hheld
    -- no other call of the goroutine has locked the mutex
    have hnot : k.c.id ∉ (⟨th.task, th.base, ks⟩ : Thread).held := fun hmem =>
      Nat.lt_irrefl _ (hth.lt_of_mem_held hcalls hmem)
    have hmu : (s.cell k.c.id).mu = some i := (hs _ i).mpr ⟨th, hi, by simp [hheld]⟩
    refine hs.goto hi rfl (fun n => ?_) fun n j hne => ?_
    · rw [held_afterCancel]
      rcases eq_or_ne n k.c.id with rfl | hn
      · simp [hnot]
      · simp [hn, hs n i, hi, hheld]
    · rcases eq_or_ne n k.c.id with rfl | hn
      · simp [hmu, hne.symm]
      · simp [hn]
  | rootless hcalls hpc =>
    refine hs.goto_same hi rfl (fun n => rfl) ?_
    rw [held_afterDetach, held_of_cons hcalls]
    simp [Call.held, hpc]
  | detach hcalls hpc =>
    refine hs.goto_same hi rfl (fun n => modify_field _ _ _ _ CancelCell.mu rfl) ?_
    rw [held_afterDetach, held_of_cons hcalls]
    simp [Call.held, hpc]
  | stop hcalls hpc =>
    refine hs.goto_same hi rfl (fun n => modify_field _ _ _ _ CancelCell.mu rfl) ?_
    rw [held_of_cons hcalls]
    simp [Call.held, hpc]
  | never hcalls hbase => exact hs.goto_same hi rfl (fun n => rfl) (hpropagated hcalls hbase)
  | watch hcalls hbase =>
    exact (hs.goto_same hi rfl (fun n => rfl) (hpropagated hcalls hbase)).spawn rfl
  | @adopt x p e hcalls hbase hparent hmu =>
    have hheld : th.held = [] := by simp [held_of_nil hcalls, hbase, Base.held]
    refine hs.goto hi rfl (fun n => ?_) fun n j hne => ?_
    · rcases eq_or_ne n p.id with rfl | hn
      · simp [Base.held, Call.held]
      · simp [hn, hs n i, hi, hheld, Base.held, Call.held]
    · rcases eq_or_ne n p.id with rfl | hn
      · simp [hmu, hne.symm]
      · simp [hn]
  | register hcalls hbase =>
    exact hs.goto_same hi rfl (fun n => modify_field _ _ _ _ CancelCell.mu rfl)
      (hpropagated hcalls hbase)
  | @release p x hcalls hbase =>
    have hheld : th.held = [p.id] := by simp [held_of_nil hcalls, hbase, Base.held]
    have hmu : (s.cell p.id).mu = some i := (hs _ i).mpr ⟨th, hi, by simp [hheld]⟩
    refine hs.goto hi rfl (fun n => ?_) fun n j hne => ?_
    · rcases eq_or_ne n p.id with rfl | hn
      · simp
      · simp [hn, hs n i, hi, hheld]
    · rcases eq_or_ne n p.id with rfl | hn
      · simp [hmu, hne.symm]
      · simp [hn]
  | expired hcalls hbase | expires hcalls hbase | alarm hcalls hbase | leave hcalls hbase =>
    exact hs.goto_same hi rfl (fun n => rfl)
      (by simp [held_of_nil hcalls, hbase, Base.held, Call.held])
  | arm hcalls hbase =>
    exact hs.goto_same hi rfl (fun n => modify_field _ _ _ _ CancelCell.mu rfl)
      (by simp [held_of_nil hcalls, hbase, Base.held])
  | ret hcalls hbase =>
    exact hs.goto_same hi rfl (fun n => rfl) (by simp [held_of_nil hcalls, hbase, Base.held])

/-- A goroutine has locked mutexes of cancelers that were made. -/
theorem Sound.lt_of_mem_held (hs : Sound s) (hth : th ∈ s.threads) {n : ℕ} (hn : n ∈ th.held) :
    n < s.made.length := by
  have hsound := hs.thread th hth
  rcases List.mem_append.mp hn with hn | hn
  · obtain ⟨k, hk, hn⟩ := List.mem_flatMap.mp hn
    unfold Call.held at hn
    split at hn
    · cases List.mem_singleton.mp hn
      exact (hsound.call k hk).id_lt
    · cases hn
  · cases hbase : th.base with
    | adopted p x =>
      rw [hbase] at hn
      cases List.mem_singleton.mp hn
      have hx := hsound.base x (by rw [hbase]; rfl)
      exact (hs.above hx (hsound.adopted p x hbase).1).2.id_lt
    | _ =>
      rw [hbase] at hn
      cases hn

/-- The locked mutexes are those of the sections that goroutines are in after a move. -/
theorem Locks.move (hs : Locks s) (hsound : Sound s) (h : Move s t) : Locks t := by
  cases h with
  | @make d parent =>
    refine Locks.spawn (s := { s with
      made := s.made ++ [⟨s.made.length, d, parent⟩]
      cell := Function.update s.cell s.made.length newCancelCtx }) (fun n j => ?_) rfl
    rcases eq_or_ne n s.made.length with rfl | hne
    · simp only [Function.update_self, newCancelCtx]
      constructor
      · intro h
        cases h
      · rintro ⟨th, hj, hn⟩
        exact absurd (hsound.lt_of_mem_held (List.mem_of_getElem? hj) hn) (Nat.lt_irrefl _)
    · simp only [Function.update_of_ne hne]
      exact hs n j
  | withValue | finish | tick => exact hs
  | cancel => exact hs.spawn rfl
  | fire =>
    refine Locks.spawn (fun n j => ?_) rfl
    rw [modify_field _ _ _ _ CancelCell.mu rfl]
    exact hs n j
  | step hi hstep => exact hs.step hsound hi hstep

end Locks

end GoBlocks.Contexts
