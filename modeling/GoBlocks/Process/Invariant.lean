import GoBlocks.Process.Basic
import Mathlib.Order.Nat

/-!
# What the goroutines of processes keep

A process closes once: exactly one goroutine is in `doClose` of a process that is
closing and not closed. The mutex is locked while a teardown function runs. A link loses
its child only after the child is closed, and `AddToChild` of the link comes before that.
-/

namespace GoBlocks

variable {T E : Type}

namespace Processes

variable {s t : Processes T E}

/-! ## What only grows -/

/-- Nothing is opened again, and a link only loses its child. -/
structure Grows (s t : Processes T E) : Prop where
  size : s.size ≤ t.size
  numLinks : s.numLinks ≤ t.numLinks
  closing : ∀ p, (s.proc p).closing → (t.proc p).closing
  closed : ∀ p, (s.proc p).closed → (t.proc p).closed
  closeErr : ∀ p, (s.proc p).closed → (t.proc p).closeErr = (s.proc p).closeErr
  hidden : ∀ p < s.size, (t.proc p).hidden = (s.proc p).hidden
  link : ∀ l < s.numLinks, ∀ q, t.link l = some q → s.link l = some q

end Processes

/-- What holds of a goroutine from the moment when it is about to do something. -/
def Goroutine.Sound (s : Processes T E) : Goroutine E → Prop
  | .close p k => p < s.size ∧ ∀ c, k = some c → s.Known c
  | .waiting p _ _ k | .tearing p k | .joined p k =>
    p < s.size ∧ (s.proc p).closing ∧ ∀ c, k = some c → s.Known c
  | .returned p e => (s.proc p).closed ∧ (s.proc p).closeErr = e
  | .addToChild l => l < s.numLinks
  | .clear ls => ∀ l ∈ ls, l < s.numLinks ∧ ∀ q, s.link l = some q → (s.proc q).closed
  | .closeAfterChildren p | .nextToWaitFor p | .awaits p _ => s.Known p
  | .body c w => s.Known c ∧ w < s.size ∧ (s.proc w).hidden
  | .panicked | .done => True

namespace Processes

variable {s t : Processes T E}

/-- A known process stays known. -/
theorem Grows.known (h : Grows s t) {p : ℕ} (hp : s.Known p) : t.Known p := by
  obtain ⟨hlt, hhidden⟩ := known_iff.mp hp
  exact known_iff.mpr ⟨hlt.trans_le h.size, (h.hidden p hlt).trans hhidden⟩

/-- What holds of a goroutine goes on to hold. -/
theorem Grows.sound (h : Grows s t) {g : Goroutine E} (hg : g.Sound s) : g.Sound t := by
  cases g with
  | close p k => exact ⟨hg.1.trans_le h.size, fun c hc => h.known (hg.2 c hc)⟩
  | waiting p _ _ k | tearing p k | joined p k =>
    exact ⟨hg.1.trans_le h.size, h.closing p hg.2.1, fun c hc => h.known (hg.2.2 c hc)⟩
  | returned p e => exact ⟨h.closed p hg.1, (h.closeErr p hg.1).trans hg.2⟩
  | addToChild l => exact Nat.lt_of_lt_of_le hg h.numLinks
  | clear ls =>
    intro l hl
    obtain ⟨hlt, hclosed⟩ := hg l hl
    exact ⟨hlt.trans_le h.numLinks, fun q hq => h.closed q (hclosed q (h.link l hlt q hq))⟩
  | closeAfterChildren p | nextToWaitFor p | awaits p c => exact h.known hg
  | body c w => exact ⟨h.known hg.1, hg.2.1.trans_le h.size, (h.hidden w hg.2.1).trans hg.2.2⟩
  | panicked | done => trivial

/-- The goroutines and the links are sound. -/
structure Sound (s : Processes T E) : Prop where
  threads : ∀ g ∈ s.threads, g.Sound s
  fresh : ∀ p, s.size ≤ p → s.proc p = newProcess E none false
  link : ∀ l q, s.link l = some q → l < s.numLinks ∧ q < s.size
  children : ∀ p, ∀ l ∈ (s.proc p).children,
    l < s.numLinks ∧ ∀ q, s.link l = some q → (s.proc q).hidden = false
  waiters : ∀ p, ∀ l ∈ (s.proc p).waiters, l < s.numLinks ∧ ∀ q, s.link l = some q → q = p
  closing : ∀ p, (s.proc p).closed → (s.proc p).closing

/-- A goroutine is one of those that were there, or what the step makes it. -/
theorem mem_goto {i : ℕ} {g g' : Goroutine E} (h : g ∈ (s.goto i g').threads) :
    g ∈ s.threads ∨ g = g' := List.mem_or_eq_of_mem_set h

/-- The processes before there are any. -/
theorem sound_start : Sound (start T E) where
  threads := by simp [start]
  fresh := fun _ _ => rfl
  link := by simp [start]
  children := by simp [start, newProcess]
  waiters := by simp [start, newProcess]
  closing := by simp [start, newProcess]

/-- It is enough to look at what is new. -/
theorem Sound.of_grows (hs : Sound s) (hgrows : Grows s t)
    (hthreads : ∀ g ∈ t.threads, g ∈ s.threads ∨ g.Sound t)
    (hfresh : ∀ p, t.size ≤ p → t.proc p = newProcess E none false)
    (hlink : ∀ l q, t.link l = some q → s.link l = some q ∨ l < t.numLinks ∧ q < t.size)
    (hchildren : ∀ p, ∀ l ∈ (t.proc p).children, l ∈ (s.proc p).children ∨
      l < t.numLinks ∧ ∀ q, t.link l = some q → (t.proc q).hidden = false)
    (hwaiters : ∀ p, ∀ l ∈ (t.proc p).waiters, l ∈ (s.proc p).waiters ∨
      l < t.numLinks ∧ ∀ q, t.link l = some q → q = p)
    (hclosing : ∀ p, (t.proc p).closed → (s.proc p).closed ∨ (t.proc p).closing) : Sound t where
  threads g hg := (hthreads g hg).elim (fun hold => hgrows.sound (hs.threads g hold)) id
  fresh := hfresh
  link l q hl := by
    rcases hlink l q hl with hold | hnew
    · obtain ⟨hlt, hq⟩ := hs.link l q hold
      exact ⟨hlt.trans_le hgrows.numLinks, hq.trans_le hgrows.size⟩
    · exact hnew
  children p l hl := by
    rcases hchildren p l hl with hold | hnew
    · obtain ⟨hlt, hknown⟩ := hs.children p l hold
      refine ⟨hlt.trans_le hgrows.numLinks, fun q hq => ?_⟩
      have hq' := hgrows.link l hlt q hq
      exact (hgrows.hidden q (hs.link l q hq').2).trans (hknown q hq')
    · exact hnew
  waiters p l hl := by
    rcases hwaiters p l hl with hold | hnew
    · obtain ⟨hlt, hown⟩ := hs.waiters p l hold
      exact ⟨hlt.trans_le hgrows.numLinks, fun q hq => hown q (hgrows.link l hlt q hq)⟩
    · exact hnew
  closing p hp := (hclosing p hp).elim (fun hold => hgrows.closing p (hs.closing p hold)) id

/-! ## One change -/

/-- What two changes keep. -/
theorem Grows.trans {u : Processes T E} (h : Grows s t) (h' : Grows t u) : Grows s u where
  size := h.size.trans h'.size
  numLinks := h.numLinks.trans h'.numLinks
  closing p hp := h'.closing p (h.closing p hp)
  closed p hp := h'.closed p (h.closed p hp)
  closeErr p hp := (h'.closeErr p (h.closed p hp)).trans (h.closeErr p hp)
  hidden p hp := (h'.hidden p (hp.trans_le h.size)).trans (h.hidden p hp)
  link l hl q hq := h.link l hl q (h'.link l (hl.trans_le h.numLinks) q hq)

/-- The goroutines do not matter. -/
theorem grows_of_eq (hsize : t.size = s.size) (hproc : t.proc = s.proc)
    (hnum : t.numLinks = s.numLinks) (hlink : t.link = s.link) : Grows s t where
  size := hsize.ge
  numLinks := hnum.ge
  closing p hp := by rwa [hproc]
  closed p hp := by rwa [hproc]
  closeErr p hp := by rw [hproc]
  hidden p hp := by rw [hproc]
  link l hl q hq := by rwa [← hlink]

/-- A change of one process that closes nothing again. -/
theorem grows_modify {p : ℕ} {f : Process T E → Process T E}
    (hclosing : (s.proc p).closing → (f (s.proc p)).closing)
    (hclosed : (s.proc p).closed → (f (s.proc p)).closed)
    (herr : (s.proc p).closed → (f (s.proc p)).closeErr = (s.proc p).closeErr)
    (hhidden : (f (s.proc p)).hidden = (s.proc p).hidden) : Grows s (s.modify p f) where
  size := le_rfl
  numLinks := le_rfl
  closing q hq := by
    rcases eq_or_ne q p with rfl | hne <;> simp_all [modify]
  closed q hq := by
    rcases eq_or_ne q p with rfl | hne <;> simp_all [modify]
  closeErr q hq := by
    rcases eq_or_ne q p with rfl | hne <;> simp_all [modify]
  hidden q hq := by
    rcases eq_or_ne q p with rfl | hne <;> simp_all [modify]
  link l hl q hq := hq

/-- A process is made. -/
theorem Sound.grows_add (hs : Sound s) (tf : Option T) (hidden : Bool) :
    Grows s (s.add tf hidden) where
  size := Nat.le_succ _
  numLinks := le_rfl
  closing p hp := by
    rcases eq_or_ne p s.size with rfl | hne
    · simp [hs.fresh s.size le_rfl, newProcess] at hp
    · simpa [add, hne] using hp
  closed p hp := by
    rcases eq_or_ne p s.size with rfl | hne
    · simp [hs.fresh s.size le_rfl, newProcess] at hp
    · simpa [add, hne] using hp
  closeErr p hp := by
    rcases eq_or_ne p s.size with rfl | hne
    · simp [hs.fresh s.size le_rfl, newProcess] at hp
    · simp [add, hne]
  hidden p hp := by simp [add, hp.ne]
  link l hl q hq := hq

/-- A link is made. -/
theorem grows_addLink (p q : ℕ) (child wait : Bool) : Grows s (s.addLink p q child wait) where
  size := le_rfl
  numLinks := Nat.le_succ _
  closing r hr := by
    rcases eq_or_ne r p with rfl | hne <;> simp_all [addLink]
  closed r hr := by
    rcases eq_or_ne r p with rfl | hne <;> simp_all [addLink]
  closeErr r hr := by
    rcases eq_or_ne r p with rfl | hne <;> simp_all [addLink]
  hidden r hr := by
    rcases eq_or_ne r p with rfl | hne <;> simp_all [addLink]
  link l hl r hr := by simpa [addLink, hl.ne] using hr

/-- What a goroutine is about to do after a silent move. -/
theorem Silent.sound {g g' : Goroutine E} (hg : Silent s g g') (h : g.Sound s) :
    g'.Sound s := by
  cases hg with
  | join hclosing => exact ⟨h.1, hclosing, h.2⟩
  | next => exact h
  | @after p k hclosed =>
    cases k with
    | none => exact ⟨hclosed, rfl⟩
    | some c => exact h.2.2 c rfl
  | found hl hclosed =>
    rintro l' hl'
    cases List.mem_singleton.mp hl'
    refine ⟨h, fun q hq => ?_⟩
    cases hl.symm.trans hq
    exact hclosed
  | cleared => trivial
  | already | complete => exact ⟨(known_iff.mp h).1, fun c hc => by cases hc⟩
  | search | await | awaited => exact h
  | returns =>
    refine ⟨h.2.1, fun c hc => ?_⟩
    cases hc
    exact h.1

/-- Only the goroutines change. -/
theorem Sound.of_threads (hs : Sound s) {ts : List (Goroutine E)} {b : Bool}
    (hts : ∀ g ∈ ts, g ∈ s.threads ∨ g.Sound s) :
    Sound { s with threads := ts, panicked := b } := by
  have hgrows : Grows s { s with threads := ts, panicked := b } := grows_of_eq rfl rfl rfl rfl
  exact hs.of_grows hgrows (fun g hg => (hts g hg).imp_right hgrows.sound) hs.fresh
    (fun _ _ => .inl) (fun _ _ => .inl) (fun _ _ => .inl) (fun _ => .inl)

/-- One process changes, not its links. -/
theorem Sound.modify (hs : Sound s) {p : ℕ} {f : Process T E → Process T E} (hp : p < s.size)
    (hgrows : Grows s (s.modify p f)) (hchildren : (f (s.proc p)).children ⊆ (s.proc p).children)
    (hwaiters : (f (s.proc p)).waiters = (s.proc p).waiters)
    (hclosed : (f (s.proc p)).closed → (s.proc p).closed ∨ (f (s.proc p)).closing) :
    Sound (s.modify p f) := by
  refine hs.of_grows hgrows (fun _ => .inl) ?_ (fun _ _ => .inl) ?_ ?_ ?_
  · intro q hq
    have hne : q ≠ p := (hp.trans_le hq).ne'
    simpa [Processes.modify, hne] using hs.fresh q hq
  · intro q l hl
    rcases eq_or_ne q p with rfl | hne
    · exact .inl (hchildren (by simpa [Processes.modify] using hl))
    · exact .inl (by simpa [Processes.modify, hne] using hl)
  · intro q l hl
    rcases eq_or_ne q p with rfl | hne
    · exact .inl (by simpa [Processes.modify, hwaiters] using hl)
    · exact .inl (by simpa [Processes.modify, hne] using hl)
  · intro q hq
    rcases eq_or_ne q p with rfl | hne
    · simpa [Processes.modify] using hclosed (by simpa [Processes.modify] using hq)
    · exact .inl (by simpa [Processes.modify, hne] using hq)

/-- A process is made. -/
theorem Sound.add (hs : Sound s) (tf : Option T) (hidden : Bool) : Sound (s.add tf hidden) := by
  refine hs.of_grows (hs.grows_add tf hidden) (fun _ => .inl) ?_ (fun _ _ => .inl) ?_ ?_ ?_
  · intro p hp
    have hlt : s.size < p := hp
    simpa [Processes.add, hlt.ne'] using hs.fresh p hlt.le
  all_goals
    intro p
    rcases eq_or_ne p s.size with rfl | hne
  · simp [Processes.add, newProcess]
  · exact fun l hl => .inl (by simpa [Processes.add, hne] using hl)
  · simp [Processes.add, newProcess]
  · exact fun l hl => .inl (by simpa [Processes.add, hne] using hl)
  · simp [Processes.add, newProcess]
  · exact fun hp => .inl (by simpa [Processes.add, hne] using hp)

/-- A link is made. -/
theorem Sound.addLink (hs : Sound s) {p q : ℕ} {child wait : Bool} (hp : p < s.size)
    (hq : q < s.size) (hknown : child = true → (s.proc q).hidden = false) :
    Sound (s.addLink p q child wait) := by
  have hgrows : Grows s (s.addLink p q child wait) := grows_addLink p q child wait
  have hhidden : ∀ r, ((s.addLink p q child wait).proc r).hidden = (s.proc r).hidden := by
    intro r
    rcases eq_or_ne r p with rfl | hne <;> simp [Processes.addLink, *]
  refine hs.of_grows hgrows ?_ ?_ ?_ ?_ ?_ ?_
  · intro g hg
    rcases List.mem_append.mp hg with hold | hnew
    · exact .inl hold
    · cases List.mem_singleton.mp hnew
      exact .inr (Nat.lt_succ_self _)
  · intro r hr
    have hne : r ≠ p := (hp.trans_le hr).ne'
    simpa [Processes.addLink, hne] using hs.fresh r hr
  · intro l r hl
    rcases eq_or_ne l s.numLinks with rfl | hne
    · have hr : q = r := by simpa [Processes.addLink] using hl
      exact .inr ⟨Nat.lt_succ_self _, hr ▸ hq⟩
    · exact .inl (by simpa [Processes.addLink, hne] using hl)
  · intro r l hl
    rcases eq_or_ne r p with rfl | hne
    · cases child with
      | false => exact .inl (by simpa [Processes.addLink] using hl)
      | true =>
        simp only [Processes.addLink, if_true, Function.update_self, List.mem_append,
          List.mem_singleton] at hl
        refine hl.imp_right ?_
        rintro rfl
        refine ⟨Nat.lt_succ_self _, fun r hr => ?_⟩
        have hqr : q = r := by simpa [Processes.addLink] using hr
        rw [hhidden, ← hqr]
        exact hknown rfl
    · exact .inl (by simpa [Processes.addLink, hne] using hl)
  · intro r l hl
    rcases eq_or_ne r p with rfl | hne
    · exact .inl (by simpa [Processes.addLink] using hl)
    · exact .inl (by simpa [Processes.addLink, hne] using hl)
  · intro r hr
    rcases eq_or_ne r p with rfl | hne
    · exact .inl (by simpa [Processes.addLink] using hr)
    · exact .inl (by simpa [Processes.addLink, hne] using hr)

/-- A goroutine goes through the loop of `doClose`. -/
theorem Sound.sweep (hs : Sound s) {i p : ℕ} {k : Option ℕ} (hp : p < s.size)
    (hclosing : (s.proc p).closing) (hk : ∀ c, k = some c → s.Known c) :
    Grows s (s.sweep i p k) ∧ Sound (s.sweep i p k) := by
  have hgrows : Grows s (s.modify p fun P =>
      { P with children := [], waitfors := [], locked := P.waitfors.isEmpty }) :=
    grows_modify id id (fun _ => rfl) rfl
  have hsound := hs.modify hp hgrows (List.nil_subset _) rfl .inl
  refine ⟨hgrows.trans (grows_of_eq rfl rfl rfl rfl), hsound.of_threads fun g hg => ?_⟩
  rcases List.mem_append.mp hg with hg | hg
  · refine (List.mem_or_eq_of_mem_set hg).imp_right ?_
    rintro rfl
    cases (s.proc p).waitfors with
    | nil => exact hgrows.sound (show Goroutine.Sound s (.tearing p k) from ⟨hp, hclosing, hk⟩)
    | cons w wf =>
      exact hgrows.sound (show Goroutine.Sound s (.waiting p w wf k) from ⟨hp, hclosing, hk⟩)
  · obtain ⟨c, hc, rfl⟩ := List.mem_map.mp hg
    obtain ⟨l, -, hl⟩ := List.mem_filterMap.mp hc
    exact .inr ⟨(hs.link l c hl).2, fun c hc => by cases hc⟩

/-- Every step of a goroutine keeps what is sound. -/
theorem Sound.step (hs : Sound s) (h : Step s t) : Grows s t ∧ Sound t := by
  cases h with
  | silent hi hg =>
    refine ⟨grows_of_eq rfl rfl rfl rfl, hs.of_threads fun g hg' => ?_⟩
    refine (List.mem_or_eq_of_mem_set hg').imp_right ?_
    rintro rfl
    exact hg.sound (hs.threads _ (List.mem_of_getElem? hi))
  | @begin i p k hi hfree hopen =>
    obtain ⟨hp, hk⟩ := hs.threads _ (List.mem_of_getElem? hi)
    have hgrows : Grows s (s.modify p fun P => { P with closing := true }) :=
      grows_modify (fun _ => rfl) id (fun _ => rfl) rfl
    have hsound := hs.modify hp hgrows (List.Subset.refl _) rfl (fun _ => .inr rfl)
    obtain ⟨hgrows', hsound'⟩ := hsound.sweep (i := i) (k := k) hp (by simp [Processes.modify])
      fun c hc => hgrows.known (hk c hc)
    exact ⟨hgrows.trans hgrows', hsound'⟩
  | resume hi hfree hw =>
    obtain ⟨hp, hclosing, hk⟩ := hs.threads _ (List.mem_of_getElem? hi)
    exact hs.sweep hp hclosing hk
  | @added i l c hi hl hopen =>
    have hgrows : Grows s (s.modify c fun P => { P with waiters := P.waiters ++ [l] }) :=
      grows_modify id id (fun _ => rfl) rfl
    have hlt : l < s.numLinks := hs.threads _ (List.mem_of_getElem? hi)
    refine ⟨hgrows.trans (grows_of_eq rfl rfl rfl rfl), hs.of_grows
      (hgrows.trans (grows_of_eq rfl rfl rfl rfl)) ?_ ?_ (fun _ _ => .inl) ?_ ?_ ?_⟩
    · intro g hg
      refine (List.mem_or_eq_of_mem_set hg).imp_right ?_
      rintro rfl
      trivial
    · intro q hq
      have hne : q ≠ c := ((hs.link l c hl).2.trans_le hq).ne'
      simpa [Processes.modify, Processes.goto, hne] using hs.fresh q hq
    all_goals
      intro q
      rcases eq_or_ne q c with rfl | hne
    · exact fun l hl => .inl (by simpa [Processes.modify, Processes.goto] using hl)
    · exact fun l hl => .inl (by simpa [Processes.modify, Processes.goto, hne] using hl)
    · intro l' hl'
      simp only [Processes.modify, Processes.goto, Function.update_self, List.mem_append,
        List.mem_singleton] at hl'
      refine hl'.imp_right ?_
      rintro rfl
      exact ⟨hlt, fun r hr => Option.some.inj (hr.symm.trans hl)⟩
    · exact fun l hl => .inl (by simpa [Processes.modify, Processes.goto, hne] using hl)
    · exact fun hq => .inl (by simpa [Processes.modify, Processes.goto] using hq)
    · exact fun hq => .inl (by simpa [Processes.modify, Processes.goto, hne] using hq)
  | @clear i l ls hi =>
    have hclear : ∀ l' q, Function.update s.link l none l' = some q → s.link l' = some q := by
      intro l' q hq
      rcases eq_or_ne l' l with rfl | hne
      · simp at hq
      · simpa [hne] using hq
    have hgrows : Grows s ({ s with link := Function.update s.link l none }.goto i (.clear ls)) :=
      ⟨le_rfl, le_rfl, fun _ => id, fun _ => id, fun _ _ => rfl, fun _ _ => rfl,
        fun l' _ => hclear l'⟩
    refine ⟨hgrows, hs.of_grows hgrows ?_ hs.fresh (fun l' q hq => .inl (hclear l' q hq))
      (fun _ _ => .inl) (fun _ _ => .inl) (fun _ => .inl)⟩
    intro g hg
    refine (List.mem_or_eq_of_mem_set hg).imp_right ?_
    rintro rfl
    have hold := hs.threads _ (List.mem_of_getElem? hi)
    exact hgrows.sound (show Goroutine.Sound s (.clear ls) from
      fun l' hl' => hold l' (List.mem_cons_of_mem _ hl'))
  | @finish i p k e hi hopen =>
    obtain ⟨hp, hclosing, hk⟩ := hs.threads _ (List.mem_of_getElem? hi)
    have hgrows : Grows s (s.modify p fun P =>
        { P with closeErr := e, closed := true, locked := false }) :=
      grows_modify id (fun _ => rfl) (fun hclosed => by simp [hopen] at hclosed) rfl
    have hsound := hs.modify hp hgrows (List.Subset.refl _) rfl (fun _ => .inr hclosing)
    refine ⟨hgrows.trans (grows_of_eq rfl rfl rfl rfl), hsound.of_threads fun g hg => ?_⟩
    rcases List.mem_append.mp hg with hg | hnew
    · refine (List.mem_or_eq_of_mem_set hg).imp_right ?_
      rintro rfl
      cases k with
      | none => exact ⟨by simp [Processes.modify], by simp [Processes.modify]⟩
      | some c => exact hgrows.known (hk c rfl)
    · cases List.mem_singleton.mp hnew
      refine .inr fun l hl => ?_
      obtain ⟨hlt, hown⟩ := hs.waiters p l hl
      refine ⟨hlt, fun q hq => ?_⟩
      cases hown q hq
      simp [Processes.modify]
  | crash hi hg =>
    refine ⟨grows_of_eq rfl rfl rfl rfl, hs.of_threads fun g hg' => ?_⟩
    refine (List.mem_or_eq_of_mem_set hg').imp_right ?_
    rintro rfl
    trivial

/-- Every move keeps what is sound. -/
theorem Sound.move (hs : Sound s) (h : Move s t) : Grows s t ∧ Sound t := by
  cases h with
  | add tf => exact ⟨hs.grows_add tf false, hs.add tf false⟩
  | @addFunction c hc hknown =>
    have hgrows := hs.grows_add none true
    have hadd := hs.add none true
    refine ⟨hgrows.trans (grows_of_eq rfl rfl rfl rfl), hadd.of_threads fun g hg => ?_⟩
    refine (List.mem_append.mp hg).imp_right fun hnew => ?_
    cases List.mem_singleton.mp hnew
    refine ⟨hgrows.known (known_iff.mpr ⟨hc, hknown⟩), Nat.lt_succ_self _, ?_⟩
    simp [Processes.add, newProcess]
  | close hp hknown =>
    refine ⟨grows_of_eq rfl rfl rfl rfl, hs.of_threads fun g hg => ?_⟩
    refine (List.mem_append.mp hg).imp_right fun hnew => ?_
    cases List.mem_singleton.mp hnew
    exact ⟨hp, fun c hc => by cases hc⟩
  | closeAfterChildren hp hknown =>
    refine ⟨grows_of_eq rfl rfl rfl rfl, hs.of_threads fun g hg => ?_⟩
    refine (List.mem_append.mp hg).imp_right fun hnew => ?_
    cases List.mem_singleton.mp hnew
    exact known_iff.mpr ⟨hp, hknown⟩
  | addLink child wait hp hq hknown =>
    exact ⟨grows_addLink _ _ child wait, hs.addLink hp hq hknown⟩
  | @setTeardown p tf hp =>
    have hgrows : Grows s (s.modify p fun P => { P with teardown := tf }) :=
      grows_modify id id (fun _ => rfl) rfl
    exact ⟨hgrows, hs.modify hp hgrows (List.Subset.refl _) rfl .inl⟩
  | @panic p hp hclosed =>
    have hgrows : Grows s (s.modify p fun P => { P with locked := true }) :=
      grows_modify id id (fun _ => rfl) rfl
    exact ⟨hgrows.trans (grows_of_eq rfl rfl rfl rfl),
      (hs.modify hp hgrows (List.Subset.refl _) rfl .inl).of_threads fun _ => .inl⟩
  | step hstep => exact hs.step hstep

end Processes

end GoBlocks
