import GoBlocks.Lib.Interleaving
import Mathlib.Data.Finset.Card

/-!
# Objects behind a readers-writer lock

The methods of an object run in several steps over the state of the object. Every call
takes the lock, for reading or for writing, runs its method, and gives the lock back. If
the methods that take the lock for reading change nothing, then the calls of any number of
threads behave as if each of them ran in one step, at the moment when it gives the lock
back.
-/

namespace GoBlocks

/-- The methods of an object with states `S`: operations `Op` with replies `R`, and the
steps, with labels `A`, of a running method with local states `P`. -/
structure Methods (Op R S P A : Type*) where
  /-- Where the method of an operation begins. -/
  start : Op → P
  /-- One step of a method. -/
  step : P × S → A → Option (P × S)
  /-- The reply, when the method has come to its end. -/
  result : P → Option R
  /-- The call takes the lock for writing. -/
  writes : Op → Bool

namespace Methods

variable {Op R S P A : Type*} (m : Methods Op R S P A)

/-- The method of the operation gets there if it runs alone. -/
def Reaches (s : S) (op : Op) (x : P × S) : Prop :=
  ∃ as, (LTS.ofFun m.step).Run (m.start op, s) as x

/-- The methods that take the lock for reading change nothing. -/
def ReadOnly : Prop := ∀ s op x, m.writes op = false → m.Reaches s op x → x.2 = s

/-- The methods that run alone have the replies and the effects of `sem`. -/
def Implements (sem : Op → S → R → S → Prop) : Prop :=
  ∀ s op p t r, m.Reaches s op (p, t) → m.result p = some r → sem op s r t

/-- A method that has not come to its end can take a step. -/
def Proceeds : Prop := ∀ s op x, m.Reaches s op x → m.result x.1 = none → ∃ a y, m.step x a = some y

variable {m}

/-- A method begins at its start. -/
theorem reaches_start (s : S) (op : Op) : m.Reaches s op (m.start op, s) := ⟨[], .nil _⟩

/-- A method that runs alone goes on by a step. -/
theorem Reaches.step {s : S} {op : Op} {x y : P × S} {a : A} (h : m.Reaches s op x)
    (hstep : m.step x a = some y) : m.Reaches s op y := by
  obtain ⟨as, has⟩ := h
  exact ⟨as ++ [a], has.snoc hstep⟩

end Methods

/-- An object with its lock. -/
structure Guarded (S : Type*) where
  /-- The state of the object. -/
  state : S
  /-- The number of calls that hold the lock for reading. -/
  readers : ℕ
  /-- Some call holds the lock for writing. -/
  writing : Bool

/-- Where a thread stands. -/
inductive GuardedPc (Op R P : Type*) where
  | idle
  /-- Called, waiting for the lock. -/
  | called (op : Op)
  /-- In the method, holding the lock. -/
  | inside (op : Op) (p : P)
  /-- About to return. -/
  | done (r : R)

/-- The steps of a thread. -/
inductive GuardedAct (Op R A : Type*) where
  | call (op : Op)
  /-- `Lock` or `RLock` returns. -/
  | lock
  /-- A step of the method. -/
  | step (a : A)
  /-- `Unlock` or `RUnlock` at the end of the method. -/
  | unlock
  | ret (r : R)

/-- Where a thread stands if the method runs in one step. -/
inductive CallPc (Op R : Type*) where
  | idle
  | called (op : Op)
  | done (r : R)

/-- The steps of a thread if the method runs in one step. -/
inductive CallAct (Op R : Type*) where
  | call (op : Op)
  /-- The call takes effect. -/
  | commit
  | ret (r : R)

variable {ι Op R S P A : Type*}

/-- A call that holds the lock has not taken effect. -/
def GuardedPc.abs : GuardedPc Op R P → CallPc Op R
  | .idle => .idle
  | .called op | .inside op _ => .called op
  | .done r => .done r

/-- A call takes effect when it gives the lock back. -/
def GuardedAct.visible : ι × GuardedAct Op R A → Option (ι × CallAct Op R)
  | (i, .call op) => some (i, .call op)
  | (i, .unlock) => some (i, .commit)
  | (i, .ret r) => some (i, .ret r)
  | _ => none

namespace Guarded

/-- Take the lock. -/
def lock (g : Guarded S) (writes : Bool) : Option (Guarded S) :=
  if g.writing then none
  else if writes then if g.readers = 0 then some { g with writing := true } else none
  else some { g with readers := g.readers + 1 }

/-- Give the lock back. -/
def unlock (g : Guarded S) (writes : Bool) : Guarded S :=
  if writes then { g with writing := false } else { g with readers := g.readers - 1 }

/-- The program of a thread. -/
def next [DecidableEq R] (m : Methods Op R S P A) (g : Guarded S) :
    GuardedPc Op R P → GuardedAct Op R A → Option (Guarded S × GuardedPc Op R P)
  | .idle, .call op => some (g, .called op)
  | .called op, .lock => (g.lock (m.writes op)).map fun g' => (g', .inside op (m.start op))
  | .inside op p, .step a =>
    (m.step (p, g.state) a).map fun x => ({ g with state := x.2 }, .inside op x.1)
  | .inside op p, .unlock => (m.result p).map fun r => (g.unlock (m.writes op), .done r)
  | .done r, .ret r' => if r = r' then some (g, .idle) else none
  | _, _ => none

/-- Any number of threads that call the methods. -/
def lts [DecidableEq ι] [DecidableEq R] (m : Methods Op R S P A) :
    LTS (Threads ι (Guarded S) (GuardedPc Op R P)) (ι × GuardedAct Op R A) :=
  Threads.lts (next m)

/-- Nobody has called anything. -/
def start (ι Op R P : Type*) (s : S) : Threads ι (Guarded S) (GuardedPc Op R P) :=
  ⟨⟨s, 0, false⟩, fun _ => .idle⟩

/-- Any number of threads whose calls take effect in one step. -/
def atomic [DecidableEq ι] (sem : Op → S → R → S → Prop) :
    LTS (Threads ι S (CallPc Op R)) (ι × CallAct Op R) where
  step s l t :=
    match l with
    | (i, .call op) => s.loc i = .idle ∧ s.set i (s.shared, .called op) = t
    | (i, .commit) => ∃ op r x, s.loc i = .called op ∧ sem op s.shared r x ∧
      s.set i (x, .done r) = t
    | (i, .ret r) => s.loc i = .done r ∧ s.set i (s.shared, .idle) = t

/-- If one object can do in one step whatever the other does, so can threads that call it. -/
theorem atomic_simulates [DecidableEq ι] {T : Type*} {sem : Op → S → R → S → Prop}
    {sem' : Op → T → R → T → Prop} {Q : S → T → Prop}
    (h : ∀ op c r c' d, Q c d → sem op c r c' → ∃ d', sem' op d r d' ∧ Q c' d') :
    LTS.Simulates (atomic (ι := ι) sem) (atomic sem') fun u v =>
      Q u.shared v.shared ∧ v.loc = u.loc := by
  rintro u v ⟨i, a⟩ u' ⟨hQ, hloc⟩ hstep
  cases a with
  | call op =>
    obtain ⟨hi, rfl⟩ := hstep
    refine ⟨v.set i (v.shared, .called op), ⟨by rw [hloc, hi], rfl⟩, hQ, ?_⟩
    simp only [Threads.set, hloc]
  | commit =>
    obtain ⟨op, r, c', hi, hsem, rfl⟩ := hstep
    obtain ⟨d', hsem', hQ'⟩ := h op _ r c' _ hQ hsem
    refine ⟨v.set i (d', .done r), ⟨op, r, d', by rw [hloc, hi], hsem', rfl⟩, hQ', ?_⟩
    simp only [Threads.set, hloc]
  | ret r =>
    obtain ⟨hi, rfl⟩ := hstep
    refine ⟨v.set i (v.shared, .idle), ⟨by rw [hloc, hi], rfl⟩, hQ, ?_⟩
    simp only [Threads.set, hloc]

/-! ## Exclusion -/

/-- The threads with a lock stand where the threads with atomic calls stand: a call that
holds the lock has run its method alone, from the state in which it took the lock. -/
structure Rel (m : Methods Op R S P A) (s : Threads ι (Guarded S) (GuardedPc Op R P))
    (u : Threads ι S (CallPc Op R)) : Prop where
  loc : ∀ i, u.loc i = (s.loc i).abs
  reach : ∀ i op p, s.loc i = .inside op p → m.Reaches u.shared op (p, s.shared.state)
  state : s.shared.writing = false → s.shared.state = u.shared
  writing : ∀ i op p, s.loc i = .inside op p → m.writes op = s.shared.writing
  alone : s.shared.writing → ∃ i, (∃ op p, s.loc i = .inside op p) ∧
    ∀ j op p, s.loc j = .inside op p → j = i
  readers : ∃ rs : Finset ι, rs.card = s.shared.readers ∧
    ∀ i, i ∈ rs ↔ s.shared.writing = false ∧ ∃ op p, s.loc i = .inside op p

variable {m : Methods Op R S P A} {s : Threads ι (Guarded S) (GuardedPc Op R P)}
  {u : Threads ι S (CallPc Op R)}

/-- At first no call has been made. -/
theorem rel_start (s : S) : Rel m (start ι Op R P s) ⟨s, fun _ => .idle⟩ where
  loc _ := rfl
  reach _ _ _ h := by cases h
  state _ := rfl
  writing _ _ _ h := by cases h
  alone h := by cases h
  readers := ⟨∅, rfl, fun i => by simp [start]⟩

/-- No two calls are inside unless both only read. -/
theorem Rel.exclusive (h : Rel m s u) {i j : ι} {op op' : Op} {p p' : P} (hne : i ≠ j)
    (hi : s.loc i = .inside op p) (hj : s.loc j = .inside op' p') :
    m.writes op = false ∧ m.writes op' = false := by
  rw [h.writing i op p hi, h.writing j op' p' hj, and_self]
  by_contra hwriting
  obtain ⟨k, -, halone⟩ := h.alone (by simpa using hwriting)
  exact hne ((halone i op p hi).trans (halone j op' p' hj).symm)

/-- Nobody is inside if nobody holds the lock. -/
theorem Rel.not_inside (h : Rel m s u) (hfree : s.shared.writing = false)
    (hreaders : s.shared.readers = 0) (j : ι) (op : Op) (p : P) : s.loc j ≠ .inside op p := by
  intro hj
  obtain ⟨rs, hcard, hrs⟩ := h.readers
  rw [hreaders, Finset.card_eq_zero] at hcard
  have hmem := (hrs j).mpr ⟨hfree, op, p, hj⟩
  rw [hcard] at hmem
  cases hmem

variable [DecidableEq ι]

/-- A thread that is not inside moves on to a place that is not inside. -/
theorem Rel.move (h : Rel m s u) {i : ι} {q : GuardedPc Op R P}
    (hi : ∀ op p, s.loc i ≠ .inside op p) (hq : ∀ op p, q ≠ .inside op p) :
    Rel m (s.set i (s.shared, q)) (u.set i (u.shared, q.abs)) := by
  have hinside : ∀ j op p, (s.set i (s.shared, q)).loc j = .inside op p ↔
      s.loc j = .inside op p := by
    intro j op p
    rcases eq_or_ne j i with rfl | hne
    · simp [hi op p, hq op p]
    · simp [hne]
  refine ⟨fun j => ?_, fun j op p hj => ?_, h.state, fun j op p hj => ?_, fun hw => ?_, ?_⟩
  · rcases eq_or_ne j i with rfl | hne
    · simp
    · simpa [hne] using h.loc j
  · exact h.reach j op p ((hinside j op p).mp hj)
  · exact h.writing j op p ((hinside j op p).mp hj)
  · obtain ⟨k, ⟨op, p, hk⟩, halone⟩ := h.alone hw
    exact ⟨k, ⟨op, p, (hinside k op p).mpr hk⟩,
      fun j op p hj => halone j op p ((hinside j op p).mp hj)⟩
  · obtain ⟨rs, hcard, hrs⟩ := h.readers
    exact ⟨rs, hcard, fun j => by simp only [hrs j, hinside, Threads.set_shared]⟩

/-- What taking the lock needs and does. -/
theorem lock_eq_some_iff {g g' : Guarded S} {writes : Bool} : g.lock writes = some g' ↔
    g.writing = false ∧ (writes = true ∧ g.readers = 0 ∧ { g with writing := true } = g' ∨
      writes = false ∧ { g with readers := g.readers + 1 } = g') := by
  unfold lock
  cases g.writing <;> cases writes <;> simp

/-- A call takes the lock. -/
theorem Rel.lock (h : Rel m s u) {i : ι} {op : Op} {g : Guarded S} (hi : s.loc i = .called op)
    (hlock : s.shared.lock (m.writes op) = some g) :
    Rel m (s.set i (g, .inside op (m.start op))) u := by
  obtain ⟨hfree, hcases⟩ := lock_eq_some_iff.mp hlock
  have hloc : ∀ j, u.loc j = ((s.set i (g, .inside op (m.start op))).loc j).abs := by
    intro j
    rcases eq_or_ne j i with rfl | hne
    · rw [h.loc, hi, Threads.set_loc_self]
      rfl
    · rw [h.loc, Threads.set_loc_of_ne _ hne]
  have hstate := h.state hfree
  have hstart : m.Reaches u.shared op (m.start op, s.shared.state) := by
    rw [hstate]
    exact Methods.reaches_start _ op
  rcases hcases with ⟨hwrites, hreaders, rfl⟩ | ⟨hreads, rfl⟩
  · -- the lock is taken for writing, and nobody else is inside
    have hother : ∀ j op' p, (s.set i ({ s.shared with writing := true },
        .inside op (m.start op))).loc j = .inside op' p →
        j = i ∧ op' = op ∧ p = m.start op := by
      intro j op' p hj
      rcases eq_or_ne j i with rfl | hne
      · rw [Threads.set_loc_self] at hj
        cases hj
        exact ⟨rfl, rfl, rfl⟩
      · rw [Threads.set_loc_of_ne _ hne] at hj
        exact absurd hj (h.not_inside hfree hreaders j op' p)
    refine ⟨hloc, ?_, fun hw => (by cases hw), ?_, fun _ => ⟨i, ⟨op, m.start op, ?_⟩, ?_⟩, ∅, ?_,
      ?_⟩
    · intro j op' p hj
      obtain ⟨rfl, rfl, rfl⟩ := hother j op' p hj
      exact hstart
    · intro j op' p hj
      obtain ⟨rfl, rfl, rfl⟩ := hother j op' p hj
      exact hwrites
    · exact Threads.set_loc_self ..
    · exact fun j op' p hj => (hother j op' p hj).1
    · exact hreaders.symm
    · simp
  · -- the lock is taken for reading
    refine ⟨hloc, ?_, fun _ => hstate, ?_, fun hw => ?_, ?_⟩
    · intro j op' p hj
      rcases eq_or_ne j i with rfl | hne
      · rw [Threads.set_loc_self] at hj
        cases hj
        exact hstart
      · rw [Threads.set_loc_of_ne _ hne] at hj
        exact h.reach j op' p hj
    · intro j op' p hj
      rcases eq_or_ne j i with rfl | hne
      · rw [Threads.set_loc_self] at hj
        cases hj
        exact hreads.trans hfree.symm
      · rw [Threads.set_loc_of_ne _ hne] at hj
        exact h.writing j op' p hj
    · rw [Threads.set_shared, hfree] at hw
      cases hw
    · obtain ⟨rs, hcard, hrs⟩ := h.readers
      have hnotMem : i ∉ rs := by
        intro hmem
        obtain ⟨-, op', p, hi'⟩ := (hrs i).mp hmem
        rw [hi] at hi'
        cases hi'
      refine ⟨insert i rs, ?_, fun j => ?_⟩
      · rw [Finset.card_insert_of_notMem hnotMem, hcard]
        rfl
      · rw [Finset.mem_insert, hrs]
        rcases eq_or_ne j i with rfl | hne
        · simp [hfree]
        · simp [hne]

/-- A method takes a step. -/
theorem Rel.step (hread : m.ReadOnly) (h : Rel m s u) {i : ι} {op : Op} {p : P} {a : A}
    {x : P × S} (hi : s.loc i = .inside op p) (hstep : m.step (p, s.shared.state) a = some x) :
    Rel m (s.set i ({ s.shared with state := x.2 }, .inside op x.1)) u := by
  have hreach : m.Reaches u.shared op x := (h.reach i op p hi).step hstep
  have hinside : ∀ j, (∃ op' p', (s.set i ({ s.shared with state := x.2 },
      .inside op x.1)).loc j = .inside op' p') ↔ ∃ op' p', s.loc j = .inside op' p' := by
    intro j
    rcases eq_or_ne j i with rfl | hne
    · simp [hi]
    · simp [hne]
  refine ⟨fun j => ?_, fun j op' p' hj => ?_, fun hw => ?_, fun j op' p' hj => ?_, fun hw => ?_, ?_⟩
  · rcases eq_or_ne j i with rfl | hne
    · rw [h.loc, hi, Threads.set_loc_self]
      rfl
    · rw [h.loc, Threads.set_loc_of_ne _ hne]
  · rcases eq_or_ne j i with rfl | hne
    · rw [Threads.set_loc_self] at hj
      cases hj
      exact hreach
    · -- another call is inside, so that both only read
      rw [Threads.set_loc_of_ne _ hne] at hj
      obtain ⟨-, hreads⟩ := h.exclusive hne hj hi
      have hsame : x.2 = s.shared.state := by
        rw [hread _ op x hreads hreach, h.state (h.writing i op p hi ▸ hreads)]
      rw [Threads.set_shared, hsame]
      exact h.reach j op' p' hj
  · exact hread _ op x ((h.writing i op p hi).trans hw) hreach
  · rcases eq_or_ne j i with rfl | hne
    · rw [Threads.set_loc_self] at hj
      cases hj
      exact h.writing j op p hi
    · rw [Threads.set_loc_of_ne _ hne] at hj
      exact h.writing j op' p' hj
  · obtain ⟨k, hk, halone⟩ := h.alone hw
    refine ⟨k, (hinside k).mpr hk, fun j op' p' hj => ?_⟩
    obtain ⟨op'', p'', hj'⟩ := (hinside j).mp ⟨op', p', hj⟩
    exact halone j op'' p'' hj'
  · obtain ⟨rs, hcard, hrs⟩ := h.readers
    exact ⟨rs, hcard, fun j => by rw [hrs j, hinside j]; rfl⟩

/-- A call gives the lock back, and takes effect. -/
theorem Rel.unlock (h : Rel m s u) {i : ι} {op : Op} {p : P} {r : R}
    (hi : s.loc i = .inside op p) :
    Rel m (s.set i (s.shared.unlock (m.writes op), .done r))
      (u.set i (s.shared.state, .done r)) := by
  have hloc : ∀ j, (u.set i (s.shared.state, .done r)).loc j =
      ((s.set i (s.shared.unlock (m.writes op), .done r)).loc j).abs := by
    intro j
    rcases eq_or_ne j i with rfl | hne
    · simp [GuardedPc.abs]
    · simpa [hne] using h.loc j
  have hold : ∀ j op' p', (s.set i (s.shared.unlock (m.writes op), .done r)).loc j =
      .inside op' p' → j ≠ i ∧ s.loc j = .inside op' p' := by
    intro j op' p' hj
    rcases eq_or_ne j i with rfl | hne
    · rw [Threads.set_loc_self] at hj
      cases hj
    · exact ⟨hne, by rwa [Threads.set_loc_of_ne _ hne] at hj⟩
  cases hwrites : m.writes op with
  | true =>
    -- nobody else was inside
    have hw : s.shared.writing = true := (h.writing i op p hi).symm.trans hwrites
    have hnone : ∀ j op' p', (s.set i (s.shared.unlock true, .done r)).loc j ≠
        .inside op' p' := by
      intro j op' p' hj
      obtain ⟨hne, hj⟩ := hold j op' p' (hwrites ▸ hj)
      rw [(h.exclusive hne hj hi).2] at hwrites
      cases hwrites
    refine ⟨hwrites ▸ hloc, fun j op' p' hj => absurd hj (hnone j op' p'), fun _ => rfl,
      fun j op' p' hj => absurd hj (hnone j op' p'), fun hw => (by cases hw), ∅, ?_, ?_⟩
    · obtain ⟨rs, hcard, hrs⟩ := h.readers
      have hempty : rs = ∅ := Finset.eq_empty_of_forall_notMem fun j hj => by
        rw [((hrs j).mp hj).1] at hw
        cases hw
      rw [hempty] at hcard
      exact hcard
    · intro j
      simp [hnone]
  | false =>
    have hw : s.shared.writing = false := (h.writing i op p hi).symm.trans hwrites
    have hstate : s.shared.state = u.shared := h.state hw
    refine ⟨hwrites ▸ hloc, ?_, fun _ => rfl, ?_, fun hw' => ?_, ?_⟩
    · intro j op' p' hj
      obtain ⟨-, hj⟩ := hold j op' p' (hwrites ▸ hj)
      have hreach := h.reach j op' p' hj
      rw [← hstate] at hreach
      exact hreach
    · intro j op' p' hj
      obtain ⟨-, hj⟩ := hold j op' p' (hwrites ▸ hj)
      exact h.writing j op' p' hj
    · rw [show ((s.set i (s.shared.unlock false, .done r)).shared.writing) = s.shared.writing
        from rfl, hw] at hw'
      cases hw'
    · obtain ⟨rs, hcard, hrs⟩ := h.readers
      have hmem : i ∈ rs := (hrs i).mpr ⟨hw, op, p, hi⟩
      refine ⟨rs.erase i, ?_, fun j => ?_⟩
      · rw [Finset.card_erase_of_mem hmem, hcard]
        rfl
      · rw [Finset.mem_erase, hrs]
        rcases eq_or_ne j i with rfl | hne
        · simp
        · simp [hne, Guarded.unlock]

/-! ## Runs -/

variable [DecidableEq R]

/-- A step of a thread with a lock is a step of it with atomic calls, or none. -/
theorem Rel.next (hread : m.ReadOnly) {sem : Op → S → R → S → Prop} (himp : m.Implements sem)
    {t : Threads ι (Guarded S) (GuardedPc Op R P)} {l : ι × GuardedAct Op R A} (h : Rel m s u)
    (hstep : (lts m).step s l t) :
    (∀ l', GuardedAct.visible l = some l' → ∃ u', (atomic sem).step u l' u' ∧ Rel m t u') ∧
      (GuardedAct.visible l = none → Rel m t u) := by
  obtain ⟨i, a⟩ := l
  obtain ⟨x, hx, rfl⟩ := Threads.step_iff.mp hstep
  cases hi : s.loc i with
  | idle =>
    rw [hi] at hx
    cases a with
    | call op =>
      cases hx
      refine ⟨fun l' hl' => ?_, fun hl => by cases hl⟩
      cases hl'
      exact ⟨_, ⟨by rw [h.loc, hi]; rfl, rfl⟩, h.move (by simp [hi]) (by simp)⟩
    | _ => cases hx
  | called op =>
    rw [hi] at hx
    cases a with
    | lock =>
      obtain ⟨g, hg, rfl⟩ := Option.map_eq_some_iff.mp hx
      exact ⟨fun l' hl' => (by cases hl'), fun _ => h.lock hi hg⟩
    | _ => cases hx
  | inside op p =>
    rw [hi] at hx
    cases a with
    | step a =>
      obtain ⟨y, hy, rfl⟩ := Option.map_eq_some_iff.mp hx
      exact ⟨fun l' hl' => (by cases hl'), fun _ => h.step hread hi hy⟩
    | unlock =>
      obtain ⟨r, hr, rfl⟩ := Option.map_eq_some_iff.mp hx
      refine ⟨fun l' hl' => ?_, fun hl => by cases hl⟩
      cases hl'
      have hsem := himp _ op p _ r (h.reach i op p hi) hr
      exact ⟨_, ⟨op, r, _, by rw [h.loc, hi]; rfl, hsem, rfl⟩, h.unlock hi⟩
    | _ => cases hx
  | done r =>
    rw [hi] at hx
    cases a with
    | ret r' =>
      obtain ⟨rfl, hx'⟩ := Option.ite_none_right_eq_some.mp hx
      cases hx'
      refine ⟨fun l' hl' => ?_, fun hl => by cases hl⟩
      cases hl'
      exact ⟨_, ⟨by rw [h.loc, hi]; rfl, rfl⟩, h.move (by simp [hi]) (by simp)⟩
    | _ => cases hx

/-- Along every run, the calls, the replies and the order in which calls give the lock back
are those of calls that take effect in one step. -/
theorem exists_atomic_run (hread : m.ReadOnly) {sem : Op → S → R → S → Prop}
    (himp : m.Implements sem) {c : S} {ls : List (ι × GuardedAct Op R A)}
    (hrun : (lts m).Run (start ι Op R P c) ls s) :
    ∃ u, (atomic sem).Run ⟨c, fun _ => .idle⟩ (ls.filterMap GuardedAct.visible) u ∧ Rel m s u :=
  hrun.weakSimulate (Rel m) GuardedAct.visible
    (fun _ _ _ l' _ hR hstep hl => (hR.next hread himp hstep).1 l' hl)
    (fun _ _ _ _ hR hstep hl => (hR.next hread himp hstep).2 hl) (rel_start c)

/-- Some thread can go on with its call. -/
def Live (m : Methods Op R S P A) (s : Threads ι (Guarded S) (GuardedPc Op R P)) : Prop :=
  ∃ j a t, (∀ op, a ≠ .call op) ∧ (lts m).step s (j, a) t

/-- A thread with a step other than a call can go on. -/
theorem live_of_next {j : ι} {q : GuardedPc Op R P} {a : GuardedAct Op R A}
    {x : Guarded S × GuardedPc Op R P} (ha : ∀ op, a ≠ .call op) (hj : s.loc j = q)
    (hx : Guarded.next m s.shared q a = some x) : Live m s :=
  ⟨j, a, s.set j x, ha, Threads.step_iff.mpr ⟨x, hj ▸ hx, rfl⟩⟩

/-- A call that holds the lock can go on. -/
theorem Rel.live_of_inside (hproceeds : m.Proceeds) (h : Rel m s u) {j : ι} {op : Op} {p : P}
    (hj : s.loc j = .inside op p) : Live m s := by
  cases hr : m.result p with
  | some r =>
    exact live_of_next (a := .unlock) (by simp) hj (Option.map_eq_some_iff.mpr ⟨r, hr, rfl⟩)
  | none =>
    obtain ⟨a, y, hy⟩ := hproceeds _ op _ (h.reach j op p hj) hr
    exact live_of_next (a := .step a) (by simp) hj (Option.map_eq_some_iff.mpr ⟨y, hy, rfl⟩)

/-- If some thread is in a call, some thread can go on with its call. -/
theorem Rel.live (hproceeds : m.Proceeds) (h : Rel m s u) {i : ι} (hi : s.loc i ≠ .idle) :
    Live m s := by
  cases hloc : s.loc i with
  | idle => exact absurd hloc hi
  | inside op p => exact h.live_of_inside hproceeds hloc
  | done r => exact live_of_next (a := .ret r) (by simp) hloc (if_pos rfl)
  | called op =>
    by_cases hsome : ∃ j op' p, s.loc j = .inside op' p
    · obtain ⟨j, op', p, hj⟩ := hsome
      exact h.live_of_inside hproceeds hj
    · -- nobody is inside, so that the lock is free
      have hw : s.shared.writing = false := by
        by_contra hw
        obtain ⟨j, hj, -⟩ := h.alone (by simpa using hw)
        exact hsome ⟨j, hj⟩
      have hr : s.shared.readers = 0 := by
        obtain ⟨rs, hcard, hrs⟩ := h.readers
        rw [← hcard, Finset.card_eq_zero]
        exact Finset.eq_empty_of_forall_notMem fun j hj => hsome ⟨j, ((hrs j).mp hj).2⟩
      have hlock : ∃ g, s.shared.lock (m.writes op) = some g := by
        unfold Guarded.lock
        cases m.writes op <;> simp [hw, hr]
      obtain ⟨g, hg⟩ := hlock
      exact live_of_next (a := .lock) (by simp) hloc (Option.map_eq_some_iff.mpr ⟨g, hg, rfl⟩)

end Guarded

end GoBlocks
