import GoBlocks.Lib.Counting
import GoBlocks.Process.Invariant

/-!
# Who closes a process

Exactly one goroutine is in `doClose` of a process that is closing and not closed, and
it holds the mutex while the teardown function runs. A link loses its child only after
its `AddToChild`. The process for which a child of `Go` waits is closed only by the
goroutine that has run the function of the child.
-/

namespace GoBlocks

variable {T E : Type}

/-- The goroutine is in `doClose` of the process. -/
def Goroutine.Closes (p : ℕ) : Goroutine E → Bool
  | .waiting p' _ _ _ | .tearing p' _ => p' == p
  | _ => false

/-- The goroutine is in `AddToChild` of the link. -/
def Goroutine.Adds (l : ℕ) : Goroutine E → Bool
  | .addToChild l' => l' == l
  | _ => false

/-- The goroutine runs the function for which the process is kept open, or closes the
process. -/
def Goroutine.Holds (w : ℕ) : Goroutine E → Bool
  | .close p _ | .waiting p _ _ _ | .tearing p _ | .joined p _ | .body _ p => p == w
  | _ => false

namespace Processes

variable {s t : Processes T E}

/-! ## One goroutine closes -/

/-- Exactly one goroutine is in `doClose` of a process that is closing and not closed. -/
def ClosesOnce (s : Processes T E) : Prop :=
  ∀ p, s.threads.countP (Goroutine.Closes p) = ((s.proc p).closing && !(s.proc p).closed).toNat

/-- A silent move leaves `doClose` alone. -/
theorem Silent.closes {g g' : Goroutine E} (h : Silent s g g') (p : ℕ) :
    g'.Closes p = g.Closes p := by
  cases h with
  | @after p k => cases k <;> rfl
  | _ => rfl

/-- The goroutines that sweep starts are at the beginning of `Close`. -/
theorem countP_closers {q : Goroutine E → Bool} {cs : List ℕ}
    (hq : ∀ c ∈ cs, q (.close c none) = false) :
    (cs.map fun c => Goroutine.close c none).countP q = 0 := by
  simp only [List.countP_eq_zero, List.mem_map, forall_exists_index, and_imp,
    forall_apply_eq_imp_iff₂, Bool.not_eq_true]
  exact hq

/-- What a change of one process keeps of it, it keeps of all. -/
theorem modify_field {α : Type*} (π : Process T E → α) {p : ℕ} {f : Process T E → Process T E}
    (h : π (f (s.proc p)) = π (s.proc p)) (q : ℕ) : π ((s.modify p f).proc q) = π (s.proc q) := by
  rcases eq_or_ne q p with rfl | hne <;> simp [modify, *]

/-- What a link does not change. -/
theorem addLink_field {α : Type*} (π : Process T E → α) {p q : ℕ} {child wait : Bool}
    (h : ∀ P cs ws, π { P with children := cs, waitfors := ws } = π P) (r : ℕ) :
    π ((s.addLink p q child wait).proc r) = π (s.proc r) := by
  rcases eq_or_ne r p with rfl | hne <;> simp [addLink, *]

/-- What a new process has in common with one that is not made. -/
theorem Sound.add_field {α : Type*} (hs : Sound s) (π : Process T E → α) {tf : Option T}
    {hidden : Bool} (h : π (newProcess E tf hidden) = π (newProcess E none false)) (p : ℕ) :
    π ((s.add tf hidden).proc p) = π (s.proc p) := by
  rcases eq_or_ne p s.size with rfl | hne
  · simp [Processes.add, hs.fresh s.size le_rfl, h]
  · simp [Processes.add, hne]

/-- What a sweep does not change. -/
theorem sweep_field {α : Type*} (π : Process T E → α) {i p : ℕ} {k : Option ℕ}
    (h : ∀ P cs ws b, π { P with children := cs, waitfors := ws, locked := b } = π P) (q : ℕ) :
    π ((s.sweep i p k).proc q) = π (s.proc q) := by
  rcases eq_or_ne q p with rfl | hne <;> simp [sweep, spawn, goto, modify, *]

/-- The goroutines after a sweep. -/
theorem countP_sweep {q : Goroutine E → Bool} {i p : ℕ} {k : Option ℕ} {g : Goroutine E}
    (hi : s.threads[i]? = some g)
    (hq : ∀ l ∈ (s.proc p).children, ∀ c, s.link l = some c → q (.close c none) = false) :
    (s.sweep i p k).threads.countP q + (q g).toNat =
      s.threads.countP q + (q (.swept p k (s.proc p).waitfors)).toNat := by
  have hclosers : (((s.proc p).children.filterMap s.link).map fun c =>
      Goroutine.close (E := E) c none).countP q = 0 := by
    refine countP_closers fun c hc => ?_
    obtain ⟨l, hl, hlink⟩ := List.mem_filterMap.mp hc
    exact hq l hl c hlink
  rw [← countP_set_add q hi]
  simp only [sweep, spawn, goto, modify, List.countP_append, hclosers, Nat.add_zero]

/-- A goroutine is replaced by another one that counts the same. -/
theorem countP_goto {q : Goroutine E → Bool} {i : ℕ} {g g' : Goroutine E}
    (hi : s.threads[i]? = some g) (hg : q g' = q g) :
    (s.goto i g').threads.countP q = s.threads.countP q := by
  have hcount := countP_set_add q hi g'
  rw [hg] at hcount
  exact Nat.add_right_cancel hcount

/-- Nothing begins to close or is closed, and as many goroutines are in `doClose`. -/
theorem ClosesOnce.of_eq (h : ClosesOnce s)
    (hclosing : ∀ p, (t.proc p).closing = (s.proc p).closing)
    (hclosed : ∀ p, (t.proc p).closed = (s.proc p).closed)
    (hthreads : ∀ p, t.threads.countP (Goroutine.Closes p) =
      s.threads.countP (Goroutine.Closes p)) : ClosesOnce t := by
  intro p
  rw [hthreads, hclosing, hclosed]
  exact h p

/-- A process changes in something else. -/
theorem ClosesOnce.modify (h : ClosesOnce s) {p : ℕ} {f : Process T E → Process T E}
    (hclosing : (f (s.proc p)).closing = (s.proc p).closing)
    (hclosed : (f (s.proc p)).closed = (s.proc p).closed) : ClosesOnce (s.modify p f) :=
  h.of_eq (modify_field (·.closing) hclosing) (modify_field (·.closed) hclosed) fun _ => rfl

/-- A goroutine goes on and neither enters nor leaves `doClose`. -/
theorem ClosesOnce.goto (h : ClosesOnce s) {i : ℕ} {g g' : Goroutine E}
    (hi : s.threads[i]? = some g) (hg : ∀ p, g'.Closes p = g.Closes p) : ClosesOnce (s.goto i g') :=
  h.of_eq (fun _ => rfl) (fun _ => rfl) fun p => countP_goto hi (hg p)

/-- A goroutine is started outside of `doClose`. -/
theorem ClosesOnce.spawn (h : ClosesOnce s) {g : Goroutine E} (hg : ∀ p, g.Closes p = false) :
    ClosesOnce (s.spawn [g]) :=
  h.of_eq (fun _ => rfl) (fun _ => rfl) fun p => by simp [Processes.spawn, hg p]

/-- A goroutine in `doClose` is the only one, and the process is closing and not closed. -/
theorem ClosesOnce.of_mem (h : ClosesOnce s) {g : Goroutine E} {p : ℕ} (hg : g ∈ s.threads)
    (hp : g.Closes p) : s.threads.countP (Goroutine.Closes p) = 1 ∧ (s.proc p).closing = true ∧
      (s.proc p).closed = false := by
  have hpos : 0 < s.threads.countP (Goroutine.Closes p) := List.countP_pos_iff.mpr ⟨g, hg, hp⟩
  rw [h p] at hpos ⊢
  cases hclosing : (s.proc p).closing <;> cases hclosed : (s.proc p).closed <;>
    simp_all

/-- A goroutine goes through the loop of `doClose` of `p`. -/
theorem ClosesOnce.sweep {i p : ℕ} {k : Option ℕ} {g : Goroutine E} (hi : s.threads[i]? = some g)
    (hother : ∀ q, q ≠ p → g.Closes q = false ∧
      s.threads.countP (Goroutine.Closes q) = ((s.proc q).closing && !(s.proc q).closed).toNat)
    (hclosing : (s.proc p).closing) (hopen : (s.proc p).closed = false)
    (hcount : s.threads.countP (Goroutine.Closes p) = (g.Closes p).toNat) :
    ClosesOnce (s.sweep i p k) := by
  intro q
  have hsweep := countP_sweep (q := Goroutine.Closes q) (p := p) (k := k) hi fun _ _ _ _ => rfl
  have hswept : Goroutine.Closes q (.swept p k (s.proc p).waitfors : Goroutine E) = (p == q) := by
    cases (s.proc p).waitfors <;> rfl
  rw [hswept] at hsweep
  rw [sweep_field (·.closing) fun _ _ _ _ => rfl, sweep_field (·.closed) fun _ _ _ _ => rfl]
  rcases eq_or_ne q p with rfl | hne
  · rw [hcount, beq_self_eq_true] at hsweep
    rw [hclosing, hopen]
    simp only [Bool.toNat_true, Bool.not_false, Bool.and_self] at hsweep ⊢
    omega
  · obtain ⟨hg, hold⟩ := hother q hne
    rw [hg, beq_false_of_ne hne.symm] at hsweep
    rw [← hold]
    exact hsweep

/-- A step of a goroutine leaves one of them in `doClose`. -/
theorem ClosesOnce.step (hs : Sound s) (h : ClosesOnce s) (hstep : Step s t) : ClosesOnce t := by
  cases hstep with
  | silent hi hg => exact h.goto hi hg.closes
  | clear hi => exact h.goto hi fun _ => rfl
  | @added i l c hi hl hopen =>
    exact (h.modify (p := c) (f := fun P => { P with waiters := P.waiters ++ [l] }) rfl rfl).goto hi
      fun _ => rfl
  | @begin i p k hi hfree hopen =>
    have hclosed : (s.proc p).closed = false := by
      by_contra hclosed
      rw [hs.closing p (by simpa using hclosed)] at hopen
      cases hopen
    refine ClosesOnce.sweep (g := .close p k) hi (fun q hne => ?_) ?_ ?_ ?_
    · simpa [Processes.modify, hne, Goroutine.Closes] using h q
    · simp [Processes.modify]
    · simpa [Processes.modify] using hclosed
    · simpa [Processes.modify, hopen, Goroutine.Closes] using h p
  | @resume i p w k hi hfree hw =>
    obtain ⟨hone, hclosing, hclosed⟩ := h.of_mem (List.mem_of_getElem? hi) (beq_self_eq_true p)
    refine ClosesOnce.sweep hi (fun q hne => ⟨beq_false_of_ne hne.symm, h q⟩) hclosing hclosed ?_
    rw [hone]
    simp [Goroutine.Closes]
  | @finish i p k e hi hopen =>
    obtain ⟨hone, hclosing, -⟩ := h.of_mem (List.mem_of_getElem? hi) (beq_self_eq_true p)
    intro q
    have hafter : Goroutine.Closes q (.after p e k) = false := by cases k <;> rfl
    have hcount := countP_set_add (Goroutine.Closes q) hi (.after p e k)
    rw [hafter] at hcount
    have hthreads : (s.finish i p e k).threads.countP (Goroutine.Closes q) =
        (s.threads.set i (.after p e k)).countP (Goroutine.Closes q) := by
      simp [Processes.finish, Processes.spawn, Processes.goto, Processes.modify, Goroutine.Closes]
    rw [hthreads]
    rcases eq_or_ne q p with rfl | hne
    · have hclosed : ((s.finish i q e k).proc q).closed = true := by
        simp [Processes.finish, Processes.spawn, Processes.goto, Processes.modify]
      simp only [hone, Goroutine.Closes, beq_self_eq_true, Bool.toNat_true, Bool.toNat_false,
        Nat.add_zero, Nat.add_eq_right] at hcount
      rw [hcount, hclosed, Bool.not_true, Bool.and_false, Bool.toNat_false]
    · have hproc : (s.finish i p e k).proc q = s.proc q := by
        simp [Processes.finish, Processes.spawn, Processes.goto, Processes.modify, hne]
      simp only [Goroutine.Closes, beq_false_of_ne hne.symm, Bool.toNat_false,
        Nat.add_zero] at hcount
      rw [hproc, hcount]
      exact h q
  | crash hi hg =>
    rcases hg with ⟨l, rfl, -⟩ | ⟨p, k, rfl, hclosed⟩
    · exact (h.goto hi fun _ => rfl : ClosesOnce (s.goto _ .panicked))
    · obtain ⟨-, -, hopen⟩ := h.of_mem (List.mem_of_getElem? hi) (beq_self_eq_true p)
      rw [hopen] at hclosed
      cases hclosed

/-- A process closes once. -/
theorem ClosesOnce.move (hs : Sound s) (h : ClosesOnce s) (hmove : Move s t) : ClosesOnce t := by
  have hadd : ∀ tf hidden, ClosesOnce (s.add tf hidden) := fun tf hidden =>
    h.of_eq (hs.add_field (·.closing) rfl) (hs.add_field (·.closed) rfl) fun _ => rfl
  cases hmove with
  | add tf => exact hadd tf false
  | addFunction => exact (hadd none true).spawn fun _ => rfl
  | close | closeAfterChildren => exact h.spawn fun _ => rfl
  | addLink =>
    exact h.of_eq (addLink_field (·.closing) fun _ _ _ => rfl)
      (addLink_field (·.closed) fun _ _ _ => rfl) fun p => by
        simp [Processes.addLink, Goroutine.Closes]
  | setTeardown => exact h.modify rfl rfl
  | @panic p =>
    exact (h.modify (f := fun P => { P with locked := true }) rfl rfl :
      ClosesOnce (s.modify p _))
  | step hstep => exact h.step hs hstep

/-! ## The mutex -/

/-- The mutex is locked while the teardown function runs, and otherwise only after a
panic. -/
structure Locks (s : Processes T E) : Prop where
  tearing : ∀ p k, .tearing p k ∈ s.threads → (s.proc p).locked
  locked : ∀ p, (s.proc p).locked →
    (∃ k, .tearing p k ∈ s.threads) ∨ s.panicked ∧ (s.proc p).closed

/-- No mutex is locked or unlocked, and the same teardown functions run. -/
theorem Locks.of_eq (h : Locks s) (hgrows : Grows s t)
    (hlocked : ∀ p, (t.proc p).locked = (s.proc p).locked)
    (hpanicked : s.panicked → t.panicked)
    (htearing : ∀ p k, .tearing p k ∈ t.threads ↔ .tearing p k ∈ s.threads) : Locks t where
  tearing p k hp := by
    rw [hlocked]
    exact h.tearing p k ((htearing p k).mp hp)
  locked p hp := by
    rw [hlocked] at hp
    rcases h.locked p hp with ⟨k, hk⟩ | ⟨hpanic, hclosed⟩
    · exact .inl ⟨k, (htearing p k).mpr hk⟩
    · exact .inr ⟨hpanicked hpanic, hgrows.closed p hclosed⟩

/-- A goroutine that is not replaced is still there. -/
theorem mem_goto_iff {i : ℕ} {g g' x : Goroutine E} (hi : s.threads[i]? = some g) (hg : x ≠ g)
    (hg' : x ≠ g') : x ∈ (s.goto i g').threads ↔ x ∈ s.threads := by
  constructor
  · intro hx
    exact (mem_goto hx).resolve_right hg'
  · intro hx
    exact mem_set_of_ne hi g' hx hg

/-- A goroutine goes on and neither calls a teardown function nor returns from it. -/
theorem Locks.goto (h : Locks s) {i : ℕ} {g g' : Goroutine E} (hi : s.threads[i]? = some g)
    (hg : ∀ p k, .tearing p k ≠ g) (hg' : ∀ p k, .tearing p k ≠ g') : Locks (s.goto i g') :=
  h.of_eq (grows_of_eq rfl rfl rfl rfl) (fun _ => rfl) id fun p k =>
    mem_goto_iff hi (hg p k) (hg' p k)

/-- A goroutine is started outside of teardown functions. -/
theorem Locks.spawn (h : Locks s) {g : Goroutine E} (hg : ∀ p k, .tearing p k ≠ g) :
    Locks (s.spawn [g]) :=
  h.of_eq (grows_of_eq rfl rfl rfl rfl) (fun _ => rfl) id fun p k => by
    simp [Processes.spawn, hg p k]

/-- A silent move neither calls the teardown function nor returns from it. -/
theorem Silent.not_tearing {g g' : Goroutine E} (h : Silent s g g') (p : ℕ) (k : Option ℕ) :
    .tearing p k ≠ g ∧ .tearing p k ≠ g' := by
  cases h with
  | @after p k => cases k <;> simp [Goroutine.after]
  | _ => simp

/-- The goroutine in `doClose` of `p` goes through its loop. -/
theorem Locks.sweep (h : Locks s) {i p : ℕ} {k : Option ℕ} {g : Goroutine E}
    (hi : s.threads[i]? = some g) (hg : ∀ p k, .tearing p k ≠ g)
    (honce : ClosesOnce (s.sweep i p k)) : Locks (s.sweep i p k) := by
  have hthreads : ∀ q k', .tearing q k' ∈ (s.sweep i p k).threads ↔
      .tearing q k' ∈ s.threads.set i (.swept p k (s.proc p).waitfors) := by
    intro q k'
    simp [Processes.sweep, Processes.spawn, Processes.goto, Processes.modify]
  have hlt : i < s.threads.length := (List.getElem?_eq_some_iff.mp hi).1
  have hswept : .swept p k (s.proc p).waitfors ∈ (s.sweep i p k).threads :=
    List.mem_append_left _ (List.mem_set hlt _)
  have hother : ∀ q, q ≠ p → (s.sweep i p k).proc q = s.proc q := by
    intro q hne
    simp [Processes.sweep, Processes.spawn, Processes.goto, Processes.modify, hne]
  have hlocked : ((s.sweep i p k).proc p).locked = (s.proc p).waitfors.isEmpty := by
    simp [Processes.sweep, Processes.spawn, Processes.goto, Processes.modify]
  constructor
  · intro q k' hq
    rcases eq_or_ne q p with rfl | hne
    · rw [hlocked]
      cases hwf : (s.proc q).waitfors with
      | nil => rfl
      | cons w wf =>
        -- only one goroutine is in `doClose`, and it waits
        rw [hwf] at hswept
        have hone := (honce.of_mem hq (beq_self_eq_true q)).1.le
        have heq := eq_of_countP_le_one hone hq (beq_self_eq_true q) hswept (beq_self_eq_true q)
        cases heq
    · rw [hother q hne]
      rcases List.mem_or_eq_of_mem_set ((hthreads q k').mp hq) with hold | hnew
      · exact h.tearing q k' hold
      · cases hwf : (s.proc p).waitfors with
        | nil =>
          rw [hwf] at hnew
          cases hnew
          exact absurd rfl hne
        | cons w wf =>
          rw [hwf] at hnew
          cases hnew
  · intro q hq
    rcases eq_or_ne q p with rfl | hne
    · rw [hlocked, List.isEmpty_iff] at hq
      rw [hq] at hswept
      exact .inl ⟨k, hswept⟩
    · rw [hother q hne] at hq ⊢
      rcases h.locked q hq with ⟨k', hk'⟩ | hpanic
      · exact .inl ⟨k', (hthreads q k').mpr (mem_set_of_ne hi _ hk' (hg q k'))⟩
      · exact .inr hpanic

/-- A step of a goroutine locks and unlocks as it has to. -/
theorem Locks.step (hs : Sound s) (honce : ClosesOnce s) (h : Locks s) (hstep : Step s t) :
    Locks t := by
  have honce' := honce.step hs hstep
  have hgrows := (hs.step hstep).1
  cases hstep with
  | silent hi hg =>
    exact h.goto hi (fun p k => (hg.not_tearing p k).1) (fun p k => (hg.not_tearing p k).2)
  | @begin i p k hi =>
    refine Locks.sweep (s := s.modify p _) ?_ hi (by simp) honce'
    exact h.of_eq (grows_modify (fun _ => rfl) id (fun _ => rfl) rfl)
      (modify_field (·.locked) rfl) id fun _ _ => .rfl
  | resume hi => exact h.sweep hi (by simp) honce'
  | @added i l c hi =>
    refine Locks.goto (s := s.modify c _) ?_ hi (by simp) (by simp)
    exact h.of_eq (grows_modify id id (fun _ => rfl) rfl) (modify_field (·.locked) rfl) id
      fun _ _ => .rfl
  | clear hi =>
    exact h.of_eq hgrows (fun _ => rfl) id fun p k => mem_goto_iff hi (by simp) (by simp)
  | @finish i p k e hi hopen =>
    have hthreads : ∀ q k', .tearing q k' ∈ (s.finish i p e k).threads →
        .tearing q k' ∈ s.threads := by
      intro q k' hq
      rcases List.mem_append.mp hq with hq | hq
      · refine (List.mem_or_eq_of_mem_set hq).resolve_right ?_
        cases k <;> simp [Goroutine.after]
      · simp at hq
    have hother : ∀ q, q ≠ p → (s.finish i p e k).proc q = s.proc q := by
      intro q hne
      simp [Processes.finish, Processes.spawn, Processes.goto, Processes.modify, hne]
    have hself : ((s.finish i p e k).proc p).locked = false ∧
        ((s.finish i p e k).proc p).closed = true := by
      simp [Processes.finish, Processes.spawn, Processes.goto, Processes.modify]
    constructor
    · intro q k' hq
      rcases eq_or_ne q p with rfl | hne
      · have hopen' := (honce'.of_mem hq (beq_self_eq_true q)).2.2
        rw [hself.2] at hopen'
        cases hopen'
      · rw [hother q hne]
        exact h.tearing q k' (hthreads q k' hq)
    · intro q hq
      rcases eq_or_ne q p with rfl | hne
      · rw [hself.1] at hq
        cases hq
      · rw [hother q hne] at hq ⊢
        rcases h.locked q hq with ⟨k', hk'⟩ | hpanic
        · refine .inl ⟨k', List.mem_append_left _ (mem_set_of_ne hi _ hk' ?_)⟩
          rintro ⟨rfl, rfl⟩
          exact hne rfl
        · exact .inr hpanic
  | crash hi hg =>
    rcases hg with ⟨l, rfl, -⟩ | ⟨p, k, rfl, hclosed⟩
    · exact h.of_eq hgrows (fun _ => rfl) (fun _ => rfl) fun p k =>
        mem_goto_iff hi (by simp) (by simp)
    · obtain ⟨-, -, hopen⟩ := honce.of_mem (List.mem_of_getElem? hi) (beq_self_eq_true p)
      rw [hopen] at hclosed
      cases hclosed

/-- The mutex is locked as long as it has to be. -/
theorem Locks.move (hs : Sound s) (honce : ClosesOnce s) (h : Locks s) (hmove : Move s t) :
    Locks t := by
  have hgrows := (hs.move hmove).1
  have hadd : ∀ tf hidden, Locks (s.add tf hidden) := fun tf hidden =>
    h.of_eq (hs.grows_add tf hidden) (hs.add_field (·.locked) rfl) id fun _ _ => .rfl
  cases hmove with
  | add tf => exact hadd tf false
  | addFunction => exact (hadd none true).spawn (by simp)
  | close | closeAfterChildren => exact h.spawn (by simp)
  | addLink child wait =>
    exact h.of_eq hgrows (addLink_field (·.locked) fun _ _ _ => rfl) id fun p k => by
      simp [Processes.addLink]
  | setTeardown => exact h.of_eq hgrows (modify_field (·.locked) rfl) id fun _ _ => .rfl
  | @panic p hp hclosed =>
    constructor
    · intro q k hq
      rcases eq_or_ne q p with rfl | hne
      · simp [Processes.modify]
      · simpa [Processes.modify, hne] using h.tearing q k hq
    · intro q hq
      rcases eq_or_ne q p with rfl | hne
      · exact .inr ⟨rfl, by simpa [Processes.modify] using hclosed⟩
      · rcases h.locked q (by simpa [Processes.modify, hne] using hq) with hk | ⟨-, hq⟩
        · exact .inl hk
        · exact .inr ⟨rfl, by simpa [Processes.modify, hne] using hq⟩
  | step hstep => exact h.step hs honce hstep

/-! ## Links -/

/-- `AddToChild` runs once for a link, and before the link can lose its child. -/
structure AddsFirst (s : Processes T E) : Prop where
  once : ∀ l, s.threads.countP (Goroutine.Adds l) ≤ 1
  link : ∀ l, .addToChild l ∈ s.threads → s.link l ≠ none
  waiters : ∀ l, .addToChild l ∈ s.threads → ∀ p, l ∉ (s.proc p).waiters
  clear : ∀ l, .addToChild l ∈ s.threads → ∀ ls, .clear ls ∈ s.threads → l ∉ ls

/-- There is a goroutine in `AddToChild` if they count. -/
theorem countP_adds_pos {l : ℕ} :
    0 < s.threads.countP (Goroutine.Adds l) ↔ .addToChild l ∈ s.threads := by
  rw [List.countP_pos_iff]
  constructor
  · rintro ⟨g, hg, hl⟩
    cases g with
    | addToChild l' =>
      cases beq_iff_eq.mp hl
      exact hg
    | _ => cases hl
  · intro hl
    exact ⟨_, hl, beq_self_eq_true l⟩

/-- No `AddToChild` begins, and what may take a child from a link is not new. -/
theorem AddsFirst.of_le (h : AddsFirst s)
    (hcount : ∀ l, t.threads.countP (Goroutine.Adds l) ≤ s.threads.countP (Goroutine.Adds l))
    (hlink : ∀ l, .addToChild l ∈ t.threads → .addToChild l ∈ s.threads → t.link l = s.link l)
    (hwaiters : ∀ l p, .addToChild l ∈ t.threads → l ∈ (t.proc p).waiters →
      l ∈ (s.proc p).waiters)
    (hclear : ∀ l ls, .addToChild l ∈ t.threads → .clear ls ∈ t.threads → l ∈ ls →
      (∃ ls', .clear ls' ∈ s.threads ∧ l ∈ ls') ∨ ∃ p, l ∈ (s.proc p).waiters) :
    AddsFirst t := by
  have hold : ∀ l, .addToChild l ∈ t.threads → .addToChild l ∈ s.threads := fun l hl =>
    countP_adds_pos.mp ((countP_adds_pos.mpr hl).trans_le (hcount l))
  refine ⟨fun l => (hcount l).trans (h.once l), ?_, ?_, ?_⟩
  · intro l hl
    rw [hlink l hl (hold l hl)]
    exact h.link l (hold l hl)
  · intro l hl p hp
    exact h.waiters l (hold l hl) p (hwaiters l p hl hp)
  · intro l hl ls hls hmem
    rcases hclear l ls hl hls hmem with ⟨ls', hls', hmem'⟩ | ⟨p, hp⟩
    · exact h.clear l (hold l hl) ls' hls' hmem'
    · exact h.waiters l (hold l hl) p hp

/-- The goroutine that was in `AddToChild` is not any more. -/
theorem AddsFirst.not_mem_goto (h : AddsFirst s) {i l : ℕ} {g' : Goroutine E}
    (hi : s.threads[i]? = some (.addToChild l)) (hg' : g'.Adds l = false) :
    .addToChild l ∉ (s.goto i g').threads := by
  intro hl
  have hpos := countP_adds_pos.mpr hl
  have hcount := countP_set_add (Goroutine.Adds l) hi g'
  have hone := h.once l
  rw [hg', show Goroutine.Adds l (.addToChild l : Goroutine E) = true from beq_self_eq_true l]
    at hcount
  simp only [Processes.goto, Bool.toNat_true, Bool.toNat_false] at hpos hcount
  omega

/-- Replacing a goroutine by one that is not in `AddToChild`. -/
theorem countP_adds_goto {i : ℕ} {g g' : Goroutine E} (hi : s.threads[i]? = some g)
    (hg' : ∀ l, g'.Adds l = false) (l : ℕ) :
    (s.goto i g').threads.countP (Goroutine.Adds l) ≤ s.threads.countP (Goroutine.Adds l) := by
  have hcount := countP_set_add (Goroutine.Adds l) hi g'
  rw [hg' l] at hcount
  simp only [Processes.goto, Bool.toNat_false] at hcount ⊢
  omega

/-- A silent move does not begin an `AddToChild`. -/
theorem Silent.not_adds {g g' : Goroutine E} (h : Silent s g g') (l : ℕ) : g'.Adds l = false := by
  cases h with
  | @after p k => cases k <;> rfl
  | _ => rfl

/-- A goroutine goes through the loop of `doClose`. -/
theorem AddsFirst.sweep (h : AddsFirst s) {i p : ℕ} {k : Option ℕ} {g : Goroutine E}
    (hi : s.threads[i]? = some g) : AddsFirst (s.sweep i p k) := by
  refine h.of_le (fun l => ?_) (fun _ _ _ => rfl)
    (fun l q _ hl => by rwa [sweep_field (·.waiters) fun _ _ _ _ => rfl] at hl)
    (fun l ls _ hls hl => .inl ⟨ls, ?_, hl⟩)
  · have hcount := countP_sweep (q := Goroutine.Adds l) (p := p) (k := k) hi fun _ _ _ _ => rfl
    have hswept : Goroutine.Adds l (.swept p k (s.proc p).waitfors : Goroutine E) = false := by
      cases (s.proc p).waitfors <;> rfl
    rw [hswept, Bool.toNat_false] at hcount
    omega
  · rcases List.mem_append.mp hls with hls | hls
    · refine (List.mem_or_eq_of_mem_set hls).resolve_right ?_
      cases (s.proc p).waitfors <;> simp [Goroutine.swept]
    · simp at hls

/-- A link is made. -/
theorem AddsFirst.addLink (hs : Sound s) (h : AddsFirst s) (p q : ℕ) (child wait : Bool) :
    AddsFirst (s.addLink p q child wait) := by
  have hnew : ∀ l, .addToChild l ∈ (s.addLink p q child wait).threads →
      .addToChild l ∈ s.threads ∧ l < s.numLinks ∨ l = s.numLinks := by
    intro l hl
    rcases List.mem_append.mp hl with hl | hl
    · exact .inl ⟨hl, hs.threads _ hl⟩
    · cases List.mem_singleton.mp hl
      exact .inr rfl
  have hwaiters : ∀ r, ((s.addLink p q child wait).proc r).waiters = (s.proc r).waiters :=
    addLink_field (·.waiters) fun _ _ _ => rfl
  have hclear : ∀ ls, .clear ls ∈ (s.addLink p q child wait).threads → .clear ls ∈ s.threads := by
    intro ls hls
    simpa [Processes.addLink] using hls
  refine ⟨fun l => ?_, fun l hl => ?_, fun l hl r hr => ?_, fun l hl ls hls hmem => ?_⟩
  · simp only [Processes.addLink, List.countP_append, List.countP_singleton]
    rcases eq_or_ne s.numLinks l with rfl | hne
    · -- no goroutine is in `AddToChild` of a link that is not made
      have hzero : s.threads.countP (Goroutine.Adds s.numLinks) = 0 := by
        refine Nat.eq_zero_of_not_pos fun hpos => ?_
        exact (Nat.lt_irrefl _ (hs.threads _ (countP_adds_pos.mp hpos)))
      simp [hzero, Goroutine.Adds]
    · simpa [Goroutine.Adds, hne] using h.once l
  · rcases hnew l hl with ⟨hold, hlt⟩ | rfl
    · simpa [Processes.addLink, hlt.ne] using h.link l hold
    · simp [Processes.addLink]
  · rw [hwaiters] at hr
    rcases hnew l hl with ⟨hold, -⟩ | rfl
    · exact h.waiters l hold r hr
    · exact Nat.lt_irrefl _ (hs.waiters r _ hr).1
  · rcases hnew l hl with ⟨hold, -⟩ | rfl
    · exact h.clear l hold ls (hclear ls hls) hmem
    · exact Nat.lt_irrefl _ (hs.threads _ (hclear ls hls) _ hmem).1

/-- A process changes in something else than its waiters. -/
theorem AddsFirst.modify (h : AddsFirst s) {p : ℕ} {f : Process T E → Process T E}
    (hf : (f (s.proc p)).waiters = (s.proc p).waiters) : AddsFirst (s.modify p f) :=
  h.of_le (fun _ => le_rfl) (fun _ _ _ => rfl)
    (fun l q _ hl => by rwa [modify_field (·.waiters) hf] at hl)
    (fun l ls _ hls hl => .inl ⟨ls, hls, hl⟩)

/-- A step of a goroutine takes no child from a link before its `AddToChild`. -/
theorem AddsFirst.step (h : AddsFirst s) (hstep : Step s t) : AddsFirst t := by
  cases hstep with
  | @silent i g g' hi hg =>
    refine h.of_le (countP_adds_goto hi hg.not_adds) (fun _ _ _ => rfl) (fun _ _ _ => id) ?_
    intro l ls hl hls hmem
    rcases mem_goto hls with hold | rfl
    · exact .inl ⟨ls, hold, hmem⟩
    · generalize hg' : Goroutine.clear ls = g' at hg
      cases hg with
      | found =>
        -- the goroutine has left `AddToChild`
        cases hg'
        cases List.mem_singleton.mp hmem
        exact absurd hl (h.not_mem_goto hi rfl)
      | @after p k => cases k <;> cases hg'
      | _ => cases hg'
  | begin hi => exact (h.modify rfl).sweep hi
  | resume hi => exact h.sweep hi
  | @added i l c hi hl hopen =>
    refine h.of_le (countP_adds_goto hi fun _ => rfl) (fun _ _ _ => rfl) ?_ ?_
    · intro l' p hl' hmem
      rcases eq_or_ne p c with rfl | hne
      · simp only [Processes.goto, Processes.modify, Function.update_self, List.mem_append,
          List.mem_singleton] at hmem
        refine hmem.resolve_right ?_
        rintro rfl
        exact h.not_mem_goto hi rfl hl'
      · simpa [Processes.goto, Processes.modify, hne] using hmem
    · intro l' ls _ hls hmem
      exact .inl ⟨ls, (mem_goto (s := s) hls).resolve_right (by simp), hmem⟩
  | @clear i l ls hi =>
    refine h.of_le (countP_adds_goto hi fun _ => rfl) ?_ (fun _ _ _ => id) ?_
    · intro l' _ hold
      have hne : l' ≠ l := by
        rintro rfl
        exact h.clear _ hold _ (List.mem_of_getElem? hi) List.mem_cons_self
      simp [Processes.goto, hne]
    · intro l' ls' _ hls' hmem
      rcases mem_goto (s := s) hls' with hold | hnew
      · exact .inl ⟨ls', hold, hmem⟩
      · cases hnew
        exact .inl ⟨_, List.mem_of_getElem? hi, List.mem_cons_of_mem _ hmem⟩
  | @finish i p k e hi hopen =>
    have hafter : ∀ l, Goroutine.Adds l (.after p e k) = false := by
      intro l
      cases k <;> rfl
    have hwaiters : ∀ q, ((s.finish i p e k).proc q).waiters = (s.proc q).waiters := fun q =>
      modify_field (s := s) (·.waiters) (f := fun P =>
        { P with closeErr := e, closed := true, locked := false }) rfl q
    refine h.of_le (fun l => ?_) (fun _ _ _ => rfl) (fun l q _ hl => by rwa [hwaiters] at hl) ?_
    · have hcount := countP_adds_goto hi hafter l
      simpa [Processes.finish, Processes.spawn, Processes.goto, Processes.modify,
        Goroutine.Adds] using hcount
    · intro l ls _ hls hmem
      rcases List.mem_append.mp hls with hls | hls
      · rcases List.mem_or_eq_of_mem_set hls with hold | hnew
        · exact .inl ⟨ls, hold, hmem⟩
        · cases k <;> cases hnew
      · cases List.mem_singleton.mp hls
        exact .inr ⟨p, hmem⟩
  | crash hi hg =>
    refine h.of_le (countP_adds_goto hi fun _ => rfl) (fun _ _ _ => rfl) (fun _ _ _ => id) ?_
    intro l ls _ hls hmem
    exact .inl ⟨ls, (mem_goto (s := s) hls).resolve_right (by simp), hmem⟩

/-- `AddToChild` comes first. -/
theorem AddsFirst.move (hs : Sound s) (h : AddsFirst s) (hmove : Move s t) : AddsFirst t := by
  have hadd : ∀ tf hidden, AddsFirst (s.add tf hidden) := by
    intro tf hidden
    have hwaiters : ∀ p, ((s.add tf hidden).proc p).waiters = (s.proc p).waiters :=
      hs.add_field (·.waiters) rfl
    exact h.of_le (fun _ => le_rfl) (fun _ _ _ => rfl) (fun l p _ hl => by rwa [hwaiters] at hl)
      (fun l ls _ hls hl => .inl ⟨ls, hls, hl⟩)
  have hspawn : ∀ {u : Processes T E} {g : Goroutine E}, AddsFirst u → (∀ l, g.Adds l = false) →
      (∀ ls, .clear ls ≠ g) → AddsFirst (u.spawn [g]) := by
    intro u g hu hg hclear
    refine hu.of_le (fun l => ?_) (fun _ _ _ => rfl) (fun _ _ _ => id)
      (fun l ls _ hls hl => .inl ⟨ls, ?_, hl⟩)
    · simp [Processes.spawn, hg l]
    · simpa [Processes.spawn, hclear ls] using hls
  cases hmove with
  | add tf => exact hadd tf false
  | addFunction => exact hspawn (hadd none true) (fun _ => rfl) (by simp)
  | close | closeAfterChildren => exact hspawn h (fun _ => rfl) (by simp)
  | addLink child wait => exact h.addLink hs _ _ child wait
  | setTeardown => exact h.modify rfl
  | @panic p =>
    obtain ⟨h₁, h₂, h₃, h₄⟩ := h.modify (p := p) (f := fun P => { P with locked := true }) rfl
    exact ⟨h₁, h₂, h₃, h₄⟩
  | step hstep => exact h.step hstep

/-! ## Functions -/

/-- Only the goroutine that runs the function closes a process for which a child of `Go`
waits, and only after the function. -/
structure HeldOpen (s : Processes T E) : Prop where
  once : ∀ w, (s.proc w).hidden → s.threads.countP (Goroutine.Holds w) ≤ 1
  body : ∀ c w, .body c w ∈ s.threads → (s.proc w).closing = false
  held : ∀ w, (s.proc w).hidden →
    (∃ c, .body c w ∈ s.threads) ∨ (∃ k, .close w k ∈ s.threads) ∨ (s.proc w).closing

/-- No function begins or returns, and nothing is about to be closed. -/
theorem HeldOpen.of_eq (h : HeldOpen s)
    (hhidden : ∀ w, (t.proc w).hidden = (s.proc w).hidden)
    (hclosing : ∀ w, (t.proc w).closing = (s.proc w).closing)
    (hcount : ∀ w, (s.proc w).hidden →
      t.threads.countP (Goroutine.Holds w) ≤ s.threads.countP (Goroutine.Holds w))
    (hbody : ∀ c w, .body c w ∈ t.threads ↔ .body c w ∈ s.threads)
    (hclose : ∀ w k, .close w k ∈ s.threads → .close w k ∈ t.threads) : HeldOpen t where
  once w hw := by
    rw [hhidden] at hw
    exact (hcount w hw).trans (h.once w hw)
  body c w hw := by
    rw [hclosing]
    exact h.body c w ((hbody c w).mp hw)
  held w hw := by
    rw [hhidden] at hw
    rw [hclosing]
    rcases h.held w hw with ⟨c, hc⟩ | ⟨k, hk⟩ | hclosing
    · exact .inl ⟨c, (hbody c w).mpr hc⟩
    · exact .inr (.inl ⟨k, hclose w k hk⟩)
    · exact .inr (.inr hclosing)

/-- A goroutine is started that neither runs a function nor closes a process of `Go`. -/
theorem HeldOpen.spawn (h : HeldOpen s) {g : Goroutine E}
    (hg : ∀ w, (s.proc w).hidden → g.Holds w = false) (hbody : ∀ c w, .body c w ≠ g) :
    HeldOpen (s.spawn [g]) := by
  refine h.of_eq (fun _ => rfl) (fun _ => rfl) (fun w hw => ?_) (fun c w => ?_) (fun w k hk => ?_)
  · simp [Processes.spawn, hg w hw]
  · simp [Processes.spawn, hbody c w]
  · exact List.mem_append_left _ hk

/-- A goroutine goes on that neither ran a function nor closes a process then. -/
theorem HeldOpen.goto (h : HeldOpen s) {i : ℕ} {g g' : Goroutine E}
    (hi : s.threads[i]? = some g) (hg : ∀ c w, .body c w ≠ g) (hclose : ∀ w k, .close w k ≠ g)
    (hg' : ∀ c w, .body c w ≠ g') (hholds : ∀ w, g'.Holds w = false) : HeldOpen (s.goto i g') := by
  refine h.of_eq (fun _ => rfl) (fun _ => rfl) (fun w _ => ?_)
    (fun c w => mem_goto_iff hi (hg c w) (hg' c w))
    (fun w k hk => mem_set_of_ne hi g' hk (hclose w k))
  have hcount := countP_set_add (Goroutine.Holds w) hi g'
  rw [hholds w, Bool.toNat_false] at hcount
  simp only [Processes.goto]
  omega

/-- A process that is not made is not held. -/
theorem Sound.countP_holds_size (hs : Sound s) : s.threads.countP (Goroutine.Holds s.size) = 0 := by
  refine List.countP_eq_zero.mpr fun g hg hholds => ?_
  have hsound := hs.threads g hg
  cases g with
  | close p k | waiting p w wf k | tearing p k | joined p k =>
    cases beq_iff_eq.mp hholds
    exact Nat.lt_irrefl _ hsound.1
  | body c w =>
    cases beq_iff_eq.mp hholds
    exact Nat.lt_irrefl _ hsound.2.1
  | _ => cases hholds

/-- A function begins. -/
theorem HeldOpen.addFunction (hs : Sound s) (h : HeldOpen s) (c : ℕ) :
    HeldOpen (s.addFunction c) := by
  have hproc : ∀ w, w ≠ s.size → (s.addFunction c).proc w = s.proc w := by
    intro w hne
    simp [Processes.addFunction, Processes.spawn, Processes.add, hne]
  have hnew : ((s.addFunction c).proc s.size).closing = false := by
    simp [Processes.addFunction, Processes.spawn, Processes.add, newProcess]
  have hmem : .body c s.size ∈ (s.addFunction c).threads :=
    List.mem_append_right _ (List.mem_singleton_self _)
  refine ⟨fun w hw => ?_, fun c' w hw => ?_, fun w hw => ?_⟩
  · have hcount : (s.addFunction c).threads.countP (Goroutine.Holds w) =
        s.threads.countP (Goroutine.Holds w) + (s.size == w).toNat := by
      cases hw' : (s.size == w) <;>
        simp [Processes.addFunction, Processes.spawn, Processes.add, Goroutine.Holds, hw']
    rw [hcount]
    rcases eq_or_ne w s.size with rfl | hne
    · rw [hs.countP_holds_size]
      simp
    · rw [hproc w hne] at hw
      rw [beq_false_of_ne hne.symm]
      exact h.once w hw
  · rcases List.mem_append.mp hw with hold | hw
    · rw [hproc w (hs.threads _ hold).2.1.ne]
      exact h.body c' w hold
    · cases List.mem_singleton.mp hw
      exact hnew
  · rcases eq_or_ne w s.size with rfl | hne
    · exact .inl ⟨c, hmem⟩
    · rw [hproc w hne] at hw ⊢
      rcases h.held w hw with ⟨c', hc'⟩ | ⟨k, hk⟩ | hclosing
      · exact .inl ⟨c', List.mem_append_left _ hc'⟩
      · exact .inr (.inl ⟨k, List.mem_append_left _ hk⟩)
      · exact .inr (.inr hclosing)

/-- A silent move does not begin to hold a hidden process. -/
theorem Silent.holds {g g' : Goroutine E} (h : Silent s g g') (hg : g.Sound s) {w : ℕ}
    (hw : (s.proc w).hidden) : (g'.Holds w).toNat ≤ (g.Holds w).toNat := by
  have hknown : ∀ p, s.Known p → (p == w) = false := by
    intro p hp
    refine beq_false_of_ne ?_
    rintro rfl
    rw [(known_iff.mp hp).2] at hw
    cases hw
  cases h with
  | join | next | returns => exact le_rfl
  | @after p k => cases k <;> exact Nat.zero_le _
  | @already p | @complete p => exact (congrArg Bool.toNat (hknown p hg)).le
  | found | cleared | search | await | awaited => exact le_rfl

/-- A goroutine goes through the loop of `doClose`. -/
theorem HeldOpen.sweep (hs : Sound s) (h : HeldOpen s) {i p : ℕ} {k : Option ℕ}
    {g : Goroutine E} (hi : s.threads[i]? = some g) (hg : ∀ w, g.Holds w = (p == w))
    (hbody : ∀ c w, .body c w ≠ g) (hclose : ∀ w k, .close w k = g → (s.proc w).closing) :
    HeldOpen (s.sweep i p k) := by
  have hclosing : ∀ w, ((s.sweep i p k).proc w).closing = (s.proc w).closing :=
    sweep_field (·.closing) fun _ _ _ _ => rfl
  have hhidden : ∀ w, ((s.sweep i p k).proc w).hidden = (s.proc w).hidden :=
    sweep_field (·.hidden) fun _ _ _ _ => rfl
  have hmem : ∀ c w, .body c w ∈ (s.sweep i p k).threads ↔ .body c w ∈ s.threads := by
    intro c w
    have hswept : .body c w ≠ Goroutine.swept (E := E) p k (s.proc p).waitfors := by
      cases (s.proc p).waitfors <;> simp [Goroutine.swept]
    have hgoto := mem_goto_iff (s := s) hi (hbody c w) hswept
    simpa [Processes.sweep, Processes.spawn, Processes.goto, Processes.modify] using hgoto
  refine ⟨fun w hw => ?_, fun c w hw => ?_, fun w hw => ?_⟩
  · rw [hhidden] at hw
    have hcount := countP_sweep (q := Goroutine.Holds w) (p := p) (k := k) hi
      fun l hl c hc => by
        refine beq_false_of_ne ?_
        rintro rfl
        rw [(hs.children p l hl).2 _ hc] at hw
        cases hw
    have hswept : Goroutine.Holds w (.swept p k (s.proc p).waitfors : Goroutine E) = (p == w) := by
      cases (s.proc p).waitfors <;> rfl
    rw [hswept, hg w] at hcount
    have hone := h.once w hw
    omega
  · rw [hclosing]
    exact h.body c w ((hmem c w).mp hw)
  · rw [hhidden] at hw
    rw [hclosing]
    rcases h.held w hw with ⟨c, hc⟩ | ⟨k', hk'⟩ | hclosing
    · exact .inl ⟨c, (hmem c w).mpr hc⟩
    · by_cases heq : .close w k' = g
      · exact .inr (.inr (hclose w k' heq))
      · exact .inr (.inl ⟨k', List.mem_append_left _ (mem_set_of_ne hi _ hk' heq)⟩)
    · exact .inr (.inr hclosing)

/-- A process changes that does not begin to close by that. -/
theorem HeldOpen.modify (h : HeldOpen s) {p : ℕ} {f : Process T E → Process T E}
    (hhidden : (f (s.proc p)).hidden = (s.proc p).hidden)
    (hclosing : (f (s.proc p)).closing = (s.proc p).closing) : HeldOpen (s.modify p f) :=
  h.of_eq (modify_field (·.hidden) hhidden) (modify_field (·.closing) hclosing)
    (fun _ _ => le_rfl) (fun _ _ => .rfl) (fun _ _ => id)

/-- A step of a goroutine closes no process that is held open. -/
theorem HeldOpen.step (hs : Sound s) (h : HeldOpen s) (hstep : Step s t) : HeldOpen t := by
  cases hstep with
  | @silent i g g' hi hg =>
    refine ⟨fun w hw => ?_, fun c w hw => ?_, fun w hw => ?_⟩
    · have hcount := countP_set_add (Goroutine.Holds w) hi g'
      have hle := hg.holds (hs.threads _ (List.mem_of_getElem? hi)) hw
      have hone := h.once w hw
      simp only [Processes.goto]
      omega
    · rcases mem_goto hw with hold | rfl
      · exact h.body c w hold
      · generalize hbody : Goroutine.body c w = g' at hg
        cases hg with
        | @after p k => cases k <;> cases hbody
        | _ => cases hbody
    · rcases h.held w hw with ⟨c, hc⟩ | ⟨k, hk⟩ | hclosing
      · by_cases heq : .body c w = g
        · subst heq
          cases hg
          have hlt := (List.getElem?_eq_some_iff.mp hi).1
          exact .inr (.inl ⟨some c, List.mem_set hlt _⟩)
        · exact .inl ⟨c, mem_set_of_ne hi g' hc heq⟩
      · by_cases heq : .close w k = g
        · subst heq
          cases hg with
          | join hclosing => exact .inr (.inr hclosing)
        · exact .inr (.inl ⟨k, mem_set_of_ne hi g' hk heq⟩)
      · exact .inr (.inr hclosing)
  | @begin i p k hi hfree hopen =>
    have hp := (hs.threads _ (List.mem_of_getElem? hi)).1
    have hsound : Sound (s.modify p fun P => { P with closing := true }) :=
      hs.modify hp (grows_modify (fun _ => rfl) id (fun _ => rfl) rfl) (List.Subset.refl _) rfl
        (fun _ => .inr rfl)
    have hclosing : ((s.modify p fun P => { P with closing := true }).proc p).closing = true := by
      simp [Processes.modify]
    have hhidden := modify_field (s := s) (p := p) (f := fun P => { P with closing := true })
      (·.hidden) rfl
    have hbegun : HeldOpen (s.modify p fun P => { P with closing := true }) := by
      refine ⟨fun w hw => h.once w (by rwa [hhidden] at hw), fun c w hw => ?_, fun w hw => ?_⟩
      · have hne : w ≠ p := by
          -- the goroutine that closes the process is the one that ran the function
          rintro rfl
          have hone := h.once w (hs.threads _ hw).2.2
          have heq := eq_of_countP_le_one hone hw (beq_self_eq_true w) (List.mem_of_getElem? hi)
            (beq_self_eq_true w)
          cases heq
        simpa [Processes.modify, hne] using h.body c w hw
      · rw [hhidden] at hw
        rcases h.held w hw with hc | hk | hw'
        · exact .inl hc
        · exact .inr (.inl hk)
        · exact .inr (.inr ((grows_modify (s := s) (p := p)
            (f := fun P => { P with closing := true }) (fun _ => rfl) id (fun _ => rfl) rfl).closing
              w hw'))
    refine hbegun.sweep hsound hi (fun _ => rfl) (by simp) ?_
    rintro w k' ⟨rfl, rfl⟩
    exact hclosing
  | @resume i p w k hi =>
    exact h.sweep hs hi (fun _ => rfl) (by simp) (by simp)
  | @added i l c hi =>
    exact (h.modify rfl rfl).goto hi (by simp) (by simp) (by simp) (fun _ => rfl)
  | @clear i l ls hi =>
    have hgoto : HeldOpen (s.goto i (.clear ls)) :=
      h.goto hi (by simp) (by simp) (by simp) (fun _ => rfl)
    exact ⟨hgoto.once, hgoto.body, hgoto.held⟩
  | @finish i p k e hi hopen =>
    refine HeldOpen.spawn ((h.modify rfl rfl).goto hi (by simp) (by simp) ?_ ?_)
      (fun _ _ => rfl) (by simp)
    · cases k <;> simp [Goroutine.after]
    · intro w
      cases k <;> rfl
  | @crash i g hi hg =>
    have hnot : (∀ c w, .body c w ≠ g) ∧ ∀ w k, .close w k ≠ g := by
      rcases hg with ⟨l, rfl, -⟩ | ⟨p, k, rfl, -⟩ <;> simp
    have hgoto : HeldOpen (s.goto i .panicked) :=
      h.goto hi hnot.1 hnot.2 (by simp) (fun _ => rfl)
    exact ⟨hgoto.once, hgoto.body, hgoto.held⟩

/-- A hidden process is held open. -/
theorem HeldOpen.move (hs : Sound s) (h : HeldOpen s) (hmove : Move s t) : HeldOpen t := by
  have hknown : ∀ p w, (s.proc p).hidden = false → (s.proc w).hidden → (p == w) = false := by
    intro p w hp hw
    refine beq_false_of_ne ?_
    rintro rfl
    rw [hp] at hw
    cases hw
  cases hmove with
  | add tf =>
    exact h.of_eq (hs.add_field (·.hidden) rfl) (hs.add_field (·.closing) rfl)
      (fun _ _ => le_rfl) (fun _ _ => .rfl) (fun _ _ => id)
  | @addFunction c => exact h.addFunction hs c
  | close hp hpknown => exact h.spawn (fun w hw => hknown _ w hpknown hw) (by simp)
  | closeAfterChildren => exact h.spawn (fun _ _ => rfl) (by simp)
  | addLink =>
    refine h.of_eq (addLink_field (·.hidden) fun _ _ _ => rfl)
      (addLink_field (·.closing) fun _ _ _ => rfl) (fun w _ => ?_) (fun c w => ?_)
      (fun w k hk => ?_)
    · simp [Processes.addLink, Goroutine.Holds]
    · simp [Processes.addLink]
    · exact List.mem_append_left _ hk
  | setTeardown => exact h.modify rfl rfl
  | @panic p =>
    obtain ⟨h₁, h₂, h₃⟩ := h.modify (p := p) (f := fun P => { P with locked := true }) rfl rfl
    exact ⟨h₁, h₂, h₃⟩
  | step hstep => exact h.step hs hstep

end Processes

end GoBlocks
