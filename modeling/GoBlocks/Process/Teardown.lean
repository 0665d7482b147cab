import GoBlocks.Process.Exclusive

/-!
# The order of teardowns

A process runs its teardown function once: after it began to close, after every process
that it has to wait for is closed, and before it is closed itself. This holds however the
goroutines interleave, also if processes are linked while others are closing. Every call
of `Close` returns the error of that teardown.
-/

namespace GoBlocks

variable {T E : Type}

/-! ## What the events tell -/

namespace ProcessEvent

/-- The pairs of a process and another one that a call tells it to wait for. -/
def tells : ProcessEvent T E → List (ℕ × ℕ)
  | .waitFor p q | .addChild p q _ => [(p, q)]
  | .go p c _ => [(c, c + 1), (p, c)]
  | _ => []

/-- The pairs of a process and another one that it has to wait for from then on. A
process that is closed already does not wait any more. -/
def waits : ProcessEvent T E → List (ℕ × ℕ)
  | .waitFor p q | .addChild p q false => [(p, q)]
  | .go p c false => [(c, c + 1), (p, c)]
  | .go _ c true => [(c, c + 1)]
  | _ => []

/-- The teardown function of the process returns. -/
def TearsDown (p : ℕ) : ProcessEvent T E → Bool
  | .teardown _ p' _ => p' == p
  | _ => false

end ProcessEvent

namespace Processes

variable {s t : Processes T E}

/-- In the course of the events, `p` was told to wait for `q` before it was closed. -/
def Waits (ls : List (ProcessEvent T E)) (p q : ℕ) : Prop := ∃ l ∈ ls, (p, q) ∈ l.waits

/-- In the course of the events, a call told `p` to wait for `q`, and `p` was not closed
when the call was made. -/
def ToldWhileOpen (ls : List (ProcessEvent T E)) (p q : ℕ) : Prop :=
  ∃ hist l v, hist ++ [l] <+: ls ∧ (lts T E).Run (start T E) hist v ∧
    (v.proc p).closed = false ∧ (p, q) ∈ l.tells

/-- Everything that the goroutines keep. -/
structure Inv (s : Processes T E) : Prop where
  sound : Sound s
  closes : ClosesOnce s
  locks : Locks s
  adds : AddsFirst s
  held : HeldOpen s

/-- At first there is no process. -/
theorem inv_start : Inv (start T E) where
  sound := sound_start
  closes _ := rfl
  locks := ⟨by simp [start], by simp [start, newProcess]⟩
  adds := ⟨by simp [start], by simp [start], by simp [start], by simp [start]⟩
  held := ⟨by simp [start], by simp [start], by simp [start, newProcess]⟩

/-- The invariant holds after a move. -/
theorem Inv.move (h : Inv s) (hmove : Move s t) : Inv t where
  sound := (h.sound.move hmove).2
  closes := h.closes.move h.sound hmove
  locks := h.locks.move h.sound h.closes hmove
  adds := h.adds.move h.sound hmove
  held := h.held.move h.sound hmove

/-- The invariant holds after an event. -/
theorem Inv.next {l : ProcessEvent T E} (h : Inv s) (hstep : s.next l = some t) : Inv t :=
  next_induction Inv (fun _ _ hmove hs => hs.move hmove) hstep h

/-- The invariant holds in every run. -/
theorem inv_run {ls : List (ProcessEvent T E)} (hrun : (lts T E).Run (start T E) ls s) : Inv s :=
  hrun.invariant Inv (fun _ _ _ hv hstep => hv.next hstep) inv_start

/-- Nothing is opened again in a step. -/
theorem Inv.grows_next {l : ProcessEvent T E} (h : Inv s) (hstep : s.next l = some t) :
    Grows s t := by
  have hrefl : Grows s s := grows_of_eq rfl rfl rfl rfl
  refine (next_induction (fun u => Inv u ∧ Grows s u) ?_ hstep ⟨h, hrefl⟩).2
  rintro u v hmove ⟨hu, hgrows⟩
  exact ⟨hu.move hmove, hgrows.trans (hu.sound.move hmove).1⟩

/-! ## Waiting -/

/-- The process has a link to the other one that its `doClose` has not waited for. -/
def Expects (s : Processes T E) (p q : ℕ) : Prop :=
  (∃ l ∈ (s.proc p).waitfors, s.link l = some q) ∨
    ∃ w wf k, .waiting p w wf k ∈ s.threads ∧ ∃ l ∈ w :: wf, s.link l = some q

/-- The other process is closed, or this one neither runs its teardown function nor is
closed, and waits. -/
def WaitsFor (s : Processes T E) (p q : ℕ) : Prop :=
  (s.proc q).closed ∨
    ((s.proc p).closed = false ∧ (s.proc p).locked = false) ∧ s.Expects p q

/-- A process that waits is one that was made. -/
theorem Expects.lt_size (hs : Sound s) {p q : ℕ} (h : s.Expects p q) : p < s.size := by
  rcases h with ⟨l, hl, -⟩ | ⟨w, wf, k, hmem, -⟩
  · by_contra hlt
    simp [hs.fresh p (Nat.le_of_not_lt hlt), newProcess] at hl
  · exact (hs.threads _ hmem).1

/-- The process is not closed or locked, and has the links that it had. -/
def Keeps (s t : Processes T E) (p : ℕ) : Prop :=
  (t.proc p).closed = (s.proc p).closed ∧ (t.proc p).locked = (s.proc p).locked ∧
    (s.proc p).waitfors ⊆ (t.proc p).waitfors

/-- The process does not change. -/
theorem keeps_of_eq {p : ℕ} (h : t.proc p = s.proc p) : s.Keeps t p := by
  simp [Keeps, h]

/-- A process that the step does not close or lock goes on to wait. -/
theorem WaitsFor.of_frame {p q : ℕ} (h : s.WaitsFor p q) (hgrows : Grows s t)
    (hkeeps : s.Expects p q → s.Keeps t p)
    (hthreads : ∀ w wf k, .waiting p w wf k ∈ s.threads → .waiting p w wf k ∈ t.threads)
    (hlink : ∀ l, s.link l = some q → t.link l = some q ∨ (t.proc q).closed) :
    t.WaitsFor p q := by
  rcases h with hq | ⟨⟨hopen, hfree⟩, hexpects⟩
  · exact .inl (hgrows.closed q hq)
  by_cases hq : (t.proc q).closed
  · exact .inl hq
  have hlink' : ∀ l, s.link l = some q → t.link l = some q := fun l hl =>
    (hlink l hl).resolve_right hq
  obtain ⟨hclosed, hlocked, hwaitfors⟩ := hkeeps hexpects
  refine .inr ⟨⟨hclosed.trans hopen, hlocked.trans hfree⟩, ?_⟩
  rcases hexpects with ⟨l, hl, hq⟩ | ⟨w, wf, k, hmem, l, hl, hq⟩
  · exact .inl ⟨l, hwaitfors hl, hlink' l hq⟩
  · exact .inr ⟨w, wf, k, hthreads w wf k hmem, l, hl, hlink' l hq⟩

/-- The goroutine in `doClose` of `p` goes through its loop: the processes to wait for are
those that it waits for next. -/
theorem WaitsFor.sweep {i p q : ℕ} {k : Option ℕ} {g : Goroutine E}
    (hi : s.threads[i]? = some g) (hopen : (s.proc p).closed = false)
    (h : (s.proc q).closed ∨ ∃ l ∈ (s.proc p).waitfors, s.link l = some q) :
    (s.sweep i p k).WaitsFor p q := by
  have hclosed : ∀ r, ((s.sweep i p k).proc r).closed = (s.proc r).closed :=
    sweep_field (·.closed) fun _ _ _ _ => rfl
  rcases h with hq | ⟨l, hl, hq⟩
  · exact .inl ((hclosed q).trans hq)
  have hlt := (List.getElem?_eq_some_iff.mp hi).1
  have hswept : .swept p k (s.proc p).waitfors ∈ (s.sweep i p k).threads :=
    List.mem_append_left _ (List.mem_set hlt _)
  have hlocked : ((s.sweep i p k).proc p).locked = (s.proc p).waitfors.isEmpty := by
    simp [Processes.sweep, Processes.spawn, Processes.goto, Processes.modify]
  cases hwf : (s.proc p).waitfors with
  | nil =>
    rw [hwf] at hl
    cases hl
  | cons w wf =>
    rw [hwf] at hswept hl hlocked
    exact .inr ⟨⟨(hclosed p).trans hopen, hlocked⟩, .inr ⟨w, wf, k, hswept, l, hl, hq⟩⟩

/-- A sweep of one process leaves the others alone. -/
theorem sweep_proc_of_ne {i p r : ℕ} {k : Option ℕ} (hne : p ≠ r) :
    (s.sweep i r k).proc p = s.proc p := by
  simp [Processes.sweep, Processes.spawn, Processes.goto, Processes.modify, hne]

/-- A goroutine that is not replaced is there after a sweep. -/
theorem mem_sweep {i r : ℕ} {k : Option ℕ} {g x : Goroutine E} (hi : s.threads[i]? = some g)
    (hx : x ∈ s.threads) (hne : x ≠ g) : x ∈ (s.sweep i r k).threads :=
  List.mem_append_left _ (mem_set_of_ne hi _ hx hne)

/-- A process goes on to wait in a silent move. -/
theorem WaitsFor.silent {i p q : ℕ} {g g' : Goroutine E} (h : s.WaitsFor p q)
    (hi : s.threads[i]? = some g) (hg : Silent s g g') : (s.goto i g').WaitsFor p q := by
  have hgrows : Grows s (s.goto i g') := grows_of_eq rfl rfl rfl rfl
  rcases h with hq | ⟨hopen, hwf | ⟨w, wf, k, hmem, l, hl, hq⟩⟩
  · exact .inl (hgrows.closed q hq)
  · exact .inr ⟨hopen, .inl hwf⟩
  by_cases heq : .waiting p w wf k = g
  · -- the goroutine of this process goes on to its next link
    subst heq
    cases hg with
    | @next _ _ w' wf _ hw =>
      rcases List.mem_cons.mp hl with rfl | hl
      · rw [childClosed, hq, Option.all_some] at hw
        exact .inl hw
      · have hlt := (List.getElem?_eq_some_iff.mp hi).1
        exact .inr ⟨hopen, .inr ⟨w', wf, k, List.mem_set hlt _, l, hl, hq⟩⟩
  · exact .inr ⟨hopen, .inr ⟨w, wf, k, mem_set_of_ne hi g' hmem heq, l, hl, hq⟩⟩

/-- A process changes in something else. -/
theorem keeps_modify {p r : ℕ} {f : Process T E → Process T E}
    (hclosed : (f (s.proc r)).closed = (s.proc r).closed)
    (hlocked : (f (s.proc r)).locked = (s.proc r).locked)
    (hwaitfors : (f (s.proc r)).waitfors = (s.proc r).waitfors) : s.Keeps (s.modify r f) p := by
  rcases eq_or_ne p r with rfl | hne <;> simp [Keeps, Processes.modify, *]

/-- A process goes on to wait in a step of a goroutine. -/
theorem WaitsFor.step {p q : ℕ} (hinv : Inv s) (h : s.WaitsFor p q) (hstep : Step s t) :
    t.WaitsFor p q := by
  have hs := hinv.sound
  have hgrows := (hs.step hstep).1
  cases hstep with
  | silent hi hg => exact h.silent hi hg
  | @begin i r k hi hfree hopen =>
    rcases eq_or_ne p r with rfl | hne
    · have hclosed : (s.proc p).closed = false := by
        by_contra hclosed
        rw [hs.closing p (by simpa using hclosed)] at hopen
        cases hopen
      refine WaitsFor.sweep (g := .close p k) hi ?_ ?_
      · simpa [Processes.modify] using hclosed
      rcases h with hq | ⟨-, ⟨l, hl, hq⟩ | ⟨w, wf, k', hmem, -⟩⟩
      · left
        rwa [modify_field (·.closed) rfl]
      · exact .inr ⟨l, by simpa [Processes.modify] using hl, hq⟩
      · -- no goroutine is in `doClose` yet
        rw [(hinv.closes.of_mem hmem (beq_self_eq_true p)).2.1] at hopen
        cases hopen
    · refine h.of_frame hgrows (fun _ => keeps_of_eq ?_)
        (fun w wf k' hmem => mem_sweep hi hmem (by simp)) (fun l => .inl)
      rw [sweep_proc_of_ne hne]
      simp [Processes.modify, hne]
  | @resume i r w k hi hfree hw =>
    rcases eq_or_ne p r with rfl | hne
    · obtain ⟨hone, -, hclosed⟩ :=
        hinv.closes.of_mem (List.mem_of_getElem? hi) (beq_self_eq_true p)
      refine WaitsFor.sweep hi hclosed ?_
      rcases h with hq | ⟨-, hwf | ⟨w', wf, k', hmem, l, hl, hq⟩⟩
      · exact .inl hq
      · exact .inr hwf
      · -- the goroutine has waited for its last link
        have heq := eq_of_countP_le_one hone.le hmem (beq_self_eq_true p)
          (List.mem_of_getElem? hi) (beq_self_eq_true p)
        cases heq
        cases List.mem_singleton.mp hl
        rw [childClosed, hq, Option.all_some] at hw
        exact .inl hw
    · refine h.of_frame hgrows (fun _ => keeps_of_eq (sweep_proc_of_ne hne))
        (fun w' wf k' hmem => mem_sweep hi hmem ?_) (fun l => .inl)
      rintro ⟨rfl, -⟩
      exact hne rfl
  | @added i l c hi =>
    have hkeeps : s.Keeps (s.modify c fun P => { P with waiters := P.waiters ++ [l] }) p :=
      keeps_modify rfl rfl rfl
    exact h.of_frame hgrows (fun _ => hkeeps)
      (fun w wf k hmem => mem_set_of_ne hi _ hmem (by simp)) (fun l => .inl)
  | @clear i l ls hi =>
    refine h.of_frame hgrows (fun _ => keeps_of_eq rfl)
      (fun w wf k hmem => mem_set_of_ne hi _ hmem (by simp)) (fun l' hl' => ?_)
    rcases eq_or_ne l' l with rfl | hne
    · exact .inr ((hs.threads _ (List.mem_of_getElem? hi) l' List.mem_cons_self).2 q hl')
    · exact .inl (by simpa [Processes.goto, hne] using hl')
  | @finish i r k e hi hopen =>
    rcases h with hq | ⟨⟨hpopen, hfree⟩, hexpects⟩
    · exact .inl (hgrows.closed q hq)
    have hne : p ≠ r := by
      -- the mutex of a process that runs its teardown function is locked
      rintro rfl
      rw [hinv.locks.tearing p k (List.mem_of_getElem? hi)] at hfree
      cases hfree
    refine WaitsFor.of_frame (.inr ⟨⟨hpopen, hfree⟩, hexpects⟩) hgrows (fun _ => keeps_of_eq ?_)
      (fun w wf k hmem => List.mem_append_left _ (mem_set_of_ne hi _ hmem (by simp)))
      (fun l => .inl)
    simp [Processes.finish, Processes.spawn, Processes.goto, Processes.modify, hne]
  | @crash i g hi hg =>
    refine h.of_frame hgrows (fun _ => keeps_of_eq rfl)
      (fun w wf k hmem => mem_set_of_ne hi _ hmem ?_) (fun l => .inl)
    rcases hg with ⟨l, rfl, -⟩ | ⟨p, k, rfl, -⟩ <;> simp

/-- A process that waits for another one goes on to do so, until that one is closed. -/
theorem WaitsFor.move {p q : ℕ} (hinv : Inv s) (h : s.WaitsFor p q) (hmove : Move s t) :
    t.WaitsFor p q := by
  have hs := hinv.sound
  have hgrows := (hs.move hmove).1
  have hlt : ∀ l, s.link l = some q → l < s.numLinks := fun l hl => (hs.link l q hl).1
  cases hmove with
  | add =>
    exact h.of_frame hgrows (fun hp => keeps_of_eq (by simp [Processes.add, (hp.lt_size hs).ne]))
      (fun _ _ _ => id) (fun l => .inl)
  | addFunction =>
    refine h.of_frame hgrows (fun hp => keeps_of_eq ?_)
      (fun _ _ _ hmem => List.mem_append_left _ hmem) (fun l => .inl)
    simp [Processes.addFunction, Processes.spawn, Processes.add, (hp.lt_size hs).ne]
  | close | closeAfterChildren =>
    exact h.of_frame hgrows (fun _ => keeps_of_eq rfl)
      (fun _ _ _ hmem => List.mem_append_left _ hmem) (fun l => .inl)
  | @addLink r q' child wait =>
    refine h.of_frame hgrows (fun _ => ?_) (fun _ _ _ hmem => List.mem_append_left _ hmem)
      (fun l hl => .inl ?_)
    · rcases eq_or_ne p r with rfl | hne
      · cases wait <;> simp [Keeps, Processes.addLink]
      · exact keeps_of_eq (by simp [Processes.addLink, hne])
    · simpa [Processes.addLink, (hlt l hl).ne] using hl
  | setTeardown =>
    exact h.of_frame hgrows (fun _ => keeps_modify rfl rfl rfl) (fun _ _ _ => id) (fun l => .inl)
  | @panic r hr hclosed =>
    rcases h with hq | ⟨hopen, hexpects⟩
    · exact .inl (hgrows.closed q hq)
    have hne : p ≠ r := by
      rintro rfl
      rw [hopen.1] at hclosed
      cases hclosed
    refine WaitsFor.of_frame (.inr ⟨hopen, hexpects⟩) hgrows (fun _ => keeps_of_eq ?_)
      (fun _ _ _ => id) (fun l => .inl)
    simp [Processes.modify, hne]
  | step hstep => exact h.step hinv hstep

/-- Moves keep the invariants and what waits. -/
theorem WaitsFor.moves {p q : ℕ} (hinv : Inv s) (h : s.WaitsFor p q)
    (hmoves : Relation.ReflTransGen Move s t) : Inv t ∧ t.WaitsFor p q := by
  induction hmoves with
  | refl => exact ⟨hinv, h⟩
  | tail _ hlast ih => exact ⟨ih.1.move hlast, ih.2.move ih.1 hlast⟩

/-- A process waits for the one that it is linked to. -/
theorem waitsFor_addLink {p q : ℕ} {child : Bool} (hopen : (s.proc p).closed = false)
    (hfree : (s.proc p).locked = false) : (s.addLink p q child true).WaitsFor p q := by
  refine .inr ⟨⟨?_, ?_⟩, .inl ⟨s.numLinks, ?_, ?_⟩⟩
  · rwa [addLink_field (·.closed) fun _ _ _ => rfl]
  · rwa [addLink_field (·.locked) fun _ _ _ => rfl]
  · simp [addLink]
  · simp [addLink]

/-- A process waits for its child. -/
theorem waitsFor_adopt {p q : ℕ} (hopen : (s.proc p).closed = false)
    (hfree : (s.proc p).locked = false) : (s.adopt p q true).WaitsFor p q := by
  unfold adopt
  split <;> exact waitsFor_addLink hopen hfree

/-- The child of `Go` waits for the function, and the process for the child. -/
theorem waitsFor_go (hinv : Inv s) {p : ℕ} (hp : p < s.size) (hfree : (s.proc p).locked = false) :
    (s.go p).WaitsFor s.size (s.size + 1) ∧
      ((s.proc p).closed = false → (s.go p).WaitsFor p s.size) := by
  have hchild : ((s.add none false).proc s.size).hidden = false := by simp [add, newProcess]
  have hadd : Move s (s.add none false) := .add none
  have hfun : Move (s.add none false) ((s.add none false).addFunction s.size) :=
    .addFunction (Nat.lt_succ_self _) hchild
  have hlink : Move ((s.add none false).addFunction s.size)
      (((s.add none false).addFunction s.size).addLink s.size (s.size + 1) false true) :=
    .addLink false true (Nat.lt_succ_of_lt (Nat.lt_succ_self _)) (Nat.lt_succ_self _)
      (fun hc => by cases hc)
  have hinv' := ((hinv.move hadd).move hfun).move hlink
  have hnew : (((s.add none false).addFunction s.size).proc s.size) = newProcess E none false := by
    simp [addFunction, spawn, add]
  have hold : ((((s.add none false).addFunction s.size).addLink s.size (s.size + 1) false
      true).proc p) = s.proc p := by
    simp [addLink, addFunction, spawn, add, hp.ne, (Nat.lt_succ_of_lt hp).ne]
  constructor
  · refine ((waitsFor_addLink ?_ ?_).moves hinv' (moves_adopt ?_ ?_ ?_)).2
    · rw [hnew]
      rfl
    · rw [hnew]
      rfl
    · exact Nat.lt_succ_of_lt (Nat.lt_succ_of_lt hp)
    · exact Nat.lt_succ_of_lt (Nat.lt_succ_self _)
    · rw [addLink_field (·.hidden) fun _ _ _ => rfl, hnew]
      rfl
  · intro hopen
    exact waitsFor_adopt (by rwa [hold]) (by rwa [hold])

/-- An event makes a process wait exactly if the call tells it to and finds it open. -/
theorem mem_waits_iff {l : ProcessEvent T E} {p q : ℕ} (hinv : Inv s) (hstep : s.next l = some t) :
    (p, q) ∈ l.waits ↔ (s.proc p).closed = false ∧ (p, q) ∈ l.tells := by
  cases l with
  | waitFor p' q' =>
    simp only [next, Option.ite_none_right_eq_some, Bool.and_eq_true, Bool.not_eq_true'] at hstep
    refine ⟨fun hpq => ⟨?_, hpq⟩, And.right⟩
    cases List.mem_singleton.mp hpq
    exact hstep.1.2
  | addChild p' q' late =>
    simp only [next, Option.ite_none_right_eq_some, Bool.and_eq_true, beq_iff_eq] at hstep
    obtain ⟨⟨-, rfl⟩, -⟩ := hstep
    cases hopen : (s.proc p').closed with
    | false =>
      refine ⟨fun hpq => ⟨?_, hpq⟩, And.right⟩
      cases List.mem_singleton.mp hpq
      exact hopen
    | true =>
      refine ⟨fun hpq => (by cases hpq), ?_⟩
      rintro ⟨hclosed, hpq⟩
      cases List.mem_singleton.mp hpq
      cases hopen.symm.trans hclosed
  | go p' c late =>
    simp only [next, Option.ite_none_right_eq_some, Bool.and_eq_true, beq_iff_eq] at hstep
    obtain ⟨⟨⟨-, rfl⟩, rfl⟩, -⟩ := hstep
    have hnew : (s.proc s.size).closed = false := by
      rw [hinv.sound.fresh s.size le_rfl]
      rfl
    cases hopen : (s.proc p').closed with
    | false =>
      refine ⟨fun hpq => ⟨?_, hpq⟩, And.right⟩
      rcases List.mem_cons.mp hpq with heq | hpq
      · cases heq
        exact hnew
      · cases List.mem_singleton.mp hpq
        exact hopen
    | true =>
      constructor
      · intro hpq
        cases List.mem_singleton.mp hpq
        exact ⟨hnew, .head _⟩
      · rintro ⟨hclosed, hpq⟩
        rcases List.mem_cons.mp hpq with heq | hpq
        · cases heq
          exact .head _
        · cases List.mem_singleton.mp hpq
          cases hopen.symm.trans hclosed
  | _ => exact ⟨fun hpq => (by cases hpq), fun h => (by cases h.2)⟩

/-- A process that is open waits for those that a call tells it to wait for. -/
theorem waitsFor_of_tells {l : ProcessEvent T E} {p q : ℕ} (hinv : Inv s)
    (hstep : s.next l = some t) (hopen : (s.proc p).closed = false) (hpq : (p, q) ∈ l.tells) :
    t.WaitsFor p q := by
  cases l with
  | waitFor p' q' =>
    cases List.mem_singleton.mp hpq
    simp only [next, Option.ite_none_right_eq_some, Bool.and_eq_true] at hstep
    obtain ⟨⟨⟨hfree, -⟩, -⟩, ht⟩ := hstep
    cases ht
    exact waitsFor_addLink hopen (free_iff.mp hfree).2
  | addChild p' q' late =>
    cases List.mem_singleton.mp hpq
    simp only [next, Option.ite_none_right_eq_some, Bool.and_eq_true] at hstep
    obtain ⟨⟨⟨hfree, -⟩, -⟩, ht⟩ := hstep
    cases ht
    exact waitsFor_adopt hopen (free_iff.mp hfree).2
  | go p' c late =>
    simp only [next, Option.ite_none_right_eq_some, Bool.and_eq_true, beq_iff_eq] at hstep
    obtain ⟨⟨⟨hfree, rfl⟩, -⟩, ht⟩ := hstep
    cases ht
    obtain ⟨⟨hlt, -⟩, hunlocked⟩ := free_iff.mp hfree
    obtain ⟨hfun, hchild⟩ := waitsFor_go hinv hlt hunlocked
    rcases List.mem_cons.mp hpq with heq | hpq
    · cases heq
      exact hfun
    · cases List.mem_singleton.mp hpq
      exact hchild hopen
  | _ => cases hpq

/-- Along every run, a process that was told to wait for another one before it was closed
does. -/
theorem waitsFor_run {ls : List (ProcessEvent T E)} (hrun : (lts T E).Run (start T E) ls s)
    {p q : ℕ} (hpq : Waits ls p q) : s.WaitsFor p q := by
  refine hrun.history_induction (fun hist u => Waits hist p q → u.WaitsFor p q) ?_ ?_ hpq
  · rintro ⟨l, hl, -⟩
    cases hl
  · rintro hist v l w hv ih hstep ⟨l', hl', hpq'⟩
    rcases List.mem_append.mp hl' with hold | hnew
    · exact ((ih ⟨l', hold, hpq'⟩).moves (inv_run hv) (moves_of_next hstep)).2
    · cases List.mem_singleton.mp hnew
      obtain ⟨hopen, htells⟩ := (mem_waits_iff (inv_run hv) hstep).mp hpq'
      exact waitsFor_of_tells (inv_run hv) hstep hopen htells

/-- The processes that a process has to wait for are those that it was told to wait for
while it was open. -/
theorem toldWhileOpen_iff {ls : List (ProcessEvent T E)} (hrun : (lts T E).Run (start T E) ls s)
    {p q : ℕ} : ToldWhileOpen ls p q ↔ Waits ls p q := by
  constructor
  · rintro ⟨hist, l, v, ⟨rest, rfl⟩, hv, hopen, htells⟩
    obtain ⟨u, hu, -⟩ := LTS.run_append_iff.mp hrun
    obtain ⟨v', hv', hstep⟩ := LTS.run_snoc_iff.mp hu
    cases Option.some.inj ((LTS.run_ofFun_iff.mp hv).symm.trans (LTS.run_ofFun_iff.mp hv'))
    exact ⟨l, by simp, (mem_waits_iff (inv_run hv) hstep).mpr ⟨hopen, htells⟩⟩
  · rintro ⟨l, hl, hwaits⟩
    obtain ⟨hist, rest, rfl⟩ := List.append_of_mem hl
    rw [List.append_cons] at hrun ⊢
    obtain ⟨u, hu, -⟩ := LTS.run_append_iff.mp hrun
    obtain ⟨v, hv, hstep⟩ := LTS.run_snoc_iff.mp hu
    obtain ⟨hopen, htells⟩ := (mem_waits_iff (inv_run hv) hstep).mp hwaits
    exact ⟨hist, l, v, List.prefix_append _ _, hv, hopen, htells⟩

/-! ## Once -/

/-- The next step of a goroutine closes nothing, does not panic, and makes no process and
no link. -/
theorem run_keeps {i : ℕ} (hinv : Inv s) (h : s.run i = some t) :
    (∀ p, (t.proc p).closed = (s.proc p).closed) ∧ t.panicked = s.panicked ∧
      t.size = s.size ∧ t.numLinks = s.numLinks := by
  have hsweep : ∀ {u : Processes T E} {p : ℕ} {k : Option ℕ} (q : ℕ),
      ((u.sweep i p k).proc q).closed = (u.proc q).closed :=
    fun q => sweep_field (·.closed) (fun _ _ _ _ => rfl) q
  unfold run at h
  split at h
  case h_1 p k hi =>
    split at h
    · cases h
    split at h
    · cases h
      exact ⟨fun _ => rfl, rfl, rfl, rfl⟩
    · cases h
      exact ⟨fun q => (hsweep q).trans (modify_field (·.closed) rfl q), rfl, rfl, rfl⟩
  case h_2 p w wf k hi =>
    split at h
    · cases h
    split at h
    · cases h
      exact ⟨hsweep, rfl, rfl, rfl⟩
    · cases h
      exact ⟨fun _ => rfl, rfl, rfl, rfl⟩
  case h_3 | h_9 =>
    obtain ⟨-, ht⟩ := Option.ite_none_right_eq_some.mp h
    cases ht
    exact ⟨fun _ => rfl, rfl, rfl, rfl⟩
  case h_4 l hi =>
    split at h
    next hl => exact absurd hl (hinv.adds.link l (List.mem_of_getElem? hi))
    next c hl =>
      split at h
      · cases h
      split at h
      · cases h
        exact ⟨fun _ => rfl, rfl, rfl, rfl⟩
      · cases h
        exact ⟨fun q => modify_field (s := s) (p := c)
          (f := fun P => { P with waiters := P.waiters ++ [l] }) (·.closed) rfl q, rfl, rfl, rfl⟩
  case h_5 | h_6 =>
    cases h
    exact ⟨fun _ => rfl, rfl, rfl, rfl⟩
  case h_7 p hi =>
    split at h
    · cases h
    split at h
    all_goals
      cases h
      exact ⟨fun _ => rfl, rfl, rfl, rfl⟩
  case h_8 p hi =>
    split at h
    · cases h
    split at h
    all_goals
      cases h
      exact ⟨fun _ => rfl, rfl, rfl, rfl⟩
  case h_10 => cases h

/-- Linking processes closes nothing. -/
theorem adopt_keeps (p q : ℕ) (wait : Bool) :
    (∀ r, ((s.adopt p q wait).proc r).closed = (s.proc r).closed) ∧
      (s.adopt p q wait).panicked = s.panicked := by
  unfold adopt
  split <;> exact ⟨addLink_field (·.closed) fun _ _ _ => rfl, rfl⟩

/-- `Go` closes nothing. -/
theorem go_keeps (hs : Sound s) (p : ℕ) :
    (∀ r, ((s.go p).proc r).closed = (s.proc r).closed) ∧ (s.go p).panicked = s.panicked := by
  have hadd : ∀ r, ((s.add none false).proc r).closed = (s.proc r).closed :=
    hs.add_field (·.closed) rfl
  have hfun : ∀ r, (((s.add none false).addFunction s.size).proc r).closed =
      ((s.add none false).proc r).closed :=
    (hs.add none false).add_field (·.closed) rfl
  obtain ⟨hadopt, hpanicked⟩ := adopt_keeps (s := ((s.add none false).addFunction s.size).addLink
    s.size (s.size + 1) false true) p s.size true
  refine ⟨fun r => ?_, hpanicked⟩
  rw [← hadd, ← hfun, ← addLink_field (s := (s.add none false).addFunction s.size) (·.closed)
    (fun _ _ _ => rfl)]
  exact hadopt r

/-- A step closes a process only when its teardown function returns, and the process was
not closed before. A step panics only if a caller adds to a closed process. -/
theorem next_keeps {l : ProcessEvent T E} (hinv : Inv s) (h : s.next l = some t) :
    (∃ i p e, l = .teardown i p e ∧ (s.proc p).closed = false ∧ t.panicked = s.panicked ∧
      ((t.proc p).closed = true ∧ (t.proc p).closeErr = e) ∧ ∀ q, q ≠ p → t.proc q = s.proc q) ∨
    (∀ p, l.TearsDown p = false) ∧ (∀ p, (t.proc p).closed = (s.proc p).closed) ∧
      (t.panicked = s.panicked ∨ ∃ p, l = .panic p) := by
  have hs := hinv.sound
  cases l with
  | newProcess tf =>
    cases h
    exact .inr ⟨fun _ => rfl, hs.add_field (·.closed) rfl, .inl rfl⟩
  | setTeardown p tf =>
    obtain ⟨-, ht⟩ := Option.ite_none_right_eq_some.mp h
    cases ht
    exact .inr ⟨fun _ => rfl, modify_field (·.closed) rfl, .inl rfl⟩
  | waitFor p q =>
    obtain ⟨-, ht⟩ := Option.ite_none_right_eq_some.mp h
    cases ht
    exact .inr ⟨fun _ => rfl, addLink_field (·.closed) fun _ _ _ => rfl, .inl rfl⟩
  | addChildNoWait p q late | addChild p q late =>
    obtain ⟨-, ht⟩ := Option.ite_none_right_eq_some.mp h
    cases ht
    obtain ⟨hclosed, hpanicked⟩ := adopt_keeps (s := s) p q _
    exact .inr ⟨fun _ => rfl, hclosed, .inl hpanicked⟩
  | go p c late =>
    obtain ⟨-, ht⟩ := Option.ite_none_right_eq_some.mp h
    cases ht
    obtain ⟨hclosed, hpanicked⟩ := go_keeps hs p
    exact .inr ⟨fun _ => rfl, hclosed, .inl hpanicked⟩
  | panic p =>
    obtain ⟨-, ht⟩ := Option.ite_none_right_eq_some.mp h
    cases ht
    exact .inr ⟨fun _ => rfl, modify_field (s := s) (p := p)
      (f := fun P => { P with locked := true }) (·.closed) rfl, .inr ⟨p, rfl⟩⟩
  | close p | closeAfterChildren p =>
    obtain ⟨-, ht⟩ := Option.ite_none_right_eq_some.mp h
    cases ht
    exact .inr ⟨fun _ => rfl, fun _ => rfl, .inl rfl⟩
  | run i =>
    obtain ⟨hclosed, hpanicked, -⟩ := run_keeps hinv h
    exact .inr ⟨fun _ => rfl, hclosed, .inl hpanicked⟩
  | teardown i p e =>
    simp only [next] at h
    split at h
    next p' k hi =>
      obtain ⟨⟨rfl, -⟩, ht⟩ := Option.ite_none_right_eq_some.mp h
      obtain ⟨-, -, hopen⟩ := hinv.closes.of_mem (List.mem_of_getElem? hi) (beq_self_eq_true p')
      rw [if_neg (by simp [hopen])] at ht
      cases ht
      refine .inl ⟨i, p', e, rfl, hopen, rfl, ?_, fun q hne => ?_⟩
      · simp [finish, spawn, goto, modify]
      · simp [finish, spawn, goto, modify, hne]
    next => cases h
  | returns i =>
    simp only [next] at h
    split at h
    next =>
      cases h
      exact .inr ⟨fun _ => rfl, fun _ => rfl, .inl rfl⟩
    next => cases h

/-- A process is closed if its teardown function has returned, once, with the error that
`Close` returns. -/
theorem teardowns_run {ls : List (ProcessEvent T E)} (hrun : (lts T E).Run (start T E) ls s)
    (p : ℕ) : ls.countP (ProcessEvent.TearsDown p) = (s.proc p).closed.toNat ∧
      ((s.proc p).closed → ∃ i, .teardown i p (s.proc p).closeErr ∈ ls) := by
  refine hrun.history_induction (fun hist u => hist.countP (ProcessEvent.TearsDown p) =
    (u.proc p).closed.toNat ∧ ((u.proc p).closed → ∃ i, .teardown i p (u.proc p).closeErr ∈ hist))
    ⟨rfl, fun hclosed => by cases hclosed⟩ ?_
  rintro hist v l w hv ⟨hcount, herr⟩ hstep
  have hinv := inv_run hv
  rw [List.countP_append, List.countP_singleton, hcount]
  rcases next_keeps hinv hstep with ⟨i, q, e, rfl, hopen, -, ⟨hclosed, herr'⟩, hother⟩ |
    ⟨htears, hclosed, -⟩
  · rcases eq_or_ne p q with rfl | hne
    · refine ⟨?_, fun _ => ⟨i, ?_⟩⟩
      · simp [hopen, hclosed, ProcessEvent.TearsDown]
      · rw [herr']
        exact List.mem_append_right _ (List.mem_singleton_self _)
    · rw [hother p hne]
      refine ⟨?_, fun hp => ?_⟩
      · simp [ProcessEvent.TearsDown, hne.symm]
      · obtain ⟨i, hi⟩ := herr hp
        exact ⟨i, List.mem_append_left _ hi⟩
  · rw [hclosed, htears p]
    refine ⟨rfl, fun hp => ?_⟩
    obtain ⟨i, hi⟩ := herr hp
    rw [(hinv.grows_next hstep).closeErr p hp]
    exact ⟨i, List.mem_append_left _ hi⟩

/-- A panic comes from a caller that adds to a process which is closed at that time. -/
theorem panicked_run {ls : List (ProcessEvent T E)} (hrun : (lts T E).Run (start T E) ls s)
    (hpanicked : s.panicked) : ∃ hist v p, hist ++ [.panic p] <+: ls ∧
      (lts T E).Run (start T E) hist v ∧ (v.proc p).closed := by
  refine hrun.history_induction (fun ls u => u.panicked → ∃ hist v p, hist ++ [.panic p] <+: ls ∧
    (lts T E).Run (start T E) hist v ∧ (v.proc p).closed) (fun h => by cases h) ?_ hpanicked
  intro hist v l w hv ih hstep hw
  have hold (hv' : v.panicked = true) : ∃ hist' v p, hist' ++ [.panic p] <+: hist ++ [l] ∧
      (lts T E).Run (start T E) hist' v ∧ (v.proc p).closed := by
    obtain ⟨hist', v', p, hpre, hrest⟩ := ih hv'
    exact ⟨hist', v', p, hpre.trans (List.prefix_append _ _), hrest⟩
  rcases next_keeps (inv_run hv) hstep with ⟨-, -, -, -, -, hsame, -⟩ | ⟨-, -, hsame | ⟨p, rfl⟩⟩
  · exact hold (hsame ▸ hw)
  · exact hold (hsame ▸ hw)
  · obtain ⟨hguard, -⟩ := Option.ite_none_right_eq_some.mp hstep
    exact ⟨hist, v, p, List.prefix_rfl, hv, (Bool.and_eq_true_iff.mp hguard).2⟩

/-- **Teardowns are ordered and run once.** Take any interleaving of goroutines that make
processes, link them and close them. While the teardown function of a process runs, and
when the process is closed, every process that it was told to wait for before it was
closed is closed. The teardown function of a process has returned exactly once if the
process is closed, and not at all otherwise. A process that is closed began to close
before. Every call of `Close` that returned did so after the process was closed, with the
error of its teardown function. Given processes that `newProcess` made, the package panics
only where a caller adds to a process that is closed at that time. -/
theorem ordered_teardown (ls : List (ProcessEvent T E)) (s : Processes T E)
    (hrun : (lts T E).Run (start T E) ls s) :
    (∀ p q, ToldWhileOpen ls p q → ((s.proc p).closed ∨ ∃ k, .tearing p k ∈ s.threads) →
      (s.proc q).closed) ∧
    (∀ p, ls.countP (ProcessEvent.TearsDown p) = (s.proc p).closed.toNat ∧
      ((s.proc p).closed → (s.proc p).closing)) ∧
    (∀ p e, .returned p e ∈ s.threads →
      (s.proc p).closed ∧ ∃ i, .teardown i p e ∈ ls) ∧
    (s.panicked → ∃ hist v p, hist ++ [.panic p] <+: ls ∧
      (lts T E).Run (start T E) hist v ∧ (v.proc p).closed) := by
  have hinv := inv_run hrun
  refine ⟨?_, ?_, ?_, panicked_run hrun⟩
  · intro p q hpq hp
    rcases waitsFor_run hrun ((toldWhileOpen_iff hrun).mp hpq) with hq | ⟨⟨hopen, hfree⟩, -⟩
    · exact hq
    · rcases hp with hclosed | ⟨k, hk⟩
      · rw [hopen] at hclosed
        cases hclosed
      · rw [hinv.locks.tearing p k hk] at hfree
        cases hfree
  · exact fun p => ⟨(teardowns_run hrun p).1, hinv.sound.closing p⟩
  · intro p e hp
    obtain ⟨hclosed, rfl⟩ := hinv.sound.threads _ hp
    exact ⟨hclosed, (teardowns_run hrun p).2 hclosed⟩

/-- A process is closed while a child of `Go` runs its function. The process is closed
after the child, and the child after the process that its function held open. -/
def closeWithFunction : List (ProcessEvent Unit Unit) :=
  [.newProcess (some ()), .go 0 1 false, .close 0, .run 3, .run 4, .returns 0, .run 0,
    .teardown 0 2 none, .run 4, .teardown 4 1 none, .run 3, .teardown 3 0 (some ())]

/-- The processes for which the closed one had to wait are closed. -/
theorem ordered_teardown_function : ∃ s, (lts Unit Unit).Run (start Unit Unit) closeWithFunction s ∧
    (s.proc 0).closed ∧ (s.proc 1).closed ∧ (s.proc 2).closed := by
  have hrun : ∃ s, (lts Unit Unit).Run (start Unit Unit) closeWithFunction s ∧
      (s.proc 0).closed := ⟨_, LTS.run_ofFun_iff.mpr rfl, rfl⟩
  obtain ⟨s, hrun, hclosed⟩ := hrun
  obtain ⟨hwaits, -⟩ := ordered_teardown closeWithFunction s hrun
  have hgo : .go 0 1 false ∈ closeWithFunction := .tail _ (.head _)
  have htold : ToldWhileOpen closeWithFunction 0 1 ∧ ToldWhileOpen closeWithFunction 1 2 :=
    ⟨(toldWhileOpen_iff hrun).mpr ⟨_, hgo, .tail _ (.head _)⟩,
      (toldWhileOpen_iff hrun).mpr ⟨_, hgo, .head _⟩⟩
  have hchild : (s.proc 1).closed := hwaits 0 1 htold.1 (.inl hclosed)
  exact ⟨s, hrun, hclosed, hchild, hwaits 1 2 htold.2 (.inl hchild)⟩

end Processes

end GoBlocks
