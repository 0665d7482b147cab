import GoBlocks.Process.Teardown

/-!
# Functions of processes

`Go` runs a function with a child process. While the function runs, the child is not
closed, and neither is any process that waits for the child, directly or not. A function
can therefore add to the process that runs it, as `LimitedGo` of the worker's limiter
does in the limiter loop, also while that process is closing.
-/

namespace GoBlocks.Processes

variable {T E : Type} {s t : Processes T E}

/-- A silent move does not begin a function. -/
theorem Silent.not_body {g g' : Goroutine E} (h : Silent s g g') (c w : ℕ) : .body c w ≠ g' := by
  cases h with
  | @after p k => cases k <;> simp [Goroutine.after]
  | _ => simp

/-- A step of a goroutine begins no function. -/
theorem Step.mem_body {c w : ℕ} (h : Step s t) (hmem : .body c w ∈ t.threads) :
    .body c w ∈ s.threads := by
  have hsweep : ∀ {u : Processes T E} {i p : ℕ} {k : Option ℕ},
      .body c w ∈ (u.sweep i p k).threads → .body c w ∈ u.threads := by
    intro u i p k hu
    rcases List.mem_append.mp hu with hu | hu
    · refine (List.mem_or_eq_of_mem_set hu).resolve_right ?_
      cases (u.proc p).waitfors <;> simp [Goroutine.swept]
    · simp at hu
  cases h with
  | silent hi hg => exact (mem_goto hmem).resolve_right (hg.not_body c w)
  | begin hi => exact hsweep (u := s.modify _ _) hmem
  | resume hi => exact hsweep hmem
  | added hi | clear hi | crash hi => exact (mem_goto (s := s) hmem).resolve_right (by simp)
  | @finish i p k e hi =>
    rcases List.mem_append.mp hmem with hmem | hmem
    · refine (List.mem_or_eq_of_mem_set hmem).resolve_right ?_
      cases k <;> simp [Goroutine.after]
    · simp at hmem

/-- A function begins with `Go`. -/
theorem mem_body_next {l : ProcessEvent T E} {c w : ℕ} (h : s.next l = some t)
    (hmem : .body c w ∈ t.threads) :
    .body c w ∈ s.threads ∨ ∃ p late, l = .go p c late ∧ w = c + 1 := by
  have hadopt : ∀ {u : Processes T E} {p q : ℕ} {wait : Bool},
      .body c w ∈ (u.adopt p q wait).threads → .body c w ∈ u.threads := by
    intro u p q wait hu
    unfold adopt at hu
    split at hu <;> simpa [addLink, spawn] using hu
  cases l with
  | addChildNoWait p q late | addChild p q late =>
    obtain ⟨-, ht⟩ := Option.ite_none_right_eq_some.mp h
    cases ht
    exact .inl (hadopt hmem)
  | go p c' late =>
    simp only [next, Option.ite_none_right_eq_some, Bool.and_eq_true, beq_iff_eq] at h
    obtain ⟨⟨⟨-, rfl⟩, -⟩, ht⟩ := h
    cases ht
    have hfun := hadopt hmem
    simp only [addLink, addFunction, spawn, add, List.mem_append, List.mem_singleton,
      Goroutine.body.injEq, reduceCtorEq, or_false] at hfun
    rcases hfun with hold | ⟨rfl, rfl⟩
    · exact .inl hold
    · exact .inr ⟨p, late, rfl, rfl⟩
  | newProcess tf =>
    cases h
    exact .inl hmem
  | setTeardown p tf | waitFor p q | panic p | close p | closeAfterChildren p =>
    obtain ⟨-, ht⟩ := Option.ite_none_right_eq_some.mp h
    cases ht
    first
      | exact .inl hmem
      | exact .inl (by simpa [addLink] using hmem)
      | exact .inl (by simpa [spawn] using hmem)
  | run i | teardown i p e | returns i => exact .inl ((step_of_internal rfl h).mem_body hmem)

/-- A child of `Go` waits for the process that its function holds open. -/
theorem waits_of_body {ls : List (ProcessEvent T E)} (hrun : (lts T E).Run (start T E) ls s)
    {c w : ℕ} (hmem : .body c w ∈ s.threads) : Waits ls c w := by
  refine hrun.history_induction (fun hist u => .body c w ∈ u.threads → Waits hist c w)
    (fun h => by cases h) ?_ hmem
  intro hist v l u _ ih hstep hu
  rcases mem_body_next hstep hu with hold | ⟨p, late, rfl, rfl⟩
  · obtain ⟨l', hl', hwaits⟩ := ih hold
    exact ⟨l', List.mem_append_left _ hl', hwaits⟩
  · refine ⟨_, List.mem_append_right _ (List.mem_singleton_self _), ?_⟩
    cases late <;> exact .head _

/-- **A process outlives the functions that it waits for.** Take any interleaving, and a
function that `Go` runs and that has not returned. Neither its child process nor any
process that was told to wait for the child, directly or through others, runs its teardown
function or is closed; only calls count here that were made before the process they were
made on was closed. A call of `Go`, `AddChild`, `AddChildNoWait` or `WaitFor` on such a
process, with a process that `newProcess` made, does not panic. -/
theorem ancestors_open (ls : List (ProcessEvent T E)) (s : Processes T E)
    (hrun : (lts T E).Run (start T E) ls s) (c w : ℕ) (hbody : .body c w ∈ s.threads) (p : ℕ)
    (hp : Relation.ReflTransGen (ToldWhileOpen ls) p c) :
    (s.proc p).closed = false ∧ (∀ k, .tearing p k ∉ s.threads) ∧ s.next (.panic p) = none := by
  have hinv := inv_run hrun
  have hstep : ∀ p q, ToldWhileOpen ls p q → (s.proc q).closed = false →
      (s.proc p).closed = false ∧ ∀ k, .tearing p k ∉ s.threads := by
    intro p q hpq hq
    rcases waitsFor_run hrun ((toldWhileOpen_iff hrun).mp hpq) with
      hclosed | ⟨⟨hopen, hfree⟩, -⟩
    · rw [hq] at hclosed
      cases hclosed
    · refine ⟨hopen, fun k hk => ?_⟩
      rw [hinv.locks.tearing p k hk] at hfree
      cases hfree
  have hw : (s.proc w).closed = false := by
    by_contra hclosed
    have hclosing := hinv.sound.closing w (by simpa using hclosed)
    rw [hinv.held.body c w hbody] at hclosing
    cases hclosing
  have hopen : (s.proc p).closed = false ∧ ∀ k, .tearing p k ∉ s.threads := by
    induction hp using Relation.ReflTransGen.head_induction_on with
    | refl => exact hstep c w ((toldWhileOpen_iff hrun).mpr (waits_of_body hrun hbody)) hw
    | head hpq _ ih => exact hstep _ _ hpq ih.1
  refine ⟨hopen.1, hopen.2, ?_⟩
  simp [next, hopen.1]

/-- A process and its child are closed while a function that the child runs has not
returned. -/
def closeWhileRunning : List (ProcessEvent Unit Unit) :=
  [.newProcess none, .newProcess none, .addChild 0 1 false, .go 1 2 false, .close 0, .run 4,
    .run 5]

/-- The processes are closing and not closed, and the function can add to the one that runs
it. -/
theorem ancestors_open_closing : ∃ s,
    (lts Unit Unit).Run (start Unit Unit) closeWhileRunning s ∧ (s.proc 0).closing ∧
      (s.proc 1).closing ∧ (s.proc 0).closed = false ∧ s.next (.panic 1) = none := by
  have hrun : ∃ s, (lts Unit Unit).Run (start Unit Unit) closeWhileRunning s ∧
      (s.proc 0).closing ∧ (s.proc 1).closing ∧ s.threads[1]? = some (.body 2 3) :=
    ⟨_, LTS.run_ofFun_iff.mpr rfl, rfl, rfl, rfl⟩
  obtain ⟨s, hrun, hclosing, hclosing', hbody⟩ := hrun
  have hmem := List.mem_of_getElem? hbody
  have hchild : ToldWhileOpen closeWhileRunning 1 2 := (toldWhileOpen_iff hrun).mpr
    ⟨.go 1 2 false, .tail _ (.tail _ (.tail _ (.head _))), .tail _ (.head _)⟩
  have hroot : ToldWhileOpen closeWhileRunning 0 1 := (toldWhileOpen_iff hrun).mpr
    ⟨.addChild 0 1 false, .tail _ (.tail _ (.head _)), .head _⟩
  obtain ⟨hopen, -⟩ := ancestors_open _ s hrun 2 3 hmem 0 (.head hroot (.single hchild))
  obtain ⟨-, -, hpanic⟩ := ancestors_open _ s hrun 2 3 hmem 1 (.single hchild)
  exact ⟨s, hrun, hclosing, hclosing', hopen, hpanic⟩

end GoBlocks.Processes
