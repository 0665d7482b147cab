import GoBlocks.Process.Function
import GoBlocks.Process.Work

/-!
# Closing comes to an end

A process that begins to close also closes its children. When the goroutines have come to
rest, every process that began to close is closed and every call of `Close` has returned,
unless processes wait for each other in a circle, or for one that nobody closes. Waiting
in a circle is the only deadlock of the package.
-/

namespace GoBlocks

variable {T E : Type}

namespace ProcessEvent

/-- The pairs of a process and a child that is to be closed with it. -/
def adopts : ProcessEvent T E → List (ℕ × ℕ)
  | .addChildNoWait p q _ | .addChild p q _ | .go p q _ => [(p, q)]
  | _ => []

end ProcessEvent

namespace Processes

variable {s t : Processes T E}

/-- In the course of the events, `q` became a child of `p`. -/
def Adopts (ls : List (ProcessEvent T E)) (p q : ℕ) : Prop := ∃ l ∈ ls, (p, q) ∈ l.adopts

/-- No goroutine can take a further step. -/
def AtRest (s : Processes T E) : Prop := (lts T E).Quiet (fun l => l.Internal) s

/-! ## Children -/

/-- The process is not closing, and has a link to the child. -/
def Linked (s : Processes T E) (p q : ℕ) : Prop :=
  (s.proc p).closing = false ∧ ∃ l ∈ (s.proc p).children, s.link l = some q

/-- The child is closing or about to be closed, or the process is not closing yet. -/
def Adopted (s : Processes T E) (p q : ℕ) : Prop :=
  (s.proc q).closing ∨ (∃ k, .close q k ∈ s.threads) ∨ s.Linked p q

/-- A link stays if the step does not close the process. -/
theorem Linked.of_frame {p q : ℕ} (h : s.Linked p q)
    (hclosing : (t.proc p).closing = (s.proc p).closing)
    (hchildren : (s.proc p).children ⊆ (t.proc p).children)
    (hlink : ∀ l, s.link l = some q → t.link l = some q) : t.Linked p q := by
  obtain ⟨hopen, l, hl, hq⟩ := h
  exact ⟨hclosing.trans hopen, l, hchildren hl, hlink l hq⟩

/-- The process and the links do not change. -/
theorem Linked.of_eq {p q : ℕ} (h : s.Linked p q)
    (hclosing : (t.proc p).closing = (s.proc p).closing)
    (hchildren : (t.proc p).children = (s.proc p).children) (hlink : t.link = s.link) :
    t.Linked p q :=
  h.of_frame hclosing (fun _ hl => hchildren ▸ hl) (fun _ hl => hlink ▸ hl)

/-- A child that is closing or about to be closed stays so. -/
theorem Adopted.of_frame {p q : ℕ} (h : s.Adopted p q) (hgrows : Grows s t)
    (hclose : ∀ k, .close q k ∈ s.threads → .close q k ∈ t.threads ∨ (t.proc q).closing)
    (hlinked : s.Linked p q → t.Adopted p q) : t.Adopted p q := by
  rcases h with hq | ⟨k, hk⟩ | hlinked'
  · exact .inl (hgrows.closing q hq)
  · rcases hclose k hk with hk | hq
    · exact .inr (.inl ⟨k, hk⟩)
    · exact .inl hq
  · exact hlinked hlinked'

/-- A process changes in something else than its children. -/
theorem Linked.modify {p q r : ℕ} {f : Process T E → Process T E} (h : s.Linked p q)
    (hclosing : (f (s.proc r)).closing = (s.proc r).closing)
    (hchildren : (f (s.proc r)).children = (s.proc r).children) : (s.modify r f).Linked p q :=
  h.of_eq (modify_field (·.closing) hclosing p) (modify_field (·.children) hchildren p) rfl

/-- A child is closed with its process if a goroutine takes a step. -/
theorem Adopted.step {p q : ℕ} (hinv : Inv s) (h : s.Adopted p q) (hstep : Step s t) :
    t.Adopted p q := by
  have hs := hinv.sound
  have hgrows := (hs.step hstep).1
  have hset : ∀ {i : ℕ} {g : Goroutine E} (g' : Goroutine E), s.threads[i]? = some g →
      (∀ k, .close q k = g → (t.proc q).closing) → ∀ k, .close q k ∈ s.threads →
      .close q k ∈ s.threads.set i g' ∨ (t.proc q).closing := by
    intro i g g' hi hg k hk
    by_cases heq : .close q k = g
    · exact .inr (hg k heq)
    · exact .inl (mem_set_of_ne hi g' hk heq)
  cases hstep with
  | silent hi hg =>
    refine h.of_frame hgrows (hset _ hi ?_) fun hl => .inr (.inr hl)
    rintro k rfl
    cases hg with
    | join hclosing => exact hclosing
  | @begin i r k hi hfree hopen =>
    have hbegun :
        (((s.modify r fun P => { P with closing := true }).sweep i r k).proc r).closing := by
      rw [sweep_field (·.closing) fun _ _ _ _ => rfl]
      simp [Processes.modify]
    refine h.of_frame hgrows ?_ fun hl => ?_
    · intro k' hk'
      refine (hset (.swept r k _) hi ?_ k' hk').imp_left (List.mem_append_left _)
      rintro _ ⟨rfl, -⟩
      exact hbegun
    · rcases eq_or_ne p r with rfl | hne
      · -- the process begins to close, and starts a goroutine that closes the child
        obtain ⟨-, l, hl, hq⟩ := hl
        refine .inr (.inl ⟨none, List.mem_append_right _ (List.mem_map.mpr ⟨q, ?_, rfl⟩)⟩)
        exact List.mem_filterMap.mpr ⟨l, by simpa [Processes.modify] using hl, hq⟩
      · have hproc : ((s.modify r fun P => { P with closing := true }).sweep i r k).proc p =
            s.proc p := by
          rw [sweep_proc_of_ne hne]
          simp [Processes.modify, hne]
        exact .inr (.inr (hl.of_eq (congrArg (·.closing) hproc) (congrArg (·.children) hproc) rfl))
  | @resume i r w k hi hfree hw =>
    refine h.of_frame hgrows ?_ fun hl => ?_
    · intro k' hk'
      exact (hset (.swept r k _) hi (by simp) k' hk').imp_left (List.mem_append_left _)
    · have hne : p ≠ r := by
        rintro rfl
        have hclosing := (hs.threads _ (List.mem_of_getElem? hi)).2.1
        rw [hl.1] at hclosing
        cases hclosing
      have hproc := sweep_proc_of_ne (s := s) (i := i) (k := k) hne
      exact .inr (.inr (hl.of_eq (congrArg (·.closing) hproc) (congrArg (·.children) hproc) rfl))
  | @added i l c hi =>
    refine h.of_frame hgrows (hset _ hi (by simp)) fun hl => .inr (.inr ?_)
    exact (hl.modify (r := c) (f := fun P => { P with waiters := P.waiters ++ [l] }) rfl rfl :)
  | @clear i l ls hi =>
    refine h.of_frame hgrows (hset _ hi (by simp)) fun hl => ?_
    obtain ⟨hopen, l', hl', hq⟩ := hl
    rcases eq_or_ne l' l with rfl | hne
    · -- the link loses its child after the child is closed
      exact .inl (hs.closing q
        ((hs.threads _ (List.mem_of_getElem? hi) l' List.mem_cons_self).2 q hq))
    · exact .inr (.inr ⟨hopen, l', hl', by simpa [Processes.goto, hne] using hq⟩)
  | @finish i r k e hi hopen =>
    refine h.of_frame hgrows ?_ fun hl => .inr (.inr ?_)
    · intro k' hk'
      exact (hset (.after r e k) hi (by simp) k' hk').imp_left (List.mem_append_left _)
    · exact (hl.modify (r := r) (f := fun P =>
        { P with closeErr := e, closed := true, locked := false }) rfl rfl :)
  | @crash i g hi hg =>
    refine h.of_frame hgrows (hset _ hi ?_) fun hl => .inr (.inr hl)
    rcases hg with ⟨l, rfl, -⟩ | ⟨r, k, rfl, -⟩ <;> simp

/-- A child is closed with its process. -/
theorem Adopted.move {p q : ℕ} (hinv : Inv s) (h : s.Adopted p q) (hmove : Move s t) :
    t.Adopted p q := by
  have hs := hinv.sound
  have hgrows := (hs.move hmove).1
  have hadd : ∀ tf hidden, s.Linked p q → (s.add tf hidden).Linked p q := by
    intro tf hidden hlinked
    have hclosing : ∀ r, ((s.add tf hidden).proc r).closing = (s.proc r).closing :=
      hs.add_field (·.closing) rfl
    have hchildren : ∀ r, ((s.add tf hidden).proc r).children = (s.proc r).children :=
      hs.add_field (·.children) rfl
    exact hlinked.of_eq (hclosing p) (hchildren p) rfl
  cases hmove with
  | add tf => exact h.of_frame hgrows (fun _ => .inl) fun hl => .inr (.inr (hadd tf false hl))
  | addFunction =>
    exact h.of_frame hgrows (fun _ hk => .inl (List.mem_append_left _ hk)) fun hl =>
      .inr (.inr (hadd none true hl))
  | close | closeAfterChildren =>
    exact h.of_frame hgrows (fun _ hk => .inl (List.mem_append_left _ hk)) fun hl => .inr (.inr hl)
  | @addLink r q' child wait =>
    refine h.of_frame hgrows (fun _ hk => .inl (List.mem_append_left _ hk)) fun hl =>
      .inr (.inr (hl.of_frame (addLink_field (·.closing) (fun _ _ _ => rfl) p) ?_ fun l hq => ?_))
    · rcases eq_or_ne p r with rfl | hne
      · cases child <;> simp [Processes.addLink]
      · simp [Processes.addLink, hne]
    · simpa [Processes.addLink, (hs.link l q hq).1.ne] using hq
  | setTeardown =>
    exact h.of_frame hgrows (fun _ => .inl) fun hl => .inr (.inr (hl.modify rfl rfl))
  | @panic r =>
    exact h.of_frame hgrows (fun _ => .inl) fun hl =>
      .inr (.inr (hl.modify (r := r) (f := fun P => { P with locked := true }) rfl rfl))
  | step hstep => exact h.step hinv hstep

/-- Moves keep the invariants and the children. -/
theorem Adopted.moves {p q : ℕ} (hinv : Inv s) (h : s.Adopted p q)
    (hmoves : Relation.ReflTransGen Move s t) : t.Adopted p q := by
  have hboth : Inv t ∧ t.Adopted p q := by
    induction hmoves with
    | refl => exact ⟨hinv, h⟩
    | tail _ hlast ih => exact ⟨ih.1.move hlast, ih.2.move ih.1 hlast⟩
  exact hboth.2

/-- A process that is closing closes the child that it adopts. -/
theorem adopted_adopt (p q : ℕ) (wait : Bool) : (s.adopt p q wait).Adopted p q := by
  unfold adopt
  split
  next hclosing =>
    refine .inr (.inl ⟨none, ?_⟩)
    simp [addLink, spawn]
  next hopen =>
    refine .inr (.inr ⟨?_, s.numLinks, ?_, ?_⟩)
    · simpa [addLink] using hopen
    · simp [addLink]
    · simp [addLink]

/-- Along every run, a child is closed with its process. -/
theorem adopted_run {ls : List (ProcessEvent T E)} (hrun : (lts T E).Run (start T E) ls s)
    {p q : ℕ} (hpq : Adopts ls p q) : s.Adopted p q := by
  refine hrun.history_induction (fun hist u => Adopts hist p q → u.Adopted p q) ?_ ?_ hpq
  · rintro ⟨l, hl, -⟩
    cases hl
  · rintro hist v l w hv ih hstep ⟨l', hl', hpq'⟩
    rcases List.mem_append.mp hl' with hold | hnew
    · exact (ih ⟨l', hold, hpq'⟩).moves (inv_run hv) (moves_of_next hstep)
    · cases List.mem_singleton.mp hnew
      cases l with
      | addChildNoWait p' q' late | addChild p' q' late =>
        cases List.mem_singleton.mp hpq'
        obtain ⟨-, ht⟩ := Option.ite_none_right_eq_some.mp hstep
        cases ht
        exact adopted_adopt p q _
      | go p' c late =>
        cases List.mem_singleton.mp hpq'
        simp only [lts, LTS.ofFun, next, Option.ite_none_right_eq_some, Bool.and_eq_true,
          beq_iff_eq] at hstep
        obtain ⟨⟨⟨-, rfl⟩, -⟩, ht⟩ := hstep
        cases ht
        exact adopted_adopt p _ _
      | _ => cases hpq'

/-! ## Where waiting comes from -/

/-- The process is to wait for the child of the link. -/
def Listed (s : Processes T E) (p l : ℕ) : Prop :=
  l ∈ (s.proc p).waitfors ∨ ∃ w wf k, .waiting p w wf k ∈ s.threads ∧ l ∈ w :: wf

/-- A process that is not closed waits only for those to which `R` relates it. -/
def Told (R : ℕ → ℕ → Prop) (s : Processes T E) : Prop :=
  ∀ p l, s.Listed p l →
    l < s.numLinks ∧ ∀ q, s.link l = some q → (s.proc p).closed = false → R p q

/-- No process is to wait for another link. -/
theorem Told.of_listed {R : ℕ → ℕ → Prop} (h : Told R s) (hgrows : Grows s t)
    (hlisted : ∀ p l, t.Listed p l → s.Listed p l) : Told R t := by
  intro p l hl
  obtain ⟨hlt, hR⟩ := h p l (hlisted p l hl)
  refine ⟨hlt.trans_le hgrows.numLinks, fun q hq hopen => hR q (hgrows.link l hlt q hq) ?_⟩
  by_contra hclosed
  rw [hgrows.closed p (by simpa using hclosed)] at hopen
  cases hopen

/-- A link that a process waits for was there before if the step adds none. -/
theorem Listed.of_frame {p l : ℕ} (h : t.Listed p l)
    (hwaitfors : (t.proc p).waitfors = (s.proc p).waitfors)
    (hthreads : ∀ w wf k, .waiting p w wf k ∈ t.threads → .waiting p w wf k ∈ s.threads) :
    s.Listed p l := by
  rcases h with hl | ⟨w, wf, k, hmem, hl⟩
  · exact .inl (hwaitfors ▸ hl)
  · exact .inr ⟨w, wf, k, hthreads w wf k hmem, hl⟩

/-- A silent move waits for no other link. -/
theorem Silent.listed {i p l : ℕ} {g g' : Goroutine E} (hi : s.threads[i]? = some g)
    (hg : Silent s g g') (h : (s.goto i g').Listed p l) : s.Listed p l := by
  rcases h with hl | ⟨w, wf, k, hmem, hl⟩
  · exact .inl hl
  rcases mem_goto hmem with hold | hnew
  · exact .inr ⟨w, wf, k, hold, hl⟩
  · generalize hw : Goroutine.waiting p w wf k = g'' at hnew
    subst hnew
    cases hg with
    | @next _ w' _ _ _ hready =>
      cases hw
      exact .inr ⟨w', _, k, List.mem_of_getElem? hi, List.mem_cons_of_mem _ hl⟩
    | @after p k => cases k <;> cases hw
    | _ => cases hw

/-- A goroutine that goes through the loop of `doClose` waits for what the process was to
wait for. -/
theorem listed_of_sweep {i p r l : ℕ} {k : Option ℕ} (h : (s.sweep i r k).Listed p l) :
    s.Listed p l := by
  rcases h with hl | ⟨w, wf, k', hmem, hl⟩
  · rcases eq_or_ne p r with rfl | hne
    · simp [sweep, spawn, goto, modify] at hl
    · rw [sweep_proc_of_ne hne] at hl
      exact .inl hl
  · rcases List.mem_append.mp hmem with hmem | hmem
    · rcases List.mem_or_eq_of_mem_set hmem with hold | hnew
      · exact .inr ⟨w, wf, k', hold, hl⟩
      · cases hwf : (s.proc r).waitfors with
        | nil =>
          rw [hwf] at hnew
          cases hnew
        | cons w' wf' =>
          rw [hwf] at hnew
          cases hnew
          exact .inl (hwf ▸ hl)
    · simp at hmem

/-- A step of a goroutine does not add to what processes wait for. -/
theorem Step.listed {p l : ℕ} (hstep : Step s t) (h : t.Listed p l) : s.Listed p l := by
  cases hstep with
  | silent hi hg => exact hg.listed hi h
  | begin =>
    exact (listed_of_sweep (s := s.modify _ _) h).of_frame (modify_field (·.waitfors) rfl p)
      (fun _ _ _ => id)
  | resume => exact listed_of_sweep h
  | @added i l' c =>
    exact h.of_frame (modify_field (s := s) (p := c)
      (f := fun P => { P with waiters := P.waiters ++ [l'] }) (·.waitfors) rfl p)
      fun _ _ _ hmem => (mem_goto (s := s) hmem).resolve_right (by simp)
  | clear | crash =>
    exact h.of_frame rfl fun _ _ _ hmem => (mem_goto (s := s) hmem).resolve_right (by simp)
  | @finish i r k e =>
    refine h.of_frame (modify_field (s := s) (p := r) (f := fun P =>
      { P with closeErr := e, closed := true, locked := false }) (·.waitfors) rfl p) ?_
    intro w wf k' hmem
    rcases List.mem_append.mp hmem with hmem | hmem
    · refine (List.mem_or_eq_of_mem_set hmem).resolve_right ?_
      cases k <;> simp [Goroutine.after]
    · simp at hmem

/-- No goroutine adds to what a process waits for. -/
theorem Told.step {R : ℕ → ℕ → Prop} (hs : Sound s) (h : Told R s) (hstep : Step s t) : Told R t :=
  h.of_listed (hs.step hstep).1 fun _ _ => hstep.listed

/-- A goroutine is started outside of `doClose`. -/
theorem Told.spawn {R : ℕ → ℕ → Prop} (h : Told R s) {g : Goroutine E}
    (hg : ∀ p w wf k, .waiting p w wf k ≠ g) : Told R (s.spawn [g]) :=
  h.of_listed (grows_of_eq rfl rfl rfl rfl) fun p _ hl =>
    hl.of_frame rfl (by simp [Processes.spawn, hg p])

/-- A process changes in something else than what it waits for. -/
theorem Told.modify {R : ℕ → ℕ → Prop} (h : Told R s) {p : ℕ} {f : Process T E → Process T E}
    (hgrows : Grows s (s.modify p f)) (hf : (f (s.proc p)).waitfors = (s.proc p).waitfors) :
    Told R (s.modify p f) :=
  h.of_listed hgrows fun q _ hl => hl.of_frame (modify_field (·.waitfors) hf q) (fun _ _ _ => id)

/-- A new process waits for nothing. -/
theorem Told.add {R : ℕ → ℕ → Prop} (hs : Sound s) (h : Told R s) (tf : Option T) (hidden : Bool) :
    Told R (s.add tf hidden) := by
  have hwaitfors : ∀ p, ((s.add tf hidden).proc p).waitfors = (s.proc p).waitfors :=
    hs.add_field (·.waitfors) rfl
  exact h.of_listed (hs.grows_add tf hidden) fun p _ hl =>
    hl.of_frame (hwaitfors p) (fun _ _ _ => id)

/-- A link is made. -/
theorem Told.addLink {R : ℕ → ℕ → Prop} (h : Told R s) {p q : ℕ} {child wait : Bool}
    (hR : wait = true → (s.proc p).closed = false → R p q) : Told R (s.addLink p q child wait) := by
  intro r l hl
  have hclosed : ∀ r, ((s.addLink p q child wait).proc r).closed = (s.proc r).closed :=
    addLink_field (·.closed) fun _ _ _ => rfl
  rw [hclosed]
  by_cases hold : s.Listed r l
  · obtain ⟨hlt, hRl⟩ := h r l hold
    refine ⟨Nat.lt_succ_of_lt hlt, fun q' hq' => hRl q' ?_⟩
    simpa [Processes.addLink, hlt.ne] using hq'
  · -- the link is the new one
    have hnew : wait = true ∧ r = p ∧ l = s.numLinks := by
      rcases hl with hl | ⟨w, wf, k, hmem, hl⟩
      · rcases eq_or_ne r p with rfl | hne
        · cases wait with
          | false => exact absurd (.inl (by simpa [Processes.addLink] using hl)) hold
          | true =>
            have hl' : l ∈ (s.proc r).waitfors ∨ l = s.numLinks := by
              simpa [Processes.addLink] using hl
            exact ⟨rfl, rfl, hl'.resolve_left fun hl' => hold (.inl hl')⟩
        · exact absurd (.inl (by simpa [Processes.addLink, hne] using hl)) hold
      · exact absurd (.inr ⟨w, wf, k, by simpa [Processes.addLink] using hmem, hl⟩) hold
    obtain ⟨hwait, rfl, rfl⟩ := hnew
    refine ⟨Nat.lt_succ_self _, fun q' hq' hopen => ?_⟩
    have hqq' : q = q' := by simpa [Processes.addLink] using hq'
    exact hqq' ▸ hR hwait hopen

/-- A process adopts a child. -/
theorem Told.adopt {R : ℕ → ℕ → Prop} (h : Told R s) {p q : ℕ} {wait : Bool}
    (hR : wait = true → (s.proc p).closed = false → R p q) : Told R (s.adopt p q wait) := by
  unfold Processes.adopt
  split
  · exact (h.spawn (by simp)).addLink hR
  · exact h.addLink hR

/-- A weaker relation will do as well. -/
theorem Told.mono {R R' : ℕ → ℕ → Prop} (h : Told R s) (hRR' : ∀ p q, R p q → R' p q) :
    Told R' s := fun p l hl =>
  ⟨(h p l hl).1, fun q hq hopen => hRR' p q ((h p l hl).2 q hq hopen)⟩

/-- A step adds to what processes wait for only what its event tells. -/
theorem Told.next {R : ℕ → ℕ → Prop} {l : ProcessEvent T E} (hs : Sound s) (h : Told R s)
    (hstep : s.next l = some t) : Told (fun p q => R p q ∨ (p, q) ∈ l.waits) t := by
  have hmono : Told (fun p q => R p q ∨ (p, q) ∈ l.waits) s := h.mono fun _ _ => .inl
  cases l with
  | newProcess tf =>
    cases hstep
    exact Told.add hs hmono tf false
  | setTeardown p tf =>
    obtain ⟨-, ht⟩ := Option.ite_none_right_eq_some.mp hstep
    cases ht
    exact Told.modify hmono (grows_modify id id (fun _ => rfl) rfl) rfl
  | waitFor p q =>
    obtain ⟨-, ht⟩ := Option.ite_none_right_eq_some.mp hstep
    cases ht
    exact hmono.addLink fun _ _ => .inr (.head _)
  | addChildNoWait p q late =>
    obtain ⟨-, ht⟩ := Option.ite_none_right_eq_some.mp hstep
    cases ht
    exact hmono.adopt fun hwait => by cases hwait
  | addChild p q late =>
    simp only [Processes.next, Option.ite_none_right_eq_some, Bool.and_eq_true, beq_iff_eq] at hstep
    obtain ⟨⟨-, rfl⟩, ht⟩ := hstep
    cases ht
    refine hmono.adopt fun _ hopen => .inr ?_
    rw [hopen]
    exact .head _
  | go p c late =>
    simp only [Processes.next, Option.ite_none_right_eq_some, Bool.and_eq_true, beq_iff_eq] at hstep
    obtain ⟨⟨⟨hfree, rfl⟩, rfl⟩, ht⟩ := hstep
    cases ht
    have hlt := (free_iff.mp hfree).1.1
    have hfun := (Told.add (hs.add none false) (Told.add hs hmono none false) none true).spawn
      (g := .body s.size (s.size + 1)) (by simp)
    refine (hfun.addLink fun _ _ => .inr ?_).adopt fun _ hopen => .inr ?_
    · cases (s.proc p).closed <;> exact .head _
    · have hold : ((((s.add none false).addFunction s.size).addLink s.size (s.size + 1) false
          true).proc p) = s.proc p := by
        simp [Processes.addLink, addFunction, Processes.spawn, Processes.add, hlt.ne,
          (Nat.lt_succ_of_lt hlt).ne]
      rw [show ((s.proc p).closed = false) from hold ▸ hopen]
      exact .tail _ (.head _)
  | panic p =>
    obtain ⟨-, ht⟩ := Option.ite_none_right_eq_some.mp hstep
    cases ht
    exact (Told.modify hmono (p := p) (f := fun P => { P with locked := true })
      (grows_modify id id (fun _ => rfl) rfl) rfl :)
  | close p | closeAfterChildren p =>
    obtain ⟨-, ht⟩ := Option.ite_none_right_eq_some.mp hstep
    cases ht
    exact Told.spawn hmono (by simp)
  | run i | teardown i p e | returns i => exact Told.step hs hmono (step_of_internal rfl hstep)

/-- Along every run, a process that is not closed waits only for those that it was told to
wait for. -/
theorem told_run {ls : List (ProcessEvent T E)} (hrun : (lts T E).Run (start T E) ls s) :
    Told (Waits ls) s := by
  refine hrun.history_induction (fun hist u => Told (Waits hist) u) ?_ ?_
  · rintro p l (hl | ⟨w, wf, k, hmem, -⟩)
    · cases hl
    · cases hmem
  · intro hist v l w hv ih hstep
    refine (ih.next (inv_run hv).sound hstep).mono ?_
    rintro p q (⟨l', hl', hpq⟩ | hpq)
    · exact ⟨l', List.mem_append_left _ hl', hpq⟩
    · exact ⟨l, List.mem_append_right _ (List.mem_singleton_self _), hpq⟩

/-! ## At rest -/

end Processes

/-- The goroutine has nothing to do any more. -/
def Goroutine.Finished : Goroutine E → Bool
  | .returned _ _ | .panicked | .done => true
  | _ => false

/-- The goroutine waits in `Close` of the process. -/
def Goroutine.Joins (p : ℕ) : Goroutine E → Bool
  | .waiting p' _ _ _ | .joined p' _ => p' == p
  | _ => false

namespace Processes

variable {s t : Processes T E}

/-- A process for which a child of `Go` waits is hidden. -/
theorem hidden_run {ls : List (ProcessEvent T E)} (hrun : (lts T E).Run (start T E) ls s)
    {p c : ℕ} {late : Bool} (hgo : .go p c late ∈ ls) :
    c + 1 < s.size ∧ (s.proc (c + 1)).hidden := by
  refine hrun.history_induction (fun hist u => .go p c late ∈ hist →
    c + 1 < u.size ∧ (u.proc (c + 1)).hidden) (fun h => by cases h) ?_ hgo
  intro hist v l w hv ih hstep hl
  rcases List.mem_append.mp hl with hold | hnew
  · obtain ⟨hlt, hhidden⟩ := ih hold
    have hgrows := (inv_run hv).grows_next hstep
    exact ⟨hlt.trans_le hgrows.size, (hgrows.hidden _ hlt).trans hhidden⟩
  · cases List.mem_singleton.mp hnew
    simp only [lts, LTS.ofFun, next, Option.ite_none_right_eq_some, Bool.and_eq_true,
      beq_iff_eq] at hstep
    obtain ⟨⟨⟨-, rfl⟩, -⟩, ht⟩ := hstep
    cases ht
    have hadopt : ∀ (u : Processes T E) (q r : ℕ), (u.adopt p q true).size = u.size ∧
        ((u.adopt p q true).proc r).hidden = (u.proc r).hidden := by
      intro u q r
      unfold adopt
      split <;> exact ⟨rfl, addLink_field (·.hidden) (fun _ _ _ => rfl) r⟩
    obtain ⟨hsize, hhidden⟩ := hadopt (((v.add none false).addFunction v.size).addLink v.size
      (v.size + 1) false true) v.size (v.size + 1)
    refine ⟨hsize ▸ Nat.lt_succ_self _, hhidden.trans ?_⟩
    rw [addLink_field (·.hidden) fun _ _ _ => rfl]
    simp [addFunction, spawn, add, newProcess]

section

variable (hinv : Inv s) (hrest : s.AtRest) (hpanicked : s.panicked = false)

include hrest

/-- No teardown function runs. -/
theorem AtRest.not_tearing {p : ℕ} {k : Option ℕ} : .tearing p k ∉ s.threads := by
  intro hmem
  obtain ⟨i, hi⟩ := List.mem_iff_getElem?.mp hmem
  have hnext : ∃ t, s.next (.teardown i p none) = some t := by
    simp only [next, hi, implies_true, and_self, if_true]
    split <;> exact ⟨_, rfl⟩
  obtain ⟨t, ht⟩ := hnext
  exact hrest _ t rfl ht

/-- No function runs. -/
theorem AtRest.not_body {c w : ℕ} : .body c w ∉ s.threads := by
  intro hmem
  obtain ⟨i, hi⟩ := List.mem_iff_getElem?.mp hmem
  have hnext : s.next (.returns i) = some (s.goto i (.close w (some c))) := by
    simp only [next, hi]
  exact hrest _ _ rfl hnext

/-- No goroutine has a next step. -/
theorem AtRest.run_eq_none (i : ℕ) : s.run i = none := by
  by_contra hrun
  obtain ⟨t, ht⟩ := Option.ne_none_iff_exists'.mp hrun
  exact hrest (.run i) t rfl ht

include hinv hpanicked

/-- No mutex is locked. -/
theorem AtRest.unlocked (p : ℕ) : (s.proc p).locked = false := by
  by_contra hlocked
  rcases hinv.locks.locked p (by simpa using hlocked) with ⟨k, hk⟩ | ⟨hpanic, -⟩
  · exact hrest.not_tearing hk
  · rw [hpanicked] at hpanic
    cases hpanic

/-- No goroutine is about to lock the mutex in `Close`. -/
theorem AtRest.not_close {p : ℕ} {k : Option ℕ} : .close p k ∉ s.threads := by
  intro hmem
  obtain ⟨i, hi⟩ := List.mem_iff_getElem?.mp hmem
  have hrun := hrest.run_eq_none i
  simp only [run, hi, hrest.unlocked hinv hpanicked p, Bool.false_eq_true, if_false] at hrun
  split at hrun <;> cases hrun

/-- A goroutine that has something to do waits for a process that is not closed. -/
theorem AtRest.blocked {g : Goroutine E} (hg : g ∈ s.threads) :
    g.Finished ∨ (∃ p, g.Joins p ∧ (s.proc p).closing ∧ (s.proc p).closed = false) ∨
      ∃ p q, g = .awaits p q ∧ (s.proc q).closed = false := by
  obtain ⟨i, hi⟩ := List.mem_iff_getElem?.mp hg
  have hsound := hinv.sound.threads g hg
  have hrun := hrest.run_eq_none i
  have hfree := hrest.unlocked hinv hpanicked
  cases g with
  | close p k => exact absurd hg (hrest.not_close hinv hpanicked)
  | waiting p w wf k =>
    obtain ⟨-, hclosing, hopen⟩ := hinv.closes.of_mem hg (beq_self_eq_true p)
    exact .inr (.inl ⟨p, beq_self_eq_true p, hclosing, hopen⟩)
  | tearing p k => exact absurd hg hrest.not_tearing
  | joined p k =>
    refine .inr (.inl ⟨p, beq_self_eq_true p, hsound.2.1, ?_⟩)
    simpa [run, hi] using hrun
  | addToChild l =>
    simp only [run, hi, hfree, Bool.false_eq_true, if_false] at hrun
    split at hrun
    · cases hrun
    · split at hrun <;> cases hrun
  | clear ls => cases ls <;> simp [run, hi] at hrun
  | closeAfterChildren p =>
    simp only [run, hi, hfree, Bool.false_eq_true, if_false] at hrun
    split at hrun <;> cases hrun
  | nextToWaitFor p =>
    simp only [run, hi, hfree, Bool.false_eq_true, if_false] at hrun
    split at hrun <;> cases hrun
  | awaits p c => exact .inr (.inr ⟨p, c, rfl, by simpa [run, hi] using hrun⟩)
  | body c w => exact absurd hg hrest.not_body
  | returned | panicked | done => exact .inl rfl

end

/-- A process that is closing and not closed waits for another one that is not closed. -/
theorem AtRest.waits {ls : List (ProcessEvent T E)} (hrun : (lts T E).Run (start T E) ls s)
    (hrest : s.AtRest) (hpanicked : s.panicked = false) {p : ℕ} (hclosing : (s.proc p).closing)
    (hopen : (s.proc p).closed = false) : ∃ q, Waits ls p q ∧ (s.proc q).closed = false := by
  have hinv := inv_run hrun
  -- the goroutine in `doClose` of the process
  have hpos : 0 < s.threads.countP (Goroutine.Closes p) := by
    rw [hinv.closes p, hclosing, hopen]
    exact Nat.one_pos
  obtain ⟨g, hg, hcloses⟩ := List.countP_pos_iff.mp hpos
  cases g with
  | waiting p' w wf k =>
    cases beq_iff_eq.mp hcloses
    obtain ⟨i, hi⟩ := List.mem_iff_getElem?.mp hg
    have hnone := hrest.run_eq_none i
    have hready : s.childClosed w = false := by
      by_contra hready
      rw [Bool.not_eq_false] at hready
      simp only [Processes.run, hi, hrest.unlocked hinv hpanicked, hready] at hnone
      cases wf <;> simp at hnone
    rw [childClosed, Option.all_eq_false] at hready
    obtain ⟨q, hq, hqopen⟩ := hready
    have htold := (told_run hrun p w (.inr ⟨w, wf, k, hg, List.mem_cons_self⟩)).2 q hq hopen
    exact ⟨q, htold, by simpa using hqopen⟩
  | tearing p' k =>
    cases beq_iff_eq.mp hcloses
    exact absurd hg hrest.not_tearing
  | _ => cases hcloses

/-- A process that is closing has closed its children, and those that it waits for are
closing, except where `WaitFor` was called on its own. -/
theorem AtRest.closing {ls : List (ProcessEvent T E)} (hrun : (lts T E).Run (start T E) ls s)
    (hrest : s.AtRest) (hpanicked : s.panicked = false) :
    (∀ p q, Adopts ls p q → (s.proc p).closing → (s.proc q).closing) ∧
    ∀ p q, Waits ls p q → (s.proc p).closing → (s.proc q).closing ∨ .waitFor p q ∈ ls := by
  have hinv := inv_run hrun
  have hchild : ∀ p q, Adopts ls p q → (s.proc p).closing → (s.proc q).closing := by
    intro p q hpq hclosing
    rcases adopted_run hrun hpq with hq | ⟨k, hk⟩ | ⟨hopen, -⟩
    · exact hq
    · exact absurd hk (hrest.not_close hinv hpanicked)
    · rw [hopen] at hclosing
      cases hclosing
  refine ⟨hchild, fun p q ⟨l, hl, hpq⟩ hclosing => ?_⟩
  have hfunction : ∀ {p' c late}, .go p' c late ∈ ls → (s.proc (c + 1)).closing := by
    intro p' c late hgo
    rcases hinv.held.held _ (hidden_run hrun hgo).2 with ⟨c', hc'⟩ | ⟨k, hk⟩ | hclosing
    · exact absurd hc' hrest.not_body
    · exact absurd hk (hrest.not_close hinv hpanicked)
    · exact hclosing
  cases l with
  | waitFor p' q' =>
    cases List.mem_singleton.mp hpq
    exact .inr hl
  | addChild p' q' late =>
    cases late with
    | true => cases hpq
    | false =>
      cases List.mem_singleton.mp hpq
      exact .inl (hchild p q ⟨_, hl, .head _⟩ hclosing)
  | go p' c late =>
    cases late with
    | true =>
      cases List.mem_singleton.mp hpq
      exact .inl (hfunction hl)
    | false =>
      rcases List.mem_cons.mp hpq with heq | hpq
      · cases heq
        exact .inl (hfunction hl)
      · cases List.mem_singleton.mp hpq
        exact .inl (hchild p q ⟨_, hl, .head _⟩ hclosing)
  | _ => cases hpq

/-- **Closing comes to an end.** Take any interleaving of goroutines that make processes,
link them and close them, and in which no call has panicked. Teardown functions and
functions that `Go` runs are taken to return without waiting for processes: a goroutine
inside one of them can go on, so that it is not at rest. If no caller interferes from
then on, the goroutines can take only so many steps until they come to rest. When they
have come to rest, the children of every process that began to close are closing, too.
Every process that began to close is closed, unless it waits, directly or through others,
for a process that waits for itself, or for a process that nobody closes and that it was
told to wait for by `WaitFor`. Every goroutine has finished, or it waits for a process
that is not closed. -/
theorem close_completes (ls : List (ProcessEvent T E)) (s : Processes T E)
    (hrun : (lts T E).Run (start T E) ls s) (hpanicked : s.panicked = false) :
    (∃ n, ∀ ls' t, (∀ l ∈ ls', l.Internal) → (lts T E).Run s ls' t → ls'.length ≤ n) ∧
    (s.AtRest →
      (∀ p q, Adopts ls p q → (s.proc p).closing → (s.proc q).closing) ∧
      (∀ p, (s.proc p).closing → (s.proc p).closed ∨
        ∃ q, Relation.ReflTransGen (Waits ls) p q ∧
          (Relation.TransGen (Waits ls) q q ∨
            ∃ r, .waitFor q r ∈ ls ∧ (s.proc r).closing = false)) ∧
      ∀ g ∈ s.threads, g.Finished ∨
        (∃ p, g.Joins p ∧ (s.proc p).closing ∧ (s.proc p).closed = false) ∨
        ∃ p q, g = .awaits p q ∧ (s.proc q).closed = false) := by
  have hinv := inv_run hrun
  refine ⟨⟨s.work, fun ls' t hls' hrun' => ?_⟩, fun hrest => ⟨?_, ?_, ?_⟩⟩
  · have hlength := hrun'.length_add_le (μ := work) (I := Inv) (fun v l w hv hl hstep =>
      ⟨hv.next hstep, (step_of_internal hl hstep).work_lt hv.sound⟩) hls' hinv
    omega
  · exact (hrest.closing hrun hpanicked).1
  · intro p hp
    by_cases hclosed : (s.proc p).closed
    · exact .inl hclosed
    right
    have hfin : { q | (s.proc q).closing ∧ (s.proc q).closed = false }.Finite := by
      refine (Set.finite_lt_nat s.size).subset fun q hq => ?_
      by_contra hlt
      have hclosing := hq.1
      rw [hinv.sound.fresh q (Nat.le_of_not_lt hlt)] at hclosing
      cases hclosing
    have hstep : ∀ q ∈ { q | (s.proc q).closing ∧ (s.proc q).closed = false },
        (∃ r, .waitFor q r ∈ ls ∧ (s.proc r).closing = false) ∨
          ∃ r ∈ { q | (s.proc q).closing ∧ (s.proc q).closed = false }, Waits ls q r := by
      rintro q ⟨hclosing, hopen⟩
      obtain ⟨r, hqr, hropen⟩ := hrest.waits hrun hpanicked hclosing hopen
      by_cases hr : (s.proc r).closing
      · exact .inr ⟨r, ⟨hr, hropen⟩, hqr⟩
      · have hwait := ((hrest.closing hrun hpanicked).2 q r hqr hclosing).resolve_left hr
        exact .inl ⟨r, hwait, by simpa using hr⟩
    obtain ⟨q, hpq, hq⟩ := exists_circle hfin hstep ⟨hp, by simpa using hclosed⟩
    exact ⟨q, hpq, hq.symm⟩
  · exact fun g hg => hrest.blocked hinv hpanicked hg

/-- Two processes wait for each other, and are closed. -/
def closeInCircle : List (ProcessEvent Unit Unit) :=
  [.newProcess none, .newProcess none, .waitFor 0 1, .waitFor 1 0, .run 0, .run 1, .close 0,
    .close 1, .run 2, .run 3]

/-- The goroutines come to rest, and neither process is closed. -/
theorem close_completes_circle : ∃ s, (lts Unit Unit).Run (start Unit Unit) closeInCircle s ∧
    s.AtRest ∧ (s.proc 0).closed = false ∧ ∃ q, Relation.ReflTransGen (Waits closeInCircle) 0 q ∧
      Relation.TransGen (Waits closeInCircle) q q := by
  have hrun : ∃ s, (lts Unit Unit).Run (start Unit Unit) closeInCircle s ∧ s.panicked = false ∧
      ((s.proc 0).closing ∧ (s.proc 0).closed = false) ∧ (s.proc 1).closing ∧ s.AtRest := by
    refine ⟨_, LTS.run_ofFun_iff.mpr rfl, rfl, ⟨rfl, rfl⟩, rfl, fun l t hl hstep => ?_⟩
    cases l with
    | run i | teardown i p e | returns i => rcases i with _ | _ | _ | _ | i <;> cases hstep
    | _ => cases hl
  obtain ⟨s, hrun, hpanicked, ⟨hclosing, hopen⟩, hclosing', hrest⟩ := hrun
  obtain ⟨-, hrested⟩ := close_completes closeInCircle s hrun hpanicked
  obtain ⟨q, hq, hcircle | ⟨r, hr, hropen⟩⟩ := ((hrested hrest).2.1 0 hclosing).resolve_left
    (by simp [hopen])
  · exact ⟨s, hrun, hrest, hopen, q, hq, hcircle⟩
  · -- both processes are closing
    simp only [closeInCircle, List.mem_cons, reduceCtorEq, ProcessEvent.waitFor.injEq,
      List.not_mem_nil, or_false, false_or] at hr
    rcases hr with ⟨-, rfl⟩ | ⟨-, rfl⟩
    · rw [hclosing'] at hropen
      cases hropen
    · rw [hclosing] at hropen
      cases hropen

end Processes

end GoBlocks
