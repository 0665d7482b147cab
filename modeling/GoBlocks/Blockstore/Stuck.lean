import GoBlocks.Blockstore.AllKeys
import GoBlocks.Blockstore.KeyPipeline

/-!
# Goroutines left behind by a cancelled `AllKeysChan`

The goroutine of `AllKeysChan` stops reading when it sees the cancellation, and it
closes the results process. Only the producer listens to that process. A result on its
way to the goroutine of `AllKeysChan` keeps the goroutine of the namespace in a send
that no one will receive. This can happen exactly if the datastore has a key below the
block prefix, and exactly after a cancellation that is seen while a result is on its
way.
-/

namespace GoBlocks.KeyPipeline

/-- `AllKeysChan` has finished, and another goroutine is blocked on a send whose
receiver has left its loop. -/
def Stuck (s : KeyPipeline) : Prop :=
  s.loop = .done ∧ s.closed = true ∧
    ((∃ r, s.inverter = .sending r) ∨
      (∃ r, s.filter = .sending r ∧ s.inverter.Exited = true) ∨
      ∃ r rs, s.producer = .sending (r :: rs) ∧ s.filter.Exited = true)

variable {f g : Ds.Result → Option Ds.Result} {s t : KeyPipeline} {l : Event} {ls : List Event}

/-! ## Nothing on its way -/

/-- No goroutine is stuck if nothing was on its way when `AllKeysChan` finished. -/
theorem Ordered.not_stuck (h : Ordered s) (hdone : s.loop = .done → pending f g s = []) :
    ¬ Stuck s := by
  rintro ⟨hloop, -, ⟨r, hinverter⟩ | ⟨r, hfilter, hexit⟩ | ⟨r, rs, hproducer, hexit⟩⟩
  · have hpending := hdone hloop
    simp [pending, hinverter] at hpending
  · rw [h.inverter hexit] at hfilter
    cases hfilter
  · rw [h.returned_of_filter hexit] at hproducer
    cases hproducer

/-- No step brings new results on their way. -/
theorem pending_subset_of_step (hstep : Step f g s l t) : pending f g t ⊆ pending f g s := by
  rcases pending_of_step hstep with ⟨r, -, -, hcons⟩ | ⟨-, hpre⟩ | hsame
  · rw [hcons]
    exact List.subset_cons_self _ _
  · exact hpre.subset
  · rw [hsame]
    exact List.Subset.refl _

/-- With nothing on its way no goroutine gets stuck. -/
theorem Ordered.not_stuck_of_run (hs : Ordered s) (hpending : pending f g s = [])
    (hrun : (lts f g).Run s ls t) : ¬ Stuck t := by
  have ht : pending f g t = [] := by
    refine hrun.invariant (fun s => pending f g s = []) ?_ hpending
    intro v l w hv hstep
    exact List.subset_nil.mp (hv ▸ pending_subset_of_step hstep)
  exact (hs.run hrun).not_stuck fun _ => ht

/-- The goroutine of `AllKeysChan` goes on after a result without an error. -/
theorem exited_afterGet {r : Ds.Result} (hr : r.error = none) :
    (afterGet (getKey (some r))).Exited = false := by
  by_cases hmh : Multihash.IsMultihash (keyFromDsKey (Ds.newKey r.entry.key))
  · simp [getKey, afterGet, hr, hmh, hmh.ne_nil]
  · simp [getKey, afterGet, hr, hmh]

/-- The goroutine of `AllKeysChan` leaves its loop at a result, at the end of the
results or at the cancellation. -/
theorem leaves_of_step (hstep : Step f g s l t) (ht : t.loop.Exited = true) :
    s.loop.Exited = true ∨ l = .deliver ∨ l = .loopEnded ∨ l = .ctxDone := by
  cases hstep with
  | deliver => exact .inr (.inl rfl)
  | loopEnded => exact .inr (.inr (.inl rfl))
  | ctxDone => exact .inr (.inr (.inr rfl))
  | loopCloses hloop | loopClosed hloop =>
    rw [hloop]
    exact .inl rfl
  | key => cases ht
  | _ => exact .inl ht

/-- The results on their way are no errors, and there are none once the goroutine of
`AllKeysChan` has left its loop. -/
structure Settled (f g : Ds.Result → Option Ds.Result) (s : KeyPipeline) : Prop where
  ordered : Ordered s
  error_none : ∀ r ∈ pending f g s, r.error = none
  pending_nil : s.loop.Exited = true → pending f g s = []

/-- A step keeps the pipeline settled unless the cancellation is seen while a result is
on its way. -/
theorem Settled.step (h : Settled f g s) (hstep : Step f g s l t)
    (hdone : l = .ctxDone → pending f g s = []) : Settled f g t := by
  have hsubset := pending_subset_of_step hstep
  refine ⟨h.ordered.step hstep, fun r hr => h.error_none r (hsubset hr), fun hexit => ?_⟩
  refine List.subset_nil.mp (List.Subset.trans hsubset (List.subset_nil.mpr ?_))
  rcases leaves_of_step hstep hexit with hbefore | rfl | rfl | rfl
  · exact h.pending_nil hbefore
  · cases hstep with
    | @deliver r hinverter hloop =>
      have hr : r.error = none := h.error_none r (by simp [pending, hinverter])
      have hexit : (afterGet (getKey (some r))).Exited = true := hexit
      rw [exited_afterGet hr] at hexit
      cases hexit
  · cases hstep with
    | loopEnded hloop hinverter =>
      exact h.ordered.pending_of_inverter (by rw [hinverter]; rfl)
  · exact hdone rfl

/-- The pipeline stays settled along a run in which the cancellation is seen only while
nothing is on its way. -/
theorem Settled.run (hs : Settled f g s)
    (hrun : ((lts f g).restrict fun s l => l = .ctxDone → pending f g s = []).Run s ls t) :
    Settled f g t := by
  refine hrun.invariant (Settled f g) ?_ hs
  intro v l w hv hstep
  exact hv.step hstep.1 hstep.2

/-! ## A result on its way -/

/-- With the filter and the inverter reading, the first result that both send on
reaches the inverter. -/
theorem exists_sending_of_rest (hfilter : s.filter = .reading) (hinverter : s.inverter = .reading)
    (hrest : (s.producer.rest.filterMap f).filterMap g ≠ []) :
    ∃ ls t r, (lts f g).Run s ls t ∧ t.loop = s.loop ∧ t.inverter = .sending r := by
  generalize hrs : s.producer.rest = rs at hrest
  induction rs generalizing s with
  | nil => exact absurd rfl hrest
  | cons r rs ih =>
    -- the filter skips the result, or the inverter skips it, or it arrives
    have hemit := Step.emit (f := f) (g := g) (Producer.eq_sending hrs) hfilter
    cases hr : f r with
    | none =>
      rw [hr] at hemit
      rw [List.filterMap_cons_none hr] at hrest
      obtain ⟨ls, t, r', hrun, hloop, ht⟩ := ih (s := { s with
        producer := .sending rs, filter := .reading }) rfl hinverter rfl hrest
      exact ⟨_, t, r', .cons hemit hrun, hloop, ht⟩
    | some r₁ =>
      rw [hr] at hemit
      have hforward := Step.forward (f := f) (g := g) (s := { s with
        producer := .sending rs, filter := .sending r₁ }) rfl hinverter
      cases hr₁ : g r₁ with
      | none =>
        rw [hr₁] at hforward
        rw [List.filterMap_cons_some hr, List.filterMap_cons_none hr₁] at hrest
        obtain ⟨ls, t, r', hrun, hloop, ht⟩ := ih (s := { s with
          producer := .sending rs, filter := .reading, inverter := .reading }) rfl rfl rfl hrest
        exact ⟨_, t, r', .cons hemit (.cons hforward hrun), hloop, ht⟩
      | some r₂ =>
        rw [hr₁] at hforward
        exact ⟨_, _, r₂, .cons hemit (.cons hforward (.nil _)), rfl, rfl⟩

/-- A result on its way can reach the inverter while the goroutine of `AllKeysChan`
rests. -/
theorem Ordered.exists_sending (h : Ordered s) (hpending : pending f g s ≠ []) :
    ∃ ls t r, (lts f g).Run s ls t ∧ t.loop = s.loop ∧ t.inverter = .sending r := by
  have hinverter : s.inverter.Exited = false := by
    by_contra hexit
    exact hpending (h.pending_of_inverter (by simpa using hexit))
  cases hinv : s.inverter with
  | sending r => exact ⟨[], s, r, .nil s, rfl, hinv⟩
  | reading =>
    cases hfil : s.filter with
    | reading =>
      exact exists_sending_of_rest hfil hinv (by simpa [pending, hinv, hfil] using hpending)
    | sending r =>
      have hforward := Step.forward (f := f) (g := g) hfil hinv
      cases hr : g r with
      | none =>
        rw [hr] at hforward
        obtain ⟨ls, t, r', hrun, hloop, ht⟩ := exists_sending_of_rest (f := f) (g := g)
          (s := { s with filter := .reading, inverter := .reading }) rfl rfl
          (by simpa [pending, hinv, hfil, hr] using hpending)
        exact ⟨_, t, r', .cons hforward hrun, hloop, ht⟩
      | some r' =>
        rw [hr] at hforward
        exact ⟨_, _, r', .cons hforward (.nil _), rfl, rfl⟩
    | _ =>
      have hexit : s.filter.Exited = true := by rw [hfil]; rfl
      exact absurd (by simp [pending, hinv, hfil, h.returned_of_filter hexit]) hpending
  | _ =>
    rw [hinv] at hinverter
    cases hinverter

/-- The producer of a closing process can return. -/
theorem exists_returned (hclosing : s.closing = true) :
    ∃ ls, (lts f g).Run s ls { s with producer := .returned } := by
  cases hprod : s.producer with
  | sending rs =>
    cases rs with
    | nil => exact ⟨_, .cons (.produced hprod) (.nil _)⟩
    | cons r rs => exact ⟨_, .cons (.interrupted hprod hclosing) (.nil _)⟩
  | returned =>
    refine ⟨[], ?_⟩
    rw [← hprod]
    exact .nil s

/-- After `AllKeysChan` has left its loop it can finish while the inverter is sending. -/
theorem exists_stuck_of_sending (hloop : s.loop = .leaving) {r : Ds.Result}
    (hinverter : s.inverter = .sending r) : ∃ ls t, (lts f g).Run s ls t ∧ Stuck t := by
  have hcloses := Step.loopCloses (f := f) (g := g) hloop
  obtain ⟨ls, hreturned⟩ := exists_returned (f := f) (g := g)
    (s := { s with loop := .waiting, closing := true }) rfl
  have hteardown := Step.teardown (f := f) (g := g) (s := { s with
    loop := .waiting, closing := true, producer := .returned }) rfl rfl
  have hclosed := Step.loopClosed (f := f) (g := g) (s := { s with
    loop := .waiting, closing := true, producer := .returned, closed := true }) rfl rfl
  exact ⟨_, _, .cons hcloses (.snoc (.snoc hreturned hteardown) hclosed),
    rfl, rfl, .inl ⟨r, hinverter⟩⟩

/-- After a cancellation that is seen while a result is on its way a goroutine can get
stuck. -/
theorem Ordered.exists_stuck (h : Ordered s) (hloop : s.loop = .leaving)
    (hpending : pending f g s ≠ []) : ∃ ls t, (lts f g).Run s ls t ∧ Stuck t := by
  obtain ⟨ls, t, r, hrun, ht, hinverter⟩ := h.exists_sending hpending
  obtain ⟨ls', u, hrun', hstuck⟩ :=
    exists_stuck_of_sending (f := f) (g := g) (ht.trans hloop) hinverter
  exact ⟨_, u, LTS.run_append_iff.mpr ⟨t, hrun, hrun'⟩, hstuck⟩

/-! ## The pipeline over a map datastore -/

/-- The results of the datastore on their way to the goroutine of `AllKeysChan`. -/
def inFlight (s : KeyPipeline) : List Ds.Result :=
  pending (Ds.filterResult (Ds.filterKeyPrefix blockPrefix.string))
    (Ds.namespaceResult blockPrefix (Ds.prefixTransform blockPrefix)) s

/-- However the datastore is ranged over and the goroutines are interleaved, none of
them gets stuck. -/
def NeverStuck (d : Ds.KeyMap) : Prop :=
  ∀ order, d.Iterates order → ∀ ls s, allKeys.Run (allKeysStart order) ls s → ¬ Stuck s

variable {order : List (Ds.Key × Ds.Value)}

/-- At the start the results on their way come from the entries that the filter and the
inverter send on. -/
theorem mem_inFlight_start {r : Ds.Result} : r ∈ inFlight (allKeysStart order) ↔
    ∃ e ∈ order, Ds.filterKeyPrefix blockPrefix.string ⟨e.1.string, e.2⟩ = true ∧
      Ds.namespaceResult blockPrefix (Ds.prefixTransform blockPrefix)
        ⟨⟨e.1.string, e.2⟩, none⟩ = some r := by
  simp [inFlight, pending, allKeysStart, start, Ds.resultsWithEntries, Ds.filterResult,
    and_assoc]

/-- Nothing is on its way at the start exactly if no key is below the block prefix. -/
theorem inFlight_start_eq_nil_iff : inFlight (allKeysStart order) = [] ↔
    ∀ rk ∈ order.map Prod.fst, blockPrefix.isAncestorOf rk = false := by
  rw [List.eq_nil_iff_forall_not_mem]
  constructor
  · intro h rk hrk
    obtain ⟨e, he, rfl⟩ := List.mem_map.mp hrk
    by_contra hanc
    have hanc : blockPrefix.isAncestorOf e.1 = true := by simpa using hanc
    have hinv : ∃ r, Ds.namespaceResult blockPrefix (Ds.prefixTransform blockPrefix)
        ⟨⟨e.1.string, e.2⟩, none⟩ = some r := by
      simp [Ds.namespaceResult, Ds.prefixTransform, hanc]
    obtain ⟨r, hr⟩ := hinv
    exact h r (mem_inFlight_start.mpr ⟨e, he, isPrefixOf_of_isAncestorOf hanc, hr⟩)
  · intro h r hr
    obtain ⟨e, he, -, hinv⟩ := mem_inFlight_start.mp hr
    simp [Ds.namespaceResult, h e.1 (List.mem_map_of_mem he)] at hinv

/-- The pipeline starts settled. -/
theorem settled_start : Settled (Ds.filterResult (Ds.filterKeyPrefix blockPrefix.string))
    (Ds.namespaceResult blockPrefix (Ds.prefixTransform blockPrefix)) (allKeysStart order) := by
  refine ⟨ordered_start _, fun r hr => ?_, fun hexit => by cases hexit⟩
  obtain ⟨e, -, -, hinv⟩ := mem_inFlight_start.mp hr
  exact error_of_namespaceResult rfl hinv

/-- **Goroutines left behind by a cancelled `AllKeysChan`.** On any contents of the
datastore no goroutine of the pipeline ever gets stuck exactly if no key is below the
block prefix. Along a run in which the cancellation is seen only while no result is on
its way no goroutine is ever stuck, and wherever it is seen while a result is on its
way, a goroutine can get stuck afterwards. -/
theorem neverStuck_iff (d : Ds.KeyMap) :
    (NeverStuck d ↔ ∀ rk ∈ d, blockPrefix.isAncestorOf rk = false) ∧
    ∀ order, d.Iterates order →
      (∀ ls s, (allKeys.restrict fun s l => l = .ctxDone → inFlight s = []).Run
        (allKeysStart order) ls s → ¬ Stuck s) ∧
      ∀ ls s t, allKeys.Run (allKeysStart order) ls s → allKeys.step s .ctxDone t →
        inFlight s ≠ [] → ∃ ls' u, allKeys.Run t ls' u ∧ Stuck u := by
  have hseen : ∀ order ls s t, allKeys.Run (allKeysStart order) ls s → allKeys.step s .ctxDone t →
      inFlight s ≠ [] → ∃ ls' u, allKeys.Run t ls' u ∧ Stuck u := by
    intro order ls s t hrun hstep hflight
    have hordered := ((ordered_start _).run hrun).step hstep
    cases hstep with
    | ctxDone => exact hordered.exists_stuck rfl hflight
  refine ⟨⟨fun h rk hrk => ?_, fun h order horder ls s hrun => ?_⟩,
    fun order horder => ⟨?_, hseen order⟩⟩
  · obtain ⟨order, horder⟩ := d.exists_iterates
    refine inFlight_start_eq_nil_iff.mp ?_ rk (horder.mem_iff.mpr hrk)
    by_contra hflight
    -- cancel at once, so that everything is still on its way
    have hcancel : allKeys.Run (allKeysStart order) [.cancel]
        { allKeysStart order with cancelled := true } := .cons .cancel (.nil _)
    have hdone : allKeys.step { allKeysStart order with cancelled := true } .ctxDone _ :=
      .ctxDone rfl rfl
    obtain ⟨ls, s, hrun, hstuck⟩ := hseen order _ _ _ hcancel hdone hflight
    exact h order horder _ s (LTS.run_append_iff.mpr ⟨_, hcancel.snoc hdone, hrun⟩) hstuck
  · refine (ordered_start _).not_stuck_of_run ?_ hrun
    exact inFlight_start_eq_nil_iff.mpr fun rk hrk => h rk (horder.mem_iff.mp hrk)
  · intro ls s hrun
    have hs := settled_start.run hrun
    exact hs.ordered.not_stuck fun hdone => hs.pending_nil (by rw [hdone]; rfl)

/-- The contents of a datastore with one block. -/
def oneBlock : Ds.KeyMap := Finmap.singleton (rawKey shortKey) (.bytes [])

/-- With one block stored, the cancellation is seen while the goroutine of the namespace
is sending the block's key, and that goroutine stays in its send. -/
theorem not_neverStuck_oneBlock : ¬ NeverStuck oneBlock := by
  intro h
  have hrun : ∃ s, allKeys.Run (allKeysStart [(rawKey shortKey, .bytes [])])
      [.emit, .forward, .cancel, .ctxDone, .loopCloses, .produced, .teardown, .loopClosed] s ∧
        Stuck s :=
    ⟨_, .cons (.emit rfl rfl) (.cons (.forward rfl rfl) (.cons .cancel (.cons (.ctxDone rfl rfl)
      (.cons (.loopCloses rfl) (.cons (.produced rfl) (.cons (.teardown rfl rfl)
        (.cons (.loopClosed rfl rfl) (.nil _)))))))), rfl, rfl, .inl ⟨_, rfl⟩⟩
  obtain ⟨s, hs, hstuck⟩ := hrun
  exact h [(rawKey shortKey, .bytes [])] rfl _ s hs hstuck

end GoBlocks.KeyPipeline
