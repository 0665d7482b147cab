import GoBlocks.Context.AtRest

/-!
# Contexts that nobody knows yet

While a goroutine is in `propagateCancel` for a context, no caller has it and it is not
among the children of the context above, so that nobody can cancel it: it has no error,
no timer and no call. What is among the children, and what a sweep will come to, has
been registered.
-/

namespace GoBlocks.Contexts

/-- The context has no error, no timer and no call. -/
structure Hidden (s : Contexts) (x : Canceler) : Prop where
  err : (s.cell x.id).err = none
  timer : (s.cell x.id).timer = false
  call : ∀ th ∈ s.threads, ∀ k ∈ th.calls, k.c ≠ x

/-- The children of a context are registered, and a context in `propagateCancel` is
hidden. -/
structure Listed (s : Contexts) : Prop where
  registered : ∀ n, ∀ d ∈ (s.cell n).children, Registered s d
  rest : ∀ th ∈ s.threads, ∀ k ∈ th.calls, ∀ rest, k.pc = .sweep rest → ∀ d ∈ rest,
    Registered s d
  hidden : ∀ th ∈ s.threads, ∀ x, th.base = .propagate x → Hidden s x

/-- At first no context has children. -/
theorem listed_start : Listed start where
  registered _ _ h := by cases h
  rest _ h := by cases h
  hidden _ h := by cases h

section Listed

variable {s r t : Contexts} {i n : ℕ} {th : Thread} {base : Base} {calls : List Call}
  {w : Option Canceler} {x y : Canceler} {k : Call} {ks : List Call}

/-- What a step does to a children map. -/
theorem Step.children (h : Step s i th r base calls w) (n : ℕ) :
    (r.cell n).children = (s.cell n).children ∨ (r.cell n).children = [] ∨
      (∃ y, (r.cell n).children = (s.cell n).children.erase y) ∨
      ∃ y, th.base = .propagate y ∧ ¬ base.Propagates y ∧
        (r.cell n).children = (s.cell n).children.insert y := by
  cases h with
  | @win k =>
    rcases eq_or_ne n k.c.id with rfl | hne
    · exact .inl (by simp [Contexts.win])
    · exact .inl (by simp [Contexts.win, hne])
  | @swept k =>
    rcases eq_or_ne n k.c.id with rfl | hne
    · exact .inr (.inl (by simp))
    · exact .inl (by rw [modify_cell_of_ne _ _ hne])
  | @detach k _ p =>
    rcases eq_or_ne n p.id with rfl | hne
    · exact .inr (.inr (.inl ⟨k.c, by rw [modify_cell_self]⟩))
    · exact .inl (by rw [modify_cell_of_ne _ _ hne])
  | @register x p _ hbase =>
    rcases eq_or_ne n p.id with rfl | hne
    · exact .inr (.inr (.inr ⟨x, hbase, not_propagates_afterPropagate, by rw [modify_cell_self]⟩))
    · exact .inl (by rw [modify_cell_of_ne _ _ hne])
  | stop | adopt | release | arm => exact .inl (modify_field _ _ _ _ CancelCell.children rfl)
  | _ => exact .inl rfl

/-- A child is added by the goroutine that makes it. -/
theorem Step.children_cases (h : Step s i th r base calls w) (hy : y ∈ (r.cell n).children) :
    y ∈ (s.cell n).children ∨ th.base = .propagate y ∧ ¬ base.Propagates y := by
  rcases h.children n with hsame | hnil | ⟨z, herase⟩ | ⟨z, hbase, hprop, hinsert⟩
  · exact .inl (hsame ▸ hy)
  · rw [hnil] at hy
    cases hy
  · rw [herase] at hy
    exact .inl (List.mem_of_mem_erase hy)
  · rw [hinsert] at hy
    rcases List.mem_insert_iff.mp hy with rfl | hy
    · exact .inr ⟨hbase, hprop⟩
    · exact .inl hy

/-- No child is listed twice after a step of a goroutine. -/
theorem Step.nodup (h : Step s i th r base calls w) (hn : (s.cell n).children.Nodup) :
    (r.cell n).children.Nodup := by
  rcases h.children n with hsame | hnil | ⟨z, herase⟩ | ⟨z, -, -, hinsert⟩
  · rwa [hsame]
  · rw [hnil]
    exact List.nodup_nil
  · rw [herase]
    exact hn.erase z
  · rw [hinsert]
    exact hn.insert

/-- What is left of a sweep was there before, or the sweep begins with the children. -/
theorem Step.rest_cases (h : Step s i th r base calls w) (hk : k ∈ calls) {rest : List Canceler}
    (hpc : k.pc = .sweep rest) (hy : y ∈ rest) :
    (∃ k' ∈ th.calls, ∃ rest', k'.pc = .sweep rest' ∧ y ∈ rest') ∨
      ∃ n, y ∈ (s.cell n).children := by
  cases h.origin hk with
  | kept hk₀ => exact .inl ⟨k, hk₀, rest, hpc, hy⟩
  | past _ hpc' => rcases hpc' with rfl | ⟨rfl, -⟩ <;> cases hpc
  | won =>
    cases hpc
    exact .inr ⟨_, hy⟩
  | sweeps hk₀ hpc' =>
    cases hpc
    exact .inl ⟨_, hk₀, _, hpc', List.mem_of_mem_erase hy⟩
  | _ => cases hpc

/-- A goroutine that begins with `propagateCancel` after a step did so before, and is in a
call. -/
theorem Step.propagate_self (h : Step s i th r base calls w) (hbase : base = .propagate x) :
    th.base = .propagate x ∧ th.calls ≠ [] := by
  cases h with
  | late hcalls | win hcalls | visit hcalls | swept hcalls | rootless hcalls | detach hcalls
  | stop hcalls => exact ⟨hbase, by simp [hcalls]⟩
  | never | watch | register | release =>
    exact absurd (.inl hbase) not_propagates_afterPropagate
  | _ => cases hbase

/-- A hidden context stays so while other contexts are concerned. -/
theorem Hidden.step (hx : Hidden s x) (hmade : MadeIn s.made x) (hi : s.threads[i]? = some th)
    (h : Step s i th r base calls w) (hs : Orderly s)
    (habout : th.base.about = some x → th.calls ≠ [])
    (hrest : ∀ k ∈ th.calls, ∀ rest, k.pc = .sweep rest → x ∉ rest) :
    Hidden (r.become i th base calls w) x := by
  have hmem := List.mem_of_getElem? hi
  have hsound := (hs.sound.step hi h).thread _ (h.mem_self hi)
  rw [become_made, h.made] at hsound
  have hcalls : ∀ k ∈ calls, k.c ≠ x := by
    rintro k hk rfl
    cases h.origin hk with
    | kept hk₀ | past hk₀ | won hk₀ | sweeps hk₀ => exact hx.call th hmem _ hk₀ rfl
    | child hk₀ hpc hchild => exact hrest _ hk₀ _ hpc hchild
    | adopted hnil hbase | expired hnil hbase | alarm hnil hbase =>
      exact habout (by rw [hbase]; rfl) hnil
  refine ⟨?_, ?_, fun th' hth' k hk => ?_⟩
  · rw [become_cell]
    rcases h.err_none_cases hx.err with herr | ⟨k, hk, hid, -⟩
    · exact herr
    · exact absurd ((hsound.call k hk).eq hmade hid) (hcalls k hk)
  · rw [become_cell, ← Bool.not_eq_true]
    intro htimer
    rcases h.armed_cases htimer with htimer | ⟨-, hnil, y, hy, hid⟩
    · rw [hx.timer] at htimer
      cases htimer
    · cases ((hs.sound.thread th hmem).base y hy).eq hmade hid
      exact habout hy hnil
  · rcases mem_become hth' with rfl | hth' | ⟨y, -, rfl⟩
    · exact hcalls k hk
    · exact hx.call th' (h.threads ▸ hth') k hk
    · cases hk

/-- The children are registered after a step of a goroutine. -/
theorem Listed.step (hs : Listed s) (horderly : Orderly s) (hi : s.threads[i]? = some th)
    (h : Step s i th r base calls w) : Listed (r.become i th base calls w) := by
  have hmem := List.mem_of_getElem? hi
  refine ⟨fun n d hd => ?_, fun th' hth' k hk rest hpc d hd => ?_, fun th' hth' x hx => ?_⟩
  · rw [become_cell] at hd
    rcases h.children_cases hd with hd | ⟨hbase, hprop⟩
    · exact (hs.registered n d hd).step hi h
    · exact horderly.making.registered hi h (by rw [hbase]; rfl) hprop
  · rcases mem_become hth' with rfl | hth' | ⟨y, -, rfl⟩
    · rcases h.rest_cases hk hpc hd with ⟨k', hk', rest', hpc', hd⟩ | ⟨n, hd⟩
      · exact (hs.rest th hmem k' hk' rest' hpc' d hd).step hi h
      · exact (hs.registered n d hd).step hi h
    · exact (hs.rest th' (h.threads ▸ hth') k hk rest hpc d hd).step hi h
    · cases hk
  · -- the goroutine was in `propagateCancel` before
    have hold : ∃ j th₀, s.threads[j]? = some th₀ ∧ th₀.base = .propagate x ∧
        (j = i → th.calls ≠ []) := by
      obtain ⟨j, hj⟩ := List.mem_iff_getElem?.mp hth'
      rcases getElem?_become hj with ⟨rfl, rfl⟩ | ⟨hne, hj⟩ | ⟨-, y, -, rfl⟩
      · obtain ⟨hbase, hcalls⟩ := h.propagate_self hx
        exact ⟨j, th, hi, hbase, fun _ => hcalls⟩
      · exact ⟨j, th', h.threads ▸ hj, hx, fun heq => absurd heq hne⟩
      · cases hx
    obtain ⟨j, th₀, hj, hbase, hcalls⟩ := hold
    have hmem₀ := List.mem_of_getElem? hj
    have htask := horderly.making.task th₀ hmem₀ x (by rw [hbase]; rfl)
    have hnot : ¬ Registered s x := fun hreg => hreg.2 th₀ hmem₀ (.inl hbase)
    refine (hs.hidden th₀ hmem₀ x hbase).step (horderly.making.made th₀ hmem₀ x htask) hi h horderly
      (fun habout => ?_) fun k hk rest hpc hxr => hnot (hs.rest th hmem k hk rest hpc x hxr)
    rcases horderly.making.past th hmem x habout with hprop | hreg
    · have htask' := horderly.making.task th hmem x hprop.makes
      exact hcalls (horderly.making.unique j i th₀ th x hj hi htask htask')
    · exact absurd hreg hnot

/-- The calls of a new goroutine are for contexts that were made. -/
theorem Fresh.madeIn (h : Fresh s th) (hs : Sound s) : ∀ k ∈ th.calls, MadeIn s.made k.c := by
  cases h with
  | make => simp
  | cancel hx =>
    exact List.forall_mem_singleton.mpr (hs.known _ hx _ (Canceler.mem_cancelers_toCtx _))
  | timer hx => exact List.forall_mem_singleton.mpr (hs.madeIn hx)

/-- They are for contexts that a caller has or that have a timer. -/
theorem Fresh.call_ne (h : Fresh s th) (hs : Making s) (htimer : (s.cell x.id).timer = false)
    (hx : ¬ Registered s x) : ∀ k ∈ th.calls, k.c ≠ x := by
  cases h with
  | make => simp
  | cancel hy =>
    refine List.forall_mem_singleton.mpr ?_
    rintro rfl
    exact hx (hs.known _ hy _ (Canceler.mem_cancelers_toCtx _))
  | timer _ hy =>
    refine List.forall_mem_singleton.mpr ?_
    rintro rfl
    rw [htimer] at hy
    cases hy

/-- A context in `propagateCancel` stays hidden if a caller makes a move. -/
theorem Hidden.grows (hx : Hidden s x) (h : Grows s t) (hs : Making s) (hmade : MadeIn s.made x)
    (hnot : ¬ Registered s x) : Hidden t x := by
  refine ⟨(h.field hmade CancelCell.err fun _ _ => rfl).trans hx.err, ?_, fun th hth k hk => ?_⟩
  · rw [← Bool.not_eq_true]
    intro htimer
    exact absurd (h.armed _ htimer) (by simp [hx.timer])
  · rcases h.thread th hth with hth | hth
    · exact hx.call th hth k hk
    · exact hth.call_ne hs hx.timer hnot k hk

/-- A new context is hidden. -/
theorem Grows.hidden (h : Grows s t) (hs : Sound s) (hx : MadeIn t.made x)
    (hid : x.id = s.made.length) : Hidden t x := by
  have hnew : ∀ {y : Canceler}, MadeIn s.made y → y ≠ x := by
    rintro y hy rfl
    exact absurd hy.id_lt (by rw [hid]; exact Nat.lt_irrefl _)
  have hcell : t.cell x.id = newCancelCtx := by
    rcases h.fresh x hx with hx | ⟨hcell, -⟩
    · exact absurd rfl (hnew hx)
    · exact hcell
  refine ⟨by rw [hcell]; rfl, by rw [hcell]; rfl, fun th hth k hk => ?_⟩
  rcases h.thread th hth with hth | hth
  · exact hnew ((hs.thread th hth).call k hk)
  · exact hnew (hth.madeIn hs k hk)

/-- The children are registered after a move of a caller. -/
theorem Listed.grows (hs : Listed s) (horderly : Orderly s) (hmove : Move s t) (h : Grows s t) :
    Listed t := by
  refine ⟨fun n d hd => ?_, fun th hth k hk rest hpc d hd => ?_, fun th hth x hbase => ?_⟩
  · rcases h.cell n with ⟨-, hcell⟩ | ⟨b, hcell⟩ <;> rw [hcell] at hd
    · cases hd
    · exact (hs.registered n d hd).move hmove
  · rcases h.thread th hth with hth | hth
    · exact (hs.rest th hth k hk rest hpc d hd).move hmove
    · have hheld := hth.held k hk
      rw [Call.held_of_sweep hpc] at hheld
      cases hheld
  · have habout : th.base.about = some x := by rw [hbase]; rfl
    have hmade := ((horderly.sound.move hmove).thread th hth).base x habout
    rcases h.thread th hth with hth | hth
    · exact (hs.hidden th hth x hbase).grows h horderly.making
        ((horderly.sound.thread th hth).base x habout) fun hreg => hreg.2 th hth (.inl hbase)
    · cases hth with
      | make hid =>
        cases hbase
        exact h.hidden horderly.sound hmade hid
      | _ => cases hbase

end Listed

end GoBlocks.Contexts
