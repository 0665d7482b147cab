import GoBlocks.Blockstore.Commit

/-!
# Linearizability of the blockstore

Any number of clients interleave the raw calls of their operations on
content-addressed blocks. In the order of the calls at which the operations take
effect, the replies and the contents are those of the sequential map of the key
classes.
-/

namespace GoBlocks

open Blockstore

namespace Clients

/-- The blocks that the clients of a run put. -/
def putBlocks {ι : Type} (ls : List (ι × Act)) : Set Block :=
  {b | ∃ i, (i, .call (.put b)) ∈ ls}

/-- The run is content-addressed: blocks put under the same datastore key have the
same data, and what is stored under the key of such a block at the start is its
data. -/
structure ContentAddressed {ι : Type} (d : Ds.KeyMap) (ls : List (ι × Act)) : Prop where
  sameData : SameData (putBlocks ls)
  agrees : Agrees (putBlocks ls) d

/-- The block of a client's `Put`, if it is in one, is among the given ones. -/
def Pc.Within (B : Set Block) (p : Pc) : Prop := ∀ b, p.pending = some (.put b) → b ∈ B

/-- A step leads to an operation on a block that was put. -/
theorem Pc.Within.next {B : Set Block} {p p' : Pc} {a : Act} (hp : p.Within B)
    (h : p.next a = some p') (ha : ∀ b, a = .call (.put b) → b ∈ B) : p'.Within B := by
  intro b hb
  by_cases hboundary : a.IsBoundary
  · cases a with
    | call c =>
      obtain rfl := Option.some.inj ((Pc.next_call h).symm.trans hb)
      exact ha b rfl
    | ret r =>
      obtain rfl := Pc.next_ret h
      simp only [Pc.next, if_true] at h
      cases h
      cases hb
    | _ => cases hboundary
  · obtain ⟨c, hc, ⟨-, hc'⟩ | ⟨r, -, rfl⟩⟩ := Pc.next_of_raw h hboundary
    · exact hp b (hc.trans (hc'.symm.trans hb))
    · cases hb

/-- A raw `Put` is made for the block of the client's `Put`. -/
theorem Pc.pending_of_putPut {p p' : Pc} {b : Block} {r : Except Err Unit}
    (h : p.next (.putPut b r) = some p') : p.pending = some (.put b) := by
  obtain ⟨c, hc, ⟨hnone, -⟩ | ⟨r', hsome, -⟩⟩ := Pc.next_of_raw h (by simp [Act.IsBoundary])
  · cases hnone
  · obtain ⟨rfl, -⟩ := Prod.mk.inj (Option.some.inj hsome)
    exact hc

section Run

variable {ι : Type} [DecidableEq ι] {H : Bytes → Bytes} {B : Set Block}

/-- The contents agree with the blocks, and the clients put only such blocks. -/
structure Inv (B : Set Block) (s : Threads ι Ds.KeyMap Pc) : Prop where
  agrees : Agrees B s.shared
  within : ∀ i, (s.loc i).Within B

/-- What a step of the system is. -/
theorem step_cases {s t : Threads ι Ds.KeyMap Pc} {i : ι} {a : Act}
    (h : (lts ⟨H, false⟩ ι).step s (i, a) t) :
    effect ⟨H, false⟩ s.shared a = some t.shared ∧ (s.loc i).next a = some (t.loc i) ∧
      ∀ j, j ≠ i → t.loc j = s.loc j := by
  obtain ⟨r, hr, rfl⟩ := Threads.step_iff.mp h
  obtain ⟨heffect, hnext⟩ := client_eq_some_iff.mp hr
  exact ⟨heffect, by rwa [Threads.set_loc_self], fun j hj => Threads.set_loc_of_ne s hj r⟩

/-- A step with content-addressed blocks keeps the invariant. -/
theorem Inv.step (hB : SameData B) {s t : Threads ι Ds.KeyMap Pc} {l : ι × Act} (hs : Inv B s)
    (hl : ∀ b, l.2 = .call (.put b) → b ∈ B) (h : (lts ⟨H, false⟩ ι).step s l t) : Inv B t := by
  obtain ⟨i, a⟩ := l
  obtain ⟨heffect, hnext, hother⟩ := step_cases h
  refine ⟨hs.agrees.effect hB heffect ?_, fun j => ?_⟩
  · rintro b r rfl
    exact hs.within i b (Pc.pending_of_putPut hnext)
  · by_cases hj : j = i
    · subst hj
      exact (hs.within j).next hnext hl
    · rw [hother j hj]
      exact hs.within j

/-- The invariant holds along a run with content-addressed blocks. -/
theorem Inv.run (hB : SameData B) {s t : Threads ι Ds.KeyMap Pc} {ls : List (ι × Act)}
    (hs : Inv B s) (hls : putBlocks ls ⊆ B) (h : (lts ⟨H, false⟩ ι).Run s ls t) : Inv B t := by
  induction h with
  | nil s => exact hs
  | @cons _ _ _ l ls hstep _ ih =>
    refine ih (hs.step hB ?_ hstep) fun b ⟨i, hi⟩ => hls ⟨i, List.mem_cons_of_mem _ hi⟩
    rintro b hb
    exact hls ⟨l.1, by rw [← hb]; exact List.mem_cons_self ..⟩

/-- A raw `Put` in a run overwrites nothing or the same data. -/
theorem Inv.putPut {s t : Threads ι Ds.KeyMap Pc} {i : ι} {a : Act} (hs : Inv B s)
    (h : (lts ⟨H, false⟩ ι).step s (i, a) t) (b : Block) (r : Except Err Unit)
    (ha : a = .putPut b r) (v : Ds.Value) (hv : s.shared.lookup (rawKey b.key) = some v) :
    v = .bytes b.data := by
  subst ha
  obtain ⟨-, hnext, -⟩ := step_cases h
  exact hs.agrees b (hs.within i b (Pc.pending_of_putPut hnext)) v hv

/-- The steps that commit form a run of the sequential map. -/
theorem classStore_run (hB : SameData B) {s t : Threads ι Ds.KeyMap Pc} {ls : List (ι × Act)}
    (hs : Inv B s) (hls : putBlocks ls ⊆ B) (h : (lts ⟨H, false⟩ ι).Run s ls t) :
    classStore.pointLts.Run (classMap s.shared) (ls.filterMap fun l => commit l.2)
      (classMap t.shared) := by
  induction h with
  | nil s => exact .nil _
  | @cons v w u l ls hstep hrun ih =>
    obtain ⟨i, a⟩ := l
    have hw : Inv B w := Inv.run hB hs (fun b ⟨j, hj⟩ => hls ⟨j, by simp_all⟩)
      (LTS.run_singleton_iff.mpr hstep)
    have ih := ih hw fun b ⟨j, hj⟩ => hls ⟨j, List.mem_cons_of_mem _ hj⟩
    obtain ⟨heffect, -, -⟩ := step_cases hstep
    cases hcommit : commit a with
    | none =>
      simp only [List.filterMap_cons, hcommit]
      rw [← eq_of_not_commit heffect hcommit]
      exact ih
    | some c =>
      simp only [List.filterMap_cons, hcommit]
      exact .cons (classStore_step_of_commit heffect hcommit fun b r ha v hv =>
        hs.putPut hstep b r ha v hv) ih

/-- A completed operation takes effect at exactly one of its own raw calls. -/
theorem commit_own {s t : Threads ι Ds.KeyMap Pc} {pre mid post : List (ι × Act)} {i : ι}
    {c : Call} {r : Reply}
    (h : (lts ⟨H, false⟩ ι).Run s (pre ++ (i, .call c) :: (mid ++ (i, .ret r) :: post)) t)
    (hmid : ∀ a, (i, a) ∈ mid → ¬ a.IsBoundary) :
    (Threads.own i mid).filterMap commit = [(c, r)] := by
  obtain ⟨s₁, -, hcall⟩ := LTS.run_append_iff.mp h
  cases hcall with
  | cons hcall hrest =>
    obtain ⟨s₃, hrun, hret⟩ := LTS.run_append_iff.mp hrest
    cases hret with
    | cons hret _ =>
      obtain ⟨-, hnextCall, -⟩ := step_cases hcall
      obtain ⟨-, hnextRet, -⟩ := step_cases hret
      have hcontrol : ∀ d p a r, client ⟨H, false⟩ d p a = some r → p.next a = some r.2 :=
        fun _ _ _ _ hr => (client_eq_some_iff.mp hr).2
      have hexec := Threads.exec_own hcontrol hrun i
      rw [Pc.next_ret hnextRet] at hexec
      exact commit_of_exec (Pc.next_call hnextCall) hexec fun a ha => hmid a (Threads.mem_own.mp ha)

/-- An operation that is pending was called, and has not taken effect since. -/
theorem called_of_pending {d : Ds.KeyMap} {t : Threads ι Ds.KeyMap Pc} {ls : List (ι × Act)}
    (h : (lts ⟨H, false⟩ ι).Run ⟨d, fun _ => .idle⟩ ls t) {i : ι} {c : Call}
    (hi : (t.loc i).pending = some c) :
    ∃ pre post, ls = pre ++ (i, .call c) :: post ∧
      ∀ a, (i, a) ∈ post → ¬ a.IsBoundary ∧ commit a = none := by
  refine h.history_induction (fun hist s => ∀ i c, (s.loc i).pending = some c →
    ∃ pre post, hist = pre ++ (i, .call c) :: post ∧
      ∀ a, (i, a) ∈ post → ¬ a.IsBoundary ∧ commit a = none) ?_ ?_ i c hi
  · intro i c hi
    cases hi
  · rintro hist v ⟨j, a⟩ w - ih hstep i c hi
    obtain ⟨-, hnext, hother⟩ := step_cases hstep
    -- The label is added to the end of the history of the pending operation.
    have hextend : (v.loc i).pending = some c → (i = j → ¬ a.IsBoundary ∧ commit a = none) →
        ∃ pre post, hist ++ [(j, a)] = pre ++ (i, .call c) :: post ∧
          ∀ a, (i, a) ∈ post → ¬ a.IsBoundary ∧ commit a = none := by
      intro hpending ha
      obtain ⟨pre, post, rfl, hpost⟩ := ih i c hpending
      refine ⟨pre, post ++ [(j, a)], by simp, fun a' ha' => ?_⟩
      rcases List.mem_append.mp ha' with ha' | ha'
      · exact hpost a' ha'
      · cases List.mem_singleton.mp ha'
        exact ha rfl
    by_cases hij : i = j
    · subst hij
      by_cases hboundary : a.IsBoundary
      · cases a with
        | call c' =>
          obtain rfl := Option.some.inj ((Pc.next_call hnext).symm.trans hi)
          exact ⟨hist, [], rfl, by simp⟩
        | ret r =>
          rw [Pc.next_ret hnext] at hnext
          simp only [Pc.next, if_true, Option.some.injEq] at hnext
          rw [← hnext] at hi
          cases hi
        | _ => cases hboundary
      · obtain ⟨c', hc', ⟨hnone, hpending⟩ | ⟨r, -, hdone⟩⟩ := Pc.next_of_raw hnext hboundary
        · obtain rfl := Option.some.inj (hpending.symm.trans hi)
          exact hextend hc' fun _ => ⟨hboundary, hnone⟩
        · rw [hdone] at hi
          cases hi
    · rw [hother i hij] at hi
      exact hextend hi fun heq => absurd heq hij

/-- The client that commits an operation had it pending. -/
theorem pending_of_commit {s t : Threads ι Ds.KeyMap Pc} {i : ι} {a : Act} {c : Call} {r : Reply}
    (h : (lts ⟨H, false⟩ ι).step s (i, a) t) (ha : commit a = some (c, r)) :
    (s.loc i).pending = some c := by
  obtain ⟨-, hnext, -⟩ := step_cases h
  have hraw : ¬ a.IsBoundary := by
    cases a <;> simp_all [commit, Act.IsBoundary]
  obtain ⟨c', hc', ⟨hnone, -⟩ | ⟨r', hsome, -⟩⟩ := Pc.next_of_raw hnext hraw
  · rw [hnone] at ha
    cases ha
  · obtain ⟨rfl, -⟩ := Prod.mk.inj (Option.some.inj (hsome.symm.trans ha))
    exact hc'

/-- When a `Put` takes effect, its data is stored. -/
theorem lookup_of_commit_put {s t : Threads ι Ds.KeyMap Pc} {i : ι} {a : Act} {b : Block}
    {r : Reply} (hs : Inv B s) (h : (lts ⟨H, false⟩ ι).step s (i, a) t)
    (ha : commit a = some (.put b, r)) :
    t.shared.lookup (rawKey b.key) = some (.bytes b.data) := by
  have hb : b ∈ B := hs.within i b (pending_of_commit h ha)
  obtain ⟨heffect, -, -⟩ := step_cases h
  cases a with
  | putHas b' found =>
    cases found with
    | false => cases ha
    | true =>
      cases ha
      obtain ⟨hsome, heq⟩ := effect_putHas.mp heffect
      obtain ⟨v, hv⟩ := Option.isSome_iff_exists.mp hsome
      rw [← heq, hv, hs.agrees b hb v hv]
  | putPut b' r' =>
    cases ha
    rw [← (effect_putPut.mp heffect).2]
    exact Finmap.lookup_insert _
  | _ => cases ha

/-- Stored data stays until it is deleted. -/
theorem lookup_run (hB : SameData B) {s t : Threads ι Ds.KeyMap Pc} {ls : List (ι × Act)}
    (hs : Inv B s) (hls : putBlocks ls ⊆ B) (h : (lts ⟨H, false⟩ ι).Run s ls t) {b : Block}
    (hb : b ∈ B) (hv : s.shared.lookup (rawKey b.key) = some (.bytes b.data))
    (hdel : ∀ i k, (i, .delete k (.ok ())) ∈ ls → rawKey k ≠ rawKey b.key) :
    t.shared.lookup (rawKey b.key) = some (.bytes b.data) := by
  induction h with
  | nil s => exact hv
  | @cons v w u l ls hstep hrun ih =>
    obtain ⟨i, a⟩ := l
    have hw : Inv B w := hs.step hB (fun b' hb' => hls ⟨i, hb' ▸ List.mem_cons_self ..⟩) hstep
    refine ih hw (fun b' ⟨j, hj⟩ => hls ⟨j, List.mem_cons_of_mem _ hj⟩) ?_
      fun j k hjk => hdel j k (List.mem_cons_of_mem _ hjk)
    obtain ⟨heffect, hnext, -⟩ := step_cases hstep
    rcases lookup_effect heffect (rawKey b.key) with
      heq | ⟨b', r, rfl, hkey, heq⟩ | ⟨k, rfl, hkey, -⟩
    · exact heq.trans hv
    · have hb' : b' ∈ B := hs.within i b' (Pc.pending_of_putPut hnext)
      rw [heq, hB b' hb' b hb hkey]
    · exact absurd hkey (hdel i k (List.mem_cons_self ..))

/-- A `Get` that takes effect after a `Put`, with no deletion of the key between
them, returns the data that was put. -/
theorem get_of_commit_put (hB : SameData B) {s t : Threads ι Ds.KeyMap Pc}
    {pre mid post : List (ι × Act)} {i j : ι} {a : Act} {b : Block} {k : Key} {r' : Reply}
    {r : Except Err Block} (hs : Inv B s)
    (hls : putBlocks (pre ++ (i, a) :: (mid ++ (j, .get k r) :: post)) ⊆ B)
    (h : (lts ⟨H, false⟩ ι).Run s (pre ++ (i, a) :: (mid ++ (j, .get k r) :: post)) t)
    (ha : commit a = some (.put b, r')) (hk : k.Equiv b.key)
    (hdel : ∀ m k', (m, .delete k' (.ok ())) ∈ mid → ¬ k'.Equiv b.key) :
    r = .ok ⟨k, b.data⟩ := by
  obtain ⟨s₁, hpre, hrest⟩ := LTS.run_append_iff.mp h
  cases hrest with
  | @cons _ s₂ _ _ _ hput hrest =>
    obtain ⟨s₃, hmid, hget⟩ := LTS.run_append_iff.mp hrest
    cases hget with
    | cons hget _ =>
      have hs₁ : Inv B s₁ := hs.run hB (fun b' ⟨m, hm⟩ => hls ⟨m, by simp [hm]⟩) hpre
      have hs₂ : Inv B s₂ := hs₁.step hB (fun b' hb' => hls ⟨i, by simp [← hb']⟩) hput
      have hstored : s₃.shared.lookup (rawKey b.key) = some (.bytes b.data) := by
        refine lookup_run hB hs₂ (fun b' ⟨m, hm⟩ => hls ⟨m, by simp [hm]⟩) hmid
          (hs₁.within i b (pending_of_commit hput ha)) (lookup_of_commit_put hs₁ hput ha) ?_
        intro m k' hm heq
        exact hdel m k' hm (rawKey_eq_iff.mp heq)
      rw [← rawKey_eq_iff.mpr hk] at hstored
      obtain ⟨heffect, -, -⟩ := step_cases hget
      simp only [effect, mapStore.get_eq, hstored, newBlockWithHash_of_not_debug,
        Option.ite_none_right_eq_some] at heffect
      exact heffect.1.symm

/-- **The blockstore is linearizable.** Take any interleaving of clients that put
content-addressed blocks over a blockstore with any contents. The steps that
commit an operation, in their order, are a run of the sequential map of the key
classes, with the same replies and the same final contents. Every completed
operation commits at exactly one of its own raw calls, with the reply that it
returns, and every step that commits belongs to an operation that was called and
has not committed before. A `Get` that takes effect after a `Put`, with no
successful deletion of the key between them, returns the data that was put. -/
theorem blockstore_linearizable (d : Ds.KeyMap) (ls : List (ι × Act))
    (t : Threads ι Ds.KeyMap Pc) (hrun : (lts ⟨H, false⟩ ι).Run ⟨d, fun _ => .idle⟩ ls t)
    (hca : ContentAddressed d ls) :
    classStore.pointLts.Run (classMap d) (ls.filterMap fun l => commit l.2) (classMap t.shared) ∧
    (∀ pre i c mid r post, ls = pre ++ (i, .call c) :: (mid ++ (i, .ret r) :: post) →
      (∀ a, (i, a) ∈ mid → ¬ a.IsBoundary) → (Threads.own i mid).filterMap commit = [(c, r)]) ∧
    (∀ pre i a post c r, ls = pre ++ (i, a) :: post → commit a = some (c, r) →
      ∃ before since, pre = before ++ (i, .call c) :: since ∧
        ∀ a', (i, a') ∈ since → ¬ a'.IsBoundary ∧ commit a' = none) ∧
    (∀ pre i a mid j k r post b, ls = pre ++ (i, a) :: (mid ++ (j, .get k r) :: post) →
      commit a = some (.put b, .put (.ok ())) → k.Equiv b.key →
      (∀ m k', (m, .delete k' (.ok ())) ∈ mid → ¬ k'.Equiv b.key) → r = .ok ⟨k, b.data⟩) := by
  have hinv : Inv (putBlocks ls) (⟨d, fun _ => .idle⟩ : Threads ι Ds.KeyMap Pc) :=
    ⟨hca.agrees, fun i b hb => by cases hb⟩
  refine ⟨classStore_run hca.sameData hinv subset_rfl hrun, ?_, ?_, ?_⟩
  · rintro pre i c mid r post rfl hmid
    exact commit_own hrun hmid
  · rintro pre i a post c r rfl ha
    obtain ⟨s, hpre, hrest⟩ := LTS.run_append_iff.mp hrun
    cases hrest with
    | cons hstep _ => exact called_of_pending hpre (pending_of_commit hstep ha)
  · rintro pre i a mid j k r post b rfl ha hk hdel
    exact get_of_commit_put hca.sameData hinv subset_rfl hrun ha hk hdel

end Run

/-- Two clients put the same block, both miss it, and one reads it afterwards. -/
def overlappingPuts : List (Bool × Act) :=
  [(true, .call (.put ⟨[1], [2]⟩)), (false, .call (.put ⟨[1], [2]⟩)),
    (true, .putHas ⟨[1], [2]⟩ false), (false, .putHas ⟨[1], [2]⟩ false),
    (true, .putPut ⟨[1], [2]⟩ (.ok ())), (false, .putPut ⟨[1], [2]⟩ (.ok ())),
    (true, .ret (.put (.ok ()))), (false, .ret (.put (.ok ()))),
    (true, .call (.get [1])), (true, .get [1] (.ok ⟨[1], [2]⟩)),
    (true, .ret (.get (.ok ⟨[1], [2]⟩)))]

/-- The overlapping puts commit one after the other, before the read. -/
theorem blockstore_linearizable_overlappingPuts :
    ∃ t, (lts ⟨id, false⟩ Bool).Run ⟨∅, fun _ => .idle⟩ overlappingPuts t ∧
      classStore.pointLts.Run (classMap ∅)
        [(.put ⟨[1], [2]⟩, .put (.ok ())), (.put ⟨[1], [2]⟩, .put (.ok ())),
          (.get [1], .get (.ok ⟨[1], [2]⟩))] (classMap t.shared) := by
  have hblocks : ∀ b ∈ putBlocks overlappingPuts, b = ⟨[1], [2]⟩ := by
    rintro b ⟨i, hi⟩
    simp only [overlappingPuts, List.mem_cons, Prod.mk.injEq, Act.call.injEq, Call.put.injEq,
      reduceCtorEq, and_false, or_false, List.not_mem_nil] at hi
    rcases hi with ⟨-, rfl⟩ | ⟨-, rfl⟩ <;> rfl
  have hca : ContentAddressed ∅ overlappingPuts := by
    refine ⟨fun b hb b' hb' _ => ?_, fun b _ v hv => ?_⟩
    · rw [hblocks b hb, hblocks b' hb']
    · simp at hv
  have hrun : ∃ t, (lts ⟨id, false⟩ Bool).Run ⟨∅, fun _ => .idle⟩ overlappingPuts t :=
    ⟨_, LTS.run_ofFun_iff.mpr rfl⟩
  obtain ⟨t, ht⟩ := hrun
  exact ⟨t, ht, (blockstore_linearizable ∅ overlappingPuts t ht hca).1⟩

end Clients

end GoBlocks
