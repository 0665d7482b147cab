import GoBlocks.Blockstore.WriteCache
import GoBlocks.Lib.Interleaving

/-!
# Concurrent clients of the write cache

Any number of clients run `Put`, `Has` and `DeleteBlock` through one write cache.
Each call of the LRU cache and each call of the store below is one atomic step,
and the steps of different clients interleave freely. `DeleteBlock` removes the
key from the cache first and from the store later. A `Put` in between finds the
key gone from the cache but still stored, so it caches a key that the pending
deletion is about to take out of the store.
-/

namespace GoBlocks

open Blockstore

namespace WriteCache

/-- The operations of the clients. -/
inductive Op where
  | put (b : Block)
  | has (k : Key)
  | deleteBlock (k : Key)

/-- Where a client stands in its operation. -/
inductive Pc where
  /-- No operation was started. -/
  | idle
  /-- The last operation returned. -/
  | returned (r : Reply)
  /-- `Put` missed the cache, about to call `cache.Add`. -/
  | putAdd (b : Block)
  /-- `Put` cached the key, about to call `Put` on the store. -/
  | putStore (b : Block)
  /-- `Has` missed the cache, about to call `Has` on the store. -/
  | hasStore (k : Key)
  /-- `DeleteBlock` removed the key from the cache, about to call `DeleteBlock` on
  the store. -/
  | deleteStore (k : Key)

/-- No operation of the client is in progress. -/
def Pc.Resting : Pc → Bool
  | .idle | .returned _ => true
  | _ => false

/-- What a client does next: start an operation or continue the current one. -/
inductive Action where
  | start (op : Op)
  | advance

variable {σ : Type}

/-- The first atomic step of an operation, a call of the LRU cache. -/
def begin (g : KeyCache × σ) : Op → (KeyCache × σ) × Pc
  | .put b => (((g.1.get b.key).2, g.2),
      if (g.1.get b.key).1.isSome then .returned (.put (.ok ())) else .putAdd b)
  | .has k => (((g.1.get k).2, g.2),
      if (g.1.get k).1.isSome then .returned (.has (.ok true)) else .hasStore k)
  | .deleteBlock k => ((g.1.remove k, g.2), .deleteStore k)

/-- The later atomic steps of an operation. -/
def resume (bs : Blockstore σ) (g : KeyCache × σ) : Pc → Option ((KeyCache × σ) × Pc)
  | .putAdd b => some ((g.1.add b.key (), g.2), .putStore b)
  | .putStore b => some ((g.1, (bs.put b g.2).2), .returned (.put (bs.put b g.2).1))
  | .hasStore k => some ((g.1, (bs.has k g.2).2), .returned (.has (bs.has k g.2).1))
  | .deleteStore k =>
    some ((g.1, (bs.deleteBlock k g.2).2), .returned (.deleteBlock (bs.deleteBlock k g.2).1))
  | .idle | .returned _ => none

/-- The program of a client. -/
def client (bs : Blockstore σ) (g : KeyCache × σ) (p : Pc) : Action → Option ((KeyCache × σ) × Pc)
  | .start op => if p.Resting then some (begin g op) else none
  | .advance => resume bs g p

/-- The outcome of an operation of the sequential write cache. -/
def outcome (bs : Blockstore σ) (g : KeyCache × σ) : Op → (KeyCache × σ) × Pc
  | .put b => ((put bs b g).2, .returned (.put (put bs b g).1))
  | .has k => ((has bs k g).2, .returned (.has (has bs k g).1))
  | .deleteBlock k => ((deleteBlock bs k g).2, .returned (.deleteBlock (deleteBlock bs k g).1))

/-- An operation that runs alone has the outcome of the sequential write cache. -/
theorem exec_client_alone (bs : Blockstore σ) (g : KeyCache × σ) {p : Pc} (hp : p.Resting)
    (op : Op) : ∃ n, LTS.exec (fun r l => client bs r.1 r.2 l) (g, p)
      (.start op :: List.replicate n .advance) = some (outcome bs g op) := by
  cases op with
  | put b =>
    cases hget : (g.1.get b.key).1.isSome with
    | true => exact ⟨0, by simp [LTS.exec, client, hp, begin, outcome, put, hget]⟩
    | false => exact ⟨2, by
        simp [List.replicate, LTS.exec, client, hp, begin, resume, outcome, put, hget]⟩
  | has k =>
    cases hget : (g.1.get k).1.isSome with
    | true => exact ⟨0, by simp [LTS.exec, client, hp, begin, outcome, has, hget]⟩
    | false => exact ⟨1, by
        simp [List.replicate, LTS.exec, client, hp, begin, resume, outcome, has, hget]⟩
  | deleteBlock k => exact ⟨1, by
      simp [List.replicate, LTS.exec, client, hp, begin, resume, outcome, deleteBlock]⟩

/-- An operation of the sequential write cache is a run of one client while the
others stand still. -/
theorem exists_run_alone {ι : Type} [DecidableEq ι] (bs : Blockstore σ)
    {s : Threads ι (KeyCache × σ) Pc} {i : ι} (hi : (s.loc i).Resting) (op : Op) :
    ∃ n, (Threads.lts (client bs)).Run s
      ((.start op :: List.replicate n .advance).map fun a => (i, a))
      (s.set i (outcome bs s.shared op)) := by
  obtain ⟨n, hn⟩ := exec_client_alone bs s.shared hi op
  exact ⟨n, Threads.run_solo hn⟩

/-- A `Put` of the key stands between caching the key and storing the block. -/
def Pc.Storing (k : Key) : Pc → Prop
  | .putStore b => b.key = k
  | _ => False

variable {bs : Blockstore σ} (M : FaithfulMap bs)

/-- The keys in the cache after an action: the key is stored, or the client has
just cached it and is about to store it, or the action left its standing alone, or
the action was a deletion of the key from the store. -/
theorem client_spec {g : KeyCache × σ} {p : Pc} {a : Action} {r : (KeyCache × σ) × Pc}
    (h : client bs g p a = some r) {k : Key} (hk : k ∈ r.1.1) :
    (M.contents r.1.2 k).isSome ∨ r.2.Storing k ∨
      (k ∈ g.1 ∧ ¬ p.Storing k ∧ ((M.contents g.2 k).isSome → (M.contents r.1.2 k).isSome)) ∨
      (k ∈ g.1 ∧ a = .advance ∧ p = .deleteStore k) := by
  cases a with
  | start op =>
    simp only [client, Option.ite_none_right_eq_some, Option.some.injEq] at h
    obtain ⟨hp, rfl⟩ := h
    have hstart : ¬ p.Storing k := by
      cases p <;> simp_all [Pc.Resting, Pc.Storing]
    cases op with
    | put b | has k' => exact .inr (.inr (.inl ⟨Lru.Cache.mem_get.mp hk, hstart, id⟩))
    | deleteBlock k' => exact .inr (.inr (.inl ⟨(Lru.Cache.mem_remove.mp hk).1, hstart, id⟩))
  | advance =>
    cases p with
    | idle => cases h
    | returned reply => cases h
    | putAdd b =>
      cases h
      rcases Lru.Cache.eq_or_mem_of_mem_add hk with rfl | hmem
      · exact .inr (.inl rfl)
      · exact .inr (.inr (.inl ⟨hmem, id, id⟩))
    | putStore b =>
      cases h
      by_cases hkey : b.key = k
      · left
        rw [M.contents_put, ← hkey]
        exact Contents.isSome_put_self _ b
      · refine .inr (.inr (.inl ⟨hk, hkey, fun hpresent => ?_⟩))
        rw [M.contents_put]
        exact Contents.isSome_put hpresent b
    | hasStore k' =>
      cases h
      refine .inr (.inr (.inl ⟨hk, id, fun hpresent => ?_⟩))
      rwa [M.contents_has]
    | deleteStore k' =>
      cases h
      by_cases hkey : k = k'
      · exact .inr (.inr (.inr ⟨hk, rfl, hkey ▸ rfl⟩))
      · refine .inr (.inr (.inl ⟨hk, id, fun hpresent => ?_⟩))
        rwa [M.contents_deleteBlock, Contents.delete, Function.update_of_ne hkey]

section Clients

variable {ι : Type} [DecidableEq ι]

/-- Every cached key is stored, or some `Put` of it is about to store it. -/
def Vouched (s : Threads ι (KeyCache × σ) Pc) : Prop :=
  ∀ k ∈ s.shared.1, (M.contents s.shared.2 k).isSome ∨ ∃ j, (s.loc j).Storing k

/-- The action deletes a key from the store only if the key is not cached, or some
`Put` has cached it and is about to store it. -/
def DeletesUncached (s : Threads ι (KeyCache × σ) Pc) (l : ι × Action) : Prop :=
  ∀ k, l.2 = .advance → s.loc l.1 = .deleteStore k → k ∈ s.shared.1 →
    ∃ j, (s.loc j).Storing k

/-- One action keeps the cached keys vouched. -/
theorem vouched_step {s t : Threads ι (KeyCache × σ) Pc} {l : ι × Action} (hs : Vouched M s)
    (hsafe : DeletesUncached s l) (hstep : (Threads.lts (client bs)).step s l t) :
    Vouched M t := by
  obtain ⟨i, a⟩ := l
  obtain ⟨r, hr, rfl⟩ := Threads.step_iff.mp hstep
  intro k hk
  rcases client_spec M hr hk with hstored | hstoring | ⟨hmem, hnot, hkeep⟩ | ⟨hmem, rfl, hp⟩
  · exact .inl hstored
  · exact .inr (Threads.exists_loc_set (.inl hstoring))
  · rcases hs k hmem with hpresent | ⟨j, hj⟩
    · exact .inl (hkeep hpresent)
    · have hne : j ≠ i := fun heq => hnot (heq ▸ hj)
      exact .inr (Threads.exists_loc_set (.inr ⟨j, hne, hj⟩))
  · obtain ⟨j, hj⟩ := hsafe k rfl hp hmem
    have hne : j ≠ i := by
      rintro rfl
      rw [hp] at hj
      exact hj
    exact .inr (Threads.exists_loc_set (.inr ⟨j, hne, hj⟩))

omit [DecidableEq ι] in
/-- When no operation is in progress, vouched keys are stored. -/
theorem Vouched.covered {s : Threads ι (KeyCache × σ) Pc} (hs : Vouched M s)
    (hrest : ∀ i, (s.loc i).Resting) : Covered s.shared.1 (M.contents s.shared.2) := by
  intro k hk
  rcases hs k hk with hpresent | ⟨j, hj⟩
  · exact hpresent
  · have := hrest j
    cases hp : s.loc j <;> simp_all [Pc.Resting, Pc.Storing]

/-- **The write cache under concurrent clients.** For every positive size, any
initial contents and any number of clients, consider a run in which every deletion
of a key from the store happens while the key is not cached, or while some `Put`
has cached it and is about to store it. In every state it reaches with no
operation in progress, every cached key is stored. -/
theorem covered_of_deletesUncached {size : ℤ} (hsize : 1 ≤ size) (s : σ) :
    ∃ w, writeCached size s = some w ∧ ∀ (ls : List (ι × Action)) t,
      ((Threads.lts (client bs)).restrict DeletesUncached).Run ⟨w, fun _ => .idle⟩ ls t →
      (∀ i, (t.loc i).Resting) → Covered t.shared.1 (M.contents t.shared.2) := by
  obtain ⟨c, hc, hempty⟩ := exists_writeCached hsize s
  refine ⟨(c, s), hc, fun ls t hrun hrest => ?_⟩
  have hvouched : Vouched M t := by
    refine hrun.invariant (Vouched M) ?_ fun k hk => absurd hk (hempty k)
    rintro v l v' hv ⟨hstep, hsafe⟩
    exact vouched_step M hv hsafe hstep
  exact hvouched.covered M hrest

end Clients

/-- The block of the runs below. -/
def raceBlock : Block := ⟨[1], [2]⟩

/-- A client stores the block, and then another deletes it. -/
theorem covered_put_then_delete :
    ∃ w t, writeCached 1 (fun _ => none : Contents) = some w ∧
      (Threads.lts (client contentsStore)).Run ⟨w, fun _ : Bool => .idle⟩
        [(true, .start (.put raceBlock)), (true, .advance), (true, .advance),
          (false, .start (.deleteBlock [1])), (false, .advance)] t ∧
      Covered t.shared.1 t.shared.2 := by
  obtain ⟨w, hw, hcov⟩ :=
    covered_of_deletesUncached (ι := Bool) contentsStore.faithful (le_refl 1) fun _ => none
  have hrun : ∃ t, ((Threads.lts (client contentsStore)).restrict DeletesUncached).Run
      ⟨w, fun _ : Bool => .idle⟩
      [(true, .start (.put raceBlock)), (true, .advance), (true, .advance),
        (false, .start (.deleteBlock [1])), (false, .advance)] t ∧ ∀ i, (t.loc i).Resting := by
    obtain rfl := Option.some.inj hw
    refine ⟨_, .cons ⟨rfl, ?_⟩ (.cons ⟨rfl, ?_⟩ (.cons ⟨rfl, ?_⟩ (.cons ⟨rfl, ?_⟩
      (.cons ⟨rfl, ?_⟩ (.nil _))))), ?_⟩
    · intro k ha
      cases ha
    · intro k _ hp
      cases hp
    · intro k _ hp
      cases hp
    · intro k ha
      cases ha
    · intro k _ hp hmem
      cases hp
      exact absurd hmem (by decide)
    · decide
  obtain ⟨t, ht, hrest⟩ := hrun
  exact ⟨w, t, hw, ht.of_restrict, hcov _ t ht hrest⟩

/-- A client has stored the block. Another starts to delete it and removes the key
from the cache. The first puts the block again, which caches the key and leaves
the store alone, and then the deletion reaches the store. Both are done, and the
key is cached but not stored. -/
theorem not_covered_put_during_delete :
    ∃ w t, writeCached 1 (fun _ => none : Contents) = some w ∧
      (Threads.lts (client contentsStore)).Run ⟨w, fun _ : Bool => .idle⟩
        [(true, .start (.put raceBlock)), (true, .advance), (true, .advance),
          (false, .start (.deleteBlock [1])),
          (true, .start (.put raceBlock)), (true, .advance), (true, .advance),
          (false, .advance)] t ∧
      (∀ i, (t.loc i).Resting) ∧ [1] ∈ t.shared.1 ∧ t.shared.2 [1] = none := by
  refine ⟨_, _, rfl, LTS.run_ofFun_iff.mpr rfl, ?_, ?_, rfl⟩
  · decide
  · decide

end WriteCache

end GoBlocks
