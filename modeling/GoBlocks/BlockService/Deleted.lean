import GoBlocks.BlockService.Writes

/-!
# Deleted blocks

A block that was added is put a second time when the worker hands it to the
offline exchange, at any time after `AddBlock` has returned. A deletion that comes
before that is undone. A deleted key stays deleted if, at the moment of the raw
deletion, no block with its datastore key is on its way to the blockstore, neither
in the worker nor in a call of a client, and no client starts to add one later.
-/

namespace GoBlocks

namespace BlockService

open Blockstore

section System

variable {ι : Type} [DecidableEq ι] {env : HashEnv} {s t : System ι}

/-- Nothing is stored under the datastore key, and no block with the key is on its
way. -/
structure Quiet (rk : Ds.Key) (s : System ι) : Prop where
  absent : s.store.lookup rk = none
  noWriter : ∀ b, s.Writes b → rawKey b.key ≠ rk

/-- One step keeps a key quiet if it does not start to add a block with the key. -/
theorem Quiet.step {rk : Ds.Key} {l : Label ι} (hs : Quiet rk s) (h : (lts env ι).step s l t)
    (hl : ∀ b, l.Adds b → rawKey b.key ≠ rk) : Quiet rk t := by
  obtain ⟨hwrites, hlookup⟩ := next_spec h
  refine ⟨hlookup rk hs.noWriter hs.absent, fun b hb => ?_⟩
  rcases hwrites b hb with hb | hb
  · exact hs.noWriter b hb
  · exact hl b hb

/-- A run that does not start to add a block with the key keeps the key quiet. -/
theorem Quiet.run {rk : Ds.Key} {ls : List (Label ι)} (hs : Quiet rk s)
    (h : (lts env ι).Run s ls t) (hls : ∀ l ∈ ls, ∀ b, l.Adds b → rawKey b.key ≠ rk) :
    Quiet rk t := by
  induction h with
  | nil s => exact hs
  | cons hstep _ ih =>
    exact ih (hs.step hstep (hls _ (List.mem_cons_self ..)))
      fun l hl => hls l (List.mem_cons_of_mem _ hl)

/-- A raw deletion quiets its key if no block with the key is on its way. -/
theorem Quiet.of_delete {i : ι} {k : Key} (hi : s.client i = .deleting k)
    (hs : ∀ b, s.Writes b → rawKey b.key ≠ rawKey k) (h : (lts env ι).step s (.raw i) t) :
    Quiet (rawKey k) t := by
  obtain ⟨hwrites, -⟩ := next_spec h
  obtain ⟨⟨d', p'⟩, hraw, rfl⟩ := Option.map_eq_some_iff.mp h
  refine ⟨?_, fun b hb => ?_⟩
  · rw [hi] at hraw
    cases hraw
    exact mapStore.lookup_update_deleteBlock env s.store k
  · rcases hwrites b hb with hb | hb
    · exact hs b hb
    · cases hb

/-- **A deleted block stays deleted** if nothing is about to write it. Take any run
of a block service over any contents, and in it the raw deletion of a
`DeleteBlock`. Suppose that at that moment no block with the same datastore key is
on its way to the blockstore, neither in the worker nor in a call of a client, and
that no client later starts to add such a block. In every later state `Has` of the
key is false. -/
theorem deleted_stays_deleted (env : HashEnv) (ι : Type) [DecidableEq ι] (d : Ds.KeyMap) :
    ∃ s₀, new ι d = some s₀ ∧ ∀ (pre post : List (Label ι)) (i : ι) (k : Key) (v w t : System ι),
      (lts env ι).Run s₀ pre v → v.client i = .deleting k →
      (∀ b, v.Writes b → ¬ b.key.Equiv k) → (lts env ι).step v (.raw i) w →
      (lts env ι).Run w post t → (∀ l ∈ post, ∀ b, l.Adds b → ¬ b.key.Equiv k) →
      ((mapStore env).has k t.store).1 = .ok false := by
  refine ⟨_, rfl, fun pre post i k v w t _ hi hquiet hdelete hrun hpost => ?_⟩
  have hw : Quiet (rawKey k) w :=
    .of_delete hi (fun b hb heq => hquiet b hb (rawKey_eq_iff.mp heq)) hdelete
  have ht : Quiet (rawKey k) t :=
    hw.run hrun fun l hl b hb heq => hpost l hl b hb (rawKey_eq_iff.mp heq)
  rw [mapStore.has_eq, ht.absent]
  rfl

end System

/-- The worker is done with a block before it is deleted. -/
theorem deleted_stays_deleted_after_worker :
    ∃ s₀ v t, new Unit ∅ = some s₀ ∧
      (lts ⟨id, false⟩ Unit).Run s₀
        [.start () (.addBlock ⟨[1], [2]⟩), .raw (), .raw (), .handoff (),
          .worker (.pass ⟨[1], [2]⟩), .worker .spawn, .worker (.run 0), .worker (.run 0),
          .start () (.deleteBlock [1])] v ∧
      (lts ⟨id, false⟩ Unit).step v (.raw ()) t ∧
      ((mapStore ⟨id, false⟩).has [1] t.store).1 = .ok false := by
  obtain ⟨s₀, hs₀, hstays⟩ := deleted_stays_deleted ⟨id, false⟩ Unit ∅
  have hrun : ∃ v t, (lts ⟨id, false⟩ Unit).Run s₀
      [.start () (.addBlock ⟨[1], [2]⟩), .raw (), .raw (), .handoff (),
        .worker (.pass ⟨[1], [2]⟩), .worker .spawn, .worker (.run 0), .worker (.run 0),
        .start () (.deleteBlock [1])] v ∧ v.client () = .deleting [1] ∧ (∀ b, ¬ v.Writes b) ∧
      (lts ⟨id, false⟩ Unit).step v (.raw ()) t := by
    obtain rfl := Option.some.inj hs₀
    refine ⟨_, _, LTS.run_ofFun_iff.mpr rfl, rfl, ?_, rfl⟩
    rintro b (hb | ⟨_, hb⟩)
    · cases hb with
      | added h => cases h
      | loop h => cases h
      | workerChan h => cases h
      | limiter h => cases h
      | child child hmem h =>
        cases List.mem_singleton.mp hmem
        cases h
    · cases hb
  obtain ⟨v, t, hv, hi, hnone, hdelete⟩ := hrun
  exact ⟨s₀, v, t, hs₀, hv, hdelete, hstays _ [] () [1] v t t hv hi
    (fun b hb => absurd hb (hnone b)) hdelete (.nil t) fun l hl => absurd hl (by simp)⟩

/-- A client adds a block, and when `AddBlock` has returned, it deletes the block
without an error. The worker then hands the block to the exchange, and the block
is back. -/
theorem not_deleted_before_worker :
    ∃ s₀ v t, new Unit ∅ = some s₀ ∧
      (lts ⟨id, false⟩ Unit).Run s₀
        [.start () (.addBlock ⟨[1], [2]⟩), .raw (), .raw (), .handoff (),
          .start () (.deleteBlock [1]), .raw ()] v ∧
      v.client () = .returned (.deleteBlock (.ok ())) ∧
      ((mapStore ⟨id, false⟩).has [1] v.store).1 = .ok false ∧
      (lts ⟨id, false⟩ Unit).Run v
        [.worker (.pass ⟨[1], [2]⟩), .worker .spawn, .worker (.run 0), .worker (.run 0),
          .worker (.run 0)] t ∧
      ((mapStore ⟨id, false⟩).has [1] t.store).1 = .ok true :=
  ⟨_, _, _, rfl, LTS.run_ofFun_iff.mpr rfl, rfl, rfl, LTS.run_ofFun_iff.mpr rfl, rfl⟩

end BlockService

end GoBlocks
