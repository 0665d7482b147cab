import GoBlocks.Blockstore.WriteCache
import GoBlocks.Flaky

/-!
# The write cache over a failing store

The store below the cache may fail: a sequence of flags says which of its `Put`
and `DeleteBlock` calls fail, and a failing call changes nothing. `writecache.Put`
enters the key into the cache before it asks the store and does not take it out
again when the store fails. The cache vouches for stored keys only, through a
whole run, exactly if the store never fails to put a key that is neither cached
nor stored.
-/

namespace GoBlocks

open Blockstore

variable {σ : Type}

/-- The store whose `Put` and `DeleteBlock` fail at given calls. -/
def flaky (bs : Blockstore σ) : Blockstore (Flaky σ) where
  put b := Flaky.attempt (bs.put b)
  deleteBlock k := Flaky.attempt (bs.deleteBlock k)
  has k := Flaky.lift (bs.has k)
  get k := Flaky.lift (bs.get k)
  getChan ks := Flaky.lift (bs.getChan ks)
  allKeysChan s r := bs.allKeysChan s.store r

/-- The state after a call, whatever it replied. -/
def Blockstore.callState (bs : Blockstore σ) (s : σ) : Call → σ
  | .put b => (bs.put b s).2
  | .has k => (bs.has k s).2
  | .get k => (bs.get k s).2
  | .deleteBlock k => (bs.deleteBlock k s).2
  | .getChan ks => (bs.getChan ks s).2
  | .allKeysChan => s

/-- The state after a sequence of calls. -/
def Blockstore.after (bs : Blockstore σ) (s : σ) (calls : List Call) : σ :=
  calls.foldl bs.callState s

/-- The state after one more call. -/
theorem Blockstore.after_snoc (bs : Blockstore σ) (s : σ) (calls : List Call) (call : Call) :
    bs.after s (calls ++ [call]) = bs.callState (bs.after s calls) call := by
  simp [after]

namespace WriteCache

variable {bs : Blockstore σ} (M : FaithfulMap bs)

/-- The contents below a cache. -/
def stored (w : KeyCache × Flaky σ) : Contents := M.contents w.2.store

/-- The store fails to put a block whose key is neither cached nor stored. -/
def LosesNew (w : KeyCache × Flaky σ) (b : Block) : Prop :=
  b.key ∉ w.1 ∧ stored M w b.key = none ∧ w.2.fails 0 = true

/-- Through a run the cache vouches for stored keys only: in every state each
cached key is stored, and so are the key of a `Put` that returned `nil` and that
of a `Has` that returned `true`. -/
structure VouchesStored (w : KeyCache × Flaky σ) (calls : List Call) : Prop where
  covered : ∀ pre, pre <+: calls →
    Covered ((store (flaky bs)).after w pre).1 (stored M ((store (flaky bs)).after w pre))
  put_ok : ∀ pre b, pre ++ [.put b] <+: calls →
    (put (flaky bs) b ((store (flaky bs)).after w pre)).1 = .ok () →
    (stored M ((store (flaky bs)).after w (pre ++ [.put b])) b.key).isSome
  has_true : ∀ pre k, pre ++ [.has k] <+: calls →
    (has (flaky bs) k ((store (flaky bs)).after w pre)).1 = .ok true →
    (stored M ((store (flaky bs)).after w (pre ++ [.has k])) k).isSome

variable {M} {w : KeyCache × Flaky σ}

section Put

variable {b : Block}

/-- A failing `Put` of a key that is not cached leaves the store alone, but caches
the key. -/
theorem put_of_fails (h : b.key ∉ w.1) (hfails : w.2.fails 0 = true) :
    put (flaky bs) b w =
      (Except.error .failure, (w.1.get b.key).2.add b.key (), ⟨w.2.store, w.2.rest⟩) := by
  have hput : (flaky bs).put b w.2 = (Except.error .failure, ⟨w.2.store, w.2.rest⟩) :=
    if_pos hfails
  obtain ⟨c, s⟩ := w
  rw [put_of_notMem h, hput]

/-- A `Put` of a key that is not cached reaches a store that does not fail. -/
theorem put_of_not_fails (h : b.key ∉ w.1) (hfails : w.2.fails 0 = false) :
    put (flaky bs) b w = ((bs.put b w.2.store).1, (w.1.get b.key).2.add b.key (),
      ⟨(bs.put b w.2.store).2, w.2.rest⟩) := by
  have hput : (flaky bs).put b w.2 =
      ((bs.put b w.2.store).1, ⟨(bs.put b w.2.store).2, w.2.rest⟩) :=
    if_neg (Bool.eq_false_iff.mp hfails)
  obtain ⟨c, s⟩ := w
  rw [put_of_notMem h, hput]

/-- A `Put` that loses no new key keeps the cache covered. -/
theorem covered_put (hcov : Covered w.1 (stored M w)) (hb : ¬ LosesNew M w b) :
    Covered (put (flaky bs) b w).2.1 (stored M (put (flaky bs) b w).2) := by
  by_cases hmem : b.key ∈ w.1
  · obtain ⟨c, s⟩ := w
    rw [put_of_mem hmem]
    exact hcov.get b.key
  cases hfails : w.2.fails 0 with
  | true =>
    -- The store failed on a key that it holds, so the cached key is present.
    have hpresent : (stored M w b.key).isSome := by
      rw [Option.isSome_iff_ne_none]
      exact fun hnone => hb ⟨hmem, hnone, hfails⟩
    have hcov' := (hcov.get b.key).put b
    rw [Contents.put_of_isSome hpresent] at hcov'
    rw [put_of_fails hmem hfails]
    exact hcov'
  | false =>
    have hcov' := (hcov.get b.key).put b
    rw [put_of_not_fails hmem hfails, stored, M.contents_put]
    exact hcov'

/-- The key of a `Put` that loses a new key is cached and not stored. -/
theorem not_covered_put (hb : LosesNew M w b) :
    ¬ Covered (put (flaky bs) b w).2.1 (stored M (put (flaky bs) b w).2) := by
  obtain ⟨hmem, hnone, hfails⟩ := hb
  rw [put_of_fails hmem hfails]
  intro hcov
  have hpresent := hcov b.key (Lru.Cache.mem_add_self _ _ _)
  simp only [stored] at hpresent hnone
  simp [hnone] at hpresent

/-- The key of a `Put` that returned `nil` is stored. -/
theorem stored_of_put_ok (hcov : Covered w.1 (stored M w))
    (hok : (put (flaky bs) b w).1 = .ok ()) : (stored M (put (flaky bs) b w).2 b.key).isSome := by
  by_cases hmem : b.key ∈ w.1
  · obtain ⟨c, s⟩ := w
    rw [put_of_mem hmem]
    exact hcov b.key hmem
  cases hfails : w.2.fails 0 with
  | true =>
    rw [put_of_fails hmem hfails] at hok
    cases hok
  | false =>
    rw [put_of_not_fails hmem hfails, stored, M.contents_put]
    exact Contents.isSome_put_self _ b

end Put

/-- `Has` leaves the store alone. -/
theorem stored_has (k : Key) : stored M (has (flaky bs) k w).2 = stored M w := by
  obtain ⟨c, s⟩ := w
  by_cases hmem : k ∈ c
  · rw [has_of_mem hmem]
    rfl
  · rw [has_of_notMem hmem]
    exact M.contents_has k s.store

/-- `Has` keeps the cache covered. -/
theorem covered_has (hcov : Covered w.1 (stored M w)) (k : Key) :
    Covered (has (flaky bs) k w).2.1 (stored M (has (flaky bs) k w).2) := by
  rw [stored_has]
  have hcache : (has (flaky bs) k w).2.1 = (w.1.get k).2 := by
    unfold has
    split <;> rfl
  rw [hcache]
  exact hcov.get k

/-- The key of a `Has` that returned `true` is stored. -/
theorem stored_of_has_true (hcov : Covered w.1 (stored M w)) {k : Key}
    (htrue : (has (flaky bs) k w).1 = .ok true) : (stored M (has (flaky bs) k w).2 k).isSome := by
  rw [stored_has]
  by_cases hmem : k ∈ w.1
  · exact hcov k hmem
  · obtain ⟨c, s⟩ := w
    rw [has_of_notMem hmem] at htrue
    exact Except.ok.inj ((M.has_reply k s.store).symm.trans htrue)

/-- `DeleteBlock` keeps the cache covered: if the store fails, the key has left
the cache all the same. -/
theorem covered_deleteBlock (hcov : Covered w.1 (stored M w)) (k : Key) :
    Covered (deleteBlock (flaky bs) k w).2.1 (stored M (deleteBlock (flaky bs) k w).2) := by
  simp only [deleteBlock, flaky, Flaky.attempt, stored]
  split
  · exact fun k' hk' => hcov k' (Lru.Cache.mem_remove.mp hk').1
  · rw [M.contents_deleteBlock]
    exact hcov.delete k

/-- One call keeps the cache covered unless it loses a new key. -/
theorem covered_callState (hcov : Covered w.1 (stored M w)) {call : Call}
    (hcall : ∀ b, call = .put b → ¬ LosesNew M w b) :
    Covered ((store (flaky bs)).callState w call).1
      (stored M ((store (flaky bs)).callState w call)) := by
  cases call with
  | put b => exact covered_put hcov (hcall b rfl)
  | has k => exact covered_has hcov k
  | get k =>
    change Covered w.1 (M.contents (bs.get k w.2.store).2)
    rw [M.contents_get]
    exact hcov
  | deleteBlock k => exact covered_deleteBlock hcov k
  | getChan ks =>
    change Covered w.1 (M.contents (bs.getChan ks w.2.store).2)
    rw [M.contents_getChan]
    exact hcov
  | allKeysChan => exact hcov

/-- A run that loses no new key keeps the cache covered. -/
theorem covered_after {calls : List Call} (hcov : Covered w.1 (stored M w))
    (hcalls : ∀ pre b, pre ++ [.put b] <+: calls →
      ¬ LosesNew M ((store (flaky bs)).after w pre) b)
    {pre : List Call} (hpre : pre <+: calls) :
    Covered ((store (flaky bs)).after w pre).1 (stored M ((store (flaky bs)).after w pre)) := by
  refine prefix_induction (fun pre => Covered ((store (flaky bs)).after w pre).1
    (stored M ((store (flaky bs)).after w pre))) hcov ?_ hpre
  intro hist call hhist ih
  rw [after_snoc]
  refine covered_callState ih ?_
  rintro b rfl
  exact hcalls hist b hhist

/-- A run that loses no new key vouches for stored keys only. -/
theorem vouchesStored_of_not_losesNew {calls : List Call} (hcov : Covered w.1 (stored M w))
    (hcalls : ∀ pre b, pre ++ [.put b] <+: calls →
      ¬ LosesNew M ((store (flaky bs)).after w pre) b) : VouchesStored M w calls where
  covered _ hpre := covered_after hcov hcalls hpre
  put_ok pre b hpre hok := by
    rw [after_snoc]
    exact stored_of_put_ok (covered_after hcov hcalls ((List.prefix_append _ _).trans hpre)) hok
  has_true pre k hpre htrue := by
    rw [after_snoc]
    exact stored_of_has_true (covered_after hcov hcalls ((List.prefix_append _ _).trans hpre))
      htrue

/-- **The write cache over a failing store.** For every positive size, any initial
contents and any pattern of failures, a run vouches for stored keys only if and
only if none of its `Put` calls has the store fail on a key that is neither cached
nor stored at that moment. -/
theorem vouchesStored_iff (M : FaithfulMap bs) {size : ℤ} (hsize : 1 ≤ size) (s : Flaky σ) :
    ∃ w, writeCached size s = some w ∧ ∀ calls : List Call,
      VouchesStored M w calls ↔ ∀ pre b, pre ++ [.put b] <+: calls →
        ¬ LosesNew M ((store (flaky bs)).after w pre) b := by
  obtain ⟨c, hc, hempty⟩ := exists_writeCached hsize s
  refine ⟨(c, s), hc, fun calls => ⟨fun hsound pre b hpre hloses => ?_, fun hcalls => ?_⟩⟩
  · have hcov := hsound.covered _ hpre
    rw [after_snoc] at hcov
    exact not_covered_put hloses hcov
  · exact vouchesStored_of_not_losesNew (covered_of_empty hempty) hcalls

/-- A failing `Put` of a stored key and a failing `DeleteBlock` do no harm. -/
theorem vouchesStored_failed_put_of_stored :
    ∃ w, writeCached 1 (⟨fun _ => some [2], fun _ => true⟩ : Flaky Contents) = some w ∧
      VouchesStored contentsStore.faithful w [.put ⟨[1], [2]⟩, .deleteBlock [1]] := by
  obtain ⟨w, hw, hiff⟩ := vouchesStored_iff contentsStore.faithful (le_refl 1)
    ⟨fun _ => some [2], fun _ => true⟩
  refine ⟨w, hw, (hiff _).mpr fun pre b hpre hloses => ?_⟩
  obtain ⟨c, -, rfl⟩ := Option.map_eq_some_iff.mp hw
  rcases pre with _ | ⟨call, _ | ⟨call', pre⟩⟩
  · cases hloses.2.1
  · simp at hpre
  · simp at hpre

/-- The first `Put` of a block fails and leaves its key in the cache. The second
returns `nil` without asking the store, and `Has` reports the block, which is not
stored. -/
theorem not_vouchesStored_failed_put :
    ∃ w, writeCached 1 (⟨fun _ => none, fun n => n = 0⟩ : Flaky Contents) = some w ∧
      ¬ VouchesStored contentsStore.faithful w [.put ⟨[1], [2]⟩, .put ⟨[1], [2]⟩] ∧
      (put (flaky contentsStore) ⟨[1], [2]⟩
        ((store (flaky contentsStore)).after w [.put ⟨[1], [2]⟩])).1 = .ok () ∧
      (has (flaky contentsStore) [1]
        ((store (flaky contentsStore)).after w [.put ⟨[1], [2]⟩, .put ⟨[1], [2]⟩])).1 = .ok true ∧
      stored contentsStore.faithful
        ((store (flaky contentsStore)).after w [.put ⟨[1], [2]⟩, .put ⟨[1], [2]⟩]) [1] = none := by
  refine ⟨_, rfl, ?_, rfl, rfl, rfl⟩
  intro hsound
  have h := hsound.put_ok [.put ⟨[1], [2]⟩] ⟨[1], [2]⟩ (List.prefix_refl _) rfl
  cases h

end WriteCache

end GoBlocks
