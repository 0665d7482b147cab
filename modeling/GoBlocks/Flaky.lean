import GoBlocks.Block

/-!
# Stores that fail at given calls

A sequence of flags says which of the coming updates of a store fail. An update that
fails returns an error and changes nothing. Both the blockstore below the write cache
and the datastore below the database-backed set are made to fail in this way.
-/

namespace GoBlocks

/-- The state of a store that fails at given calls. -/
structure Flaky (σ : Type) where
  /-- The state of the store. -/
  store : σ
  /-- Which of the coming updates fail. -/
  fails : ℕ → Bool

namespace Flaky

variable {σ : Type}

/-- The flags after the next update. -/
def rest (s : Flaky σ) : ℕ → Bool := fun n => s.fails (n + 1)

/-- A call that may fail: it does so without an effect. -/
def attempt (f : σ → Except Err Unit × σ) (s : Flaky σ) : Except Err Unit × Flaky σ :=
  if s.fails 0 then (.error .failure, ⟨s.store, s.rest⟩)
  else ((f s.store).1, ⟨(f s.store).2, s.rest⟩)

/-- A call that never fails. -/
def lift {ρ : Type} (f : σ → ρ × σ) (s : Flaky σ) : ρ × Flaky σ :=
  ((f s.store).1, { s with store := (f s.store).2 })

/-- A call that may fail leaves the store unchanged if it fails, provided that the call
itself does. -/
theorem store_attempt {f : σ → Except Err Unit × σ} {s : Flaky σ} {err : Err}
    (hf : ∀ u e, (f u).1 = .error e → (f u).2 = u) (h : (attempt f s).1 = .error err) :
    (attempt f s).2.store = s.store := by
  unfold attempt at h ⊢
  split
  next => rfl
  next hgood =>
    rw [if_neg hgood] at h
    exact hf s.store err h

end Flaky

end GoBlocks
