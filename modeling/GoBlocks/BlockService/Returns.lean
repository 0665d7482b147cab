import GoBlocks.BlockService.Delivered
import GoBlocks.Lib.Progress

/-!
# A retrieval returns

The goroutines of a call of `GetBlocks` look every key up at most twice, so a call has a
bounded number of steps, whatever the other clients of the blockstore do meanwhile. They
come to rest in one of two ways. Both have returned and the output channel is closed, or
the context is not done and the consumer does not receive the block that it is offered.
-/

namespace GoBlocks.BlockService

open Blockstore

/-- The steps that are left in the goroutine of the exchange, with those in which its
blocks are passed on. -/
def Remote.work : Remote → ℕ
  | .looping rest => 4 * rest.length + 1
  | .missed rest => 4 * rest.length + 2
  | .sending _ rest => 4 * rest.length + 4
  | .closed => 0

/-- The steps that are left in a call. A miss is looked up twice. -/
def Fetch.work : Fetch → ℕ
  | .looping rest misses => 5 * rest.length + 4 * misses.length + 3
  | .sending _ rest misses => 5 * rest.length + 4 * misses.length + 4
  | .ranging remote => remote.work + 1
  | .forwarding _ remote => remote.work + 2
  | .aborted (some remote) => remote.work
  | .aborted none | .finished => 0

/-- Both goroutines have returned. -/
def Fetch.Returned : Fetch → Bool
  | .finished | .aborted none | .aborted (some .closed) => true
  | _ => false

/-- The output channel is closed when the goroutines have returned. -/
theorem Fetch.closed_of_returned {f : Fetch} (h : f.Returned) : f.Closed := by
  cases f with
  | aborted | finished => rfl
  | _ => cases h

/-- A step of the goroutine of the exchange leaves it less to do. -/
theorem Remote.work_lt {env : HashEnv} {d : Ds.KeyMap} {c : Bool} {ev : RemoteEvent}
    {r r' : Remote} (h : Remote.next env d c ev r = some r') : r'.work < r.work := by
  unfold Remote.next at h
  split at h
  · split at h <;>
    · cases h
      simp only [work, List.length_cons]
      omega
  · obtain ⟨-, hr'⟩ := Option.ite_none_left_eq_some.mp h
    cases hr'
    simp [work]
  · obtain ⟨-, hr'⟩ := Option.ite_none_right_eq_some.mp h
    cases hr'
    simp [work]
  · obtain ⟨-, hr'⟩ := Option.ite_none_right_eq_some.mp h
    cases hr'
    simp [work]
  · cases h
    simp [work]
  · cases h

/-- A goroutine of the exchange that has not returned can go on, unless it waits for its
block to be received. -/
theorem Remote.exists_next (env : HashEnv) (d : Ds.KeyMap) (c : Bool) (r : Remote) :
    r = .closed ∨ (c = false ∧ ∃ hit rest, r = .sending hit rest) ∨
      ∃ ev r', Remote.next env d c ev r = some r' := by
  cases r with
  | looping rest =>
    right; right
    cases rest with
    | nil => exact ⟨.finish, .closed, rfl⟩
    | cons k rest =>
      cases hget : ((mapStore env).get k d).1 with
      | ok hit => exact ⟨.get, .sending hit rest, by simp [Remote.next, hget]⟩
      | error err => exact ⟨.get, .missed rest, by simp [Remote.next, hget]⟩
  | missed rest =>
    right; right
    cases c with
    | false => exact ⟨.proceed, .looping rest, rfl⟩
    | true => exact ⟨.abort, .closed, rfl⟩
  | sending hit rest =>
    right
    cases c with
    | false => exact .inl ⟨rfl, hit, rest, rfl⟩
    | true => exact .inr ⟨.abort, .closed, rfl⟩
  | closed => exact .inl rfl

namespace FetchSystem

variable {κ : Type} [DecidableEq κ] {env : HashEnv} {s t : FetchSystem κ} {l : FetchLabel κ}

/-- A step of the call leaves it less to do, and the other steps leave it alone. -/
theorem work_step (h : (lts env κ).step s l t) : t.fetch.work + l.Own.toNat ≤ s.fetch.work := by
  cases step_of_next h with
  | hit hfetch | miss hfetch | deliver hfetch | forward hfetch | ask hfetch | pass hfetch
  | finish hfetch =>
    simp only [hfetch, Fetch.work, Remote.work, FetchLabel.Own, Bool.toNat_true, List.length_cons,
      List.length_append, List.length_nil]
    omega
  | abort =>
    simp only [lts, LTS.ofFun, next] at h
    split at h
    next hfetch _ =>
      cases h
      simp [hfetch, Fetch.work, FetchLabel.Own]
    next hfetch _ =>
      cases h
      simp [hfetch, Fetch.work, FetchLabel.Own]
    next => cases h
  | remote hfetch =>
    generalize s.fetch = f at hfetch
    cases Fetch.onRemote_spec hfetch with
    | ranging hr | forwarding hr | aborted hr =>
      have hlt := Remote.work_lt hr
      simp only [Fetch.work, FetchLabel.Own, Bool.toNat_true]
      omega
  | cancel | client => exact le_rfl

/-- The goroutines of the call can take no step by themselves. -/
def AtRest (env : HashEnv) (s : FetchSystem κ) : Prop :=
  ∀ l, l.Own → l ≠ .deliver → next env s l = none

/-- A step of the goroutine of the exchange is a step of the call. -/
theorem AtRest.onRemote_eq_none (hs : AtRest env s) (ev : RemoteEvent) :
    s.fetch.onRemote (Remote.next env s.store s.cancelled ev) = none :=
  Option.map_eq_none_iff.mp (hs (.remote ev) rfl (by simp))

/-- At rest, the goroutine of the exchange has returned or waits for its block to be
received. -/
theorem AtRest.remote {r : Remote} (hs : AtRest env s)
    (hr : ∀ f, s.fetch.onRemote f = none → f r = none) :
    r = .closed ∨ (s.cancelled = false ∧ ∃ hit rest, r = .sending hit rest) := by
  rcases Remote.exists_next env s.store s.cancelled r with h | h | ⟨ev, r', hev⟩
  · exact .inl h
  · exact .inr h
  · have hnone := hr _ (hs.onRemote_eq_none ev)
    rw [hev] at hnone
    cases hnone

/-- A call at rest has returned, or it offers a block and the context is not done. -/
theorem AtRest.returned_or (hs : AtRest env s)
    (haborted : s.cancelled = false → ∀ remote, s.fetch ≠ .aborted remote) :
    s.fetch.Returned ∨ (s.cancelled = false ∧ ∃ t, next env s .deliver = some t) := by
  cases hfetch : s.fetch with
  | looping rest misses =>
    exfalso
    cases rest with
    | nil =>
      have hnone := hs .ask rfl (by simp)
      simp [next, hfetch] at hnone
    | cons k rest =>
      have hnone := hs .get rfl (by simp)
      simp only [next, hfetch] at hnone
      split at hnone <;> cases hnone
  | sending hit rest misses =>
    right
    cases hcancelled : s.cancelled with
    | false => exact ⟨rfl, _, by simp only [next, hfetch]; rfl⟩
    | true =>
      have hnone := hs .abort rfl (by simp)
      simp [next, hfetch, hcancelled] at hnone
  | ranging r =>
    exfalso
    rcases hs.remote (r := r) (by simp [hfetch, Fetch.onRemote]) with rfl | ⟨-, hit, rest, rfl⟩
    · have hnone := hs .finish rfl (by simp)
      simp [next, hfetch] at hnone
    · have hnone := hs .pass rfl (by simp)
      simp [next, hfetch] at hnone
  | forwarding b r =>
    right
    cases hcancelled : s.cancelled with
    | false => exact ⟨rfl, _, by simp only [next, hfetch]; rfl⟩
    | true =>
      have hnone := hs .abort rfl (by simp)
      simp [next, hfetch, hcancelled] at hnone
  | aborted remote =>
    left
    cases remote with
    | none => rfl
    | some r =>
      rcases hs.remote (r := r) (by simp [hfetch, Fetch.onRemote]) with rfl | ⟨hcancelled, -⟩
      · rfl
      · exact absurd hfetch (haborted hcancelled _)
  | finished => exact .inl rfl

end FetchSystem

open FetchSystem

/-- **`GetBlocks` returns.** Take any run of a call of `GetBlocks` for a list of keys in
offline mode, among other clients of the blockstore, with any contents and with a context
that may be cancelled at any time. The call takes at most five steps for each key and three
more. If its goroutines can go no further by themselves, then both have returned and the
output channel is closed, or the context is not done and the consumer can receive a block.
So no goroutine is left behind by a consumer that receives until the channel is closed or
cancels the context. -/
theorem getBlocks_returns (env : HashEnv) (κ : Type) [DecidableEq κ] (d : Ds.KeyMap)
    (ks : List Key) (client : κ → Clients.Pc) (ls : List (FetchLabel κ)) (s : FetchSystem κ)
    (hrun : (lts env κ).Run (start d ks client) ls s) :
    ls.countP FetchLabel.Own ≤ 5 * ks.length + 3 ∧
    (AtRest env s → (s.fetch.Returned ∧ s.fetch.Closed) ∨
      (s.cancelled = false ∧ ∃ t, next env s .deliver = some t)) := by
  constructor
  · have hle := hrun.countP_add_le (μ := fun s => s.fetch.work) fun _ _ _ h => work_step h
    simp only [start, Fetch.work, List.length_nil] at hle
    omega
  · intro hrest
    have haborted : s.cancelled = false → ∀ remote, s.fetch ≠ .aborted remote :=
      hrun.invariant (fun s => s.cancelled = false → ∀ remote, s.fetch ≠ .aborted remote)
        (fun _ _ _ hs hstep => aborted_step hstep hs) (by simp [start])
    rcases hrest.returned_or haborted with hreturned | hoffers
    · exact .inl ⟨hreturned, Fetch.closed_of_returned hreturned⟩
    · exact .inr hoffers

/-- A call whose context is cancelled while the consumer does not receive returns. -/
theorem getBlocks_returns_cancelled :
    ∃ s, (lts ⟨id, false⟩ Unit).Run (start singleton [[1], [3]] fun _ => .idle)
      [.get, .cancel, .abort] s ∧ s.fetch.Returned ∧ s.delivered = [] := by
  refine ⟨_, LTS.run_ofFun_iff.mpr rfl, ?_, rfl⟩
  have h := (getBlocks_returns ⟨id, false⟩ Unit singleton [[1], [3]] (fun _ => .idle)
    [.get, .cancel, .abort] _ (LTS.run_ofFun_iff.mpr rfl)).2 ?_
  · exact (h.resolve_right fun hoffers => by cases hoffers.1).1
  · intro l hown hl
    cases l with
    | deliver => exact absurd rfl hl
    | cancel | client => cases hown
    | _ => rfl

end GoBlocks.BlockService
