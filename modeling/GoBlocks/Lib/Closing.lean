import GoBlocks.Lib.Transition
import Mathlib.Logic.Function.Basic

/-!
# Callers of `Close`

A system that can be closed has a step that begins to close it and tells when it is
closed. Any number of callers may call `Close` on it: a call begins to close the
system, waits until the system is closed, and returns. A caller that finds the system
closing already waits like the others.
-/

namespace GoBlocks

/-- Where a caller of `Close` stands. -/
inductive Closer where
  | idle
  /-- About to begin to close the system. -/
  | called
  /-- Waiting until the system is closed. -/
  | waiting
  /-- The last call returned. -/
  | returned
  deriving DecidableEq

/-- No call is in progress. -/
def Closer.Resting : Closer → Bool
  | .idle | .returned => true
  | _ => false

/-- The steps of a system and of the callers of `Close`. -/
inductive Closing (κ L : Type*) where
  /-- The system takes a step of its own. -/
  | own (l : L)
  /-- `Close` is called. -/
  | call (j : κ)
  /-- A call begins to close the system. -/
  | begins (j : κ)
  /-- A call finds the system closed and returns. -/
  | returns (j : κ)

namespace Closing

variable {κ S L : Type*} [DecidableEq κ] (f : S → L → Option S) (close : L) (closed : S → Bool)

/-- One step of the system or of a caller. -/
def next (s : S × (κ → Closer)) : Closing κ L → Option (S × (κ → Closer))
  | .own l => (f s.1 l).map fun t => (t, s.2)
  | .call j => if (s.2 j).Resting then some (s.1, Function.update s.2 j .called) else none
  | .begins j =>
    if s.2 j = .called then (f s.1 close).map fun t => (t, Function.update s.2 j .waiting)
    else none
  | .returns j =>
    if s.2 j = .waiting ∧ closed s.1 then some (s.1, Function.update s.2 j .returned) else none

/-- The system with the callers of `Close`. -/
def lts (κ : Type*) [DecidableEq κ] : LTS (S × (κ → Closer)) (Closing κ L) :=
  .ofFun (next f close closed)

variable {f close closed} {s t : S × (κ → Closer)} {l : Closing κ L} {ls : List (Closing κ L)}

/-- A step is a step of the system, unless it leaves the system alone. -/
theorem next_cases (h : (lts f close closed κ).step s l t) :
    (∃ l', f s.1 l' = some t.1) ∨ t.1 = s.1 := by
  cases l with
  | own l =>
    obtain ⟨s', hs', rfl⟩ := Option.map_eq_some_iff.mp h
    exact .inl ⟨l, hs'⟩
  | call j =>
    obtain ⟨-, ht⟩ := Option.ite_none_right_eq_some.mp h
    cases ht
    exact .inr rfl
  | begins j =>
    obtain ⟨-, ht⟩ := Option.ite_none_right_eq_some.mp h
    obtain ⟨s', hs', rfl⟩ := Option.map_eq_some_iff.mp ht
    exact .inl ⟨close, hs'⟩
  | returns j =>
    obtain ⟨-, ht⟩ := Option.ite_none_right_eq_some.mp h
    cases ht
    exact .inr rfl

/-- An invariant of the system holds with callers of `Close`. -/
theorem run_invariant (I : S → Prop) (hstep : ∀ s l t, f s l = some t → I s → I t)
    (h : (lts f close closed κ).Run s ls t) (hs : I s.1) : I t.1 := by
  refine h.invariant (fun s => I s.1) ?_ hs
  intro v l w hv hvw
  rcases next_cases hvw with ⟨l', hl'⟩ | heq
  · exact hstep _ _ _ hl' hv
  · rwa [heq]

/-- Once a call has returned, a system that stays closed is closed. -/
theorem closed_of_returns (hstable : ∀ s l t, f s l = some t → closed s → closed t)
    (h : (lts f close closed κ).Run s ls t) {j : κ} (hj : .returns j ∈ ls) : closed t.1 := by
  obtain ⟨pre, post, rfl⟩ := List.append_of_mem hj
  obtain ⟨v, -, hpost⟩ := LTS.run_append_iff.mp h
  cases hpost with
  | cons hstep hrest =>
    obtain ⟨⟨-, hclosed⟩, hw⟩ := Option.ite_none_right_eq_some.mp hstep
    cases hw
    exact run_invariant (fun s => closed s) hstable hrest hclosed

/-- What a step after a returned call brings about stays, if the steps of a closed
system keep it. -/
theorem late_invariant {pre post : List (Closing κ L)} {l : L} {j : κ} {I K : S → Prop}
    (h : (lts f close closed κ).Run s (pre ++ .own l :: post) t) (hj : .returns j ∈ pre)
    (hs : I s.1) (hI : ∀ s l t, f s l = some t → I s → I t)
    (hstable : ∀ s l t, f s l = some t → closed s → closed t)
    (hK : ∀ s l t, f s l = some t → I s → closed s → K s → K t)
    (hl : ∀ s t, f s l = some t → K t) : K t.1 := by
  obtain ⟨v, hpre, hrest⟩ := LTS.run_append_iff.mp h
  have hv : I v.1 := run_invariant I hI hpre hs
  have hclosed : closed v.1 := closed_of_returns hstable hpre hj
  cases hrest with
  | cons hstart hpost =>
    obtain ⟨u, hu, rfl⟩ := Option.map_eq_some_iff.mp hstart
    refine (run_invariant (fun s => I s ∧ closed s ∧ K s) ?_ hpost
      ⟨hI _ _ _ hu hv, hstable _ _ _ hu hclosed, hl _ _ hu⟩).2.2
    rintro s l t hstep ⟨hs, hsclosed, hsK⟩
    exact ⟨hI _ _ _ hstep hs, hstable _ _ _ hstep hsclosed, hK _ _ _ hstep hs hsclosed hsK⟩

end Closing

end GoBlocks
