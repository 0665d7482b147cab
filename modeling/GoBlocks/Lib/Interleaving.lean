import GoBlocks.Lib.Transition
import Mathlib.Logic.Function.Basic

/-!
# Interleaved threads

Threads that share a state and take turns: every thread has a local state, and an
atomic action of a thread changes the shared state and the thread's own local
state. The threads run the same program, in any order, and there are as many of
them as the index type has elements.
-/

namespace GoBlocks

/-- A shared state with the local states of the threads. -/
structure Threads (ι G P : Type*) where
  /-- The shared state. -/
  shared : G
  /-- The local state of each thread. -/
  loc : ι → P

namespace Threads

variable {ι G P L : Type*} [DecidableEq ι]

/-- Store the outcome of an action of one thread. -/
def set (s : Threads ι G P) (i : ι) (r : G × P) : Threads ι G P :=
  ⟨r.1, Function.update s.loc i r.2⟩

/-- The state that the step leaves. -/
@[simp] theorem set_shared (s : Threads ι G P) (i : ι) (r : G × P) :
    (s.set i r).shared = r.1 := rfl

/-- The thread that took the step. -/
@[simp] theorem set_loc_self (s : Threads ι G P) (i : ι) (r : G × P) :
    (s.set i r).loc i = r.2 := Function.update_self ..

/-- The other threads stay where they are. -/
@[simp] theorem set_loc_of_ne (s : Threads ι G P) {i j : ι} (h : j ≠ i) (r : G × P) :
    (s.set i r).loc j = s.loc j := Function.update_of_ne h ..

/-- A later outcome of the same thread replaces an earlier one. -/
theorem set_set (s : Threads ι G P) (i : ι) (r r' : G × P) :
    (s.set i r).set i r' = s.set i r' := by
  simp [set]

/-- Storing what is there already changes nothing. -/
theorem set_self (s : Threads ι G P) (i : ι) : s.set i (s.shared, s.loc i) = s := by
  simp [set]

/-- An action of one thread, in the program `f` of all of them. -/
def next (f : G → P → L → Option (G × P)) (s : Threads ι G P) (l : ι × L) :
    Option (Threads ι G P) :=
  (f s.shared (s.loc l.1) l.2).map (s.set l.1)

/-- All interleavings of the threads. -/
def lts (f : G → P → L → Option (G × P)) : LTS (Threads ι G P) (ι × L) := .ofFun (next f)

variable {f : G → P → L → Option (G × P)}

/-- A step is an action of one thread. -/
theorem step_iff {s t : Threads ι G P} {i : ι} {l : L} :
    (lts f).step s (i, l) t ↔ ∃ r, f s.shared (s.loc i) l = some r ∧ s.set i r = t := by
  simp only [lts, LTS.ofFun, next, Option.map_eq_some_iff]

/-- A property of local states holds of some thread after an action if it holds of
the outcome, or held of another thread before. -/
theorem exists_loc_set {s : Threads ι G P} {i : ι} {r : G × P} {Q : P → Prop}
    (h : Q r.2 ∨ ∃ j, j ≠ i ∧ Q (s.loc j)) : ∃ j, Q ((s.set i r).loc j) := by
  rcases h with h | ⟨j, hne, h⟩
  · exact ⟨i, by rwa [set_loc_self]⟩
  · exact ⟨j, by rwa [set_loc_of_ne _ hne]⟩

/-- The actions of one thread in a run. -/
def own (i : ι) (ls : List (ι × L)) : List L :=
  ls.filterMap fun l => if l.1 = i then some l.2 else none

/-- An action is among a thread's own if the thread takes it in the run. -/
theorem mem_own {i : ι} {ls : List (ι × L)} {a : L} : a ∈ own i ls ↔ (i, a) ∈ ls := by
  simp only [own, List.mem_filterMap, Option.ite_none_right_eq_some, Option.some.injEq]
  constructor
  · rintro ⟨⟨_, _⟩, hmem, rfl, rfl⟩
    exact hmem
  · intro hmem
    exact ⟨(i, a), hmem, rfl, rfl⟩

/-- If the local states follow a control of their own, then so does each thread
along a run. -/
theorem exec_own {nxt : P → L → Option P}
    (hnxt : ∀ g p l r, f g p l = some r → nxt p l = some r.2) {s t : Threads ι G P}
    {ls : List (ι × L)} (h : (lts f).Run s ls t) (i : ι) :
    LTS.exec nxt (s.loc i) (own i ls) = some (t.loc i) := by
  rw [← LTS.run_ofFun_iff]
  refine h.project (fun s => s.loc i) (fun l => if l.1 = i then some l.2 else none) ?_ ?_
  · rintro v ⟨j, a⟩ w m hstep hm
    simp only [Option.ite_none_right_eq_some, Option.some.injEq] at hm
    obtain ⟨rfl, rfl⟩ := hm
    obtain ⟨r, hr, rfl⟩ := step_iff.mp hstep
    rw [set_loc_self]
    exact hnxt _ _ _ r hr
  · rintro v ⟨j, a⟩ w hstep hm
    obtain ⟨r, -, rfl⟩ := step_iff.mp hstep
    have hne : i ≠ j := by
      rintro rfl
      simp at hm
    exact set_loc_of_ne v hne r

/-- What one thread does alone, from its own local state. -/
theorem run_solo {s : Threads ι G P} {i : ι} {ls : List L} {r : G × P}
    (h : LTS.exec (fun r l => f r.1 r.2 l) (s.shared, s.loc i) ls = some r) :
    (lts f).Run s (ls.map fun l => (i, l)) (s.set i r) := by
  induction ls generalizing s with
  | nil =>
    cases Option.some.inj h
    rw [set_self]
    exact .nil s
  | cons l ls ih =>
    simp only [LTS.exec, Option.bind_eq_some_iff] at h
    obtain ⟨r₁, hr₁, hrest⟩ := h
    refine .cons (step_iff.mpr ⟨r₁, hr₁, rfl⟩) ?_
    rw [← set_set s i r₁ r]
    exact ih (by simpa using hrest)

end Threads

end GoBlocks
