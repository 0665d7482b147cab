import Mathlib.Data.List.Induction

/-!
# Labelled transition systems and their runs

A system is a step relation between states with labels, and a run is a finite
list of labels that leads from one state to another. Invariants, invariants over
the history of a run, and simulations are proved once for a single step and
extended here to every run. A system whose steps are computed by a partial
function also has an executable runner.
-/

namespace GoBlocks

/-- What holds of the empty history and is kept by every step of a run holds of
every prefix of the run. -/
theorem prefix_induction {L : Type*} {ls pre : List L} (J : List L → Prop) (hnil : J [])
    (hsnoc : ∀ hist l, hist ++ [l] <+: ls → J hist → J (hist ++ [l])) (h : pre <+: ls) :
    J pre := by
  induction pre using List.reverseRecOn with
  | nil => exact hnil
  | append_singleton hist l ih => exact hsnoc hist l h (ih ((List.prefix_append _ _).trans h))

/-- A labelled transition system with states `S` and labels `L`. -/
structure LTS (S L : Type*) where
  /-- `step s l t`: the system can move from `s` to `t` performing `l`. -/
  step : S → L → S → Prop

namespace LTS

variable {S T L : Type*}

/-- Performing the labels in order leads from one state to another. -/
inductive Run (A : LTS S L) : S → List L → S → Prop
  | nil (s : S) : Run A s [] s
  | cons {s t u : S} {l : L} {ls : List L} : A.step s l t → Run A t ls u → Run A s (l :: ls) u

/-- The part of a system whose steps meet a condition on their first state and
their label. -/
def restrict (A : LTS S L) (G : S → L → Prop) : LTS S L where
  step s l t := A.step s l t ∧ G s l

/-- The system whose steps are computed by a partial function. -/
def ofFun (f : S → L → Option S) : LTS S L where
  step s l t := f s l = some t

variable {A : LTS S L}

/-- A run of two lists of labels passes through an intermediate state. -/
theorem run_append_iff {s u : S} {l₁ l₂ : List L} :
    A.Run s (l₁ ++ l₂) u ↔ ∃ t, A.Run s l₁ t ∧ A.Run t l₂ u := by
  induction l₁ generalizing s with
  | nil =>
    constructor
    · intro h
      exact ⟨s, .nil s, h⟩
    · rintro ⟨t, ht, hu⟩
      cases ht
      exact hu
  | cons l l₁ ih =>
    constructor
    · intro h
      cases h with
      | cons hs hr =>
        obtain ⟨t, ht, hu⟩ := ih.mp hr
        exact ⟨t, .cons hs ht, hu⟩
    · rintro ⟨t, ht, hu⟩
      cases ht with
      | cons hs hr => exact .cons hs (ih.mpr ⟨t, hr, hu⟩)

/-- A run of a single label is a step. -/
theorem run_singleton_iff {s t : S} {l : L} : A.Run s [l] t ↔ A.step s l t := by
  constructor
  · intro h
    cases h with
    | cons hs hr =>
      cases hr
      exact hs
  · intro h
    exact .cons h (.nil t)

/-- A run can be extended by one step at its end. -/
theorem Run.snoc {s t u : S} {l : L} {ls : List L} (h : A.Run s ls t) (hstep : A.step t l u) :
    A.Run s (ls ++ [l]) u :=
  run_append_iff.mpr ⟨t, h, run_singleton_iff.mpr hstep⟩

/-- The last step of a nonempty run. -/
theorem run_snoc_iff {s u : S} {l : L} {ls : List L} :
    A.Run s (ls ++ [l]) u ↔ ∃ t, A.Run s ls t ∧ A.step t l u := by
  simp only [run_append_iff, run_singleton_iff]

/-- A property of the history and the state that holds at the start and is kept
by every step holds along every run. -/
theorem Run.history_induction {s t : S} {ls : List L} (J : List L → S → Prop) (hinit : J [] s)
    (hstep : ∀ hist v l w, A.Run s hist v → J hist v → A.step v l w → J (hist ++ [l]) w)
    (h : A.Run s ls t) : J ls t := by
  induction ls using List.reverseRecOn generalizing t with
  | nil =>
    cases h
    exact hinit
  | append_singleton ls l ih =>
    obtain ⟨v, hv, hl⟩ := run_snoc_iff.mp h
    exact hstep ls v l t hv (ih hv) hl

/-- An invariant kept by every step is kept by every run. -/
theorem Run.invariant {s t : S} {ls : List L} (I : S → Prop)
    (hstep : ∀ v l w, I v → A.step v l w → I w) (h : A.Run s ls t) (hinit : I s) : I t :=
  h.history_induction (fun _ => I) hinit fun _ v l w _ hv hw => hstep v l w hv hw

/-- A run of the restricted system is a run of the whole system. -/
theorem Run.of_restrict {G : S → L → Prop} {s t : S} {ls : List L}
    (h : (A.restrict G).Run s ls t) : A.Run s ls t := by
  induction h with
  | nil s => exact .nil s
  | cons hs _ ih => exact .cons hs.1 ih

/-- `R` is a simulation of `A` by `B`: related states match each other's steps
from left to right with the same labels. -/
def Simulates (A : LTS S L) (B : LTS T L) (R : S → T → Prop) : Prop :=
  ∀ s t l s', R s t → A.step s l s' → ∃ t', B.step t l t' ∧ R s' t'

/-- A simulation carries whole runs over. -/
theorem Simulates.run {B : LTS T L} {R : S → T → Prop} (h : Simulates A B R) {s s' : S} {t : T}
    {ls : List L} (hR : R s t) (hrun : A.Run s ls s') : ∃ t', B.Run t ls t' ∧ R s' t' := by
  induction hrun generalizing t with
  | nil s => exact ⟨t, .nil t, hR⟩
  | cons hs _ ih =>
    obtain ⟨t₁, ht₁, hR₁⟩ := h _ _ _ _ hR hs
    obtain ⟨t', ht', hR'⟩ := ih hR₁
    exact ⟨t', .cons ht₁ ht', hR'⟩

/-- A weak simulation carries whole runs over: the other system matches the steps at
some of the labels and rests at the others. -/
theorem Run.weakSimulate {M : Type*} {B : LTS T M} {s s' : S} {t : T} {ls : List L}
    (h : A.Run s ls s') (R : S → T → Prop) (own : L → Option M)
    (hown : ∀ v l w m u, R v u → A.step v l w → own l = some m → ∃ u', B.step u m u' ∧ R w u')
    (hrest : ∀ v l w u, R v u → A.step v l w → own l = none → R w u) (hR : R s t) :
    ∃ t', B.Run t (ls.filterMap own) t' ∧ R s' t' := by
  induction h generalizing t with
  | nil s => exact ⟨t, .nil t, hR⟩
  | @cons v w _ l ls hs _ ih =>
    cases hl : own l with
    | none =>
      rw [List.filterMap_cons_none hl]
      exact ih (hrest v l w t hR hs hl)
    | some m =>
      obtain ⟨u, hu, hRu⟩ := hown v l w m t hR hs hl
      obtain ⟨t', ht', hR'⟩ := ih hRu
      rw [List.filterMap_cons_some hl]
      exact ⟨t', .cons hu ht', hR'⟩

/-- A part of a system takes a step of its own at some of the labels and rests at
the others. A run of the system is then a run of the part. -/
theorem Run.project {M : Type*} {B : LTS T M} {s t : S} {ls : List L} (part : S → T)
    (own : L → Option M)
    (hown : ∀ v l w m, A.step v l w → own l = some m → B.step (part v) m (part w))
    (hrest : ∀ v l w, A.step v l w → own l = none → part w = part v) (h : A.Run s ls t) :
    B.Run (part s) (ls.filterMap own) (part t) := by
  obtain ⟨t', ht', rfl⟩ := h.weakSimulate (fun v u => part v = u) own
    (fun v l w m u hu hstep hl => ⟨part w, hu ▸ hown v l w m hstep hl, rfl⟩)
    (fun v l w u hu hstep hl => (hrest v l w hstep hl).trans hu) rfl
  exact ht'

/-- The executable runner of a computed system. -/
def exec (f : S → L → Option S) : S → List L → Option S
  | s, [] => some s
  | s, l :: ls => (f s l).bind fun t => exec f t ls

/-- The runner finds exactly the runs of the computed system. -/
theorem run_ofFun_iff {f : S → L → Option S} {s t : S} {ls : List L} :
    (ofFun f).Run s ls t ↔ exec f s ls = some t := by
  induction ls generalizing s with
  | nil =>
    constructor
    · intro h
      cases h
      rfl
    · intro h
      cases Option.some.inj h
      exact .nil _
  | cons l ls ih =>
    simp only [exec, Option.bind_eq_some_iff]
    constructor
    · intro h
      cases h with
      | cons hs hr => exact ⟨_, hs, ih.mp hr⟩
    · rintro ⟨v, hv, hr⟩
      exact .cons hv (ih.mpr hr)

/-- What the steps of a run of a computed system put out, in order. -/
def outputs {O : Type*} (f : S → L → Option S) (out : S → L → Option O) : S → List L → List O
  | _, [] => []
  | s, l :: ls => (out s l).toList ++ ((f s l).map fun t => outputs f out t ls).getD []

/-- The last step of a run puts out what it does in the state it starts from. -/
theorem outputs_snoc {O : Type*} {f : S → L → Option S} (out : S → L → Option O) {s v : S}
    {hist : List L} (h : (ofFun f).Run s hist v) (l : L) :
    outputs f out s (hist ++ [l]) = outputs f out s hist ++ (out v l).toList := by
  induction h with
  | nil s => cases hf : f s l <;> simp [outputs, hf]
  | @cons s t _ l' _ hs _ ih =>
    have hs : f s l' = some t := hs
    simp [outputs, hs, ih]

end LTS

end GoBlocks
