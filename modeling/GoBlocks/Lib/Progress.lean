import GoBlocks.Lib.Transition
import Mathlib.Algebra.Order.Ring.Nat
import Mathlib.Data.Fintype.Card
import Mathlib.Data.Set.Finite.Basic
import Mathlib.Logic.Relation
import Mathlib.Order.WellFounded

/-!
# Progress

Steps that decrease a measure come to an end, in a state in which none of them is
possible. In a finite set each of whose elements is related to another one of the set, a
chain runs into a circle. Locks that are taken in their order are not waited for in a
circle.
-/

namespace GoBlocks

namespace LTS

variable {S L : Type*} {A : LTS S L}

/-- No step with one of the labels is possible. -/
def Quiet (A : LTS S L) (P : L → Prop) (s : S) : Prop := ∀ l t, P l → ¬ A.step s l t

variable {P : L → Prop} {I : S → Prop} {μ : S → ℕ}

/-- Each step takes at least one from the measure. -/
theorem Run.length_add_le (hstep : ∀ s l t, I s → P l → A.step s l t → I t ∧ μ t < μ s) {s t : S}
    {ls : List L} (h : A.Run s ls t) (hP : ∀ l ∈ ls, P l) (hs : I s) : ls.length + μ t ≤ μ s := by
  induction h with
  | nil s => simp
  | @cons v w _ l ls hvw _ ih =>
    obtain ⟨hw, hlt⟩ := hstep v l w hs (hP l List.mem_cons_self) hvw
    have hrest := ih (fun l' hl' => hP l' (List.mem_cons_of_mem _ hl')) hw
    rw [List.length_cons]
    omega

/-- Of some labels, each takes at least one from the measure. Others add to it. -/
theorem Run.countP_add_le_sum {p : L → Bool} {cost : L → ℕ}
    (hstep : ∀ s l t, I s → A.step s l t → I t ∧ μ t + (p l).toNat ≤ μ s + cost l) {s t : S}
    {ls : List L} (h : A.Run s ls t) (hs : I s) :
    ls.countP p + μ t ≤ μ s + (ls.map cost).sum := by
  induction h with
  | nil s => simp
  | @cons v w _ l ls hvw _ ih =>
    obtain ⟨hw, hle⟩ := hstep v l w hs hvw
    have hrest := ih hw
    rw [List.map_cons, List.sum_cons]
    cases hl : p l with
    | false =>
      rw [List.countP_cons_of_neg (by simp [hl])]
      omega
    | true =>
      rw [hl, Bool.toNat_true] at hle
      rw [List.countP_cons_of_pos hl]
      omega

/-- Of some labels, each takes at least one from the measure, and the others add nothing. -/
theorem Run.countP_add_le {p : L → Bool}
    (hstep : ∀ s l t, A.step s l t → μ t + (p l).toNat ≤ μ s) {s t : S} {ls : List L}
    (h : A.Run s ls t) : ls.countP p + μ t ≤ μ s := by
  have hle : ls.countP p + μ t ≤ μ s + (ls.map fun _ => 0).sum :=
    h.countP_add_le_sum (I := fun _ => True) (fun s l t _ hl => ⟨trivial, hstep s l t hl⟩) trivial
  simpa using hle

/-- Steps that decrease a measure lead to a state in which none is possible. -/
theorem exists_quiet (hstep : ∀ s l t, I s → P l → A.step s l t → I t ∧ μ t < μ s) {s : S}
    (hs : I s) : ∃ ls t, (∀ l ∈ ls, P l) ∧ A.Run s ls t ∧ A.Quiet P t := by
  induction hn : μ s using Nat.strong_induction_on generalizing s with
  | _ n ih =>
    by_cases hquiet : A.Quiet P s
    · exact ⟨[], s, by simp, .nil s, hquiet⟩
    · simp only [Quiet, not_forall, not_not] at hquiet
      obtain ⟨l, t, hl, ht⟩ := hquiet
      obtain ⟨hIt, hlt⟩ := hstep s l t hs hl ht
      obtain ⟨ls, u, hls, hrun, hu⟩ := ih (μ t) (hn ▸ hlt) hIt rfl
      exact ⟨l :: ls, u, List.forall_mem_cons.mpr ⟨hl, hls⟩, .cons ht hrun, hu⟩

end LTS

/-- A chain through a finite set runs into a circle, unless it ends. -/
theorem exists_circle {α : Type*} {r : α → α → Prop} {S : Set α} (hfin : S.Finite)
    {E : α → Prop} (hstep : ∀ a ∈ S, E a ∨ ∃ b ∈ S, r a b) {a : α} (ha : a ∈ S) :
    ∃ b, Relation.ReflTransGen r a b ∧ (E b ∨ Relation.TransGen r b b) := by
  by_contra hno
  simp only [not_exists, not_and, not_or] at hno
  -- the elements that a chain reaches from `a`, ordered by chains
  let R : Set α := { b | b ∈ S ∧ Relation.ReflTransGen r a b }
  let lt : R → R → Prop := fun x y => Relation.TransGen r y.1 x.1
  have : Finite R := (hfin.subset fun _ hb => hb.1).to_subtype
  have : IsTrans R lt := ⟨fun _ _ _ hxy hyz => hyz.trans hxy⟩
  have : Std.Irrefl lt := ⟨fun x hx => (hno x.1 x.2.2).2 hx⟩
  have hwf : WellFounded lt := Finite.wellFounded_of_trans_of_irrefl lt
  obtain ⟨⟨x, hx, hax⟩, -, hmin⟩ := hwf.has_min Set.univ ⟨⟨a, ha, .refl⟩, trivial⟩
  obtain ⟨b, hb, hxb⟩ := (hstep x hx).resolve_left (hno x hax).1
  exact hmin ⟨b, hb, hax.tail hxb⟩ trivial (.single hxb)

/-- If whoever waits for a lock holds smaller ones only, then some holder does not wait. -/
theorem exists_not_waiting {ι : Type*} {waits holds : ι → ℕ → Prop} {n : ℕ}
    (hlt : ∀ i y, waits i y → y < n) (hheld : ∀ i y, waits i y → ∃ j, holds j y)
    (horder : ∀ i y z, holds i y → waits i z → y < z) {i : ι} {y : ℕ} (hi : waits i y) :
    ∃ j z, holds j z ∧ ∀ z', ¬ waits j z' := by
  -- the locks go up along the chain of those who wait
  induction hd : n - y using Nat.strong_induction_on generalizing i y with
  | _ d ih =>
    obtain ⟨j, hj⟩ := hheld i y hi
    by_cases hwait : ∃ z, waits j z
    · obtain ⟨z, hz⟩ := hwait
      have hyz := horder j y z hj hz
      have hy := hlt i y hi
      exact ih (n - z) (by omega) hz rfl
    · exact ⟨j, y, hj, not_exists.mp hwait⟩

end GoBlocks
