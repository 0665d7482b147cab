import Mathlib.Algebra.BigOperators.Group.Finset.Basic
import Mathlib.Algebra.Order.Ring.Nat

/-!
# Counting and adding up

What replacing one element of a list, or one summand of a sum, changes. The equations have
no subtraction, so that linear arithmetic can go on with them.
-/

namespace GoBlocks

/-- Elements with a property that one element has at most are equal. -/
theorem eq_of_countP_le_one {α : Type*} {q : α → Bool} {l : List α} (h : l.countP q ≤ 1) {a b : α}
    (ha : a ∈ l) (hqa : q a) (hb : b ∈ l) (hqb : q b) : a = b := by
  induction l with
  | nil => cases ha
  | cons x l ih =>
    have hnone : ∀ y ∈ l, q y → q x → False := by
      intro y hy hqy hqx
      have hpos : 0 < l.countP q := List.countP_pos_iff.mpr ⟨y, hy, hqy⟩
      rw [List.countP_cons_of_pos hqx] at h
      omega
    rcases List.mem_cons.mp ha with hax | hal <;> rcases List.mem_cons.mp hb with hbx | hbl
    · rw [hax, hbx]
    · exact (hnone b hbl hqb (hax ▸ hqa)).elim
    · exact (hnone a hal hqa (hbx ▸ hqb)).elim
    · exact ih ((List.sublist_cons_self x l).countP_le.trans h) hal hbl

/-- Replacing an element changes the count by the two elements. -/
theorem countP_set_add {α : Type*} (q : α → Bool) {l : List α} {i : ℕ} {a : α} (hi : l[i]? = some a)
    (b : α) : (l.set i b).countP q + (q a).toNat = l.countP q + (q b).toNat := by
  induction l generalizing i with
  | nil => cases hi
  | cons x l ih =>
    cases i with
    | zero =>
      cases hi
      simp only [List.set_cons_zero, List.countP_cons]
      cases q a <;> cases q b <;> simp
    | succ i =>
      have hrest := ih hi
      simp only [List.set_cons_succ, List.countP_cons]
      omega

/-- An element that is not replaced stays. -/
theorem mem_set_of_ne {α : Type*} {l : List α} {i : ℕ} {a c : α} (hi : l[i]? = some a) (b : α)
    (hc : c ∈ l) (hne : c ≠ a) : c ∈ l.set i b := by
  obtain ⟨j, hj⟩ := List.mem_iff_getElem?.mp hc
  have hij : i ≠ j := by
    rintro rfl
    exact hne (Option.some.inj (hj.symm.trans hi))
  exact List.mem_iff_getElem?.mpr ⟨j, by rw [List.getElem?_set_ne hij, hj]⟩

/-- An element after a replacement. -/
theorem getElem?_set_cases {α : Type*} {l : List α} {i j : ℕ} {a b : α}
    (h : (l.set i a)[j]? = some b) : j = i ∧ a = b ∨ j ≠ i ∧ l[j]? = some b := by
  rcases eq_or_ne j i with rfl | hne
  · rw [List.getElem?_set_self'] at h
    obtain ⟨_, -, hab⟩ := Option.map_eq_some_iff.mp h
    exact .inl ⟨rfl, hab⟩
  · rw [List.getElem?_set_ne hne.symm] at h
    exact .inr ⟨hne, h⟩

/-- An element after an element was added at the end. -/
theorem getElem?_snoc_cases {α : Type*} {l : List α} {i : ℕ} {a b : α}
    (h : (l ++ [a])[i]? = some b) : l[i]? = some b ∨ i = l.length ∧ a = b := by
  rcases Nat.lt_or_ge i l.length with hlt | hge
  · rw [List.getElem?_append_left hlt] at h
    exact .inl h
  · rw [List.getElem?_append_right hge, List.getElem?_singleton] at h
    obtain ⟨hzero, hab⟩ := Option.ite_none_right_eq_some.mp h
    exact .inr ⟨by omega, Option.some.inj hab⟩

/-- Replacing an element changes the sum by the two elements. -/
theorem sum_map_set_add {α : Type*} (f : α → ℕ) {l : List α} {i : ℕ} {a : α} (hi : l[i]? = some a)
    (b : α) : ((l.set i b).map f).sum + f a = (l.map f).sum + f b := by
  induction l generalizing i with
  | nil => cases hi
  | cons x l ih =>
    cases i with
    | zero =>
      cases hi
      simp only [List.set_cons_zero, List.map_cons, List.sum_cons]
      omega
    | succ i =>
      have hrest := ih hi
      simp only [List.set_cons_succ, List.map_cons, List.sum_cons]
      omega

/-- Changing one summand changes the sum by the two summands. -/
theorem sum_range_add {f g : ℕ → ℕ} {p n : ℕ} (hp : p < n) (h : ∀ q, q ≠ p → f q = g q) :
    (∑ q ∈ Finset.range n, f q) + g p = (∑ q ∈ Finset.range n, g q) + f p := by
  have hmem : p ∈ Finset.range n := Finset.mem_range.mpr hp
  have hrest : ∑ q ∈ (Finset.range n).erase p, f q = ∑ q ∈ (Finset.range n).erase p, g q :=
    Finset.sum_congr rfl fun q hq => h q (Finset.ne_of_mem_erase hq)
  rw [← Finset.add_sum_erase _ f hmem, ← Finset.add_sum_erase _ g hmem, hrest]
  omega

end GoBlocks
