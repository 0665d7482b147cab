import Mathlib.Data.Nat.Digits.Lemmas

/-!
# Conversion between positional numerals

A list of digits, most significant first, is a number together with its leading
zeros. Conversion to another base writes the number in that base and keeps the
leading zeros, one for one. On digits that are below their base this loses
nothing, so that it is a bijection between the lists over the two sets of digits.
-/

namespace GoBlocks.Radix

/-- The number that the digits write in base `b`. -/
def value (b : ℕ) (ds : List ℕ) : ℕ := Nat.ofDigits b ds.reverse

/-- The digits of a number in base `b`, without leading zeros. -/
def numeral (b n : ℕ) : List ℕ := (Nat.digits b n).reverse

/-- The number of leading zeros. -/
def leadingZeros (ds : List ℕ) : ℕ := (ds.takeWhile (· = 0)).length

/-- Conversion from base `b` to base `c`. -/
def convert (b c : ℕ) (ds : List ℕ) : List ℕ :=
  List.replicate (leadingZeros ds) 0 ++ numeral c (value b ds)

/-- Leading zeros do not count. -/
@[simp] theorem value_replicate_append (b n : ℕ) (ds : List ℕ) :
    value b (List.replicate n 0 ++ ds) = value b ds := by
  rw [value, List.reverse_append, List.reverse_replicate, Nat.ofDigits_append_replicate_zero]
  rfl

/-- The digits of a number write it. -/
@[simp] theorem value_numeral (b n : ℕ) : value b (numeral b n) = n := by
  rw [value, numeral, List.reverse_reverse, Nat.ofDigits_digits]

/-- The digits of a number are below the base. -/
theorem lt_of_mem_numeral {b n d : ℕ} (hb : 1 < b) (hd : d ∈ numeral b n) : d < b :=
  Nat.digits_lt_base hb (List.mem_reverse.mp hd)

/-- The digits of a number do not start with zero. -/
theorem head?_numeral_ne_zero (b n : ℕ) : (numeral b n).head? ≠ some 0 := by
  rw [numeral, List.head?_reverse]
  by_cases hn : n = 0
  · simp [hn]
  · rw [List.getLast?_eq_some_getLast (Nat.digits_ne_nil_iff_ne_zero.mpr hn)]
    exact fun h => Nat.getLast_digit_ne_zero b hn (Option.some.inj h)

/-- Zeros in front of digits that do not start with zero are the leading zeros. -/
theorem leadingZeros_replicate_append (n : ℕ) {ds : List ℕ} (hds : ds.head? ≠ some 0) :
    leadingZeros (List.replicate n 0 ++ ds) = n := by
  have htake : ds.takeWhile (· = 0) = [] := by
    cases ds with
    | nil => rfl
    | cons d ds =>
      have hd : d ≠ 0 := fun h => hds (by rw [h]; rfl)
      simp [hd]
  rw [leadingZeros, List.takeWhile_append_of_pos (by simp), htake]
  simp

/-- Digits are their leading zeros and the digits of their number. -/
theorem replicate_append_numeral {b : ℕ} (hb : 1 < b) {ds : List ℕ} (hds : ∀ d ∈ ds, d < b) :
    List.replicate (leadingZeros ds) 0 ++ numeral b (value b ds) = ds := by
  induction ds with
  | nil => simp [leadingZeros, numeral, value]
  | cons d ds ih =>
    have hrest : ∀ d' ∈ ds, d' < b := fun d' hd' => hds d' (List.mem_cons_of_mem _ hd')
    by_cases hd : d = 0
    · subst hd
      have hvalue : value b (0 :: ds) = value b ds := value_replicate_append b 1 ds
      have hzeros : leadingZeros (0 :: ds) = leadingZeros ds + 1 := by simp [leadingZeros]
      rw [hvalue, hzeros, List.replicate_succ, List.cons_append, ih hrest]
    · have hzeros : leadingZeros (d :: ds) = 0 := by simp [leadingZeros, hd]
      have hdigits : Nat.digits b (Nat.ofDigits b (d :: ds).reverse) = (d :: ds).reverse := by
        refine Nat.digits_ofDigits b hb _ (fun x hx => hds x (List.mem_reverse.mp hx)) fun _ => ?_
        simpa using hd
      rw [hzeros, List.replicate_zero, List.nil_append, numeral, value, hdigits,
        List.reverse_reverse]

/-- The digits after a conversion are below the new base. -/
theorem lt_of_mem_convert {b c d : ℕ} {ds : List ℕ} (hc : 1 < c) (hd : d ∈ convert b c ds) :
    d < c := by
  rcases List.mem_append.mp hd with hd | hd
  · have hzero : d = 0 := List.eq_of_mem_replicate hd
    omega
  · exact lt_of_mem_numeral hc hd

/-- Conversion to another base and back restores the digits. -/
theorem convert_convert {b c : ℕ} (hb : 1 < b) {ds : List ℕ} (hds : ∀ d ∈ ds, d < b) :
    convert c b (convert b c ds) = ds := by
  rw [convert, convert, leadingZeros_replicate_append _ (head?_numeral_ne_zero _ _),
    value_replicate_append, value_numeral, replicate_append_numeral hb hds]

/-- Only the empty list is converted to the empty list. -/
theorem convert_eq_nil_iff {b c : ℕ} {ds : List ℕ} (hb : 1 < b) (hds : ∀ d ∈ ds, d < b) :
    convert b c ds = [] ↔ ds = [] := by
  constructor
  · intro h
    rw [← convert_convert (c := c) hb hds, h]
    simp [convert, leadingZeros, numeral, value]
  · rintro rfl
    simp [convert, leadingZeros, numeral, value]

end GoBlocks.Radix
