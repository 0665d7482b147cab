import GoBlocks.Lib.Path
import GoBlocks.Lib.Radix
import Mathlib.Tactic.Ring

/-!
# Base58

`EncodeAlphabet` reads a byte slice as a number in base 256 and writes it with the
58 characters of an alphabet, least significant digit first; it adds the first
character of the alphabet once for each leading zero byte and reverses the result.
`DecodeAlphabet` goes the other way and gives up on a character that is not in the
alphabet. Both are conversions of positional numerals, hence inverse to each other.
-/

namespace GoBlocks.Base58

/-- An alphabet of 58 different ASCII characters. -/
structure Alphabet where
  /-- The characters, in the order of the digits they stand for. -/
  chars : Bytes
  /-- There is a character for each digit. -/
  length_eq : chars.length = 58
  /-- Different digits have different characters. -/
  nodup : chars.Nodup
  /-- The characters are single bytes in UTF-8, so that `strings.IndexAny` compares bytes. -/
  ascii : ∀ c ∈ chars, c < 0x80

/-- `BTCAlphabet`: the modified base58 alphabet used by Bitcoin. -/
def btcAlphabet : Alphabet where
  chars := [
    '1', '2', '3', '4', '5', '6', '7', '8', '9', 'A', 'B', 'C', 'D', 'E', 'F', 'G', 'H', 'J', 'K',
    'L', 'M', 'N', 'P', 'Q', 'R', 'S', 'T', 'U', 'V', 'W', 'X', 'Y', 'Z', 'a', 'b', 'c', 'd', 'e',
    'f', 'g', 'h', 'i', 'j', 'k', 'm', 'n', 'o', 'p', 'q', 'r', 's', 't', 'u', 'v', 'w', 'x', 'y',
    'z'].map fun c => UInt8.ofNat c.toNat
  length_eq := by decide
  nodup := by decide +kernel
  ascii := by decide +kernel

namespace Alphabet

variable (a : Alphabet)

/-- `alphabet[i]`. The code indexes with remainders by 58 only. -/
def char (i : ℕ) : UInt8 := a.chars.getD i 0

/-- `strings.IndexAny(alphabet, string(c))`, where `none` is the result -1. -/
def indexAny (c : UInt8) : Option ℕ := if c ∈ a.chars then some (a.chars.idxOf c) else none

variable {a}

/-- Inside the alphabet `char` is plain indexing. -/
theorem char_eq_getElem {i : ℕ} (hi : i < a.chars.length) : a.char i = a.chars[i] := by
  rw [char, List.getD_eq_getElem?_getD, List.getElem?_eq_getElem hi, Option.getD_some]

/-- The character of a digit is in the alphabet. -/
theorem char_mem {i : ℕ} (hi : i < 58) : a.char i ∈ a.chars := by
  have hlt : i < a.chars.length := by
    rw [a.length_eq]
    exact hi
  rw [char_eq_getElem hlt]
  exact List.getElem_mem hlt

/-- The index of the character of a digit is the digit. -/
theorem idxOf_char {i : ℕ} (hi : i < 58) : a.chars.idxOf (a.char i) = i := by
  have hlt : i < a.chars.length := by
    rw [a.length_eq]
    exact hi
  rw [char_eq_getElem hlt]
  exact a.nodup.idxOf_getElem i hlt

/-- The index of a character of the alphabet is a digit. -/
theorem idxOf_lt {c : UInt8} (hc : c ∈ a.chars) : a.chars.idxOf c < 58 := by
  rw [← a.length_eq]
  exact List.idxOf_lt_length_of_mem hc

/-- The character at the index of a character is that character. -/
theorem char_idxOf {c : UInt8} (hc : c ∈ a.chars) : a.char (a.chars.idxOf c) = c := by
  have hlt := List.idxOf_lt_length_of_mem hc
  rw [char_eq_getElem hlt]
  exact List.getElem_idxOf hlt

/-- `IndexAny` finds the character of a digit. -/
theorem indexAny_char {i : ℕ} (hi : i < 58) : a.indexAny (a.char i) = some i := by
  rw [indexAny, if_pos (char_mem hi), idxOf_char hi]

end Alphabet

/-! ## Big integers -/

/-- `big.Int.SetBytes`: the number that the bytes write, most significant byte first. -/
def setBytes (b : Bytes) : ℕ := Radix.value 256 (b.map UInt8.toNat)

/-- `big.Int.Bytes`: the bytes of a number, without leading zeros. -/
def bigBytes (n : ℕ) : Bytes := (Radix.numeral 256 n).map UInt8.ofNat

/-- Bytes are digits in base 256. -/
theorem toNat_lt_of_mem_map {b : Bytes} {d : ℕ} (hd : d ∈ b.map UInt8.toNat) : d < 256 := by
  obtain ⟨c, -, rfl⟩ := List.mem_map.mp hd
  exact c.toNat_lt

/-- The bytes with the values of given bytes are these bytes. -/
theorem map_ofNat_map_toNat (b : Bytes) : (b.map UInt8.toNat).map UInt8.ofNat = b := by
  simp [Function.comp_def]

/-- The values of the bytes with given values below 256. -/
theorem map_toNat_map_ofNat {ds : List ℕ} (hds : ∀ d ∈ ds, d < 256) :
    (ds.map UInt8.ofNat).map UInt8.toNat = ds := by
  rw [List.map_map]
  calc ds.map (UInt8.toNat ∘ UInt8.ofNat) = ds.map id :=
        List.map_congr_left fun d hd => UInt8.toNat_ofNat_of_lt (hds d hd)
    _ = ds := List.map_id ds

/-! ## Encoding -/

/-- The loop of `EncodeAlphabet`: the digits of `x`, least significant first. -/
def encodeLoop (a : Alphabet) (x : ℕ) (answer : Bytes) : Bytes :=
  if 0 < x then encodeLoop a (x / 58) (answer ++ [a.char (x % 58)]) else answer
termination_by x

/-- `EncodeAlphabet`. -/
def encodeAlphabet (b : Bytes) (a : Alphabet) : Bytes :=
  let answer := encodeLoop a (setBytes b) []
  -- leading zero bytes
  let padded := answer ++ List.replicate (b.takeWhile (· = 0)).length (a.char 0)
  padded.reverse

/-- `Encode`. -/
def encode (b : Bytes) : Bytes := encodeAlphabet b btcAlphabet

/-- The loop appends the characters of the digits. -/
theorem encodeLoop_eq (a : Alphabet) (x : ℕ) (answer : Bytes) :
    encodeLoop a x answer = answer ++ (Nat.digits 58 x).map a.char := by
  induction x using Nat.strong_induction_on generalizing answer with
  | _ x ih =>
    unfold encodeLoop
    split
    next hx =>
      have hlt : x / 58 < x := Nat.div_lt_self hx (by omega)
      rw [ih (x / 58) hlt, Nat.digits_of_two_le_of_pos (by omega) hx]
      simp
    next hx =>
      obtain rfl : x = 0 := by omega
      simp

/-- The leading zero bytes are the leading zeros of the digits. -/
theorem length_takeWhile_zero (b : Bytes) :
    (b.takeWhile (· = 0)).length = Radix.leadingZeros (b.map UInt8.toNat) := by
  have hzero : ((fun d : ℕ => decide (d = 0)) ∘ UInt8.toNat) = fun c : UInt8 => decide (c = 0) := by
    funext c
    have hc : c.toNat = 0 ↔ c = 0 := by
      rw [← UInt8.toNat_inj]
      rfl
    simp [hc]
  rw [Radix.leadingZeros, List.takeWhile_map, List.length_map, hzero]

/-- Encoding is the conversion from base 256 to base 58. -/
theorem encodeAlphabet_eq (b : Bytes) (a : Alphabet) :
    encodeAlphabet b a = (Radix.convert 256 58 (b.map UInt8.toNat)).map a.char := by
  simp only [encodeAlphabet, encodeLoop_eq, List.nil_append, List.reverse_append,
    List.reverse_replicate, Radix.convert, List.map_append, List.map_replicate, Radix.numeral,
    List.map_reverse, length_takeWhile_zero, setBytes]

/-! ## Decoding -/

/-- The loop of `DecodeAlphabet` over the characters from the last to the first:
`none` if one of them is not in the alphabet. -/
def decodeLoop (a : Alphabet) : Bytes → ℕ → ℕ → Option ℕ
  | [], answer, _ => some answer
  | c :: cs, answer, j =>
    match a.indexAny c with
    | none => none
    | some idx => decodeLoop a cs (answer + j * idx) (j * 58)

/-- `DecodeAlphabet`, whose result is empty if a character is not in the alphabet. -/
def decodeAlphabet (b : Bytes) (a : Alphabet) : Bytes :=
  match decodeLoop a b.reverse 0 1 with
  | none => []
  | some answer =>
    List.replicate (b.takeWhile (· = a.char 0)).length 0 ++ bigBytes answer

/-- `Decode`. -/
def decode (b : Bytes) : Bytes := decodeAlphabet b btcAlphabet

/-- The loop adds up the digits of the characters. -/
theorem decodeLoop_map (a : Alphabet) {ds : List ℕ} (hds : ∀ d ∈ ds, d < 58) (answer j : ℕ) :
    decodeLoop a (ds.map a.char) answer j = some (answer + j * Nat.ofDigits 58 ds) := by
  induction ds generalizing answer j with
  | nil => simp [decodeLoop]
  | cons d ds ih =>
    have hd : d < 58 := hds d (List.mem_cons_self ..)
    have hstep : decodeLoop a ((d :: ds).map a.char) answer j =
        decodeLoop a (ds.map a.char) (answer + j * d) (j * 58) := by
      simp [decodeLoop, Alphabet.indexAny_char hd]
    rw [hstep, ih fun d' hd' => hds d' (List.mem_cons_of_mem _ hd'), Nat.ofDigits_cons]
    congr 1
    ring

/-- The leading first characters are the leading zeros of the digits. -/
theorem length_takeWhile_char (a : Alphabet) {ds : List ℕ} (hds : ∀ d ∈ ds, d < 58) :
    ((ds.map a.char).takeWhile (· = a.char 0)).length = Radix.leadingZeros ds := by
  induction ds with
  | nil => rfl
  | cons d ds ih =>
    have hd : a.char d = a.char 0 ↔ d = 0 := by
      constructor
      · intro h
        rw [← a.idxOf_char (hds d (List.mem_cons_self ..)), h, a.idxOf_char (by omega)]
      · rintro rfl
        rfl
    have hrest := ih fun d' hd' => hds d' (List.mem_cons_of_mem _ hd')
    by_cases hzero : d = 0
    · simpa [Radix.leadingZeros, hd, hzero] using hrest
    · simp [Radix.leadingZeros, hd, hzero]

/-- Decoding characters of digits is the conversion from base 58 to base 256. -/
theorem decodeAlphabet_map (a : Alphabet) {ds : List ℕ} (hds : ∀ d ∈ ds, d < 58) :
    decodeAlphabet (ds.map a.char) a = (Radix.convert 58 256 ds).map UInt8.ofNat := by
  have hloop : decodeLoop a (ds.map a.char).reverse 0 1 = some (Radix.value 58 ds) := by
    rw [← List.map_reverse, decodeLoop_map a fun d hd => hds d (List.mem_reverse.mp hd),
      Nat.zero_add,
      Nat.one_mul]
    rfl
  rw [decodeAlphabet, hloop, length_takeWhile_char a hds]
  simp [Radix.convert, bigBytes]

/-- The loop gives up on a character that is not in the alphabet. -/
theorem decodeLoop_eq_none {a : Alphabet} {cs : Bytes} (h : ∃ c ∈ cs, c ∉ a.chars) (answer j : ℕ) :
    decodeLoop a cs answer j = none := by
  induction cs generalizing answer j with
  | nil =>
    obtain ⟨c, hc, -⟩ := h
    cases hc
  | cons c cs ih =>
    by_cases hc : c ∈ a.chars
    · have hrest : ∃ c' ∈ cs, c' ∉ a.chars := by
        obtain ⟨c', hmem, hc'⟩ := h
        rcases List.mem_cons.mp hmem with rfl | hmem
        · exact absurd hc hc'
        · exact ⟨c', hmem, hc'⟩
      simp only [decodeLoop, Alphabet.indexAny, if_pos hc]
      exact ih hrest _ _
    · simp only [decodeLoop, Alphabet.indexAny, if_neg hc]

/-- A text with a character outside the alphabet decodes to the empty byte slice. -/
theorem decodeAlphabet_of_notMem {a : Alphabet} {s : Bytes} (h : ∃ c ∈ s, c ∉ a.chars) :
    decodeAlphabet s a = [] := by
  have hrev : ∃ c ∈ s.reverse, c ∉ a.chars := by simpa using h
  rw [decodeAlphabet, decodeLoop_eq_none hrev]

/-! ## Round trips -/

/-- An encoded text has characters of the alphabet only. -/
theorem mem_chars_of_mem_encodeAlphabet {a : Alphabet} {b : Bytes} {c : UInt8}
    (hc : c ∈ encodeAlphabet b a) : c ∈ a.chars := by
  rw [encodeAlphabet_eq] at hc
  obtain ⟨d, hd, rfl⟩ := List.mem_map.mp hc
  exact Alphabet.char_mem (Radix.lt_of_mem_convert (by omega) hd)

/-- Decoding an encoded byte slice restores it. -/
theorem decodeAlphabet_encodeAlphabet (b : Bytes) (a : Alphabet) :
    decodeAlphabet (encodeAlphabet b a) a = b := by
  rw [encodeAlphabet_eq, decodeAlphabet_map a fun d hd => Radix.lt_of_mem_convert (by omega) hd,
    Radix.convert_convert (by omega) fun d hd => toNat_lt_of_mem_map hd, map_ofNat_map_toNat]

/-- A text over the alphabet consists of the characters of digits. -/
theorem exists_digits {a : Alphabet} {s : Bytes} (hs : ∀ c ∈ s, c ∈ a.chars) :
    ∃ ds : List ℕ, (∀ d ∈ ds, d < 58) ∧ ds.map a.char = s := by
  refine ⟨s.map a.chars.idxOf, ?_, ?_⟩
  · intro d hd
    obtain ⟨c, hc, rfl⟩ := List.mem_map.mp hd
    exact Alphabet.idxOf_lt (hs c hc)
  · rw [List.map_map]
    calc s.map (a.char ∘ a.chars.idxOf) = s.map id :=
          List.map_congr_left fun c hc => Alphabet.char_idxOf (hs c hc)
      _ = s := List.map_id s

/-- Encoding what a text over the alphabet decodes to restores the text. -/
theorem encodeAlphabet_decodeAlphabet {a : Alphabet} {s : Bytes} (hs : ∀ c ∈ s, c ∈ a.chars) :
    encodeAlphabet (decodeAlphabet s a) a = s := by
  obtain ⟨ds, hds, rfl⟩ := exists_digits hs
  have hbytes : ∀ d ∈ Radix.convert 58 256 ds, d < 256 := fun d hd =>
    Radix.lt_of_mem_convert (by omega) hd
  rw [decodeAlphabet_map a hds, encodeAlphabet_eq, map_toNat_map_ofNat hbytes,
    Radix.convert_convert (by omega) hds]

/-- Only the empty byte slice is encoded as the empty text. -/
theorem encodeAlphabet_eq_nil_iff {b : Bytes} {a : Alphabet} :
    encodeAlphabet b a = [] ↔ b = [] := by
  rw [encodeAlphabet_eq, List.map_eq_nil_iff,
    Radix.convert_eq_nil_iff (by omega) fun d hd => toNat_lt_of_mem_map hd, List.map_eq_nil_iff]

/-! ## The Bitcoin alphabet -/

/-- `Decode` undoes `Encode`. -/
@[simp] theorem decode_encode (b : Bytes) : decode (encode b) = b :=
  decodeAlphabet_encodeAlphabet b btcAlphabet

/-- `Encode` undoes `Decode` on strings over the alphabet. -/
theorem encode_decode {s : Bytes} (hs : ∀ c ∈ s, c ∈ btcAlphabet.chars) : encode (decode s) = s :=
  encodeAlphabet_decodeAlphabet hs

/-- `Encode` is injective. -/
theorem encode_injective : Function.Injective encode := Function.LeftInverse.injective decode_encode

/-- `Encode` writes characters of the alphabet. -/
theorem mem_chars_of_mem_encode {b : Bytes} {c : UInt8} (hc : c ∈ encode b) :
    c ∈ btcAlphabet.chars := mem_chars_of_mem_encodeAlphabet hc

/-- Only the empty byte slice has an empty text. -/
@[simp] theorem encode_eq_nil_iff {b : Bytes} : encode b = [] ↔ b = [] := encodeAlphabet_eq_nil_iff

/-- The empty text decodes to the empty byte slice. -/
@[simp] theorem decode_nil : decode [] = [] := by
  have h := decode_encode []
  rwa [encode_eq_nil_iff.mpr rfl] at h

/-- `Decode` of a string with another character is empty. -/
theorem decode_of_notMem {s : Bytes} (h : ∃ c ∈ s, c ∉ btcAlphabet.chars) : decode s = [] :=
  decodeAlphabet_of_notMem h

/-- A string that does not decode to the empty byte slice has characters of the alphabet
only. -/
theorem mem_chars_of_decode_ne_nil {s : Bytes} (h : decode s ≠ []) :
    ∀ c ∈ s, c ∈ btcAlphabet.chars := by
  intro c hc
  by_contra hnot
  exact h (decode_of_notMem ⟨c, hc, hnot⟩)

end GoBlocks.Base58
