import GoBlocks.Base58
import GoBlocks.Key
import Mathlib.Data.Set.Function

/-!
# Text encodings of keys

A key is written as base58 text, by itself and inside JSON. The package
`encoding/json` is a parameter, of which only its way with ASCII letters and
digits is assumed. `UnmarshalJSON` assigns the key before it looks for an error,
so that it is modelled on the value of its receiver.
-/

namespace GoBlocks

/-- `B58KeyDecode` returns a key from a base58 encoded string. -/
def b58KeyDecode (s : Bytes) : Key := Base58.decode s

/-- `B58KeyEncode` returns a key in a base58 encoded string. -/
def b58KeyEncode (k : Key) : Bytes := Base58.encode k

/-! ## JSON -/

/-- `json.Marshal` and `json.Unmarshal` on strings, with errors `ε`. -/
structure Json (ε : Type) where
  /-- The JSON text of a string. -/
  marshal : Bytes → Except ε Bytes
  /-- The string that a JSON text denotes. -/
  unmarshal : Bytes → Except ε Bytes

/-- An ASCII digit or letter. -/
def IsAlphanumeric (c : UInt8) : Prop :=
  (0x30 ≤ c ∧ c ≤ 0x39) ∨ (0x41 ≤ c ∧ c ≤ 0x5a) ∨ (0x61 ≤ c ∧ c ≤ 0x7a)

/-- It can be decided whether a byte is alphanumeric. -/
instance (c : UInt8) : Decidable (IsAlphanumeric c) := inferInstanceAs (Decidable (_ ∨ _))

/-- ASCII digits and letters are quoted and unquoted faithfully. -/
def Json.Faithful {ε : Type} (json : Json ε) : Prop :=
  ∀ s, (∀ c ∈ s, IsAlphanumeric c) → ∃ mk, json.marshal s = .ok mk ∧ json.unmarshal mk = .ok s

/-- The errors of `UnmarshalJSON`. -/
inductive UnmarshalErr (ε : Type) where
  /-- The error of `json.Unmarshal`. -/
  | json (e : ε)
  /-- `Key.UnmarshalJSON: invalid b58 string`, with the JSON text. -/
  | invalidB58 (mk : Bytes)

section Json

variable {ε : Type} (json : Json ε)

/-- `UnmarshalJSON` on a receiver with the value `k`: the error, if any, and the
new value of the receiver. -/
def unmarshalJSON (k : Key) (mk : Bytes) : Option (UnmarshalErr ε) × Key :=
  match json.unmarshal mk with
  | .error e => (some (.json e), k)
  | .ok s =>
    let k' : Key := Base58.decode s
    -- if b58.Decode fails, the key is empty
    if k'.length = 0 ∧ s.length > 2 then (some (.invalidB58 mk), k') else (none, k')

/-- `MarshalJSON` returns a JSON-encoded key. -/
def marshalJSON (k : Key) : Except ε Bytes := json.marshal (Base58.encode k)

end Json

/-- The base58 alphabet has ASCII digits and letters only. -/
theorem isAlphanumeric_of_mem_chars : ∀ c ∈ Base58.btcAlphabet.chars, IsAlphanumeric c := by
  decide +kernel

/-- `UnmarshalJSON` recovers a key from its base58 text in JSON. -/
theorem unmarshalJSON_of_unmarshal {ε : Type} {json : Json ε} {k : Key} {mk : Bytes}
    (hmk : json.unmarshal mk = .ok (Base58.encode k)) (prior : Key) :
    unmarshalJSON json prior mk = (none, k) := by
  -- only the empty key is empty, and its text is too short for the error
  have hshort : ¬ (k.length = 0 ∧ (Base58.encode k).length > 2) := by
    rintro ⟨hk, hlong⟩
    have hnil : Base58.encode k = [] :=
      Base58.encode_eq_nil_iff.mpr (List.length_eq_zero_iff.mp hk)
    rw [hnil] at hlong
    simp at hlong
  simp only [unmarshalJSON, hmk, Base58.decode_encode, if_neg hshort]

/-- **Key texts are lossless.** Decoding the base58 text of a key restores the key,
`UnmarshalJSON` restores it from the output of `MarshalJSON` whatever its receiver
held, and every string over the alphabet is the text of the key it decodes to. The
keys are in bijection with the strings over the alphabet. -/
theorem key_texts_lossless {ε : Type} (json : Json ε) (hjson : json.Faithful) :
    (∀ k, b58KeyDecode (b58KeyEncode k) = k) ∧
    (∀ k prior, ∃ mk, marshalJSON json k = .ok mk ∧ unmarshalJSON json prior mk = (none, k)) ∧
    (∀ s, (∀ c ∈ s, c ∈ Base58.btcAlphabet.chars) → b58KeyEncode (b58KeyDecode s) = s) ∧
    Set.BijOn b58KeyEncode Set.univ {s | ∀ c ∈ s, c ∈ Base58.btcAlphabet.chars} := by
  have hdecode : ∀ k, b58KeyDecode (b58KeyEncode k) = k := Base58.decode_encode
  have hencode : ∀ s, (∀ c ∈ s, c ∈ Base58.btcAlphabet.chars) →
      b58KeyEncode (b58KeyDecode s) = s := fun s hs => Base58.encode_decode hs
  have hchars : ∀ k, ∀ c ∈ b58KeyEncode k, c ∈ Base58.btcAlphabet.chars := fun k c hc =>
    Base58.mem_chars_of_mem_encode hc
  refine ⟨hdecode, ?_, hencode, ?_, ?_, ?_⟩
  · intro k prior
    obtain ⟨mk, hmarshal, hunmarshal⟩ :=
      hjson (b58KeyEncode k) fun c hc => isAlphanumeric_of_mem_chars c (hchars k c hc)
    exact ⟨mk, hmarshal, unmarshalJSON_of_unmarshal hunmarshal prior⟩
  · exact fun k _ => hchars k
  · exact (Function.LeftInverse.injective hdecode).injOn
  · exact fun s hs => ⟨b58KeyDecode s, Set.mem_univ _, hencode s hs⟩

/-- JSON for strings without escapes: a pair of quotes around the string. -/
def quotes : Json Unit where
  marshal s := .ok (0x22 :: s ++ [0x22])
  unmarshal mk :=
    if mk.head? = some 0x22 ∧ mk.getLast? = some 0x22 ∧ 2 ≤ mk.length then .ok mk.tail.dropLast
    else .error ()

/-- A key with leading zero bytes survives quoted JSON. -/
theorem key_texts_lossless_quotes :
    quotes.Faithful ∧
      ∃ mk, marshalJSON quotes [0, 0, 1] = .ok mk ∧
        unmarshalJSON quotes [5] mk = (none, [0, 0, 1]) := by
  have hquotes : quotes.Faithful := by
    intro s _
    have hlast : ((0x22 : UInt8) :: s ++ [0x22]).getLast? = some 0x22 := List.getLast?_concat
    refine ⟨0x22 :: s ++ [0x22], rfl, ?_⟩
    simp only [quotes]
    rw [if_pos ⟨rfl, hlast, by simp⟩]
    simp
  exact ⟨hquotes, (key_texts_lossless quotes hquotes).2.1 [0, 0, 1] [5]⟩

/-! ## Invalid texts -/

/-- `UnmarshalJSON` accepts the JSON text of `s` exactly if `s` is base58 text, and then
reads the key with this text; if it fails it leaves its receiver alone. -/
structure UnmarshalsCleanly {ε : Type} (json : Json ε) (prior : Key) (mk s : Bytes) : Prop where
  /-- Base58 texts and no others are accepted. -/
  accepts_iff : (unmarshalJSON json prior mk).1 = none ↔
    ∀ c ∈ s, c ∈ Base58.btcAlphabet.chars
  /-- An accepted text is the text of the key. -/
  encode_eq : (unmarshalJSON json prior mk).1 = none →
    b58KeyEncode (unmarshalJSON json prior mk).2 = s
  /-- A failure keeps the prior key. -/
  keeps : (unmarshalJSON json prior mk).1 ≠ none → (unmarshalJSON json prior mk).2 = prior

section Invalid

variable {ε : Type} {json : Json ε} {prior : Key} {mk s : Bytes}

/-- On a text with a character outside the alphabet the receiver becomes empty, and the
error is raised only if the text has more than two bytes. -/
theorem unmarshalJSON_of_notMem (hmk : json.unmarshal mk = .ok s)
    (hs : ¬ ∀ c ∈ s, c ∈ Base58.btcAlphabet.chars) :
    unmarshalJSON json prior mk = (if 2 < s.length then some (.invalidB58 mk) else none, []) := by
  push Not at hs
  simp only [unmarshalJSON, hmk, Base58.decode_of_notMem hs]
  by_cases hlong : 2 < s.length <;> simp [hlong]

/-- Whether `UnmarshalJSON` is clean, from its result. -/
theorem unmarshalsCleanly_of_eq {err : Option (UnmarshalErr ε)} {k : Key}
    (h : unmarshalJSON json prior mk = (err, k)) : UnmarshalsCleanly json prior mk s ↔
      (err = none ↔ ∀ c ∈ s, c ∈ Base58.btcAlphabet.chars) ∧
      (err = none → b58KeyEncode k = s) ∧ (err ≠ none → k = prior) := by
  constructor
  · rintro ⟨haccepts, hencode, hkeeps⟩
    rw [h] at haccepts hencode hkeeps
    exact ⟨haccepts, hencode, hkeeps⟩
  · rintro ⟨haccepts, hencode, hkeeps⟩
    constructor <;> rwa [h]

/-- Base58 texts are accepted whatever the receiver held. -/
theorem unmarshalsCleanly_of_mem (hmk : json.unmarshal mk = .ok s)
    (hs : ∀ c ∈ s, c ∈ Base58.btcAlphabet.chars) : UnmarshalsCleanly json prior mk s := by
  have hencode : Base58.encode (Base58.decode s) = s := Base58.encode_decode hs
  have hresult : unmarshalJSON json prior mk = (none, Base58.decode s) :=
    unmarshalJSON_of_unmarshal (by rw [hmk, hencode]) prior
  rw [unmarshalsCleanly_of_eq hresult]
  exact ⟨iff_of_true rfl hs, fun _ => hencode, fun h => absurd rfl h⟩

/-- **Where `UnmarshalJSON` is clean.** On the JSON text of `s` it is clean exactly if `s` is
base58 text, or if `s` has more than two bytes and the receiver was empty: invalid texts
of one or two bytes are accepted as the empty key, and a longer one clears the receiver. -/
theorem unmarshalsCleanly_iff (json : Json ε) (prior : Key) (mk s : Bytes)
    (hmk : json.unmarshal mk = .ok s) :
    UnmarshalsCleanly json prior mk s ↔
      (∀ c ∈ s, c ∈ Base58.btcAlphabet.chars) ∨ (2 < s.length ∧ prior = []) := by
  by_cases hs : ∀ c ∈ s, c ∈ Base58.btcAlphabet.chars
  · exact iff_of_true (unmarshalsCleanly_of_mem hmk hs) (.inl hs)
  · rw [unmarshalsCleanly_of_eq (unmarshalJSON_of_notMem hmk hs)]
    by_cases hlong : 2 < s.length
    · rw [if_pos hlong]
      constructor
      · rintro ⟨-, -, hkeeps⟩
        exact .inr ⟨hlong, (hkeeps (by simp)).symm⟩
      · rintro (hs' | ⟨-, rfl⟩)
        · exact absurd hs' hs
        · exact ⟨iff_of_false (by simp) hs, fun herr => (by cases herr), fun _ => rfl⟩
    · rw [if_neg hlong]
      refine iff_of_false (fun hclean => hs (hclean.1.mp rfl)) ?_
      rintro (hs' | ⟨hlong', -⟩)
      · exact hs hs'
      · exact hlong hlong'

end Invalid

/-- Quoted JSON of the base58 text `2` is read cleanly into a receiver that held a key. -/
theorem unmarshalsCleanly_two : UnmarshalsCleanly quotes [5] [0x22, 0x32, 0x22] [0x32] :=
  (unmarshalsCleanly_iff quotes [5] [0x22, 0x32, 0x22] [0x32] rfl).mpr (.inl (by decide +kernel))

/-- The text `"0"`, whose character is not in the alphabet, is accepted as the empty key, and
the error on `"000"` comes after the prior key is overwritten. -/
theorem not_unmarshalsCleanly_zeros :
    (quotes.unmarshal [0x22, 0x30, 0x22] = .ok [0x30] ∧
      ¬ UnmarshalsCleanly quotes [5] [0x22, 0x30, 0x22] [0x30]) ∧
    (quotes.unmarshal [0x22, 0x30, 0x30, 0x30, 0x22] = .ok [0x30, 0x30, 0x30] ∧
      ¬ UnmarshalsCleanly quotes [5] [0x22, 0x30, 0x30, 0x30, 0x22] [0x30, 0x30, 0x30]) := by
  refine ⟨⟨rfl, ?_⟩, rfl, ?_⟩
  · intro h
    have haccepted : (unmarshalJSON quotes [5] [0x22, 0x30, 0x22]).1 = none := rfl
    have hmem := h.accepts_iff.mp haccepted 0x30 (by decide)
    exact absurd hmem (by decide +kernel)
  · intro h
    have hcleared : (unmarshalJSON quotes [5] [0x22, 0x30, 0x30, 0x30, 0x22]) =
      (some (.invalidB58 [0x22, 0x30, 0x30, 0x30, 0x22]), []) := rfl
    have hkeeps := h.keeps (by rw [hcleared]; simp)
    rw [hcleared] at hkeeps
    cases hkeeps

end GoBlocks
