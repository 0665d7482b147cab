import GoBlocks.Block
import GoBlocks.Multihash

/-!
# The hash function

`hash.Hash` is SHA2-256 written as a multihash, and it panics if `Sum` fails, which
does not happen. `IsValidHash` takes a string for a hash if it decodes from base58
to a multihash. Base58 has one text for each byte string, so the strings that are
taken are exactly the base58 texts of the multihashes.
-/

namespace GoBlocks

open GoBlocks.Multihash

section Hash

variable {ε : Type} (f : HashFunctions ε)

/-- `hash.Hash`, with `none` for a panic. -/
def hash (data : Bytes) : Option Bytes :=
  match sum f data sha2_256 (-1) with
  | some (.ok h) => some h
  | _ => none

/-- `hash.Hash` writes the digest of SHA2-256. -/
theorem hash_eq (data : Bytes) :
    hash f data = some (0x12 :: 0x20 :: (f.sumSHA256 data).toList) := by
  rw [hash, sum_sha2_256]

/-- `hash.Hash` does not panic. -/
theorem isSome_hash (data : Bytes) : (hash f data).isSome = true := by
  rw [hash_eq]
  rfl

/-- The package variables with the hash function of `hash.Hash`. -/
def hashEnv (debug : Bool) : HashEnv where
  hash data := (hash f data).get (isSome_hash f data)
  debug := debug

/-- The hash of a new block is a multihash. -/
theorem isMultihash_newBlock (debug : Bool) (data : Bytes) :
    IsMultihash (newBlock (hashEnv f debug) data).key := by
  have hkey : (newBlock (hashEnv f debug) data).key =
      0x12 :: 0x20 :: (f.sumSHA256 data).toList := Option.get_of_eq_some _ (hash_eq f data)
  have hlength : (f.sumSHA256 data).toList.length = 32 := Vector.length_toList
  rw [hkey, isMultihash_cons_cons, hlength]
  decide

end Hash

/-- `IsValidHash` checks whether a string is base58 text of a multihash. -/
def isValidHash (s : Bytes) : Bool :=
  let out := Base58.decode s
  if out.length = 0 then false
  else
    match Multihash.cast out with
    | .error _ => false
    | .ok _ => true

/-- `IsValidHash` is true if the decoded string is a multihash. -/
theorem isValidHash_eq_true_iff {s : Bytes} :
    isValidHash s = true ↔ IsMultihash (Base58.decode s) := by
  unfold isValidHash
  by_cases hnil : Base58.decode s = []
  · have hshort : ¬ IsMultihash [] := by decide
    simp [hnil, hshort]
  · have hlength : (Base58.decode s).length ≠ 0 := mt List.length_eq_zero_iff.mp hnil
    simp only [if_neg hlength, IsMultihash]
    cases Multihash.cast (Base58.decode s) <;> simp [Except.isOk, Except.toBool]

/-- A string decodes to a multihash if it is the base58 text of one. -/
theorem isMultihash_decode_iff {s : Bytes} :
    IsMultihash (Base58.decode s) ↔ ∃ m, IsMultihash m ∧ s = Base58.encode m := by
  constructor
  · intro h
    have hchars := Base58.mem_chars_of_decode_ne_nil h.ne_nil
    exact ⟨Base58.decode s, h, (Base58.encode_decode hchars).symm⟩
  · rintro ⟨m, hm, rfl⟩
    rwa [Base58.decode_encode]

/-- **Valid hashes are the base58 texts of multihashes.** `IsValidHash` is true exactly of
the base58 text of a valid code, the length of a digest of 1 to 127 bytes and that digest,
in particular of the text of the key of every new block. -/
theorem isValidHash_iff {ε : Type} (f : HashFunctions ε) (debug : Bool) :
    (∀ s, isValidHash s = true ↔ ∃ code digest,
      (code < 0x10 ∨ code ∈ codes.map Prod.fst) ∧ 1 ≤ digest.length ∧ digest.length ≤ 127 ∧
        s = Base58.encode (UInt8.ofNat code :: UInt8.ofNat digest.length :: digest)) ∧
    ∀ data, isValidHash (b58String (newBlock (hashEnv f debug) data).key) = true := by
  constructor
  · intro s
    rw [isValidHash_eq_true_iff, isMultihash_decode_iff]
    constructor
    · rintro ⟨m, hm, rfl⟩
      obtain ⟨code, digest, hcode, hpos, hle, rfl⟩ := isMultihash_iff.mp hm
      exact ⟨code, digest, validCode_iff.mp hcode, hpos, hle, rfl⟩
    · rintro ⟨code, digest, hcode, hpos, hle, rfl⟩
      exact ⟨_, isMultihash_iff.mpr ⟨code, digest, validCode_iff.mpr hcode, hpos, hle, rfl⟩, rfl⟩
  · intro data
    rw [isValidHash_eq_true_iff, b58String, Base58.decode_encode]
    exact isMultihash_newBlock f debug data

end GoBlocks
