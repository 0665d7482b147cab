import GoBlocks.Base58

/-!
# Multihashes

A multihash is a byte string that starts with the code of a hash function and
the length of the digest that follows. `Decode` checks the lengths and `Cast`
also the code, and both return the bytes unchanged. `Encode` writes a multihash,
and `Sum` hashes data with the function of a code.
-/

namespace GoBlocks.Multihash

/-- `DecodedMultihash`. -/
structure Decoded where
  /-- The code of the hash function. -/
  code : ℕ
  /-- The registered name of the code, empty for an application code. -/
  name : String
  /-- The announced length of the digest. -/
  length : ℕ
  /-- The digest. -/
  digest : Bytes
  deriving DecidableEq

/-- The errors of the package. -/
inductive DecodeError where
  /-- `ErrUnknownCode`. -/
  | unknownCode
  /-- `ErrTooShort`. -/
  | tooShort
  /-- `ErrTooLong`. -/
  | tooLong
  /-- `ErrInconsistentLen`, with the decoded fields. -/
  | inconsistentLen (dm : Decoded)
  deriving DecidableEq

/-- The code of SHA2-256. -/
def sha2_256 : ℕ := 0x12

/-- `Codes` maps the registered hash codes to their names. -/
def codes : List (ℕ × String) :=
  [(0x11, "sha1"), (sha2_256, "sha2-256"), (0x13, "sha2-512"), (0x14, "sha3"),
    (0x40, "blake2b"), (0x41, "blake2s")]

/-- `AppCode` checks whether a code is part of the application range. -/
def appCode (code : ℕ) : Bool := code < 0x10

/-- `ValidCode` checks whether a multihash code is valid. -/
def validCode (code : ℕ) : Bool := appCode code || (codes.lookup code).isSome

/-- `Decode` splits a buffer into code, length and digest. -/
def decode (buf : Bytes) : Except DecodeError Decoded :=
  match buf with
  | code :: length :: digest =>
    if buf.length < 3 then .error .tooShort
    else if 129 < buf.length then .error .tooLong
    else
      let dm : Decoded :=
        ⟨code.toNat, (codes.lookup code.toNat).getD "", length.toNat, digest⟩
      if digest.length ≠ dm.length then .error (.inconsistentLen dm) else .ok dm
  | _ => .error .tooShort

/-- `Cast` returns the buffer if it is a multihash with a valid code. -/
def cast (buf : Bytes) : Except DecodeError Bytes :=
  match decode buf with
  | .error e => .error e
  | .ok dm => if validCode dm.code then .ok buf else .error .unknownCode

/-- The buffer is accepted by `Cast`. -/
def IsMultihash (buf : Bytes) : Prop := (cast buf).isOk = true

/-- It can be decided whether bytes are a multihash. -/
instance (buf : Bytes) : Decidable (IsMultihash buf) := inferInstanceAs (Decidable (_ = _))

/-- An accepted buffer is not empty. -/
theorem IsMultihash.ne_nil {buf : Bytes} (h : IsMultihash buf) : buf ≠ [] := by
  rintro rfl
  exact absurd h (by decide)

/-! ## The accepted buffers -/

/-- A code is valid if it is in the application range or registered. -/
theorem validCode_iff {code : ℕ} :
    validCode code = true ↔ code < 0x10 ∨ code ∈ codes.map Prod.fst := by
  simp only [validCode, appCode, Bool.or_eq_true, decide_eq_true_eq]
  refine or_congr_right ?_
  rw [List.lookup_isSome_iff, List.mem_map]
  exact exists_congr fun p => and_congr_right fun _ => by rw [beq_iff_eq, eq_comm]

/-- A valid code is a byte. -/
theorem lt_of_validCode {code : ℕ} (h : validCode code = true) : code < 256 := by
  rcases validCode_iff.mp h with hlt | hmem
  · omega
  · have hbytes : ∀ c ∈ codes.map Prod.fst, c < 256 := by decide
    exact hbytes code hmem

/-- `Cast` accepts a code, a length and a digest if the code is valid, the length is that
of the digest and the digest has from 1 to 127 bytes. -/
theorem isMultihash_cons_cons {code length : UInt8} {digest : Bytes} :
    IsMultihash (code :: length :: digest) ↔ validCode code.toNat = true ∧
      1 ≤ digest.length ∧ digest.length ≤ 127 ∧ digest.length = length.toNat := by
  unfold IsMultihash cast decode
  simp only [List.length_cons]
  by_cases hshort : digest.length + 1 + 1 < 3
  · rw [if_pos hshort]
    exact ⟨fun hok => (by cases hok), fun h => by omega⟩
  · rw [if_neg hshort]
    by_cases hlong : 129 < digest.length + 1 + 1
    · rw [if_pos hlong]
      exact ⟨fun hok => (by cases hok), fun h => by omega⟩
    · rw [if_neg hlong]
      by_cases hlength : digest.length = length.toNat
      · rw [if_neg (not_not.mpr hlength)]
        by_cases hvalid : validCode code.toNat = true
        · simp only [if_pos hvalid]
          exact ⟨fun _ => ⟨hvalid, by omega, by omega, hlength⟩, fun _ => rfl⟩
        · simp only [if_neg hvalid]
          exact ⟨fun hok => (by cases hok), fun h => absurd h.1 hvalid⟩
      · rw [if_pos hlength]
        exact ⟨fun hok => (by cases hok), fun h => absurd h.2.2.2 hlength⟩

/-- A buffer is a multihash exactly if it is a valid code, the length of a digest of 1 to
127 bytes, and that digest. -/
theorem isMultihash_iff {buf : Bytes} : IsMultihash buf ↔
    ∃ code digest, validCode code = true ∧ 1 ≤ digest.length ∧ digest.length ≤ 127 ∧
      buf = UInt8.ofNat code :: UInt8.ofNat digest.length :: digest := by
  constructor
  · intro h
    rcases buf with _ | ⟨code, _ | ⟨length, digest⟩⟩
    · cases h
    · cases h
    · obtain ⟨hvalid, hpos, hle, hlength⟩ := isMultihash_cons_cons.mp h
      refine ⟨code.toNat, digest, hvalid, hpos, hle, ?_⟩
      rw [hlength, UInt8.ofNat_toNat, UInt8.ofNat_toNat]
  · rintro ⟨code, digest, hvalid, hpos, hle, rfl⟩
    have hcode : (UInt8.ofNat code).toNat = code := UInt8.toNat_ofNat_of_lt (lt_of_validCode hvalid)
    have hlength : (UInt8.ofNat digest.length).toNat = digest.length :=
      UInt8.toNat_ofNat_of_lt (Nat.lt_of_le_of_lt hle (by decide))
    exact isMultihash_cons_cons.mpr ⟨by rwa [hcode], hpos, hle, hlength.symm⟩

/-! ## Writing multihashes -/

/-- `Multihash.B58String`. -/
def b58String (m : Bytes) : Bytes := Base58.encode m

/-- The errors of `Encode`. -/
inductive EncodeError where
  /-- `ErrUnknownCode`. -/
  | unknownCode
  /-- `ErrLenNotSupported`. -/
  | lenNotSupported
  deriving DecidableEq

/-- `Encode` puts the code and the length of a digest in front of it. -/
def encode (buf : Bytes) (code : ℕ) : Except EncodeError Bytes :=
  if !validCode code then .error .unknownCode
  else if 127 < buf.length then .error .lenNotSupported
  else .ok (UInt8.ofNat code :: UInt8.ofNat buf.length :: buf)

/-- `Encode` succeeds on digests of at most 127 bytes under a valid code. -/
theorem encode_of_validCode {buf : Bytes} {code : ℕ} (hcode : validCode code = true)
    (hlength : buf.length ≤ 127) :
    encode buf code = .ok (UInt8.ofNat code :: UInt8.ofNat buf.length :: buf) := by
  rw [encode, if_neg (by simp [hcode]), if_neg (by omega)]

/-- The code of SHA1. -/
def sha1 : ℕ := 0x11

/-- The code of SHA2-512. -/
def sha2_512 : ℕ := 0x13

/-- The code of SHA3. -/
def sha3 : ℕ := 0x14

/-- `DefaultLengths` maps the registered hash codes to the lengths of their digests. -/
def defaultLengths : List (ℕ × ℕ) :=
  [(sha1, 20), (sha2_256, 32), (sha2_512, 64), (sha3, 64), (0x40, 64), (0x41, 32)]

/-- The hash functions behind `Sum`, whose digests are arrays. Only SHA3 may fail. -/
structure HashFunctions (ε : Type) where
  /-- The digest of `sumSHA1`. -/
  sumSHA1 : Bytes → Vector UInt8 20
  /-- The digest of `sumSHA256`. -/
  sumSHA256 : Bytes → Vector UInt8 32
  /-- The digest of `sumSHA512`. -/
  sumSHA512 : Bytes → Vector UInt8 64
  /-- The digest of `sumSHA3`, or the error of its writer. -/
  sumSHA3 : Bytes → Except ε (Vector UInt8 64)

/-- The errors of `Sum`. -/
inductive SumError (ε : Type) where
  /-- `invalid multihash code %d`. -/
  | invalidCode (code : ℕ)
  /-- `ErrSumNotSupported`. -/
  | sumNotSupported
  /-- The error of SHA3. -/
  | sha3 (e : ε)
  /-- `no default length for code %d`. -/
  | noDefaultLength (code : ℕ)
  /-- The error of `Encode`. -/
  | encode (e : EncodeError)

section Sum

variable {ε : Type} (f : HashFunctions ε)

/-- The switch of `Sum` over the codes. -/
def digest (data : Bytes) (code : ℕ) : Except (SumError ε) Bytes :=
  if code = sha1 then .ok (f.sumSHA1 data).toList
  else if code = sha2_256 then .ok (f.sumSHA256 data).toList
  else if code = sha2_512 then .ok (f.sumSHA512 data).toList
  else if code = sha3 then
    match f.sumSHA3 data with
    | .error e => .error (.sha3 e)
    | .ok d => .ok d.toList
  else .error .sumNotSupported

/-- `Sum`. A negative length stands for the default length of the code. The result is `none`
if `d[0:length]` panics, which is the case if the digest is shorter. -/
def sum (data : Bytes) (code : ℕ) (length : ℤ) : Option (Except (SumError ε) Bytes) :=
  if !validCode code then some (.error (.invalidCode code))
  else
    match digest f data code with
    | .error e => some (.error e)
    | .ok d =>
      match if length < 0 then defaultLengths.lookup code else some length.toNat with
      | none => some (.error (.noDefaultLength code))
      | some n =>
        if n ≤ d.length then some ((encode (d.take n) code).mapError .encode) else none

/-- `Sum` without a length writes the whole digest if that has the default length. -/
theorem sum_of_digest {data d : Bytes} {code : ℕ} (hcode : validCode code = true)
    (hdigest : digest f data code = .ok d) (hdefault : defaultLengths.lookup code = some d.length)
    (hlength : d.length ≤ 127) :
    sum f data code (-1) = some (.ok (UInt8.ofNat code :: UInt8.ofNat d.length :: d)) := by
  have hneg : (-1 : ℤ) < 0 := by decide
  simp only [sum, hcode, hdigest, if_pos hneg, hdefault, List.take_length,
    encode_of_validCode hcode hlength]
  simp [Except.mapError]

/-- `Sum` with SHA2-256 and its default length succeeds. -/
theorem sum_sha2_256 (data : Bytes) :
    sum f data sha2_256 (-1) = some (.ok (0x12 :: 0x20 :: (f.sumSHA256 data).toList)) := by
  have hlength : (f.sumSHA256 data).toList.length = 32 := Vector.length_toList
  have hdefault : defaultLengths.lookup sha2_256 = some (f.sumSHA256 data).toList.length := by
    rw [hlength]
    rfl
  rw [sum_of_digest f (by decide) rfl hdefault (by omega), hlength]
  rfl

end Sum

end GoBlocks.Multihash
