import GoBlocks.Blockstore.MapStore

/-!
# Content integrity of `Get`

`Get` labels the bytes it finds with the requested key and does not hash them
again. The bytes were stored under the cleaned form of their own hash, so the
label is the hash of the bytes exactly for the keys whose class holds no other
hash. A leading slash already leads to another key of the same class.
-/

namespace GoBlocks

open GoBlocks.Path Blockstore

/-- The updates put only blocks that `NewBlock` made from data satisfying `P`. -/
def PutsNewBlocks (env : HashEnv) (P : Bytes → Prop) (us : List Update) : Prop :=
  ∀ u ∈ us, ∀ b, u = .put b → ∃ data, P data ∧ b = newBlock env data

/-- A block that `Get` returns for the key, after these updates of an empty
store, carries the key and hashes to it. -/
def GetIntact (env : HashEnv) (us : List Update) (k : Key) : Prop :=
  ∀ b, ((mapStore env).get k ((mapStore env).updates us ∅)).1 = .ok b →
    b.multihash = k ∧ env.hash b.data = k

/-- Every stored value is the data of a new block, under the raw key of its hash. -/
def HoldsHashed (env : HashEnv) (P : Bytes → Prop) (d : Ds.KeyMap) : Prop :=
  ∀ rk v, d.lookup rk = some v →
    ∃ data, P data ∧ v = .bytes data ∧ rk = rawKey (env.hash data)

/-- One update keeps every stored value under the raw key of its hash. -/
theorem HoldsHashed.update {env : HashEnv} {P : Bytes → Prop} {d : Ds.KeyMap}
    (h : HoldsHashed env P d) {u : Update}
    (hu : ∀ b, u = .put b → ∃ data, P data ∧ b = newBlock env data) :
    HoldsHashed env P ((mapStore env).update d u) := by
  intro rk v hv
  by_cases hrk : rk = rawKey u.key
  · cases u with
    | put b =>
      obtain ⟨data, hP, rfl⟩ := hu b rfl
      rw [Update.key_put] at hrk
      rw [hrk, mapStore.lookup_update_put] at hv
      cases hfound : d.lookup (rawKey (newBlock env data).key) with
      | some v' =>
        have hv' : v' = v := by simpa [hfound] using hv
        exact h rk v (by rw [hrk, ← hv']; exact hfound)
      | none =>
        have hv' : Ds.Value.bytes (newBlock env data).data = v := by simpa [hfound] using hv
        exact ⟨data, hP, hv'.symm, hrk⟩
    | deleteBlock k =>
      rw [Update.key_deleteBlock] at hrk
      rw [hrk, mapStore.lookup_update_deleteBlock] at hv
      cases hv
  · rw [mapStore.lookup_update_of_ne env d hrk] at hv
    exact h rk v hv

/-- After any such updates of an empty store, every stored value is under the
raw key of its hash. -/
theorem holdsHashed_updates {env : HashEnv} {P : Bytes → Prop} {us : List Update}
    (hus : PutsNewBlocks env P us) : HoldsHashed env P ((mapStore env).updates us ∅) := by
  apply updates_invariant (I := HoldsHashed env P)
  · intro u hu d hd
    exact hd.update (hus u hu)
  · intro rk v hv
    simp at hv

/-- A block put into the empty store is returned for every key of its class. -/
theorem get_put_empty (H : Bytes → Bytes) {b : Block} {k : Key} (hk : b.key.Equiv k) :
    ((mapStore ⟨H, false⟩).get k ((mapStore ⟨H, false⟩).updates [.put b] ∅)).1 =
      .ok ⟨k, b.data⟩ := by
  have hlookup : ((mapStore ⟨H, false⟩).updates [.put b] ∅).lookup (rawKey k) =
      some (.bytes b.data) := by
    rw [← rawKey_eq_iff.mpr hk]
    exact mapStore.lookup_update_put _ ∅ b
  simp [mapStore.get_eq, hlookup]

/-- **Content integrity of `Get`.** For a hash function `H`, a key and the data
that may be put, `Get` of the key returns only intact blocks after every sequence
of updates of the empty store exactly if no such data hashes to another key of
the key's class. -/
theorem getIntact_iff (H : Bytes → Bytes) (P : Bytes → Prop) (k : Key) :
    (∀ us, PutsNewBlocks ⟨H, false⟩ P us → GetIntact ⟨H, false⟩ us k) ↔
      ∀ data, P data → Key.Equiv (H data) k → H data = k := by
  constructor
  · intro h data hP hequiv
    have hus : PutsNewBlocks ⟨H, false⟩ P [.put (newBlock ⟨H, false⟩ data)] := by
      intro u hu b hb
      exact ⟨data, hP, by simpa [hb] using hu⟩
    exact (h _ hus _ (get_put_empty H hequiv)).2
  · intro h us hus b hget
    rw [mapStore.get_eq] at hget
    cases hfound : ((mapStore ⟨H, false⟩).updates us ∅).lookup (rawKey k) with
    | none => simp [hfound] at hget
    | some v =>
      obtain ⟨data, hP, rfl, hrk⟩ := holdsHashed_updates hus (rawKey k) v hfound
      have hb : (⟨k, data⟩ : Block) = b := by simpa [hfound] using hget
      subst hb
      exact ⟨rfl, h data hP (rawKey_eq_iff.mp hrk.symm)⟩

/-- A hash function onto one SHA2-256 multihash. -/
def constantHash (_ : Bytes) : Bytes := 0x12 :: 0x20 :: List.replicate 32 0x61

/-- After putting the empty block, asking for its key behind a slash returns the
block under a label that is not its hash. -/
theorem not_getIntact_slash_cons :
    (∀ data, Multihash.IsMultihash (constantHash data)) ∧
    PutsNewBlocks ⟨constantHash, false⟩ (fun _ => True)
      [.put (newBlock ⟨constantHash, false⟩ [])] ∧
    ¬ GetIntact ⟨constantHash, false⟩ [.put (newBlock ⟨constantHash, false⟩ [])]
      (slash :: constantHash []) := by
  have hmultihash : Multihash.IsMultihash (constantHash []) := by decide
  refine ⟨fun _ => hmultihash, ?_, ?_⟩
  · intro u hu b hb
    exact ⟨[], trivial, by simpa [hb] using hu⟩
  · intro h
    have hintact := h _ (get_put_empty constantHash (by decide))
    exact absurd hintact.2 (by decide)

end GoBlocks
