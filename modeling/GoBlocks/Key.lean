import GoBlocks.Datastore.Key

/-!
# Block keys and their datastore keys

A block key is the binary multihash of the block, used as a Go string. Stores
index it through `DsKey`, which cleans it as a path, so different block keys may
share one datastore key. The keys that survive the conversion and its inverse
`KeyFromDsKey` are exactly the canonical ones: the empty key and the keys all of
whose slash-separated components are proper names.
-/

namespace GoBlocks

open GoBlocks.Path

/-- `key.Key`: a string representation of a multihash for use with maps. -/
abbrev Key := Bytes

/-- `Key.DsKey` returns a datastore key. -/
def Key.dsKey (k : Key) : Ds.Key := Ds.newKey k

/-- `KeyFromDsKey` drops the leading slash of a datastore key. -/
def keyFromDsKey (dsk : Ds.Key) : Key := dsk.string.tail

/-- Two block keys name the same path: `path.Clean("/"+k) = path.Clean("/"+k')`. -/
def Key.Equiv (k k' : Key) : Prop := clean (slash :: k) = clean (slash :: k')

/-- It can be decided whether two keys are equivalent. -/
instance (k k' : Key) : Decidable (k.Equiv k') := inferInstanceAs (Decidable (_ = _))

/-- A key that is empty or has only proper names between its slashes. -/
def Key.Canonical (k : Key) : Prop :=
  k = [] ∨ ∀ e ∈ elements k, e ≠ [] ∧ e ≠ [dot] ∧ e ≠ [dot, dot]

/-- It can be decided whether a key is canonical. -/
instance (k : Key) : Decidable k.Canonical := inferInstanceAs (Decidable (_ ∨ _))

/-- Naming the same path is the same as having equal datastore keys. -/
theorem Key.equiv_iff {k k' : Key} : k.Equiv k' ↔ k.dsKey = k'.dsKey := by
  rw [Ds.Key.ext_iff]
  rfl

/-- The key of a datastore key is the join of its names. -/
theorem keyFromDsKey_eq (dsk : Ds.Key) : keyFromDsKey dsk = join dsk.names := by
  rw [keyFromDsKey, dsk.string_eq, List.tail_cons]

/-- The datastore key of a converted datastore key is the original one. -/
@[simp] theorem dsKey_keyFromDsKey (dsk : Ds.Key) : (keyFromDsKey dsk).dsKey = dsk := by
  apply Ds.Key.ext_names
  rw [keyFromDsKey_eq, Key.dsKey,
    Ds.newKey_join_names fun _ hn => Ds.Key.isName_of_mem_names hn]

/-- `KeyFromDsKey` is injective. -/
theorem keyFromDsKey_injective : Function.Injective keyFromDsKey :=
  Function.LeftInverse.injective dsKey_keyFromDsKey

/-- A join of proper names is a canonical key. -/
theorem Key.canonical_join {ns : List Bytes} (hns : ∀ n ∈ ns, IsName n) :
    Key.Canonical (join ns) := by
  by_cases hnil : ns = []
  · subst hnil
    exact Or.inl rfl
  · right
    intro e he
    rw [elements_join hnil fun n hn => (hns n hn).2.2.2] at he
    exact ⟨(hns e he).1, (hns e he).2.1, (hns e he).2.2.1⟩

/-- Keys read back from a datastore are canonical. -/
theorem canonical_keyFromDsKey (dsk : Ds.Key) : (keyFromDsKey dsk).Canonical := by
  rw [keyFromDsKey_eq]
  exact Key.canonical_join fun _ hn => Ds.Key.isName_of_mem_names hn

/-- The names of a canonical key are its components. -/
theorem Key.Canonical.join_names {k : Key} (hk : k.Canonical) : join (Path.names k) = k := by
  rcases hk with rfl | hk
  · rfl
  · have hnames : ∀ e ∈ elements k, IsName e := fun e he =>
      ⟨(hk e he).1, (hk e he).2.1, (hk e he).2.2, slash_notMem_of_mem_elements he⟩
    conv_lhs => rw [← join_elements k, names_join hnames]
    exact join_elements k

/-- The conversion to a datastore key loses nothing exactly on canonical keys. -/
theorem keyFromDsKey_dsKey_iff {k : Key} : keyFromDsKey k.dsKey = k ↔ k.Canonical := by
  constructor
  · intro h
    rw [← h]
    exact canonical_keyFromDsKey _
  · intro hk
    rw [keyFromDsKey_eq, Key.dsKey, Ds.newKey_names, hk.join_names]

/-- **Domain of the round trip.** A key survives the conversion to a datastore key and back
exactly if it is empty or all its components are proper names, and every datastore key built
by `NewKey` survives the conversion to a key and back. -/
theorem dsKey_round_trip (k : Key) (s : Bytes) :
    (keyFromDsKey k.dsKey = k ↔
      k = [] ∨ ∀ e ∈ elements k, e ≠ [] ∧ e ≠ [dot] ∧ e ≠ [dot, dot]) ∧
    (keyFromDsKey (Ds.newKey s)).dsKey = Ds.newKey s :=
  ⟨keyFromDsKey_dsKey_iff, dsKey_keyFromDsKey (Ds.newKey s)⟩

end GoBlocks
