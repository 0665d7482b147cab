import GoBlocks.Base58
import GoBlocks.Datastore.Basic

/-!
# The base58 key converter

`B58KeyConverter` rewrites a datastore key component by component: `ConvertKey`
encodes every namespace in base58 and `InvertKey` decodes it again. Both append
the results to the root key one by one, and every append cleans the path. A base58
text of a proper name is a proper name, so that cleaning changes nothing, and the
root key, whose only namespace is empty, is kept.
-/

namespace GoBlocks

open GoBlocks.Path

/-- The common loop of the converter: a key is built from the root by appending
`f n` for each namespace `n`. -/
def mapNamespaces (f : Bytes → Bytes) (dsk : Ds.Key) : Ds.Key :=
  dsk.namespaces.foldl (fun k n => k.childString (f n)) (Ds.newKey [slash])

/-- `B58KeyConverter`, for `keytransform` datastores. The inversion never panics. -/
def b58KeyConverter : Ds.KeyTransform where
  convertKey dsk := mapNamespaces Base58.encode dsk
  invertKey dsk := some (mapNamespaces Base58.decode dsk)

/-! ## The loop -/

/-- Appending proper names one by one. -/
theorem names_foldl_childString {f : Bytes → Bytes} {ns : List Bytes}
    (hns : ∀ n ∈ ns, IsName (f n)) (k : Ds.Key) :
    (ns.foldl (fun k n => k.childString (f n)) k).names = k.names ++ ns.map f := by
  induction ns generalizing k with
  | nil => simp
  | cons n ns ih =>
    rw [List.foldl_cons, ih (fun n' hn' => hns n' (List.mem_cons_of_mem _ hn')),
      k.childString_names (hns n (List.mem_cons_self ..)), List.map_cons, List.append_assoc,
      List.singleton_append]

/-- The loop maps the names of a key if it keeps the empty string and makes proper
names of them. -/
theorem mapNamespaces_names {f : Bytes → Bytes} (hnil : f [] = []) {dsk : Ds.Key}
    (hdsk : ∀ n ∈ dsk.names, IsName (f n)) : (mapNamespaces f dsk).names = dsk.names.map f := by
  have hroot : (Ds.newKey [slash]).names = [] := by decide
  rw [mapNamespaces, dsk.namespaces_eq]
  split
  next hempty =>
    rw [List.foldl_cons, List.foldl_nil, hnil, Ds.Key.childString_nil, hroot, hempty, List.map_nil]
  next => rw [names_foldl_childString hdsk, hroot, List.nil_append]

/-! ## Base58 components -/

/-- The base58 text of a proper name is a proper name. -/
theorem isName_encode {n : Bytes} (hn : IsName n) : IsName (Base58.encode n) := by
  have hdot : dot ∉ Base58.btcAlphabet.chars := by decide
  have hslash : slash ∉ Base58.btcAlphabet.chars := by decide
  have hchars : ∀ c ∈ Base58.encode n, c ∈ Base58.btcAlphabet.chars := fun c hc =>
    Base58.mem_chars_of_mem_encode hc
  refine ⟨?_, ?_, ?_, fun h => hslash (hchars slash h)⟩
  · exact fun h => hn.1 (Base58.encode_eq_nil_iff.mp h)
  · exact fun h => hdot (hchars dot (by simp [h]))
  · exact fun h => hdot (hchars dot (by simp [h]))

/-- `ConvertKey` encodes the names of a key. -/
theorem convertKey_names (a : Ds.Key) :
    (b58KeyConverter.convertKey a).names = a.names.map Base58.encode :=
  mapNamespaces_names (Base58.encode_eq_nil_iff.mpr rfl) fun _ hn =>
    isName_encode (Ds.Key.isName_of_mem_names hn)

/-- Decoding the names of a converted key restores the names. -/
theorem map_decode_convertKey_names (a : Ds.Key) :
    (b58KeyConverter.convertKey a).names.map Base58.decode = a.names := by
  rw [convertKey_names, List.map_map]
  calc a.names.map (Base58.decode ∘ Base58.encode) = a.names.map id :=
        List.map_congr_left fun n _ => Base58.decode_encode n
    _ = a.names := List.map_id _

/-- `InvertKey` undoes `ConvertKey`. -/
theorem invertKey_convertKey (a : Ds.Key) :
    b58KeyConverter.invertKey (b58KeyConverter.convertKey a) = some a := by
  have hnames : ∀ n ∈ (b58KeyConverter.convertKey a).names, IsName (Base58.decode n) := by
    intro n hn
    have hmem : Base58.decode n ∈ a.names := by
      rw [← map_decode_convertKey_names a]
      exact List.mem_map_of_mem hn
    exact Ds.Key.isName_of_mem_names hmem
  have hinvert : mapNamespaces Base58.decode (b58KeyConverter.convertKey a) = a := by
    apply Ds.Key.ext_names
    rw [mapNamespaces_names Base58.decode_nil hnames, map_decode_convertKey_names]
  exact congrArg some hinvert

/-- `ConvertKey` takes children to children. -/
theorem convertKey_child (a c : Ds.Key) : b58KeyConverter.convertKey (a.child c) =
    (b58KeyConverter.convertKey a).child (b58KeyConverter.convertKey c) := by
  apply Ds.Key.ext_names
  rw [convertKey_names, Ds.Key.child_names, Ds.Key.child_names, convertKey_names, convertKey_names,
    List.map_append]

/-- `ConvertKey` encodes the namespaces of a key one by one, those of the root
included. -/
theorem convertKey_namespaces (a : Ds.Key) :
    (b58KeyConverter.convertKey a).namespaces = a.namespaces.map Base58.encode := by
  rw [Ds.Key.namespaces_eq, Ds.Key.namespaces_eq, convertKey_names]
  by_cases hroot : a.names = []
  · simp [hroot]
  · simp [hroot]

/-- **The base58 key converter is invertible and keeps the structure of keys.** For
keys built from arbitrary strings, `InvertKey` undoes `ConvertKey`, which is
injective, takes children to children, and maps the namespaces of a key one to one
and in order to their base58 texts. -/
theorem b58KeyConverter_lossless (s t : Bytes) :
    b58KeyConverter.invertKey (b58KeyConverter.convertKey (Ds.newKey s)) = some (Ds.newKey s) ∧
    b58KeyConverter.convertKey ((Ds.newKey s).child (Ds.newKey t)) =
      (b58KeyConverter.convertKey (Ds.newKey s)).child (b58KeyConverter.convertKey (Ds.newKey t)) ∧
    (b58KeyConverter.convertKey (Ds.newKey s) = b58KeyConverter.convertKey (Ds.newKey t) →
      Ds.newKey s = Ds.newKey t) ∧
    (b58KeyConverter.convertKey (Ds.newKey s)).namespaces =
      (Ds.newKey s).namespaces.map Base58.encode ∧
    Function.Injective Base58.encode := by
  refine ⟨invertKey_convertKey _, convertKey_child _ _, ?_, convertKey_namespaces _,
    Base58.encode_injective⟩
  intro h
  have hinvert := congrArg b58KeyConverter.invertKey h
  rw [invertKey_convertKey, invertKey_convertKey] at hinvert
  exact Option.some.inj hinvert

end GoBlocks
