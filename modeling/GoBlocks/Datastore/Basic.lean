import GoBlocks.Datastore.Query
import Mathlib.Data.Finmap

/-!
# Datastores

A datastore is given by the calls of its interface. A point call takes the
state of the store to a result and a new state, and a query relates the state
to the result lists that draining it may give. This file models the in-memory
`MapDatastore`, the key transformation `keytransform` and the key prefix
`namespace` that the blockstore puts in front of it.
-/

namespace GoBlocks.Ds

open GoBlocks.Path

/-- The `Datastore` interface over a state type. -/
structure Datastore (σ : Type) where
  /-- `Put` stores the value named by the key. -/
  put : Key → Value → σ → Except Err Unit × σ
  /-- `Get` retrieves the value named by the key. -/
  get : Key → σ → Except Err Value × σ
  /-- `Has` returns whether the key is mapped to a value. -/
  has : Key → σ → Except Err Bool × σ
  /-- `Delete` removes the value for the key. -/
  delete : Key → σ → Except Err Unit × σ
  /-- `Query` may deliver this list of results. -/
  query : Query → σ → Except Err (List Result) → Prop

/-- The contents of a `MapDatastore`, a Go map without an order. -/
abbrev KeyMap := Finmap fun _ : Key => Value

/-- Ranging over the map may visit its entries in this order. -/
def KeyMap.Iterates (d : KeyMap) (order : List (Key × Value)) : Prop :=
  (order.map fun e => (⟨e.1, e.2⟩ : Sigma fun _ : Key => Value) : Multiset _) = d.entries

/-- The results of a query that visits the entries in the given order. -/
def queryInOrder (q : Query) (order : List (Key × Value)) : List Result :=
  naiveQueryApply q (resultsWithEntries (order.map fun e => ⟨e.1.string, e.2⟩))

/-- `MapDatastore` uses a standard Go map for internal storage. -/
def mapDatastore : Datastore KeyMap where
  put k v d := (.ok (), d.insert k v)
  get k d :=
    match d.lookup k with
    | none => (.error .dsNotFound, d)
    | some v => (.ok v, d)
  has k d := (.ok (d.lookup k).isSome, d)
  delete k d :=
    if (d.lookup k).isSome then (.ok (), d.erase k) else (.error .dsNotFound, d)
  query q d r := ∃ order, d.Iterates order ∧ r = .ok (queryInOrder q order)

/-- A `KeyTransform`: a pair of functions for (invertibly) transforming keys.
`none` is the panic of an inversion that meets a key it does not expect. -/
structure KeyTransform where
  /-- `ConvertKey`. -/
  convertKey : Key → Key
  /-- `InvertKey`. -/
  invertKey : Key → Option Key

/-- One result on its way out of the `keytransform` datastore: the key is
inverted unless the result is an error. -/
def ktdsResult (t : KeyTransform) (r : Result) : Option Result :=
  if r.error.isSome then some r
  else (t.invertKey (newKey r.entry.key)).map fun k => ⟨⟨k.string, r.entry.value⟩, none⟩

/-- The `keytransform` datastore: every point call transforms its key first, and
a query inverts the keys on the way back out. -/
def ktds {σ : Type} (child : Datastore σ) (t : KeyTransform) : Datastore σ where
  put k v := child.put (t.convertKey k) v
  get k := child.get (t.convertKey k)
  has k := child.has (t.convertKey k)
  delete k := child.delete (t.convertKey k)
  query q s r :=
    (∃ e, child.query q s (.error e) ∧ r = .error e) ∨
      ∃ rs out, child.query q s (.ok rs) ∧ rs.mapM (ktdsResult t) = some out ∧ r = .ok out

/-- `strings.TrimPrefix`. -/
def trimPrefix (s p : Bytes) : Bytes := if p.isPrefixOf s then s.drop p.length else s

/-- `PrefixTransform` adds and removes the given prefix key. The inversion
panics if the prefix is not found. -/
def prefixTransform (pre : Key) : KeyTransform where
  convertKey k := pre.child k
  invertKey k :=
    if pre.isAncestorOf k then some (newKey (trimPrefix k.string pre.string)) else none

/-- One result on its way out of the namespace: errors pass, foreign keys are
skipped, and the prefix is removed from the others. The test for foreign keys
keeps the inversion from panicking. -/
def namespaceResult (pre : Key) (t : KeyTransform) (r : Result) : Option Result :=
  if r.error.isSome then some r
  else
    let k := newKey r.entry.key
    if pre.isAncestorOf k then
      (t.invertKey k).map fun k' => ⟨⟨k'.string, r.entry.value⟩, none⟩
    else none

/-- `namespace.Wrap` wraps a given datastore with a key prefix. It is the
`keytransform` datastore of the prefix with a `Query` of its own. -/
def wrap {σ : Type} (child : Datastore σ) (pre : Key) : Datastore σ :=
  { ktds child (prefixTransform pre) with
    query := fun q s r => ∃ r₀, child.query q s r₀ ∧
      r = r₀.map (List.filterMap (namespaceResult pre (prefixTransform pre))) }

end GoBlocks.Ds
