import GoBlocks.Block
import Mathlib.Data.Int.Notation

/-!
# Query results

A query delivers a stream of results, each an entry or an error. The streams
are modelled by the lists that a reader receives who drains them. The naive
operations filter, order and cut such a stream one stage after the other.
-/

namespace GoBlocks.Ds

/-- A value of type `interface{}`: a byte slice, or a value of another dynamic
type that no modelled function looks into. -/
inductive Value where
  | bytes (data : Bytes)
  | other (v : ℕ)
  deriving DecidableEq

/-- `Entry` is a query result entry. -/
structure Entry where
  /-- The text of the key. -/
  key : Bytes
  /-- The value stored under the key. -/
  value : Value

/-- `Result` is an entry that includes an error, so that the client may be
warned about internal errors. -/
structure Result where
  /-- The entry. -/
  entry : Entry
  /-- The error, if there was one. -/
  error : Option Err

/-- `Query` represents storage queries. -/
structure Query where
  /-- Namespaces the query to results whose keys have the prefix. -/
  pre : Bytes
  /-- Filters, applied one after the other. -/
  filters : List (Entry → Bool)
  /-- Orders, applied one after the other. -/
  orders : List (List Entry → List Entry)
  /-- Maximum number of results. -/
  limit : ℤ
  /-- Number of results to skip. -/
  offset : ℤ
  /-- Return only keys. -/
  keysOnly : Bool

/-- `ResultsWithEntries` delivers a list of entries without errors. -/
def resultsWithEntries (es : List Entry) : List Result := es.map fun e => ⟨e, none⟩

/-- `FilterKeyPrefix`. -/
def filterKeyPrefix (p : Bytes) (e : Entry) : Bool := p.isPrefixOf e.key

/-- `NaiveFilter` applies a filter to the results; errors pass. -/
def naiveFilter (f : Entry → Bool) (rs : List Result) : List Result :=
  rs.filter fun r => r.error.isSome || f r.entry

/-- One result in the goroutine of `NaiveFilter`: it is sent on or skipped. -/
def filterResult (f : Entry → Bool) (r : Result) : Option Result :=
  if r.error.isSome || f r.entry then some r else none

/-- The results that the goroutine of `NaiveFilter` sends on. -/
theorem naiveFilter_eq_filterMap (f : Entry → Bool) (rs : List Result) :
    naiveFilter f rs = rs.filterMap (filterResult f) := by
  induction rs with
  | nil => rfl
  | cons r rs ih =>
    rw [naiveFilter, List.filter_cons, ← naiveFilter, ih, List.filterMap_cons, filterResult]
    split <;> rfl

/-- `NaiveLimit` truncates the results after `l` of them were counted. -/
def naiveLimit (limit : ℤ) : ℤ → List Result → List Result
  | _, [] => []
  | l, r :: rs =>
    if r.error.isSome then r :: naiveLimit limit l rs
    else if 0 < limit ∧ limit ≤ l + 1 then [r]
    else r :: naiveLimit limit (l + 1) rs

/-- `NaiveOffset` skips results, of which `sent` were skipped before. An error
is delivered at once and then treated like any other result. -/
def naiveOffset (offset : ℤ) : ℤ → List Result → List Result
  | _, [] => []
  | sent, r :: rs =>
    (if r.error.isSome then [r] else []) ++
      if sent < offset then naiveOffset offset (sent + 1) rs
      else r :: naiveOffset offset sent rs

/-- `NaiveOrder` delivers the errors as they come and then all entries, sorted. -/
def naiveOrder (sort : List Entry → List Entry) (rs : List Result) : List Result :=
  rs.filter (fun r => r.error.isSome) ++ resultsWithEntries (sort (rs.map Result.entry))

/-- `NaiveQueryApply`. The limit stage is called with the offset of the query. -/
def naiveQueryApply (q : Query) (rs : List Result) : List Result :=
  let rs := if q.pre = [] then rs else naiveFilter (filterKeyPrefix q.pre) rs
  let rs := q.filters.foldl (fun rs f => naiveFilter f rs) rs
  let rs := q.orders.foldl (fun rs o => naiveOrder o rs) rs
  let rs := if q.offset = 0 then rs else naiveOffset q.offset 0 rs
  if q.limit = 0 then rs else naiveLimit q.offset 0 rs

/-- The query for all keys below a prefix. -/
def keysQuery (pre : Bytes) : Query := ⟨pre, [], [], 0, 0, true⟩

/-- A query for the keys below a nonempty prefix only filters. -/
theorem naiveQueryApply_keysQuery {pre : Bytes} (hpre : pre ≠ []) (rs : List Result) :
    naiveQueryApply (keysQuery pre) rs = naiveFilter (filterKeyPrefix pre) rs := by
  simp [naiveQueryApply, keysQuery, hpre]

end GoBlocks.Ds
