import GoBlocks.Blockstore.MapStore
import Mathlib.Algebra.Order.Group.Multiset

/-!
# Retrieving blocks

`GetBlock` asks the blockstore for a key and then, if the key is not found, the
exchange. `GetBlocks` asks the blockstore for each of a list of keys and then the
exchange for all the others at once. The two tell the errors of the blockstore apart
in different ways, and `GetBlocks` uses the exchange whether there is one or not. They
agree exactly if there is an exchange and it has no block for a key on which the
blockstore fails for another reason.
-/

namespace GoBlocks

/-- The retrieving calls of an exchange that nobody changes meanwhile. -/
structure Retriever where
  /-- `GetBlock`. -/
  getBlock : Key → Except Err Block
  /-- `GetBlocks`, with the blocks it delivers until it closes its channel. -/
  getBlocks : List Key → Except Err (List Block)

namespace Retriever

/-- The blocks that `GetBlocks` delivers, none if it fails. -/
def delivered (x : Retriever) (ks : List Key) : List Block :=
  match x.getBlocks ks with
  | .ok bs => bs
  | .error _ => []

/-- The block that `GetBlock` delivers. -/
def block? (x : Retriever) (k : Key) : Option Block := (x.getBlock k).toOption

/-- `GetBlocks` delivers the blocks that `GetBlock` delivers for the keys, in any
order. -/
def Consistent (x : Retriever) : Prop :=
  ∀ ks, (x.delivered ks : Multiset Block) = (ks.filterMap x.block? : List Block)

end Retriever

namespace BlockService

variable {σ : Type} (bs : Blockstore σ) (rem : Option Retriever)

/-- `BlockService.GetBlock`. -/
def getBlock (k : Key) (s : σ) : Except Err Block × σ :=
  match bs.get k s with
  | (.ok block, s') => (.ok block, s')
  | (.error .notFound, s') =>
    match rem with
    | some x => (x.getBlock k, s')
    | none => (.error .blockserviceNotFound, s')
  | (.error _, s') => (.error .blockserviceNotFound, s')

/-- The loop of `BlockService.GetBlocks`: the hits and the misses. -/
def getBlocksLoop : List Key → σ → (List Block × List Key) × σ
  | [], s => (([], []), s)
  | k :: ks, s =>
    match bs.get k s with
    | (.error _, s') =>
      let r := getBlocksLoop ks s'
      ((r.1.1, k :: r.1.2), r.2)
    | (.ok hit, s') =>
      let r := getBlocksLoop ks s'
      ((hit :: r.1.1, r.1.2), r.2)

/-- `BlockService.GetBlocks` with a reader that drains the channel. The call of a `nil`
exchange panics. -/
def getBlocks (ks : List Key) (s : σ) : Option (List Block) × σ :=
  let r := getBlocksLoop bs ks s
  match rem with
  | none => (none, r.2)
  | some x => (some (r.1.1 ++ x.delivered r.1.2), r.2)

/-- The blocks that `GetBlock` returns without an error for the keys. -/
def getEach (ks : List Key) (s : σ) : List Block :=
  ks.filterMap fun k => (getBlock bs rem k s).1.toOption

/-- The blockstore fails on the key, and not because the key is not found. -/
def failsOtherwise (s : σ) (k : Key) : Bool :=
  match (bs.get k s).1 with
  | .ok _ => false
  | .error err => err ≠ .notFound

/-- `Get` does not change the state of the blockstore. -/
def ReadOnly : Prop := ∀ k s, (bs.get k s).2 = s

variable {bs}

/-- The hits and what the exchange has for the misses are the blocks of `GetBlock` and those
that the exchange has for keys on which the blockstore fails for another reason. -/
theorem getBlocksLoop_add (hread : ReadOnly bs) (x : Retriever) (ks : List Key) (s : σ) :
    ((getBlocksLoop bs ks s).1.1 : Multiset Block) +
        ((getBlocksLoop bs ks s).1.2.filterMap x.block? : List Block) =
      (getEach bs (some x) ks s : Multiset Block) +
        ((ks.filter (failsOtherwise bs s)).filterMap x.block? : List Block) := by
  induction ks with
  | nil => rfl
  | cons k ks ih =>
    have hs := hread k s
    simp only [Multiset.coe_add, Multiset.coe_eq_coe] at ih ⊢
    rcases hget : bs.get k s with ⟨r, s'⟩
    obtain rfl : s' = s := by rw [← hs, hget]
    cases r with
    | ok hit =>
      have hfails : failsOtherwise bs s' k = false := by simp [failsOtherwise, hget]
      have heach : getEach bs (some x) (k :: ks) s' = hit :: getEach bs (some x) ks s' := by
        simp [getEach, getBlock, hget, Except.toOption]
      simp only [getBlocksLoop, hget, heach, List.filter_cons, hfails, Bool.false_eq_true, if_false]
      exact ih.cons hit
    | error err =>
      by_cases herr : err = .notFound
      · subst herr
        have hfails : failsOtherwise bs s' k = false := by simp [failsOtherwise, hget]
        have heach : getEach bs (some x) (k :: ks) s' =
            (x.block? k).toList ++ getEach bs (some x) ks s' := by
          cases hk : x.getBlock k <;>
            simp [getEach, getBlock, hget, Retriever.block?, hk, Except.toOption]
        simp only [getBlocksLoop, hget, heach, List.filter_cons, hfails, Bool.false_eq_true,
          if_false, List.filterMap_cons]
        -- The exchange is asked for the key by both.
        cases x.block? k with
        | none => exact ih
        | some b => exact List.perm_middle.trans (ih.cons b)
      · have hfails : failsOtherwise bs s' k = true := by simp [failsOtherwise, hget, herr]
        have heach : getEach bs (some x) (k :: ks) s' = getEach bs (some x) ks s' := by
          cases err <;> simp_all [getEach, getBlock, Except.toOption]
        simp only [getBlocksLoop, hget, heach, List.filter_cons, hfails, if_true,
          List.filterMap_cons]
        -- The exchange is asked for the key by `GetBlocks` only.
        cases x.block? k with
        | none => exact ih
        | some b =>
          exact List.perm_middle.trans ((ih.cons b).trans List.perm_middle.symm)

/-- With an exchange whose own two calls agree, `GetBlocks` delivers the blocks of
`GetBlock` and those that the exchange has for keys on which the blockstore fails for
another reason. -/
theorem getBlocks_add (hread : ReadOnly bs) {x : Retriever} (hx : x.Consistent) (ks : List Key)
    (s : σ) : ∃ out, (getBlocks bs (some x) ks s).1 = some out ∧
      (out : Multiset Block) = (getEach bs (some x) ks s : Multiset Block) +
        ((ks.filter (failsOtherwise bs s)).filterMap x.block? : List Block) := by
  refine ⟨_, rfl, ?_⟩
  rw [← Multiset.coe_add, hx, getBlocksLoop_add hread]

/-- **`GetBlocks` and `GetBlock` agree** over every blockstore that reading does not
change, and every exchange whose own two calls agree: `GetBlocks` does not panic and
delivers the blocks that `GetBlock` returns, up to the order, if and only if there is an
exchange and it has no block for any of the keys on which the blockstore fails for
another reason than that the key is not found. -/
theorem getBlocks_agrees_iff {σ : Type} (bs : Blockstore σ) (hread : ReadOnly bs)
    (rem : Option Retriever) (hrem : ∀ x, rem = some x → x.Consistent) (ks : List Key) (s : σ) :
    (∃ out, (getBlocks bs rem ks s).1 = some out ∧
      (out : Multiset Block) = (getEach bs rem ks s : Multiset Block)) ↔
    ∃ x, rem = some x ∧ ∀ k ∈ ks, failsOtherwise bs s k → ∀ b, x.getBlock k ≠ .ok b := by
  cases rem with
  | none => simp [getBlocks]
  | some x =>
    obtain ⟨out, hout, hadd⟩ := getBlocks_add hread (hrem x rfl) ks s
    have hnone : ∀ k, x.block? k = none ↔ ∀ b, x.getBlock k ≠ .ok b := by
      intro k
      cases hk : x.getBlock k <;> simp [Retriever.block?, hk, Except.toOption]
    simp only [hout, Option.some.injEq, exists_eq_left', hadd, add_eq_left,
      Multiset.coe_eq_zero, List.filterMap_eq_nil_iff, List.mem_filter, and_imp, hnone]

/-- Reading a map blockstore does not change it. -/
theorem readOnly_mapStore (env : HashEnv) : ReadOnly (mapStore env) := by
  intro k d
  rw [mapStore.get_eq]

/-- An exchange that has one block for every key. -/
def generous : Retriever where
  getBlock k := .ok ⟨k, []⟩
  getBlocks ks := .ok (ks.map fun k => ⟨k, []⟩)

/-- The two calls of the generous exchange agree. -/
theorem consistent_generous : generous.Consistent := by
  intro ks
  have hblock : generous.block? = fun k => some ⟨k, []⟩ := rfl
  rw [hblock, List.filterMap_eq_map']
  rfl

/-- A key that the blockstore does not find is delivered by the exchange. -/
theorem getBlocks_agrees_on_missing : ∃ out,
    (getBlocks (mapStore ⟨id, false⟩) (some generous) [[1], [1]] ∅).1 = some out ∧
      (out : Multiset Block) =
        (getEach (mapStore ⟨id, false⟩) (some generous) [[1], [1]] ∅ : Multiset Block) := by
  refine (getBlocks_agrees_iff _ (readOnly_mapStore _) (some generous) ?_ _ ∅).mpr ⟨_, rfl, ?_⟩
  · intro x hx
    cases hx
    exact consistent_generous
  · intro k hk hfails
    simp [failsOtherwise, mapStore.get_eq] at hfails

/-- Without an exchange `GetBlocks` panics even for an empty list of keys. And if the
value under a key is not a byte string, `GetBlocks` delivers the block of the exchange
and `GetBlock` fails. -/
theorem getBlocks_disagrees :
    (getBlocks (mapStore ⟨id, false⟩) none [] ∅).1 = none ∧
    (getBlocks (mapStore ⟨id, false⟩) (some generous) [[1]]
      ((∅ : Ds.KeyMap).insert (rawKey [1]) (.other 0))).1 = some [⟨[1], []⟩] ∧
    getEach (mapStore ⟨id, false⟩) (some generous) [[1]]
      ((∅ : Ds.KeyMap).insert (rawKey [1]) (.other 0)) = [] := by
  refine ⟨rfl, ?_, ?_⟩
  · simp [getBlocks, getBlocksLoop, mapStore.get_eq, Retriever.delivered, generous]
  · simp [getEach, getBlock, mapStore.get_eq, Except.toOption]

end BlockService

end GoBlocks
