import GoBlocks.Blockstore.Basic
import Mathlib.Logic.Function.Basic

/-!
# Stores that are faithful maps

What the write cache may assume of the store below it: the store is a map from
keys to data that keeps the first value put for a key, and none of its calls
fails. The laws fix every reply in terms of the contents and say nothing about
the rest of the state. Two stores agree through a relation of their states when
every call gives both the same reply and keeps the relation.
-/

namespace GoBlocks

namespace Blockstore

variable {σ τ : Type}

/-- The contents of a store: the data of each key. -/
abbrev Contents := Key → Option Bytes

/-- `Put` keeps the first value stored for a key. -/
def Contents.put (m : Contents) (b : Block) : Contents :=
  if (m b.key).isSome then m else Function.update m b.key (some b.data)

/-- A deleted key has no data. -/
def Contents.delete (m : Contents) (k : Key) : Contents := Function.update m k none

/-- The reply of `Get`: the data labelled with the key that was asked for. -/
def Contents.get (m : Contents) (k : Key) : Except Err Block :=
  match m k with
  | some data => .ok ⟨k, data⟩
  | none => .error .notFound

/-- A put key is present. -/
theorem Contents.isSome_put_self (m : Contents) (b : Block) : (m.put b b.key).isSome := by
  unfold put
  split
  · assumption
  · simp

/-- `Put` keeps every present key. -/
theorem Contents.isSome_put {m : Contents} {k : Key} (h : (m k).isSome) (b : Block) :
    (m.put b k).isSome := by
  unfold put
  split
  · exact h
  · by_cases hk : k = b.key
    · simp [hk]
    · rwa [Function.update_of_ne hk]

/-- `Put` of a present key changes nothing. -/
theorem Contents.put_of_isSome {m : Contents} {b : Block} (h : (m b.key).isSome) :
    m.put b = m :=
  if_pos h

/-- The laws of an error-free store that is a faithful map. -/
structure FaithfulMap (bs : Blockstore σ) where
  /-- The data of each key in a state. -/
  contents : σ → Contents
  /-- The error `DeleteBlock` reports for an absent key. -/
  absentErr : Key → Err
  put_reply : ∀ b s, (bs.put b s).1 = .ok ()
  contents_put : ∀ b s, contents (bs.put b s).2 = (contents s).put b
  has_reply : ∀ k s, (bs.has k s).1 = .ok (contents s k).isSome
  contents_has : ∀ k s, contents (bs.has k s).2 = contents s
  get_reply : ∀ k s, (bs.get k s).1 = (contents s).get k
  contents_get : ∀ k s, contents (bs.get k s).2 = contents s
  deleteBlock_reply : ∀ k s, (bs.deleteBlock k s).1 =
    if (contents s k).isSome then .ok () else .error (absentErr k)
  contents_deleteBlock : ∀ k s, contents (bs.deleteBlock k s).2 = (contents s).delete k
  getChan_reply : ∀ ks s, (bs.getChan ks s).1 =
    ks.filterMap fun k => (contents s k).map (Block.mk k)
  contents_getChan : ∀ ks s, contents (bs.getChan ks s).2 = contents s
  /-- The enumerations that may be delivered depend on the contents only. -/
  allKeysChan_congr : ∀ s t r, contents s = contents t →
    (bs.allKeysChan s r ↔ bs.allKeysChan t r)

/-- The store whose state is its contents. `AllKeysChan` delivers the present keys
in any order. -/
def contentsStore : Blockstore Contents where
  put b m := (.ok (), m.put b)
  has k m := (.ok (m k).isSome, m)
  get k m := (m.get k, m)
  deleteBlock k m := (if (m k).isSome then .ok () else .error .dsNotFound, m.delete k)
  getChan ks m := (ks.filterMap fun k => (m k).map (Block.mk k), m)
  allKeysChan m r := ∃ ks, r = .ok ks ∧ ks.Nodup ∧ ∀ k, k ∈ ks ↔ (m k).isSome

/-- The contents themselves are a faithful map. -/
def contentsStore.faithful : FaithfulMap contentsStore where
  contents m := m
  absentErr _ := .dsNotFound
  put_reply _ _ := rfl
  contents_put _ _ := rfl
  has_reply _ _ := rfl
  contents_has _ _ := rfl
  get_reply _ _ := rfl
  contents_get _ _ := rfl
  deleteBlock_reply _ _ := rfl
  contents_deleteBlock _ _ := rfl
  getChan_reply _ _ := rfl
  contents_getChan _ _ := rfl
  allKeysChan_congr _ _ _ h := by rw [h]

/-- The two stores give the same replies in related states and stay related. -/
structure Agree (A : Blockstore σ) (B : Blockstore τ) (R : σ → τ → Prop) : Prop where
  put : ∀ b s t, R s t → (A.put b s).1 = (B.put b t).1 ∧ R (A.put b s).2 (B.put b t).2
  has : ∀ k s t, R s t → (A.has k s).1 = (B.has k t).1 ∧ R (A.has k s).2 (B.has k t).2
  get : ∀ k s t, R s t → (A.get k s).1 = (B.get k t).1 ∧ R (A.get k s).2 (B.get k t).2
  deleteBlock : ∀ k s t, R s t →
    (A.deleteBlock k s).1 = (B.deleteBlock k t).1 ∧ R (A.deleteBlock k s).2 (B.deleteBlock k t).2
  getChan : ∀ ks s t, R s t →
    (A.getChan ks s).1 = (B.getChan ks t).1 ∧ R (A.getChan ks s).2 (B.getChan ks t).2
  allKeysChan : ∀ s t r, R s t → (A.allKeysChan s r ↔ B.allKeysChan t r)

/-- Agreement is symmetric. -/
theorem Agree.symm {A : Blockstore σ} {B : Blockstore τ} {R : σ → τ → Prop} (h : Agree A B R) :
    Agree B A fun t s => R s t where
  put b t s hR := ⟨(h.put b s t hR).1.symm, (h.put b s t hR).2⟩
  has k t s hR := ⟨(h.has k s t hR).1.symm, (h.has k s t hR).2⟩
  get k t s hR := ⟨(h.get k s t hR).1.symm, (h.get k s t hR).2⟩
  deleteBlock k t s hR := ⟨(h.deleteBlock k s t hR).1.symm, (h.deleteBlock k s t hR).2⟩
  getChan ks t s hR := ⟨(h.getChan ks s t hR).1.symm, (h.getChan ks s t hR).2⟩
  allKeysChan t s r hR := (h.allKeysChan s t r hR).symm

/-- A reply and a state that agree with a computed pair give a step to it. -/
theorem exists_step_of_agree {ρ : Type} {R : σ → τ → Prop} {p : ρ × σ} {q : ρ × τ} {r : ρ}
    {s' : σ} (hp : p = (r, s')) (h : p.1 = q.1 ∧ R p.2 q.2) : ∃ t', q = (r, t') ∧ R s' t' := by
  subst hp
  exact ⟨q.2, Prod.ext h.1.symm rfl, h.2⟩

/-- Stores that agree simulate each other's sequential use. -/
theorem Agree.simulates {A : Blockstore σ} {B : Blockstore τ} {R : σ → τ → Prop}
    (h : Agree A B R) : LTS.Simulates A.lts B.lts R := by
  rintro s t ⟨call, reply⟩ s' hR hstep
  cases call with
  | put b =>
    cases reply <;> simp only [lts, Step] at hstep ⊢
    exact exists_step_of_agree hstep (h.put b s t hR)
  | has k =>
    cases reply <;> simp only [lts, Step] at hstep ⊢
    exact exists_step_of_agree hstep (h.has k s t hR)
  | get k =>
    cases reply <;> simp only [lts, Step] at hstep ⊢
    exact exists_step_of_agree hstep (h.get k s t hR)
  | deleteBlock k =>
    cases reply <;> simp only [lts, Step] at hstep ⊢
    exact exists_step_of_agree hstep (h.deleteBlock k s t hR)
  | getChan ks =>
    cases reply <;> simp only [lts, Step] at hstep ⊢
    exact exists_step_of_agree hstep (h.getChan ks s t hR)
  | allKeysChan =>
    cases reply <;> simp only [lts, Step] at hstep ⊢
    obtain ⟨hkeys, rfl⟩ := hstep
    exact ⟨t, ⟨(h.allKeysChan _ t _ hR).mp hkeys, rfl⟩, hR⟩

end Blockstore

end GoBlocks
