import GoBlocks.Blockstore.AllKeys

/-!
# Confinement to the blocks namespace

Whatever bytes a block key has, its raw datastore key is `/blocks` or lies below
it: cleaning resolves every `..` of the key before the prefix is put in front, so
none of them can climb out of the namespace. The calls of the blockstore therefore
neither change nor read the entries of other users of the datastore. Only the
enumeration of the keys looks at raw keys in another way.
-/

namespace GoBlocks

open GoBlocks.Path Blockstore

/-- The raw key is `/blocks` or starts with `/blocks/`. -/
def Within (rk : Ds.Key) : Prop :=
  rk.string = slash :: blocksName ∨ slash :: blocksName ++ [slash] <+: rk.string

/-- It can be decided whether a raw key is within `/blocks`. -/
instance (rk : Ds.Key) : Decidable (Within rk) := inferInstanceAs (Decidable (_ ∨ _))

/-- No block key escapes the namespace. -/
theorem within_rawKey (k : Key) : Within (rawKey k) := by
  by_cases hk : k.dsKey.names = []
  · left
    rw [Ds.Key.string_eq, rawKey_names, hk]
    rfl
  · right
    rw [rawKey_string hk, k.dsKey.string_eq, blockPrefix_string]
    exact ⟨join k.dsKey.names, by simp⟩

/-! ## The raw calls -/

/-- The point calls of two datastores agree inside the namespace. -/
structure SameWithin {σ : Type} (D D' : Ds.Datastore σ) : Prop where
  put : ∀ rk, Within rk → D.put rk = D'.put rk
  get : ∀ rk, Within rk → D.get rk = D'.get rk
  has : ∀ rk, Within rk → D.has rk = D'.has rk
  delete : ∀ rk, Within rk → D.delete rk = D'.delete rk

section Calls

variable {σ : Type} {D D' : Ds.Datastore σ}

/-- `Get` makes raw calls inside the namespace only. -/
theorem SameWithin.get_eq (h : SameWithin D D') (env : HashEnv) (k : Key) :
    (Blockstore.new env D).get k = (Blockstore.new env D').get k := by
  have hget : (Ds.wrap D blockPrefix).get k.dsKey = (Ds.wrap D' blockPrefix).get k.dsKey :=
    h.get _ (within_rawKey k)
  funext s
  change dsGet env (Ds.wrap D blockPrefix) k s = dsGet env (Ds.wrap D' blockPrefix) k s
  simp only [dsGet, hget]

/-- `Put` makes raw calls inside the namespace only. -/
theorem SameWithin.put_eq (h : SameWithin D D') (env : HashEnv) (b : Block) :
    (Blockstore.new env D).put b = (Blockstore.new env D').put b := by
  have hhas : (Ds.wrap D blockPrefix).has b.key.dsKey = (Ds.wrap D' blockPrefix).has b.key.dsKey :=
    h.has _ (within_rawKey b.key)
  have hput : (Ds.wrap D blockPrefix).put b.key.dsKey = (Ds.wrap D' blockPrefix).put b.key.dsKey :=
    h.put _ (within_rawKey b.key)
  funext s
  change dsPut (Ds.wrap D blockPrefix) b s = dsPut (Ds.wrap D' blockPrefix) b s
  simp only [dsPut, hhas, hput]

end Calls

/-! ## Runs over a map datastore -/

/-- Two contents have the same entries inside the namespace. -/
def AgreeWithin (d d' : Ds.KeyMap) : Prop := ∀ rk, Within rk → d.lookup rk = d'.lookup rk

section Contents

variable {env : HashEnv} {d d' : Ds.KeyMap}

/-- Contents that agree inside the namespace have the same entry for a block key. -/
theorem AgreeWithin.lookup_rawKey (h : AgreeWithin d d') (k : Key) :
    d.lookup (rawKey k) = d'.lookup (rawKey k) := h _ (within_rawKey k)

/-- Storing the same value keeps the agreement. -/
theorem AgreeWithin.insert (h : AgreeWithin d d') (rk : Ds.Key) (v : Ds.Value) :
    AgreeWithin (d.insert rk v) (d'.insert rk v) := by
  intro rk' hrk'
  by_cases heq : rk' = rk
  · subst heq
    rw [Finmap.lookup_insert, Finmap.lookup_insert]
  · rw [Finmap.lookup_insert_of_ne _ heq, Finmap.lookup_insert_of_ne _ heq, h rk' hrk']

/-- Erasing the same key keeps the agreement. -/
theorem AgreeWithin.erase (h : AgreeWithin d d') (rk : Ds.Key) :
    AgreeWithin (d.erase rk) (d'.erase rk) := by
  intro rk' hrk'
  by_cases heq : rk' = rk
  · subst heq
    rw [Finmap.lookup_erase, Finmap.lookup_erase]
  · rw [Finmap.lookup_erase_ne heq, Finmap.lookup_erase_ne heq, h rk' hrk']

/-- `Get` gives the same result on contents that agree. -/
theorem AgreeWithin.get (h : AgreeWithin d d') (k : Key) :
    ((mapStore env).get k d).1 = ((mapStore env).get k d').1 := by
  rw [mapStore.get_eq, mapStore.get_eq, h.lookup_rawKey k]

/-- `GetChan` delivers the same blocks on contents that agree. -/
theorem AgreeWithin.getChan (h : AgreeWithin d d') (ks : List Key) :
    ((mapStore env).getChan ks d).1 = ((mapStore env).getChan ks d').1 := by
  rw [mapStore.getChan_eq, mapStore.getChan_eq]
  exact List.filterMap_congr fun k _ => by rw [h.get k]

/-- The same call on contents that agree leaves contents that agree, and except
for the enumeration it has the same reply. -/
theorem AgreeWithin.step (h : AgreeWithin d d') {c : Call} {r r' : Reply} {e e' : Ds.KeyMap}
    (hstep : (mapStore env).Step d (c, r) e) (hstep' : (mapStore env).Step d' (c, r') e') :
    (c ≠ .allKeysChan → r = r') ∧ AgreeWithin e e' := by
  cases c with
  | put b =>
    cases r <;> cases r' <;> simp only [Blockstore.Step] at hstep hstep'
    rw [mapStore.put_eq, Prod.mk.injEq] at hstep hstep'
    obtain ⟨rfl, rfl⟩ := hstep
    obtain ⟨rfl, rfl⟩ := hstep'
    rw [h.lookup_rawKey b.key]
    refine ⟨fun _ => rfl, ?_⟩
    split
    · exact h
    · exact h.insert _ _
  | has k =>
    cases r <;> cases r' <;> simp only [Blockstore.Step] at hstep hstep'
    rw [mapStore.has_eq, Prod.mk.injEq] at hstep hstep'
    obtain ⟨rfl, rfl⟩ := hstep
    obtain ⟨rfl, rfl⟩ := hstep'
    exact ⟨fun _ => by rw [h.lookup_rawKey k], h⟩
  | get k =>
    cases r <;> cases r' <;> simp only [Blockstore.Step] at hstep hstep'
    have hget : ((mapStore env).get k d).1 = ((mapStore env).get k d').1 := h.get k
    rw [hstep, hstep'] at hget
    rw [mapStore.get_eq, Prod.mk.injEq] at hstep hstep'
    obtain ⟨-, rfl⟩ := hstep
    obtain ⟨-, rfl⟩ := hstep'
    exact ⟨fun _ => congrArg _ hget, h⟩
  | deleteBlock k =>
    cases r <;> cases r' <;> simp only [Blockstore.Step] at hstep hstep'
    rw [mapStore.deleteBlock_eq, ← h.lookup_rawKey k] at hstep'
    rw [mapStore.deleteBlock_eq] at hstep
    split at hstep
    next hfound =>
      rw [if_pos hfound] at hstep'
      cases hstep
      cases hstep'
      exact ⟨fun _ => rfl, h.erase _⟩
    next hfound =>
      rw [if_neg hfound] at hstep'
      cases hstep
      cases hstep'
      exact ⟨fun _ => rfl, h⟩
  | getChan ks =>
    cases r <;> cases r' <;> simp only [Blockstore.Step] at hstep hstep'
    have hchan : ((mapStore env).getChan ks d).1 = ((mapStore env).getChan ks d').1 := h.getChan ks
    rw [hstep, hstep'] at hchan
    rw [mapStore.getChan_eq, Prod.mk.injEq] at hstep hstep'
    obtain ⟨-, rfl⟩ := hstep
    obtain ⟨-, rfl⟩ := hstep'
    exact ⟨fun _ => congrArg _ hchan, h⟩
  | allKeysChan =>
    cases r <;> cases r' <;> simp only [Blockstore.Step] at hstep hstep'
    obtain ⟨-, rfl⟩ := hstep
    obtain ⟨-, rfl⟩ := hstep'
    exact ⟨fun hc => absurd rfl hc, h⟩

/-- A call changes the contents by an update at most. -/
theorem eq_or_update_of_step {l : Call × Reply} {e : Ds.KeyMap}
    (hstep : (mapStore env).Step d l e) : e = d ∨ ∃ u, e = (mapStore env).update d u := by
  obtain ⟨c, r⟩ := l
  cases c with
  | put b =>
    cases r <;> simp only [Blockstore.Step] at hstep
    exact .inr ⟨.put b, by rw [Blockstore.update, hstep]⟩
  | deleteBlock k =>
    cases r <;> simp only [Blockstore.Step] at hstep
    exact .inr ⟨.deleteBlock k, by rw [Blockstore.update, hstep]⟩
  | has k =>
    cases r <;> simp only [Blockstore.Step] at hstep
    exact .inl (Prod.mk.inj hstep).2.symm
  | get k =>
    cases r <;> simp only [Blockstore.Step, mapStore.get_eq] at hstep
    exact .inl (Prod.mk.inj hstep).2.symm
  | getChan ks =>
    cases r <;> simp only [Blockstore.Step, mapStore.getChan_eq] at hstep
    exact .inl (Prod.mk.inj hstep).2.symm
  | allKeysChan =>
    cases r <;> simp only [Blockstore.Step] at hstep
    exact .inl hstep.2

/-- A call leaves the entries outside the namespace alone. -/
theorem lookup_of_step {l : Call × Reply} {e : Ds.KeyMap} (hstep : (mapStore env).Step d l e)
    {rk : Ds.Key} (hrk : ¬ Within rk) : e.lookup rk = d.lookup rk := by
  rcases eq_or_update_of_step hstep with rfl | ⟨u, rfl⟩
  · rfl
  · refine mapStore.lookup_update_of_ne env d ?_
    rintro rfl
    exact hrk (within_rawKey u.key)

/-- A run leaves the entries outside the namespace alone. -/
theorem lookup_of_storeRun {ls : List (Call × Reply)} {e : Ds.KeyMap}
    (hrun : (mapStore env).lts.Run d ls e) {rk : Ds.Key} (hrk : ¬ Within rk) :
    e.lookup rk = d.lookup rk := by
  induction hrun with
  | nil d => rfl
  | cons hstep _ ih => rw [ih, lookup_of_step hstep hrk]

/-- The same calls on contents that agree have the same replies, the enumerations
apart, and leave contents that agree. -/
theorem AgreeWithin.run {ls ls' : List (Call × Reply)} {e e' : Ds.KeyMap} (h : AgreeWithin d d')
    (hcalls : ls.map Prod.fst = ls'.map Prod.fst) (hrun : (mapStore env).lts.Run d ls e)
    (hrun' : (mapStore env).lts.Run d' ls' e') :
    List.Forall₂ (fun l l' => l.1 ≠ .allKeysChan → l = l') ls ls' ∧ AgreeWithin e e' := by
  induction hrun generalizing d' ls' with
  | nil d =>
    cases ls' with
    | cons l' ls' => cases hcalls
    | nil =>
      cases hrun'
      exact ⟨.nil, h⟩
  | @cons _ _ _ l ls hstep _ ih =>
    cases ls' with
    | nil => cases hcalls
    | cons l' ls' =>
      obtain ⟨c, r⟩ := l
      obtain ⟨c', r'⟩ := l'
      obtain ⟨rfl, hrest⟩ : c = c' ∧ ls.map Prod.fst = ls'.map Prod.fst := List.cons.inj hcalls
      cases hrun' with
      | cons hstep' hrun' =>
        obtain ⟨hreply, hagree⟩ := h.step hstep hstep'
        obtain ⟨hreplies, hend⟩ := ih hagree hrest hrun'
        exact ⟨.cons (fun hc => by rw [hreply hc]) hreplies, hend⟩

/-- **No key escapes the namespace.** The raw key of every block key is `/blocks`
or lies below it, and over any datastore the point calls of the blockstore depend
on nothing but the raw calls at such keys. Over a map datastore, whatever is called
with whatever keys, the entries outside the namespace are unchanged, and they
influence no reply but those of the enumeration. -/
theorem blockstore_confined (env : HashEnv) :
    (∀ k, Within (rawKey k)) ∧
    (∀ (σ : Type) (D D' : Ds.Datastore σ), SameWithin D D' → ∀ k b,
      (Blockstore.new env D).get k = (Blockstore.new env D').get k ∧
      (Blockstore.new env D).put b = (Blockstore.new env D').put b ∧
      (Blockstore.new env D).has k = (Blockstore.new env D').has k ∧
      (Blockstore.new env D).deleteBlock k = (Blockstore.new env D').deleteBlock k) ∧
    (∀ d ls e, (mapStore env).lts.Run d ls e →
      ∀ rk, ¬ Within rk → e.lookup rk = d.lookup rk) ∧
    (∀ d d' ls ls' e e', AgreeWithin d d' → ls.map Prod.fst = ls'.map Prod.fst →
      (mapStore env).lts.Run d ls e → (mapStore env).lts.Run d' ls' e' →
      List.Forall₂ (fun l l' => l.1 ≠ .allKeysChan → l = l') ls ls' ∧ AgreeWithin e e') := by
  refine ⟨within_rawKey, ?_, ?_, ?_⟩
  · intro σ D D' hsame k b
    exact ⟨hsame.get_eq env k, hsame.put_eq env b, hsame.has _ (within_rawKey k),
      hsame.delete _ (within_rawKey k)⟩
  · intro d ls e hrun rk hrk
    exact lookup_of_storeRun hrun hrk
  · intro d d' ls ls' e e' hagree hcalls hrun hrun'
    exact hagree.run hcalls hrun hrun'

/-- A key that climbs with `..` is stored inside the namespace. -/
example : (rawKey [dot, dot, slash, dot, dot, slash, 0x61]).string =
    slash :: blocksName ++ [slash, 0x61] := by decide

end Contents

end GoBlocks
