import GoBlocks.Blockstore.MapStore

/-!
# Map semantics of the blockstore

Block keys fall into classes: two keys are related if cleaning them as rooted
paths gives the same string. The abstract store of this file is a map indexed by
these classes. The blockstore over an in-memory datastore and the abstract store
take the same steps with the same replies, whatever the raw contents are.
-/

namespace GoBlocks

open Blockstore

/-- Block keys up to naming the same path. -/
instance Key.setoid : Setoid Key where
  r := Key.Equiv
  iseqv := ⟨fun _ => rfl, fun h => h.symm, fun h h' => h.trans h'⟩

/-- Equivalence of keys as the relation of the setoid is decidable. -/
instance : DecidableRel (α := Key) (· ≈ ·) := fun k k' => inferInstanceAs (Decidable (k.Equiv k'))

/-- The class of a block key. -/
abbrev KeyClass := Quotient Key.setoid

/-- A map from key classes to values. -/
abbrev ClassMap := KeyClass → Option Ds.Value

/-- The abstract store: a map indexed by key classes in which the first value
put for a class stays until the class is deleted. It describes the point calls
only; the channels of the interface are left without replies. -/
def classStore : Blockstore ClassMap where
  put b m := (.ok (), if (m ⟦b.key⟧).isSome then m
    else Function.update m ⟦b.key⟧ (some (.bytes b.data)))
  has k m := (.ok (m ⟦k⟧).isSome, m)
  get k m :=
    (match m ⟦k⟧ with
      | none => .error .notFound
      | some (.bytes data) => .ok ⟨k, data⟩
      | some (.other _) => .error .valueTypeMismatch, m)
  deleteBlock k m :=
    if (m ⟦k⟧).isSome then (.ok (), Function.update m ⟦k⟧ none) else (.error .dsNotFound, m)
  getChan _ m := ([], m)
  allKeysChan _ _ := False

/-- The raw datastore key of a class. -/
def KeyClass.rawKey : KeyClass → Ds.Key :=
  Quotient.lift GoBlocks.rawKey fun _ _ h => rawKey_eq_iff.mpr h

/-- Different classes have different raw keys. -/
theorem KeyClass.rawKey_injective : Function.Injective KeyClass.rawKey := by
  intro c c'
  induction c using Quotient.inductionOn
  induction c' using Quotient.inductionOn
  intro h
  exact Quotient.sound (rawKey_eq_iff.mp h)

/-- The class map that raw datastore contents stand for. -/
def classMap (d : Ds.KeyMap) : ClassMap := fun c => d.lookup c.rawKey

/-- The value of a key's class is the one under its raw key. -/
@[simp] theorem classMap_mk (d : Ds.KeyMap) (k : Key) :
    classMap d ⟦k⟧ = d.lookup (rawKey k) := rfl

/-- Inserting at a raw key updates the class. -/
theorem classMap_insert (d : Ds.KeyMap) (k : Key) (v : Ds.Value) :
    classMap (d.insert (rawKey k) v) = Function.update (classMap d) ⟦k⟧ (some v) := by
  funext c
  by_cases hc : c = ⟦k⟧
  · subst hc
    rw [Function.update_self]
    exact Finmap.lookup_insert d
  · rw [Function.update_of_ne hc]
    exact Finmap.lookup_insert_of_ne d fun h => hc (KeyClass.rawKey_injective h)

/-- Erasing a raw key empties the class. -/
theorem classMap_erase (d : Ds.KeyMap) (k : Key) :
    classMap (d.erase (rawKey k)) = Function.update (classMap d) ⟦k⟧ none := by
  funext c
  by_cases hc : c = ⟦k⟧
  · subst hc
    rw [Function.update_self]
    exact Finmap.lookup_erase _ d
  · rw [Function.update_of_ne hc]
    exact Finmap.lookup_erase_ne fun h => hc (KeyClass.rawKey_injective h)

/-- A call that reads or changes a single key. -/
def Blockstore.Call.IsPoint : Call → Bool
  | .put _ | .has _ | .get _ | .deleteBlock _ => true
  | .getChan _ | .allKeysChan => false

/-- The key a call stores or deletes. -/
def Blockstore.Call.target? : Call → Option Key
  | .put b => some b.key
  | .deleteBlock k => some k
  | _ => none

/-- The point calls of a blockstore. -/
def Blockstore.pointLts {σ : Type} (bs : Blockstore σ) : LTS σ (Call × Reply) :=
  bs.lts.restrict fun _ l => l.1.IsPoint

/-- Every point call gets a reply. -/
theorem Blockstore.exists_pointStep {σ : Type} (bs : Blockstore σ) (s : σ) {c : Call}
    (hc : c.IsPoint) : ∃ r s', bs.pointLts.step s (c, r) s' := by
  cases c with
  | put b => exact ⟨.put (bs.put b s).1, (bs.put b s).2, rfl, rfl⟩
  | has k => exact ⟨.has (bs.has k s).1, (bs.has k s).2, rfl, rfl⟩
  | get k => exact ⟨.get (bs.get k s).1, (bs.get k s).2, rfl, rfl⟩
  | deleteBlock k => exact ⟨.deleteBlock (bs.deleteBlock k s).1, (bs.deleteBlock k s).2, rfl, rfl⟩
  | getChan ks | allKeysChan => exact absurd hc (by simp [Call.IsPoint])

/-- Every sequence of point calls has a run. -/
theorem Blockstore.exists_pointRun {σ : Type} (bs : Blockstore σ) (s : σ) {cs : List Call}
    (hcs : ∀ c ∈ cs, c.IsPoint) :
    ∃ ls s', ls.map Prod.fst = cs ∧ bs.pointLts.Run s ls s' := by
  induction cs generalizing s with
  | nil => exact ⟨[], s, rfl, .nil s⟩
  | cons c cs ih =>
    obtain ⟨r, t, ht⟩ := bs.exists_pointStep s (hcs c (List.mem_cons_self ..))
    obtain ⟨ls, s', hls, hrun⟩ := ih t fun c' hc' => hcs c' (List.mem_cons_of_mem _ hc')
    exact ⟨(c, r) :: ls, s', by simp [hls], .cons ht hrun⟩

section Simulation

variable (H : Bytes → Bytes) (d : Ds.KeyMap)

/-- `Put` commutes with reading contents as a class map. -/
theorem classStore_put (b : Block) : classStore.put b (classMap d) =
    Prod.map id classMap ((mapStore ⟨H, false⟩).put b d) := by
  rw [mapStore.put_eq]
  by_cases hfound : (d.lookup (rawKey b.key)).isSome = true
  · simp [classStore, hfound]
  · simp [classStore, hfound, classMap_insert]

/-- `Has` commutes with reading contents as a class map. -/
theorem classStore_has (k : Key) : classStore.has k (classMap d) =
    Prod.map id classMap ((mapStore ⟨H, false⟩).has k d) := rfl

/-- `Get` commutes with reading contents as a class map. -/
theorem classStore_get (k : Key) : classStore.get k (classMap d) =
    Prod.map id classMap ((mapStore ⟨H, false⟩).get k d) := by
  rw [mapStore.get_eq]
  simp only [newBlockWithHash_of_not_debug]
  rfl

/-- `DeleteBlock` commutes with reading contents as a class map. -/
theorem classStore_deleteBlock (k : Key) : classStore.deleteBlock k (classMap d) =
    Prod.map id classMap ((mapStore ⟨H, false⟩).deleteBlock k d) := by
  rw [mapStore.deleteBlock_eq]
  by_cases hfound : (d.lookup (rawKey k)).isSome = true
  · simp [classStore, hfound, classMap_erase]
  · simp [classStore, hfound]

/-- A pair that arises by mapping the state arises from a pair with that state. -/
private theorem map_state_eq_iff {σ τ ρ : Type} {f : σ → τ} {p : ρ × σ} {r : ρ} {t : τ} :
    Prod.map id f p = (r, t) ↔ ∃ s, p = (r, s) ∧ f s = t := by
  obtain ⟨r₀, s₀⟩ := p
  simp only [Prod.map_apply, id_eq, Prod.mk.injEq]
  constructor
  · rintro ⟨rfl, rfl⟩
    exact ⟨s₀, ⟨rfl, rfl⟩, rfl⟩
  · rintro ⟨s, ⟨rfl, rfl⟩, rfl⟩
    exact ⟨rfl, rfl⟩

/-- One point call: the abstract store steps on a class map exactly as the
blockstore does on the contents, with the same reply. -/
theorem classStore_step_iff {l : Call × Reply} (hl : l.1.IsPoint) (m : ClassMap) :
    classStore.Step (classMap d) l m ↔
      ∃ d', (mapStore ⟨H, false⟩).Step d l d' ∧ classMap d' = m := by
  obtain ⟨call, reply⟩ := l
  cases call with
  | put b =>
    cases reply <;> simp only [Blockstore.Step, exists_false, false_and]
    rw [classStore_put H, map_state_eq_iff]
  | has k =>
    cases reply <;> simp only [Blockstore.Step, exists_false, false_and]
    rw [classStore_has H, map_state_eq_iff]
  | get k =>
    cases reply <;> simp only [Blockstore.Step, exists_false, false_and]
    rw [classStore_get H, map_state_eq_iff]
  | deleteBlock k =>
    cases reply <;> simp only [Blockstore.Step, exists_false, false_and]
    rw [classStore_deleteBlock H, map_state_eq_iff]
  | getChan ks | allKeysChan => exact absurd hl (by simp [Call.IsPoint])

/-- The blockstore simulates the abstract store on class maps. -/
theorem classStore_simulates : LTS.Simulates classStore.pointLts
    (mapStore ⟨H, false⟩).pointLts fun m d => m = classMap d := by
  rintro _ d l m rfl ⟨hstep, hpoint⟩
  obtain ⟨d', hd', hm⟩ := (classStore_step_iff H d hpoint m).mp hstep
  exact ⟨d', ⟨hd', hpoint⟩, hm.symm⟩

/-- The abstract store on class maps simulates the blockstore. -/
theorem mapStore_simulates : LTS.Simulates (mapStore ⟨H, false⟩).pointLts
    classStore.pointLts fun d m => m = classMap d := by
  rintro d _ l d' rfl ⟨hstep, hpoint⟩
  exact ⟨classMap d', ⟨(classStore_step_iff H d hpoint _).mpr ⟨d', hstep, rfl⟩, hpoint⟩, rfl⟩

/-- A point call of the abstract store leaves every class alone but that of the
key it stores or deletes. -/
theorem classStore_step_frame {m m' : ClassMap} {l : Call × Reply} (hpoint : l.1.IsPoint)
    (hstep : classStore.Step m l m') {c : KeyClass} (hc : ∀ k ∈ l.1.target?, ⟦k⟧ ≠ c) :
    m' c = m c := by
  obtain ⟨call, reply⟩ := l
  cases call with
  | put b =>
    cases reply <;> simp only [Blockstore.Step] at hstep
    obtain ⟨-, rfl⟩ := Prod.mk.inj hstep
    split
    · rfl
    · exact Function.update_of_ne (hc b.key rfl).symm _ _
  | has k | get k =>
    cases reply <;> simp only [Blockstore.Step] at hstep
    obtain ⟨-, rfl⟩ := Prod.mk.inj hstep
    rfl
  | deleteBlock k =>
    cases reply <;> simp only [Blockstore.Step, classStore] at hstep
    split at hstep
    · obtain ⟨-, rfl⟩ := Prod.mk.inj hstep
      exact Function.update_of_ne (hc k rfl).symm _ _
    · obtain ⟨-, rfl⟩ := Prod.mk.inj hstep
      rfl
  | getChan ks | allKeysChan => exact absurd hpoint (by simp [Call.IsPoint])

/-- A run of the abstract store leaves every class alone whose keys it neither
stores nor deletes. -/
theorem classStore_run_frame {m m' : ClassMap} {ls : List (Call × Reply)}
    (hrun : classStore.pointLts.Run m ls m') {c : KeyClass}
    (hc : ∀ l ∈ ls, ∀ k ∈ l.1.target?, ⟦k⟧ ≠ c) : m' c = m c := by
  induction hrun with
  | nil m => rfl
  | cons hstep _ ih =>
    rw [ih fun l hl => hc l (List.mem_cons_of_mem _ hl)]
    exact classStore_step_frame hstep.2 hstep.1 (hc _ (List.mem_cons_self ..))

/-- **Map semantics of the blockstore.** From any raw contents, the sequential
runs of `Put`, `Get`, `Has` and `DeleteBlock` with arbitrary keys are those of the
map indexed by key classes: the calls of any sequence are answered, with the
replies of the map, and leave the contents that the map has then. A class that no
call stores or deletes keeps its value. -/
theorem mapStore_refines_classStore (ls : List (Call × Reply)) :
    (∀ d', (mapStore ⟨H, false⟩).pointLts.Run d ls d' →
      classStore.pointLts.Run (classMap d) ls (classMap d')) ∧
    (∀ m', classStore.pointLts.Run (classMap d) ls m' →
      ∃ d', (mapStore ⟨H, false⟩).pointLts.Run d ls d' ∧ classMap d' = m') ∧
    (∀ cs : List Call, (∀ c ∈ cs, c.IsPoint) →
      ∃ rs d', rs.map Prod.fst = cs ∧ (mapStore ⟨H, false⟩).pointLts.Run d rs d') ∧
    (∀ d' c, (mapStore ⟨H, false⟩).pointLts.Run d ls d' →
      (∀ l ∈ ls, ∀ k ∈ l.1.target?, ⟦k⟧ ≠ c) → classMap d' c = classMap d c) := by
  have hfwd : ∀ d', (mapStore ⟨H, false⟩).pointLts.Run d ls d' →
      classStore.pointLts.Run (classMap d) ls (classMap d') := by
    intro d' hrun
    obtain ⟨m', hm', rfl⟩ := (mapStore_simulates H).run rfl hrun
    exact hm'
  refine ⟨hfwd, ?_, ?_, ?_⟩
  · intro m' hrun
    obtain ⟨d', hd', rfl⟩ := (classStore_simulates H).run rfl hrun
    exact ⟨d', hd', rfl⟩
  · intro cs hcs
    exact (mapStore ⟨H, false⟩).exists_pointRun d hcs
  · intro d' c hrun hc
    exact classStore_run_frame (hfwd d' hrun) hc

end Simulation

end GoBlocks
