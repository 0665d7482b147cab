import GoBlocks.Blockstore.Atomic

/-!
# Where the operations of a blockstore take effect

Every operation takes effect at one of its own raw calls: a `Put` at its raw `Has`
if that found the key and at its raw `Put` otherwise, and the others at their only
one. Between the two raw calls of a `Put` other clients may store or delete the
same key. On content-addressed blocks this does no harm: the raw `Put` then
overwrites a value with itself.
-/

namespace GoBlocks

open Blockstore

namespace Clients

/-- The operation that takes effect at a step, with its reply. -/
def commit : Act → Option (Call × Reply)
  | .putHas b true => some (.put b, .put (.ok ()))
  | .putPut b r => some (.put b, .put r)
  | .get k r => some (.get k, .get r)
  | .has k r => some (.has k, .has r)
  | .delete k r => some (.deleteBlock k, .deleteBlock r)
  | .putHas _ false | .call _ | .ret _ => none

/-- The step begins or ends an operation. -/
def Act.IsBoundary : Act → Bool
  | .call _ | .ret _ => true
  | _ => false

/-- The operation of a client that has not taken effect yet. -/
def Pc.pending : Pc → Option Call
  | .called c => some c
  | .missed b => some (.put b)
  | .idle | .done _ => none

/-- A raw call leaves the operation pending, or it is where the operation takes
effect and the client is done with the reply. -/
theorem Pc.next_of_raw {p p' : Pc} {a : Act} (h : p.next a = some p') (ha : ¬ a.IsBoundary) :
    ∃ c, p.pending = some c ∧
      ((commit a = none ∧ p'.pending = some c) ∨ ∃ r, commit a = some (c, r) ∧ p' = .done r) := by
  unfold Pc.next at h
  split at h
  · exact absurd rfl ha
  next b b' found =>
    simp only [Option.ite_none_right_eq_some, Option.some.injEq] at h
    obtain ⟨rfl, rfl⟩ := h
    cases found with
    | true => exact ⟨_, rfl, .inr ⟨_, rfl, rfl⟩⟩
    | false => exact ⟨_, rfl, .inl ⟨rfl, rfl⟩⟩
  next =>
    simp only [Option.ite_none_right_eq_some, Option.some.injEq] at h
    obtain ⟨rfl, rfl⟩ := h
    exact ⟨_, rfl, .inr ⟨_, rfl, rfl⟩⟩
  next =>
    simp only [Option.ite_none_right_eq_some, Option.some.injEq] at h
    obtain ⟨rfl, rfl⟩ := h
    exact ⟨_, rfl, .inr ⟨_, rfl, rfl⟩⟩
  next =>
    simp only [Option.ite_none_right_eq_some, Option.some.injEq] at h
    obtain ⟨rfl, rfl⟩ := h
    exact ⟨_, rfl, .inr ⟨_, rfl, rfl⟩⟩
  next =>
    simp only [Option.ite_none_right_eq_some, Option.some.injEq] at h
    obtain ⟨rfl, rfl⟩ := h
    exact ⟨_, rfl, .inr ⟨_, rfl, rfl⟩⟩
  · exact absurd rfl ha
  · cases h

/-- A call leads to an operation that is pending. -/
theorem Pc.next_call {p p' : Pc} {c : Call} (h : p.next (.call c) = some p') :
    p'.pending = some c := by
  cases p with
  | idle =>
    simp only [Pc.next, Option.ite_none_right_eq_some, Option.some.injEq] at h
    obtain ⟨-, rfl⟩ := h
    rfl
  | called c' => cases c' <;> cases h
  | missed b => cases h
  | done r => cases h

/-- Only an operation that is done returns. -/
theorem Pc.next_ret {p p' : Pc} {r : Reply} (h : p.next (.ret r) = some p') : p = .done r := by
  cases p with
  | idle => cases h
  | called c' => cases c' <;> cases h
  | missed b => cases h
  | done r' =>
    simp only [Pc.next, Option.ite_none_right_eq_some] at h
    rw [h.1]

/-- The raw calls of an operation up to its return: exactly one of them is where
the operation takes effect, with the reply that it returns. -/
theorem commit_of_exec {p : Pc} {c : Call} {r : Reply} {acts : List Act}
    (hp : p.pending = some c) (h : LTS.exec Pc.next p acts = some (.done r))
    (hacts : ∀ a ∈ acts, ¬ a.IsBoundary) : acts.filterMap commit = [(c, r)] := by
  induction acts generalizing p with
  | nil =>
    cases h
    cases hp
  | cons a acts ih =>
    simp only [LTS.exec, Option.bind_eq_some_iff] at h
    obtain ⟨p', hstep, hrest⟩ := h
    have hrestActs : ∀ a ∈ acts, ¬ a.IsBoundary := fun a' ha' =>
      hacts a' (List.mem_cons_of_mem _ ha')
    obtain ⟨c', hc', hcase⟩ := Pc.next_of_raw hstep (hacts a (List.mem_cons_self ..))
    obtain rfl : c' = c := Option.some.inj (hc'.symm.trans hp)
    rcases hcase with ⟨hnone, hp'⟩ | ⟨r', hsome, rfl⟩
    · rw [List.filterMap_cons_none hnone]
      exact ih hp' hrest hrestActs
    · rw [List.filterMap_cons_some hsome]
      -- Once the operation is done, no raw call follows.
      cases acts with
      | nil =>
        cases hrest
        rfl
      | cons a' acts =>
        simp only [LTS.exec, Option.bind_eq_some_iff] at hrest
        obtain ⟨p'', hstep', -⟩ := hrest
        obtain ⟨_, hnot, -⟩ := Pc.next_of_raw hstep' (hrestActs a' (List.mem_cons_self ..))
        cases hnot

/-- The stored values agree with the blocks: under the key of a block there is
nothing or its data. -/
def Agrees (B : Set Block) (d : Ds.KeyMap) : Prop :=
  ∀ b ∈ B, ∀ v, d.lookup (rawKey b.key) = some v → v = .bytes b.data

/-- Blocks with equal datastore keys have equal data. -/
def SameData (B : Set Block) : Prop :=
  ∀ b ∈ B, ∀ b' ∈ B, rawKey b.key = rawKey b'.key → b.data = b'.data

section Effect

variable {H : Bytes → Bytes} {B : Set Block} {d d' : Ds.KeyMap}

/-- The class map after a raw `Put`, if the value under the key was the same data
or none: the first value stays. -/
theorem classMap_insert_of_agrees {b : Block}
    (h : ∀ v, d.lookup (rawKey b.key) = some v → v = .bytes b.data) :
    classMap (d.insert (rawKey b.key) (.bytes b.data)) =
      if (classMap d ⟦b.key⟧).isSome then classMap d
      else Function.update (classMap d) ⟦b.key⟧ (some (.bytes b.data)) := by
  rw [classMap_insert]
  split
  next hsome =>
    obtain ⟨v, hv⟩ := Option.isSome_iff_exists.mp hsome
    obtain rfl := h v hv
    exact Function.update_eq_self_iff.mpr hv.symm
  next => rfl

/-- A step that commits is a step of the sequential map. -/
theorem classStore_step_of_commit {a : Act} {l : Call × Reply}
    (h : effect ⟨H, false⟩ d a = some d') (hl : commit a = some l)
    (hput : ∀ b r, a = .putPut b r → ∀ v, d.lookup (rawKey b.key) = some v → v = .bytes b.data) :
    classStore.pointLts.step (classMap d) l (classMap d') := by
  cases a with
  | call c => cases hl
  | ret r => cases hl
  | putHas b found =>
    cases found with
    | false => cases hl
    | true =>
      cases hl
      obtain ⟨hsome, rfl⟩ := effect_putHas.mp h
      refine ⟨?_, rfl⟩
      have hput : classStore.put b (classMap d) = (.ok (), classMap d) := by
        simp [classStore, hsome]
      exact hput
  | putPut b r =>
    cases hl
    obtain ⟨rfl, rfl⟩ := effect_putPut.mp h
    refine ⟨?_, rfl⟩
    have hstep : classStore.put b (classMap d) =
        (.ok (), classMap (d.insert (rawKey b.key) (.bytes b.data))) := by
      rw [classMap_insert_of_agrees (hput b _ rfl)]
      rfl
    exact hstep
  | get k r =>
    cases hl
    simp only [effect, Option.ite_none_right_eq_some, Option.some.injEq] at h
    obtain ⟨rfl, rfl⟩ := h
    exact ⟨classStore_get H d k, rfl⟩
  | has k r =>
    cases hl
    simp only [effect, Option.ite_none_right_eq_some, Option.some.injEq] at h
    obtain ⟨rfl, rfl⟩ := h
    exact ⟨classStore_has H d k, rfl⟩
  | delete k r =>
    cases hl
    simp only [effect, Option.ite_none_right_eq_some, Option.some.injEq] at h
    obtain ⟨rfl, rfl⟩ := h
    exact ⟨classStore_deleteBlock H d k, rfl⟩

/-- A step that does not commit changes nothing. -/
theorem eq_of_not_commit {a : Act} (h : effect ⟨H, false⟩ d a = some d') (hl : commit a = none) :
    d' = d := by
  cases a with
  | call c | ret r =>
    cases h
    rfl
  | putHas b found => exact (effect_putHas.mp h).2.symm
  | putPut b r | get k r | has k r | delete k r => cases hl

/-- What a step leaves under a raw key: the raw `Put` and the raw `Delete` of the
key change it, and no other step does. -/
theorem lookup_effect {a : Act} (h : effect ⟨H, false⟩ d a = some d') (rk : Ds.Key) :
    d'.lookup rk = d.lookup rk ∨
      (∃ b r, a = .putPut b r ∧ rawKey b.key = rk ∧ d'.lookup rk = some (.bytes b.data)) ∨
      (∃ k, a = .delete k (.ok ()) ∧ rawKey k = rk ∧ d'.lookup rk = none) := by
  cases a with
  | call c | ret r =>
    cases h
    exact .inl rfl
  | putHas b found => exact .inl (by rw [(effect_putHas.mp h).2])
  | putPut b r =>
    obtain ⟨rfl, rfl⟩ := effect_putPut.mp h
    by_cases hrk : rawKey b.key = rk
    · subst hrk
      exact .inr (.inl ⟨b, _, rfl, rfl, Finmap.lookup_insert d⟩)
    · exact .inl (Finmap.lookup_insert_of_ne d fun heq => hrk heq.symm)
  | get k r =>
    simp only [effect, mapStore.get_eq, Option.ite_none_right_eq_some, Option.some.injEq] at h
    exact .inl (by rw [h.2])
  | has k r =>
    simp only [effect, Option.ite_none_right_eq_some, Option.some.injEq] at h
    obtain ⟨-, rfl⟩ := h
    exact .inl rfl
  | delete k r =>
    simp only [effect, mapStore.deleteBlock_eq] at h
    split at h
    · simp only [Option.ite_none_right_eq_some, Option.some.injEq] at h
      obtain ⟨rfl, rfl⟩ := h
      by_cases hrk : rawKey k = rk
      · subst hrk
        exact .inr (.inr ⟨k, rfl, rfl, Finmap.lookup_erase _ d⟩)
      · exact .inl (Finmap.lookup_erase_ne fun heq => hrk heq.symm)
    · simp only [Option.ite_none_right_eq_some, Option.some.injEq] at h
      exact .inl (by rw [h.2])

/-- Steps with content-addressed blocks keep the stored values in agreement. -/
theorem Agrees.effect (hB : SameData B) (hd : Agrees B d) {a : Act}
    (h : Clients.effect ⟨H, false⟩ d a = some d') (hput : ∀ b r, a = .putPut b r → b ∈ B) :
    Agrees B d' := by
  intro b hb v hv
  rcases lookup_effect h (rawKey b.key) with heq | ⟨b', r, rfl, hkey, heq⟩ | ⟨k, rfl, -, heq⟩
  · exact hd b hb v (heq ▸ hv)
  · obtain rfl := Option.some.inj (heq.symm.trans hv)
    rw [hB b' (hput b' r rfl) b hb hkey]
  · rw [heq] at hv
    cases hv

end Effect

end Clients

end GoBlocks
