import GoBlocks.Blockstore.ClassMap
import GoBlocks.Lib.Interleaving

/-!
# Concurrent clients of the blockstore

Each raw datastore call is one atomic step. `Get`, `Has` and `DeleteBlock` make
one raw call, and `Put` makes up to two: it asks whether the key is present and
stores the block if it is not. Clients interleave their calls freely. The labels
of the runs are the calls and returns of the clients and the raw calls with what
they found, so that the control of a client depends on its labels only and the
contents change by the raw calls only.
-/

namespace GoBlocks

open Blockstore

/-- What remains to be done of a `Put`. -/
inductive Putting where
  /-- About to call `Has` of the datastore. -/
  | has (b : Block)
  /-- About to call `Put` of the datastore. -/
  | put (b : Block)
  deriving DecidableEq

/-- One raw call of `blockstore.Put`, with its result or what remains to be done. -/
def Putting.step {σ : Type} (dd : Ds.Datastore σ) (s : σ) :
    Putting → σ × (Except Err Unit ⊕ Putting)
  | .has b =>
    match dd.has b.key.dsKey s with
    | (.ok true, s') => (s', .inl (.ok ()))
    | (_, s') => (s', .inr (.put b))
  | .put b => ((dd.put b.key.dsKey (.bytes b.data) s).2,
      .inl (dd.put b.key.dsKey (.bytes b.data) s).1)

/-- The raw calls of a `Put` that runs alone add up to the sequential `Put`. -/
theorem dsPut_eq_step {σ : Type} (dd : Ds.Datastore σ) (b : Block) (s : σ) :
    dsPut dd b s =
      match (Putting.has b).step dd s with
      | (s', .inl r) => (r, s')
      | (s', .inr _) => dd.put b.key.dsKey (.bytes b.data) s' := by
  unfold dsPut Putting.step
  split <;> simp_all

/-- The datastore of the blockstore: a map below the block prefix. -/
def blocksDatastore : Ds.Datastore Ds.KeyMap := Ds.wrap Ds.mapDatastore blockPrefix

namespace Putting

/-- The raw `Has` of a `Put`: a present key ends the call. -/
theorem step_has (b : Block) (d : Ds.KeyMap) : (has b).step blocksDatastore d =
    (d, if (d.lookup (rawKey b.key)).isSome then .inl (.ok ()) else .inr (.put b)) := by
  have hhas : blocksDatastore.has b.key.dsKey d = (.ok (d.lookup (rawKey b.key)).isSome, d) := rfl
  simp only [step, hhas]
  cases (d.lookup (rawKey b.key)).isSome <;> rfl

/-- The raw `Put` of a `Put` overwrites what is there. -/
theorem step_put (b : Block) (d : Ds.KeyMap) : (put b).step blocksDatastore d =
    (d.insert (rawKey b.key) (.bytes b.data), .inl (.ok ())) := rfl

end Putting

namespace Clients

/-- The steps of a client. -/
inductive Act where
  /-- The client calls an operation. -/
  | call (c : Call)
  /-- The raw `Has` of a `Put`, and whether it found the key. -/
  | putHas (b : Block) (found : Bool)
  /-- The raw `Put` of a `Put`, and its result. -/
  | putPut (b : Block) (r : Except Err Unit)
  /-- The raw `Get` of a `Get`, and what `Get` makes of it. -/
  | get (k : Key) (r : Except Err Block)
  /-- The raw `Has` of a `Has`, and its result. -/
  | has (k : Key) (r : Except Err Bool)
  /-- The raw `Delete` of a `DeleteBlock`, and its result. -/
  | delete (k : Key) (r : Except Err Unit)
  /-- The operation returns. -/
  | ret (r : Reply)

/-- Where a client stands. -/
inductive Pc where
  | idle
  /-- Called, no raw call made. -/
  | called (c : Call)
  /-- In a `Put` that did not find the key. -/
  | missed (b : Block)
  /-- About to return. -/
  | done (r : Reply)

/-- The control of a client. -/
def Pc.next : Pc → Act → Option Pc
  | .idle, .call c => if c.IsPoint then some (.called c) else none
  | .called (.put b), .putHas b' found =>
    if b = b' then some (if found then .done (.put (.ok ())) else .missed b) else none
  | .missed b, .putPut b' r => if b = b' then some (.done (.put r)) else none
  | .called (.get k), .get k' r => if k = k' then some (.done (.get r)) else none
  | .called (.has k), .has k' r => if k = k' then some (.done (.has r)) else none
  | .called (.deleteBlock k), .delete k' r =>
    if k = k' then some (.done (.deleteBlock r)) else none
  | .done r, .ret r' => if r = r' then some .idle else none
  | _, _ => none

/-- The raw call of a step finds what its label says, and changes the contents. -/
def effect (env : HashEnv) (d : Ds.KeyMap) : Act → Option Ds.KeyMap
  | .call _ | .ret _ => some d
  | .putHas b found =>
    let r := (Putting.has b).step blocksDatastore d
    if r.2.isLeft = found then some r.1 else none
  | .putPut b r =>
    let r' := (Putting.put b).step blocksDatastore d
    if r'.2 = .inl r then some r'.1 else none
  | .get k r => if ((mapStore env).get k d).1 = r then some ((mapStore env).get k d).2 else none
  | .has k r => if ((mapStore env).has k d).1 = r then some ((mapStore env).has k d).2 else none
  | .delete k r =>
    if ((mapStore env).deleteBlock k d).1 = r then some ((mapStore env).deleteBlock k d).2 else none

/-- The program of a client: its control allows the step and the contents agree. -/
def client (env : HashEnv) (d : Ds.KeyMap) (p : Pc) (a : Act) : Option (Ds.KeyMap × Pc) :=
  match effect env d a, p.next a with
  | some d', some p' => some (d', p')
  | _, _ => none

/-- A step is allowed by the control and has its effect on the contents. -/
theorem client_eq_some_iff {env : HashEnv} {d : Ds.KeyMap} {p : Pc} {a : Act}
    {r : Ds.KeyMap × Pc} :
    client env d p a = some r ↔ effect env d a = some r.1 ∧ p.next a = some r.2 := by
  unfold client
  cases effect env d a <;> cases p.next a <;> simp [Prod.ext_iff]

/-- The raw `Has` of a `Put` reports whether the key is present. -/
theorem effect_putHas {env : HashEnv} {d d' : Ds.KeyMap} {b : Block} {found : Bool} :
    effect env d (.putHas b found) = some d' ↔
      (d.lookup (rawKey b.key)).isSome = found ∧ d = d' := by
  simp only [effect, Putting.step_has, Option.ite_none_right_eq_some, Option.some.injEq]
  cases (d.lookup (rawKey b.key)).isSome <;> simp

/-- The raw `Put` of a `Put` succeeds and overwrites what is there. -/
theorem effect_putPut {env : HashEnv} {d d' : Ds.KeyMap} {b : Block} {r : Except Err Unit} :
    effect env d (.putPut b r) = some d' ↔
      .ok () = r ∧ d.insert (rawKey b.key) (.bytes b.data) = d' := by
  simp [effect, Putting.step_put]

/-- The raw calls of one operation, from its call to the moment it returns. -/
theorem exists_raw_calls {env : HashEnv} {d d' : Ds.KeyMap} {c : Call} {r : Reply}
    (hc : c.IsPoint) (h : (mapStore env).Step d (c, r) d') :
    ∃ acts, LTS.exec (fun s a => client env s.1 s.2 a) (d, .called c) acts =
      some (d', .done r) := by
  cases c with
  | put b =>
    cases r with
    | put r =>
      simp only [Blockstore.Step, mapStore.put_eq, Prod.mk.injEq] at h
      obtain ⟨rfl, rfl⟩ := h
      cases hfound : (d.lookup (rawKey b.key)).isSome with
      | true =>
        have hhas : client env d (.called (.put b)) (.putHas b true) =
            some (d, .done (.put (.ok ()))) :=
          client_eq_some_iff.mpr ⟨effect_putHas.mpr ⟨hfound, rfl⟩, if_pos rfl⟩
        exact ⟨[.putHas b true], by simp only [LTS.exec, hhas, Option.bind_some, if_true]⟩
      | false =>
        have hhas : client env d (.called (.put b)) (.putHas b false) = some (d, .missed b) :=
          client_eq_some_iff.mpr ⟨effect_putHas.mpr ⟨hfound, rfl⟩, if_pos rfl⟩
        have hput : client env d (.missed b) (.putPut b (.ok ())) =
            some (d.insert (rawKey b.key) (.bytes b.data), .done (.put (.ok ()))) :=
          client_eq_some_iff.mpr ⟨effect_putPut.mpr ⟨rfl, rfl⟩, if_pos rfl⟩
        exact ⟨[.putHas b false, .putPut b (.ok ())], by
          simp only [LTS.exec, hhas, hput, Option.bind_some, Bool.false_eq_true, if_false]⟩
    | _ => cases h
  | get k =>
    cases r with
    | get r =>
      have h : (mapStore env).get k d = (r, d') := h
      have hget : client env d (.called (.get k)) (.get k r) = some (d', .done (.get r)) :=
        client_eq_some_iff.mpr ⟨by simp only [effect, h, if_true], if_pos rfl⟩
      exact ⟨[.get k r], by simp only [LTS.exec, hget, Option.bind_some]⟩
    | _ => cases h
  | has k =>
    cases r with
    | has r =>
      have h : (mapStore env).has k d = (r, d') := h
      have hhas : client env d (.called (.has k)) (.has k r) = some (d', .done (.has r)) :=
        client_eq_some_iff.mpr ⟨by simp only [effect, h, if_true], if_pos rfl⟩
      exact ⟨[.has k r], by simp only [LTS.exec, hhas, Option.bind_some]⟩
    | _ => cases h
  | deleteBlock k =>
    cases r with
    | deleteBlock r =>
      have h : (mapStore env).deleteBlock k d = (r, d') := h
      have hdelete : client env d (.called (.deleteBlock k)) (.delete k r) =
          some (d', .done (.deleteBlock r)) :=
        client_eq_some_iff.mpr ⟨by simp only [effect, h, if_true], if_pos rfl⟩
      exact ⟨[.delete k r], by simp only [LTS.exec, hdelete, Option.bind_some]⟩
    | _ => cases h
  | getChan ks => cases hc
  | allKeysChan => cases hc

/-- Any number of clients over a blockstore. -/
def lts (env : HashEnv) (ι : Type) [DecidableEq ι] : LTS (Threads ι Ds.KeyMap Pc) (ι × Act) :=
  Threads.lts (client env)

/-- A step of the sequential blockstore is a run of one client while the others
stand still. -/
theorem exists_run_alone {ι : Type} [DecidableEq ι] {env : HashEnv}
    {s : Threads ι Ds.KeyMap Pc} {i : ι} {d' : Ds.KeyMap} {c : Call} {r : Reply}
    (hi : s.loc i = .idle) (hc : c.IsPoint) (h : (mapStore env).Step s.shared (c, r) d') :
    ∃ acts, (lts env ι).Run s ((.call c :: (acts ++ [.ret r])).map fun a => (i, a))
      (s.set i (d', .idle)) := by
  obtain ⟨acts, hacts⟩ := exists_raw_calls hc h
  refine ⟨acts, Threads.run_solo (LTS.run_ofFun_iff.mp ?_)⟩
  have hcall : client env s.shared (s.loc i) (.call c) = some (s.shared, .called c) :=
    client_eq_some_iff.mpr ⟨rfl, by rw [hi]; exact if_pos hc⟩
  have hret : client env d' (.done r) (.ret r) = some (d', .idle) :=
    client_eq_some_iff.mpr ⟨rfl, if_pos rfl⟩
  exact .cons hcall (LTS.run_append_iff.mpr
    ⟨_, LTS.run_ofFun_iff.mpr hacts, LTS.run_singleton_iff.mpr hret⟩)

end Clients

end GoBlocks
