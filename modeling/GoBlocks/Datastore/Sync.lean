import GoBlocks.Datastore.Basic
import GoBlocks.Lib.RwMutex

/-!
# The datastore behind a mutex

`MutexWrap` puts a readers-writer lock around every call of a datastore. The calls of a
`MapDatastore` run in several steps: `Delete` looks the key up before it deletes, and
`Query` ranges over the map, one entry after the other. Behind the lock, the calls of any
number of goroutines behave as if each of them ran in one step.
-/

namespace GoBlocks.Ds

deriving instance DecidableEq for Entry
deriving instance DecidableEq for Result

/-- The calls of a datastore. -/
inductive Op where
  | put (k : Key) (v : Value)
  | get (k : Key)
  | has (k : Key)
  | delete (k : Key)
  | query (q : Query)

/-- What the calls return. The results of a query are those that a reader receives who
drains them. -/
inductive Reply where
  | put (r : Except Err Unit)
  | get (r : Except Err Value)
  | has (r : Except Err Bool)
  | delete (r : Except Err Unit)
  | query (r : Except Err (List Result))
  deriving DecidableEq

/-- A call of a datastore that runs in one step. -/
def Datastore.Sem {σ : Type} (D : Datastore σ) (op : Op) (s : σ) (r : Reply) (t : σ) : Prop :=
  match op, r with
  | .put k v, .put r => D.put k v s = (r, t)
  | .get k, .get r => D.get k s = (r, t)
  | .has k, .has r => D.has k s = (r, t)
  | .delete k, .delete r => D.delete k s = (r, t)
  | .query q, .query r => D.query q s r ∧ t = s
  | _, _ => False

/-- Where a call of a `MapDatastore` stands. -/
inductive MapPc where
  | put (k : Key) (v : Value)
  | get (k : Key)
  | has (k : Key)
  | delete (k : Key)
  /-- In `Delete`, after the key was found. -/
  | deleting (k : Key)
  /-- In the loop of `Query`, with the entries visited so far. -/
  | ranging (q : Query) (re : List (Key × Value))
  | done (r : Reply)

/-- The steps of a call of a `MapDatastore`. -/
inductive MapAct where
  /-- The next statement. -/
  | next
  /-- The loop of `Query` visits the entry of a key. -/
  | visit (k : Key)

/-- `Put`, `Get`, `Has`, `Delete` and `Query` of a `MapDatastore`, step by step. -/
def MapPc.step : MapPc × KeyMap → MapAct → Option (MapPc × KeyMap)
  | (.put k v, d), .next => some (.done (.put (.ok ())), d.insert k v)
  | (.get k, d), .next =>
    match d.lookup k with
    | none => some (.done (.get (.error .dsNotFound)), d)
    | some v => some (.done (.get (.ok v)), d)
  | (.has k, d), .next => some (.done (.has (.ok (d.lookup k).isSome)), d)
  | (.delete k, d), .next =>
    if (d.lookup k).isSome then some (.deleting k, d)
    else some (.done (.delete (.error .dsNotFound)), d)
  | (.deleting k, d), .next => some (.done (.delete (.ok ())), d.erase k)
  | (.ranging q re, d), .visit k =>
    if k ∈ re.map Prod.fst then none
    else (d.lookup k).map fun v => (.ranging q (re ++ [(k, v)]), d)
  | (.ranging q re, d), .next =>
    -- the loop ends when every key has been visited
    if d.keys ⊆ (re.map Prod.fst).toFinset then
      some (.done (.query (.ok (queryInOrder q re))), d)
    else none
  | _, _ => none

/-- `MutexWrap` of a `MapDatastore`: `Put` and `Delete` take the lock for writing, the
other calls for reading. -/
def mutexWrap : Methods Op Reply KeyMap MapPc MapAct where
  start
    | .put k v => .put k v
    | .get k => .get k
    | .has k => .has k
    | .delete k => .delete k
    | .query q => .ranging q []
  step := MapPc.step
  result
    | .done r => some r
    | _ => none
  writes
    | .put _ _ | .delete _ => true
    | .get _ | .has _ | .query _ => false

/-! ## One call -/

/-- What holds of a call that runs alone from the contents `d`. -/
def MapPc.Along (d : KeyMap) (op : Op) (x : MapPc × KeyMap) : Prop :=
  match x.1 with
  | .put k v => op = .put k v ∧ x.2 = d
  | .get k => op = .get k ∧ x.2 = d
  | .has k => op = .has k ∧ x.2 = d
  | .delete k => op = .delete k ∧ x.2 = d
  | .deleting k => op = .delete k ∧ x.2 = d ∧ (d.lookup k).isSome
  | .ranging q re => op = .query q ∧ x.2 = d ∧ (re.map Prod.fst).Nodup ∧
    ∀ e ∈ re, d.lookup e.1 = some e.2
  | .done r => mapDatastore.Sem op d r x.2

/-- Entries with distinct keys that are in the map, with all keys of the map, are an order
in which the map can be ranged over. -/
theorem iterates_of_visited {d : KeyMap} {re : List (Key × Value)}
    (hnodup : (re.map Prod.fst).Nodup) (hlookup : ∀ e ∈ re, d.lookup e.1 = some e.2)
    (hall : ∀ k ∈ d, k ∈ re.map Prod.fst) : d.Iterates re := by
  have hinj : Function.Injective
      (fun e : Key × Value => (⟨e.1, e.2⟩ : Sigma fun _ : Key => Value)) := by
    rintro ⟨k, v⟩ ⟨k', v'⟩ heq
    cases heq
    rfl
  have hentries : (re.map fun e => (⟨e.1, e.2⟩ : Sigma fun _ : Key => Value)).Nodup :=
    hnodup.of_map.map hinj
  refine (Multiset.Nodup.ext (Multiset.coe_nodup.mpr hentries) d.nodup_entries).mpr ?_
  rintro ⟨k, v⟩
  rw [Multiset.mem_coe, List.mem_map, ← Finmap.mem_lookup_iff, Option.mem_def]
  constructor
  · rintro ⟨e, he, heq⟩
    cases heq
    exact hlookup e he
  · intro hk
    obtain ⟨e, he, rfl⟩ := List.mem_map.mp (hall k (Finmap.mem_of_lookup_eq_some hk))
    cases (hlookup e he).symm.trans hk
    exact ⟨e, he, rfl⟩

/-- A call that begins has changed nothing. -/
theorem MapPc.along_start (d : KeyMap) (op : Op) : MapPc.Along d op (mutexWrap.start op, d) := by
  cases op with
  | query q => exact ⟨rfl, rfl, List.nodup_nil, by simp⟩
  | _ => exact ⟨rfl, rfl⟩

/-- Every step of a call that runs alone is one of the call of the datastore. -/
theorem MapPc.Along.step {d : KeyMap} {op : Op} {x y : MapPc × KeyMap} {a : MapAct}
    (h : MapPc.Along d op x) (hstep : MapPc.step x a = some y) : MapPc.Along d op y := by
  obtain ⟨p, d'⟩ := x
  cases p with
  | put k v =>
    obtain ⟨rfl, rfl⟩ := h
    cases a with
    | next =>
      cases hstep
      rfl
    | visit k => cases hstep
  | get k =>
    obtain ⟨rfl, rfl⟩ := h
    cases a with
    | next =>
      simp only [MapPc.step] at hstep
      split at hstep
      all_goals
        next hk =>
          cases hstep
          simp only [Along, Datastore.Sem, mapDatastore, hk]
    | visit k => cases hstep
  | has k =>
    obtain ⟨rfl, rfl⟩ := h
    cases a with
    | next =>
      cases hstep
      rfl
    | visit k => cases hstep
  | delete k =>
    obtain ⟨rfl, rfl⟩ := h
    cases a with
    | next =>
      simp only [MapPc.step] at hstep
      split at hstep
      next hk =>
        cases hstep
        exact ⟨rfl, rfl, hk⟩
      next hk =>
        cases hstep
        simp only [Along, Datastore.Sem, mapDatastore, hk, Bool.false_eq_true, if_false]
    | visit k => cases hstep
  | deleting k =>
    obtain ⟨rfl, rfl, hk⟩ := h
    cases a with
    | next =>
      cases hstep
      simp only [Along, Datastore.Sem, mapDatastore, hk, if_true]
    | visit k => cases hstep
  | ranging q re =>
    obtain ⟨rfl, rfl, hnodup, hlookup⟩ := h
    cases a with
    | next =>
      obtain ⟨hall, hy⟩ := Option.ite_none_right_eq_some.mp hstep
      cases hy
      refine ⟨⟨re, iterates_of_visited hnodup hlookup fun k hk => ?_, rfl⟩, rfl⟩
      exact List.mem_toFinset.mp (hall (Finmap.mem_keys.mpr hk))
    | visit k =>
      obtain ⟨hk, hy⟩ := Option.ite_none_left_eq_some.mp hstep
      obtain ⟨v, hv, rfl⟩ := Option.map_eq_some_iff.mp hy
      refine ⟨rfl, rfl, ?_, ?_⟩
      · rw [List.map_append, List.map_singleton]
        exact hnodup.append (List.nodup_singleton _) (by simpa using hk)
      · intro e he
        rcases List.mem_append.mp he with he | he
        · exact hlookup e he
        · cases List.mem_singleton.mp he
          exact hv
  | done r => cases a <;> cases hstep

/-- What holds of a call that runs alone, wherever it gets. -/
theorem MapPc.along_of_reaches {d : KeyMap} {op : Op} {x : MapPc × KeyMap}
    (h : mutexWrap.Reaches d op x) : MapPc.Along d op x := by
  obtain ⟨as, has⟩ := h
  exact has.invariant (MapPc.Along d op) (fun _ _ _ hv hstep => hv.step hstep)
    (MapPc.along_start d op)

/-- The calls compute what the calls of the datastore return. -/
theorem mutexWrap_implements : mutexWrap.Implements mapDatastore.Sem := by
  intro d op p t r hreaches hr
  have halong := MapPc.along_of_reaches hreaches
  cases p with
  | done r' =>
    cases hr
    exact halong
  | _ => cases hr

/-- `Get`, `Has` and `Query` change nothing. -/
theorem mutexWrap_readOnly : mutexWrap.ReadOnly := by
  rintro d op ⟨p, d'⟩ hreads hreaches
  have halong := MapPc.along_of_reaches hreaches
  cases p with
  | put | get | has | delete => exact halong.2
  | deleting | ranging => exact halong.2.1
  | done r =>
    cases op with
    | put | delete => cases hreads
    | get k =>
      cases r with
      | get r =>
        have hget : mapDatastore.get k d = (r, d') := halong
        simp only [mapDatastore] at hget
        split at hget <;> cases hget <;> rfl
      | _ => cases halong
    | has k =>
      cases r with
      | has r =>
        have hhas : mapDatastore.has k d = (r, d') := halong
        exact (congrArg Prod.snd hhas).symm
      | _ => cases halong
    | query q =>
      cases r with
      | query r => exact halong.2
      | _ => cases halong

/-- A call that has not come to its end goes on. -/
theorem mutexWrap_proceeds : mutexWrap.Proceeds := by
  rintro d op ⟨p, d'⟩ - hr
  cases p with
  | put | has | deleting => exact ⟨.next, _, rfl⟩
  | get k =>
    refine ⟨.next, ?_⟩
    simp only [mutexWrap, MapPc.step]
    split <;> exact ⟨_, rfl⟩
  | delete k =>
    refine ⟨.next, ?_⟩
    simp only [mutexWrap, MapPc.step]
    split <;> exact ⟨_, rfl⟩
  | ranging q re =>
    by_cases hall : d'.keys ⊆ (re.map Prod.fst).toFinset
    · exact ⟨.next, _, if_pos hall⟩
    · obtain ⟨k, hk, hnew⟩ := Finset.not_subset.mp hall
      obtain ⟨v, hv⟩ := Finmap.mem_iff.mp (Finmap.mem_keys.mp hk)
      rw [List.mem_toFinset] at hnew
      refine ⟨.visit k, (.ranging q (re ++ [(k, v)]), d'), ?_⟩
      simp only [mutexWrap, MapPc.step, if_neg hnew, hv, Option.map_some]
  | done r => cases hr

/-! ## Any number of goroutines -/

section

variable {ι : Type} [DecidableEq ι]

/-- **`MutexWrap` makes the calls of a map datastore atomic.** Any number of goroutines
call the datastore, from any contents, and their steps interleave in any order that the
lock allows. Two calls touch the map at the same time only if neither changes it. The
calls, their replies and the contents are those of a run in which each call takes effect
in one step of `MapDatastore`, at a moment between its call and its return. As long as a
call has not returned, some call can go on. -/
theorem mutexWrap_atomic (d : KeyMap) (ls : List (ι × GuardedAct Op Reply MapAct))
    (s : Threads ι (Guarded KeyMap) (GuardedPc Op Reply MapPc))
    (hrun : (Guarded.lts mutexWrap).Run (Guarded.start ι Op Reply MapPc d) ls s) :
    (∀ i j op p op' p', i ≠ j → s.loc i = .inside op p → s.loc j = .inside op' p' →
      mutexWrap.writes op = false ∧ mutexWrap.writes op' = false) ∧
    (∃ u, (Guarded.atomic mapDatastore.Sem).Run ⟨d, fun _ => .idle⟩
        (ls.filterMap GuardedAct.visible) u ∧
      (∀ i, u.loc i = (s.loc i).abs) ∧
      ((∀ i op p, s.loc i = .inside op p → mutexWrap.writes op = false) →
        u.shared = s.shared.state)) ∧
    ((∃ i, s.loc i ≠ .idle) → ∃ j a t, (∀ op, a ≠ .call op) ∧
      (Guarded.lts mutexWrap).step s (j, a) t) := by
  obtain ⟨u, hu, hrel⟩ :=
    Guarded.exists_atomic_run mutexWrap_readOnly mutexWrap_implements hrun
  refine ⟨?_, ⟨u, hu, hrel.loc, fun hread => (hrel.state ?_).symm⟩, ?_⟩
  · intro i j op p op' p' hne hi hj
    exact hrel.exclusive hne hi hj
  · by_contra hw
    rw [Bool.not_eq_false] at hw
    obtain ⟨i, ⟨op, p, hi⟩, -⟩ := hrel.alone hw
    rw [← hrel.writing i op p hi, hread i op p hi] at hw
    cases hw
  · rintro ⟨i, hi⟩
    exact hrel.live mutexWrap_proceeds hi

end

/-- A query and a deletion overlap. -/
def queryAndDelete : List (Bool × GuardedAct Op Reply MapAct) :=
  [(true, .call (.query (keysQuery []))), (false, .call (.delete (newKey [97]))), (true, .lock),
    (true, .step (.visit (newKey [97]))), (true, .step .next), (true, .unlock), (false, .lock),
    (false, .step .next), (false, .step .next), (false, .unlock),
    (true, .ret (.query (.ok [⟨⟨[47, 97], .bytes [1]⟩, none⟩]))), (false, .ret (.delete (.ok ())))]

/-- The query takes effect before the deletion, and sees the deleted entry. -/
theorem mutexWrap_atomic_query :
    ∃ u : Threads Bool KeyMap (CallPc Op Reply),
      (Guarded.atomic mapDatastore.Sem).Run
        ⟨Finmap.singleton (newKey [97]) (.bytes [1]), fun _ => .idle⟩
        (queryAndDelete.filterMap GuardedAct.visible) u ∧ u.shared.lookup (newKey [97]) = none := by
  have hrun : ∃ s, (Guarded.lts mutexWrap).Run
      (Guarded.start Bool Op Reply MapPc (Finmap.singleton (newKey [97]) (.bytes [1])))
      queryAndDelete s ∧ s.loc true = .idle ∧ s.loc false = .idle ∧
      s.shared.state.lookup (newKey [97]) = none :=
    ⟨_, LTS.run_ofFun_iff.mpr rfl, rfl, rfl, rfl⟩
  obtain ⟨s, hrun, htrue, hfalse, hlookup⟩ := hrun
  obtain ⟨-, ⟨u, hu, -, hstate⟩, -⟩ := mutexWrap_atomic _ queryAndDelete s hrun
  refine ⟨u, hu, ?_⟩
  rw [hstate fun i op p hi => ?_, hlookup]
  cases i
  · rw [hfalse] at hi
    cases hi
  · rw [htrue] at hi
    cases hi

end GoBlocks.Ds
