import GoBlocks.BlockService.Fetch

/-!
# What a concurrent retrieval delivers

The keys on their way are those that the goroutines of a call have yet to look up or
to send. One step of the system adds nothing to the blocks delivered for a key and the
occurrences of the key on its way, and it loses none of them while the context is not
done and the key can be read. A call that nobody disturbs delivers what the sequential
`GetBlocks` does.
-/

namespace GoBlocks.BlockService

open Blockstore

/-- The keys that the goroutine of the exchange has yet to look up or to send. -/
def Remote.pending : Remote → List Key
  | .looping rest | .missed rest => rest
  | .sending hit rest => hit.key :: rest
  | .closed => []

/-- The keys that the goroutines of a call have yet to look up or to send. -/
def Fetch.pending : Fetch → List Key
  | .looping rest misses => rest ++ misses
  | .sending hit rest misses => hit.key :: (rest ++ misses)
  | .ranging remote => remote.pending
  | .forwarding b remote => b.key :: remote.pending
  | .aborted _ | .finished => []

/-- A step of the call itself, not of the context or another client. -/
def FetchLabel.Own {κ : Type} : FetchLabel κ → Bool
  | .cancel | .client _ _ => false
  | _ => true

/-- `Get` of the key returns a block. -/
def Readable (env : HashEnv) (k : Key) (d : Ds.KeyMap) : Prop :=
  ∃ b, ((mapStore env).get k d).1 = .ok b

/-- A step of the goroutine of the exchange adds no key, and it drops a key only if the
context is done or the key cannot be read. -/
theorem Remote.count_next {env : HashEnv} {d : Ds.KeyMap} {c : Bool} {ev : RemoteEvent}
    {r r' : Remote} (h : Remote.next env d c ev r = some r') (k : Key) :
    r'.pending.count k ≤ r.pending.count k ∧
      (c = false → Readable env k d → r'.pending.count k = r.pending.count k) := by
  cases Remote.step_of_next h with
  | hit hget =>
    have hkey := mapStore.key_of_get env hget
    simp [pending, hkey]
  | @miss k' rest err hget =>
    refine ⟨List.count_le_count_cons, ?_⟩
    rintro - ⟨b, hb⟩
    have hne : k' ≠ k := by
      rintro rfl
      rw [hget] at hb
      cases hb
    simp [pending, hne]
  | proceed | finish => exact ⟨le_rfl, fun _ _ => rfl⟩
  | abort hc => exact ⟨Nat.zero_le _, fun hfalse => by simp [hc] at hfalse⟩

/-- Likewise for a call whose goroutine of the exchange takes a step. -/
theorem Fetch.count_onRemote {env : HashEnv} {d : Ds.KeyMap} {c : Bool} {ev : RemoteEvent}
    {f f' : Fetch} (h : f.onRemote (Remote.next env d c ev) = some f') (k : Key) :
    f'.pending.count k ≤ f.pending.count k ∧
      (c = false → Readable env k d → f'.pending.count k = f.pending.count k) := by
  cases Fetch.onRemote_spec h with
  | ranging hr => exact Remote.count_next hr k
  | forwarding hr =>
    obtain ⟨hle, heq⟩ := Remote.count_next hr k
    simp only [pending, List.count_cons]
    exact ⟨by omega, fun hc hk => by rw [heq hc hk]⟩
  | aborted hr => exact ⟨le_rfl, fun _ _ => rfl⟩

namespace FetchSystem

variable {κ : Type} [DecidableEq κ] {env : HashEnv} {s t : FetchSystem κ} {l : FetchLabel κ}
  {ls : List (FetchLabel κ)}

/-- The blocks delivered for a key and the occurrences of the key on its way. -/
def balance (k : Key) (s : FetchSystem κ) : ℕ := keyCount k s.delivered + s.fetch.pending.count k

/-- One step adds nothing to the balance of a key, and it takes nothing away unless the
context is done or the key cannot be read. -/
theorem balance_step (h : (lts env κ).step s l t) (k : Key) :
    balance k t ≤ balance k s ∧
      (s.cancelled = false → Readable env k s.store → balance k t = balance k s) := by
  have hkept : balance k t = balance k s → balance k t ≤ balance k s ∧
      (s.cancelled = false → Readable env k s.store → balance k t = balance k s) :=
    fun heq => ⟨heq.le, fun _ _ => heq⟩
  cases step_of_next h with
  | hit hfetch hget =>
    have hkey := mapStore.key_of_get env hget
    exact hkept (by simp [balance, hfetch, Fetch.pending, hkey])
  | miss hfetch hget =>
    apply hkept
    simp only [balance, hfetch, Fetch.pending, List.count_append, List.count_cons, List.count_nil]
    omega
  | deliver hfetch | forward hfetch =>
    apply hkept
    simp only [balance, hfetch, Fetch.pending, keyCount_append, keyCount_cons, keyCount_nil,
      List.count_cons, beq_iff_eq]
    omega
  | abort hcancelled =>
    exact ⟨Nat.le_add_right _ _, fun hfalse => by simp [hcancelled] at hfalse⟩
  | ask hfetch | pass hfetch | finish hfetch =>
    exact hkept (by simp [balance, hfetch, Fetch.pending, Remote.pending])
  | remote hfetch =>
    obtain ⟨hle, heq⟩ := Fetch.count_onRemote hfetch k
    exact ⟨Nat.add_le_add_left hle _, fun hc hk =>
      congrArg (keyCount k s.delivered + ·) (heq hc hk)⟩
  | cancel => exact hkept rfl
  | client hclient => exact hkept rfl

/-- A call aborts only if the context is done. -/
theorem aborted_step (h : (lts env κ).step s l t)
    (hs : s.cancelled = false → ∀ remote, s.fetch ≠ .aborted remote) :
    t.cancelled = false → ∀ remote, t.fetch ≠ .aborted remote := by
  intro hc remote hremote
  cases step_of_next h with
  | abort hcancelled => simp [hcancelled] at hc
  | remote hfetch =>
    have hne := hs hc
    have hspec := Fetch.onRemote_spec hfetch
    generalize s.fetch = f at hne hspec
    cases hspec with
    | aborted hr => exact hne _ rfl
    | _ => cases hremote
  | cancel => cases hc
  | client hclient => exact hs hc remote hremote
  | _ => cases hremote

/-- The contents have the property in every state of the run. -/
def Throughout (env : HashEnv) (s : FetchSystem κ) (ls : List (FetchLabel κ))
    (P : Ds.KeyMap → Prop) : Prop :=
  ∀ pre v, pre <+: ls → (lts env κ).Run s pre v → P v.store

/-- The steps of the call itself leave the contents alone. -/
theorem store_of_own (h : (lts env κ).step s l t) (hl : l.Own) : t.store = s.store := by
  cases step_of_next h with
  | client hclient => cases hl
  | _ => rfl

/-- While the call is alone, the contents keep what they have at the start. -/
theorem throughout_of_own (hls : ∀ l ∈ ls, l.Own) {P : Ds.KeyMap → Prop} (hs : P s.store) :
    Throughout env s ls P := by
  intro pre v hpre hrun
  have hstore : (∀ l ∈ pre, l.Own) → v.store = s.store := by
    refine hrun.history_induction (fun hist v => (∀ l ∈ hist, l.Own) → v.store = s.store)
      (fun _ => rfl) ?_
    intro hist v l w _ ih hstep hown
    rw [store_of_own hstep (hown l (by simp))]
    exact ih fun l' hl' => hown l' (by simp [hl'])
  rw [hstore fun l hl => hls l (hpre.subset hl)]
  exact hs

/-- The balance of a key never exceeds its value at the start. -/
theorem balance_run (h : (lts env κ).Run s ls t) (k : Key) : balance k t ≤ balance k s :=
  h.invariant (fun t => balance k t ≤ balance k s)
    (fun _ _ _ hle hstep => (balance_step hstep k).1.trans hle) le_rfl

/-- Without a cancellation, the balance of a key that can be read throughout stays, and
the call does not abort. -/
theorem balance_run_eq (h : (lts env κ).Run s ls t) (hs : s.cancelled = false)
    (hfetch : ∀ remote, s.fetch ≠ .aborted remote) (hcancel : .cancel ∉ ls) {k : Key}
    (hk : Throughout env s ls (Readable env k)) :
    balance k t = balance k s ∧ ∀ remote, t.fetch ≠ .aborted remote := by
  have hJ : .cancel ∉ ls → Throughout env s ls (Readable env k) →
      balance k t = balance k s ∧ t.cancelled = false ∧
        (t.cancelled = false → ∀ remote, t.fetch ≠ .aborted remote) := by
    refine h.history_induction (fun hist t => .cancel ∉ hist →
      Throughout env s hist (Readable env k) → balance k t = balance k s ∧ t.cancelled = false ∧
        (t.cancelled = false → ∀ remote, t.fetch ≠ .aborted remote)) ?_ ?_
    · intro _ _
      exact ⟨rfl, hs, fun _ => hfetch⟩
    · intro hist v l w hrun ih hstep hcancel hk
      have hhist : hist <+: hist ++ [l] := List.prefix_append _ _
      obtain ⟨heq, hc, hne⟩ := ih (fun hmem => hcancel (hhist.subset hmem))
        fun pre v hpre => hk pre v (hpre.trans hhist)
      refine ⟨((balance_step hstep k).2 hc (hk hist v hhist hrun)).trans heq, ?_,
        aborted_step hstep hne⟩
      cases step_of_next hstep with
      | cancel => exact absurd (by simp) hcancel
      | _ => exact hc
  obtain ⟨heq, hc, hne⟩ := hJ hcancel hk
  exact ⟨heq, hne hc⟩

/-- All stored values are byte strings. -/
def HoldsBytes (d : Ds.KeyMap) : Prop := ∀ rk v, d.lookup rk = some v → ∃ data, v = .bytes data

/-- The calls of the clients store byte strings only. -/
theorem HoldsBytes.effect {d d' : Ds.KeyMap} {a : Clients.Act} (hd : HoldsBytes d)
    (h : Clients.effect env d a = some d') : HoldsBytes d' := by
  cases a with
  | call c | ret r =>
    cases h
    exact hd
  | putHas b found =>
    obtain ⟨-, rfl⟩ := Clients.effect_putHas.mp h
    exact hd
  | putPut b r =>
    obtain ⟨-, rfl⟩ := Clients.effect_putPut.mp h
    intro rk v hv
    by_cases hrk : rk = rawKey b.key
    · rw [hrk, Finmap.lookup_insert] at hv
      exact ⟨b.data, (Option.some.inj hv).symm⟩
    · rw [Finmap.lookup_insert_of_ne d hrk] at hv
      exact hd rk v hv
  | get k r =>
    obtain ⟨-, hd'⟩ := Option.ite_none_right_eq_some.mp h
    rw [mapStore.get_eq] at hd'
    cases hd'
    exact hd
  | has k r =>
    obtain ⟨-, hd'⟩ := Option.ite_none_right_eq_some.mp h
    rw [mapStore.has_eq] at hd'
    cases hd'
    exact hd
  | delete k r =>
    obtain ⟨-, hd'⟩ := Option.ite_none_right_eq_some.mp h
    cases hd'
    intro rk v hv
    by_cases hrk : rk = rawKey k
    · have hnone := mapStore.lookup_update_deleteBlock env d k
      rw [hrk] at hv
      exact absurd (hv.symm.trans hnone) (by simp)
    · exact hd rk v ((mapStore.lookup_update_of_ne env d (u := .deleteBlock k) hrk).symm.trans hv)

/-- Along a run all stored values are byte strings. -/
theorem holdsBytes_run (h : (lts env κ).Run s ls t) (hs : HoldsBytes s.store) :
    HoldsBytes t.store := by
  refine h.invariant (fun s => HoldsBytes s.store) ?_ hs
  intro v l w hv hstep
  cases step_of_next hstep with
  | client hclient => exact hv.effect (Clients.client_eq_some_iff.mp hclient).1
  | _ => exact hv

/-- Outside debug mode a key that is present with a byte string can be read. -/
theorem readable_of_has {H : Bytes → Bytes} {k : Key} {d : Ds.KeyMap} (hd : HoldsBytes d)
    (hhas : ((mapStore ⟨H, false⟩).has k d).1 = .ok true) : Readable ⟨H, false⟩ k d := by
  rw [mapStore.has_eq] at hhas
  obtain ⟨v, hv⟩ := Option.isSome_iff_exists.mp (Except.ok.inj hhas)
  obtain ⟨data, rfl⟩ := hd _ _ hv
  exact ⟨⟨k, data⟩, by simp [mapStore.get_eq, hv]⟩

end FetchSystem

open FetchSystem

/-- **What `GetBlocks` delivers.** Take any run of a call of `GetBlocks` for a list of keys
in offline mode, among other clients of the blockstore and with any contents at the
start. Every delivered block carries a key of the list, and no more blocks are delivered
for a key than it has occurrences in the list. If the context is not cancelled and the
output channel is closed, a key that `Get` could read throughout was delivered as often
as it occurs. Outside debug mode and over byte strings, it is enough that `Has` found the
key throughout. -/
theorem getBlocks_delivers (env : HashEnv) (κ : Type) [DecidableEq κ] (d : Ds.KeyMap)
    (ks : List Key) (client : κ → Clients.Pc) (ls : List (FetchLabel κ)) (t : FetchSystem κ)
    (hrun : (lts env κ).Run (start d ks client) ls t) :
    (∀ b ∈ t.delivered, b.key ∈ ks) ∧ (∀ k, keyCount k t.delivered ≤ ks.count k) ∧
    (.cancel ∉ ls → t.fetch.Closed → ∀ k,
      (Throughout env (start d ks client) ls (Readable env k) →
        keyCount k t.delivered = ks.count k) ∧
      (env.debug = false → HoldsBytes d →
        (Throughout env (start d ks client) ls fun d => ((mapStore env).has k d).1 = .ok true) →
        keyCount k t.delivered = ks.count k)) := by
  have hstart : ∀ k, balance k (start d ks client) = ks.count k := by
    intro k
    simp [balance, start, Fetch.pending]
  have hle : ∀ k, keyCount k t.delivered ≤ ks.count k := fun k =>
    (Nat.le_add_right _ _).trans ((balance_run hrun k).trans_eq (hstart k))
  have heq : .cancel ∉ ls → t.fetch.Closed → ∀ k,
      Throughout env (start d ks client) ls (Readable env k) →
        keyCount k t.delivered = ks.count k := by
    intro hcancel hclosed k hk
    obtain ⟨hbalance, hne⟩ := balance_run_eq hrun rfl (by simp [start]) hcancel hk
    rw [hstart] at hbalance
    cases hf : t.fetch with
    | finished => simpa [balance, hf, Fetch.pending] using hbalance
    | aborted remote => exact absurd hf (hne remote)
    | _ => simp [hf, Fetch.Closed] at hclosed
  refine ⟨fun b hb => ?_, hle, fun hcancel hclosed k => ⟨heq hcancel hclosed k, ?_⟩⟩
  · have hpos : 0 < keyCount b.key t.delivered :=
      List.count_pos_iff.mpr (List.mem_map_of_mem hb)
    exact List.count_pos_iff.mp (hpos.trans_le (hle b.key))
  · rcases env with ⟨H, _ | _⟩
    · intro _ hd hhas
      exact heq hcancel hclosed k fun pre v hpre hv =>
        readable_of_has (holdsBytes_run hv hd) (hhas pre v hpre hv)
    · rintro ⟨⟩

/-- The contents with the one block `⟨[1], [2]⟩`. -/
def singleton : Ds.KeyMap := (∅ : Ds.KeyMap).insert (rawKey [1]) (.bytes [2])

/-- A key that occurs twice and is present is delivered twice. -/
theorem getBlocks_delivers_twice :
    ∃ t, (lts ⟨id, false⟩ Unit).Run (start singleton [[1], [3], [1]] fun _ => .idle)
      [.get, .deliver, .get, .get, .deliver, .ask, .remote .get, .remote .proceed, .remote .finish,
        .finish] t ∧ keyCount [1] t.delivered = 2 := by
  refine ⟨_, LTS.run_ofFun_iff.mpr rfl, ?_⟩
  have h := getBlocks_delivers ⟨id, false⟩ Unit singleton [[1], [3], [1]] (fun _ => .idle)
    [.get, .deliver, .get, .get, .deliver, .ask, .remote .get, .remote .proceed, .remote .finish,
      .finish] _ (LTS.run_ofFun_iff.mpr rfl)
  exact (h.2.2 (by simp) rfl [1]).1 (throughout_of_own (by simp [FetchLabel.Own]) ⟨_, rfl⟩)

/-! ## A call that nobody disturbs -/

/-- The blocks that the blockstore has for the keys. -/
def found (env : HashEnv) (d : Ds.KeyMap) (ks : List Key) : List Block :=
  ks.filterMap fun k => ((mapStore env).get k d).1.toOption

/-- The retrieving calls of the offline exchange while nobody changes the blockstore. -/
def offlineRetriever (env : HashEnv) (d : Ds.KeyMap) : Retriever where
  getBlock k := ((mapStore env).get k d).1
  getBlocks ks := .ok (found env d ks)

/-- The two calls of the offline exchange agree. -/
theorem consistent_offlineRetriever (env : HashEnv) (d : Ds.KeyMap) :
    (offlineRetriever env d).Consistent := fun _ => rfl

section Alone

variable (env : HashEnv) (d : Ds.KeyMap)

/-- The blocks that the goroutine of the exchange has yet to send. -/
def Remote.future : Remote → List Block
  | .looping rest | .missed rest => found env d rest
  | .sending hit rest => hit :: found env d rest
  | .closed => []

/-- The blocks that a call has yet to deliver. -/
def Fetch.future : Fetch → List Block
  | .looping rest misses => (getBlocksLoop (mapStore env) rest d).1.1 ++
      found env d (misses ++ (getBlocksLoop (mapStore env) rest d).1.2)
  | .sending hit rest misses => hit :: ((getBlocksLoop (mapStore env) rest d).1.1 ++
      found env d (misses ++ (getBlocksLoop (mapStore env) rest d).1.2))
  | .ranging remote => remote.future env d
  | .forwarding b remote => b :: remote.future env d
  | .aborted _ | .finished => []

variable {env d}

/-- Without a cancellation, a step of the goroutine of the exchange changes nothing about
what it has yet to send. -/
theorem Remote.future_next {ev : RemoteEvent} {r r' : Remote}
    (h : Remote.next env d false ev r = some r') : r'.future env d = r.future env d := by
  cases Remote.step_of_next h with
  | hit hget | miss hget => simp [future, found, hget, Except.toOption]
  | proceed | finish => rfl
  | abort hc => cases hc

/-- Likewise for a call whose goroutine of the exchange takes a step. -/
theorem Fetch.future_onRemote {ev : RemoteEvent} {f f' : Fetch}
    (h : f.onRemote (Remote.next env d false ev) = some f') : f'.future env d = f.future env d := by
  cases Fetch.onRemote_spec h with
  | ranging hr => exact Remote.future_next hr
  | forwarding hr => exact congrArg (List.cons _) (Remote.future_next hr)
  | aborted hr => rfl

end Alone

namespace FetchSystem

variable {κ : Type} [DecidableEq κ] {env : HashEnv} {s t : FetchSystem κ} {l : FetchLabel κ}
  {ls : List (FetchLabel κ)}

/-- A step of the call itself delivers what it had yet to deliver. -/
theorem future_step (h : (lts env κ).step s l t) (hl : l.Own) (hs : s.cancelled = false) :
    t.delivered ++ t.fetch.future env s.store = s.delivered ++ s.fetch.future env s.store := by
  cases step_of_next h with
  | @hit k rest misses hit hfetch hget =>
    have hget : (mapStore env).get k s.store = (.ok hit, s.store) :=
      Prod.ext hget (readOnly_mapStore env k s.store)
    simp [hfetch, Fetch.future, getBlocksLoop, hget]
  | @miss k rest misses err hfetch hget =>
    have hget : (mapStore env).get k s.store = (.error err, s.store) :=
      Prod.ext hget (readOnly_mapStore env k s.store)
    simp [hfetch, Fetch.future, getBlocksLoop, hget]
  | deliver hfetch | forward hfetch => simp [hfetch, Fetch.future]
  | abort hcancelled => simp [hs] at hcancelled
  | ask hfetch => simp [hfetch, Fetch.future, Remote.future, getBlocksLoop]
  | pass hfetch | finish hfetch => simp [hfetch, Fetch.future, Remote.future]
  | remote hfetch =>
    rw [hs] at hfetch
    exact congrArg (s.delivered ++ ·) (Fetch.future_onRemote hfetch)
  | cancel => cases hl
  | client hclient => cases hl

/-- A call that nobody disturbs and that has closed its channel delivered what the
sequential `GetBlocks` delivers, in the same order. -/
theorem delivered_alone {d : Ds.KeyMap} {ks : List Key} {client : κ → Clients.Pc}
    (h : (lts env κ).Run (start d ks client) ls t) (hls : ∀ l ∈ ls, l.Own)
    (hclosed : t.fetch.Closed) :
    (getBlocks (mapStore env) (some (offlineRetriever env d)) ks d).1 = some t.delivered := by
  have hJ : (∀ l ∈ ls, l.Own) → t.store = d ∧ t.cancelled = false ∧
      t.delivered ++ t.fetch.future env d = (start d ks client).fetch.future env d := by
    refine h.history_induction (fun hist t => (∀ l ∈ hist, l.Own) → t.store = d ∧
      t.cancelled = false ∧ t.delivered ++ t.fetch.future env d =
        (start d ks client).fetch.future env d) (fun _ => ⟨rfl, rfl, rfl⟩) ?_
    intro hist v l w _ ih hstep hown
    have hl := hown l (by simp)
    obtain ⟨rfl, hc, hfuture⟩ := ih fun l' hl' => hown l' (by simp [hl'])
    refine ⟨store_of_own hstep hl, ?_, (future_step hstep hl hc).trans hfuture⟩
    cases step_of_next hstep with
    | cancel => cases hl
    | _ => exact hc
  obtain ⟨-, -, hfuture⟩ := hJ hls
  have hnone : t.fetch.future env d = [] := by
    cases hf : t.fetch with
    | aborted remote | finished => rfl
    | _ => simp [hf, Fetch.Closed] at hclosed
  rw [hnone, List.append_nil] at hfuture
  rw [hfuture]
  rfl

/-- Such a call delivered, up to the order, the blocks that `GetBlock` returns for the keys. -/
theorem delivered_alone_eq_getEach {d : Ds.KeyMap} {ks : List Key} {client : κ → Clients.Pc}
    (h : (lts env κ).Run (start d ks client) ls t) (hls : ∀ l ∈ ls, l.Own)
    (hclosed : t.fetch.Closed) : (t.delivered : Multiset Block) =
      (getEach (mapStore env) (some (offlineRetriever env d)) ks d : Multiset Block) := by
  obtain ⟨out, hout, hadd⟩ := getBlocks_add (readOnly_mapStore env)
    (consistent_offlineRetriever env d) ks d
  obtain rfl : out = t.delivered := by
    rw [delivered_alone h hls hclosed] at hout
    exact (Option.some.inj hout).symm
  -- The exchange fails on the keys on which its blockstore fails.
  have hnone : (ks.filter (failsOtherwise (mapStore env) d)).filterMap
      (offlineRetriever env d).block? = [] := by
    rw [List.filterMap_eq_nil_iff]
    intro k hk
    have hfails := (List.mem_filter.mp hk).2
    cases hget : ((mapStore env).get k d).1 with
    | ok b => simp [failsOtherwise, hget] at hfails
    | error err => simp [Retriever.block?, offlineRetriever, hget, Except.toOption]
  rw [hadd, hnone]
  simp

end FetchSystem

end GoBlocks.BlockService
