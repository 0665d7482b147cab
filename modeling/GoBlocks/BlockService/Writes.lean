import GoBlocks.BlockService.Basic

/-!
# Blocks on their way to the blockstore

A block is on its way to the blockstore in an unfinished call of a client, and in
the worker from the moment it is handed over until its child process is done. A
step of the system makes no other blocks be on their way than those a client
starts to add, and it stores under a key only if a block with the key was on its
way.
-/

namespace GoBlocks

/-- The block of a `Put` in progress. -/
def Putting.block : Putting → Block
  | .has b | .put b => b

/-- The raw calls of a `Put` go on with the same block. -/
theorem Putting.block_of_step {d : Ds.KeyMap} {p p' : Putting}
    (h : (p.step blocksDatastore d).2 = .inr p') : p'.block = p.block := by
  cases p with
  | has b =>
    rw [step_has] at h
    split at h
    · cases h
    · cases h
      rfl
  | put b => cases h

/-- A raw call of a `Put` leaves the other keys alone. -/
theorem Putting.lookup_step {d : Ds.KeyMap} {p : Putting} {rk : Ds.Key}
    (h : rawKey p.block.key ≠ rk) : (p.step blocksDatastore d).1.lookup rk = d.lookup rk := by
  cases p with
  | has b => rw [step_has]
  | put b => exact Finmap.lookup_insert_of_ne d fun heq => h heq.symm

namespace BlockService

open Blockstore

/-- The child process is about to put the block or in the course of it. -/
def childWrites (b : Block) : Worker.Child Putting → Prop
  | .spawned b' => b' = b
  | .calling _ p => p.block = b
  | .returned _ => False

/-- The block is on its way through the worker. -/
inductive WorkerWrites (w : Worker.State Putting) (b : Block) : Prop
  | added (h : b ∈ w.added.buf)
  | loop (h : b ∈ w.loop.pending)
  | workerChan (h : b ∈ w.workerChan.buf)
  | limiter (h : w.limiter = .limited b)
  | child (child : Worker.Child Putting) (hmem : child ∈ w.children) (h : childWrites b child)

/-- Where a block on its way through the worker can be. -/
theorem WorkerWrites.elim {w : Worker.State Putting} {b : Block} {P : Prop}
    (hb : WorkerWrites w b) (hadded : b ∈ w.added.buf → P) (hloop : b ∈ w.loop.pending → P)
    (hchan : b ∈ w.workerChan.buf → P) (hlimiter : w.limiter = .limited b → P)
    (hchild : ∀ child, child ∈ w.children → childWrites b child → P) : P := by
  cases hb with
  | added h => exact hadded h
  | loop h => exact hloop h
  | workerChan h => exact hchan h
  | limiter h => exact hlimiter h
  | child child hmem h => exact hchild child hmem h

/-- The call of the client has yet to put the block or to hand it to the worker. -/
def Pc.Writes (b : Block) : Pc → Prop
  | .adding b' p => b' = b ∨ p.block = b
  | .offering b' => b' = b
  | .putting p => p.block = b
  | _ => False

/-- The block is on its way to the blockstore. -/
def System.Writes {ι : Type} (s : System ι) (b : Block) : Prop :=
  WorkerWrites s.worker b ∨ ∃ i, (s.client i).Writes b

/-- A step of a child leaves it with the block it had. -/
theorem childWrites_of_run {d d' : Ds.KeyMap} {child child' : Worker.Child Putting} {b : Block}
    (h : child.run offlineExchange d = some (d', child')) (hb : childWrites b child') :
    childWrites b child := by
  cases child with
  | spawned b' =>
    cases h
    exact hb
  | calling b' p =>
    cases hstep : (p.step blocksDatastore d).2 with
    | inl r =>
      simp only [Worker.Child.run, offlineExchange, hstep, Sum.getRight?_inl] at h
      cases h
      cases hb
    | inr p' =>
      simp only [Worker.Child.run, offlineExchange, hstep, Sum.getRight?_inr] at h
      cases h
      exact (Putting.block_of_step hstep).symm.trans hb
  | returned b' => cases h

/-- A step of a child changes the contents under the key of its block only. -/
theorem lookup_of_run {d d' : Ds.KeyMap} {child child' : Worker.Child Putting} {rk : Ds.Key}
    (h : child.run offlineExchange d = some (d', child'))
    (hrk : ∀ b, childWrites b child → rawKey b.key ≠ rk) : d'.lookup rk = d.lookup rk := by
  cases child with
  | spawned b' =>
    cases h
    rfl
  | calling b' p =>
    have hd' : d' = (p.step blocksDatastore d).1 := by
      simp only [Worker.Child.run, offlineExchange] at h
      split at h <;>
      · cases h
        simp_all
    rw [hd']
    exact Putting.lookup_step (hrk p.block rfl)
  | returned b' => cases h

/-- The worker gets its blocks from clients only: a block on its way through the
worker was there before the step, or the step took it from a client. -/
theorem workerWrites_of_next {s t : Ds.KeyMap × Worker.State Putting} {e : Worker.Event}
    (h : Worker.next offlineExchange s e = some t) {b : Block} (hb : WorkerWrites t.2 b) :
    WorkerWrites s.2 b ∨ e = .send b ∨ e = .handoff b := by
  have hquiet : ∀ {loop loop' : Worker.ClientLoop} {le : Worker.LoopEvent},
      loop.next le = some loop' → (∀ b, le ≠ .recv b) → b ∈ loop'.pending → b ∈ loop.pending :=
    fun hloop hle h => (Worker.ClientLoop.mem_pending_of_next hloop h).resolve_right (hle b)
  cases Worker.step_of_next _ h with
  | send hsend =>
    refine hb.elim (fun h => ?_) (fun h => .inl (.loop h)) (fun h => .inl (.workerChan h))
      (fun h => .inl (.limiter h)) fun child hmem h => .inl (.child child hmem h)
    rcases Chan.mem_buf_of_send hsend h with h | rfl
    · exact .inl (.added h)
    · exact .inr (.inl rfl)
  | handoff hmeet hloop =>
    refine hb.elim (fun h => .inl (.added h)) (fun h => ?_) (fun h => .inl (.workerChan h))
      (fun h => .inl (.limiter h)) fun child hmem h => .inl (.child child hmem h)
    rcases Worker.ClientLoop.mem_pending_of_next hloop h with h | heq
    · exact .inl (.loop h)
    · cases heq
      exact .inr (.inr rfl)
  | recv hrecv hloop =>
    have hbuf := Chan.buf_of_recv hrecv
    refine .inl (hb.elim (fun h => .added (hbuf ▸ List.mem_cons_of_mem _ h)) (fun h => ?_)
      (fun h => .workerChan h) (fun h => .limiter h) fun child hmem h => .child child hmem h)
    rcases Worker.ClientLoop.mem_pending_of_next hloop h with h | heq
    · exact .loop h
    · cases heq
      exact .added (hbuf ▸ List.mem_cons_self ..)
  | push hsend hloop =>
    refine .inl (hb.elim (fun h => .added h) (fun h => .loop (hquiet hloop (by simp) h))
      (fun h => ?_) (fun h => .limiter h) fun child hmem h => .child child hmem h)
    rcases Chan.mem_buf_of_send hsend h with h | rfl
    · exact .workerChan h
    · exact .loop (Worker.ClientLoop.mem_pending_of_send hloop)
  | pass hlimiter hmeet hloop =>
    refine .inl (hb.elim (fun h => .added h) (fun h => .loop (hquiet hloop (by simp) h))
      (fun h => .workerChan h) (fun h => ?_) fun child hmem h => .child child hmem h)
    cases h
    exact .loop (Worker.ClientLoop.mem_pending_of_send hloop)
  | take hlimiter hrecv =>
    have hbuf := Chan.buf_of_recv hrecv
    refine .inl (hb.elim (fun h => .added h) (fun h => .loop h)
      (fun h => .workerChan (hbuf ▸ List.mem_cons_of_mem _ h)) (fun h => ?_)
      fun child hmem h => .child child hmem h)
    cases h
    exact .workerChan (hbuf ▸ List.mem_cons_self ..)
  | spawn hlimiter hrecv =>
    refine .inl (hb.elim (fun h => .added h) (fun h => .loop h) (fun h => .workerChan h)
      (fun h => by cases h) fun child hmem h => ?_)
    rcases List.mem_append.mp hmem with hmem | hmem
    · exact .child child hmem h
    · cases List.mem_singleton.mp hmem
      cases h
      exact .limiter hlimiter
  | run hchild hrun =>
    refine .inl (hb.elim (fun h => .added h) (fun h => .loop h) (fun h => .workerChan h)
      (fun h => .limiter h) fun child hmem hwrites => ?_)
    rcases List.mem_or_eq_of_mem_set hmem with hmem | rfl
    · exact .child child hmem hwrites
    · exact .child _ (List.mem_of_getElem? hchild) (childWrites_of_run hrun hwrites)
  | release hchild hsend =>
    exact .inl (hb.elim (fun h => .added h) (fun h => .loop h) (fun h => .workerChan h)
      (fun h => .limiter h) fun child hmem h => .child child (List.mem_of_mem_eraseIdx hmem) h)
  | tick hloop | loopExit _ hloop =>
    exact .inl (hb.elim (fun h => .added h) (fun h => .loop (hquiet hloop (by simp) h))
      (fun h => .workerChan h) (fun h => .limiter h) fun child hmem h => .child child hmem h)
  | drained _ _ | limiterExit _ _ =>
    exact .inl (hb.elim (fun h => .added h) (fun h => .loop h) (fun h => .workerChan h)
      (fun h => by cases h) fun child hmem h => .child child hmem h)
  | close | closed _ _ _ _ =>
    exact .inl (hb.elim (fun h => .added h) (fun h => .loop h) (fun h => .workerChan h)
      (fun h => .limiter h) fun child hmem h => .child child hmem h)

/-- A step of the worker leaves a key absent if no block on its way has the key. -/
theorem lookup_worker {s t : Ds.KeyMap × Worker.State Putting} {e : Worker.Event} {rk : Ds.Key}
    (h : Worker.next offlineExchange s e = some t)
    (hrk : ∀ b, WorkerWrites s.2 b → rawKey b.key ≠ rk) : t.1.lookup rk = s.1.lookup rk := by
  cases Worker.step_of_next _ h with
  | run hchild hrun =>
    exact lookup_of_run hrun fun b hb => hrk b (.child _ (List.mem_of_getElem? hchild) hb)
  | _ => rfl

/-- A raw call of a client leaves it with the blocks it had. -/
theorem Pc.writes_of_raw {env : HashEnv} {d d' : Ds.KeyMap} {p p' : Pc} {b : Block}
    (h : p.raw env d = some (d', p')) (hb : p'.Writes b) : p.Writes b := by
  cases p with
  | adding b' q =>
    simp only [Pc.raw] at h
    split at h
    next d₁ q' hstep =>
      cases h
      have hblock := Putting.block_of_step (congrArg Prod.snd hstep)
      exact hb.imp_right hblock.symm.trans
    next =>
      cases h
      exact .inl hb
    next =>
      cases h
      cases hb
  | putting q =>
    simp only [Pc.raw] at h
    split at h
    next d₁ q' hstep =>
      cases h
      exact (Putting.block_of_step (congrArg Prod.snd hstep)).symm.trans hb
    next =>
      cases h
      cases hb
  | getting k =>
    simp only [Pc.raw] at h
    split at h <;>
    · cases h
      cases hb
  | fetching k | deleting k =>
    cases h
    cases hb
  | idle | offering b' | returned r => cases h

/-- A raw call of a client leaves a key absent if the client writes no block with
the key. -/
theorem Pc.lookup_of_raw {env : HashEnv} {d d' : Ds.KeyMap} {p p' : Pc} {rk : Ds.Key}
    (h : p.raw env d = some (d', p')) (hrk : ∀ b, p.Writes b → rawKey b.key ≠ rk)
    (habsent : d.lookup rk = none) : d'.lookup rk = none := by
  cases p with
  | adding b q =>
    have hd' : d' = (q.step blocksDatastore d).1 := by
      simp only [Pc.raw] at h
      split at h <;>
      · cases h
        simp_all
    rw [hd', Putting.lookup_step (hrk q.block (.inr rfl)), habsent]
  | putting q =>
    have hd' : d' = (q.step blocksDatastore d).1 := by
      simp only [Pc.raw] at h
      split at h <;>
      · cases h
        simp_all
    rw [hd', Putting.lookup_step (hrk q.block rfl), habsent]
  | getting k =>
    have hd' : d' = ((mapStore env).get k d).2 := by
      simp only [Pc.raw] at h
      split at h <;>
      · cases h
        simp_all
    rw [hd', mapStore.get_eq, habsent]
  | fetching k =>
    simp only [Pc.raw, mapStore.get_eq, Option.some.injEq, Prod.mk.injEq] at h
    rw [← h.1, habsent]
  | deleting k =>
    simp only [Pc.raw, mapStore.deleteBlock_eq, Option.some.injEq, Prod.mk.injEq] at h
    rw [← h.1]
    split
    · by_cases hk : rk = rawKey k
      · rw [hk]
        exact Finmap.lookup_erase _ d
      · rw [Finmap.lookup_erase_ne hk, habsent]
    · exact habsent
  | idle | offering b | returned r => cases h

section System

variable {ι : Type} [DecidableEq ι] {env : HashEnv} {s t : System ι}

/-- What a change of one client leaves to be written. -/
theorem writes_update {client : ι → Pc} {i : ι} {p : Pc} {b : Block}
    (h : ∃ j, (Function.update client i p j).Writes b) : p.Writes b ∨ ∃ j, (client j).Writes b := by
  obtain ⟨j, hj⟩ := h
  by_cases hji : j = i
  · subst hji
    rw [Function.update_self] at hj
    exact .inl hj
  · rw [Function.update_of_ne hji] at hj
    exact .inr ⟨j, hj⟩

/-- The step starts a call that adds the block. -/
def Label.Adds (b : Block) : Label ι → Prop
  | .start _ (.addBlock b') | .start _ (.put b') => b' = b
  | _ => False

/-- A block that is handed over was on its way already. -/
theorem offer_spec {i : ι} {event : Block → Worker.Event} (hevent : ∀ b b',
      event b = .send b' ∨ event b = .handoff b' → b = b') (h : offer s i event = some t) :
    (∀ b, t.Writes b → s.Writes b) ∧
      ∀ rk, (∀ b, s.Writes b → rawKey b.key ≠ rk) → t.store.lookup rk = s.store.lookup rk := by
  unfold offer at h
  split at h
  next b₀ hoffering =>
    obtain ⟨r, hr, rfl⟩ := Option.map_eq_some_iff.mp h
    have hb₀ : s.Writes b₀ := .inr ⟨i, by rw [hoffering]; rfl⟩
    refine ⟨fun b hb => ?_, fun rk hrk => lookup_worker hr fun b hb => hrk b (.inl hb)⟩
    rcases hb with hb | hb
    · rcases workerWrites_of_next hr hb with hb | hb
      · exact .inl hb
      · exact hevent b₀ b hb ▸ hb₀
    · rcases writes_update hb with hb | hb
      · cases hb
      · exact .inr hb
  next => cases h

/-- One step: what is on its way was so before, unless a client starts to add it,
and a key stays absent if no block on its way has it. -/
theorem next_spec {l : Label ι} (h : next env s l = some t) :
    (∀ b, t.Writes b → s.Writes b ∨ l.Adds b) ∧
      ∀ rk, (∀ b, s.Writes b → rawKey b.key ≠ rk) → s.store.lookup rk = none →
        t.store.lookup rk = none := by
  cases l with
  | start i op =>
    simp only [next, Option.ite_none_right_eq_some, Option.some.injEq] at h
    obtain ⟨-, rfl⟩ := h
    refine ⟨fun b hb => ?_, fun _ _ h => h⟩
    rcases hb with hb | hb
    · exact .inl (.inl hb)
    · rcases writes_update hb with hb | hb
      · right
        cases op with
        | addBlock b' => exact hb.elim id id
        | put b' => exact hb
        | getBlock k => cases hb
        | deleteBlock k => cases hb
      · exact .inl (.inr hb)
  | raw i =>
    obtain ⟨⟨d', p'⟩, hraw, rfl⟩ := Option.map_eq_some_iff.mp h
    refine ⟨fun b hb => .inl ?_, fun rk hrk habsent => ?_⟩
    · rcases hb with hb | hb
      · exact .inl hb
      · rcases writes_update hb with hb | hb
        · exact .inr ⟨i, Pc.writes_of_raw hraw hb⟩
        · exact .inr hb
    · exact Pc.lookup_of_raw hraw (fun b hb => hrk b (.inr ⟨i, hb⟩)) habsent
  | send i | handoff i =>
    obtain ⟨hwrites, hlookup⟩ := offer_spec (by simp) h
    exact ⟨fun b hb => .inl (hwrites b hb), fun rk hrk habsent => (hlookup rk hrk).trans habsent⟩
  | refuse i =>
    simp only [next] at h
    split at h
    · cases h
      refine ⟨fun b hb => .inl ?_, fun _ _ h => h⟩
      rcases hb with hb | hb
      · exact .inl hb
      · rcases writes_update hb with hb | hb
        · cases hb
        · exact .inr hb
    · cases h
  | worker e =>
    simp only [next, Option.ite_none_left_eq_some, Option.map_eq_some_iff] at h
    obtain ⟨hclient, r, hr, rfl⟩ := h
    refine ⟨fun b hb => .inl ?_, fun rk hrk habsent => ?_⟩
    · rcases hb with hb | hb
      · rcases workerWrites_of_next hr hb with hb | rfl | rfl
        · exact .inl hb
        · exact absurd rfl hclient
        · exact absurd rfl hclient
      · exact .inr hb
    · exact (lookup_worker hr fun b hb => hrk b (.inl hb)).trans habsent

end System

end BlockService

end GoBlocks
