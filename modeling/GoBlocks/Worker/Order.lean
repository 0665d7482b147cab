import GoBlocks.Worker.Accepted

/-!
# The order of the work queue

The client worker loop sends the received blocks in their order as long as it
receives one only when it has nothing else to send, or nothing but the block it has
popped. A reception while another block is queued puts the popped block behind that
one, and the next send is out of order.
-/

namespace GoBlocks.Worker

/-- The keys received from `w.added`, in order. -/
def receivedKeys (ls : List LoopEvent) : List Key := (ls.filterMap LoopEvent.received).map Block.key

/-- The keys sent on `workerChan`, in order. -/
def sentKeys (ls : List LoopEvent) : List Key := (ls.filterMap LoopEvent.sent).map Block.key

/-- Receptions are in the order of the events. -/
theorem receivedKeys_mono {pre ls : List LoopEvent} (h : pre <+: ls) :
    receivedKeys pre <+: receivedKeys ls := (h.filterMap _).map _

/-- The keys received in a run are those of its first part and then those of the rest. -/
@[simp] theorem receivedKeys_append (ls ls' : List LoopEvent) :
    receivedKeys (ls ++ ls') = receivedKeys ls ++ receivedKeys ls' := by
  simp [receivedKeys]

/-- The keys sent in a run are those of its first part and then those of the rest. -/
@[simp] theorem sentKeys_append (ls ls' : List LoopEvent) :
    sentKeys (ls ++ ls') = sentKeys ls ++ sentKeys ls' := by
  simp [sentKeys]

namespace ClientLoop

/-- At every moment of the run, the keys sent so far are a prefix of the received
ones. -/
def SentInOrder (ls : List LoopEvent) : Prop :=
  ∀ pre s, pre <+: ls → lts.Run start pre s → sentKeys pre <+: receivedKeys ls

/-- No block is received while more than one block waits to be sent, that is, while
one is held as the next block and another one is queued. -/
def ReceivesInTurn (ls : List LoopEvent) : Prop :=
  ∀ pre b s, pre ++ [.recv b] <+: ls → lts.Run start pre s → s.pending.length ≤ 1

/-- The received keys are the sent and the pending ones, in this order. -/
def Keeps (hist : List LoopEvent) (s : ClientLoop) : Prop :=
  receivedKeys hist = sentKeys hist ++ s.pending.map Block.key

/-- The pending blocks after the reception of a new key: the popped block is behind
the queued ones. -/
theorem pending_recv {q : BlockList} {nb : Option Block} {b : Block} {s' : ClientLoop}
    (hs : (select q nb).AtHead) (h : (select q nb).next (.recv b) = some s')
    (hnew : b.key ∉ (select q nb).pending.map Block.key) :
    s'.pending = q.blocks ++ nb.toList ++ [b] := by
  have hnodup := hs.pending_nodup
  cases h
  rw [pending_iterate, BlockList.blocks_push]
  cases nb with
  | none =>
    rw [if_neg (by simpa [pending, requeue, BlockList.keys] using hnew)]
    simp [requeue]
  | some x =>
    have hx : x.key ∉ q.keys := (List.nodup_cons.mp hnodup).1
    have hblocks : (q.push x).blocks = q.blocks ++ [x] := by rw [BlockList.blocks_push, if_neg hx]
    have hb : b.key ∉ (q.push x).keys := by
      rw [BlockList.keys, hblocks]
      simpa [pending, and_comm] using hnew
    rw [requeue, if_neg hb, hblocks]
    rfl

/-- A send takes the first pending block. -/
theorem pending_send {s s' : ClientLoop} {b : Block} (h : s.next (.send b) = some s') :
    s.pending = b :: s'.pending := by
  cases s with
  | exited => cases h
  | select q nb =>
    simp only [next, Option.ite_none_right_eq_some, Option.some.injEq] at h
    obtain ⟨rfl, rfl⟩ := h
    rw [pending_iterate]
    rfl

variable {hist ls : List LoopEvent} {s s' : ClientLoop} {b : Block}

/-- A held block can be sent. -/
theorem exists_next_send (h : s.nextBlock = some b) : ∃ s', s.next (.send b) = some s' := by
  cases s with
  | exited => cases h
  | select q nb => exact ⟨iterate q, if_pos h⟩

/-- A new key is not pending. -/
theorem Keeps.notMem_pending (hk : Keeps hist s)
    (hnodup : (receivedKeys (hist ++ [.recv b])).Nodup) : b.key ∉ s.pending.map Block.key := by
  rw [receivedKeys_append, hk, List.append_assoc] at hnodup
  have hdisjoint := (List.nodup_append.mp hnodup).2.1
  exact fun hmem => (List.nodup_append.mp hdisjoint).2.2 _ hmem _ (List.mem_singleton_self _) rfl

/-- A reception in turn keeps the order. -/
theorem Keeps.recv (hk : Keeps hist s) (hs : s.AtHead) (hstep : s.next (.recv b) = some s')
    (hnodup : (receivedKeys (hist ++ [.recv b])).Nodup) (hturn : s.pending.length ≤ 1) :
    Keeps (hist ++ [.recv b]) s' := by
  have hnew := hk.notMem_pending hnodup
  cases s with
  | exited => cases hstep
  | select q nb =>
    -- One of the queue and the held block is empty, so they commute.
    have hcomm : q.blocks ++ nb.toList = nb.toList ++ q.blocks := by
      cases nb with
      | none => simp
      | some x =>
        have hempty : q.blocks = [] := by simpa [pending] using hturn
        simp [hempty]
    have hkeys : receivedKeys [.recv b] = [b.key] := rfl
    have hsent : sentKeys [.recv b] = [] := rfl
    unfold Keeps at hk ⊢
    rw [receivedKeys_append, sentKeys_append, hk, pending_recv hs hstep hnew, hcomm, hkeys, hsent,
      List.append_nil, List.map_append, List.append_assoc]
    rfl

/-- A send keeps the order. -/
theorem Keeps.send (hk : Keeps hist s) (hstep : s.next (.send b) = some s') :
    Keeps (hist ++ [.send b]) s' := by
  have hkeys : receivedKeys [.send b] = [] := rfl
  have hsent : sentKeys [.send b] = [b.key] := rfl
  unfold Keeps at hk ⊢
  rw [receivedKeys_append, sentKeys_append, hk, pending_send hstep, hkeys, hsent, List.append_nil,
    List.map_cons, List.append_assoc]
  rfl

/-- If the order is kept in every state of a run, then everything is sent in order. -/
theorem sentInOrder_of_keeps (h : ∀ pre s, pre <+: ls → lts.Run start pre s → Keeps pre s) :
    SentInOrder ls := by
  intro pre s hpre hrun
  have hprefix : sentKeys pre <+: receivedKeys pre := by
    rw [h pre s hpre hrun]
    exact List.prefix_append _ _
  exact hprefix.trans (receivedKeys_mono hpre)

/-- If every next send is in order after a reception, then the reception was in turn:
otherwise the first queued block can overtake the one that was held. -/
theorem Keeps.turn (hk : Keeps hist s) (hrun : lts.Run start hist s)
    (hstep : s.next (.recv b) = some s') (hnodup : (receivedKeys (hist ++ [.recv b])).Nodup)
    (horder : ∀ b', SentInOrder (hist ++ [.recv b] ++ [.send b'])) : s.pending.length ≤ 1 := by
  have hs := atHead_of_run hrun
  have hnew := hk.notMem_pending hnodup
  by_contra hlen
  obtain ⟨x, y, rest, hpending⟩ : ∃ x y rest, s.pending = x :: y :: rest := by
    rcases hp : s.pending with _ | ⟨x, _ | ⟨y, rest⟩⟩
    · simp [hp] at hlen
    · simp [hp] at hlen
    · exact ⟨x, y, rest, rfl⟩
  have hxy : y.key ≠ x.key := by
    have hpending_nodup := hs.pending_nodup
    rw [hpending] at hpending_nodup
    intro heq
    exact (List.nodup_cons.mp hpending_nodup).1 (heq ▸ List.mem_cons_self ..)
  cases s with
  | exited => cases hpending
  | select q nb =>
    obtain rfl : nb = some x := by
      have hnb := hs.nextBlock_eq
      rwa [hpending] at hnb
    have hqueue : q.blocks = y :: rest := (List.cons.inj hpending).2
    have hpending' := pending_recv hs hstep hnew
    have hnext : s'.nextBlock = some y := by
      rw [(atHead_of_next hstep).nextBlock_eq, hpending', hqueue]
      rfl
    obtain ⟨s'', hsend⟩ := exists_next_send hnext
    have hrun' : lts.Run start (hist ++ [.recv b] ++ [.send y]) s'' := (hrun.snoc hstep).snoc hsend
    have hprefix := horder y _ _ (List.prefix_refl _) hrun'
    have hkeys : receivedKeys (hist ++ [.recv b] ++ [.send y]) =
        sentKeys hist ++ (x.key :: y.key :: rest.map Block.key ++ [b.key]) := by
      rw [receivedKeys_append, receivedKeys_append, hk, hpending, List.append_assoc,
        List.append_assoc]
      rfl
    have hsent : sentKeys (hist ++ [.recv b] ++ [.send y]) = sentKeys hist ++ [y.key] := by
      rw [sentKeys_append, sentKeys_append]
      simp [sentKeys, LoopEvent.sent]
    rw [hkeys, hsent, List.prefix_append_right_inj, List.cons_append,
      List.cons_prefix_cons] at hprefix
    exact hxy hprefix.1

/-- The order is kept along a run of receptions and sends whose receptions are in
turn. -/
theorem keeps_of_turns (hopen : ∀ l ∈ ls, l ≠ .tick ∧ l ≠ .closing)
    (hnodup : (receivedKeys ls).Nodup)
    (hturn : ∀ hist b s s', hist ++ [.recv b] <+: ls → lts.Run start hist s → Keeps hist s →
      s.next (.recv b) = some s' → s.pending.length ≤ 1)
    (hhist : hist <+: ls) (hrun : lts.Run start hist s) : Keeps hist s := by
  refine prefix_induction (fun hist => ∀ s, lts.Run start hist s → Keeps hist s) ?_ ?_ hhist s hrun
  · intro s hrun
    cases hrun
    rfl
  · intro hist l hhist ih s' hrun'
    obtain ⟨s, hrun, hstep⟩ := LTS.run_snoc_iff.mp hrun'
    have hl := hopen l (hhist.subset (by simp))
    cases l with
    | recv b =>
      exact (ih s hrun).recv (atHead_of_run hrun) hstep
        (hnodup.sublist (receivedKeys_mono hhist).sublist)
        (hturn hist b s s' hhist hrun (ih s hrun) hstep)
    | send b => exact (ih s hrun).send hstep
    | tick => exact absurd rfl hl.1
    | closing => exact absurd rfl hl.2

end ClientLoop

/-- **The order of the work queue.** Take any run of the client worker loop without a
debug tick and before closing, in which the received keys are distinct. The keys sent
are at every moment a prefix of the received ones, also after one more send at any
moment, if and only if no block is received while one is held and another one is
queued. -/
theorem sentInOrder_iff (ls : List LoopEvent) (hopen : ∀ l ∈ ls, l ≠ .tick ∧ l ≠ .closing)
    (hnodup : (receivedKeys ls).Nodup) :
    (ClientLoop.SentInOrder ls ∧ ∀ pre b, pre <+: ls → ClientLoop.SentInOrder (pre ++ [.send b])) ↔
      ClientLoop.ReceivesInTurn ls := by
  constructor
  · rintro ⟨-, horder⟩
    have hturn : ∀ hist b s s', hist ++ [.recv b] <+: ls → ClientLoop.lts.Run .start hist s →
        ClientLoop.Keeps hist s → s.next (.recv b) = some s' → s.pending.length ≤ 1 :=
      fun hist b s s' hhist hrun hk hstep => hk.turn hrun hstep
        (hnodup.sublist (receivedKeys_mono hhist).sublist) fun b' => horder _ b' hhist
    intro pre b s hpre hrun
    have hkeeps := ClientLoop.keeps_of_turns hopen hnodup hturn
      ((List.prefix_append _ _).trans hpre) hrun
    cases s with
    | exited => exact Nat.zero_le _
    | select q nb => exact hturn pre b _ _ hpre hrun hkeeps rfl
  · intro hturn
    have hkeeps : ∀ pre s, pre <+: ls → ClientLoop.lts.Run .start pre s →
        ClientLoop.Keeps pre s := fun pre s hpre hrun =>
      ClientLoop.keeps_of_turns hopen hnodup (fun hist b s s' hhist hrun _ _ =>
        hturn hist b s hhist hrun) hpre hrun
    refine ⟨ClientLoop.sentInOrder_of_keeps hkeeps, fun pre b hpre => ?_⟩
    refine ClientLoop.sentInOrder_of_keeps fun pre' s' hpre' hrun' => ?_
    rcases List.prefix_concat_iff.mp hpre' with rfl | hpre'
    · obtain ⟨s, hrun, hstep⟩ := LTS.run_snoc_iff.mp hrun'
      exact (hkeeps pre s hpre hrun).send hstep
    · exact hkeeps pre' s' (hpre'.trans hpre) hrun'

/-- Two blocks that are sent on before the next one is received are in order. -/
theorem sentInOrder_one_by_one :
    ClientLoop.SentInOrder
      [.recv ⟨[1], []⟩, .send ⟨[1], []⟩, .recv ⟨[2], []⟩, .send ⟨[2], []⟩] := by
  refine ((sentInOrder_iff _ (by simp) (by decide)).mpr ?_).1
  intro pre b s hpre hrun
  have hpre' : pre = [] ∨ pre = [.recv ⟨[1], []⟩, .send ⟨[1], []⟩] := by
    rcases pre with _ | ⟨_, _ | ⟨_, _ | ⟨_, _ | ⟨_, pre⟩⟩⟩⟩ <;> simp_all [List.cons_prefix_cons]
  rcases hpre' with rfl | rfl <;>
  · obtain rfl := Option.some.inj (LTS.run_ofFun_iff.mp hrun)
    exact Nat.zero_le _

/-- A worker with the default configuration receives three blocks before it can send
one. The second block overtakes the first. -/
theorem not_sentInOrder_three :
    ∃ w t, newWorker Unit defaultConfig = some w ∧
      (lts idleExchange).Run ((), w)
        [.handoff ⟨[1], []⟩, .handoff ⟨[2], []⟩, .handoff ⟨[3], []⟩, .pass ⟨[2], []⟩] t ∧
      ¬ ClientLoop.SentInOrder
        ([.handoff ⟨[1], []⟩, .handoff ⟨[2], []⟩, .handoff ⟨[3], []⟩, .pass ⟨[2], []⟩].filterMap
          loopEvent) := by
  refine ⟨_, _, rfl, LTS.run_ofFun_iff.mpr rfl, fun h => ?_⟩
  have hprefix := h _ _ (List.prefix_refl _) (LTS.run_ofFun_iff.mpr rfl)
  exact absurd hprefix (by decide)

end GoBlocks.Worker
