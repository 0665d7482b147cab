import GoBlocks.Lib.Progress
import GoBlocks.Process.Exclusive
import Mathlib.Algebra.Order.BigOperators.Group.List
import Mathlib.Algebra.Order.Ring.Nat

/-!
# The work that is left

Every step of a goroutine, also the return of a teardown function or of a function that
`Go` runs, takes something from the work that is left. Goroutines therefore come to rest
after finitely many steps if no caller interferes, however they interleave.
-/

namespace GoBlocks

variable {T E : Type}

/-! ## The measure -/

/-- What a process can still start: a goroutine for each child, and one that clears the
links. -/
def Process.work (P : Process T E) : ℕ :=
  (if P.closed then 0 else P.waiters.length + 1) + P.waitfors.length + 3 * P.children.length

/-- The number of processes that are not closed. -/
def Processes.numOpen (s : Processes T E) : ℕ :=
  ∑ p ∈ Finset.range s.size, (!(s.proc p).closed).toNat

/-- The steps that a goroutine can take after `Close`, with `n` processes open. -/
def Goroutine.workAfter (n : ℕ) : Option ℕ → ℕ
  | none => 0
  | some _ => 2 * n + 6

/-- The steps that a goroutine can take. In `CloseAfterChildren` it waits for another
process each time, and the process that it waited for is closed. -/
def Goroutine.work (s : Processes T E) : Goroutine E → ℕ
  | .body _ _ => 2 * s.numOpen + 10
  | .close _ k => workAfter s.numOpen k + 3
  | .waiting _ _ wf k => workAfter s.numOpen k + wf.length + 2
  | .tearing _ k | .joined _ k => workAfter s.numOpen k + 1
  | .closeAfterChildren _ => 2 * s.numOpen + 6
  | .nextToWaitFor _ => 2 * s.numOpen + 5
  | .awaits _ c => 2 * s.numOpen + if (s.proc c).closed then 6 else 4
  | .addToChild _ => 3
  | .clear ls => ls.length + 1
  | .returned _ _ | .panicked | .done => 0

namespace Processes

/-- The work of the goroutines. -/
def threadWork (s : Processes T E) : ℕ := (s.threads.map (Goroutine.work s)).sum

/-- The work of the processes. -/
def procWork (s : Processes T E) : ℕ := ∑ p ∈ Finset.range s.size, (s.proc p).work

/-- The work that is left. -/
def work (s : Processes T E) : ℕ := s.threadWork + s.procWork

variable {s t : Processes T E}

/-- The work of a goroutine depends on the processes that are closed. -/
theorem work_congr (hsize : t.size = s.size) (hclosed : ∀ p, (t.proc p).closed = (s.proc p).closed)
    (g : Goroutine E) : g.work t = g.work s := by
  have hopen : t.numOpen = s.numOpen := by simp only [numOpen, hsize, hclosed]
  cases g <;> simp only [Goroutine.work, hopen, hclosed]

/-- The work of the goroutines if one of them moves on, and starts others. -/
theorem threadWork_set {i : ℕ} {g : Goroutine E} (g' : Goroutine E) (gs : List (Goroutine E))
    (hi : s.threads[i]? = some g) (hsize : t.size = s.size)
    (hclosed : ∀ p, (t.proc p).closed = (s.proc p).closed)
    (hthreads : t.threads = s.threads.set i g' ++ gs) :
    t.threadWork + g.work s = s.threadWork + g'.work s + (gs.map (Goroutine.work s)).sum := by
  have hwork : Goroutine.work t = Goroutine.work s := funext (work_congr hsize hclosed)
  have hset := sum_map_set_add (Goroutine.work s) hi g'
  simp only [threadWork, hthreads, hwork, List.map_append, List.sum_append]
  omega

/-- The work of the processes if one of them changes. -/
theorem procWork_modify {p : ℕ} (hp : p < s.size) (hsize : t.size = s.size)
    (hproc : ∀ q, q ≠ p → t.proc q = s.proc q) :
    t.procWork + (s.proc p).work = s.procWork + (t.proc p).work := by
  rw [procWork, procWork, hsize]
  exact sum_range_add (f := fun q => (t.proc q).work) (g := fun q => (s.proc q).work) hp
    fun q hq => congrArg Process.work (hproc q hq)

/-- A process changes in what makes no work. -/
theorem work_modify {p : ℕ} {f : Process T E → Process T E}
    (hclosed : (f (s.proc p)).closed = (s.proc p).closed)
    (hwork : (f (s.proc p)).work = (s.proc p).work) : (s.modify p f).work = s.work := by
  have hgoroutines : Goroutine.work (s.modify p f) = Goroutine.work s :=
    funext (work_congr rfl (modify_field (·.closed) hclosed))
  have hprocs : (s.modify p f).procWork = s.procWork :=
    Finset.sum_congr rfl fun q _ => modify_field Process.work hwork q
  rw [work, work, hprocs, threadWork, hgoroutines]
  rfl

/-- A goroutine that moves on has less to do. -/
theorem Silent.work_lt {g g' : Goroutine E} (h : Silent s g g') : g'.work s < g.work s := by
  cases h with
  | @after p k => cases k <;> simp [Goroutine.after, Goroutine.work, Goroutine.workAfter]
  | @await p c hopen => simp [Goroutine.work, hopen]
  | @awaited p c hclosed => simp [Goroutine.work, hclosed]
  | _ => simp [Goroutine.work, Goroutine.workAfter]

/-- The loop of `doClose` has less to do, also if there are children to close and other
processes to wait for. -/
theorem work_sweep_lt {i p : ℕ} {k : Option ℕ} {g : Goroutine E} (hi : s.threads[i]? = some g)
    (hp : p < s.size) (hg : Goroutine.workAfter s.numOpen k + 2 ≤ g.work s) :
    (s.sweep i p k).work < s.work := by
  have hclosed : ∀ q, ((s.sweep i p k).proc q).closed = (s.proc q).closed :=
    sweep_field (·.closed) fun _ _ _ _ => rfl
  have hself : ((s.sweep i p k).proc p).work + ((s.proc p).waitfors.length +
      3 * (s.proc p).children.length) = (s.proc p).work := by
    simp [sweep, spawn, goto, modify, Process.work]
    omega
  have hproc := procWork_modify (t := s.sweep i p k) hp rfl fun q hne => by
    simp [sweep, spawn, goto, modify, hne]
  have hthread := threadWork_set _ _ hi (t := s.sweep i p k) rfl hclosed rfl
  have hclosers : ((((s.proc p).children.filterMap s.link).map fun c =>
      Goroutine.close (E := E) c none).map (Goroutine.work s)).sum ≤
      3 * (s.proc p).children.length := by
    have hle := List.length_filterMap_le s.link (s.proc p).children
    simp only [List.map_map, Function.comp_def, Goroutine.work, Goroutine.workAfter,
      List.map_const', List.sum_replicate_nat]
    omega
  have hswept : (Goroutine.swept p k (s.proc p).waitfors : Goroutine E).work s <
      Goroutine.workAfter s.numOpen k + 2 + (s.proc p).waitfors.length := by
    cases (s.proc p).waitfors <;> simp [Goroutine.swept, Goroutine.work]
    omega
  simp only [work]
  omega

/-- The work of a goroutine when another process is closed. -/
theorem work_finish_le {p : ℕ} (hopen : t.numOpen + 1 = s.numOpen)
    (hother : ∀ q, q ≠ p → (t.proc q).closed = (s.proc q).closed) (hp : (s.proc p).closed = false)
    (hp' : (t.proc p).closed) (g : Goroutine E) : g.work t ≤ g.work s := by
  have hafter : ∀ k, Goroutine.workAfter t.numOpen k ≤ Goroutine.workAfter s.numOpen k := by
    intro k
    cases k <;> simp [Goroutine.workAfter]
    omega
  cases g with
  | awaits q c =>
    rcases eq_or_ne c p with rfl | hne
    · simp [Goroutine.work, hp, hp']
      omega
    · simp [Goroutine.work, hother c hne]
      omega
  | close q k | waiting q w wf k | tearing q k | joined q k => simp [Goroutine.work, hafter k]
  | _ => simp [Goroutine.work] <;> omega

/-- The end of `doClose` has less to do. -/
theorem work_finish_lt {i p : ℕ} {k : Option ℕ} (e : Option E)
    (hi : s.threads[i]? = some (.tearing p k)) (hp : p < s.size)
    (hopen : (s.proc p).closed = false) : (s.finish i p e k).work < s.work := by
  have hself : ((s.finish i p e k).proc p).closed = true := by
    simp [finish, spawn, goto, modify]
  have hother : ∀ q, q ≠ p → (s.finish i p e k).proc q = s.proc q := by
    intro q hne
    simp [finish, spawn, goto, modify, hne]
  have hnum : (s.finish i p e k).numOpen + 1 = s.numOpen := by
    have hsum := sum_range_add (f := fun q => (!((s.finish i p e k).proc q).closed).toNat)
      (g := fun q => (!(s.proc q).closed).toNat) hp fun q hq => by rw [hother q hq]
    simp only [hself, hopen, Bool.not_false, Bool.not_true, Bool.toNat_true, Bool.toNat_false,
      Nat.add_zero] at hsum
    exact hsum
  have hle : ∀ g : Goroutine E, g.work (s.finish i p e k) ≤ g.work s :=
    work_finish_le hnum (fun q hq => congrArg (·.closed) (hother q hq)) hopen hself
  -- the goroutines, as if the process were not closed yet
  have hset := sum_map_set_add (Goroutine.work s) hi (.after p e k)
  have hthreads : ((s.threads.set i (.after p e k)).map (Goroutine.work (s.finish i p e k))).sum ≤
      ((s.threads.set i (.after p e k)).map (Goroutine.work s)).sum :=
    List.sum_le_sum fun g _ => hle g
  have hafter : (Goroutine.after p e k).work s + 1 =
      (Goroutine.tearing p k : Goroutine E).work s := by
    cases k <;> rfl
  have hproc := procWork_modify (t := s.finish i p e k) hp rfl hother
  have hwork : ((s.finish i p e k).proc p).work + ((s.proc p).waiters.length + 1) =
      (s.proc p).work := by
    simp [finish, spawn, goto, modify, Process.work, hopen]
    omega
  have htotal : (s.finish i p e k).threadWork = ((s.threads.set i (.after p e k)).map
      (Goroutine.work (s.finish i p e k))).sum + ((s.proc p).waiters.length + 1) := by
    simp [threadWork, finish, spawn, goto, modify, Goroutine.work]
  have hsum : s.threadWork = (s.threads.map (Goroutine.work s)).sum := rfl
  simp only [work]
  omega

/-- `AddToChild` has less to do, also if the child has another link to clear. -/
theorem work_added_lt {i l c : ℕ} (hi : s.threads[i]? = some (.addToChild l)) (hc : c < s.size)
    (hopen : (s.proc c).closed = false) :
    ((s.modify c fun P => { P with waiters := P.waiters ++ [l] }).goto i .done).work < s.work := by
  have hclosed := modify_field (s := s) (p := c)
    (f := fun P => { P with waiters := P.waiters ++ [l] }) (·.closed) rfl
  have hthread := threadWork_set .done [] hi
    (t := (s.modify c fun P => { P with waiters := P.waiters ++ [l] }).goto i .done) rfl hclosed
    (List.append_nil _).symm
  have hproc := procWork_modify
    (t := (s.modify c fun P => { P with waiters := P.waiters ++ [l] }).goto i .done) hc rfl
    fun q hne => by simp [goto, modify, hne]
  have hwork : (((s.modify c fun P => { P with waiters := P.waiters ++ [l] }).goto i .done).proc
      c).work = (s.proc c).work + 1 := by
    simp [goto, modify, Process.work, hopen]
    omega
  simp only [work, Goroutine.work, List.map_nil, List.sum_nil] at hthread ⊢
  omega

/-- A goroutine moves on, and no process changes. -/
theorem work_goto_lt {i : ℕ} {g g' : Goroutine E} (hi : s.threads[i]? = some g)
    (hsize : t.size = s.size) (hproc : t.proc = s.proc) (hthreads : t.threads = s.threads.set i g')
    (hlt : g'.work s < g.work s) : t.work < s.work := by
  have hthread := threadWork_set (t := t) g' [] hi hsize (fun p => by rw [hproc])
    (by rw [hthreads, List.append_nil])
  have hprocs : t.procWork = s.procWork := by simp only [procWork, hsize, hproc]
  simp only [work, List.map_nil, List.sum_nil] at hthread ⊢
  omega

/-- Every step of a goroutine takes from the work that is left. -/
theorem Step.work_lt (hs : Sound s) (h : Step s t) : t.work < s.work := by
  cases h with
  | silent hi hg => exact work_goto_lt hi rfl rfl rfl hg.work_lt
  | @begin i p k hi =>
    have hp := (hs.threads _ (List.mem_of_getElem? hi)).1
    have hwork : (s.modify p fun P => { P with closing := true }).work = s.work :=
      work_modify rfl rfl
    rw [← hwork]
    exact work_sweep_lt hi hp (Nat.le_succ _)
  | resume hi => exact work_sweep_lt hi (hs.threads _ (List.mem_of_getElem? hi)).1 le_rfl
  | @added i l c hi hl hopen => exact work_added_lt hi (hs.link l c hl).2 hopen
  | @clear i l ls hi => exact work_goto_lt hi rfl rfl rfl (Nat.lt_succ_self _)
  | finish e hi hopen =>
    exact work_finish_lt e hi (hs.threads _ (List.mem_of_getElem? hi)).1 hopen
  | @crash i g hi hg =>
    refine work_goto_lt hi rfl rfl rfl ?_
    rcases hg with ⟨l, rfl, -⟩ | ⟨p, k, rfl, -⟩ <;> simp [Goroutine.work]

end Processes

end GoBlocks
