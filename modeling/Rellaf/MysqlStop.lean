/-
Stopping a worker: `tx_end` and `stop` against `thd_routine`.

Both sides write `MyThread.status`. The worker tests it at the head of its loop
and then stores 2, in two accesses; the stopping thread stores 0. When the 0 falls
between the two it is overwritten, the worker never sees it, and `pthread_join`
waits for a thread that goes on (`stop_lost`). `Undisturbed` rules out that one
step, and that is all it takes: behind the store, `status` stays 0
(`status_zero`), and the worker comes to its end by its own steps
(`worker_ends`).

Other threads may add tasks to the queue at any time.
-/
import Rellaf.Lib.Machine
import Rellaf.MysqlWorker

set_option autoImplicit false

open Rellaf.Cpp

namespace Rellaf.Mysql

variable {κ : Type} [DecidableEq κ]

/-! ## The two threads -/

/-- What the stopping thread runs. -/
inductive StopOp where
  | tx_end
  | stop
  deriving DecidableEq, Repr

/-- Where it is: `tx_end` hands its statement to the worker, waits for it and then
stores 0; `stop` begins with the store. -/
inductive StopPc where
  | add
  | add_waiting
  | wait
  | store
  | clear
  | join
  | done
  deriving DecidableEq, Repr

/-- The 0 has been written. -/
def StopPc.stored : StopPc → Bool
  | .add | .add_waiting | .wait | .store => false
  | .clear | .join | .done => true

structure StopState (κ : Type) where
  worker : Worker κ
  mem : Memory κ
  pc : StopPc

/-- The atomic steps of all threads. `other_add` is a client that adds a task. -/
inductive StopEvent (κ : Type) where
  | worker (act : WorkerAct)
  | add (alloc : Bool)
  | add_wake (alloc : Bool)
  | wait
  | store
  | clear
  | join
  | other_add (c : κ) (alloc : Bool)
  deriving DecidableEq, Repr

/-- The stopping thread with the worker it stops; `own` is the context of
`tx_end`. It does not look at what its `add_block` returns. -/
def stop_step (op : StopOp) (own : κ) (s : StopState κ) : StopEvent κ → Option (StopState κ)
  | .worker act =>
    (worker_step s.worker s.mem act).map fun (w, mem) => { s with worker := w, mem := mem }
  | .add alloc =>
    if s.pc = .add then
      match s.worker.tasks.add_block own alloc with
      | none => some { s with pc := .add_waiting }
      | some (_, tasks) => some { s with worker := { s.worker with tasks := tasks }, pc := .wait }
    else none
  | .add_wake alloc =>
    if s.pc = .add_waiting then
      match s.worker.tasks.add_wake own alloc with
      | none => some s
      | some (_, tasks) => some { s with worker := { s.worker with tasks := tasks }, pc := .wait }
    else none
  | .wait =>
    if s.pc = .wait ∧ (s.mem.context own).latch.wait = true then some { s with pc := .store }
    else none
  | .store =>
    if s.pc = .store then
      some { s with
        worker := { s.worker with status := 0 }
        pc := if op = .tx_end then .clear else .join }
    else none
  | .clear =>
    if s.pc = .clear then
      some { s with
        worker := { s.worker with tasks := s.worker.tasks.clear }
        pc := .join }
    else none
  | .join => if s.pc = .join ∧ s.worker.pc = .ended then some { s with pc := .done } else none
  | .other_add c alloc =>
    some { s with worker := { s.worker with tasks := (s.worker.tasks.add_locked c alloc).2 } }

/-- The machine, from the start of the worker on. `context` is what the clients of
the worker have set up. -/
def stop_machine (op : StopOp) (own : κ) (task_queue_size : Nat) (context : κ → MyContext) :
    Machine (StopState κ) (StopEvent κ) where
  init := ⟨.new task_queue_size, ⟨context, []⟩, if op = .tx_end then .add else .store⟩
  step := stop_step op own

/-- The store of 0 does not fall between the worker's test and its store. -/
def Undisturbed (s : StopState κ) (e : StopEvent κ) : Prop :=
  ¬ (e = .store ∧ s.worker.pc = .store)

instance (s : StopState κ) (e : StopEvent κ) : Decidable (Undisturbed s e) :=
  inferInstanceAs (Decidable (¬ _))

/-! ## The status stays 0 -/

/-- Only the worker's own store makes a `status` of 0 another one, and with a 0
the worker does not get there. -/
theorem worker_step_zero {w w' : Worker κ} {mem mem' : Memory κ} {act : WorkerAct}
    (h : worker_step w mem act = some (w', mem')) (hstatus : w.status = 0)
    (hpc : w.pc ≠ .store) : w'.status = 0 ∧ w'.pc ≠ .store := by
  have hnext : ∀ last, (WorkerPc.next last : WorkerPc κ) ≠ .store := by
    intro last
    cases last <;> simp [WorkerPc.next]
  have hpopped : ∀ n : Option κ, WorkerPc.popped n ≠ .store := by
    intro n
    cases n <;> simp [WorkerPc.popped]
  cases worker_step_move h with
  | test => exact ⟨hstatus, by simp [hstatus]⟩
  | store hstore => exact absurd hstore hpc
  | pop_sleep => exact ⟨hstatus, by simp⟩
  | pop _ n => exact ⟨hstatus, hpopped n⟩
  | wake_sleep => exact ⟨hstatus, hpc⟩
  | wake _ n => exact ⟨hstatus, hpopped n⟩
  | timeout => exact ⟨hstatus, by simp⟩
  | alloc => exact ⟨hstatus, by simp⟩
  | alloc_fails => exact ⟨hstatus, by simp⟩
  | exec => exact ⟨hstatus, by simp⟩
  | count_down c last =>
    refine ⟨hstatus, ?_⟩
    change (if _ then WorkerPc.signal c last else WorkerPc.next last) ≠ .store
    split
    · simp
    · exact hnext last
  | signal _ last => exact ⟨hstatus, hnext last⟩
  | close => exact ⟨hstatus, by simp⟩

/-- Behind the store: `status` is 0, and the worker is not about to overwrite it. -/
def StopState.Stopped (s : StopState κ) : Prop :=
  s.pc.stored = true → s.worker.status = 0 ∧ s.worker.pc ≠ .store

theorem stopped_step {op : StopOp} {own : κ} {s s' : StopState κ} {e : StopEvent κ}
    (hs : s.Stopped) (he : Undisturbed s e) (h : stop_step op own s e = some s') :
    s'.Stopped := by
  cases e with
  | worker act =>
    obtain ⟨⟨w, mem⟩, hstep, rfl⟩ := Option.map_eq_some_iff.mp h
    intro hstored
    obtain ⟨hstatus, hpc⟩ := hs hstored
    exact worker_step_zero hstep hstatus hpc
  | store =>
    -- the condition keeps this store away from the worker's test
    simp only [stop_step, Option.ite_none_right_eq_some, Option.some.injEq] at h
    obtain ⟨-, rfl⟩ := h
    intro _
    exact ⟨rfl, fun hpc => he ⟨rfl, hpc⟩⟩
  | add alloc =>
    simp only [stop_step] at h
    split at h
    · split at h <;> cases h <;> exact nofun
    · cases h
  | add_wake alloc =>
    simp only [stop_step] at h
    split at h
    · split at h <;> cases h
      · exact hs
      · exact nofun
    · cases h
  | wait =>
    simp only [stop_step, Option.ite_none_right_eq_some, Option.some.injEq] at h
    obtain ⟨-, rfl⟩ := h
    exact nofun
  | clear =>
    simp only [stop_step, Option.ite_none_right_eq_some, Option.some.injEq] at h
    obtain ⟨hpc, rfl⟩ := h
    intro _
    exact hs (by rw [hpc]; rfl)
  | join =>
    simp only [stop_step, Option.ite_none_right_eq_some, Option.some.injEq] at h
    obtain ⟨⟨hpc, -⟩, rfl⟩ := h
    intro _
    exact hs (by rw [hpc]; rfl)
  | other_add c alloc =>
    obtain rfl := Option.some.inj h
    exact hs

theorem stopped_of_reaches (op : StopOp) (own : κ) (task_queue_size : Nat)
    (context : κ → MyContext) {es : List (StopEvent κ)} {s : StopState κ}
    (h : ((stop_machine op own task_queue_size context).restrict Undisturbed).Reaches es s) :
    s.Stopped := by
  have hinit : (stop_machine op own task_queue_size context).init.Stopped := by
    cases op <;> exact nofun
  refine Machine.restrict_preserves _ ?_ hinit h
  intro s e s' hs he hstep
  exact stopped_step hs he hstep

/-! ## The worker ends -/

/-- The thread alone. -/
def worker_machine : Machine (Worker κ × Memory κ) WorkerAct where
  init := (.new 0, ⟨fun _ => .new [], []⟩)
  step s act := worker_step s.1 s.2 act

/-- The thread can end by its own steps. -/
def CanEnd (w : Worker κ) (mem : Memory κ) : Prop :=
  ∃ acts w' mem', worker_machine.run (w, mem) acts = some (w', mem') ∧ w'.pc = .ended

theorem CanEnd.of_step {w w' : Worker κ} {mem mem' : Memory κ} (act : WorkerAct)
    (h : worker_step w mem act = some (w', mem')) (hend : CanEnd w' mem') : CanEnd w mem := by
  obtain ⟨acts, w'', mem'', hrun, hpc⟩ := hend
  refine ⟨act :: acts, w'', mem'', ?_, hpc⟩
  exact (Machine.run_cons_eq_some _).mpr ⟨(w', mem'), h, hrun⟩

theorem canEnd_of_close {w : Worker κ} (mem : Memory κ) (hpc : w.pc = .close) : CanEnd w mem := by
  exact CanEnd.of_step .close (WorkerMove.close hpc).worker_step ⟨[], _, _, rfl, rfl⟩

theorem canEnd_of_test {w : Worker κ} (mem : Memory κ) (hstatus : w.status = 0)
    (hpc : w.pc = .test) : CanEnd w mem := by
  refine CanEnd.of_step .test (WorkerMove.test hpc).worker_step (canEnd_of_close mem ?_)
  exact if_neg (not_not_intro hstatus)

theorem canEnd_of_next {w : Worker κ} (mem : Memory κ) (hstatus : w.status = 0) (last : Bool)
    (hpc : w.pc = .next last) : CanEnd w mem := by
  cases last with
  | true => exact canEnd_of_close mem hpc
  | false => exact canEnd_of_test mem hstatus hpc

theorem canEnd_of_signal {w : Worker κ} (mem : Memory κ) (hstatus : w.status = 0) {c : κ}
    {last : Bool} (hpc : w.pc = .signal c last) : CanEnd w mem := by
  exact CanEnd.of_step .signal (WorkerMove.signal c last hpc).worker_step
    (canEnd_of_next _ hstatus last rfl)

theorem canEnd_of_count_down {w : Worker κ} (mem : Memory κ) (hstatus : w.status = 0) {c : κ}
    {last : Bool} (hpc : w.pc = .count_down c last) : CanEnd w mem := by
  refine CanEnd.of_step .count_down (WorkerMove.count_down c last hpc).worker_step ?_
  cases hzero : (mem.context c).latch.count_down.1 with
  | true => exact canEnd_of_signal _ hstatus rfl
  | false => exact canEnd_of_next _ hstatus last rfl

theorem canEnd_of_alloc {w : Worker κ} (mem : Memory κ) (hstatus : w.status = 0) {c : κ}
    (hpc : w.pc = .alloc c) : CanEnd w mem := by
  exact CanEnd.of_step (.alloc false) (WorkerMove.alloc_fails c hpc).worker_step
    (canEnd_of_count_down mem hstatus rfl)

theorem canEnd_of_waiting {w : Worker κ} (mem : Memory κ) (hstatus : w.status = 0)
    (hpc : w.pc = .waiting) : CanEnd w mem := by
  exact CanEnd.of_step .timeout (WorkerMove.timeout hpc).worker_step
    (canEnd_of_test mem hstatus rfl)

theorem canEnd_of_pop {w : Worker κ} (mem : Memory κ) (hstatus : w.status = 0)
    (hpc : w.pc = .pop) : CanEnd w mem := by
  rcases hpop : w.tasks.pop_block with - | ⟨n, tasks⟩
  · exact CanEnd.of_step .pop (WorkerMove.pop_sleep hpc hpop).worker_step
      (canEnd_of_waiting mem hstatus rfl)
  · refine CanEnd.of_step .pop (WorkerMove.pop hpc n tasks hpop).worker_step ?_
    cases n with
    | none => exact canEnd_of_test mem hstatus rfl
    | some c => exact canEnd_of_alloc mem hstatus rfl

/-- A worker with `status` 0 that is not about to overwrite it can end, wherever
it is: its waits time out, its statements return, and its next test is its last. -/
theorem worker_ends (w : Worker κ) (mem : Memory κ) (hstatus : w.status = 0)
    (hpc : w.pc ≠ .store) : CanEnd w mem := by
  cases h : w.pc with
  | test => exact canEnd_of_test mem hstatus h
  | store => exact absurd h hpc
  | pop => exact canEnd_of_pop mem hstatus h
  | waiting => exact canEnd_of_waiting mem hstatus h
  | alloc c => exact canEnd_of_alloc mem hstatus h
  | exec c r =>
    let failed : Attempt := ⟨false, 0, 0, none, []⟩
    let answers : Answers := ⟨false, [], failed, failed, failed⟩
    exact CanEnd.of_step (.exec answers) (WorkerMove.exec c r answers h).worker_step
      (canEnd_of_count_down _ hstatus rfl)
  | count_down c last => exact canEnd_of_count_down mem hstatus h
  | signal c last => exact canEnd_of_signal mem hstatus h
  | close => exact canEnd_of_close mem h
  | ended => exact ⟨[], w, mem, rfl, h⟩

/-- The steps of the worker are steps of both threads. -/
theorem run_worker (op : StopOp) (own : κ) (task_queue_size : Nat) (context : κ → MyContext)
    {s : StopState κ} {acts : List WorkerAct} {w : Worker κ} {mem : Memory κ}
    (h : worker_machine.run (s.worker, s.mem) acts = some (w, mem)) :
    (stop_machine op own task_queue_size context).run s (acts.map .worker)
      = some { s with worker := w, mem := mem } := by
  induction acts generalizing s with
  | nil =>
    cases h
    rfl
  | cons act acts ih =>
    obtain ⟨⟨w', mem'⟩, hstep, hrest⟩ := (Machine.run_cons_eq_some _).mp h
    refine (Machine.run_cons_eq_some _).mpr ⟨{ s with worker := w', mem := mem' }, ?_, ?_⟩
    · exact Option.map_eq_some_iff.mpr ⟨(w', mem'), hstep, rfl⟩
    · exact ih (s := { s with worker := w', mem := mem' }) hrest

/-- **A stop that is not disturbed.** When the store of 0 does not fall between a
test of the worker and its store: once 0 is written, `status` is 0 in every state
reached, the worker leaves its loop at its next test, and it can end, after which
the join returns. -/
theorem status_zero (op : StopOp) (own : κ) (task_queue_size : Nat) (context : κ → MyContext)
    (es : List (StopEvent κ)) (s : StopState κ)
    (h : ((stop_machine op own task_queue_size context).restrict Undisturbed).Reaches es s)
    (hstored : s.pc.stored = true) :
    s.worker.status = 0 ∧
      (∀ s', stop_step op own s (.worker .test) = some s' → s'.worker.pc = .close) ∧
      ∃ (acts : List WorkerAct) (s' : StopState κ),
        (stop_machine op own task_queue_size context).run s (acts.map .worker) = some s' ∧
        s'.worker.pc = .ended ∧
        (s.pc = .join → stop_step op own s' .join = some { s' with pc := .done }) := by
  obtain ⟨hstatus, hpc⟩ := stopped_of_reaches op own task_queue_size context h hstored
  refine ⟨hstatus, ?_, ?_⟩
  · intro s' htest
    obtain ⟨⟨w, mem⟩, hstep, rfl⟩ := Option.map_eq_some_iff.mp htest
    cases worker_step_move hstep with
    | test => simp [hstatus]
  · obtain ⟨acts, w, mem, hrun, hended⟩ := worker_ends s.worker s.mem hstatus hpc
    refine ⟨acts, _, run_worker op own task_queue_size context hrun, hended, ?_⟩
    intro hjoin
    simp [stop_step, hjoin, hended]

/-- `stop` on a worker that sleeps in `pop_block`. -/
theorem status_zero_sleeping :
    let machine := stop_machine .stop (0 : Nat) 10 fun _ => .new []
    ∃ s, (machine.restrict Undisturbed).Reaches
        [.worker .test, .worker .store, .worker .pop, .store] s ∧ s.worker.status = 0 := by
  refine ⟨_, rfl, ?_⟩
  exact (status_zero .stop (0 : Nat) 10 (fun _ => .new [])
    [.worker .test, .worker .store, .worker .pop, .store] _ rfl rfl).1

/-- The worker tests `status`, `stop` stores 0, the worker stores 2: the 0 is lost,
and the next test goes on. -/
theorem stop_lost :
    let machine := stop_machine .stop (0 : Nat) 10 fun _ => .new []
    ∃ s s', machine.Reaches [.worker .test, .store, .worker .store] s ∧
      s.pc = .join ∧ s.worker.status = 2 ∧
      machine.run s [.worker .pop, .worker .timeout, .worker .test] = some s' ∧
      s'.worker.pc = .store := by
  exact ⟨_, _, rfl, rfl, rfl, rfl, rfl⟩

end Rellaf.Mysql
