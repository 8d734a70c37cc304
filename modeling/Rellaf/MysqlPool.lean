/-
The pool of workers and its clients: `MysqlSimplePool::execute` and
`fetch_thread` against `thd_routine`, over every interleaving.

A call of `execute` is one `κ`, whichever thread makes it and whenever. It picks a
worker round robin, hands it its context through the worker's queue, waits for the
latch in the context and finds its result where the worker has stored it. All
calls and workers take their steps in any order; nothing stops a worker or clears
a queue, and where it matters allocations do not fail (`Allocates`).

`History` is what each worker's queue has seen so far. Nothing reads it; it is
there to say, in `WorkerOk` and `PoolOk`, how the queue, the worker and the
contexts hang together. The key is who owns a context: an accepted call is in the
history of one worker only, so what other workers store cannot touch its result.
-/
import Rellaf.Lib.Machine
import Rellaf.MysqlWorker

set_option autoImplicit false

open Rellaf.Cpp

namespace Rellaf.Mysql

variable {κ : Type} [DecidableEq κ] {n : Nat}

/-! ## The machine -/

/-- Where a call of `execute` is; the worker is its local variable `tasks`. -/
inductive CallPc (n : Nat) where
  | fetch
  | add (w : Fin n)
  | add_waiting (w : Fin n)
  | wait (w : Fin n)
  | returned (w : Fin n)
  deriving DecidableEq, Repr

/-- The calls a worker's queue has accepted, the ones the worker has taken from it
and the ones it has run, with what MySQL answered; each in order. -/
structure History (κ : Type) where
  accepted : List κ
  taken : List κ
  executed : List (κ × Answers)

structure PoolState (κ : Type) (n : Nat) where
  _s_pool : Fin n → Worker κ
  mem : Memory κ
  call : κ → CallPc n
  _action_idx : UInt64
  history : Fin n → History κ

namespace PoolState

variable (s : PoolState κ n)

def set_call (c : κ) (pc : CallPc n) : PoolState κ n :=
  { s with call := Function.update s.call c pc }

def set_worker (w : Fin n) (worker : Worker κ) : PoolState κ n :=
  { s with _s_pool := Function.update s._s_pool w worker }

def set_tasks (w : Fin n) (tasks : Queue κ) : PoolState κ n :=
  s.set_worker w { s._s_pool w with tasks := tasks }

def set_history (w : Fin n) (history : History κ) : PoolState κ n :=
  { s with history := Function.update s.history w history }

/-- A step of a worker. -/
def work (w : Fin n) (worker : Worker κ) (mem : Memory κ) (history : History κ) :
    PoolState κ n :=
  ({ s with mem := mem }.set_worker w worker).set_history w history

/-- `*result_ptr = nullptr` -/
def clear_result (c : κ) : PoolState κ n :=
  { s with mem := { s.mem with
    context := Function.update s.mem.context c { s.mem.context c with result := none } } }

/-- `execute` once its `add_block` has returned. -/
def added (c : κ) (w : Fin n) (ret : Int) (tasks : Queue κ) : PoolState κ n :=
  let s := s.set_tasks w tasks
  if ret ≠ 0 then (s.clear_result c).set_call c (.returned w)
  else
    (s.set_history w { s.history w with accepted := (s.history w).accepted ++ [c] }).set_call c
      (.wait w)

end PoolState

/-- What a step of a worker adds to its history. -/
def History.note (h : History κ) (act : WorkerAct) (pc : WorkerPc κ) : History κ :=
  match act, pc with
  | .pop, .alloc c | .wake, .alloc c => { h with taken := h.taken ++ [c] }
  | .exec answers, .count_down c _ => { h with executed := h.executed ++ [(c, answers)] }
  | _, _ => h

/-- The atomic steps of the calls and of the workers. -/
inductive PoolEvent (κ : Type) (n : Nat) where
  | fetch (c : κ)
  | add (c : κ) (alloc : Bool)
  | add_wake (c : κ) (alloc : Bool)
  | wait (c : κ)
  | worker (w : Fin n) (act : WorkerAct)
  deriving DecidableEq, Repr

def pool_step [NeZero n] (s : PoolState κ n) : PoolEvent κ n → Option (PoolState κ n)
  | .fetch c =>
    -- `fetch_thread`
    match s.call c with
    | .fetch =>
      let idx := s._action_idx + 1
      some ({ s with _action_idx := idx }.set_call c (.add (Fin.ofNat n idx.toNat)))
    | _ => none
  | .add c alloc =>
    match s.call c with
    | .add w =>
      match (s._s_pool w).tasks.add_block c alloc with
      | none => some (s.set_call c (.add_waiting w))
      | some (ret, tasks) => some (s.added c w ret tasks)
    | _ => none
  | .add_wake c alloc =>
    match s.call c with
    | .add_waiting w =>
      match (s._s_pool w).tasks.add_wake c alloc with
      | none => some s
      | some (ret, tasks) => some (s.added c w ret tasks)
    | _ => none
  | .wait c =>
    match s.call c with
    | .wait w =>
      if (s.mem.context c).latch.wait then some (s.set_call c (.returned w)) else none
    | _ => none
  | .worker w act =>
    match worker_step (s._s_pool w) s.mem act with
    | none => none
    | some (worker, mem) =>
      some (s.work w worker mem ((s.history w).note act worker.pc))

/-- The pool from `connect` on, for calls with these statements. -/
def pool_machine (n : Nat) [NeZero n] (task_queue_size : Nat) (sql : κ → Str) :
    Machine (PoolState κ n) (PoolEvent κ n) where
  init :=
    { _s_pool := fun _ => .new task_queue_size
      mem := ⟨fun c => .new (sql c), []⟩
      call := fun _ => .fetch
      _action_idx := 0
      history := fun _ => ⟨[], [], []⟩ }
  step := pool_step

/-- The allocations of the step succeed. -/
def PoolEvent.allocates : PoolEvent κ n → Bool
  | .add _ alloc | .add_wake _ alloc => alloc
  | .worker _ (.alloc ok) => ok
  | _ => true

def Allocates (_ : PoolState κ n) (e : PoolEvent κ n) : Prop := e.allocates = true

instance (s : PoolState κ n) (e : PoolEvent κ n) : Decidable (Allocates s e) :=
  inferInstanceAs (Decidable (_ = _))

/-! ## What holds of a worker -/

/-- The session after statements a worker has run from its start on. -/
def session_after (sql : κ → Str) (executed : List (κ × Answers)) : Session :=
  executed.foldl (fun session task => (exec_sql (sql task.1) task.2 session).1) .new

/-- The call a worker has taken and not yet run. -/
def WorkerPc.current : WorkerPc κ → List κ
  | .alloc c | .exec c _ => [c]
  | _ => []

/-- The call a worker has run and not yet released. -/
def WorkerPc.counting : WorkerPc κ → Option κ
  | .count_down c _ | .signal c _ => some c
  | _ => none

/-- Each call that has run holds the result of its own statement, run where the
statements before it have left the session. -/
def Outcomes (sql : κ → Str) (mem : Memory κ) (executed : List (κ × Answers)) : Prop :=
  ∀ before c answers after, executed = before ++ (c, answers) :: after →
    ∃ r, (mem.context c).result = some r ∧
      mem.heap[r]? = some (exec_sql (sql c) answers (session_after sql before)).2

/-- A worker against the history of its queue. -/
structure WorkerOk (sql : κ → Str) (mem : Memory κ) (w : Worker κ) (h : History κ) : Prop where
  queue : w.tasks.Ok
  accepted : h.accepted = h.taken ++ w.tasks._list
  taken : h.taken = h.executed.map Prod.fst ++ w.pc.current
  session : w.pc ≠ .ended → w.session = session_after sql h.executed
  exec : ∀ c r, w.pc = .exec c r → (mem.context c).result = some r
  counted : ∀ c, w.pc.counting = some c → c ∈ h.executed.map Prod.fst
  outcome : Outcomes sql mem h.executed

/-- The whole pool. -/
structure PoolOk (sql : κ → Str) (s : PoolState κ n) : Prop where
  worker : ∀ w, WorkerOk sql s.mem (s._s_pool w) (s.history w)
  nodup : ∀ w, (s.history w).accepted.Nodup
  owner : ∀ w c, c ∈ (s.history w).accepted ↔ s.call c = .wait w ∨ s.call c = .returned w
  sql : ∀ c, (s.mem.context c).sql = sql c
  result_lt : ∀ c r, (s.mem.context c).result = some r → r < s.mem.heap.length
  result_inj : ∀ c c' r, (s.mem.context c).result = some r →
    (s.mem.context c').result = some r → c = c'
  signal : ∀ c, (s.mem.context c).latch._signal = true →
    ∃ w, c ∈ (s.history w).executed.map Prod.fst
  returned : ∀ c w, s.call c = .returned w → c ∈ (s.history w).executed.map Prod.fst

theorem pool_init_ok (n : Nat) [NeZero n] (task_queue_size : Nat) (sql : κ → Str) :
    PoolOk sql (pool_machine n task_queue_size sql).init where
  worker _ :=
    { queue := Queue.new_ok _ _
      accepted := rfl
      taken := rfl
      session := fun _ => rfl
      exec := nofun
      counted := nofun
      outcome := fun before c answers after h => absurd h (by simp [pool_machine]) }
  nodup _ := List.nodup_nil
  owner _ _ := by simp [pool_machine]
  sql _ := rfl
  result_lt := nofun
  result_inj := nofun
  signal := nofun
  returned := nofun

/-! ## Consequences -/

omit [DecidableEq κ] in
theorem WorkerOk.taken_subset {sql : κ → Str} {mem : Memory κ} {w : Worker κ} {h : History κ}
    (hw : WorkerOk sql mem w h) {c : κ} (hc : c ∈ h.taken) : c ∈ h.accepted := by
  rw [hw.accepted]
  exact List.mem_append_left _ hc

omit [DecidableEq κ] in
theorem WorkerOk.executed_subset {sql : κ → Str} {mem : Memory κ} {w : Worker κ} {h : History κ}
    (hw : WorkerOk sql mem w h) {c : κ} (hc : c ∈ h.executed.map Prod.fst) : c ∈ h.taken := by
  rw [hw.taken]
  exact List.mem_append_left _ hc

omit [DecidableEq κ] in
theorem WorkerOk.current_subset {sql : κ → Str} {mem : Memory κ} {w : Worker κ} {h : History κ}
    (hw : WorkerOk sql mem w h) {c : κ} (hc : c ∈ w.pc.current) : c ∈ h.taken := by
  rw [hw.taken]
  exact List.mem_append_right _ hc

omit [DecidableEq κ] in
/-- The outcomes stay when nothing is stored in the contexts and results of the
calls that have run. -/
theorem Outcomes.frame {sql : κ → Str} {mem mem' : Memory κ} {executed : List (κ × Answers)}
    (h : Outcomes sql mem executed)
    (hcontext : ∀ c ∈ executed.map Prod.fst, (mem'.context c).result = (mem.context c).result)
    (hheap : ∀ c ∈ executed.map Prod.fst, ∀ r, (mem.context c).result = some r →
      mem'.heap[r]? = mem.heap[r]?) : Outcomes sql mem' executed := by
  intro before c answers after hexecuted
  obtain ⟨r, hr, hresult⟩ := h before c answers after hexecuted
  have hc : c ∈ executed.map Prod.fst := by
    rw [hexecuted]
    simp
  refine ⟨r, ?_, ?_⟩
  · rw [hcontext c hc, hr]
  · rw [hheap c hc r hr, hresult]

omit [DecidableEq κ] in
/-- One more call has run. -/
theorem Outcomes.concat {sql : κ → Str} {mem : Memory κ} {executed : List (κ × Answers)}
    (h : Outcomes sql mem executed) {c : κ} {answers : Answers} {r : Nat}
    (hr : (mem.context c).result = some r)
    (hresult : mem.heap[r]? = some (exec_sql (sql c) answers (session_after sql executed)).2) :
    Outcomes sql mem (executed ++ [(c, answers)]) := by
  intro before c' answers' after hexecuted
  rcases List.eq_nil_or_concat after with rfl | ⟨after, last, rfl⟩
  · obtain ⟨rfl, htask⟩ := List.append_inj' hexecuted rfl
    cases htask
    exact ⟨r, hr, hresult⟩
  · rw [List.concat_eq_append, ← List.cons_append, ← List.append_assoc] at hexecuted
    obtain ⟨rfl, -⟩ := List.append_inj' hexecuted rfl
    exact h before c' answers' after rfl

omit [DecidableEq κ] in
/-- A worker does not notice what is stored elsewhere: in contexts it has not
taken, and in results of calls it has not run. -/
theorem WorkerOk.frame {sql : κ → Str} {mem mem' : Memory κ} {w : Worker κ} {h : History κ}
    (hw : WorkerOk sql mem w h)
    (hcontext : ∀ c ∈ h.taken, (mem'.context c).result = (mem.context c).result)
    (hheap : ∀ c ∈ h.executed.map Prod.fst, ∀ r, (mem.context c).result = some r →
      mem'.heap[r]? = mem.heap[r]?) : WorkerOk sql mem' w h where
  queue := hw.queue
  accepted := hw.accepted
  taken := hw.taken
  session := hw.session
  exec := by
    intro c r hpc
    have hc : c ∈ h.taken := hw.current_subset (by rw [hpc]; exact List.mem_singleton.mpr rfl)
    rw [hcontext c hc]
    exact hw.exec c r hpc
  counted := hw.counted
  outcome := hw.outcome.frame (fun c hc => hcontext c (hw.executed_subset hc)) hheap

omit [DecidableEq κ] in
/-- An accepted call has one worker. -/
theorem PoolOk.owner_unique {sql : κ → Str} {s : PoolState κ n} (hs : PoolOk sql s)
    {w w' : Fin n} {c : κ} (h : c ∈ (s.history w).accepted)
    (h' : c ∈ (s.history w').accepted) : w = w' := by
  have hcall := (hs.owner w c).mp h
  have hcall' := (hs.owner w' c).mp h'
  rcases hcall with hcall | hcall <;> rcases hcall' with hcall' | hcall' <;>
    rw [hcall] at hcall' <;> cases hcall' <;> rfl

omit [DecidableEq κ] in
/-- What a worker is about to run has not been run, by it or by another one. -/
theorem PoolOk.current_not_executed {sql : κ → Str} {s : PoolState κ n} (hs : PoolOk sql s)
    {w w' : Fin n} {c : κ} (hc : c ∈ (s._s_pool w).pc.current) :
    c ∉ (s.history w').executed.map Prod.fst := by
  intro hc'
  have hacc := (hs.worker w).taken_subset ((hs.worker w).current_subset hc)
  have hacc' := (hs.worker w').taken_subset ((hs.worker w').executed_subset hc')
  obtain rfl := hs.owner_unique hacc hacc'
  have hnodup := hs.nodup w
  rw [(hs.worker w).accepted, (hs.worker w).taken] at hnodup
  exact List.disjoint_of_nodup_append (List.nodup_append.mp hnodup).1 hc' hc

/-! ## The steps of a call -/

/-- A call that is not accepted moves to another place where it is not. -/
theorem PoolOk.set_call {sql : κ → Str} {s : PoolState κ n} (hs : PoolOk sql s) {c : κ}
    {pc : CallPc n} (hold : ∀ w, s.call c ≠ .wait w ∧ s.call c ≠ .returned w)
    (hnew : ∀ w, pc ≠ .wait w ∧ pc ≠ .returned w) : PoolOk sql (s.set_call c pc) where
  worker := hs.worker
  nodup := hs.nodup
  owner := by
    intro w c'
    change c' ∈ (s.history w).accepted ↔
      Function.update s.call c pc c' = _ ∨ Function.update s.call c pc c' = _
    rw [hs.owner]
    by_cases hc : c' = c
    · subst hc
      rw [Function.update_self]
      simp [hold w, hnew w]
    · rw [Function.update_of_ne hc]
  sql := hs.sql
  result_lt := hs.result_lt
  result_inj := hs.result_inj
  signal := hs.signal
  returned := by
    intro c' w hc'
    change Function.update s.call c pc c' = _ at hc'
    by_cases hc : c' = c
    · subst hc
      rw [Function.update_self] at hc'
      exact absurd hc' (hnew w).2
    · rw [Function.update_of_ne hc] at hc'
      exact hs.returned c' w hc'

omit [DecidableEq κ] in
/-- A queue that took in one value more. -/
theorem WorkerOk.add {sql : κ → Str} {mem : Memory κ} {w : Worker κ} {h : History κ}
    (hw : WorkerOk sql mem w h) {tasks : Queue κ} {c : κ} (hok : tasks.Ok)
    (hlist : tasks._list = w.tasks._list ++ [c]) :
    WorkerOk sql mem { w with tasks := tasks } { h with accepted := h.accepted ++ [c] } where
  queue := hok
  accepted := by
    change h.accepted ++ [c] = h.taken ++ tasks._list
    rw [hlist, ← List.append_assoc, hw.accepted]
  taken := hw.taken
  session := hw.session
  exec := hw.exec
  counted := hw.counted
  outcome := hw.outcome

omit [DecidableEq κ] in
/-- A worker and its history are stored together, and the others stay. -/
theorem forall_update₂ {A B : Type} {P : A → B → Prop} {f : Fin n → A} {g : Fin n → B}
    {w : Fin n} {a : A} {b : B} (h : P a b) (hothers : ∀ w', w' ≠ w → P (f w') (g w')) :
    ∀ w', P (Function.update f w a w') (Function.update g w b w') := by
  intro w'
  by_cases hw : w' = w
  · subst hw
    rw [Function.update_self, Function.update_self]
    exact h
  · rw [Function.update_of_ne hw, Function.update_of_ne hw]
    exact hothers w' hw

/-- A call is accepted by the worker it had picked. -/
theorem PoolOk.added {sql : κ → Str} {s : PoolState κ n} (hs : PoolOk sql s) {c : κ} {w : Fin n}
    (hcall : s.call c = .add w ∨ s.call c = .add_waiting w) {tasks : Queue κ} (hok : tasks.Ok)
    (hlist : tasks._list = (s._s_pool w).tasks._list ++ [c]) :
    PoolOk sql (s.added c w 0 tasks) := by
  have hold : ∀ w', s.call c ≠ .wait w' ∧ s.call c ≠ .returned w' := by
    intro w'
    rcases hcall with h | h <;> rw [h] <;> exact ⟨nofun, nofun⟩
  have hnot : ∀ w', c ∉ (s.history w').accepted := by
    intro w' hc
    rcases (hs.owner w' c).mp hc with h | h
    · exact (hold w').1 h
    · exact (hold w').2 h
  have hadded : s.added c w 0 tasks =
      { s with
        _s_pool := Function.update s._s_pool w { s._s_pool w with tasks := tasks }
        history := Function.update s.history w
          { s.history w with accepted := (s.history w).accepted ++ [c] }
        call := Function.update s.call c (.wait w) } := rfl
  rw [hadded]
  have hexecuted : ∀ w', (Function.update s.history w
      { s.history w with accepted := (s.history w).accepted ++ [c] } w').executed
        = (s.history w').executed := by
    intro w'
    by_cases hw : w' = w
    · subst hw
      rw [Function.update_self]
    · rw [Function.update_of_ne hw]
  refine ⟨?_, ?_, ?_, hs.sql, hs.result_lt, hs.result_inj, ?_, ?_⟩
  · exact forall_update₂ ((hs.worker w).add hok hlist) fun w' _ => hs.worker w'
  · refine (Function.forall_update_iff s.history fun _ (h : History κ) => h.accepted.Nodup).mpr
      ⟨?_, fun w' _ => hs.nodup w'⟩
    refine List.nodup_append.mpr ⟨hs.nodup w, List.nodup_singleton c, ?_⟩
    rintro a ha b hb rfl
    rw [List.mem_singleton] at hb
    exact hnot w (hb ▸ ha)
  · intro w' c'
    by_cases hc : c' = c
    · subst hc
      simp only [Function.update_self]
      by_cases hw : w' = w
      · subst hw
        simp
      · simp only [Function.update_of_ne hw]
        have hne : w ≠ w' := fun h => hw h.symm
        simp [hnot w', hne]
    · simp only [Function.update_of_ne hc]
      rw [← hs.owner]
      by_cases hw : w' = w
      · subst hw
        simp [hc]
      · simp only [Function.update_of_ne hw]
  · intro c' hsignal
    obtain ⟨w', hw'⟩ := hs.signal c' hsignal
    refine ⟨w', ?_⟩
    rw [hexecuted]
    exact hw'
  · intro c' w' hc'
    rw [hexecuted]
    by_cases hc : c' = c
    · subst hc
      simp only [Function.update_self] at hc'
      cases hc'
    · simp only [Function.update_of_ne hc] at hc'
      exact hs.returned c' w' hc'

/-- A call whose latch is set returns: its worker has run it. -/
theorem PoolOk.wait {sql : κ → Str} {s : PoolState κ n} (hs : PoolOk sql s) {c : κ} {w : Fin n}
    (hcall : s.call c = .wait w) (hsignal : (s.mem.context c).latch._signal = true) :
    PoolOk sql (s.set_call c (.returned w)) where
  worker := hs.worker
  nodup := hs.nodup
  owner := by
    intro w' c'
    change c' ∈ (s.history w').accepted ↔
      Function.update s.call c (.returned w) c' = _ ∨ Function.update s.call c (.returned w) c' = _
    rw [hs.owner]
    by_cases hc : c' = c
    · subst hc
      rw [Function.update_self, hcall]
      simp
    · rw [Function.update_of_ne hc]
  sql := hs.sql
  result_lt := hs.result_lt
  result_inj := hs.result_inj
  signal := hs.signal
  returned := by
    intro c' w' hc'
    change Function.update s.call c (.returned w) c' = _ at hc'
    by_cases hc : c' = c
    · subst hc
      rw [Function.update_self] at hc'
      cases hc'
      obtain ⟨w', hw'⟩ := hs.signal c' hsignal
      have hacc := (hs.worker w').taken_subset ((hs.worker w').executed_subset hw')
      have hacc' := (hs.owner w c').mpr (.inl hcall)
      rw [hs.owner_unique hacc' hacc]
      exact hw'
    · rw [Function.update_of_ne hc] at hc'
      exact hs.returned c' w' hc'

/-! ## The steps of a worker -/

omit [DecidableEq κ] in
/-- A step of one worker keeps the pool in order when it keeps that worker in
order, does not disturb the others, and sets a latch only for a call it has run. -/
theorem PoolOk.work {sql : κ → Str} {s : PoolState κ n} (hs : PoolOk sql s) {w : Fin n}
    {worker : Worker κ} {mem : Memory κ} {h : History κ}
    (haccepted : h.accepted = (s.history w).accepted)
    (hexecuted : ∀ c ∈ (s.history w).executed.map Prod.fst, c ∈ h.executed.map Prod.fst)
    (hworker : WorkerOk sql mem worker h)
    (hothers : ∀ w', w' ≠ w → WorkerOk sql mem (s._s_pool w') (s.history w'))
    (hsql : ∀ c, (mem.context c).sql = sql c)
    (hlt : ∀ c r, (mem.context c).result = some r → r < mem.heap.length)
    (hinj : ∀ c c' r, (mem.context c).result = some r → (mem.context c').result = some r → c = c')
    (hsignal : ∀ c, (mem.context c).latch._signal = true →
      (s.mem.context c).latch._signal = true ∨ c ∈ h.executed.map Prod.fst) :
    PoolOk sql (s.work w worker mem h) := by
  have hhistory : ∀ w', (Function.update s.history w h w').accepted = (s.history w').accepted ∧
      ∀ c ∈ (s.history w').executed.map Prod.fst,
        c ∈ (Function.update s.history w h w').executed.map Prod.fst := by
    intro w'
    by_cases hw : w' = w
    · subst hw
      rw [Function.update_self]
      exact ⟨haccepted, hexecuted⟩
    · rw [Function.update_of_ne hw]
      exact ⟨rfl, fun _ hc => hc⟩
  refine ⟨?_, ?_, ?_, hsql, hlt, hinj, ?_, ?_⟩
  · exact forall_update₂ hworker hothers
  · intro w'
    change (Function.update s.history w h w').accepted.Nodup
    rw [(hhistory w').1]
    exact hs.nodup w'
  · intro w' c
    change c ∈ (Function.update s.history w h w').accepted ↔ _
    rw [(hhistory w').1]
    exact hs.owner w' c
  · intro c hc
    rcases hsignal c hc with hold | hnew
    · obtain ⟨w', hw'⟩ := hs.signal c hold
      exact ⟨w', (hhistory w').2 c hw'⟩
    · refine ⟨w, ?_⟩
      change c ∈ (Function.update s.history w h w).executed.map Prod.fst
      rw [Function.update_self]
      exact hnew
  · intro c w' hc
    exact (hhistory w').2 c (hs.returned c w' hc)

omit [DecidableEq κ] in
/-- A step that stores nothing in the contexts. -/
theorem PoolOk.work_alone {sql : κ → Str} {s : PoolState κ n} (hs : PoolOk sql s) {w : Fin n}
    {worker : Worker κ} {h : History κ} (haccepted : h.accepted = (s.history w).accepted)
    (hexecuted : h.executed = (s.history w).executed) (hworker : WorkerOk sql s.mem worker h) :
    PoolOk sql (s.work w worker s.mem h) := by
  refine hs.work haccepted ?_ hworker (fun w' _ => hs.worker w') hs.sql hs.result_lt
    hs.result_inj fun c hc => .inl hc
  intro c hc
  rw [hexecuted]
  exact hc

omit [DecidableEq κ] in
/-- A worker that has no call in hand before and after the step. -/
theorem WorkerOk.idle {sql : κ → Str} {mem : Memory κ} {w w' : Worker κ} {h : History κ}
    (hw : WorkerOk sql mem w h) (hqueue : w'.tasks.Ok) (hlist : w'.tasks._list = w.tasks._list)
    (hcurrent : w.pc.current = []) (hcurrent' : w'.pc.current = [])
    (hcounting : w'.pc.counting = none)
    (hsession : w'.pc ≠ .ended → w.pc ≠ .ended ∧ w'.session = w.session) :
    WorkerOk sql mem w' h where
  queue := hqueue
  accepted := by rw [hlist, hw.accepted]
  taken := by rw [hcurrent', hw.taken, hcurrent]
  session := by
    intro hended
    obtain ⟨hended', heq⟩ := hsession hended
    rw [heq, hw.session hended']
  exec := by
    intro c r hpc
    rw [hpc] at hcurrent'
    cases hcurrent'
  counted := by
    intro c hc
    rw [hcounting] at hc
    cases hc
  outcome := hw.outcome

omit [DecidableEq κ] in
/-- A worker takes the head of its queue. -/
theorem WorkerOk.take {sql : κ → Str} {mem : Memory κ} {w : Worker κ} {h : History κ}
    (hw : WorkerOk sql mem w h) (hcurrent : w.pc.current = []) (hended : w.pc ≠ .ended)
    {tasks : Queue κ} (hok : tasks.Ok) {c : κ} (hlist : w.tasks._list = c :: tasks._list) :
    WorkerOk sql mem { w with tasks := tasks, pc := .alloc c } { h with taken := h.taken ++ [c] } where
  queue := hok
  accepted := by
    change h.accepted = h.taken ++ [c] ++ tasks._list
    rw [hw.accepted, hlist, List.append_assoc]
    rfl
  taken := by
    change h.taken ++ [c] = h.executed.map Prod.fst ++ [c]
    rw [hw.taken, hcurrent, List.append_nil]
  session := fun _ => hw.session hended
  exec := nofun
  counted := nofun
  outcome := hw.outcome

/-- A worker allocates the result of the call in its hand. -/
theorem WorkerOk.alloc {sql : κ → Str} {mem : Memory κ} {w : Worker κ} {h : History κ}
    (hw : WorkerOk sql mem w h) {c : κ} (hpc : w.pc = .alloc c)
    (hc : c ∉ h.executed.map Prod.fst)
    (hlt : ∀ c r, (mem.context c).result = some r → r < mem.heap.length) :
    WorkerOk sql (mem.new_result c) { w with pc := .exec c mem.heap.length } h where
  queue := hw.queue
  accepted := hw.accepted
  taken := by rw [hw.taken, hpc]; rfl
  session := fun _ => hw.session (by rw [hpc]; nofun)
  exec := by
    intro c' r hexec
    cases hexec
    simp [Memory.new_result]
  counted := nofun
  outcome := by
    refine hw.outcome.frame ?_ ?_
    · intro c' hc'
      have hne : c' ≠ c := fun h => hc (h ▸ hc')
      simp [Memory.new_result, Function.update_of_ne hne]
    · intro c' _ r hr
      exact List.getElem?_append_left (hlt c' r hr)

omit [DecidableEq κ] in
theorem session_after_concat (sql : κ → Str) (executed : List (κ × Answers)) (c : κ)
    (answers : Answers) :
    session_after sql (executed ++ [(c, answers)])
      = (exec_sql (sql c) answers (session_after sql executed)).1 := by
  rw [session_after, List.foldl_append]
  rfl

omit [DecidableEq κ] in
/-- A worker runs the statement of the call in its hand. -/
theorem WorkerOk.exec_step {sql : κ → Str} {mem : Memory κ} {w : Worker κ} {h : History κ}
    (hw : WorkerOk sql mem w h) {c : κ} {r : Nat} (hpc : w.pc = .exec c r)
    (hsql : (mem.context c).sql = sql c) (hr : r < mem.heap.length)
    (hother : ∀ c' ∈ h.executed.map Prod.fst, (mem.context c').result ≠ some r)
    (answers : Answers) :
    WorkerOk sql (mem.set_result r (exec_sql (mem.context c).sql answers w.session).2)
      { w with
        session := (exec_sql (mem.context c).sql answers w.session).1
        pc := .count_down c false }
      { h with executed := h.executed ++ [(c, answers)] } := by
  have hsession : w.session = session_after sql h.executed := hw.session (by rw [hpc]; nofun)
  rw [hsql, hsession]
  refine ⟨hw.queue, hw.accepted, ?_, ?_, nofun, ?_, ?_⟩
  · change h.taken = (h.executed ++ [(c, answers)]).map Prod.fst ++ []
    rw [hw.taken, hpc, List.map_append, List.append_nil]
    rfl
  · intro _
    exact (session_after_concat sql h.executed c answers).symm
  · intro c' hc'
    cases hc'
    simp
  · have hbefore : Outcomes sql
        (mem.set_result r (exec_sql (sql c) answers (session_after sql h.executed)).2)
        h.executed := by
      refine hw.outcome.frame (fun _ _ => rfl) ?_
      intro c' hc' r' hr'
      have hne : r ≠ r' := fun h => hother c' hc' (h ▸ hr')
      exact List.getElem?_set_ne hne
    exact hbefore.concat (hw.exec c r hpc) (List.getElem?_set_self hr)

@[simp] theorem set_latch_result (mem : Memory κ) (c c' : κ) (latch : Latch) :
    ((mem.set_latch c latch).context c').result = (mem.context c').result := by
  by_cases hc : c' = c
  · subst hc
    simp [Memory.set_latch]
  · simp [Memory.set_latch, Function.update_of_ne hc]

@[simp] theorem set_latch_sql (mem : Memory κ) (c c' : κ) (latch : Latch) :
    ((mem.set_latch c latch).context c').sql = (mem.context c').sql := by
  by_cases hc : c' = c
  · subst hc
    simp [Memory.set_latch]
  · simp [Memory.set_latch, Function.update_of_ne hc]

/-- A worker counts down the latch of the call it has run, or sets it. -/
theorem WorkerOk.release {sql : κ → Str} {mem : Memory κ} {w : Worker κ} {h : History κ}
    (hw : WorkerOk sql mem w h) {c : κ} (hcounting : w.pc.counting = some c) (latch : Latch)
    {pc : WorkerPc κ} {last : Bool} (hpc : pc = .signal c last ∨ pc = .next last) :
    WorkerOk sql (mem.set_latch c latch) { w with pc := pc } h := by
  have hmem : WorkerOk sql (mem.set_latch c latch) w h :=
    hw.frame (fun c' _ => set_latch_result mem c c' latch) fun _ _ _ _ => rfl
  have hold : w.pc.current = [] ∧ w.pc ≠ .ended := by
    cases hw' : w.pc with
    | count_down => exact ⟨rfl, nofun⟩
    | signal => exact ⟨rfl, nofun⟩
    | _ =>
      rw [hw'] at hcounting
      cases hcounting
  rcases hpc with rfl | rfl
  · refine ⟨hmem.queue, hmem.accepted, ?_, fun _ => hmem.session hold.2, nofun, ?_, hmem.outcome⟩
    · rw [hmem.taken, hold.1]
      rfl
    · intro c' hc'
      cases hc'
      exact hmem.counted c hcounting
  · refine hmem.idle hmem.queue rfl hold.1 ?_ ?_ fun _ => ⟨hold.2, rfl⟩
    · cases last <;> rfl
    · cases last <;> rfl

/-- Setting the latch of a call a worker has run. -/
theorem PoolOk.release {sql : κ → Str} {s : PoolState κ n} (hs : PoolOk sql s) {w : Fin n}
    {c : κ} (hcounting : (s._s_pool w).pc.counting = some c) (latch : Latch)
    {pc : WorkerPc κ} {last : Bool} (hpc : pc = .signal c last ∨ pc = .next last) :
    PoolOk sql (s.work w { s._s_pool w with pc := pc } (s.mem.set_latch c latch) (s.history w)) := by
  refine hs.work rfl (fun _ hc => hc) ((hs.worker w).release hcounting latch hpc) ?_ ?_ ?_ ?_ ?_
  · intro w' _
    exact (hs.worker w').frame (fun c' _ => set_latch_result s.mem c c' latch) fun _ _ _ _ => rfl
  · intro c'
    rw [set_latch_sql, hs.sql]
  · intro c' r hr
    rw [set_latch_result] at hr
    exact hs.result_lt c' r hr
  · intro c₁ c₂ r h₁ h₂
    rw [set_latch_result] at h₁ h₂
    exact hs.result_inj c₁ c₂ r h₁ h₂
  · intro c' hsignal
    by_cases hc : c' = c
    · subst hc
      exact .inr ((hs.worker w).counted c' hcounting)
    · simp only [Memory.set_latch, Function.update_of_ne hc] at hsignal
      exact .inl hsignal

/-- The result of the call in a worker's hand is allocated. -/
theorem PoolOk.alloc {sql : κ → Str} {s : PoolState κ n} (hs : PoolOk sql s) {w : Fin n} {c : κ}
    (hpc : (s._s_pool w).pc = .alloc c) :
    PoolOk sql (s.work w { s._s_pool w with pc := .exec c s.mem.heap.length }
      (s.mem.new_result c) (s.history w)) := by
  have hcurrent : c ∈ (s._s_pool w).pc.current := by
    rw [hpc]
    exact List.mem_singleton.mpr rfl
  have hresult : ∀ c', c' ≠ c →
      ((s.mem.new_result c).context c').result = (s.mem.context c').result := by
    intro c' hc
    simp [Memory.new_result, Function.update_of_ne hc]
  have hown : ((s.mem.new_result c).context c).result = some s.mem.heap.length := by
    simp [Memory.new_result]
  refine hs.work rfl (fun _ hc => hc)
    ((hs.worker w).alloc hpc (hs.current_not_executed hcurrent) hs.result_lt) ?_ ?_ ?_ ?_ ?_
  · intro w' hw
    refine (hs.worker w').frame ?_ ?_
    · intro c' hc'
      refine hresult c' ?_
      rintro rfl
      have hacc := (hs.worker w').taken_subset hc'
      exact hw (hs.owner_unique hacc
        ((hs.worker w).taken_subset ((hs.worker w).current_subset hcurrent)))
    · intro c' _ r hr
      exact List.getElem?_append_left (hs.result_lt c' r hr)
  · intro c'
    rw [← hs.sql c']
    by_cases hc : c' = c
    · subst hc
      simp [Memory.new_result]
    · simp [Memory.new_result, Function.update_of_ne hc]
  · intro c' r hr
    change r < (s.mem.heap ++ [InnerResult.new]).length
    rw [List.length_append, List.length_singleton]
    by_cases hc : c' = c
    · subst hc
      rw [hown] at hr
      cases hr
      exact Nat.lt_succ_self _
    · rw [hresult c' hc] at hr
      exact Nat.lt_succ_of_lt (hs.result_lt c' r hr)
  · -- the new result is behind all others
    intro c₁ c₂ r h₁ h₂
    by_cases hc₁ : c₁ = c <;> by_cases hc₂ : c₂ = c
    · rw [hc₁, hc₂]
    · subst hc₁
      rw [hown] at h₁
      rw [hresult c₂ hc₂] at h₂
      cases h₁
      exact absurd (hs.result_lt c₂ _ h₂) (Nat.lt_irrefl _)
    · subst hc₂
      rw [hown] at h₂
      rw [hresult c₁ hc₁] at h₁
      cases h₂
      exact absurd (hs.result_lt c₁ _ h₁) (Nat.lt_irrefl _)
    · rw [hresult c₁ hc₁] at h₁
      rw [hresult c₂ hc₂] at h₂
      exact hs.result_inj c₁ c₂ r h₁ h₂
  · intro c' hsignal
    by_cases hc : c' = c
    · subst hc
      exact .inl (by simpa [Memory.new_result] using hsignal)
    · exact .inl (by simpa [Memory.new_result, Function.update_of_ne hc] using hsignal)

omit [DecidableEq κ] in
/-- The statement of the call in a worker's hand is run. -/
theorem PoolOk.exec {sql : κ → Str} {s : PoolState κ n} (hs : PoolOk sql s) {w : Fin n} {c : κ}
    {r : Nat} (hpc : (s._s_pool w).pc = .exec c r) (answers : Answers) :
    PoolOk sql (s.work w
      { s._s_pool w with
        session := (exec_sql (s.mem.context c).sql answers (s._s_pool w).session).1
        pc := .count_down c false }
      (s.mem.set_result r (exec_sql (s.mem.context c).sql answers (s._s_pool w).session).2)
      { s.history w with executed := (s.history w).executed ++ [(c, answers)] }) := by
  have hcurrent : c ∈ (s._s_pool w).pc.current := by
    rw [hpc]
    exact List.mem_singleton.mpr rfl
  have hown : (s.mem.context c).result = some r := (hs.worker w).exec c r hpc
  -- whoever has run has another result
  have hother : ∀ w', ∀ c' ∈ (s.history w').executed.map Prod.fst,
      (s.mem.context c').result ≠ some r := by
    intro w' c' hc' hr
    obtain rfl := hs.result_inj c' c r hr hown
    exact hs.current_not_executed hcurrent hc'
  refine hs.work rfl ?_ ((hs.worker w).exec_step hpc (hs.sql c) (hs.result_lt c r hown)
    (hother w) answers) ?_ hs.sql ?_ hs.result_inj fun c' hc' => .inl hc'
  · intro c' hc'
    rw [List.map_append]
    exact List.mem_append_left _ hc'
  · intro w' _
    refine (hs.worker w').frame (fun _ _ => rfl) ?_
    intro c' hc' r' hr'
    have hne : r ≠ r' := fun h => hother w' c' hc' (h ▸ hr')
    exact List.getElem?_set_ne hne
  · intro c' r' hr'
    change r' < (s.mem.heap.set r _).length
    rw [List.length_set]
    exact hs.result_lt c' r' hr'

/-! ## Every run -/

omit [DecidableEq κ] in
/-- A worker between two calls, or behind its loop. -/
theorem PoolOk.idle {sql : κ → Str} {s : PoolState κ n} (hs : PoolOk sql s) {w : Fin n}
    {worker : Worker κ} (hqueue : worker.tasks.Ok)
    (hlist : worker.tasks._list = (s._s_pool w).tasks._list)
    (hcurrent : (s._s_pool w).pc.current = []) (hcurrent' : worker.pc.current = [])
    (hcounting : worker.pc.counting = none)
    (hsession : worker.pc ≠ .ended →
      (s._s_pool w).pc ≠ .ended ∧ worker.session = (s._s_pool w).session) :
    PoolOk sql (s.work w worker s.mem (s.history w)) :=
  hs.work_alone rfl rfl
    ((hs.worker w).idle hqueue hlist hcurrent hcurrent' hcounting hsession)

omit [DecidableEq κ] in
/-- A worker takes what `pop_block` hands out. -/
theorem PoolOk.take {sql : κ → Str} {s : PoolState κ n} (hs : PoolOk sql s) {w : Fin n}
    (hpc : (s._s_pool w).pc = .pop ∨ (s._s_pool w).pc = .waiting) {tasks : Queue κ} {c : κ}
    (hok : tasks.Ok) (hlist : (s._s_pool w).tasks._list = c :: tasks._list) :
    PoolOk sql (s.work w { s._s_pool w with tasks := tasks, pc := .alloc c } s.mem
      { s.history w with taken := (s.history w).taken ++ [c] }) := by
  have hold : (s._s_pool w).pc.current = [] ∧ (s._s_pool w).pc ≠ .ended := by
    rcases hpc with hpc | hpc <;> rw [hpc] <;> exact ⟨rfl, nofun⟩
  exact hs.work_alone rfl rfl ((hs.worker w).take hold.1 hold.2 hok hlist)

theorem PoolOk.worker_step {sql : κ → Str} {s : PoolState κ n} (hs : PoolOk sql s) {w : Fin n}
    {act : WorkerAct} (halloc : act ≠ .alloc false) {worker : Worker κ} {mem : Memory κ}
    (h : worker_step (s._s_pool w) s.mem act = some (worker, mem)) :
    PoolOk sql (s.work w worker mem ((s.history w).note act worker.pc)) := by
  have hw := hs.worker w
  cases worker_step_move h with
  | test hpc =>
    refine hs.idle hw.queue rfl (by rw [hpc]; rfl) ?_ ?_ fun _ => ⟨by rw [hpc]; nofun, rfl⟩
    · split <;> rfl
    · split <;> rfl
  | store hpc =>
    exact hs.idle hw.queue rfl (by rw [hpc]; rfl) rfl rfl fun _ => ⟨by rw [hpc]; nofun, rfl⟩
  | pop_sleep hpc =>
    exact hs.idle hw.queue rfl (by rw [hpc]; rfl) rfl rfl fun _ => ⟨by rw [hpc]; nofun, rfl⟩
  | pop hpc n tasks hpop =>
    obtain ⟨c, rfl, hlist, hok⟩ := Queue.pop_block_spec hw.queue hpop
    exact hs.take (.inl hpc) hok hlist
  | wake_sleep hpc =>
    rw [show (s.history w).note .wake (s._s_pool w).pc = s.history w by rw [hpc]; rfl]
    refine hs.idle hw.queue rfl ?_ ?_ ?_ fun hended => ⟨hended, rfl⟩ <;> rw [hpc] <;> rfl
  | wake hpc n tasks hpop =>
    obtain ⟨c, rfl, hlist, hok⟩ := Queue.pop_wake_spec hw.queue hpop
    exact hs.take (.inr hpc) hok hlist
  | timeout hpc =>
    exact hs.idle (Queue.pop_timeout_ok hw.queue) rfl (by rw [hpc]; rfl) rfl rfl
      fun _ => ⟨by rw [hpc]; nofun, rfl⟩
  | alloc c hpc => exact hs.alloc hpc
  | alloc_fails => exact absurd rfl halloc
  | exec c r answers hpc => exact hs.exec hpc answers
  | count_down c last hpc =>
    have hnext : ∀ zero : Bool, (if zero then WorkerPc.signal c last else .next last)
        = .signal c last ∨ (if zero then WorkerPc.signal c last else .next last) = .next last := by
      intro zero
      cases zero with
      | true => exact .inl rfl
      | false => exact .inr rfl
    exact hs.release (by rw [hpc]; rfl) _ (hnext _)
  | signal c last hpc => exact hs.release (by rw [hpc]; rfl) _ (.inr rfl)
  | close hpc =>
    exact hs.idle hw.queue rfl (by rw [hpc]; rfl) rfl rfl fun hended => absurd rfl hended

theorem pool_step_ok [NeZero n] {sql : κ → Str} {s s' : PoolState κ n} {e : PoolEvent κ n}
    (hs : PoolOk sql s) (he : Allocates s e) (h : pool_step s e = some s') : PoolOk sql s' := by
  cases e with
  | fetch c =>
    simp only [pool_step] at h
    cases hcall : s.call c with
    | fetch =>
      rw [hcall] at h
      cases h
      have hidx : PoolOk sql { s with _action_idx := s._action_idx + 1 } :=
        ⟨hs.worker, hs.nodup, hs.owner, hs.sql, hs.result_lt, hs.result_inj, hs.signal, hs.returned⟩
      refine hidx.set_call ?_ fun _ => ⟨nofun, nofun⟩
      intro w
      change s.call c ≠ _ ∧ s.call c ≠ _
      rw [hcall]
      exact ⟨nofun, nofun⟩
    | _ => rw [hcall] at h; cases h
  | add c alloc =>
    obtain rfl : alloc = true := he
    simp only [pool_step] at h
    cases hcall : s.call c with
    | add w =>
      simp only [hcall] at h
      rcases hadd : (s._s_pool w).tasks.add_block c true with - | ⟨ret, tasks⟩
      · rw [hadd] at h
        cases h
        refine hs.set_call ?_ fun _ => ⟨nofun, nofun⟩
        intro w'
        rw [hcall]
        exact ⟨nofun, nofun⟩
      · rw [hadd] at h
        cases h
        obtain ⟨rfl, hlist, hok⟩ := Queue.add_block_spec (hs.worker w).queue hadd
        exact hs.added (.inl hcall) hok hlist
    | _ => rw [hcall] at h; cases h
  | add_wake c alloc =>
    obtain rfl : alloc = true := he
    simp only [pool_step] at h
    cases hcall : s.call c with
    | add_waiting w =>
      simp only [hcall] at h
      rcases hadd : (s._s_pool w).tasks.add_wake c true with - | ⟨ret, tasks⟩
      · rw [hadd] at h
        cases h
        exact hs
      · rw [hadd] at h
        cases h
        obtain ⟨rfl, hlist, hok⟩ := Queue.add_wake_spec (hs.worker w).queue hadd
        exact hs.added (.inr hcall) hok hlist
    | _ => rw [hcall] at h; cases h
  | wait c =>
    simp only [pool_step] at h
    cases hcall : s.call c with
    | wait w =>
      simp only [hcall, Option.ite_none_right_eq_some, Option.some.injEq] at h
      obtain ⟨hsignal, rfl⟩ := h
      exact hs.wait hcall hsignal
    | _ => rw [hcall] at h; cases h
  | worker w act =>
    have halloc : act ≠ .alloc false := by
      rintro rfl
      exact absurd he (by simp [Allocates, PoolEvent.allocates])
    simp only [pool_step] at h
    rcases hstep : worker_step (s._s_pool w) s.mem act with - | ⟨worker, mem⟩
    · rw [hstep] at h
      cases h
    · rw [hstep] at h
      cases h
      exact hs.worker_step halloc hstep

theorem pool_reaches_ok [NeZero n] (task_queue_size : Nat) (sql : κ → Str)
    {es : List (PoolEvent κ n)} {s : PoolState κ n}
    (h : ((pool_machine n task_queue_size sql).restrict Allocates).Reaches es s) :
    PoolOk sql s := by
  refine Machine.restrict_preserves _ ?_ (pool_init_ok n task_queue_size sql) h
  intro s e s' hs he hstep
  exact pool_step_ok hs he hstep

/-- **Every client gets its own result.** In every state any interleaving reaches:
a call that has returned holds the result of its own statement as its worker ran
it; no two calls hold one result; a task accepted by a worker is in its queue or
taken by it, once, and nowhere else; and a worker runs its tasks in the order in
which they were accepted. -/
theorem execute_returns_own [NeZero n] (task_queue_size : Nat) (sql : κ → Str)
    (es : List (PoolEvent κ n)) (s : PoolState κ n)
    (h : ((pool_machine n task_queue_size sql).restrict Allocates).Reaches es s) :
    (∀ c w, s.call c = .returned w → c ∈ (s.history w).accepted ∧
      ∃ r before answers after, (s.mem.context c).result = some r ∧
        (s.history w).executed = before ++ (c, answers) :: after ∧
        s.mem.heap[r]? = some (exec_sql (sql c) answers (session_after sql before)).2) ∧
    (∀ c c' r, (s.mem.context c).result = some r → (s.mem.context c').result = some r → c = c') ∧
    (∀ w c, c ∈ (s.history w).accepted →
      (s.history w).taken.count c + (s._s_pool w).tasks._list.count c = 1 ∧
      ∀ w', w' ≠ w → c ∉ (s.history w').taken ∧ c ∉ (s._s_pool w').tasks._list) ∧
    ∀ w, (s.history w).executed.map Prod.fst <+: (s.history w).accepted := by
  have hs := pool_reaches_ok task_queue_size sql h
  refine ⟨?_, hs.result_inj, ?_, ?_⟩
  · intro c w hc
    refine ⟨(hs.owner w c).mpr (.inr hc), ?_⟩
    obtain ⟨⟨_, answers⟩, hmem, rfl⟩ := List.mem_map.mp (hs.returned c w hc)
    obtain ⟨before, after, hexecuted⟩ := List.append_of_mem hmem
    obtain ⟨r, hr, hresult⟩ := (hs.worker w).outcome before _ answers after hexecuted
    exact ⟨r, before, answers, after, hr, hexecuted, hresult⟩
  · intro w c hc
    have hcount := List.count_eq_one_of_mem (hs.nodup w) hc
    rw [(hs.worker w).accepted, List.count_append] at hcount
    refine ⟨hcount, ?_⟩
    intro w' hw
    have hnot : c ∉ (s.history w').accepted := fun hc' => hw (hs.owner_unique hc' hc)
    rw [(hs.worker w').accepted, List.mem_append, not_or] at hnot
    exact hnot
  · intro w
    refine ⟨(s._s_pool w).pc.current ++ (s._s_pool w).tasks._list, ?_⟩
    rw [(hs.worker w).accepted, (hs.worker w).taken, List.append_assoc]

/-- Every call MySQL is asked to make succeeds. -/
def all_ok : Answers :=
  let attempt : Attempt := ⟨true, 0, 0, some 0, []⟩
  ⟨true, [], attempt, attempt, attempt⟩

/-- The steps of one call on the second of two workers, from `fetch_thread` to its
return. -/
def select_events : List (PoolEvent Nat 2) :=
  [.fetch 0, .add 0 true, .worker 1 .test, .worker 1 .store, .worker 1 .pop,
    .worker 1 (.alloc true), .worker 1 (.exec all_ok), .worker 1 .count_down, .worker 1 .signal,
    .wait 0]

theorem execute_returns_own_select :
    ∃ s, ((pool_machine 2 10 fun _ => lit "SELECT 1").restrict Allocates).Reaches select_events s ∧
      s.call 0 = .returned 1 ∧
      ∃ r before answers after, (s.mem.context 0).result = some r ∧
        (s.history 1).executed = before ++ (0, answers) :: after ∧
        s.mem.heap[r]? = some (exec_sql (lit "SELECT 1") answers
          (session_after (fun _ => lit "SELECT 1") before)).2 := by
  obtain ⟨s, hreaches, hcall⟩ :
      ∃ s, ((pool_machine 2 10 fun _ => lit "SELECT 1").restrict Allocates).Reaches
        select_events s ∧ s.call 0 = .returned 1 := by
    have hreturned : (((pool_machine 2 10 fun _ => lit "SELECT 1").restrict Allocates).run
        (pool_machine 2 10 fun _ => lit "SELECT 1").init select_events).map (fun s => s.call 0)
          = some (.returned 1) := rfl
    exact Option.map_eq_some_iff.mp hreturned
  exact ⟨s, hreaches, hcall, ((execute_returns_own 10 _ _ s hreaches).1 0 1 hcall).2⟩

end Rellaf.Mysql
