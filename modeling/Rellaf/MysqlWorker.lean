/-
`thd_routine`: what a worker thread of the pool does with a statement, and the
loop that gets it statements to do.

The first half is the statement. MySQL is not part of the repository; what it
answers to one statement is an `Answers`, and a `Session` is what the worker's
connection means to the data: whether it commits by itself, what waits for a
commit and what has taken effect. Closing a connection drops what waits, and a
new one commits by itself. `retry` does both in the middle of a statement. A
connection that could not be opened again answers no call with success, and such
answers are among all the others.

The second half is the thread. It shares its `status`, its queue and the contexts
of its clients with other threads, so `worker_step` gives it one step at a time,
no larger than one access to what it shares.
-/
import Rellaf.Cpp
import Rellaf.Queue

set_option autoImplicit false

open Rellaf.Cpp

namespace Rellaf.Mysql

/-! ## The session -/

structure Session where
  autocommit : Bool
  pending : List Str
  committed : List Str
  deriving DecidableEq, Repr

namespace Session

/-- The session of a thread that has just connected. -/
def new : Session := ⟨true, [], []⟩

variable (s : Session)

/-- A statement MySQL has carried out. -/
def query (sql : Str) : Session :=
  if s.autocommit then { s with committed := s.committed ++ [sql] }
  else { s with pending := s.pending ++ [sql] }

/-- `mysql_autocommit(&mysql, 0)` -/
def autocommit_off : Session := { s with autocommit := false }

/-- `mysql_commit` -/
def commit : Session := { s with committed := s.committed ++ s.pending, pending := [] }

/-- `mysql_rollback` -/
def rollback : Session := { s with pending := [] }

def connect : Session := { s with autocommit := true }

def close : Session := { s with pending := [] }

/-- `MysqlSimplePool::retry` -/
def retry : Session := s.close.connect

end Session

/-! ## One statement -/

/-- What MySQL answers to one `mysql_real_query`. `store_result` is what a
`mysql_store_result` behind it would give, `none` for the null pointer. -/
structure Attempt where
  ok : Bool
  insert_id : UInt64
  affected_rows : UInt64
  store_result : Option Nat
  error : Str
  deriving DecidableEq, Repr

/-- What MySQL answers while a worker runs one statement: to the call for
`BEGIN`, `COMMIT` or `ROLLBACK`, or to the attempts of any other. -/
structure Answers where
  control_ok : Bool
  control_error : Str
  first : Attempt
  second : Attempt
  third : Attempt
  deriving DecidableEq, Repr

/-- The `void* data` of an `InnerResult`, by what was cast into it. -/
inductive ResultData where
  | null
  | key_id (keyid : UInt64)
  | res (res : Option Nat)
  deriving DecidableEq, Repr

structure InnerResult where
  status : Int
  row_count : Int32
  message : Str
  data : ResultData
  deriving DecidableEq, Repr

/-- A result as `thd_routine` sets it up. -/
def InnerResult.new : InnerResult := ⟨0, 0, [], .null⟩

/-- The `while (count)` loop over the attempts. -/
def query_loop (sql : Str) : List Attempt → Session → InnerResult → Session × InnerResult
  | [], session, result => (session, result)
  | attempt :: attempts, session, result =>
    let result := { result with status := 0 }
    if attempt.ok then
      let result := if strncasecmp_eq sql (lit "INSERT") 6 then
        { result with data := .key_id attempt.insert_id } else result
      let result := { result with row_count := attempt.affected_rows.toUInt32.toInt32 }
      let result := if strncasecmp_eq sql (lit "SELECT") 6 then
        { result with data := .res attempt.store_result } else result
      (session.query sql, result)
    else
      query_loop sql attempts session.retry
        { result with status := -1, message := attempt.error }

/-- The result of a call that only answers whether it went well. -/
def control_result (answers : Answers) : InnerResult :=
  if answers.control_ok then .new
  else { InnerResult.new with status := -1, message := answers.control_error }

/-- The body of the loop for one statement: the session after it, and the result. -/
def exec_sql (sql : Str) (answers : Answers) (session : Session) : Session × InnerResult :=
  if strncasecmp_eq sql (lit "BEGIN") 5 then
    (if answers.control_ok then session.autocommit_off else session, control_result answers)
  else if strncasecmp_eq sql (lit "COMMIT") 6 then
    (if answers.control_ok then session.commit else session, control_result answers)
  else if strncasecmp_eq sql (lit "ROLLBACK") 8 then
    (if answers.control_ok then session.rollback else session, control_result answers)
  else
    -- `int count = 3`
    query_loop sql [answers.first, answers.second, answers.third] session .new

/-! ## The thread -/

/-- A `MyContext` on the stack of the client that waits for it. `result` is what
the client's `InnerResult*` holds, an index into the heap. -/
structure MyContext where
  sql : Str
  latch : Latch
  result : Option Nat
  deriving DecidableEq, Repr

/-- A context before its call has done anything. -/
def MyContext.new (sql : Str) : MyContext := ⟨sql, .new, none⟩

/-- What the threads share besides their queues: the contexts of the calls and the
results allocated so far. -/
structure Memory (κ : Type) where
  context : κ → MyContext
  heap : List InnerResult

namespace Memory

variable {κ : Type} [DecidableEq κ] (mem : Memory κ)

def set_latch (c : κ) (latch : Latch) : Memory κ :=
  { mem with context := Function.update mem.context c { mem.context c with latch := latch } }

/-- `*(context->_data->result) = result` for a new result. -/
def new_result (c : κ) : Memory κ where
  context := Function.update mem.context c
    { mem.context c with result := some mem.heap.length }
  heap := mem.heap ++ [.new]

def set_result (r : Nat) (result : InnerResult) : Memory κ :=
  { mem with heap := mem.heap.set r result }

end Memory

/-- Where the thread is, with its local variables: at the test of the loop, at
`status = 2`, at `pop_block`, asleep in it, and then with a context at the
allocation of the result, at the statement, at the two halves of `count_down`.
`last` says that the loop is left behind them. -/
inductive WorkerPc (κ : Type) where
  | test
  | store
  | pop
  | waiting
  | alloc (context : κ)
  | exec (context : κ) (result : Nat)
  | count_down (context : κ) (last : Bool)
  | signal (context : κ) (last : Bool)
  | close
  | ended
  deriving DecidableEq, Repr

/-- A `MyThread` and the thread it is about. -/
structure Worker (κ : Type) where
  status : Int
  tasks : Queue κ
  session : Session
  pc : WorkerPc κ
  deriving DecidableEq, Repr

/-- A worker as `new_thread` and `connect` start it. -/
def Worker.new {κ : Type} (task_queue_size : Nat) : Worker κ :=
  ⟨1, .new task_queue_size true, .new, .test⟩

/-- What the thread does next, with what the world answers. -/
inductive WorkerAct where
  | test
  | store
  | pop
  | wake
  | timeout
  | alloc (ok : Bool)
  | exec (answers : Answers)
  | count_down
  | signal
  | close
  deriving DecidableEq, Repr

/-- Behind `count_down`: `break` when the result could not be allocated. -/
def WorkerPc.next {κ : Type} (last : Bool) : WorkerPc κ := if last then .close else .test

/-- What `pop_block` has handed out; a null node goes back to the loop. Its other
values, -1 for a null argument, do not occur. -/
def WorkerPc.popped {κ : Type} : Option κ → WorkerPc κ
  | none => .test
  | some c => .alloc c

/-- One step of `thd_routine`; `none` when the thread is elsewhere. -/
def worker_step {κ : Type} [DecidableEq κ] (w : Worker κ) (mem : Memory κ) (act : WorkerAct) :
    Option (Worker κ × Memory κ) :=
  match w.pc, act with
  | .test, .test => some ({ w with pc := if w.status ≠ 0 then .store else .close }, mem)
  | .store, .store => some ({ w with status := 2, pc := .pop }, mem)
  | .pop, .pop =>
    match w.tasks.pop_block with
    | none => some ({ w with pc := .waiting }, mem)
    | some (n, tasks) => some ({ w with tasks := tasks, pc := .popped n }, mem)
  | .waiting, .wake =>
    match w.tasks.pop_wake with
    | none => some (w, mem)
    | some (n, tasks) => some ({ w with tasks := tasks, pc := .popped n }, mem)
  | .waiting, .timeout => some ({ w with tasks := w.tasks.pop_timeout, pc := .test }, mem)
  | .alloc c, .alloc ok =>
    if ok then some ({ w with pc := .exec c mem.heap.length }, mem.new_result c)
    else some ({ w with pc := .count_down c true }, mem)
  | .exec c r, .exec answers =>
    let (session, result) := exec_sql (mem.context c).sql answers w.session
    some ({ w with session := session, pc := .count_down c false }, mem.set_result r result)
  | .count_down c last, .count_down =>
    let (zero, latch) := (mem.context c).latch.count_down
    some ({ w with pc := if zero then .signal c last else .next last }, mem.set_latch c latch)
  | .signal c last, .signal =>
    some ({ w with pc := .next last }, mem.set_latch c (mem.context c).latch.signal)
  | .close, .close => some ({ w with session := w.session.close, pc := .ended }, mem)
  | _, _ => none

/-- The steps of the thread, one constructor for each way a step can go. -/
inductive WorkerMove {κ : Type} [DecidableEq κ] (w : Worker κ) (mem : Memory κ) :
    WorkerAct → Worker κ → Memory κ → Prop where
  | test (h : w.pc = .test) :
      WorkerMove w mem .test { w with pc := if w.status ≠ 0 then .store else .close } mem
  | store (h : w.pc = .store) : WorkerMove w mem .store { w with status := 2, pc := .pop } mem
  | pop_sleep (h : w.pc = .pop) (hpop : w.tasks.pop_block = none) :
      WorkerMove w mem .pop { w with pc := .waiting } mem
  | pop (h : w.pc = .pop) (n : Option κ) (tasks : Queue κ)
      (hpop : w.tasks.pop_block = some (n, tasks)) :
      WorkerMove w mem .pop { w with tasks := tasks, pc := .popped n } mem
  | wake_sleep (h : w.pc = .waiting) (hpop : w.tasks.pop_wake = none) :
      WorkerMove w mem .wake w mem
  | wake (h : w.pc = .waiting) (n : Option κ) (tasks : Queue κ)
      (hpop : w.tasks.pop_wake = some (n, tasks)) :
      WorkerMove w mem .wake { w with tasks := tasks, pc := .popped n } mem
  | timeout (h : w.pc = .waiting) :
      WorkerMove w mem .timeout { w with tasks := w.tasks.pop_timeout, pc := .test } mem
  | alloc (c : κ) (h : w.pc = .alloc c) :
      WorkerMove w mem (.alloc true) { w with pc := .exec c mem.heap.length } (mem.new_result c)
  | alloc_fails (c : κ) (h : w.pc = .alloc c) :
      WorkerMove w mem (.alloc false) { w with pc := .count_down c true } mem
  | exec (c : κ) (r : Nat) (answers : Answers) (h : w.pc = .exec c r) :
      WorkerMove w mem (.exec answers)
        { w with
          session := (exec_sql (mem.context c).sql answers w.session).1
          pc := .count_down c false }
        (mem.set_result r (exec_sql (mem.context c).sql answers w.session).2)
  | count_down (c : κ) (last : Bool) (h : w.pc = .count_down c last) :
      WorkerMove w mem .count_down
        { w with
          pc := if (mem.context c).latch.count_down.1 then .signal c last else .next last }
        (mem.set_latch c (mem.context c).latch.count_down.2)
  | signal (c : κ) (last : Bool) (h : w.pc = .signal c last) :
      WorkerMove w mem .signal { w with pc := .next last }
        (mem.set_latch c (mem.context c).latch.signal)
  | close (h : w.pc = .close) :
      WorkerMove w mem .close { w with session := w.session.close, pc := .ended } mem

/-- Every step is one of the moves. -/
theorem worker_step_move {κ : Type} [DecidableEq κ] {w w' : Worker κ} {mem mem' : Memory κ}
    {act : WorkerAct} (h : worker_step w mem act = some (w', mem')) :
    WorkerMove w mem act w' mem' := by
  unfold worker_step at h
  split at h
  case h_1 hpc =>
    cases h
    exact .test hpc
  case h_2 hpc =>
    cases h
    exact .store hpc
  case h_3 hpc =>
    split at h
    · cases h
      exact .pop_sleep hpc ‹_›
    · cases h
      exact .pop hpc _ _ ‹_›
  case h_4 hpc =>
    split at h
    · cases h
      exact .wake_sleep hpc ‹_›
    · cases h
      exact .wake hpc _ _ ‹_›
  case h_5 hpc =>
    cases h
    exact .timeout hpc
  case h_6 c ok hpc =>
    cases ok with
    | true =>
      cases h
      exact .alloc c hpc
    | false =>
      cases h
      exact .alloc_fails c hpc
  case h_7 c r answers hpc =>
    cases h
    exact .exec c r answers hpc
  case h_8 c last hpc =>
    cases h
    exact .count_down c last hpc
  case h_9 c last hpc =>
    cases h
    exact .signal c last hpc
  case h_10 hpc =>
    cases h
    exact .close hpc
  case h_11 => cases h

/-- Each of the moves is a step. -/
theorem WorkerMove.worker_step {κ : Type} [DecidableEq κ] {w w' : Worker κ}
    {mem mem' : Memory κ} {act : WorkerAct} (h : WorkerMove w mem act w' mem') :
    worker_step w mem act = some (w', mem') := by
  cases h with
  | test hpc => simp [Mysql.worker_step, hpc]
  | store hpc => simp [Mysql.worker_step, hpc]
  | pop_sleep hpc hpop => simp [Mysql.worker_step, hpc, hpop]
  | pop hpc n tasks hpop => simp [Mysql.worker_step, hpc, hpop]
  | wake_sleep hpc hpop => simp [Mysql.worker_step, hpc, hpop]
  | wake hpc n tasks hpop => simp [Mysql.worker_step, hpc, hpop]
  | timeout hpc => simp [Mysql.worker_step, hpc]
  | alloc c hpc => simp [Mysql.worker_step, hpc]
  | alloc_fails c hpc => simp [Mysql.worker_step, hpc]
  | exec c r answers hpc => simp [Mysql.worker_step, hpc]
  | count_down c last hpc => simp [Mysql.worker_step, hpc]
  | signal c last hpc => simp [Mysql.worker_step, hpc]
  | close hpc => simp [Mysql.worker_step, hpc]

end Rellaf.Mysql
