/-
Transactions of the pool: `begin`, `tx_execute`, `commit` and `rollback`, whole
calls one behind the other.

A transaction has a worker of its own. `_s_tx_pool` holds a copy of the `SqlTx`
that `begin` has filled in, and the other calls go to the worker through the copy,
with nothing but the id of what they are given. The pointer in the caller's own
`SqlTx` dangles once the transaction has ended, and nobody follows it.

An address can be given out again, so each worker has a `serial` of its own, and
the calls leave a `log`; the code reads neither. `active` reads off the log which
worker an id stands for. The invariant is that the pool says the same (`PoolOk`),
and that what has been sent so far went where the log told (`LogOk`).

A call that waits for ever or faults is the last one: `lost`.
-/
import Rellaf.Lib.Machine
import Rellaf.MysqlStop

set_option autoImplicit false

open Rellaf.Cpp

namespace Rellaf.Mysql.TxPool

/-! ## Workers and transactions -/

/-- `thread` is an address, `none` the null pointer. -/
structure SqlTx where
  tx_id : UInt64
  thread : Option Nat
  deriving DecidableEq, Repr

/-- A default-constructed one. -/
def SqlTx.new : SqlTx := ⟨0, none⟩

/-- A `MyThread` between two calls, when its queue is empty. `running` says that
`thd_routine` has not left its loop. -/
structure TxThread where
  serial : Nat
  running : Bool
  session : Session
  deriving DecidableEq, Repr

/-- What a worker comes to with a statement: the result could not be allocated, or
MySQL has answered. -/
inductive Work where
  | no_result
  | exec (answers : Answers)
  deriving DecidableEq, Repr

/-- `thd_routine` from one `pop_block` to the next, and what it stores in
`*result_ptr`. Without a result it stores nothing and leaves the loop. -/
def TxThread.work (t : TxThread) (sql : Str) : Work → TxThread × Option InnerResult
  | .no_result => ({ t with running := false, session := t.session.close }, none)
  | .exec answers =>
    let (session, result) := exec_sql sql answers t.session
    ({ t with session := session }, some result)

@[simp] theorem TxThread.work_serial (t : TxThread) (sql : Str) (work : Work) :
    (t.work sql work).1.serial = t.serial := by
  cases work <;> rfl

/-- The two halves of `count_down` on a latch as a client sets it up. -/
theorem count_down_new {κ : Type} [DecidableEq κ] {w : Worker κ} {mem : Memory κ} {c : κ}
    {last : Bool} (hpc : w.pc = .count_down c last) (hlatch : (mem.context c).latch = .new) :
    worker_machine.run (w, mem) [.count_down, .signal] = some ({ w with pc := .next last },
      (mem.set_latch c ⟨0, false⟩).set_latch c ⟨0, true⟩) := by
  have hcount_down : worker_step w mem .count_down
      = some ({ w with pc := .signal c last }, mem.set_latch c ⟨0, false⟩) := by
    simp only [worker_step, hpc, hlatch]
    rfl
  have hsignal : worker_step { w with pc := .signal c last } (mem.set_latch c ⟨0, false⟩) .signal
      = some ({ w with pc := .next last },
        (mem.set_latch c ⟨0, false⟩).set_latch c ⟨0, true⟩) := by
    simp only [worker_step, Memory.set_latch, Function.update_self]
    rfl
  exact (Machine.run_cons_eq_some _).mpr ⟨_, hcount_down,
    (Machine.run_cons_eq_some _).mpr ⟨_, hsignal, rfl⟩⟩

/-- `work` is what `thd_routine` comes to, step by step, with one context in its
queue: the latch is set, and the result is where the client finds it. -/
theorem work_runs {κ : Type} [DecidableEq κ] (t : TxThread) (w : Worker κ) (mem : Memory κ)
    (c : κ) (sql : Str) (hpc : w.pc = .pop) (htasks : w.tasks._list = [c])
    (hsession : w.session = t.session) (hrunning : t.running = true)
    (hcontext : mem.context c = .new sql) (work : Work) :
    ∃ acts w' mem', worker_machine.run (w, mem) acts = some (w', mem') ∧
      (mem'.context c).latch.wait = true ∧
      w'.session = (t.work sql work).1.session ∧
      decide (w'.pc ≠ .ended) = (t.work sql work).1.running ∧
      ((mem'.context c).result.bind fun r => mem'.heap[r]?) = (t.work sql work).2 := by
  have hpop : worker_step w mem .pop
      = some ({ w with tasks := w.tasks.pop_locked.2, pc := .alloc c }, mem) := by
    simp [worker_step, hpc, Queue.pop_block, Queue.isempty, Queue.pop_locked, htasks,
      WorkerPc.popped]
  cases work with
  | no_result =>
    -- nothing is stored, and the loop is left behind `count_down`
    let w₁ : Worker κ := { w with tasks := w.tasks.pop_locked.2, pc := .count_down c true }
    have hfail : worker_machine.run (w, mem) [.pop, .alloc false] = some (w₁, mem) :=
      (Machine.run_cons_eq_some _).mpr ⟨_, hpop, rfl⟩
    have hdown := @count_down_new κ _ w₁ mem c true rfl (by rw [hcontext]; rfl)
    have hrun : worker_machine.run (w, mem) [.pop, .alloc false, .count_down, .signal, .close]
        = some ({ w₁ with session := w.session.close, pc := .ended },
          (mem.set_latch c ⟨0, false⟩).set_latch c ⟨0, true⟩) :=
      (Machine.run_append_of_eq_some _ hfail [.count_down, .signal, .close]).trans
        (Machine.run_append_of_eq_some _ hdown [.close])
    refine ⟨_, _, _, hrun, ?_, ?_, ?_, ?_⟩
    · simp [Memory.set_latch, Latch.wait]
    · simp [TxThread.work, hsession]
    · simp [TxThread.work]
    · simp [TxThread.work, Memory.set_latch, hcontext, MyContext.new]
  | exec answers =>
    let out := exec_sql sql answers w.session
    let w₁ : Worker κ := ⟨w.status, w.tasks.pop_locked.2, out.1, .count_down c false⟩
    let mem₁ : Memory κ := (mem.new_result c).set_result mem.heap.length out.2
    have hsql : ((mem.new_result c).context c).sql = sql := by
      simp [Memory.new_result, hcontext, MyContext.new]
    have hexec : worker_step { w with tasks := w.tasks.pop_locked.2, pc := .exec c mem.heap.length }
        (mem.new_result c) (.exec answers) = some (w₁, mem₁) := by
      simp only [worker_step, hsql]
      rfl
    have hstored : worker_machine.run (w, mem) [.pop, .alloc true, .exec answers]
        = some (w₁, mem₁) :=
      (Machine.run_cons_eq_some _).mpr ⟨_, hpop, (Machine.run_cons_eq_some _).mpr ⟨_, rfl,
        (Machine.run_cons_eq_some _).mpr ⟨_, hexec, rfl⟩⟩⟩
    have hlatch : (mem₁.context c).latch = .new := by
      simp [mem₁, Memory.set_result, Memory.new_result, hcontext, MyContext.new]
    have hdown := @count_down_new κ _ w₁ mem₁ c false rfl hlatch
    have hrun : worker_machine.run (w, mem)
        [.pop, .alloc true, .exec answers, .count_down, .signal]
        = some ({ w₁ with pc := .test },
          (mem₁.set_latch c ⟨0, false⟩).set_latch c ⟨0, true⟩) :=
      (Machine.run_append_of_eq_some _ hstored [.count_down, .signal]).trans hdown
    refine ⟨_, _, _, hrun, ?_, ?_, ?_, ?_⟩
    · simp [Memory.set_latch, Latch.wait]
    · simp [w₁, out, TxThread.work, hsession]
    · simp [TxThread.work, hrunning]
    · simp [mem₁, out, TxThread.work, Memory.set_latch, Memory.new_result, Memory.set_result,
        hsession]

/-- What the world decides in a call: the address of the worker that `new_thread`
creates (`none` when it creates none), whether the queue gets a node for the
context, what the worker comes to, and whether the thread that is joined ends. -/
structure World where
  thread : Option Nat
  added : Bool
  work : Work
  joined : Bool
  deriving DecidableEq, Repr

/-! ## The log -/

/-- `begun` and `ended` stand for the return of a `begin` that has created a worker
and of a `commit` or `rollback`. `used` stands for a call that goes to a worker
with its statement, `none` when there is no worker at the address it follows. The
`BEGIN` is part of the `begin`. -/
inductive Entry where
  | begun (tx_id : UInt64) (worker : Nat)
  | used (tx_id : UInt64) (worker : Option Nat) (sql : Str)
  | ended (tx_id : UInt64) (re : Bool)
  deriving DecidableEq, Repr

/-- What an entry makes of the worker an id stands for. -/
def Entry.apply (tx_id : UInt64) (worker : Option Nat) : Entry → Option Nat
  | .begun id w => if id = tx_id then some w else worker
  | .used _ _ _ => worker
  | .ended id _ => if id = tx_id then none else worker

/-- The worker an id stands for: from the return of its `begin` to the return of
the first `commit` or `rollback` on it. -/
def active (log : List Entry) (tx_id : UInt64) : Option Nat :=
  log.foldl (Entry.apply tx_id) none

/-- The ids given out, each with the worker created for it. -/
def begins (log : List Entry) : List (UInt64 × Nat) :=
  log.filterMap fun
    | .begun tx_id worker => some (tx_id, worker)
    | _ => none

@[simp] theorem active_nil (tx_id : UInt64) : active [] tx_id = none := rfl

@[simp] theorem active_append_singleton (log : List Entry) (e : Entry) (tx_id : UInt64) :
    active (log ++ [e]) tx_id = e.apply tx_id (active log tx_id) := by
  simp [active]

@[simp] theorem begins_nil : begins [] = [] := rfl

@[simp] theorem begins_append_begun (log : List Entry) (tx_id : UInt64) (worker : Nat) :
    begins (log ++ [Entry.begun tx_id worker]) = begins log ++ [(tx_id, worker)] := by
  simp [begins]

@[simp] theorem begins_append_used (log : List Entry) (tx_id : UInt64) (worker : Option Nat)
    (sql : Str) : begins (log ++ [Entry.used tx_id worker sql]) = begins log := by
  simp [begins]

@[simp] theorem begins_append_ended (log : List Entry) (tx_id : UInt64) (re : Bool) :
    begins (log ++ [Entry.ended tx_id re]) = begins log := by
  simp [begins]

/-- What an id stands for was created by its `begin`. -/
theorem mem_begins_of_active {log : List Entry} {tx_id : UInt64} {worker : Nat}
    (h : active log tx_id = some worker) : (tx_id, worker) ∈ begins log := by
  induction log using List.reverseRecOn with
  | nil => cases h
  | append_singleton log e ih =>
    rw [active_append_singleton] at h
    cases e with
    | begun id w =>
      simp only [Entry.apply] at h
      split at h
      · simp_all
      · simp [ih h]
    | used id w sql => simpa using ih h
    | ended id re =>
      simp only [Entry.apply] at h
      split at h
      · cases h
      · simpa using ih h

/-! ## The calls -/

/-- `heap` has the workers at their addresses. `created` and `drawn` count the workers
and the numbers so far; the code keeps neither, nor the `log`. `lost` says that the last
call does not return. -/
structure State where
  _action_idx : UInt64
  _s_tx_pool : UInt64 → Option SqlTx
  heap : Nat → Option TxThread
  created : Nat
  drawn : Nat
  log : List Entry
  lost : Bool

namespace State

/-- A process that has just started. -/
def new : State := ⟨0, fun _ => none, fun _ => none, 0, 0, [], false⟩

variable (s : State)

/-- `RELLAF_ATOMIC_INC(_action_idx)` -/
def atomic_inc : State := { s with _action_idx := s._action_idx + 1, drawn := s.drawn + 1 }

/-- Another worker. -/
def create : State := { s with created := s.created + 1 }

def note (e : Entry) : State := { s with log := s.log ++ [e] }

def set_thread (p : Nat) (t : Option TxThread) : State :=
  { s with heap := Function.update s.heap p t }

/-- The worker a pointer points to. -/
def deref (thread : Option Nat) : Option (Nat × TxThread) :=
  thread.bind fun p => (s.heap p).map fun t => (p, t)

/-- `_s_tx_pool.insert(std::make_pair(tx.tx_id, tx))`: an entry that is there stays. -/
def insert (tx : SqlTx) : State :=
  { s with _s_tx_pool :=
      Function.update s._s_tx_pool tx.tx_id ((s._s_tx_pool tx.tx_id).or (some tx)) }

/-- `_s_tx_pool.erase(tx_id)` -/
def erase (tx_id : UInt64) : State :=
  { s with _s_tx_pool := Function.update s._s_tx_pool tx_id none }

/-- `MysqlSimplePool::begin`: what it returns, and what it makes of its `SqlTx`. -/
def begin_ (tx : SqlTx) (world : World) : State × CallOutcome (Bool × SqlTx) :=
  let s := s.atomic_inc
  let tx_id := s._action_idx
  match world.thread with
  | none => (s, .returns (false, tx))
  | some p =>
    let t : TxThread := ⟨s.created, true, .new⟩
    let s := s.create
    -- nobody looks at what `add_block` returns; the latch of a context that is not in
    -- the queue is never counted down
    if world.added then
      let (t, result) := t.work (lit "BEGIN") world.work
      let tx : SqlTx := ⟨tx_id, some p⟩
      let s := (s.set_thread p t).insert tx
      match result with
      | none => (s, .faults .undefined)
      | some result =>
        (s.note (.begun tx_id t.serial), .returns (decide (result.status = 0), tx))
    else (s.set_thread p t, .waits)

/-- `MysqlSimplePool::tx_execute`, with what `*result_ptr` is before and after it. -/
def tx_execute (tx : SqlTx) (sql : Str) (result_ptr : Option InnerResult) (world : World) :
    State × CallOutcome (Option InnerResult) :=
  match s._s_tx_pool tx.tx_id with
  | none => (s, .returns result_ptr)
  | some entry =>
    match s.deref entry.thread with
    | none => (s.note (.used tx.tx_id none sql), .faults .undefined)
    | some (p, t) =>
      let s := s.note (.used tx.tx_id (some t.serial) sql)
      if world.added = false then (s, .returns none)
      else if t.running = false then (s, .waits)
      else
        let (t, result) := t.work sql world.work
        (s.set_thread p t, .returns (result.or result_ptr))

/-- `MysqlSimplePool::tx_end`. -/
def tx_end (tx : SqlTx) (sql : Str) (world : World) : State × CallOutcome Bool :=
  match s._s_tx_pool tx.tx_id with
  | none => (s.note (.ended tx.tx_id false), .returns false)
  | some entry =>
    match s.deref entry.thread with
    | none => (s.note (.used tx.tx_id none sql), .faults .undefined)
    | some (p, t) =>
      let s := s.note (.used tx.tx_id (some t.serial) sql)
      -- unlike `tx_execute` it waits for a context that is not in the queue
      if world.added = false ∨ t.running = false then (s, .waits)
      else
        let (t, result) := t.work sql world.work
        if world.joined then
          let s := (s.set_thread p none).erase tx.tx_id
          match result with
          | none => (s, .faults .undefined)
          | some result =>
            let re := decide (result.status = 0)
            (s.note (.ended tx.tx_id re), .returns re)
        else (s.set_thread p t, .waits)

def commit (tx : SqlTx) (world : World) : State × CallOutcome Bool :=
  s.tx_end tx (lit "COMMIT") world

def rollback (tx : SqlTx) (world : World) : State × CallOutcome Bool :=
  s.tx_end tx (lit "ROLLBACK") world

end State

/-! ## The machine -/

/-- A call, with the arguments it reads. `fetch_thread` is a call outside every
transaction: it draws from the same counter. -/
inductive Call where
  | begin_ (tx : SqlTx)
  | tx_execute (tx : SqlTx) (sql : Str) (result_ptr : Option InnerResult)
  | commit (tx : SqlTx)
  | rollback (tx : SqlTx)
  | fetch_thread
  deriving DecidableEq, Repr

/-- The state behind a call. -/
def settle {α : Type} (r : State × CallOutcome α) : State := { r.1 with lost := !r.2.returned }

/-- One call. `new_thread` gives out no address that is in use. -/
def step (s : State) (e : Call × World) : Option State :=
  if s.lost then none
  else
    match e.1 with
    | .begin_ tx =>
      if (e.2.thread.bind s.heap).isSome then none else some (settle (s.begin_ tx e.2))
    | .tx_execute tx sql result_ptr => some (settle (s.tx_execute tx sql result_ptr e.2))
    | .commit tx => some (settle (s.commit tx e.2))
    | .rollback tx => some (settle (s.rollback tx e.2))
    | .fetch_thread => some s.atomic_inc

/-- The pool, from the start of the process on. -/
def machine : Machine State (Call × World) where
  init := .new
  step := step

/-! ## The invariant -/

/-- What holds of the log, whether or not the last call has returned. -/
structure LogOk (drawn created : Nat) (log : List Entry) : Prop where
  /-- an id given out is a number drawn -/
  ids : ∀ tx_id worker, (tx_id, worker) ∈ begins log → tx_id.toNat ≤ drawn
  workers : ∀ tx_id worker, (tx_id, worker) ∈ begins log → worker < created
  ids_nodup : ((begins log).map Prod.fst).Nodup
  workers_nodup : ((begins log).map Prod.snd).Nodup
  /-- what was sent went to the worker its id stood for at the time -/
  uses : ∀ pre post tx_id worker sql, log = pre ++ .used tx_id worker sql :: post →
    ∃ v, worker = some v ∧ active pre tx_id = some v

/-- What holds of the pool between two calls: it has the ids that are active, each
with the address of the worker it stands for. -/
structure PoolOk (pool : UInt64 → Option SqlTx) (heap : Nat → Option TxThread)
    (log : List Entry) : Prop where
  found : ∀ tx_id entry, pool tx_id = some entry → ∃ p t,
    entry = ⟨tx_id, some p⟩ ∧ heap p = some t ∧ active log tx_id = some t.serial
  listed : ∀ tx_id worker, active log tx_id = some worker → (pool tx_id).isSome

structure State.Ok (s : State) : Prop where
  idx : s._action_idx = .ofNat s.drawn
  log_ok : LogOk s.drawn s.created s.log
  pool_ok : s.lost = false → PoolOk s._s_tx_pool s.heap s.log

theorem State.new_ok : State.new.Ok where
  idx := rfl
  log_ok := ⟨by simp [State.new], by simp [State.new], by simp [State.new], by simp [State.new],
    by simp [State.new]⟩
  pool_ok _ := ⟨by simp [State.new], by simp [State.new]⟩

/-! ### The log -/

/-- A place in a list with one more element is a place in the list, or the last. -/
theorem append_singleton_eq_append_cons {α : Type} {l pre post : List α} {a b : α}
    (h : l ++ [a] = pre ++ b :: post) :
    (pre = l ∧ b = a) ∨ ∃ post', l = pre ++ b :: post' := by
  rcases List.eq_nil_or_concat post with rfl | ⟨post', c, rfl⟩
  · obtain ⟨rfl, hab⟩ := List.append_inj' h rfl
    exact .inl ⟨rfl, (List.singleton_inj.mp hab).symm⟩
  · rw [List.concat_eq_append, ← List.cons_append, ← List.append_assoc] at h
    exact .inr ⟨post', (List.append_inj' h rfl).1⟩

namespace LogOk

variable {drawn created : Nat} {log : List Entry}

theorem draw (h : LogOk drawn created log) : LogOk (drawn + 1) created log where
  ids tx_id worker hmem := by
    have hle : tx_id.toNat ≤ drawn := h.ids tx_id worker hmem
    omega
  workers := h.workers
  ids_nodup := h.ids_nodup
  workers_nodup := h.workers_nodup
  uses := h.uses

theorem create (h : LogOk drawn created log) : LogOk drawn (created + 1) log where
  ids := h.ids
  workers tx_id worker hmem := by
    have hlt : worker < created := h.workers tx_id worker hmem
    omega
  ids_nodup := h.ids_nodup
  workers_nodup := h.workers_nodup
  uses := h.uses

/-- An entry that is not a `used` leaves what was said of the ones that are. -/
theorem uses_append (h : LogOk drawn created log) {e : Entry}
    (he : ∀ tx_id worker sql, e = .used tx_id worker sql →
      ∃ v, worker = some v ∧ active log tx_id = some v)
    (pre post : List Entry) (tx_id : UInt64) (worker : Option Nat) (sql : Str)
    (hsplit : log ++ [e] = pre ++ .used tx_id worker sql :: post) :
    ∃ v, worker = some v ∧ active pre tx_id = some v := by
  obtain ⟨rfl, heq⟩ | ⟨post', hlog⟩ := append_singleton_eq_append_cons hsplit
  · exact he tx_id worker sql heq.symm
  · exact h.uses pre post' tx_id worker sql hlog

theorem used (h : LogOk drawn created log) {tx_id : UInt64} {v : Nat}
    (hactive : active log tx_id = some v) (sql : Str) :
    LogOk drawn created (log ++ [Entry.used tx_id (some v) sql]) where
  ids := by simpa using h.ids
  workers := by simpa using h.workers
  ids_nodup := by simpa using h.ids_nodup
  workers_nodup := by simpa using h.workers_nodup
  uses := by
    apply h.uses_append
    intro id worker sql' heq
    cases heq
    exact ⟨v, rfl, hactive⟩

theorem ended (h : LogOk drawn created log) (tx_id : UInt64) (re : Bool) :
    LogOk drawn created (log ++ [Entry.ended tx_id re]) where
  ids := by simpa using h.ids
  workers := by simpa using h.workers
  ids_nodup := by simpa using h.ids_nodup
  workers_nodup := by simpa using h.workers_nodup
  uses := h.uses_append (by simp)

/-- A new id is larger than the ones before it, and a new worker is a new one. -/
theorem begun (h : LogOk drawn created log) {tx_id : UInt64} (hid : tx_id.toNat = drawn + 1) :
    LogOk (drawn + 1) (created + 1) (log ++ [Entry.begun tx_id created]) where
  ids id worker hmem := by
    rw [begins_append_begun, List.mem_append, List.mem_singleton] at hmem
    rcases hmem with hmem | hmem
    · have hle : id.toNat ≤ drawn := h.ids id worker hmem
      omega
    · cases hmem
      omega
  workers id worker hmem := by
    rw [begins_append_begun, List.mem_append, List.mem_singleton] at hmem
    rcases hmem with hmem | hmem
    · have hlt : worker < created := h.workers id worker hmem
      omega
    · cases hmem
      omega
  ids_nodup := by
    rw [begins_append_begun, List.map_append, List.map_singleton, ← List.concat_eq_append,
      List.nodup_concat]
    refine ⟨?_, h.ids_nodup⟩
    intro hmem
    obtain ⟨⟨id, worker⟩, hmem, heq⟩ := List.mem_map.mp hmem
    have hle : id.toNat ≤ drawn := h.ids id worker hmem
    rw [show id = tx_id from heq] at hle
    omega
  workers_nodup := by
    rw [begins_append_begun, List.map_append, List.map_singleton, ← List.concat_eq_append,
      List.nodup_concat]
    refine ⟨?_, h.workers_nodup⟩
    intro hmem
    obtain ⟨⟨id, worker⟩, hmem, heq⟩ := List.mem_map.mp hmem
    have hlt : worker < created := h.workers id worker hmem
    rw [show worker = created from heq] at hlt
    omega
  uses := h.uses_append (by simp)

/-- Two ids do not stand for one worker. -/
theorem active_inj (h : LogOk drawn created log) {id id' : UInt64} {v : Nat}
    (hid : active log id = some v) (hid' : active log id' = some v) : id = id' := by
  have hmem := mem_begins_of_active hid
  have hmem' := mem_begins_of_active hid'
  exact congrArg Prod.fst (List.inj_on_of_nodup_map h.workers_nodup hmem hmem' rfl)

/-- A number not drawn so far stands for nothing. -/
theorem active_eq_none (h : LogOk drawn created log) {tx_id : UInt64}
    (hid : tx_id.toNat = drawn + 1) : active log tx_id = none := by
  cases hactive : active log tx_id with
  | none => rfl
  | some v =>
    have hle : tx_id.toNat ≤ drawn := h.ids tx_id v (mem_begins_of_active hactive)
    omega

end LogOk

/-! ### The pool -/

namespace PoolOk

variable {pool : UInt64 → Option SqlTx} {heap : Nat → Option TxThread} {log : List Entry}

/-- An id that is not active is not in the pool. -/
theorem eq_none (h : PoolOk pool heap log) {tx_id : UInt64} (hactive : active log tx_id = none) :
    pool tx_id = none := by
  cases hpool : pool tx_id with
  | none => rfl
  | some entry =>
    obtain ⟨p, t, -, -, hsome⟩ := h.found tx_id entry hpool
    rw [hactive] at hsome
    cases hsome

/-- The pool leads to the worker an id stands for. -/
theorem deref_eq (h : PoolOk pool heap log) {tx_id : UInt64} {v : Nat}
    (hactive : active log tx_id = some v) :
    ∃ p t, pool tx_id = some ⟨tx_id, some p⟩ ∧ heap p = some t ∧ t.serial = v := by
  obtain ⟨entry, hpool⟩ := Option.isSome_iff_exists.mp (h.listed tx_id v hactive)
  obtain ⟨p, t, rfl, hheap, hserial⟩ := h.found tx_id entry hpool
  rw [hactive] at hserial
  exact ⟨p, t, hpool, hheap, (Option.some.inj hserial).symm⟩

theorem used (h : PoolOk pool heap log) (tx_id : UInt64) (worker : Option Nat) (sql : Str) :
    PoolOk pool heap (log ++ [Entry.used tx_id worker sql]) where
  found := by simpa [Entry.apply] using h.found
  listed := by simpa [Entry.apply] using h.listed

/-- A worker does something. -/
theorem set_thread (h : PoolOk pool heap log) {p : Nat} {t t' : TxThread}
    (hheap : heap p = some t) (hserial : t'.serial = t.serial) :
    PoolOk pool (Function.update heap p (some t')) log where
  found tx_id entry hpool := by
    obtain ⟨q, u, rfl, hu, hactive⟩ := h.found tx_id entry hpool
    by_cases hq : q = p
    · subst hq
      rw [hheap] at hu
      cases hu
      exact ⟨q, t', rfl, Function.update_self .., by rw [hserial, hactive]⟩
    · exact ⟨q, u, rfl, by rw [Function.update_of_ne hq, hu], hactive⟩
  listed := h.listed

/-- A call on an id that is not in the pool. -/
theorem refused (h : PoolOk pool heap log) {tx_id : UInt64} (hpool : pool tx_id = none)
    (re : Bool) : PoolOk pool heap (log ++ [Entry.ended tx_id re]) where
  found id entry hentry := by
    have hne : tx_id ≠ id := by
      rintro rfl
      rw [hpool] at hentry
      cases hentry
    simpa [Entry.apply, hne] using h.found id entry hentry
  listed id worker hactive := by
    rw [active_append_singleton, Entry.apply, Option.ite_none_left_eq_some] at hactive
    exact h.listed id worker hactive.2

/-- A transaction ends: its entry goes, and its worker. No other entry leads there. -/
theorem ended {drawn created : Nat} (h : PoolOk pool heap log) (hlog : LogOk drawn created log)
    {tx_id : UInt64} {p : Nat} {t : TxThread} (hheap : heap p = some t)
    (hactive : active log tx_id = some t.serial) (re : Bool) :
    PoolOk (Function.update pool tx_id none) (Function.update heap p none)
      (log ++ [Entry.ended tx_id re]) where
  found id entry hpool := by
    by_cases hid : id = tx_id
    · subst hid
      rw [Function.update_self] at hpool
      cases hpool
    · rw [Function.update_of_ne hid] at hpool
      obtain ⟨q, u, rfl, hu, hid_active⟩ := h.found id entry hpool
      -- at the address of the deleted worker `id` would stand for it as well
      have hq : q ≠ p := by
        rintro rfl
        rw [hheap] at hu
        cases hu
        exact hid (hlog.active_inj hid_active hactive)
      refine ⟨q, u, rfl, by rw [Function.update_of_ne hq, hu], ?_⟩
      simpa [Entry.apply, Ne.symm hid] using hid_active
  listed id worker h' := by
    rw [active_append_singleton, Entry.apply, Option.ite_none_left_eq_some] at h'
    rw [Function.update_of_ne (Ne.symm h'.1)]
    exact h.listed id worker h'.2

/-- A transaction begins, at an address that is not in use. -/
theorem begun (h : PoolOk pool heap log) {tx_id : UInt64} {p : Nat} {t : TxThread}
    (hpool : pool tx_id = none) (hheap : heap p = none) :
    PoolOk (Function.update pool tx_id ((pool tx_id).or (some ⟨tx_id, some p⟩)))
      (Function.update heap p (some t)) (log ++ [Entry.begun tx_id t.serial]) where
  found id entry hentry := by
    by_cases hid : id = tx_id
    · subst hid
      rw [Function.update_self, hpool, Option.none_or] at hentry
      cases hentry
      exact ⟨p, t, rfl, Function.update_self .., by simp [Entry.apply]⟩
    · rw [Function.update_of_ne hid] at hentry
      obtain ⟨q, u, rfl, hu, hactive⟩ := h.found id entry hentry
      have hq : q ≠ p := by
        rintro rfl
        rw [hheap] at hu
        cases hu
      refine ⟨q, u, rfl, by rw [Function.update_of_ne hq, hu], ?_⟩
      simpa [Entry.apply, Ne.symm hid] using hactive
  listed id worker h' := by
    by_cases hid : id = tx_id
    · subst hid
      rw [Function.update_self, hpool]
      rfl
    · rw [active_append_singleton, Entry.apply, if_neg (Ne.symm hid)] at h'
      rw [Function.update_of_ne hid]
      exact h.listed id worker h'

end PoolOk

/-! ## What a call does -/

namespace State

variable {s : State}

theorem deref_some {p : Nat} {t : TxThread} (h : s.heap p = some t) :
    s.deref (some p) = some (p, t) := by
  simp [deref, h]

theorem Ok.atomic_inc (h : s.Ok) : s.atomic_inc.Ok where
  idx := by
    show s._action_idx + 1 = .ofNat (s.drawn + 1)
    rw [h.idx, UInt64.ofNat_add]
    rfl
  log_ok := h.log_ok.draw
  pool_ok := h.pool_ok

/-- The number drawn, as long as the counter has not gone round. -/
theorem Ok.toNat_idx (h : s.Ok) (hlt : s.drawn < 2 ^ 64) : s._action_idx.toNat = s.drawn := by
  rw [h.idx]
  exact UInt64.toNat_ofNat_of_lt' hlt

theorem Ok.begin_ (h : s.Ok) (tx : SqlTx) {world : World}
    (hfree : world.thread.bind s.heap = none) (hlost : s.lost = false)
    (hlt : s.drawn + 1 < 2 ^ 64) : (settle (s.begin_ tx world)).Ok := by
  have hinc : s.atomic_inc.Ok := h.atomic_inc
  have hid : s.atomic_inc._action_idx.toNat = s.drawn + 1 := hinc.toNat_idx hlt
  cases hthread : world.thread with
  | none =>
    have heq : settle (s.begin_ tx world) = { s.atomic_inc with lost := false } := by
      simp [State.begin_, hthread, settle, CallOutcome.returned]
    rw [heq]
    exact ⟨hinc.idx, hinc.log_ok, fun _ => h.pool_ok hlost⟩
  | some p =>
    cases hadded : world.added with
    | false =>
      -- the worker is there, and no entry leads to it
      have heq : settle (s.begin_ tx world) = { s.atomic_inc.create.set_thread p
          (some ⟨s.created, true, .new⟩) with lost := true } := by
        simp only [State.begin_, hthread, hadded]
        rfl
      rw [heq]
      exact ⟨hinc.idx, hinc.log_ok.create, nofun⟩
    | true =>
      obtain ⟨⟨t, result⟩, hwork⟩ : ∃ out, TxThread.work ⟨s.created, true, .new⟩ (lit "BEGIN")
          world.work = out := ⟨_, rfl⟩
      have hserial : t.serial = s.created := by
        rw [← congrArg (·.1.serial) hwork]
        exact TxThread.work_serial ..
      have hwork' : TxThread.work ⟨s.atomic_inc.created, true, .new⟩ (lit "BEGIN")
          world.work = (t, result) := hwork
      simp only [State.begin_, hthread, hadded, if_true, hwork']
      -- the entry is in the pool in both cases, but only one of them returns
      cases result with
      | none => exact ⟨hinc.idx, hinc.log_ok.create, nofun⟩
      | some result =>
        have hpool := h.pool_ok hlost
        refine ⟨hinc.idx, ?_, fun _ => ?_⟩
        · show LogOk (s.drawn + 1) (s.created + 1)
            (s.log ++ [Entry.begun s.atomic_inc._action_idx t.serial])
          rw [hserial]
          exact h.log_ok.begun hid
        · rw [hthread] at hfree
          exact hpool.begun (hpool.eq_none (h.log_ok.active_eq_none hid)) hfree

/-- A call that finds its entry goes to the worker its id stands for, which leaves the
log and the pool in order. -/
theorem Ok.used (h : s.Ok) (hlost : s.lost = false) {tx_id : UInt64} {entry : SqlTx}
    (hpool : s._s_tx_pool tx_id = some entry) (sql : Str) :
    ∃ p t, s.deref entry.thread = some (p, t) ∧ s.heap p = some t ∧
      active (s.log ++ [Entry.used tx_id (some t.serial) sql]) tx_id = some t.serial ∧
      LogOk s.drawn s.created (s.log ++ [Entry.used tx_id (some t.serial) sql]) ∧
      PoolOk s._s_tx_pool s.heap (s.log ++ [Entry.used tx_id (some t.serial) sql]) := by
  obtain ⟨p, t, rfl, hheap, hactive⟩ := (h.pool_ok hlost).found tx_id entry hpool
  refine ⟨p, t, deref_some hheap, hheap, ?_, ?_, ?_⟩
  · rw [active_append_singleton]
    exact hactive
  · exact h.log_ok.used hactive sql
  · exact (h.pool_ok hlost).used tx_id (some t.serial) sql

theorem Ok.tx_execute (h : s.Ok) (tx : SqlTx) (sql : Str) (result_ptr : Option InnerResult)
    (world : World) (hlost : s.lost = false) :
    (settle (s.tx_execute tx sql result_ptr world)).Ok := by
  unfold State.tx_execute
  cases hpool : s._s_tx_pool tx.tx_id with
  | none => exact ⟨h.idx, h.log_ok, fun _ => h.pool_ok hlost⟩
  | some entry =>
    obtain ⟨p, t, hderef, hheap, -, hlog, hpool_ok⟩ := h.used hlost hpool sql
    simp only [hderef]
    split
    · exact ⟨h.idx, hlog, fun _ => hpool_ok⟩
    · split
      · exact ⟨h.idx, hlog, nofun⟩
      · exact ⟨h.idx, hlog, fun _ =>
          hpool_ok.set_thread hheap (t.work_serial sql world.work)⟩

theorem Ok.tx_end (h : s.Ok) (tx : SqlTx) (sql : Str) (world : World) (hlost : s.lost = false) :
    (settle (s.tx_end tx sql world)).Ok := by
  unfold State.tx_end
  cases hpool : s._s_tx_pool tx.tx_id with
  | none =>
    exact ⟨h.idx, h.log_ok.ended tx.tx_id false, fun _ =>
      (h.pool_ok hlost).refused hpool false⟩
  | some entry =>
    obtain ⟨p, t, hderef, hheap, hactive, hlog, hpool_ok⟩ := h.used hlost hpool sql
    simp only [hderef]
    split
    · exact ⟨h.idx, hlog, nofun⟩
    · split
      · -- the thread has ended: the worker is deleted, whatever its result was
        cases (t.work sql world.work).2 with
        | none => exact ⟨h.idx, hlog, nofun⟩
        | some result =>
          exact ⟨h.idx, hlog.ended tx.tx_id _, fun _ => hpool_ok.ended hlog hheap hactive _⟩
      · exact ⟨h.idx, hlog, nofun⟩

/-- A statement draws no number and leaves the pool as it is. -/
theorem tx_execute_frame (tx : SqlTx) (sql : Str) (result_ptr : Option InnerResult)
    (world : World) :
    (s.tx_execute tx sql result_ptr world).1.drawn = s.drawn ∧
      (s.tx_execute tx sql result_ptr world).1._s_tx_pool = s._s_tx_pool := by
  unfold State.tx_execute
  split
  · exact ⟨rfl, rfl⟩
  · split
    · exact ⟨rfl, rfl⟩
    · dsimp only
      split
      · exact ⟨rfl, rfl⟩
      · split <;> exact ⟨rfl, rfl⟩

/-- The end of a transaction draws no number and leaves the other entries as they are. -/
theorem tx_end_frame (tx : SqlTx) (sql : Str) (world : World) :
    (s.tx_end tx sql world).1.drawn = s.drawn ∧ ∀ tx_id, tx_id ≠ tx.tx_id →
      (s.tx_end tx sql world).1._s_tx_pool tx_id = s._s_tx_pool tx_id := by
  have herase : ∀ tx_id, tx_id ≠ tx.tx_id →
      Function.update s._s_tx_pool tx.tx_id none tx_id = s._s_tx_pool tx_id :=
    fun _ hne => Function.update_of_ne hne ..
  unfold State.tx_end
  split
  · exact ⟨rfl, fun _ _ => rfl⟩
  · split
    · exact ⟨rfl, fun _ _ => rfl⟩
    · dsimp only
      split
      · exact ⟨rfl, fun _ _ => rfl⟩
      · split
        · split <;> exact ⟨rfl, herase⟩
        · exact ⟨rfl, fun _ _ => rfl⟩

theorem drawn_begin (tx : SqlTx) (world : World) :
    (s.begin_ tx world).1.drawn = s.drawn + 1 := by
  unfold State.begin_
  dsimp only
  split
  · rfl
  · split
    · split <;> rfl
    · rfl

end State

/-! ## Every sequence of calls -/

/-- A call draws at most one number. -/
theorem step_drawn {s s' : State} {e : Call × World} (h : step s e = some s') :
    s.drawn ≤ s'.drawn ∧ s'.drawn ≤ s.drawn + 1 := by
  obtain ⟨call, world⟩ := e
  rw [step, Option.ite_none_left_eq_some] at h
  obtain ⟨-, h⟩ := h
  cases call with
  | begin_ tx =>
    rw [Option.ite_none_left_eq_some] at h
    cases h.2
    have hdrawn := State.drawn_begin (s := s) tx world
    simp only [settle]
    omega
  | tx_execute tx sql result_ptr =>
    cases h
    obtain ⟨hdrawn, -⟩ := State.tx_execute_frame (s := s) tx sql result_ptr world
    simp only [settle]
    omega
  | commit tx =>
    cases h
    obtain ⟨hdrawn, -⟩ := State.tx_end_frame (s := s) tx (lit "COMMIT") world
    simp only [settle, State.commit]
    omega
  | rollback tx =>
    cases h
    obtain ⟨hdrawn, -⟩ := State.tx_end_frame (s := s) tx (lit "ROLLBACK") world
    simp only [settle, State.rollback]
    omega
  | fetch_thread =>
    cases h
    simp only [State.atomic_inc]
    omega

theorem step_ok {s s' : State} {e : Call × World} (hs : s.Ok) (hlt : s'.drawn < 2 ^ 64)
    (h : step s e = some s') : s'.Ok := by
  have hdrawn := step_drawn h
  obtain ⟨call, world⟩ := e
  rw [step, Option.ite_none_left_eq_some] at h
  obtain ⟨hlost, h⟩ := h
  have hlost : s.lost = false := by simpa using hlost
  cases call with
  | begin_ tx =>
    rw [Option.ite_none_left_eq_some] at h
    obtain ⟨hfree, h⟩ := h
    cases h
    have hlt' : s.drawn + 1 < 2 ^ 64 := by
      rw [← State.drawn_begin (s := s) tx world]
      exact hlt
    exact hs.begin_ tx (by simpa using hfree) hlost hlt'
  | tx_execute tx sql result_ptr =>
    cases h
    exact hs.tx_execute tx sql result_ptr world hlost
  | commit tx =>
    cases h
    exact hs.tx_end tx (lit "COMMIT") world hlost
  | rollback tx =>
    cases h
    exact hs.tx_end tx (lit "ROLLBACK") world hlost
  | fetch_thread =>
    cases h
    exact hs.atomic_inc

/-- Fewer than `2 ^ 64` calls: the counter has not gone round. -/
theorem ok_of_reaches {es : List (Call × World)} {s : State} (h : machine.Reaches es s)
    (hlen : es.length < 2 ^ 64) : s.Ok := by
  have hdrawn : s.drawn ≤ 0 + es.length :=
    machine.run_le_add_length (fun _ _ _ hstep => (step_drawn hstep).2) h
  have hok : s.drawn < 2 ^ 64 → s.Ok := by
    refine machine.run_preserves (P := fun s => s.drawn < 2 ^ 64 → s.Ok) ?_ ?_ h
    · intro s e s' hs hstep hlt
      have hle : s.drawn ≤ s'.drawn := (step_drawn hstep).1
      exact step_ok (hs (by omega)) hlt hstep
    · exact fun _ => State.new_ok
  exact hok (by omega)

/-- A call with the id `tx_id` sends `sql` to the worker `v`; it leaves every other
worker as it is, and every other entry of the pool. -/
structure GoesTo (tx_id : UInt64) (v : Nat) (sql : Str) (s s' : State) : Prop where
  sent : ∃ rest, s'.log = s.log ++ .used tx_id (some v) sql :: rest
  workers : ∀ p t, s.heap p = some t → t.serial ≠ v → s'.heap p = some t
  entries : ∀ id, id ≠ tx_id → s'._s_tx_pool id = s._s_tx_pool id

/-- Nothing but the entry of one worker changes. -/
theorem update_heap_of_ne {heap : Nat → Option TxThread} {p : Nat} {t : TxThread}
    (hheap : heap p = some t) (new : Option TxThread) (q : Nat) (u : TxThread)
    (hu : heap q = some u) (hne : u.serial ≠ t.serial) :
    Function.update heap p new q = some u := by
  have hq : q ≠ p := by
    rintro rfl
    rw [hheap] at hu
    cases hu
    exact hne rfl
  rw [Function.update_of_ne hq, hu]

theorem tx_execute_goesTo {s : State} (h : s.Ok) (hlost : s.lost = false) {tx : SqlTx} {v : Nat}
    (hactive : active s.log tx.tx_id = some v) (sql : Str) (result_ptr : Option InnerResult)
    (world : World) : GoesTo tx.tx_id v sql s (s.tx_execute tx sql result_ptr world).1 := by
  obtain ⟨p, t, hpool, hheap, rfl⟩ := (h.pool_ok hlost).deref_eq hactive
  unfold State.tx_execute
  simp only [hpool, State.deref_some hheap]
  split
  · exact ⟨⟨[], rfl⟩, fun _ _ hu _ => hu, fun _ _ => rfl⟩
  · split
    · exact ⟨⟨[], rfl⟩, fun _ _ hu _ => hu, fun _ _ => rfl⟩
    · exact ⟨⟨[], rfl⟩, update_heap_of_ne hheap _, fun _ _ => rfl⟩

theorem tx_end_goesTo {s : State} (h : s.Ok) (hlost : s.lost = false) {tx : SqlTx} {v : Nat}
    (hactive : active s.log tx.tx_id = some v) (sql : Str) (world : World) :
    GoesTo tx.tx_id v sql s (s.tx_end tx sql world).1 := by
  obtain ⟨p, t, hpool, hheap, rfl⟩ := (h.pool_ok hlost).deref_eq hactive
  obtain ⟨-, hentries⟩ := State.tx_end_frame (s := s) tx sql world
  suffices hsent : (∃ rest, (s.tx_end tx sql world).1.log =
      s.log ++ .used tx.tx_id (some t.serial) sql :: rest) ∧
      ∀ q u, s.heap q = some u → u.serial ≠ t.serial →
        (s.tx_end tx sql world).1.heap q = some u from ⟨hsent.1, hsent.2, hentries⟩
  unfold State.tx_end
  simp only [hpool, State.deref_some hheap]
  split
  · exact ⟨⟨[], rfl⟩, fun _ _ hu _ => hu⟩
  · split
    · cases (t.work sql world.work).2 with
      | none => exact ⟨⟨[], rfl⟩, update_heap_of_ne hheap _⟩
      | some result =>
        refine ⟨⟨[.ended tx.tx_id (decide (result.status = 0))], ?_⟩, update_heap_of_ne hheap _⟩
        exact List.append_assoc s.log [.used tx.tx_id (some t.serial) sql] [_]
    · exact ⟨⟨[], rfl⟩, update_heap_of_ne hheap _⟩

/-- **Transactions stay apart.** In every sequence of fewer than `2 ^ 64` calls on any
`SqlTx` values: the ids given out differ, and so do the workers created for them;
everything sent so far went to the worker that its id stood for at the time, the
one created by the `begin` of that id. The next call on an id that is active goes
to its worker and to nothing else; on an id that is not, no worker and no entry of
the pool changes, and `commit` and `rollback` return false. -/
theorem transactions_apart (es : List (Call × World)) (s : State) (h : machine.Reaches es s)
    (hlen : es.length < 2 ^ 64) :
    ((begins s.log).map Prod.fst).Nodup ∧ ((begins s.log).map Prod.snd).Nodup ∧
    (∀ pre post tx_id worker sql, s.log = pre ++ .used tx_id worker sql :: post →
      ∃ v, worker = some v ∧ active pre tx_id = some v ∧ (tx_id, v) ∈ begins pre) ∧
    (s.lost = false → ∀ (tx : SqlTx) (world : World),
      (∀ v, active s.log tx.tx_id = some v →
        (∀ sql result_ptr, GoesTo tx.tx_id v sql s (s.tx_execute tx sql result_ptr world).1) ∧
        GoesTo tx.tx_id v (lit "COMMIT") s (s.commit tx world).1 ∧
        GoesTo tx.tx_id v (lit "ROLLBACK") s (s.rollback tx world).1) ∧
      (active s.log tx.tx_id = none →
        (∀ sql result_ptr, s.tx_execute tx sql result_ptr world = (s, .returns result_ptr)) ∧
        s.commit tx world = (s.note (.ended tx.tx_id false), .returns false) ∧
        s.rollback tx world = (s.note (.ended tx.tx_id false), .returns false))) := by
  have hok : s.Ok := ok_of_reaches h hlen
  refine ⟨hok.log_ok.ids_nodup, hok.log_ok.workers_nodup, ?_, ?_⟩
  · intro pre post tx_id worker sql hlog
    obtain ⟨v, hworker, hactive⟩ := hok.log_ok.uses pre post tx_id worker sql hlog
    exact ⟨v, hworker, hactive, mem_begins_of_active hactive⟩
  · intro hlost tx world
    refine ⟨?_, ?_⟩
    · intro v hactive
      refine ⟨?_, ?_, ?_⟩
      · intro sql result_ptr
        exact tx_execute_goesTo hok hlost hactive sql result_ptr world
      · exact tx_end_goesTo hok hlost hactive (lit "COMMIT") world
      · exact tx_end_goesTo hok hlost hactive (lit "ROLLBACK") world
    · intro hactive
      have hpool : s._s_tx_pool tx.tx_id = none := (hok.pool_ok hlost).eq_none hactive
      refine ⟨?_, ?_, ?_⟩
      · intro sql result_ptr
        simp only [State.tx_execute, hpool]
      · simp only [State.commit, State.tx_end, hpool]
      · simp only [State.rollback, State.tx_end, hpool]

/-- A `begin`, a statement, a `commit`, and a `rollback` on the same id behind it. -/
theorem transactions_apart_ended :
    let attempt : Attempt := ⟨true, 0, 1, none, []⟩
    let world : World := ⟨some 7, true, .exec ⟨true, [], attempt, attempt, attempt⟩, true⟩
    let tx : SqlTx := ⟨1, some 7⟩
    ∃ s, machine.Reaches [(.begin_ .new, world), (.tx_execute tx (lit "DELETE") none, world),
        (.commit tx, world)] s ∧
      s.lost = false ∧ (s.rollback tx world).2 = .returns false := by
  intro attempt world tx
  refine ⟨_, rfl, rfl, ?_⟩
  have hapart := transactions_apart [(.begin_ .new, world),
    (.tx_execute tx (lit "DELETE") none, world), (.commit tx, world)] _ rfl (by decide)
  rw [((hapart.2.2.2 rfl tx world).2 rfl).2.2]

end Rellaf.Mysql.TxPool
