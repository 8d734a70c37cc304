/-
Threads that share one blocking queue, at the grain of its mutex: a step is one section
in which a thread holds the lock, from its call or from its wake-up to the return or to
the next wait.

A thread that waits on a condition variable sleeps until a signal picks it, or for no
reason at all; then it is woken, and its next section is its try to go on, at whatever
time that comes. A signal picks one of the sleepers, which one is part of the step. A
call with a timeout may end at any time while it waits, woken or not.

The log has what the calls that ended have returned, in the order in which they held the
lock for the last time.
-/
import Rellaf.Lib.Machine
import Rellaf.LinkQueue

set_option autoImplicit false

open Rellaf.Cpp

namespace Rellaf.Mysql

/-- The threads at a condition variable: those that sleep, and those that have been woken
and do not have the mutex back yet. -/
structure Cond (τ : Type) where
  asleep : List τ
  woken : List τ

namespace Cond

variable {τ : Type} [DecidableEq τ]

def new : Cond τ := ⟨[], []⟩

variable (c : Cond τ) (t : τ)

/-- `pthread_cond_wait`, for the first time or again. -/
def wait : Cond τ := ⟨c.asleep ++ [t], c.woken.erase t⟩

/-- The sleeper `t` wakes up. -/
def wake : Option (Cond τ) :=
  if t ∈ c.asleep then some ⟨c.asleep.erase t, c.woken ++ [t]⟩ else none

/-- `pthread_cond_signal`, with the sleeper that it wakes; without one it is lost. -/
def signal (wakes : Option τ) : Option (Cond τ) :=
  match wakes with
  | some t => c.wake t
  | none => if c.asleep.isEmpty then some c else none

/-- The thread goes on, and waits no more. -/
def leave : Cond τ := ⟨c.asleep.erase t, c.woken.erase t⟩

theorem wake_spec {c c' : Cond τ} {t : τ} (h : c.wake t = some c') :
    c.asleep ≠ [] ∧ c'.woken.length = c.woken.length + 1 := by
  rw [wake, Option.ite_none_right_eq_some] at h
  obtain ⟨ht, hc⟩ := h
  cases hc
  exact ⟨List.ne_nil_of_mem ht, List.length_append⟩

/-- Where somebody sleeps, a signal wakes one. -/
theorem signal_spec {c c' : Cond τ} {wakes : Option τ} (h : c.signal wakes = some c')
    (hasleep : c'.asleep ≠ []) : c.asleep ≠ [] ∧ c'.woken.length = c.woken.length + 1 := by
  cases wakes with
  | some t => exact wake_spec h
  | none =>
    rw [signal, Option.ite_none_right_eq_some] at h
    obtain ⟨hnil, hc⟩ := h
    cases hc
    exact absurd (List.isEmpty_iff.mp hnil) hasleep

end Cond

/-- What a thread is at: nothing, or the wait of a call. `timed` says that the call has a
timeout. -/
inductive Call (α : Type) where
  | idle
  | adding (val : α) (timed : Bool)
  | popping (timed : Bool)

/-- A call that has ended, with the value returned; a pop with what was handed out, a
`clear` with what it discarded, and a `pop_block` that was given no place for a node. -/
inductive Returned (τ α : Type) where
  | added (t : τ) (val : α) (timed : Bool) (ret : Int)
  | popped (t : τ) (n : Option (Addr × α)) (timed : Bool) (ret : Int)
  | refused (t : τ) (ret : Int)
  | cleared (t : τ) (vals : List α)
  deriving DecidableEq, Repr

/-- What a thread does, with what the world decides: the address `new` gives, and whom a
signal wakes. `delete` is a consumer that is done with its node. -/
inductive Event (τ α : Type) where
  | add (t : τ) (val : α) (timed : Bool) (alloc : Option Addr) (wakes : Option τ)
  | add_wake (t : τ) (alloc : Option Addr) (wakes : Option τ)
  | add_timeout (t : τ)
  | pop (t : τ) (timed : Bool) (wakes : Option τ)
  | pop_null (t : τ)
  | pop_wake (t : τ) (wakes : Option τ)
  | pop_timeout (t : τ)
  | clear (t : τ) (empty_wakes full_wakes : Option τ)
  | spurious_full (t : τ)
  | spurious_empty (t : τ)
  | delete (a : Addr)

structure Threads (τ α : Type) where
  heap : Heap α
  queue : LinkQueue
  /-- the nodes that consumers have -/
  handed : List Addr
  full_cond : Cond τ
  empty_cond : Cond τ
  call : τ → Call α
  log : List (Returned τ α)

namespace Threads

variable {τ α : Type} [DecidableEq τ]

/-- A new queue, of which `size` and `true` are the arguments. -/
def new (size : Nat) : Threads τ α :=
  ⟨fun _ => none, .new size true, [], .new, .new, fun _ => .idle, []⟩

variable (s : Threads τ α)

/-- The values in the list. -/
def vals : Run (List α) := s.queue._list.values s.heap

/-- `new` does not give an address that is in use. -/
def fresh (alloc : Option Addr) : Bool := alloc.all fun a => (s.heap a).isNone

/-- The thread waits for room. -/
def wait_full (t : τ) (val : α) (timed : Bool) : Threads τ α :=
  { s with
    full_cond := s.full_cond.wait t
    call := Function.update s.call t (.adding val timed) }

/-- The thread waits for a value. -/
def wait_empty (t : τ) (timed : Bool) : Threads τ α :=
  { s with
    empty_cond := s.empty_cond.wait t
    call := Function.update s.call t (.popping timed) }

/-- `add_block` returns. -/
def added (t : τ) (val : α) (timed : Bool) (ret : Int) (heap : Heap α) (queue : LinkQueue)
    (empty_cond : Cond τ) : Threads τ α :=
  { s with
    heap := heap
    queue := queue
    full_cond := s.full_cond.leave t
    empty_cond := empty_cond
    call := Function.update s.call t .idle
    log := s.log ++ [.added t val timed ret] }

/-- `pop_block` returns, and the node is the caller's. -/
def popped (t : τ) (n : Option (Addr × α)) (timed : Bool) (ret : Int) (heap : Heap α)
    (queue : LinkQueue) (full_cond : Cond τ) : Threads τ α :=
  { s with
    heap := heap
    queue := queue
    handed := s.handed ++ (n.map Prod.fst).toList
    full_cond := full_cond
    empty_cond := s.empty_cond.leave t
    call := Function.update s.call t .idle
    log := s.log ++ [.popped t n timed ret] }

/-- The rest of `add_block` behind its test: it waits, or adds and signals. -/
def run_add (t : τ) (val : α) (timed : Bool) (wakes : Option τ) :
    Option (Run (Int × Heap α × LinkQueue)) → Option (Run (Threads τ α))
  | none => if wakes.isNone then some (.ok (s.wait_full t val timed)) else none
  | some r => (s.empty_cond.signal wakes).map fun empty_cond => do
    let (ret, heap, queue) ← r
    return s.added t val timed ret heap queue empty_cond

/-- The address of a node, with its `_data` when it is handed out. -/
def handed_out (heap : Heap α) : Option Addr → Run (Option (Addr × α))
  | none => return none
  | some a => do return some (a, (← heap.read (some a))._data)

/-- The rest of `pop_block` behind its test. -/
def run_pop (t : τ) (timed : Bool) (wakes : Option τ) :
    Option (Run (Option Addr × Heap α × LinkQueue)) → Option (Run (Threads τ α))
  | none => if wakes.isNone then some (.ok (s.wait_empty t timed)) else none
  | some r => (s.full_cond.signal wakes).map fun full_cond => do
    let (a, heap, queue) ← r
    return s.popped t (← handed_out heap a) timed 0 heap queue full_cond

/-- One step; `none` when the thread is elsewhere or the world cannot decide so. -/
def step : Event τ α → Option (Run (Threads τ α))
  | .add t val timed alloc wakes =>
    match s.call t with
    | .idle =>
      if s.fresh alloc then s.run_add t val timed wakes (s.queue.add_block s.heap val alloc)
      else none
    | _ => none
  | .add_wake t alloc wakes =>
    match s.call t with
    | .adding val timed =>
      if t ∈ s.full_cond.woken ∧ s.fresh alloc then
        s.run_add t val timed wakes (s.queue.add_wake s.heap val alloc)
      else none
    | _ => none
  | .add_timeout t =>
    match s.call t with
    | .adding val true =>
      some (.ok (s.added t val true 1 s.heap s.queue.add_timeout s.empty_cond))
    | _ => none
  | .pop t timed wakes =>
    match s.call t with
    | .idle => s.run_pop t timed wakes (s.queue.pop_block s.heap)
    | _ => none
  | .pop_null t =>
    match s.call t with
    | .idle => some (.ok { s with log := s.log ++ [.refused t (-1)] })
    | _ => none
  | .pop_wake t wakes =>
    match s.call t with
    | .popping timed =>
      if t ∈ s.empty_cond.woken then s.run_pop t timed wakes (s.queue.pop_wake s.heap) else none
    | _ => none
  | .pop_timeout t =>
    match s.call t with
    | .popping true =>
      some (.ok (s.popped t none true 1 s.heap s.queue.pop_timeout s.full_cond))
    | _ => none
  | .clear t empty_wakes full_wakes =>
    match s.call t with
    | .idle =>
      (s.empty_cond.signal empty_wakes).bind fun empty_cond =>
      (s.full_cond.signal full_wakes).map fun full_cond => do
        let vals ← s.vals
        let (heap, queue) ← s.queue.clear s.heap
        return { s with
          heap := heap
          queue := queue
          full_cond := full_cond
          empty_cond := empty_cond
          log := s.log ++ [.cleared t vals] }
    | _ => none
  | .spurious_full t => (s.full_cond.wake t).map fun full_cond => .ok { s with full_cond := full_cond }
  | .spurious_empty t =>
    (s.empty_cond.wake t).map fun empty_cond => .ok { s with empty_cond := empty_cond }
  | .delete a =>
    if a ∈ s.handed then
      some (do return { s with heap := ← s.heap.free (some a), handed := s.handed.erase a })
    else none

end Threads

/-- The threads at a queue of the given size. A run that comes to a pointer without a
meaning ends there. -/
def queue_machine (τ α : Type) [DecidableEq τ] (size : Nat) :
    Machine (Run (Threads τ α)) (Event τ α) where
  init := .ok (.new size)
  step s e :=
    match s with
    | .ok s => s.step e
    | .error _ => none

namespace Threads

variable {τ α : Type}

/-! ## What a step does to the values -/

/-- The values that the log has as accepted: those of the calls of `add_block` that
returned 0. -/
def accepted (log : List (Returned τ α)) : List α :=
  log.flatMap fun
    | .added _ val _ ret => if ret = 0 then [val] else []
    | _ => []

/-- The values that left the list: handed out by `pop_block` or discarded by `clear`. -/
def removed (log : List (Returned τ α)) : List α :=
  log.flatMap fun
    | .popped _ n _ _ => (n.map Prod.snd).toList
    | .cleared _ vals => vals
    | _ => []

/-- The list consists of the nodes, and the nodes that consumers have are in use and not
among them. -/
structure Stored (s : Threads τ α) (nodes : List (Addr × α)) : Prop where
  queue : s.queue.Holds s.heap nodes
  blocking : s.queue._blocking = true
  alloc : ∀ a ∈ s.handed, s.heap a ≠ none
  apart : ∀ a ∈ s.handed, a ∉ nodes.map Prod.fst
  nodup : s.handed.Nodup

section Move

variable [DecidableEq τ]

/-- The steps by what they do to the queue of the values, one constructor for each way a
step can go: the state and the values before, the state and the values after. -/
inductive Move (s : Threads τ α) (vals : List α) : Event τ α → Threads τ α → List α → Prop where
  | add_sleep {t : τ} {val : α} {timed : Bool} {alloc : Option Addr} (hcall : s.call t = .idle)
      (hq : (s.queue.contents vals).add_block val alloc.isSome = none) :
      Move s vals (.add t val timed alloc none) (s.wait_full t val timed) vals
  | add {t : τ} {val : α} {timed : Bool} {alloc : Option Addr} {wakes : Option τ} {ret : Int}
      {heap : Heap α} {queue : LinkQueue} {vals' : List α} {cond : Cond τ}
      (hcall : s.call t = .idle)
      (hq : (s.queue.contents vals).add_block val alloc.isSome = some (ret, queue.contents vals'))
      (hsignal : s.empty_cond.signal wakes = some cond) :
      Move s vals (.add t val timed alloc wakes) (s.added t val timed ret heap queue cond) vals'
  | add_wake_sleep {t : τ} {val : α} {timed : Bool} {alloc : Option Addr}
      (hcall : s.call t = .adding val timed) (hwoken : t ∈ s.full_cond.woken)
      (hq : (s.queue.contents vals).add_wake val alloc.isSome = none) :
      Move s vals (.add_wake t alloc none) (s.wait_full t val timed) vals
  | add_wake {t : τ} {val : α} {timed : Bool} {alloc : Option Addr} {wakes : Option τ} {ret : Int}
      {heap : Heap α} {queue : LinkQueue} {vals' : List α} {cond : Cond τ}
      (hcall : s.call t = .adding val timed) (hwoken : t ∈ s.full_cond.woken)
      (hq : (s.queue.contents vals).add_wake val alloc.isSome = some (ret, queue.contents vals'))
      (hsignal : s.empty_cond.signal wakes = some cond) :
      Move s vals (.add_wake t alloc wakes) (s.added t val timed ret heap queue cond) vals'
  | add_timeout {t : τ} {val : α} (hcall : s.call t = .adding val true) :
      Move s vals (.add_timeout t)
        (s.added t val true 1 s.heap s.queue.add_timeout s.empty_cond) vals
  | pop_sleep {t : τ} {timed : Bool} (hcall : s.call t = .idle)
      (hq : (s.queue.contents vals).pop_block = none) :
      Move s vals (.pop t timed none) (s.wait_empty t timed) vals
  | pop {t : τ} {timed : Bool} {wakes : Option τ} {n : Option (Addr × α)} {heap : Heap α}
      {queue : LinkQueue} {vals' : List α} {cond : Cond τ} (hcall : s.call t = .idle)
      (hq : (s.queue.contents vals).pop_block = some (n.map Prod.snd, queue.contents vals'))
      (hsignal : s.full_cond.signal wakes = some cond) :
      Move s vals (.pop t timed wakes) (s.popped t n timed 0 heap queue cond) vals'
  | pop_null {t : τ} (hcall : s.call t = .idle) :
      Move s vals (.pop_null t) { s with log := s.log ++ [.refused t (-1)] } vals
  | pop_wake_sleep {t : τ} {timed : Bool} (hcall : s.call t = .popping timed)
      (hwoken : t ∈ s.empty_cond.woken) (hq : (s.queue.contents vals).pop_wake = none) :
      Move s vals (.pop_wake t none) (s.wait_empty t timed) vals
  | pop_wake {t : τ} {timed : Bool} {wakes : Option τ} {n : Option (Addr × α)} {heap : Heap α}
      {queue : LinkQueue} {vals' : List α} {cond : Cond τ} (hcall : s.call t = .popping timed)
      (hwoken : t ∈ s.empty_cond.woken)
      (hq : (s.queue.contents vals).pop_wake = some (n.map Prod.snd, queue.contents vals'))
      (hsignal : s.full_cond.signal wakes = some cond) :
      Move s vals (.pop_wake t wakes) (s.popped t n timed 0 heap queue cond) vals'
  | pop_timeout {t : τ} (hcall : s.call t = .popping true) :
      Move s vals (.pop_timeout t)
        (s.popped t none true 1 s.heap s.queue.pop_timeout s.full_cond) vals
  | clear {t : τ} {empty_wakes full_wakes : Option τ} {heap : Heap α} {queue : LinkQueue}
      {empty_cond full_cond : Cond τ} (hcall : s.call t = .idle)
      (hq : (s.queue.contents vals).clear = queue.contents [])
      (hempty : s.empty_cond.signal empty_wakes = some empty_cond)
      (hfull : s.full_cond.signal full_wakes = some full_cond) :
      Move s vals (.clear t empty_wakes full_wakes)
        { s with
          heap := heap
          queue := queue
          full_cond := full_cond
          empty_cond := empty_cond
          log := s.log ++ [.cleared t vals] } []
  | spurious_full {t : τ} {cond : Cond τ} (hwake : s.full_cond.wake t = some cond) :
      Move s vals (.spurious_full t) { s with full_cond := cond } vals
  | spurious_empty {t : τ} {cond : Cond τ} (hwake : s.empty_cond.wake t = some cond) :
      Move s vals (.spurious_empty t) { s with empty_cond := cond } vals
  | delete {a : Addr} {heap : Heap α} (ha : a ∈ s.handed) :
      Move s vals (.delete a) { s with heap := heap, handed := s.handed.erase a } vals

end Move

theorem Stored.new (size : Nat) : (Threads.new size : Threads τ α).Stored [] :=
  ⟨LinkQueue.holds_new _ size true, rfl, nofun, nofun, List.nodup_nil⟩

variable {s : Threads τ α} {nodes : List (Addr × α)}

theorem Stored.vals_eq (h : s.Stored nodes) : s.vals = .ok (nodes.map Prod.snd) :=
  h.queue.list.values_eq

theorem fresh_spec {alloc : Option Addr} (h : s.fresh alloc = true) (a : Addr)
    (ha : alloc = some a) : s.heap a = none := by
  subst ha
  simpa [fresh] using h

/-- A section that leaves the nodes outside of the list alone. -/
theorem Stored.section_ok (h : s.Stored nodes) {s' : Threads τ α} {nodes' : List (Addr × α)}
    (hqueue : s'.queue.Holds s'.heap nodes') (hblocking : s'.queue._blocking = s.queue._blocking)
    (hframe : LinkQueue.Frame s.heap nodes s'.heap nodes') (hhanded : s'.handed = s.handed) :
    s'.Stored nodes' := by
  refine ⟨hqueue, hblocking.trans h.blocking, ?_, ?_, ?_⟩
  · intro a ha
    rw [hhanded] at ha
    rw [(hframe a (h.alloc a ha) (h.apart a ha)).1]
    exact h.alloc a ha
  · intro a ha
    rw [hhanded] at ha
    exact (hframe a (h.alloc a ha) (h.apart a ha)).2
  · rw [hhanded]
    exact h.nodup

/-! ## Every step is one of the moves -/

variable [DecidableEq τ] {t : τ} {val : α} {timed : Bool} {wakes : Option τ} {cond : Cond τ}

theorem Stored.added (h : s.Stored nodes) {alloc : Option Addr} (hfresh : s.fresh alloc = true) :
    ∃ ret heap queue nodes', s.queue.add_locked s.heap val alloc = .ok (ret, heap, queue) ∧
      (s.added t val timed ret heap queue cond).Stored nodes' ∧
      (s.queue.contents (nodes.map Prod.snd)).add_locked val alloc.isSome =
        (ret, queue.contents (nodes'.map Prod.snd)) := by
  obtain ⟨ret, heap, queue, nodes', hadd, hholds, hcontents, hframe⟩ :=
    h.queue.add_locked val (fresh_spec hfresh)
  have hblocking : s.queue._blocking = queue._blocking :=
    congrArg (fun p => p.2._blocking) hcontents
  exact ⟨ret, heap, queue, nodes', hadd, h.section_ok hholds hblocking.symm hframe rfl, hcontents⟩

/-- The node that is handed out was in use, and nobody had it. -/
theorem Stored.popped (h : s.Stored nodes) :
    ∃ heap queue, s.queue.pop_locked s.heap = .ok (nodes.head?.map Prod.fst, heap, queue) ∧
      handed_out heap (nodes.head?.map Prod.fst) = .ok nodes.head? ∧
      (s.popped t nodes.head? timed 0 heap queue cond).Stored nodes.tail ∧
      (s.queue.contents (nodes.map Prod.snd)).pop_locked =
        (nodes.head?.map Prod.snd, queue.contents (nodes.tail.map Prod.snd)) := by
  obtain ⟨heap, queue, hpop, hholds, hcontents, hframe, hhead⟩ := h.queue.pop_locked
  have hblocking : s.queue._blocking = queue._blocking :=
    congrArg (fun p => p.2._blocking) hcontents
  have hrest : ({ s with heap := heap, queue := queue } : Threads τ α).Stored nodes.tail :=
    h.section_ok hholds hblocking.symm hframe rfl
  refine ⟨heap, queue, hpop, ?_, ?_, hcontents⟩
  · cases hnode : nodes.head? with
    | none => rfl
    | some ax =>
      obtain ⟨a, x⟩ := ax
      obtain ⟨-, node, ha, rfl⟩ := hhead a x hnode
      simp only [Option.map_some, handed_out, heap.read_of_eq ha, run_ok_bind]
      rfl
  · cases hnode : nodes.head? with
    | none =>
      have hhanded : (s.popped t none timed 0 heap queue cond).handed = s.handed :=
        List.append_nil _
      refine ⟨hrest.queue, hrest.blocking, ?_, ?_, ?_⟩ <;> rw [hhanded]
      · exact hrest.alloc
      · exact hrest.apart
      · exact hrest.nodup
    | some ax =>
      obtain ⟨a, x⟩ := ax
      obtain ⟨ha, node, halloc, -⟩ := hhead a x hnode
      -- it stood in the list, and those handed out stand apart from it
      have hnew : a ∉ s.handed := fun hmem =>
        h.apart a hmem (List.mem_map_of_mem (List.mem_of_mem_head? hnode))
      refine ⟨hrest.queue, hrest.blocking, ?_, ?_, ?_⟩
      · refine List.forall_mem_append.mpr ⟨hrest.alloc, List.forall_mem_singleton.mpr ?_⟩
        exact fun hnone => Option.some_ne_none node (halloc.symm.trans hnone)
      · exact List.forall_mem_append.mpr ⟨hrest.apart, List.forall_mem_singleton.mpr ha⟩
      · refine List.nodup_append.mpr ⟨hrest.nodup, List.nodup_singleton a, ?_⟩
        rintro b hb c hc rfl
        rw [List.mem_singleton.mp hc] at hb
        exact hnew hb

theorem run_add_none {r : Run (Threads τ α)} (h : s.run_add t val timed wakes none = some r) :
    wakes = none ∧ r = .ok (s.wait_full t val timed) := by
  rw [run_add] at h
  split at h
  · rename_i hwakes
    cases h
    exact ⟨Option.isNone_iff_eq_none.mp hwakes, rfl⟩
  · cases h

theorem run_pop_none {r : Run (Threads τ α)} (h : s.run_pop t timed wakes none = some r) :
    wakes = none ∧ r = .ok (s.wait_empty t timed) := by
  rw [run_pop] at h
  split at h
  · rename_i hwakes
    cases h
    exact ⟨Option.isNone_iff_eq_none.mp hwakes, rfl⟩
  · cases h

/-- Where `add_block` does not wait, it returns. -/
theorem Stored.run_add (h : s.Stored nodes) {alloc : Option Addr} (hfresh : s.fresh alloc = true)
    {r : Run (Threads τ α)}
    (hr : s.run_add t val timed wakes (some (s.queue.add_locked s.heap val alloc)) = some r) :
    ∃ ret heap queue nodes' cond, r = .ok (s.added t val timed ret heap queue cond) ∧
      s.empty_cond.signal wakes = some cond ∧
      (s.added t val timed ret heap queue cond).Stored nodes' ∧
      (s.queue.contents (nodes.map Prod.snd)).add_locked val alloc.isSome =
        (ret, queue.contents (nodes'.map Prod.snd)) := by
  rw [Threads.run_add, Option.map_eq_some_iff] at hr
  obtain ⟨cond, hsignal, rfl⟩ := hr
  obtain ⟨ret, heap, queue, nodes', hadd, hstored, hcontents⟩ := h.added hfresh
  refine ⟨ret, heap, queue, nodes', cond, ?_, hsignal, hstored, hcontents⟩
  rw [hadd]
  rfl

theorem Stored.run_pop (h : s.Stored nodes) {r : Run (Threads τ α)}
    (hr : s.run_pop t timed wakes (some (s.queue.pop_locked s.heap)) = some r) :
    ∃ n heap queue nodes' cond, r = .ok (s.popped t n timed 0 heap queue cond) ∧
      s.full_cond.signal wakes = some cond ∧
      (s.popped t n timed 0 heap queue cond).Stored nodes' ∧
      (s.queue.contents (nodes.map Prod.snd)).pop_locked =
        (n.map Prod.snd, queue.contents (nodes'.map Prod.snd)) := by
  rw [Threads.run_pop, Option.map_eq_some_iff] at hr
  obtain ⟨cond, hsignal, rfl⟩ := hr
  obtain ⟨heap, queue, hpop, hout, hstored, hcontents⟩ := h.popped
  refine ⟨nodes.head?, heap, queue, nodes.tail, cond, ?_, hsignal, hstored, hcontents⟩
  rw [hpop]
  simp only [run_ok_bind, hout]
  rfl

/-- The step comes to an end, and is one of the moves. -/
def Moves (s : Threads τ α) (nodes : List (Addr × α)) (e : Event τ α) (r : Run (Threads τ α)) :
    Prop :=
  ∃ s' nodes', r = .ok s' ∧ s'.Stored nodes' ∧ Move s (nodes.map Prod.snd) e s' (nodes'.map Prod.snd)

/-- A move that the list does not take part in. -/
theorem Stored.moves (h : s.Stored nodes) {e : Event τ α} {s' : Threads τ α}
    (hqueue : s'.queue.Holds s'.heap nodes) (hblocking : s'.queue._blocking = s.queue._blocking)
    (hheap : s'.heap = s.heap) (hhanded : s'.handed = s.handed)
    (hmove : Move s (nodes.map Prod.snd) e s' (nodes.map Prod.snd)) : Moves s nodes e (.ok s') := by
  have hframe : LinkQueue.Frame s.heap nodes s'.heap nodes := by
    rw [hheap]
    exact LinkQueue.frame_refl s.heap nodes
  exact ⟨s', nodes, rfl, h.section_ok hqueue hblocking hframe hhanded, hmove⟩

theorem Stored.add_moves (h : s.Stored nodes) {alloc : Option Addr} {r : Run (Threads τ α)}
    (hr : s.step (.add t val timed alloc wakes) = some r) :
    Moves s nodes (.add t val timed alloc wakes) r := by
  rw [step] at hr
  cases hcall : s.call t with
  | adding => simp only [hcall, reduceCtorEq] at hr
  | popping => simp only [hcall, reduceCtorEq] at hr
  | idle =>
    simp only [hcall] at hr
    split at hr
    case isFalse => cases hr
    case isTrue hfresh =>
      -- the queue of the values takes the branch that the linked one takes
      have hq := h.queue.add_block_eq val alloc.isSome
      rw [LinkQueue.add_block] at hr
      split at hr
      case isTrue hwait =>
        rw [if_pos hwait] at hq
        obtain ⟨rfl, rfl⟩ := run_add_none hr
        exact h.moves h.queue rfl rfl rfl (.add_sleep hcall hq)
      case isFalse hwait =>
        obtain ⟨ret, heap, queue, nodes', cond, rfl, hsignal, hstored, hadd⟩ := h.run_add hfresh hr
        rw [if_neg hwait, hadd] at hq
        exact ⟨_, nodes', rfl, hstored, .add hcall hq hsignal⟩

theorem Stored.add_wake_moves (h : s.Stored nodes) {alloc : Option Addr} {r : Run (Threads τ α)}
    (hr : s.step (.add_wake t alloc wakes) = some r) :
    Moves s nodes (.add_wake t alloc wakes) r := by
  rw [step] at hr
  cases hcall : s.call t with
  | idle => simp only [hcall, reduceCtorEq] at hr
  | popping => simp only [hcall, reduceCtorEq] at hr
  | adding val timed =>
    simp only [hcall] at hr
    split at hr
    case isFalse => cases hr
    case isTrue hready =>
      obtain ⟨hwoken, hfresh⟩ := hready
      have hq : (s.queue.contents (nodes.map Prod.snd)).add_wake val alloc.isSome =
          if !s.queue._full_signal then none
          else some ((s.queue.contents (nodes.map Prod.snd)).add_locked val alloc.isSome) := rfl
      rw [LinkQueue.add_wake] at hr
      split at hr
      case isTrue hwait =>
        rw [if_pos hwait] at hq
        obtain ⟨rfl, rfl⟩ := run_add_none hr
        exact h.moves h.queue rfl rfl rfl (.add_wake_sleep hcall hwoken hq)
      case isFalse hwait =>
        obtain ⟨ret, heap, queue, nodes', cond, rfl, hsignal, hstored, hadd⟩ := h.run_add hfresh hr
        rw [if_neg hwait, hadd] at hq
        exact ⟨_, nodes', rfl, hstored, .add_wake hcall hwoken hq hsignal⟩

theorem Stored.pop_moves (h : s.Stored nodes) {r : Run (Threads τ α)}
    (hr : s.step (.pop t timed wakes) = some r) : Moves s nodes (.pop t timed wakes) r := by
  rw [step] at hr
  cases hcall : s.call t with
  | adding => simp only [hcall, reduceCtorEq] at hr
  | popping => simp only [hcall, reduceCtorEq] at hr
  | idle =>
    simp only [hcall] at hr
    -- the queue of the values takes the branch that the linked one takes
    have hq := h.queue.pop_block_eq
    rw [LinkQueue.pop_block] at hr
    split at hr
    case isTrue hwait =>
      rw [if_pos hwait] at hq
      obtain ⟨rfl, rfl⟩ := run_pop_none hr
      exact h.moves h.queue rfl rfl rfl (.pop_sleep hcall hq)
    case isFalse hwait =>
      obtain ⟨n, heap, queue, nodes', cond, rfl, hsignal, hstored, hpop⟩ := h.run_pop hr
      rw [if_neg hwait, hpop] at hq
      exact ⟨_, nodes', rfl, hstored, .pop hcall hq hsignal⟩

theorem Stored.pop_wake_moves (h : s.Stored nodes) {r : Run (Threads τ α)}
    (hr : s.step (.pop_wake t wakes) = some r) : Moves s nodes (.pop_wake t wakes) r := by
  rw [step] at hr
  cases hcall : s.call t with
  | idle => simp only [hcall, reduceCtorEq] at hr
  | adding => simp only [hcall, reduceCtorEq] at hr
  | popping timed =>
    simp only [hcall] at hr
    split at hr
    case isFalse => cases hr
    case isTrue hwoken =>
      have hq : (s.queue.contents (nodes.map Prod.snd)).pop_wake =
          if !s.queue._empty_signal then none
          else some (s.queue.contents (nodes.map Prod.snd)).pop_locked := rfl
      rw [LinkQueue.pop_wake] at hr
      split at hr
      case isTrue hwait =>
        rw [if_pos hwait] at hq
        obtain ⟨rfl, rfl⟩ := run_pop_none hr
        exact h.moves h.queue rfl rfl rfl (.pop_wake_sleep hcall hwoken hq)
      case isFalse hwait =>
        obtain ⟨n, heap, queue, nodes', cond, rfl, hsignal, hstored, hpop⟩ := h.run_pop hr
        rw [if_neg hwait, hpop] at hq
        exact ⟨_, nodes', rfl, hstored, .pop_wake hcall hwoken hq hsignal⟩

theorem Stored.clear_moves (h : s.Stored nodes) {empty_wakes full_wakes : Option τ}
    {r : Run (Threads τ α)} (hr : s.step (.clear t empty_wakes full_wakes) = some r) :
    Moves s nodes (.clear t empty_wakes full_wakes) r := by
  rw [step] at hr
  cases hcall : s.call t with
  | adding => simp only [hcall, reduceCtorEq] at hr
  | popping => simp only [hcall, reduceCtorEq] at hr
  | idle =>
    simp only [hcall, Option.bind_eq_some_iff, Option.map_eq_some_iff] at hr
    obtain ⟨empty_cond, hempty, full_cond, hfull, rfl⟩ := hr
    obtain ⟨heap, queue, hclear, hholds, hq, hframe⟩ := h.queue.clear h.blocking
    -- `clear` leaves `_blocking` as it is, as the values show
    have hblocking : queue._blocking = s.queue._blocking := by
      have hsame := congrArg Queue._blocking hq
      rw [Queue.clear, LinkQueue.contents, if_pos h.blocking] at hsame
      exact hsame.symm
    refine ⟨{ s with
      heap := heap
      queue := queue
      full_cond := full_cond
      empty_cond := empty_cond
      log := s.log ++ [.cleared t (nodes.map Prod.snd)] }, [], ?_, ?_, .clear hcall hq hempty hfull⟩
    · simp only [h.vals_eq, hclear, run_ok_bind]
      rfl
    · exact h.section_ok hholds hblocking hframe rfl

/-- A consumer may free its node, and the address is free for a new one. -/
theorem Stored.delete_moves (h : s.Stored nodes) {a : Addr} {r : Run (Threads τ α)}
    (hr : s.step (.delete a) = some r) : Moves s nodes (.delete a) r := by
  rw [step] at hr
  split at hr
  case isFalse => cases hr
  case isTrue ha =>
    cases hr
    obtain ⟨node, hnode⟩ := Option.ne_none_iff_exists'.mp (h.alloc a ha)
    refine ⟨{ s with heap := Function.update s.heap a none, handed := s.handed.erase a }, nodes, ?_,
      ⟨?_, h.blocking, ?_, ?_, h.nodup.erase a⟩, .delete ha⟩
    · rw [s.heap.free_of_eq hnode]
      rfl
    -- the node freed is apart from the list
    · refine ⟨h.queue.list.frame fun b hb => Function.update_of_ne ?_ _ _, h.queue.max_len⟩
      rintro rfl
      exact h.apart b ha hb
    · intro b hb
      obtain ⟨hba, hb⟩ := (h.nodup.mem_erase_iff).mp hb
      exact fun hnone => h.alloc b hb ((Function.update_of_ne hba _ _).symm.trans hnone)
    · exact fun b hb => h.apart b (List.mem_of_mem_erase hb)

/-- Every step comes to an end, and is one of the moves. -/
theorem Stored.step_moves (h : s.Stored nodes) {e : Event τ α} {r : Run (Threads τ α)}
    (hr : s.step e = some r) : Moves s nodes e r := by
  cases e with
  | add t val timed alloc wakes => exact h.add_moves hr
  | add_wake t alloc wakes => exact h.add_wake_moves hr
  | pop t timed wakes => exact h.pop_moves hr
  | pop_wake t wakes => exact h.pop_wake_moves hr
  | clear t empty_wakes full_wakes => exact h.clear_moves hr
  | delete a => exact h.delete_moves hr
  | add_timeout t =>
    rw [step] at hr
    split at hr
    case h_1 val hcall =>
      cases hr
      exact h.moves ⟨h.queue.list, h.queue.max_len⟩ rfl rfl rfl (.add_timeout hcall)
    case h_2 => cases hr
  | pop_timeout t =>
    rw [step] at hr
    split at hr
    case h_1 hcall =>
      cases hr
      exact h.moves ⟨h.queue.list, h.queue.max_len⟩ rfl rfl (List.append_nil _) (.pop_timeout hcall)
    case h_2 => cases hr
  | pop_null t =>
    rw [step] at hr
    split at hr
    case h_1 hcall =>
      cases hr
      exact h.moves h.queue rfl rfl rfl (.pop_null hcall)
    case h_2 => cases hr
  | spurious_full t =>
    rw [step, Option.map_eq_some_iff] at hr
    obtain ⟨cond, hwake, rfl⟩ := hr
    exact h.moves h.queue rfl rfl rfl (.spurious_full hwake)
  | spurious_empty t =>
    rw [step, Option.map_eq_some_iff] at hr
    obtain ⟨cond, hwake, rfl⟩ := hr
    exact h.moves h.queue rfl rfl rfl (.spurious_empty hwake)

end Threads

end Rellaf.Mysql
