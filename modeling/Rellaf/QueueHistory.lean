/-
What the threads see of the queue: the calls that have ended, in the order in which they
held the lock for the last time, are those of a bounded FIFO queue that does one call at a
time. `Fifo` is that queue; it has the list of its values, no heap, no signals and no waits.

A call of `add_block` returns 0 where there is room, and the value is the last then. It
returns 1 where its time is over, and -1 where there was no memory for a node; then it has
done nothing. `pop_block` hands out the first value, and nothing with 0 only where there is
none.
-/
import Rellaf.Lib.Refinement
import Rellaf.QueueRuns

set_option autoImplicit false

open Rellaf.Cpp

namespace Rellaf.Mysql

/-! ## The queue as its callers know it -/

namespace Fifo

variable {τ α : Type} [DecidableEq α]

/-- The values behind a call, `none` where the queue does not answer so. -/
def step (cap : Nat) (vals : List α) : Returned τ α → Option (List α)
  | .added _ val timed ret =>
    if ret = 0 then if vals.length < cap then some (vals ++ [val]) else none
    else if ret = -1 ∨ ret = 1 ∧ timed = true then some vals else none
  | .popped _ (some n) _ ret => if ret = 0 ∧ vals.head? = some n.2 then some vals.tail else none
  | .popped _ none timed ret =>
    if ret = 0 ∧ vals = [] ∨ ret = 1 ∧ timed = true then some vals else none
  | .refused _ ret => if ret = -1 then some vals else none
  | .cleared _ discarded => if discarded = vals then some [] else none

end Fifo

/-- The bounded queue, empty at first. -/
def fifo_machine (τ α : Type) [DecidableEq α] (cap : Nat) :
    Machine (List α) (Returned τ α) where
  init := []
  step := Fifo.step cap

namespace Threads

variable {τ α : Type} [DecidableEq τ] {size : Nat} {s s' : Threads τ α} {vals vals' : List α}
  {e : Event τ α} {es : List (Event τ α)} {r : Run (Threads τ α)}

/-! ## Every section is a call of it -/

/-- What holds between sections, whoever clears the queue and whatever memory there is: a
set `_full_signal` says that there is room. -/
structure RoomOk (size : Nat) (s : Threads τ α) (vals : List α) : Prop where
  max_size : s.queue._max_size = capacity size
  length_le : vals.length ≤ capacity size
  full : s.queue._full_signal = true → vals.length < capacity size

theorem capacity_pos (size : Nat) : 0 < capacity size := by
  rw [capacity]
  split
  · decide
  · exact Nat.pos_of_ne_zero ‹_›

omit [DecidableEq τ] in
theorem roomOk_new (size : Nat) : RoomOk size (.new size : Threads τ α) [] :=
  ⟨rfl, Nat.zero_le _, nofun⟩

section Call

variable [DecidableEq α]

/-- The step ends no call and leaves the values, or it ends one, and the bounded queue does
the same. -/
def Follows (size : Nat) (s : Threads τ α) (vals : List α) (s' : Threads τ α) (vals' : List α) :
    Prop :=
  RoomOk size s' vals' ∧
    (s'.log = s.log ∧ vals' = vals ∨
      ∃ c, s'.log = s.log ++ [c] ∧ Fifo.step (capacity size) vals c = some vals')

theorem RoomOk.added (h : RoomOk size s vals) {t : τ} {val : α} {timed alloc : Bool} {ret : Int}
    {heap : Heap α} {queue : LinkQueue} {cond : Cond τ}
    (hq : (s.queue.contents vals).add_locked val alloc = (ret, queue.contents vals')) :
    Follows size s vals (s.added t val timed ret heap queue cond) vals' := by
  have hmax : s.queue._max_size = queue._max_size := congrArg (fun p => p.2._max_size) hq
  have hsignal : false = queue._full_signal := congrArg (fun p => p.2._full_signal) hq
  have hlist := (s.queue.contents vals).add_locked_eq val alloc
  rw [hq, show (s.queue.contents vals)._max_size = capacity size from h.max_size] at hlist
  have hroom : RoomOk size (s.added t val timed ret heap queue cond) vals' → Fifo.step
      (capacity size) vals (.added t val timed ret : Returned τ α) = some vals' →
      Follows size s vals (s.added t val timed ret heap queue cond) vals' :=
    fun hok hstep => ⟨hok, .inr ⟨_, rfl, hstep⟩⟩
  have hnone : queue._full_signal = true → vals'.length < capacity size := fun hset => by
    rw [← hsignal] at hset
    cases hset
  split at hlist
  · rename_i hadd
    obtain ⟨rfl, hvals⟩ := Prod.mk.inj hlist
    obtain rfl : vals' = vals ++ [val] := hvals
    have hlength : vals.length < capacity size := hadd.1
    refine hroom ⟨hmax.symm.trans h.max_size, ?_, hnone⟩ ?_
    · rw [List.length_append, List.length_singleton]
      exact hlength
    · rw [Fifo.step, if_pos rfl, if_pos hlength]
  · obtain ⟨rfl, hvals⟩ := Prod.mk.inj hlist
    obtain rfl : vals' = vals := hvals
    refine hroom ⟨hmax.symm.trans h.max_size, h.length_le, hnone⟩ ?_
    rw [Fifo.step, if_neg (by decide), if_pos (.inl rfl)]

theorem RoomOk.popped (h : RoomOk size s vals) {t : τ} {n : Option (Addr × α)} {timed : Bool}
    {heap : Heap α} {queue : LinkQueue} {cond : Cond τ}
    (hq : (s.queue.contents vals).pop_locked = (n.map Prod.snd, queue.contents vals')) :
    Follows size s vals (s.popped t n timed 0 heap queue cond) vals' := by
  have hmax : s.queue._max_size = queue._max_size := congrArg (fun p => p.2._max_size) hq
  have hhead : vals.head? = n.map Prod.snd := congrArg Prod.fst hq
  obtain rfl : vals.tail = vals' := congrArg (fun p => p.2._list) hq
  have hpos := capacity_pos size
  have hle := h.length_le
  refine ⟨⟨hmax.symm.trans h.max_size, ?_, fun _ => ?_⟩, .inr ⟨_, rfl, ?_⟩⟩
  · rw [List.length_tail]
    omega
  · rw [List.length_tail]
    omega
  · cases n with
    | none =>
      obtain rfl : vals = [] := List.head?_eq_none_iff.mp hhead
      rw [Fifo.step, if_pos (.inl ⟨rfl, rfl⟩)]
      rfl
    | some n => rw [Fifo.step, if_pos ⟨rfl, hhead⟩]

theorem RoomOk.move (h : RoomOk size s vals) (hmove : Move s vals e s' vals') :
    Follows size s vals s' vals' := by
  -- a call that goes to sleep, and a step that is none of the queue's
  have hsame : ∀ {s' : Threads τ α}, s'.queue = s.queue → s'.log = s.log →
      Follows size s vals s' vals := fun hqueue hlog => by
    refine ⟨⟨?_, h.length_le, ?_⟩, .inl ⟨hlog, rfl⟩⟩
    · rw [hqueue, h.max_size]
    · rw [hqueue]
      exact h.full
  cases hmove with
  | add _ hq _ => exact h.added (Queue.add_block_eq_some _ hq)
  | add_wake _ _ hq _ => exact h.added (Queue.add_wake_eq_some _ hq)
  | pop _ hq _ => exact h.popped (Queue.pop_block_eq_some _ hq)
  | pop_wake _ _ hq _ => exact h.popped (Queue.pop_wake_eq_some _ hq)
  | add_timeout _ =>
    refine ⟨⟨h.max_size, h.length_le, nofun⟩, .inr ⟨_, rfl, ?_⟩⟩
    rw [Fifo.step, if_neg (by decide), if_pos (.inr ⟨rfl, rfl⟩)]
  | pop_timeout _ =>
    refine ⟨⟨h.max_size, h.length_le, h.full⟩, .inr ⟨_, rfl, ?_⟩⟩
    rw [Fifo.step, if_pos (.inr ⟨rfl, rfl⟩)]
  | pop_null _ =>
    refine ⟨⟨h.max_size, h.length_le, h.full⟩, .inr ⟨_, rfl, ?_⟩⟩
    rw [Fifo.step, if_pos rfl]
  | @clear _ _ _ _ queue _ _ _ hq _ _ =>
    have hmax : s.queue._max_size = queue._max_size := by
      have hsize := congrArg Queue._max_size hq
      rw [Queue.clear] at hsize
      split at hsize
      · exact hsize
      · exact hsize
    refine ⟨⟨hmax.symm.trans h.max_size, Nat.zero_le _, fun _ => capacity_pos size⟩,
      .inr ⟨_, rfl, ?_⟩⟩
    rw [Fifo.step, if_pos rfl]
  | add_sleep _ _ => exact hsame rfl rfl
  | add_wake_sleep _ _ _ => exact hsame rfl rfl
  | pop_sleep _ _ => exact hsame rfl rfl
  | pop_wake_sleep _ _ _ => exact hsame rfl rfl
  | spurious_full _ => exact hsame rfl rfl
  | spurious_empty _ => exact hsame rfl rfl
  | delete _ => exact hsame rfl rfl

/-- The states of the threads stand for the values in their list. -/
theorem queue_simulates (size : Nat) :
    (queue_machine τ α size).Simulates (fifo_machine τ α (capacity size))
      (fun r => r.toOption.elim [] Threads.log)
      (fun r vals => ∃ s nodes, r = .ok s ∧ s.Stored nodes ∧ vals = nodes.map Prod.snd ∧
        RoomOk size s vals) where
  obs_init := rfl
  init := ⟨.new size, [], rfl, .new size, rfl, roomOk_new size⟩
  step := by
    rintro _ _ e r' ⟨s, nodes, rfl, hstored, rfl, hok⟩ hstep
    obtain ⟨s', nodes', rfl, hstored', hmove⟩ := hstored.step_moves hstep
    obtain ⟨hok', ⟨hlog, hvals⟩ | ⟨c, hlog, hcall⟩⟩ := hok.move hmove
    · rw [hvals] at hok'
      refine ⟨[], _, ?_, rfl, s', nodes', rfl, hstored', hvals.symm, hok'⟩
      change s'.log = s.log ++ []
      rw [hlog, List.append_nil]
    · refine ⟨[c], _, hlog, ?_, s', nodes', rfl, hstored', rfl, hok'⟩
      exact (Machine.run_cons_eq_some _).mpr ⟨_, hcall, rfl⟩

end Call

/-! ## Where a call of `add_block` fails -/

/-- Where `new` is called, it gives an address. -/
def has_memory : Event τ α → Bool
  | .add _ _ _ alloc _ | .add_wake _ alloc _ => alloc.isSome
  | _ => true

omit [DecidableEq τ] in
/-- A call that goes on to add finds room. -/
theorem RoomOk.has_room (h : RoomOk size s vals)
    (hgoes : (s.queue.contents vals).isfull = false ∨ s.queue._full_signal = true) :
    vals.length < capacity size := by
  rcases hgoes with hgoes | hsignal
  · rw [← h.max_size]
    simpa [Queue.isfull, LinkQueue.contents] using hgoes
  · exact h.full hsignal

omit [DecidableEq τ] in
/-- With memory it has added the value then. -/
theorem RoomOk.added_zero (h : RoomOk size s vals) {val : α} {ret : Int} {queue : LinkQueue}
    (hgoes : (s.queue.contents vals).isfull = false ∨ s.queue._full_signal = true)
    (hq : (s.queue.contents vals).add_locked val true = (ret, queue.contents vals')) :
    ret = 0 := by
  have hlist := (s.queue.contents vals).add_locked_eq val true
  rw [hq, if_pos ⟨(h.has_room hgoes).trans_eq h.max_size.symm, rfl⟩] at hlist
  exact (Prod.mk.inj hlist).1

/-- The calls that have returned -1 are those of `pop_block` that were given no place for a
node. -/
def FailsRefused (s : Threads τ α) : Prop := ∀ c ∈ s.log, c.ret = -1 → ∃ t, c = .refused t (-1)

omit [DecidableEq τ] in
theorem FailsRefused.concat (h : FailsRefused s) {c : Returned τ α} (hlog : s'.log = s.log ++ [c])
    (hc : c.ret = -1 → ∃ t, c = .refused t (-1)) : FailsRefused s' := by
  intro c' hc'
  rw [hlog, List.mem_append, List.mem_singleton] at hc'
  rcases hc' with hc' | rfl
  · exact h c' hc'
  · exact hc

theorem FailsRefused.move (h : FailsRefused s) (hok : RoomOk size s vals)
    (he : has_memory e = true) (hmove : Move s vals e s' vals') : FailsRefused s' := by
  cases hmove with
  | @add _ _ _ alloc _ _ _ _ _ _ _ hq _ =>
    have halloc : alloc.isSome = true := he
    have hlocked := Queue.add_block_eq_some _ hq
    rw [Queue.add_block, Option.ite_none_left_eq_some] at hq
    have hgoes : (s.queue.contents vals).isfull = false ∨ s.queue._full_signal = true := by
      have hgoes := hq.1
      simp only [Bool.and_eq_true, Bool.not_eq_true', not_and_or, Bool.not_eq_true,
        Bool.not_eq_false] at hgoes
      exact hgoes
    rw [halloc] at hlocked
    refine h.concat rfl fun hret => ?_
    rw [show _ = (0 : Int) from hok.added_zero hgoes hlocked] at hret
    cases hret
  | @add_wake _ _ _ alloc _ _ _ _ _ _ _ _ hq _ =>
    have halloc : alloc.isSome = true := he
    have hlocked := Queue.add_wake_eq_some _ hq
    rw [Queue.add_wake, Option.ite_none_left_eq_some] at hq
    have hsignal : (s.queue.contents vals)._full_signal = true := by simpa using hq.1
    rw [halloc] at hlocked
    refine h.concat rfl fun hret => ?_
    rw [show _ = (0 : Int) from hok.added_zero (.inr hsignal) hlocked] at hret
    cases hret
  | pop _ _ _ => exact h.concat rfl (by rintro ⟨⟩)
  | pop_wake _ _ _ _ => exact h.concat rfl (by rintro ⟨⟩)
  | add_timeout _ => exact h.concat rfl (by rintro ⟨⟩)
  | pop_timeout _ => exact h.concat rfl (by rintro ⟨⟩)
  | pop_null _ => exact h.concat rfl fun _ => ⟨_, rfl⟩
  | clear _ _ _ _ => exact h.concat rfl (by rintro ⟨⟩)
  | add_sleep _ _ => exact h
  | add_wake_sleep _ _ _ => exact h
  | pop_sleep _ _ => exact h
  | pop_wake_sleep _ _ _ => exact h
  | spurious_full _ => exact h
  | spurious_empty _ => exact h
  | delete _ => exact h

/-- **The queue is linearizable.** In every run of any number of threads, with whatever
timeouts, `clear`s, spurious wake-ups and allocations that fail, the calls that have ended
are a run of the bounded FIFO queue, one call after the other, and the list has the values
that this queue has then. Where memory does not run out, no `add_block` returns -1. -/
theorem queue_linearizes [DecidableEq α] (h : (queue_machine τ α size).Reaches es r) :
    ∃ s vals, r = .ok s ∧ s.vals = .ok vals ∧
      (fifo_machine τ α (capacity size)).Reaches s.log vals ∧
      ((∀ e ∈ es, has_memory e = true) → FailsRefused s) := by
  obtain ⟨vals, hvals, s, nodes, rfl, hstored, rfl, hok⟩ := (queue_simulates size).reaches h
  refine ⟨s, _, rfl, hstored.vals_eq, hvals, fun hmemory => ?_⟩
  have hrun := Machine.restrict_reaches (C := fun e => has_memory e = true) hmemory h
  obtain ⟨u, -, hu, -, -, hfails⟩ := reaches_of_moves
    (Q := fun s vals => RoomOk size s vals ∧ FailsRefused s) ⟨roomOk_new size, nofun⟩
    (fun s nodes e s' vals' _ hs he hmove =>
      ⟨(hs.1.move hmove).1, hs.2.move hs.1 he hmove⟩) hrun
  obtain rfl : s = u := Except.ok.inj hu
  exact hfails

/-- A call that waits for room and is woken, one whose time is over, and a `clear` behind
which `pop_block` hands out nothing. -/
def history_run : List (Event Nat Nat) :=
  [.add 0 7 false (some 0) none, .add 1 8 false (some 1) none, .add 3 9 true (some 1) none,
    .pop 2 false (some 1), .add_wake 1 (some 1) none, .add_timeout 3, .clear 0 none none,
    .pop 2 false none]

theorem queue_linearizes_history :
    ∃ s vals, (queue_machine Nat Nat 1).Reaches history_run (.ok s) ∧ s.vals = .ok vals ∧
      (fifo_machine Nat Nat 1).Reaches s.log vals ∧ FailsRefused s := by
  obtain ⟨r, hr⟩ : ∃ r, (queue_machine Nat Nat 1).Reaches history_run r := ⟨_, rfl⟩
  obtain ⟨s, vals, rfl, hvals, hlog, hfails⟩ := queue_linearizes hr
  exact ⟨s, vals, hr, hvals, hlog, hfails (by decide)⟩

end Threads

end Rellaf.Mysql
