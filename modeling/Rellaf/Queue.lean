/-
`fqueue.hpp` and `flatch.hpp`: the bounded queue between the clients and a worker,
and the latch a client waits on.

Both are used by several threads, so each function here is one section between
`pthread_mutex_lock` and the next point at which the mutex is free: its end, or a
wait on a condition variable. A call that may wait is cut in two, what it does
when it enters and what it does when it has been woken; `none` says that it goes
to sleep (again). Which thread runs when is up to the models that use the queue.
The list is the sequence of its values; `alloc` says whether the node for a new
one could be allocated.

`Queue.Ok` is what makes the two signals mean something. `_full_signal` is set by
a `pop_block` only and reset by every `add_block`, so while it is set there is
room; the other way round for `_empty_signal`.
-/
import Mathlib.Tactic

set_option autoImplicit false

namespace Rellaf.Mysql

/-! ## `Queue` -/

structure Queue (α : Type) where
  _list : List α
  _blocking : Bool
  _max_size : Nat
  _full_signal : Bool
  _empty_signal : Bool
  deriving DecidableEq, Repr

namespace Queue

variable {α : Type}

def SIZE_MAX : Nat := 2 ^ 64 - 1

/-- The constructor. -/
def new (size : Nat) (blocking : Bool) : Queue α :=
  ⟨[], blocking, if size = 0 then SIZE_MAX else size, false, false⟩

variable (q : Queue α)

def isempty : Bool := q._list.length = 0

def isfull : Bool := q._list.length ≥ q._max_size

/-- `add_block` behind its wait: the value returned, and the queue. -/
def add_locked (val : α) (alloc : Bool) : Int × Queue α :=
  let result := !q.isfull && alloc
  (if result then 0 else -1,
    { q with
      _list := if result then q._list ++ [val] else q._list
      _empty_signal := true
      _full_signal := false })

/-- `add_block` from its lock on; `none` when it waits for room. -/
def add_block (val : α) (alloc : Bool) : Option (Int × Queue α) :=
  if q.isfull && !q._full_signal then none else some (q.add_locked val alloc)

/-- The waiting `add_block` once it runs again. It looks at the signal only. -/
def add_wake (val : α) (alloc : Bool) : Option (Int × Queue α) :=
  if !q._full_signal then none else some (q.add_locked val alloc)

/-- The waiting `add_block` when its time is over; it returns 1. -/
def add_timeout : Queue α := { q with _full_signal := false }

/-- `pop_block` behind its wait: the node handed out, and the queue. It returns 0. -/
def pop_locked : Option α × Queue α :=
  (q._list.head?, { q with _list := q._list.tail, _full_signal := true, _empty_signal := false })

/-- `pop_block` from its lock on; `none` when it waits for a value. -/
def pop_block : Option (Option α × Queue α) :=
  if q.isempty && !q._empty_signal then none else some q.pop_locked

/-- The waiting `pop_block` once it runs again. -/
def pop_wake : Option (Option α × Queue α) :=
  if !q._empty_signal then none else some q.pop_locked

/-- The waiting `pop_block` when its time is over; it hands out no node and
returns 1. -/
def pop_timeout : Queue α := { q with _empty_signal := false }

def clear : Queue α :=
  if q._blocking then { q with _list := [], _empty_signal := true, _full_signal := true } else q

/-! ## What the sections do to the list -/

theorem add_locked_eq (val : α) (alloc : Bool) :
    ((q.add_locked val alloc).1, (q.add_locked val alloc).2._list) =
      if q._list.length < q._max_size ∧ alloc = true then (0, q._list ++ [val])
      else (-1, q._list) := by
  unfold add_locked
  by_cases hroom : q._list.length < q._max_size
  · have hfull : q.isfull = false := by simp [isfull, hroom]
    rw [hfull]
    cases alloc with
    | false =>
      rw [if_neg fun h => Bool.false_ne_true h.2]
      rfl
    | true =>
      rw [if_pos ⟨hroom, rfl⟩]
      rfl
  · have hfull : q.isfull = true := by simpa [isfull] using hroom
    rw [hfull, if_neg fun h => hroom h.1]
    rfl

theorem add_locked_list (val : α) (alloc : Bool) :
    (q.add_locked val alloc).1 = 0 ∧ (q.add_locked val alloc).2._list = q._list ++ [val] ∨
      (q.add_locked val alloc).1 = -1 ∧ (q.add_locked val alloc).2._list = q._list := by
  unfold add_locked
  cases !q.isfull && alloc
  · exact .inr ⟨rfl, rfl⟩
  · exact .inl ⟨rfl, rfl⟩

/-- A call that does not wait goes through its locked half. -/
theorem add_block_eq_some {val : α} {alloc : Bool} {out : Int × Queue α}
    (h : q.add_block val alloc = some out) : q.add_locked val alloc = out := by
  rw [add_block, Option.ite_none_left_eq_some] at h
  exact Option.some.inj h.2

theorem add_wake_eq_some {val : α} {alloc : Bool} {out : Int × Queue α}
    (h : q.add_wake val alloc = some out) : q.add_locked val alloc = out := by
  rw [add_wake, Option.ite_none_left_eq_some] at h
  exact Option.some.inj h.2

theorem pop_block_eq_some {out : Option α × Queue α} (h : q.pop_block = some out) :
    q.pop_locked = out := by
  rw [pop_block, Option.ite_none_left_eq_some] at h
  exact Option.some.inj h.2

theorem pop_wake_eq_some {out : Option α × Queue α} (h : q.pop_wake = some out) :
    q.pop_locked = out := by
  rw [pop_wake, Option.ite_none_left_eq_some] at h
  exact Option.some.inj h.2

/-- A `pop_block` waits where there is nothing. -/
theorem pop_block_eq_none (h : q.pop_block = none) : q._list = [] := by
  rw [pop_block, ite_eq_left_iff] at h
  by_contra hne
  have hempty : q.isempty = false := by simpa [isempty] using hne
  rw [hempty] at h
  cases h Bool.false_ne_true

/-- It finds no signal then. -/
theorem pop_block_signal (h : q.pop_block = none) : q._empty_signal = false := by
  have hwaits : q.isempty = true ∧ q._empty_signal = false := by simpa [pop_block] using h
  exact hwaits.2

/-- An `add_block` waits where the list is full, and finds no signal. -/
theorem add_block_eq_none {val : α} {alloc : Bool} (h : q.add_block val alloc = none) :
    q._max_size ≤ q._list.length ∧ q._full_signal = false := by
  simpa [add_block, isfull] using h

theorem add_wake_eq_none {val : α} {alloc : Bool} (h : q.add_wake val alloc = none) :
    q._full_signal = false := by
  simpa [add_wake] using h

/-- A woken one waits where the signal is not set. -/
theorem pop_wake_eq_none (h : q.pop_wake = none) : q._empty_signal = false := by
  rw [pop_wake, ite_eq_left_iff] at h
  cases hsignal : q._empty_signal with
  | false => rfl
  | true =>
    rw [hsignal] at h
    cases h Bool.false_ne_true

/-! ## What the signals say -/

/-- The list fits, a signal for room means room, a signal for values means values.
A `clear` and an allocation that fails may break the last of these. -/
structure Ok : Prop where
  max_pos : 0 < q._max_size
  length_le : q._list.length ≤ q._max_size
  full : q._full_signal = true → q._list.length < q._max_size
  empty : q._empty_signal = true → q._list ≠ []

theorem new_ok (size : Nat) (blocking : Bool) : (new size blocking : Queue α).Ok := by
  have hpos : 0 < if size = 0 then SIZE_MAX else size := by
    split
    · exact by decide
    · omega
  exact ⟨hpos, Nat.zero_le _, nofun, nofun⟩

variable {q}

theorem isfull_eq_false (h : q._list.length < q._max_size) : q.isfull = false := by
  simp [isfull, h]

/-- With room, the value goes to the end of the list. -/
theorem add_locked_spec (hq : q.Ok) (h : q._list.length < q._max_size) (val : α) :
    (q.add_locked val true).1 = 0 ∧ (q.add_locked val true).2._list = q._list ++ [val] ∧
      (q.add_locked val true).2.Ok := by
  rw [add_locked, isfull_eq_false h]
  refine ⟨rfl, rfl, hq.max_pos, ?_, nofun, ?_⟩
  · change (q._list ++ [val]).length ≤ q._max_size
    rw [List.length_append, List.length_singleton]
    omega
  · intro _
    exact List.append_ne_nil_of_right_ne_nil _ (List.cons_ne_nil _ _)

theorem add_block_spec (hq : q.Ok) {val : α} {ret : Int} {q' : Queue α}
    (h : q.add_block val true = some (ret, q')) :
    ret = 0 ∧ q'._list = q._list ++ [val] ∧ q'.Ok := by
  have hroom : q._list.length < q._max_size := by
    by_contra hfull
    have hsignal : q._full_signal = false := by
      cases hs : q._full_signal with
      | false => rfl
      | true => exact absurd (hq.full hs) hfull
    have hisfull : q.isfull = true := by simpa [isfull] using Nat.le_of_not_lt hfull
    simp [add_block, hisfull, hsignal] at h
  have hlocked : q.add_locked val true = (ret, q') := by
    simpa [add_block, isfull_eq_false hroom] using h
  have hspec := add_locked_spec hq hroom val
  rwa [hlocked] at hspec

theorem add_wake_spec (hq : q.Ok) {val : α} {ret : Int} {q' : Queue α}
    (h : q.add_wake val true = some (ret, q')) :
    ret = 0 ∧ q'._list = q._list ++ [val] ∧ q'.Ok := by
  cases hs : q._full_signal with
  | false => simp [add_wake, hs] at h
  | true =>
    have hlocked : q.add_locked val true = (ret, q') := by simpa [add_wake, hs] using h
    have hspec := add_locked_spec hq (hq.full hs) val
    rwa [hlocked] at hspec

theorem add_timeout_ok (hq : q.Ok) : q.add_timeout.Ok :=
  ⟨hq.max_pos, hq.length_le, nofun, hq.empty⟩

/-- With a value, the one at the head is handed out. -/
theorem pop_locked_spec (hq : q.Ok) (h : q._list ≠ []) :
    ∃ x, q.pop_locked.1 = some x ∧ q._list = x :: q.pop_locked.2._list ∧ q.pop_locked.2.Ok := by
  obtain ⟨x, xs, hlist⟩ := List.exists_cons_of_ne_nil h
  have hlen := hq.length_le
  rw [hlist, List.length_cons] at hlen
  rw [pop_locked, hlist]
  refine ⟨x, rfl, rfl, hq.max_pos, ?_, ?_, nofun⟩
  · exact Nat.le_of_succ_le hlen
  · intro _
    exact hlen

theorem pop_block_spec (hq : q.Ok) {n : Option α} {q' : Queue α}
    (h : q.pop_block = some (n, q')) :
    ∃ x, n = some x ∧ q._list = x :: q'._list ∧ q'.Ok := by
  have hne : q._list ≠ [] := by
    intro hnil
    have hsignal : q._empty_signal = false := by
      cases hs : q._empty_signal with
      | false => rfl
      | true => exact absurd hnil (hq.empty hs)
    simp [pop_block, isempty, hnil, hsignal] at h
  have hlocked : q.pop_locked = (n, q') := by simpa [pop_block, isempty, hne] using h
  have hspec := pop_locked_spec hq hne
  rwa [hlocked] at hspec

theorem pop_wake_spec (hq : q.Ok) {n : Option α} {q' : Queue α} (h : q.pop_wake = some (n, q')) :
    ∃ x, n = some x ∧ q._list = x :: q'._list ∧ q'.Ok := by
  cases hs : q._empty_signal with
  | false => simp [pop_wake, hs] at h
  | true =>
    have hlocked : q.pop_locked = (n, q') := by simpa [pop_wake, hs] using h
    have hspec := pop_locked_spec hq (hq.empty hs)
    rwa [hlocked] at hspec

theorem pop_timeout_ok (hq : q.Ok) : q.pop_timeout.Ok :=
  ⟨hq.max_pos, hq.length_le, hq.full, nofun⟩

end Queue

/-! ## `Latch` -/

structure Latch where
  _count : UInt32
  _signal : Bool
  deriving DecidableEq, Repr

namespace Latch

/-- The constructor, with its default count. -/
def new : Latch := ⟨1, false⟩

variable (l : Latch)

/-- The atomic decrement of `count_down`, and whether it goes on to signal. -/
def count_down : Bool × Latch := (l._count - 1 = 0, { l with _count := l._count - 1 })

/-- The locked section of `count_down`. -/
def signal : Latch := { l with _signal := true }

/-- Whether `wait` returns when it looks at the latch. -/
def wait : Bool := l._signal

end Latch

end Rellaf.Mysql
