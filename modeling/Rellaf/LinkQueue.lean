/-
`fqueue.hpp` on the list it is built of. The functions are those of `Queue`, section by
section, with the nodes on the heap where `Queue` has the sequence of its values; what
`pop_block` hands out is the address of a node. `add` and `pop` go on without the lock where
the queue is not `_blocking`.

`Holds` ties the two: with its `contents` for the list, a `LinkQueue` does what the
`Queue` does, and no pointer on the way is null or dangling.
-/
import Rellaf.LinkList
import Rellaf.Queue

set_option autoImplicit false

open Rellaf.Cpp

namespace Rellaf.Mysql

structure LinkQueue where
  _list : LinkList
  _blocking : Bool
  _max_size : Nat
  _full_signal : Bool
  _empty_signal : Bool
  deriving DecidableEq, Repr

namespace LinkQueue

variable {α : Type}

/-- The constructor. Its `_list` has no bound of its own. -/
def new (size : Nat) (blocking : Bool) : LinkQueue :=
  ⟨.new 0, blocking, if size = 0 then Queue.SIZE_MAX else size, false, false⟩

variable (heap : Heap α) (q : LinkQueue)

def size : Nat := q._list.size

def isempty : Bool := q._list.size = 0

def isfull : Bool := q._list.size ≥ q._max_size

/-- `add_block` behind its wait: the value returned, the heap and the queue. -/
def add_locked (val : α) (alloc : Option Addr) : Run (Int × Heap α × LinkQueue) := do
  let (result, heap, list) ←
    if q.isfull then .ok (false, heap, q._list) else q._list.add_tail heap val alloc
  return (if result then 0 else -1, heap,
    { q with _list := list, _empty_signal := true, _full_signal := false })

/-- `add_block` from its lock on; `none` when it waits for room. -/
def add_block (val : α) (alloc : Option Addr) : Option (Run (Int × Heap α × LinkQueue)) :=
  if q.isfull && !q._full_signal then none else some (q.add_locked heap val alloc)

/-- The waiting `add_block` once it runs again. -/
def add_wake (val : α) (alloc : Option Addr) : Option (Run (Int × Heap α × LinkQueue)) :=
  if !q._full_signal then none else some (q.add_locked heap val alloc)

/-- The waiting `add_block` when its time is over; it returns 1. -/
def add_timeout : LinkQueue := { q with _full_signal := false }

/-- `pop_block` behind its wait: what becomes of `*n`, the heap and the queue. It
returns 0. -/
def pop_locked : Run (Option Addr × Heap α × LinkQueue) := do
  let (n, heap, list) ← if q.isempty then .ok (none, heap, q._list) else q._list.pop_head heap
  return (n, heap, { q with _list := list, _full_signal := true, _empty_signal := false })

/-- `pop_block` from its lock on; `none` when it waits for a value. -/
def pop_block : Option (Run (Option Addr × Heap α × LinkQueue)) :=
  if q.isempty && !q._empty_signal then none else some (q.pop_locked heap)

/-- The waiting `pop_block` once it runs again. -/
def pop_wake : Option (Run (Option Addr × Heap α × LinkQueue)) :=
  if !q._empty_signal then none else some (q.pop_locked heap)

/-- The waiting `pop_block` when its time is over; it hands out no node and returns 1. -/
def pop_timeout : LinkQueue := { q with _empty_signal := false }

/-- `add`; `none` when it waits, which it does not when the queue is not `_blocking`. -/
def add (val : α) (alloc : Option Addr) : Option (Run (Int × Heap α × LinkQueue)) :=
  if q._blocking then q.add_block heap val alloc
  else if q.isfull then some (.ok (-1, heap, q))
  else some (do
    let (result, heap, list) ← q._list.add_tail heap val alloc
    return (if result then 0 else -1, heap, { q with _list := list }))

/-- `pop`, with whether it is given a place for the node: the value returned, what becomes of
the place, the heap and the queue. -/
def pop (place : Bool) : Option (Run (Int × Option Addr × Heap α × LinkQueue)) :=
  if !place then some (.ok (-1, none, heap, q))
  else if q._blocking then (q.pop_block heap).map fun r => do return (0, ← r)
  else some (do
    let (n, heap, list) ← q._list.pop_head heap
    return (0, n, heap, { q with _list := list }))

def clear : Run (Heap α × LinkQueue) :=
  if q._blocking then do
    let (heap, list) ← q._list.clear heap
    return (heap, { q with _list := list, _empty_signal := true, _full_signal := true })
  else .ok (heap, q)

/-! ## What a queue holds -/

/-- The queue of the values. -/
def contents (vals : List α) : Queue α :=
  ⟨vals, q._blocking, q._max_size, q._full_signal, q._empty_signal⟩

/-- The list consists of the nodes, and has no bound. -/
structure Holds (nodes : List (Addr × α)) : Prop where
  list : q._list.Holds heap nodes
  max_len : q._list._max_len = 0

/-- Nodes outside of the list stay there, and stay as they are. -/
def Frame (heap : Heap α) (nodes : List (Addr × α)) (heap' : Heap α) (nodes' : List (Addr × α)) :
    Prop :=
  ∀ a, heap a ≠ none → a ∉ nodes.map Prod.fst → heap' a = heap a ∧ a ∉ nodes'.map Prod.fst

variable {heap q} {nodes : List (Addr × α)}

theorem holds_new (heap : Heap α) (size : Nat) (blocking : Bool) :
    (new size blocking).Holds heap [] :=
  ⟨LinkList.holds_new heap 0, rfl⟩

theorem frame_refl (heap : Heap α) (nodes : List (Addr × α)) : Frame heap nodes heap nodes :=
  fun _ _ ha => ⟨rfl, ha⟩

theorem Holds.isfull_eq (h : q.Holds heap nodes) :
    q.isfull = (q.contents (nodes.map Prod.snd)).isfull := by
  rw [isfull, Queue.isfull, LinkList.size, h.list.len, contents, List.length_map]

theorem Holds.isempty_eq (h : q.Holds heap nodes) :
    q.isempty = (q.contents (nodes.map Prod.snd)).isempty := by
  rw [isempty, Queue.isempty, LinkList.size, h.list.len, contents, List.length_map]

theorem Holds.list_isfull (h : q.Holds heap nodes) : q._list.isfull = false := by
  rw [LinkList.isfull, h.max_len]
  rfl

/-- `add_block` behind its wait does to the values what `Queue` says. -/
theorem Holds.add_locked (h : q.Holds heap nodes) (val : α) {alloc : Option Addr}
    (halloc : ∀ a, alloc = some a → heap a = none) :
    ∃ ret heap' q' nodes', q.add_locked heap val alloc = .ok (ret, heap', q') ∧
      q'.Holds heap' nodes' ∧
      (q.contents (nodes.map Prod.snd)).add_locked val alloc.isSome =
        (ret, q'.contents (nodes'.map Prod.snd)) ∧
      Frame heap nodes heap' nodes' := by
  cases hfull : q.isfull with
  | true =>
    have hqueue := h.isfull_eq.symm.trans hfull
    refine ⟨-1, heap, { q with _empty_signal := true, _full_signal := false }, nodes, ?_,
      ⟨h.list, h.max_len⟩, ?_, frame_refl heap nodes⟩
    · rw [LinkQueue.add_locked, hfull]
      rfl
    · rw [Queue.add_locked, hqueue]
      rfl
  | false =>
    have hqueue := h.isfull_eq.symm.trans hfull
    cases alloc with
    | none =>
      refine ⟨-1, heap, { q with _empty_signal := true, _full_signal := false }, nodes, ?_,
        ⟨h.list, h.max_len⟩, ?_, frame_refl heap nodes⟩
      · rw [LinkQueue.add_locked, hfull, if_neg Bool.false_ne_true, LinkList.add_tail,
          h.list_isfull]
        rfl
      · rw [Queue.add_locked, hqueue]
        rfl
    | some a =>
      -- the list has no bound of its own, so with room in the queue it takes the node
      obtain ⟨heap', l', hadd, hholds, hmax, hframe⟩ :=
        h.list.add_tail h.list_isfull (halloc a rfl) val
      refine ⟨0, heap', { q with _list := l', _empty_signal := true, _full_signal := false },
        nodes ++ [(a, val)], ?_, ⟨hholds, hmax.trans h.max_len⟩, ?_, ?_⟩
      · rw [LinkQueue.add_locked, hfull, if_neg Bool.false_ne_true, hadd]
        rfl
      · rw [Queue.add_locked, hqueue, List.map_append]
        rfl
      · intro b hb hnodes
        have hba : b ≠ a := by
          rintro rfl
          exact hb (halloc b rfl)
        refine ⟨hframe b hnodes hba, ?_⟩
        rw [List.map_append, List.mem_append, List.map_singleton, List.mem_singleton]
        exact fun hmem => hmem.elim hnodes hba

/-- `pop_block` behind its wait hands out the node at the head. -/
theorem Holds.pop_locked (h : q.Holds heap nodes) :
    ∃ heap' q', q.pop_locked heap = .ok (nodes.head?.map Prod.fst, heap', q') ∧
      q'.Holds heap' nodes.tail ∧
      (q.contents (nodes.map Prod.snd)).pop_locked =
        (nodes.head?.map Prod.snd, q'.contents (nodes.tail.map Prod.snd)) ∧
      Frame heap nodes heap' nodes.tail ∧
      ∀ a x, nodes.head? = some (a, x) → a ∉ nodes.tail.map Prod.fst ∧
        ∃ node, heap' a = some node ∧ node._data = x := by
  cases nodes with
  | nil =>
    have hempty : q.isempty = true := h.isempty_eq
    refine ⟨heap, { q with _full_signal := true, _empty_signal := false }, ?_,
      ⟨h.list, h.max_len⟩, rfl, frame_refl heap [], nofun⟩
    rw [LinkQueue.pop_locked, hempty]
    rfl
  | cons ax nodes =>
    obtain ⟨a, x⟩ := ax
    have hempty : q.isempty = false := h.isempty_eq
    obtain ⟨heap', l', hpop, hholds, hmax, hframe⟩ := h.list.pop_head
    obtain ⟨ha, -⟩ := List.nodup_cons.mp h.list.nodup
    refine ⟨heap', { q with _list := l', _full_signal := true, _empty_signal := false }, ?_,
      ⟨hholds, hmax.trans h.max_len⟩, rfl, ?_, ?_⟩
    · rw [LinkQueue.pop_locked, hempty, if_neg Bool.false_ne_true, hpop]
      rfl
    · intro b _ hb
      have hb' : b ∉ nodes.map Prod.fst := fun hmem => hb (List.mem_cons_of_mem _ hmem)
      exact ⟨hframe b hb', hb'⟩
    · rintro b y hby
      cases hby
      refine ⟨ha, ?_⟩
      rw [hframe a ha]
      exact ⟨_, h.list.linked.1, rfl⟩

theorem Holds.clear (h : q.Holds heap nodes) (hblocking : q._blocking = true) :
    ∃ heap' q', q.clear heap = .ok (heap', q') ∧ q'.Holds heap' [] ∧
      (q.contents (nodes.map Prod.snd)).clear = q'.contents [] ∧ Frame heap nodes heap' [] := by
  obtain ⟨heap', l', hclear, hholds, hmax, hframe⟩ := h.list.clear
  refine ⟨heap', { q with _list := l', _empty_signal := true, _full_signal := true }, ?_,
    ⟨hholds, hmax.trans h.max_len⟩, ?_, ?_⟩
  · rw [LinkQueue.clear, if_pos hblocking, hclear]
    rfl
  · rw [Queue.clear, contents, if_pos hblocking]
    rfl
  · intro a _ ha
    rw [hframe a, if_neg ha]
    exact ⟨rfl, List.not_mem_nil⟩

/-! The tests see the length and the signals only. -/

theorem Holds.add_block_eq (h : q.Holds heap nodes) (val : α) (alloc : Bool) :
    (q.contents (nodes.map Prod.snd)).add_block val alloc =
      if q.isfull && !q._full_signal then none
      else some ((q.contents (nodes.map Prod.snd)).add_locked val alloc) := by
  rw [h.isfull_eq]
  rfl

theorem Holds.pop_block_eq (h : q.Holds heap nodes) :
    (q.contents (nodes.map Prod.snd)).pop_block =
      if q.isempty && !q._empty_signal then none
      else some (q.contents (nodes.map Prod.snd)).pop_locked := by
  rw [h.isempty_eq]
  rfl

end LinkQueue

end Rellaf.Mysql
