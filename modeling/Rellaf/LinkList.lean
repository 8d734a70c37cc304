/-
`flist.hpp`: the doubly linked list below the queue, on a heap of nodes.

A node is read and written through a pointer, and a pointer that is null or to a freed
node ends in `Fault.undefined`. `new` may give any address that is not in use, or none;
the caller of a function here says which (`alloc`).

`LinkList.Holds` says which nodes a list consists of: they follow one another along
`_next` and along `_prev`, and `_head`, `_tail` and `_len` fit them. Of an empty list it
says the length only, since `clear` leaves the two pointers as they are.
-/
import Rellaf.Cpp

set_option autoImplicit false

open Rellaf.Cpp

namespace Rellaf.Mysql

abbrev Addr := Nat

structure ListNode (α : Type) where
  _prev : Option Addr
  _next : Option Addr
  _data : α
  deriving DecidableEq, Repr

/-- The nodes in use. -/
abbrev Heap (α : Type) := Addr → Option (ListNode α)

namespace Heap

variable {α : Type} (heap : Heap α)

/-- The node at `p`, for `p->_prev`, `p->_next` or `p->_data`. -/
def read (p : Option Addr) : Run (ListNode α) :=
  match p.bind heap with
  | none => .error .undefined
  | some node => .ok node

def put (a : Addr) (node : ListNode α) : Heap α := Function.update heap a (some node)

/-- An assignment to members of the node at `p`. -/
def write (p : Option Addr) (f : ListNode α → ListNode α) : Run (Heap α) :=
  match p with
  | none => .error .undefined
  | some a =>
    match heap a with
    | none => .error .undefined
    | some node => .ok (heap.put a (f node))

/-- `free(p)` -/
def free (p : Option Addr) : Run (Heap α) :=
  match p with
  | none => .ok heap
  | some a =>
    if (heap a).isSome then .ok (Function.update heap a none) else .error .undefined

@[simp] theorem read_of_eq {a : Addr} {node : ListNode α} (h : heap a = some node) :
    heap.read (some a) = .ok node := by
  rw [read, Option.bind_some, h]

@[simp] theorem write_of_eq {a : Addr} {node : ListNode α} (h : heap a = some node)
    (f : ListNode α → ListNode α) : heap.write (some a) f = .ok (heap.put a (f node)) := by
  simp only [write, h]

theorem free_of_eq {a : Addr} {node : ListNode α} (h : heap a = some node) :
    heap.free (some a) = .ok (Function.update heap a none) := by
  rw [free, h]
  rfl

@[simp] theorem put_self (a : Addr) (node : ListNode α) : heap.put a node a = some node :=
  Function.update_self a _ heap

theorem put_of_ne {a b : Addr} (h : b ≠ a) (node : ListNode α) : heap.put a node b = heap b :=
  Function.update_of_ne h _ heap

end Heap

structure LinkList where
  _max_len : Nat
  _len : Nat
  _head : Option Addr
  _tail : Option Addr
  deriving DecidableEq, Repr

namespace LinkList

variable {α : Type}

/-- The two constructors; `LinkList()` is without a bound, as `LinkList(0)` is. -/
def new (max_len : Nat) : LinkList := ⟨max_len, 0, none, none⟩

variable (heap : Heap α) (l : LinkList)

def size : Nat := l._len

def isfull : Bool := l._max_len ≠ 0 && l._len ≥ l._max_len

def isempty : Bool := l._len = 0

/-- The loop of `clear`, with `p` and `q` at the same node. -/
def clear_loop : Nat → Option Addr → Heap α → Run (Heap α)
  | 0, _, heap => return heap
  | n + 1, p, heap => do
    let next := (← heap.read p)._next
    let heap ← heap.free p
    clear_loop n next heap

def clear : Run (Heap α × LinkList) := do
  return (← clear_loop l._len l._head heap, { l with _len := 0 })

/-- `add_tail(node)` behind its test for room. -/
def link_tail (node : Addr) : Run (Heap α × LinkList) :=
  if l.isempty then do
    let heap ← heap.write (some node) fun n => { n with _prev := none, _next := none }
    return (heap, { l with _tail := some node, _head := some node, _len := l._len + 1 })
  else do
    let heap ← heap.write (some node) fun n => { n with _next := none, _prev := l._tail }
    let heap ← heap.write l._tail fun n => { n with _next := some node }
    let tail := (← heap.read l._tail)._next
    return (heap, { l with _tail := tail, _len := l._len + 1 })

/-- `add_tail(node)` -/
def add_tail_node (node : Addr) : Run (Bool × Heap α × LinkList) :=
  if l.isfull then .ok (false, heap, l)
  else do
    let (heap, l) ← l.link_tail heap node
    return (true, heap, l)

/-- `add_tail(data)`; `alloc` is what `new` gives. -/
def add_tail (data : α) (alloc : Option Addr) : Run (Bool × Heap α × LinkList) :=
  if l.isfull then .ok (false, heap, l)
  else
    match alloc with
    | none => .ok (false, heap, l)
    | some node => do
      let (heap, l) ← l.link_tail (heap.put node ⟨none, none, data⟩) node
      return (true, heap, l)

def pop_head : Run (Option Addr × Heap α × LinkList) :=
  if l.isempty then .ok (none, heap, l)
  else if l._len = 1 then
    .ok (l._head, heap, { l with _head := none, _tail := none, _len := l._len - 1 })
  else do
    let head := (← heap.read l._head)._next
    let heap ← heap.write head fun n => { n with _prev := none }
    return (l._head, heap, { l with _head := head, _len := l._len - 1 })

/-- `detach(p)`, of a node in the list. -/
def detach (p : Addr) : Run (Heap α × LinkList) :=
  if l._len = 1 then
    .ok (heap, { l with _head := none, _tail := none, _len := l._len - 1 })
  else do
    let node ← heap.read (some p)
    if node._prev = none then
      let heap ← heap.write node._next fun n => { n with _prev := none }
      return (heap, { l with _head := node._next, _len := l._len - 1 })
    else if node._next = none then
      let heap ← heap.write node._prev fun n => { n with _next := none }
      return (heap, { l with _tail := node._prev, _len := l._len - 1 })
    else
      let heap ← heap.write node._next fun n => { n with _prev := node._prev }
      let node ← heap.read (some p)
      let heap ← heap.write node._prev fun n => { n with _next := node._next }
      return (heap, { l with _len := l._len - 1 })

def get_head : Option Addr := l._head

def get_tail : Option Addr := l._tail

/-- The values met on the way along `_next`. -/
def walk : Nat → Option Addr → Run (List α)
  | 0, _ => return []
  | n + 1, p => do
    let node ← heap.read p
    return node._data :: (← walk n node._next)

/-- The values in the list, from the head on. -/
def values : Run (List α) := walk heap l._len l._head

/-! ## Linked nodes -/

section Linked

/-- The address of the first of the nodes, which end in front of `next`. -/
def first : List (Addr × α) → Option Addr → Option Addr
  | [], next => next
  | (a, _) :: _, _ => some a

/-- The address of the last of the nodes, which begin behind `prev`. -/
def last : List (Addr × α) → Option Addr → Option Addr
  | [], prev => prev
  | (a, _) :: nodes, _ => last nodes (some a)

/-- The nodes stand behind `prev` and in front of `next`, each linked to its neighbours. -/
def Linked : Option Addr → List (Addr × α) → Option Addr → Prop
  | _, [], _ => True
  | prev, (a, x) :: nodes, next =>
    heap a = some ⟨prev, first nodes next, x⟩ ∧ Linked (some a) nodes next

variable {heap} {heap' : Heap α}

theorem first_append (xs ys : List (Addr × α)) (next : Option Addr) :
    first (xs ++ ys) next = first xs (first ys next) := by
  cases xs <;> rfl

theorem first_congr {nodes : List (Addr × α)} (h : nodes ≠ []) (next next' : Option Addr) :
    first nodes next = first nodes next' := by
  cases nodes with
  | nil => exact absurd rfl h
  | cons ax nodes => rfl

theorem last_append (xs ys : List (Addr × α)) (prev : Option Addr) :
    last (xs ++ ys) prev = last ys (last xs prev) := by
  induction xs generalizing prev with
  | nil => rfl
  | cons ax xs ih => exact ih (some ax.1)

theorem linked_append {xs ys : List (Addr × α)} {prev next : Option Addr} :
    Linked heap prev (xs ++ ys) next ↔
      Linked heap prev xs (first ys next) ∧ Linked heap (last xs prev) ys next := by
  induction xs generalizing prev with
  | nil => simp [Linked, last]
  | cons ax xs ih =>
    obtain ⟨a, x⟩ := ax
    rw [List.cons_append, Linked, Linked, first_append, ih, last, and_assoc]

/-- Only the nodes themselves count. -/
theorem Linked.congr {nodes : List (Addr × α)} {prev next : Option Addr}
    (h : Linked heap prev nodes next) (hsame : ∀ a ∈ nodes.map Prod.fst, heap' a = heap a) :
    Linked heap' prev nodes next := by
  induction nodes generalizing prev with
  | nil => trivial
  | cons ax nodes ih =>
    obtain ⟨a, x⟩ := ax
    obtain ⟨hnode, hrest⟩ := h
    refine ⟨?_, ih hrest fun b hb => hsame b (List.mem_cons_of_mem a hb)⟩
    rw [hsame a List.mem_cons_self, hnode]

/-- A node that is linked is in use. -/
theorem Linked.alloc {nodes : List (Addr × α)} {prev next : Option Addr}
    (h : Linked heap prev nodes next) {a : Addr} (ha : a ∈ nodes.map Prod.fst) :
    heap a ≠ none := by
  induction nodes generalizing prev with
  | nil => cases ha
  | cons bx nodes ih =>
    obtain ⟨hnode, hrest⟩ := h
    rcases List.mem_cons.mp ha with rfl | ha
    · rw [hnode]
      exact Option.some_ne_none _
    · exact ih hrest ha

theorem Linked.walk_eq {nodes : List (Addr × α)} {prev next : Option Addr}
    (h : Linked heap prev nodes next) :
    walk heap nodes.length (first nodes next) = .ok (nodes.map Prod.snd) := by
  induction nodes generalizing prev with
  | nil => rfl
  | cons ax nodes ih =>
    obtain ⟨a, x⟩ := ax
    obtain ⟨hnode, hrest⟩ := h
    rw [List.length_cons, first, walk, heap.read_of_eq hnode, run_ok_bind, ih hrest]
    rfl

/-- The loop of `clear` frees the nodes, and nothing else. -/
theorem Linked.clear_loop_eq {nodes : List (Addr × α)} {prev next : Option Addr}
    (h : Linked heap prev nodes next) (hnodup : (nodes.map Prod.fst).Nodup) :
    clear_loop nodes.length (first nodes next) heap =
      .ok fun a => if a ∈ nodes.map Prod.fst then none else heap a := by
  induction nodes generalizing heap prev with
  | nil => simp [clear_loop]
  | cons ax nodes ih =>
    obtain ⟨a, x⟩ := ax
    obtain ⟨hnode, hrest⟩ := h
    rw [List.map_cons, List.nodup_cons] at hnodup
    obtain ⟨ha, hnodup⟩ := hnodup
    -- the nodes behind `a` stay as they are
    have hrest' : Linked (Function.update heap a none) (some a) nodes next := by
      refine hrest.congr fun b hb => Function.update_of_ne ?_ _ _
      rintro rfl
      exact ha hb
    rw [List.length_cons, first, clear_loop, heap.read_of_eq hnode, run_ok_bind,
      heap.free_of_eq hnode, run_ok_bind, ih hrest' hnodup]
    congr 1
    funext b
    by_cases hb : b = a
    · subst hb
      rw [if_neg ha, Function.update_self, List.map_cons, if_pos List.mem_cons_self]
    · rw [Function.update_of_ne hb, List.map_cons]
      simp only [List.mem_cons, hb, false_or]

/-- The first node is linked to another one in front of it. -/
theorem Linked.put_first {b : Addr} {y : α} {nodes : List (Addr × α)} {prev next : Option Addr}
    (h : Linked heap prev ((b, y) :: nodes) next) (hb : b ∉ nodes.map Prod.fst)
    (prev' : Option Addr) :
    Linked (heap.put b ⟨prev', first nodes next, y⟩) prev' ((b, y) :: nodes) next := by
  refine ⟨heap.put_self b _, h.2.congr fun c hc => heap.put_of_ne ?_ _⟩
  rintro rfl
  exact hb hc

/-- The last node is linked to another one behind it. -/
theorem Linked.put_last {b : Addr} {y : α} {init : List (Addr × α)} {prev next : Option Addr}
    (h : Linked heap prev (init ++ [(b, y)]) next) (hb : b ∉ init.map Prod.fst)
    (next' : Option Addr) :
    Linked (heap.put b ⟨last init prev, next', y⟩) prev (init ++ [(b, y)]) next' := by
  obtain ⟨hinit, -⟩ := linked_append.mp h
  refine linked_append.mpr ⟨hinit.congr fun c hc => heap.put_of_ne ?_ _, heap.put_self b _, trivial⟩
  rintro rfl
  exact hb hc

/-- The last node is linked to a new one behind it. -/
theorem Linked.concat {init : List (Addr × α)} {a b : Addr} {x y : α} {prev : Option Addr}
    (h : Linked heap prev (init ++ [(b, y)]) none)
    (hnodup : ((init ++ [(b, y)]).map Prod.fst).Nodup)
    (ha : a ∉ (init ++ [(b, y)]).map Prod.fst) :
    Linked ((heap.put a ⟨some b, none, x⟩).put b ⟨last init prev, some a, y⟩) prev
      (init ++ [(b, y)] ++ [(a, x)]) none := by
  obtain ⟨hinit, -⟩ := linked_append.mp h
  rw [List.map_append, List.nodup_append] at hnodup
  have hab : a ≠ b := by
    rintro rfl
    exact ha (by simp)
  have hframe : ∀ c ∈ init.map Prod.fst,
      ((heap.put a ⟨some b, none, x⟩).put b ⟨last init prev, some a, y⟩) c = heap c := by
    intro c hc
    have hca : c ≠ a := by
      rintro rfl
      exact ha (by simp [List.mem_map.mp hc])
    have hcb : c ≠ b := hnodup.2.2 c hc b List.mem_cons_self
    rw [Heap.put_of_ne _ hcb, Heap.put_of_ne _ hca]
  rw [List.append_assoc, linked_append]
  refine ⟨hinit.congr hframe, Heap.put_self _ b _, ?_, trivial⟩
  rw [Heap.put_of_ne _ hab]
  exact Heap.put_self _ a _

end Linked

/-! ## What a list holds -/

variable {heap l}

variable (heap l) in
/-- The list consists of the nodes. -/
structure Holds (nodes : List (Addr × α)) : Prop where
  len : l._len = nodes.length
  head : nodes ≠ [] → l._head = first nodes none
  tail : nodes ≠ [] → l._tail = last nodes none
  linked : Linked heap none nodes none
  nodup : (nodes.map Prod.fst).Nodup

theorem holds_new (heap : Heap α) (max_len : Nat) : (new max_len).Holds heap [] :=
  ⟨rfl, absurd rfl, absurd rfl, trivial, List.nodup_nil⟩

variable {nodes : List (Addr × α)}

theorem Holds.isempty_iff (h : l.Holds heap nodes) : l.isempty = true ↔ nodes = [] := by
  rw [isempty, decide_eq_true_iff, h.len, List.length_eq_zero_iff]

theorem Holds.values_eq (h : l.Holds heap nodes) : l.values heap = .ok (nodes.map Prod.snd) := by
  unfold values
  by_cases hnil : nodes = []
  · subst hnil
    rw [h.len]
    rfl
  · rw [h.len, h.head hnil, h.linked.walk_eq]

theorem Holds.frame {heap' : Heap α} (h : l.Holds heap nodes)
    (hsame : ∀ a ∈ nodes.map Prod.fst, heap' a = heap a) : l.Holds heap' nodes :=
  { h with linked := h.linked.congr hsame }

theorem Holds.isempty_eq_false (h : l.Holds heap nodes) (hne : nodes ≠ []) :
    l.isempty = false := by
  rw [Bool.eq_false_iff]
  exact fun hempty => hne (h.isempty_iff.mp hempty)

/-- A node from outside comes behind the others. -/
theorem Holds.link_tail {a : Addr} {node : ListNode α} (h : l.Holds heap nodes)
    (ha : heap a = some node) (hnew : a ∉ nodes.map Prod.fst) :
    ∃ heap' l', l.link_tail heap a = .ok (heap', l') ∧
      l'.Holds heap' (nodes ++ [(a, node._data)]) ∧ l'._max_len = l._max_len ∧
      ∀ b ∉ nodes.map Prod.fst, b ≠ a → heap' b = heap b := by
  -- `link_tail` tests for the empty list, where it writes `_head` instead of the last node
  rcases List.eq_nil_or_concat' nodes with rfl | ⟨init, ⟨b, y⟩, rfl⟩
  · have hempty : l.isempty = true := h.isempty_iff.mpr rfl
    refine ⟨heap.put a { node with _prev := none, _next := none },
      { l with _tail := some a, _head := some a, _len := l._len + 1 }, ?_,
      ⟨?_, fun _ => rfl, fun _ => rfl, ?_, List.nodup_singleton a⟩, rfl, ?_⟩
    · rw [LinkList.link_tail, hempty, if_pos rfl, heap.write_of_eq ha]
      rfl
    · rw [h.len]
      rfl
    · exact ⟨heap.put_self a _, trivial⟩
    · exact fun c _ hc => heap.put_of_ne hc _
  · have hne : init ++ [(b, y)] ≠ [] := List.append_ne_nil_of_right_ne_nil _ (List.cons_ne_nil _ _)
    have htail : l._tail = some b := by
      rw [h.tail hne, last_append]
      rfl
    have hba : b ≠ a := by
      rintro rfl
      exact hnew (by simp)
    have hb : heap.put a ⟨some b, none, node._data⟩ b = some ⟨last init none, none, y⟩ := by
      rw [heap.put_of_ne hba]
      exact (linked_append.mp h.linked).2.1
    refine ⟨(heap.put a ⟨some b, none, node._data⟩).put b ⟨last init none, some a, y⟩,
      { l with _tail := some a, _len := l._len + 1 }, ?_, ⟨?_, ?_, ?_, ?_, ?_⟩, rfl, ?_⟩
    · simp only [LinkList.link_tail, h.isempty_eq_false hne, Bool.false_eq_true, if_false, htail,
        heap.write_of_eq ha, Heap.write_of_eq _ hb, run_ok_bind,
        Heap.read_of_eq _ (Heap.put_self _ b _)]
      rfl
    · rw [List.length_append, ← h.len]
      rfl
    · intro _
      rw [first_append]
      exact (h.head hne).trans (first_congr hne none (some a))
    · intro _
      rw [last_append]
      rfl
    · exact h.linked.concat h.nodup hnew
    · rw [List.map_append, List.nodup_append]
      refine ⟨h.nodup, List.nodup_singleton a, ?_⟩
      intro c hc d hd hcd
      rw [hcd, List.mem_singleton.mp hd] at hc
      exact hnew hc
    · intro c hc hca
      have hcb : c ≠ b := by
        rintro rfl
        exact hc (by simp)
      rw [Heap.put_of_ne _ hcb, heap.put_of_ne hca]

/-- `add_tail(data)` with room, and an address that is not in use. -/
theorem Holds.add_tail {a : Addr} (h : l.Holds heap nodes) (hfull : l.isfull = false)
    (ha : heap a = none) (x : α) :
    ∃ heap' l', l.add_tail heap x (some a) = .ok (true, heap', l') ∧
      l'.Holds heap' (nodes ++ [(a, x)]) ∧ l'._max_len = l._max_len ∧
      ∀ b ∉ nodes.map Prod.fst, b ≠ a → heap' b = heap b := by
  have hnew : a ∉ nodes.map Prod.fst := fun hmem => h.linked.alloc hmem ha
  have hput : l.Holds (heap.put a ⟨none, none, x⟩) nodes := by
    refine h.frame fun b hb => heap.put_of_ne ?_ _
    rintro rfl
    exact hnew hb
  obtain ⟨heap', l', hlink, hholds, hmax, hframe⟩ := hput.link_tail (heap.put_self a _) hnew
  refine ⟨heap', l', ?_, hholds, hmax, ?_⟩
  · simp only [LinkList.add_tail, hfull, Bool.false_eq_true, if_false, hlink, run_ok_bind]
    rfl
  · intro b hb hba
    rw [hframe b hb hba, heap.put_of_ne hba]

/-- The node at the head is handed out, and nothing is written to it. -/
theorem Holds.pop_head {a : Addr} {x : α} (h : l.Holds heap ((a, x) :: nodes)) :
    ∃ heap' l', l.pop_head heap = .ok (some a, heap', l') ∧ l'.Holds heap' nodes ∧
      l'._max_len = l._max_len ∧ ∀ b ∉ nodes.map Prod.fst, heap' b = heap b := by
  have hempty : l.isempty = false := h.isempty_eq_false (List.cons_ne_nil _ _)
  have hhead : l._head = some a := h.head (List.cons_ne_nil _ _)
  have htail := h.tail (List.cons_ne_nil _ _)
  have hnodup := List.nodup_cons.mp h.nodup
  obtain ⟨hnode, hrest⟩ := h.linked
  cases nodes with
  | nil =>
    -- the only node, to which `pop_head` writes nothing
    have hlen : l._len = 1 := h.len
    refine ⟨heap, { l with _head := none, _tail := none, _len := l._len - 1 }, ?_,
      ⟨?_, absurd rfl, absurd rfl, trivial, List.nodup_nil⟩, rfl, fun _ _ => rfl⟩
    · rw [LinkList.pop_head, hempty, if_neg Bool.false_ne_true, if_pos hlen, hhead]
    · rw [hlen]
      rfl
  | cons by' nodes =>
    obtain ⟨b, y⟩ := by'
    obtain ⟨hb, hrest⟩ := hrest
    -- the next node becomes the head, and its `_prev` null
    have hlen : l._len = nodes.length + 2 := h.len
    refine ⟨heap.put b ⟨none, first nodes none, y⟩,
      { l with _head := some b, _len := l._len - 1 }, ?_, ⟨?_, fun _ => rfl, ?_, ?_, hnodup.2⟩, rfl,
      ?_⟩
    · have hne : ¬ l._len = 1 := by omega
      simp only [LinkList.pop_head, hempty, Bool.false_eq_true, if_false, if_neg hne, hhead,
        heap.read_of_eq hnode, run_ok_bind, first, heap.write_of_eq hb]
      rfl
    · rw [hlen]
      rfl
    · exact fun _ => htail
    · refine ⟨heap.put_self b _, hrest.congr fun c hc => heap.put_of_ne ?_ _⟩
      rintro rfl
      exact (List.nodup_cons.mp hnodup.2).1 hc
    · intro c hc
      refine heap.put_of_ne ?_ _
      rintro rfl
      exact hc List.mem_cons_self

/-! The node that `detach` takes out is the only one, the first, the last or one in the
middle; the source tells them apart by `_len` and the node's own pointers. -/

section Detach

variable (heap l) in
/-- `detach(a)` leaves a list of the nodes, and all others as they are. -/
def Detaches (a : Addr) (nodes : List (Addr × α)) : Prop :=
  ∃ heap' l', l.detach heap a = .ok (heap', l') ∧ l'.Holds heap' nodes ∧
    l'._max_len = l._max_len ∧ ∀ b ∉ nodes.map Prod.fst, heap' b = heap b

variable {a b c : Addr} {x y z : α} {init : List (Addr × α)}

theorem Holds.detach_only (h : l.Holds heap [(a, x)]) : Detaches heap l a [] := by
  have hlen : l._len = 1 := h.len
  refine ⟨heap, { l with _head := none, _tail := none, _len := l._len - 1 }, ?_,
    ⟨?_, absurd rfl, absurd rfl, trivial, List.nodup_nil⟩, rfl, fun _ _ => rfl⟩
  · rw [LinkList.detach, if_pos hlen]
  · rw [hlen]
    rfl

theorem Holds.detach_first (h : l.Holds heap ((a, x) :: (b, y) :: nodes)) :
    Detaches heap l a ((b, y) :: nodes) := by
  have hlen : l._len = nodes.length + 2 := h.len
  have hmany : ¬ l._len = 1 := by omega
  obtain ⟨hnode, hrest⟩ := h.linked
  have hnodup := (List.nodup_cons.mp h.nodup).2
  refine ⟨heap.put b ⟨none, first nodes none, y⟩, { l with _head := some b, _len := l._len - 1 },
    ?_, ⟨?_, fun _ => rfl, fun _ => h.tail (List.cons_ne_nil _ _), ?_, hnodup⟩, rfl, ?_⟩
  · simp only [LinkList.detach, if_neg hmany, heap.read_of_eq hnode, run_ok_bind, if_true, first,
      heap.write_of_eq hrest.1]
    rfl
  · rw [hlen]
    rfl
  · exact hrest.put_first (List.nodup_cons.mp hnodup).1 none
  · intro d hd
    refine heap.put_of_ne ?_ _
    rintro rfl
    exact hd List.mem_cons_self

theorem Holds.detach_last (h : l.Holds heap (init ++ [(c, z)] ++ [(a, x)])) :
    Detaches heap l a (init ++ [(c, z)]) := by
  have hlen : l._len = init.length + 2 := by
    rw [h.len]
    simp
  have hmany : ¬ l._len = 1 := by omega
  obtain ⟨hinit, hnode, -⟩ := linked_append.mp h.linked
  have hc := (linked_append.mp hinit).2.1
  have hne : init ++ [(c, z)] ≠ [] := List.append_ne_nil_of_right_ne_nil _ (List.cons_ne_nil _ _)
  have hnodup : ((init ++ [(c, z)]).map Prod.fst).Nodup :=
    h.nodup.sublist ((List.sublist_append_left _ _).map Prod.fst)
  have hlast : last (init ++ [(c, z)]) none = some c := by
    rw [last_append]
    rfl
  rw [hlast] at hnode
  refine ⟨heap.put c ⟨last init none, none, z⟩, { l with _tail := some c, _len := l._len - 1 },
    ?_, ⟨?_, ?_, fun _ => hlast.symm, ?_, hnodup⟩, rfl, ?_⟩
  · simp only [LinkList.detach, if_neg hmany, heap.read_of_eq hnode, run_ok_bind, first,
      heap.write_of_eq hc, if_true, reduceCtorEq, if_false]
    rfl
  · rw [hlen]
    simp
  · intro _
    have hhead := h.head (List.append_ne_nil_of_left_ne_nil hne _)
    rw [first_append] at hhead
    exact hhead.trans (first_congr hne _ none)
  · refine hinit.put_last ?_ none
    rw [List.map_append, List.nodup_append] at hnodup
    exact fun hmem => hnodup.2.2 c hmem c List.mem_cons_self rfl
  · intro d hd
    refine heap.put_of_ne ?_ _
    rintro rfl
    exact hd (by simp)

theorem Holds.detach_middle (h : l.Holds heap (init ++ [(c, z)] ++ (a, x) :: (b, y) :: nodes)) :
    Detaches heap l a (init ++ [(c, z)] ++ (b, y) :: nodes) := by
  have hlen : l._len = init.length + nodes.length + 3 := by
    rw [h.len]
    simp
    omega
  have hmany : ¬ l._len = 1 := by omega
  obtain ⟨hinit, hnode, hrest⟩ := linked_append.mp h.linked
  have hc := (linked_append.mp hinit).2.1
  have hne : init ++ [(c, z)] ≠ [] := List.append_ne_nil_of_right_ne_nil _ (List.cons_ne_nil _ _)
  have hlast : last (init ++ [(c, z)]) none = some c := by
    rw [last_append]
    rfl
  rw [hlast] at hnode
  have hnodup : ((init ++ [(c, z)] ++ (b, y) :: nodes).map Prod.fst).Nodup :=
    h.nodup.sublist (((List.Sublist.refl _).append (List.sublist_cons_self _ _)).map Prod.fst)
  have hnodup' := h.nodup
  simp only [List.map_append, List.map_cons, List.map_nil, List.nodup_append, List.nodup_cons,
    List.mem_append, List.mem_cons, List.not_mem_nil, or_false] at hnodup'
  obtain ⟨⟨-, -, hinit_c⟩, ⟨ha, hb, -⟩, hapart⟩ := hnodup'
  have hab : a ≠ b := fun heq => ha (.inl heq)
  have hcb : c ≠ b := hapart c (.inr rfl) b (.inr (.inl rfl))
  have hc_init : c ∉ init.map Prod.fst := fun hmem => hinit_c c hmem c rfl rfl
  have hb_init : ∀ d ∈ (init ++ [(c, z)]).map Prod.fst, d ≠ b := by
    intro d hd
    rw [List.map_append, List.mem_append] at hd
    exact hapart d (hd.imp_right List.mem_singleton.mp) b (.inr (.inl rfl))
  have hc_rest : ∀ d ∈ ((b, y) :: nodes).map Prod.fst, d ≠ c := by
    intro d hd heq
    exact hapart c (.inr rfl) d (.inr (List.mem_cons.mp hd)) heq.symm
  -- first the node behind is written, then the one in front
  let heap₁ := heap.put b ⟨some c, first nodes none, y⟩
  have hnode₁ : heap₁ a = some ⟨some c, some b, x⟩ := (heap.put_of_ne hab _).trans hnode
  have hc₁ : heap₁ c = some ⟨last init none, some a, z⟩ := (heap.put_of_ne hcb _).trans hc
  refine ⟨heap₁.put c ⟨last init none, some b, z⟩, { l with _len := l._len - 1 }, ?_,
    ⟨?_, ?_, ?_, ?_, hnodup⟩, rfl, ?_⟩
  · have hwrite : heap.write (some b) (fun n => { n with _prev := some c }) = .ok heap₁ :=
      heap.write_of_eq hrest.1 _
    have hread : heap.read (some a) = .ok ⟨some c, some b, x⟩ := heap.read_of_eq hnode
    simp only [LinkList.detach, if_neg hmany, hread, run_ok_bind, reduceCtorEq, if_false, hwrite,
      Heap.read_of_eq _ hnode₁, Heap.write_of_eq _ hc₁]
    rfl
  · rw [hlen]
    simp
    omega
  · intro _
    have hhead := h.head (List.append_ne_nil_of_left_ne_nil hne _)
    rw [first_append] at hhead ⊢
    exact hhead.trans (first_congr hne _ _)
  · intro _
    have htail := h.tail (List.append_ne_nil_of_left_ne_nil hne _)
    rw [last_append] at htail ⊢
    exact htail
  · refine linked_append.mpr ⟨?_, ?_⟩
    · exact (hinit.congr fun d hd => heap.put_of_ne (hb_init d hd) _).put_last hc_init (some b)
    · rw [hlast]
      exact (hrest.put_first hb (some c)).congr fun d hd => Heap.put_of_ne _ (hc_rest d hd) _
  · intro d hd
    have hdc : d ≠ c := by
      rintro rfl
      exact hd (by simp)
    have hdb : d ≠ b := by
      rintro rfl
      exact hd (by simp)
    exact (Heap.put_of_ne _ hdc _).trans (heap.put_of_ne hdb _)

/-- The node is taken out, wherever it stands, and its neighbours are linked. -/
theorem Holds.detach (h : l.Holds heap (init ++ (a, x) :: nodes)) :
    Detaches heap l a (init ++ nodes) := by
  rcases List.eq_nil_or_concat' init with rfl | ⟨init, ⟨c, z⟩, rfl⟩
  · cases nodes with
    | nil => exact h.detach_only
    | cons by' nodes => exact h.detach_first
  · cases nodes with
    | nil =>
      rw [List.append_nil]
      exact h.detach_last
    | cons by' nodes => exact h.detach_middle

end Detach

/-- The nodes are freed, and the list is empty. -/
theorem Holds.clear (h : l.Holds heap nodes) :
    ∃ heap' l', l.clear heap = .ok (heap', l') ∧ l'.Holds heap' [] ∧ l'._max_len = l._max_len ∧
      ∀ b, heap' b = if b ∈ nodes.map Prod.fst then none else heap b := by
  have hloop : clear_loop l._len l._head heap =
      .ok fun b => if b ∈ nodes.map Prod.fst then none else heap b := by
    by_cases hnil : nodes = []
    · subst hnil
      rw [h.len]
      simp [clear_loop]
    · rw [h.len, h.head hnil, h.linked.clear_loop_eq h.nodup]
  refine ⟨fun b => if b ∈ nodes.map Prod.fst then none else heap b, { l with _len := 0 }, ?_,
    ⟨rfl, absurd rfl, absurd rfl, trivial, List.nodup_nil⟩, rfl, fun b => rfl⟩
  rw [LinkList.clear, hloop]
  rfl

end LinkList

end Rellaf.Mysql
