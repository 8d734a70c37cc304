/-
`LinkList` over whole sequences of calls: what the pointers say of the sequence that the
calls make, and what they say of an empty list.

A state has that sequence beside the heap and the list, as the calls are meant to change it:
at the end, at the front, at a node, or all of it. The nodes outside of the list are the
caller's, which may make, change and free them between the calls and add them again.

The chains fit the sequence in every state that is reached (`list_represents`). The two ends
are null in an empty list as long as no call of `clear` finds a node: the others set them to
null with the last node, `clear` sets `_len` only (`ends_null_iff`).
-/
import Rellaf.Lib.Machine
import Rellaf.LinkList

set_option autoImplicit false

open Rellaf.Cpp

namespace Rellaf.Mysql

structure ListState (α : Type) where
  heap : Heap α
  list : LinkList
  /-- the nodes in the list, by the calls so far -/
  seq : List (Addr × α)

/-- A call, with the address that `new` gives, or what the caller does to a node of its own. -/
inductive ListCall (α : Type) where
  | add_tail (data : α) (alloc : Option Addr)
  | add_tail_node (node : Addr)
  | pop_head
  | detach (p : Addr)
  | clear
  | own (a : Addr) (node : Option (ListNode α))

namespace ListState

variable {α : Type} (max_len : Nat) (s : ListState α)

def new : ListState α := ⟨fun _ => none, .new max_len, []⟩

/-- The sequence with one more node, if the bound leaves room for it. -/
def seq_add (node : Addr × α) : List (Addr × α) :=
  if max_len ≠ 0 ∧ max_len ≤ s.seq.length then s.seq else s.seq ++ [node]

/-- The node is in the list. -/
def listed (a : Addr) : Bool := a ∈ s.seq.map Prod.fst

/-- One call; `none` when it is not a proper one: `new` gives an address in use, a node that is
added or that the caller takes for its own is in the list, or one to be detached is not. -/
def step : ListCall α → Option (Run (ListState α))
  | .add_tail data alloc =>
    if alloc.all fun a => (s.heap a).isNone then
      some (do
        let (_, heap, list) ← s.list.add_tail s.heap data alloc
        return ⟨heap, list, alloc.elim s.seq fun a => s.seq_add max_len (a, data)⟩)
    else none
  | .add_tail_node a =>
    if s.listed a then none
    else (s.heap a).map fun node => do
      let (_, heap, list) ← s.list.add_tail_node s.heap a
      return ⟨heap, list, s.seq_add max_len (a, node._data)⟩
  | .pop_head => some (do
      let (_, heap, list) ← s.list.pop_head s.heap
      return ⟨heap, list, s.seq.tail⟩)
  | .detach p =>
    if s.listed p then
      some (do
        let (heap, list) ← s.list.detach s.heap p
        return ⟨heap, list, s.seq.eraseP (·.1 = p)⟩)
    else none
  | .clear => some (do
      let (heap, list) ← s.list.clear s.heap
      return ⟨heap, list, []⟩)
  | .own a node =>
    if s.listed a then none else some (.ok { s with heap := Function.update s.heap a node })

end ListState

/-- The calls on a list with the bound, 0 for none. A run that comes to a pointer without a
meaning ends there. -/
def list_machine (α : Type) (max_len : Nat) : Machine (Run (ListState α)) (ListCall α) where
  init := .ok (.new max_len)
  step s call :=
    match s with
    | .ok s => s.step max_len call
    | .error _ => none

namespace ListState

variable {α : Type} {max_len : Nat} {s : ListState α}

/-- The list consists of the nodes of the sequence. -/
structure Ok (max_len : Nat) (s : ListState α) : Prop where
  holds : s.list.Holds s.heap s.seq
  max_len : s.list._max_len = max_len

theorem new_ok : (new max_len : ListState α).Ok max_len := ⟨LinkList.holds_new _ max_len, rfl⟩

theorem Ok.isfull_iff (h : s.Ok max_len) :
    s.list.isfull = true ↔ max_len ≠ 0 ∧ max_len ≤ s.seq.length := by
  rw [LinkList.isfull, h.max_len, h.holds.len, Bool.and_eq_true, decide_eq_true_iff,
    decide_eq_true_iff]

/-- Behind the test for room, a node from outside is linked behind the others. -/
theorem Ok.seq_add_of_room (h : s.Ok max_len) (hroom : s.list.isfull = false) (node : Addr × α) :
    s.seq_add max_len node = s.seq ++ [node] :=
  if_neg (mt h.isfull_iff.mpr (by simp [hroom]))

theorem Ok.seq_add_of_full (h : s.Ok max_len) (hfull : s.list.isfull = true) (node : Addr × α) :
    s.seq_add max_len node = s.seq :=
  if_pos (h.isfull_iff.mp hfull)

theorem not_mem_of_not_listed {a : Addr} (h : ¬ s.listed a = true) : a ∉ s.seq.map Prod.fst := by
  simpa [listed] using h

/-- A call leaves the list and the sequence in step. -/
theorem Ok.step (h : s.Ok max_len) {call : ListCall α} {r : Run (ListState α)}
    (hstep : s.step max_len call = some r) : ∃ s', r = .ok s' ∧ s'.Ok max_len := by
  cases call with
  | add_tail data alloc =>
    rw [ListState.step, Option.ite_none_right_eq_some] at hstep
    obtain ⟨hfresh, hstep⟩ := hstep
    cases hstep
    cases hfull : s.list.isfull with
    | true =>
      refine ⟨⟨s.heap, s.list, s.seq⟩, ?_, h⟩
      have hadd : s.list.add_tail s.heap data alloc = .ok (false, s.heap, s.list) := if_pos hfull
      rw [hadd]
      cases alloc with
      | none => rfl
      | some a =>
        rw [Option.elim_some, h.seq_add_of_full hfull]
        rfl
    | false =>
      cases alloc with
      | none =>
        refine ⟨⟨s.heap, s.list, s.seq⟩, ?_, h⟩
        rw [LinkList.add_tail, hfull, if_neg Bool.false_ne_true]
        rfl
      | some a =>
        have ha : s.heap a = none := by simpa using hfresh
        obtain ⟨heap', l', hadd, hholds, hmax, -⟩ := h.holds.add_tail hfull ha data
        refine ⟨⟨heap', l', s.seq ++ [(a, data)]⟩, ?_, hholds, hmax.trans h.max_len⟩
        rw [hadd, Option.elim_some, h.seq_add_of_room hfull]
        rfl
  | add_tail_node a =>
    rw [ListState.step, Option.ite_none_left_eq_some, Option.map_eq_some_iff] at hstep
    obtain ⟨hlisted, node, hnode, rfl⟩ := hstep
    cases hfull : s.list.isfull with
    | true =>
      refine ⟨s, ?_, h⟩
      rw [LinkList.add_tail_node, hfull, if_pos rfl, h.seq_add_of_full hfull]
      rfl
    | false =>
      obtain ⟨heap', l', hlink, hholds, hmax, -⟩ :=
        h.holds.link_tail hnode (not_mem_of_not_listed hlisted)
      refine ⟨⟨heap', l', s.seq ++ [(a, node._data)]⟩, ?_, hholds, hmax.trans h.max_len⟩
      rw [LinkList.add_tail_node, hfull, if_neg Bool.false_ne_true, hlink,
        h.seq_add_of_room hfull]
      rfl
  | pop_head =>
    cases hstep
    cases hseq : s.seq with
    | nil =>
      have hempty : s.list.isempty = true := h.holds.isempty_iff.mpr hseq
      refine ⟨s, ?_, h⟩
      rw [LinkList.pop_head, hempty, if_pos rfl, List.tail_nil, ← hseq]
      rfl
    | cons ax seq =>
      obtain ⟨a, x⟩ := ax
      have hholds := h.holds
      rw [hseq] at hholds
      obtain ⟨heap', l', hpop, hholds', hmax, -⟩ := hholds.pop_head
      refine ⟨⟨heap', l', seq⟩, ?_, hholds', hmax.trans h.max_len⟩
      rw [hpop]
      rfl
  | detach p =>
    rw [ListState.step, Option.ite_none_right_eq_some] at hstep
    obtain ⟨hlisted, hstep⟩ := hstep
    cases hstep
    have hmem : p ∈ s.seq.map Prod.fst := by simpa [listed] using hlisted
    obtain ⟨⟨a, x⟩, hax, hp⟩ := List.mem_map.mp hmem
    obtain ⟨⟨b, y⟩, init, nodes, -, hb, hseq, herase⟩ :=
      List.exists_of_eraseP (p := fun ax : Addr × α => decide (ax.1 = p)) hax (by simpa using hp)
    have hbp : b = p := by simpa using hb
    subst hbp
    have hholds := h.holds
    rw [hseq] at hholds
    obtain ⟨heap', l', hdetach, hholds', hmax, -⟩ := hholds.detach
    refine ⟨⟨heap', l', init ++ nodes⟩, ?_, hholds', hmax.trans h.max_len⟩
    rw [hdetach, herase]
    rfl
  | clear =>
    cases hstep
    obtain ⟨heap', l', hclear, hholds, hmax, -⟩ := h.holds.clear
    refine ⟨⟨heap', l', []⟩, ?_, hholds, hmax.trans h.max_len⟩
    rw [hclear]
    rfl
  | own a node =>
    rw [ListState.step, Option.ite_none_left_eq_some] at hstep
    obtain ⟨hlisted, hstep⟩ := hstep
    cases hstep
    refine ⟨_, rfl, h.holds.frame fun b hb => Function.update_of_ne ?_ _ _, h.max_len⟩
    rintro rfl
    exact not_mem_of_not_listed hlisted hb

theorem ok_of_reaches {calls : List (ListCall α)} {r : Run (ListState α)}
    (h : (list_machine α max_len).Reaches calls r) : ∃ s, r = .ok s ∧ s.Ok max_len := by
  refine Machine.run_preserves _ (P := fun r => ∃ s, r = .ok s ∧ s.Ok max_len) ?_
    ⟨.new max_len, rfl, new_ok⟩ h
  rintro _ call r' ⟨s, rfl, hs⟩ hstep
  exact hs.step hstep

/-! ## The two chains -/

/-- The nodes met from `p` on along one of the two links. -/
def follow (heap : Heap α) (link : ListNode α → Option Addr) : Nat → Option Addr → Run (List Addr)
  | 0, _ => return []
  | _ + 1, none => .error .undefined
  | n + 1, some a => do
    let node ← heap.read (some a)
    return a :: (← follow heap link n (link node))

/-- The structure stands for the sequence. -/
structure Represents (heap : Heap α) (l : LinkList) (seq : List (Addr × α)) : Prop where
  len : l._len = seq.length
  distinct : (seq.map Prod.fst).Nodup
  data : ∀ ax ∈ seq, ∃ node, heap ax.1 = some node ∧ node._data = ax.2
  forward : 0 < l._len → follow heap ListNode._next l._len l._head = .ok (seq.map Prod.fst)
  tail : 0 < l._len → l._tail = (seq.map Prod.fst).getLast? ∧
    ∃ node, heap.read l._tail = .ok node ∧ node._next = none
  backward : 0 < l._len →
    follow heap ListNode._prev l._len l._tail = .ok (seq.map Prod.fst).reverse
  head : 0 < l._len → l._head = (seq.map Prod.fst).head? ∧
    ∃ node, heap.read l._head = .ok node ∧ node._prev = none

section Chains

open LinkList

variable {heap : Heap α} {l : LinkList} {nodes : List (Addr × α)} {prev next : Option Addr}

theorem follow_next (h : Linked heap prev nodes next) :
    follow heap ListNode._next nodes.length (first nodes next) = .ok (nodes.map Prod.fst) := by
  induction nodes generalizing prev with
  | nil => rfl
  | cons ax nodes ih =>
    obtain ⟨a, x⟩ := ax
    obtain ⟨hnode, hrest⟩ := h
    rw [List.length_cons, first, follow, heap.read_of_eq hnode, run_ok_bind, ih hrest]
    rfl

theorem follow_prev (h : Linked heap prev nodes next) :
    follow heap ListNode._prev nodes.length (last nodes prev) =
      .ok (nodes.map Prod.fst).reverse := by
  induction nodes using List.reverseRecOn generalizing next with
  | nil => rfl
  | append_singleton init ax ih =>
    obtain ⟨a, x⟩ := ax
    obtain ⟨hinit, hnode, -⟩ := linked_append.mp h
    have hlast : last (init ++ [(a, x)]) prev = some a := by
      rw [last_append]
      rfl
    rw [hlast, List.length_append, List.length_singleton, follow, heap.read_of_eq hnode,
      run_ok_bind, ih hinit, List.map_append, List.reverse_append]
    rfl

theorem data_of_linked (h : Linked heap prev nodes next) :
    ∀ ax ∈ nodes, ∃ node, heap ax.1 = some node ∧ node._data = ax.2 := by
  induction nodes generalizing prev with
  | nil => exact fun ax hax => absurd hax List.not_mem_nil
  | cons ax nodes ih =>
    obtain ⟨hnode, hrest⟩ := h
    exact List.forall_mem_cons.mpr ⟨⟨_, hnode, rfl⟩, ih hrest⟩

theorem represents_of_holds (h : l.Holds heap nodes) : Represents heap l nodes := by
  have hne : 0 < l._len → nodes ≠ [] := by
    rw [h.len]
    exact List.ne_nil_of_length_pos
  refine ⟨h.len, h.nodup, data_of_linked h.linked, ?_, ?_, ?_, ?_⟩
  · intro hpos
    rw [h.len, h.head (hne hpos), follow_next h.linked]
  · intro hpos
    obtain ⟨init, ⟨a, x⟩, hnodes⟩ := (List.eq_nil_or_concat' nodes).resolve_left (hne hpos)
    subst hnodes
    obtain ⟨-, hnode, -⟩ := linked_append.mp h.linked
    have htail : l._tail = some a := by
      rw [h.tail (hne hpos), last_append]
      rfl
    have hread : heap.read (some a) = .ok ⟨last init none, none, x⟩ := heap.read_of_eq hnode
    rw [htail]
    exact ⟨by simp, _, hread, rfl⟩
  · intro hpos
    rw [h.len, h.tail (hne hpos), follow_prev h.linked]
  · intro hpos
    obtain ⟨⟨a, x⟩, rest, rfl⟩ := List.exists_cons_of_ne_nil (hne hpos)
    have hhead : l._head = some a := h.head (hne hpos)
    have hread : heap.read (some a) = .ok ⟨none, first rest none, x⟩ :=
      heap.read_of_eq h.linked.1
    rw [hhead]
    exact ⟨rfl, _, hread, rfl⟩

end Chains

/-- **The chains fit the sequence.** Whatever is added, popped, detached or cleared, no pointer
on the way is null or dangling, and the list stands for the sequence of the calls. -/
theorem list_represents {calls : List (ListCall α)} {r : Run (ListState α)}
    (h : (list_machine α max_len).Reaches calls r) :
    ∃ s, r = .ok s ∧ Represents s.heap s.list s.seq := by
  obtain ⟨s, rfl, hs⟩ := ok_of_reaches h
  exact ⟨s, rfl, represents_of_holds hs.holds⟩

/-- Three nodes, of which the middle one is taken out and added again behind a fourth. -/
def detach_calls : List (ListCall Nat) :=
  [.add_tail 7 (some 1), .add_tail 8 (some 2), .add_tail 9 (some 3), .detach 2,
    .add_tail 6 (some 4), .add_tail_node 2, .pop_head]

theorem list_represents_detach :
    ∃ s, (list_machine Nat 0).Reaches detach_calls (.ok s) ∧
      Represents s.heap s.list s.seq := by
  obtain ⟨r, hr⟩ : ∃ r, (list_machine Nat 0).Reaches detach_calls r := ⟨_, rfl⟩
  obtain ⟨s, rfl, hs⟩ := list_represents hr
  exact ⟨s, hr, hs⟩

/-! ## The ends of an empty list -/

/-- The ends are null exactly when nothing is counted, and none of them is a freed node. -/
structure EndsNull (s : ListState α) : Prop where
  head : s.list._len = 0 ↔ s.list._head = none
  tail : s.list._len = 0 ↔ s.list._tail = none
  get_head : ∀ a, s.list.get_head = some a → s.heap a ≠ none
  get_tail : ∀ a, s.list.get_tail = some a → s.heap a ≠ none

/-- What all calls but one leave: an empty list has no ends. -/
def EmptyNull (l : LinkList) : Prop := l._len = 0 → l._head = none ∧ l._tail = none

/-- `clear` is called where there is nothing to free. -/
def clears_nothing : Run (ListState α) → ListCall α → Bool
  | .ok s, .clear => s.list._len = 0
  | _, _ => true

section Ends

variable {heap heap' : Heap α} {l l' : LinkList} {nodes : List (Addr × α)}

/-- A list that has a node has two ends, and they are in use. -/
theorem endsNull_of_holds (h : s.list.Holds s.heap s.seq) (hempty : EmptyNull s.list) :
    EndsNull s := by
  by_cases hnil : s.seq = []
  · have hlen : s.list._len = 0 := by
      rw [h.len, hnil]
      rfl
    obtain ⟨hhead, htail⟩ := hempty hlen
    refine ⟨iff_of_true hlen hhead, iff_of_true hlen htail, ?_, ?_⟩
    · intro a ha
      rw [LinkList.get_head, hhead] at ha
      cases ha
    · intro a ha
      rw [LinkList.get_tail, htail] at ha
      cases ha
  · have hpos : 0 < s.list._len := by
      rw [h.len]
      exact List.length_pos_of_ne_nil hnil
    have hends := represents_of_holds h
    obtain ⟨hhead, node, hnode, -⟩ := hends.head hpos
    obtain ⟨htail, node', hnode', -⟩ := hends.tail hpos
    have hused : ∀ {p : Option Addr} {node : ListNode α}, s.heap.read p = .ok node →
        p ≠ none ∧ ∀ a, p = some a → s.heap a ≠ none := by
      intro p node hread
      cases p with
      | none => cases hread
      | some a =>
        refine ⟨Option.some_ne_none a, ?_⟩
        rintro b ⟨⟩ hb
        rw [Heap.read, Option.bind_some, hb] at hread
        cases hread
    exact ⟨iff_of_false hpos.ne' (hused hnode).1, iff_of_false hpos.ne' (hused hnode').1,
      (hused hnode).2, (hused hnode').2⟩

theorem emptyNull_link_tail {a : Addr} (h : l.link_tail heap a = .ok (heap', l')) :
    EmptyNull l' := by
  intro hlen
  rw [LinkList.link_tail] at h
  split at h
  · obtain ⟨_, -, h⟩ := run_bind_eq_ok.mp h
    cases h
    cases hlen
  · obtain ⟨_, -, h⟩ := run_bind_eq_ok.mp h
    obtain ⟨_, -, h⟩ := run_bind_eq_ok.mp h
    obtain ⟨_, -, h⟩ := run_bind_eq_ok.mp h
    cases h
    cases hlen

theorem emptyNull_add_tail_node {a : Addr} {ret : Bool} (hl : EmptyNull l)
    (h : l.add_tail_node heap a = .ok (ret, heap', l')) : EmptyNull l' := by
  rw [LinkList.add_tail_node] at h
  split at h
  · cases h
    exact hl
  · obtain ⟨_, hlink, h⟩ := run_bind_eq_ok.mp h
    cases h
    exact emptyNull_link_tail hlink

theorem emptyNull_add_tail {data : α} {alloc : Option Addr} {ret : Bool} (hl : EmptyNull l)
    (h : l.add_tail heap data alloc = .ok (ret, heap', l')) : EmptyNull l' := by
  unfold LinkList.add_tail at h
  split at h
  · cases h
    exact hl
  · cases alloc with
    | none =>
      cases h
      exact hl
    | some a =>
      obtain ⟨_, hlink, h⟩ := run_bind_eq_ok.mp h
      cases h
      exact emptyNull_link_tail hlink

theorem emptyNull_pop_head {p : Option Addr} (hl : EmptyNull l)
    (h : l.pop_head heap = .ok (p, heap', l')) : EmptyNull l' := by
  rw [LinkList.pop_head] at h
  split at h
  · cases h
    exact hl
  rename_i hempty
  split at h
  · cases h
    exact fun _ => ⟨rfl, rfl⟩
  rename_i hone
  obtain ⟨_, -, h⟩ := run_bind_eq_ok.mp h
  obtain ⟨_, -, h⟩ := run_bind_eq_ok.mp h
  cases h
  -- two nodes at least, so one is left
  intro hlen
  have hzero : ¬ l._len = 0 := by simpa [LinkList.isempty] using hempty
  change l._len - 1 = 0 at hlen
  omega

theorem emptyNull_detach {p : Addr} (hpos : 0 < l._len)
    (h : l.detach heap p = .ok (heap', l')) : EmptyNull l' := by
  rw [LinkList.detach] at h
  split at h
  · cases h
    exact fun _ => ⟨rfl, rfl⟩
  rename_i hone
  have hleft : l'._len = l._len - 1 := by
    obtain ⟨node, -, h⟩ := run_bind_eq_ok.mp h
    split at h
    · obtain ⟨_, -, h⟩ := run_bind_eq_ok.mp h
      cases h
      rfl
    split at h
    · obtain ⟨_, -, h⟩ := run_bind_eq_ok.mp h
      cases h
      rfl
    · obtain ⟨_, -, h⟩ := run_bind_eq_ok.mp h
      obtain ⟨_, -, h⟩ := run_bind_eq_ok.mp h
      obtain ⟨_, -, h⟩ := run_bind_eq_ok.mp h
      cases h
      rfl
  intro hlen
  omega

theorem emptyNull_clear (hl : EmptyNull l) (hlen : l._len = 0)
    (h : l.clear heap = .ok (heap', l')) : EmptyNull l' := by
  obtain ⟨_, -, h⟩ := run_bind_eq_ok.mp h
  cases h
  exact fun _ => hl hlen

end Ends

/-- Every call but a `clear` that finds a node leaves an empty list without ends. -/
theorem Ok.step_emptyNull {s' : ListState α} {call : ListCall α} (hs : s.Ok max_len)
    (hnull : EmptyNull s.list) (hcond : clears_nothing (.ok s) call = true)
    (h : s.step max_len call = some (.ok s')) : EmptyNull s'.list := by
  cases call with
  | add_tail data alloc =>
    rw [ListState.step, Option.ite_none_right_eq_some] at h
    obtain ⟨_, hadd, h⟩ := run_bind_eq_ok.mp (Option.some.inj h.2)
    cases h
    exact emptyNull_add_tail hnull hadd
  | add_tail_node a =>
    rw [ListState.step, Option.ite_none_left_eq_some, Option.map_eq_some_iff] at h
    obtain ⟨-, node, -, h⟩ := h
    obtain ⟨_, hadd, h⟩ := run_bind_eq_ok.mp h
    cases h
    exact emptyNull_add_tail_node hnull hadd
  | pop_head =>
    obtain ⟨_, hpop, h⟩ := run_bind_eq_ok.mp (Option.some.inj h)
    cases h
    exact emptyNull_pop_head hnull hpop
  | detach p =>
    rw [ListState.step, Option.ite_none_right_eq_some] at h
    obtain ⟨hlisted, h⟩ := h
    obtain ⟨_, hdetach, h⟩ := run_bind_eq_ok.mp (Option.some.inj h)
    cases h
    have hmem : p ∈ s.seq.map Prod.fst := by simpa [listed] using hlisted
    have hpos : 0 < s.list._len := by
      rw [hs.holds.len]
      exact List.length_pos_of_ne_nil fun hnil => by simp [hnil] at hmem
    exact emptyNull_detach hpos hdetach
  | clear =>
    obtain ⟨_, hclear, h⟩ := run_bind_eq_ok.mp (Option.some.inj h)
    cases h
    exact emptyNull_clear hnull (by simpa [clears_nothing] using hcond) hclear
  | own a node =>
    rw [ListState.step, Option.ite_none_left_eq_some] at h
    obtain ⟨-, h⟩ := h
    cases h
    exact hnull

/-- A `clear` that finds a node leaves its address at the ends. -/
theorem Ok.clear_not_endsNull {s' : ListState α} {call : ListCall α} (hs : s.Ok max_len)
    (hcond : ¬ clears_nothing (.ok s) call = true)
    (h : s.step max_len call = some (.ok s')) : ¬ EndsNull s' := by
  cases call with
  | clear =>
    have hpos : 0 < s.list._len := by
      have hne : ¬ s.list._len = 0 := by simpa [clears_nothing] using hcond
      omega
    obtain ⟨⟨heap', l'⟩, hclear, h⟩ := run_bind_eq_ok.mp (Option.some.inj h)
    obtain ⟨_, -, hclear⟩ := run_bind_eq_ok.mp hclear
    cases hclear
    cases h
    intro hends
    have hhead : s.list._head = none := hends.head.mp rfl
    obtain ⟨-, node, hnode, -⟩ := (represents_of_holds hs.holds).head hpos
    rw [hhead] at hnode
    cases hnode
  | add_tail data alloc => exact absurd rfl hcond
  | add_tail_node a => exact absurd rfl hcond
  | pop_head => exact absurd rfl hcond
  | detach p => exact absurd rfl hcond
  | own a node => exact absurd rfl hcond

/-- **The ends of an empty list.** In all states of a run they are null exactly where nothing is
counted, and no freed node, if and only if every `clear` of the run finds an empty list. -/
theorem ends_null_iff {calls : List (ListCall α)} {r : Run (ListState α)}
    (h : (list_machine α max_len).Reaches calls r) :
    (∀ calls₁ calls₂ r₁, calls = calls₁ ++ calls₂ → (list_machine α max_len).Reaches calls₁ r₁ →
        ∃ s, r₁ = .ok s ∧ EndsNull s) ↔
      ((list_machine α max_len).restrict fun r call => clears_nothing r call = true).Reaches
        calls r := by
  refine Machine.throughout_iff_restrict _ (C := fun r call => clears_nothing r call = true)
    (I := fun r => ∃ s, r = .ok s ∧ s.Ok max_len ∧ EmptyNull s.list)
    (P := fun r => ∃ s, r = .ok s ∧ EndsNull s) ?_ ?_ ?_ ?_ h
  · exact ⟨.new max_len, rfl, new_ok, fun _ => ⟨rfl, rfl⟩⟩
  · rintro _ ⟨s, rfl, hs, hnull⟩
    exact ⟨s, rfl, endsNull_of_holds hs.holds hnull⟩
  · rintro _ call r' ⟨s, rfl, hs, hnull⟩ hcond hstep
    obtain ⟨s', rfl, hs'⟩ := hs.step hstep
    exact ⟨s', rfl, hs', hs.step_emptyNull hnull hcond hstep⟩
  · rintro _ call r' ⟨s, rfl, hs, -⟩ hcond hstep ⟨s', rfl, hends⟩
    exact hs.clear_not_endsNull hcond hstep hends

theorem ends_null_iff_detach :
    ∃ r, (list_machine Nat 0).Reaches detach_calls r ∧
      ((∀ calls₁ calls₂ r₁, detach_calls = calls₁ ++ calls₂ →
          (list_machine Nat 0).Reaches calls₁ r₁ → ∃ s, r₁ = .ok s ∧ EndsNull s) ↔
        ((list_machine Nat 0).restrict fun r call => clears_nothing r call = true).Reaches
          detach_calls r) := by
  obtain ⟨r, hr⟩ : ∃ r, (list_machine Nat 0).Reaches detach_calls r := ⟨_, rfl⟩
  exact ⟨r, hr, ends_null_iff hr⟩

/-- A node is added and cleared away: `get_head` and `get_tail` return it, freed. -/
theorem clear_leaves_ends :
    ∃ s, (list_machine Nat 0).Reaches [.add_tail 7 (some 1), .clear] (.ok s) ∧
      s.list._len = 0 ∧ s.list.get_head = some 1 ∧ s.list.get_tail = some 1 ∧ s.heap 1 = none ∧
      ¬ EndsNull s := by
  refine ⟨_, rfl, rfl, rfl, rfl, rfl, fun hends => ?_⟩
  have hhead := hends.head.mp rfl
  cases hhead

end ListState

end Rellaf.Mysql
