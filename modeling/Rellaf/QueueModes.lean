/-
A queue with its lock and one without, called by one thread in which no call has to wait.

What a call does to the values is the same in both, but for `clear`: without the lock it does
nothing. So the two give the same for a sequence of calls exactly when no `clear` of it finds
a value (`modes_agree_iff`). Behind one that does, the queue without the lock has more
values, until a call returns something else.
-/
import Rellaf.QueueThreads

set_option autoImplicit false

open Rellaf.Cpp

namespace Rellaf.Mysql

/-! ## The calls -/

/-- A call; of `add`, whether memory is left for the node, and of `pop`, whether it is given a
place for one. -/
inductive QueueCall (α : Type) where
  | add (val : α) (alloc : Bool)
  | pop (place : Bool)
  | clear
  | size
  | isempty
  deriving DecidableEq, Repr

/-- What a call returns, a `pop` with the value of the node that it hands out. -/
inductive QueueOut (α : Type) where
  | added (ret : Int)
  | popped (ret : Int) (val : Option α)
  | cleared
  | size (ret : Nat)
  | isempty (ret : Bool)
  deriving DecidableEq, Repr

structure QueueState (α : Type) where
  heap : Heap α
  queue : LinkQueue
  outs : List (QueueOut α)

namespace QueueState

variable {α : Type} (s : QueueState α)

def new (size : Nat) (blocking : Bool) : QueueState α := ⟨fun _ => none, .new size blocking, []⟩

def vals : Run (List α) := s.queue._list.values s.heap

/-- One call, with the address that `new` gives; `none` when the call waits or the address is
in use. -/
def step : QueueCall α → Addr → Option (Run (QueueState α))
  | .add val alloc, a =>
    if alloc && (s.heap a).isSome then none
    else (s.queue.add s.heap val (if alloc then some a else none)).map fun r => do
      let (ret, heap, queue) ← r
      return ⟨heap, queue, s.outs ++ [.added ret]⟩
  | .pop place, _ => (s.queue.pop s.heap place).map fun r => do
      let (ret, n, heap, queue) ← r
      let n ← Threads.handed_out heap n
      return ⟨heap, queue, s.outs ++ [.popped ret (n.map Prod.snd)]⟩
  | .clear, _ => some (do
      let (heap, queue) ← s.queue.clear s.heap
      return ⟨heap, queue, s.outs ++ [.cleared]⟩)
  | .size, _ => some (.ok { s with outs := s.outs ++ [.size s.queue.size] })
  | .isempty, _ => some (.ok { s with outs := s.outs ++ [.isempty s.queue.isempty] })

end QueueState

/-- One thread at a queue that nobody else uses. -/
def mode_machine (α : Type) (size : Nat) (blocking : Bool) :
    Machine (Run (QueueState α)) (QueueCall α × Addr) where
  init := .ok (.new size blocking)
  step s e :=
    match s with
    | .ok s => s.step e.1 e.2
    | .error _ => none

namespace QueueState

variable {α : Type}

/-! ## What the calls do to the values -/

/-- What a call that does not wait returns, and the values behind it. -/
def act (max : Nat) (blocking : Bool) (vals : List α) : QueueCall α → QueueOut α × List α
  | .add val alloc =>
    if vals.length < max ∧ alloc = true then (.added 0, vals ++ [val]) else (.added (-1), vals)
  | .pop place =>
    if place then (.popped 0 vals.head?, vals.tail) else (.popped (-1) none, vals)
  | .clear => (.cleared, if blocking then [] else vals)
  | .size => (.size vals.length, vals)
  | .isempty => (.isempty (vals.length = 0), vals)

/-- The same for a sequence of calls. -/
def acts (max : Nat) (blocking : Bool) : List α → List (QueueCall α) → List (QueueOut α) × List α
  | vals, [] => ([], vals)
  | vals, call :: calls =>
    let (out, vals) := act max blocking vals call
    let (outs, vals) := acts max blocking vals calls
    (out :: outs, vals)

variable {max : Nat} {vals vals' : List α} {call : QueueCall α}

/-- The call is not a `clear` that finds a value. -/
def Agrees (vals : List α) (call : QueueCall α) : Prop := call = .clear → vals = []

theorem act_eq (h : Agrees vals call) : act max true vals call = act max false vals call := by
  cases call with
  | clear =>
    obtain rfl : vals = [] := h rfl
    rfl
  | add val alloc => rfl
  | pop place => rfl
  | size => rfl
  | isempty => rfl

/-- With fewer values, a call that returns the same leaves fewer values. -/
theorem act_fewer (h : vals.length < vals'.length)
    (hout : (act max true vals call).1 = (act max false vals' call).1) :
    (act max true vals call).2.length < (act max false vals' call).2.length := by
  cases call with
  | add val alloc =>
    by_cases hroom' : vals'.length < max ∧ alloc = true
    · have hroom : vals.length < max ∧ alloc = true := ⟨h.trans hroom'.1, hroom'.2⟩
      rw [act, act, if_pos hroom, if_pos hroom', List.length_append, List.length_append]
      exact Nat.add_lt_add_right h _
    · rw [act, act, if_neg hroom'] at hout
      split at hout
      · cases hout
      next hroom =>
        rw [act, act, if_neg hroom, if_neg hroom']
        exact h
  | pop place =>
    cases place with
    | false => exact h
    | true =>
      obtain ⟨x', rest', rfl⟩ := List.exists_cons_of_length_pos (Nat.zero_lt_of_lt h)
      cases vals with
      | nil => cases hout
      | cons x rest => exact Nat.lt_of_succ_lt_succ h
  | clear => exact Nat.zero_lt_of_lt h
  | size => exact h
  | isempty => exact h

theorem acts_ne (h : vals.length < vals'.length) (calls : List (QueueCall α)) :
    acts max true vals calls ≠ acts max false vals' calls := by
  induction calls generalizing vals vals' with
  | nil =>
    intro heq
    have hvals : vals = vals' := congrArg Prod.snd heq
    rw [hvals] at h
    exact lt_irrefl _ h
  | cons call calls ih =>
    intro heq
    obtain ⟨houts, hvals⟩ := Prod.ext_iff.mp heq
    obtain ⟨hout, houts⟩ := List.cons.inj houts
    exact ih (act_fewer h hout) (Prod.ext houts hvals)

/-- The two modes part at a `clear` that finds a value, and do not come together again. -/
theorem acts_cons_eq_iff (calls : List (QueueCall α)) :
    acts max true vals (call :: calls) = acts max false vals (call :: calls) ↔
      Agrees vals call ∧ acts max true (act max true vals call).2 calls =
        acts max false (act max true vals call).2 calls := by
  by_cases hagrees : Agrees vals call
  · rw [acts, acts, ← act_eq hagrees, and_iff_right hagrees, Prod.ext_iff, Prod.ext_iff]
    simp only [List.cons.injEq, true_and]
  · refine iff_of_false ?_ fun h => hagrees h.1
    intro heq
    obtain ⟨rfl, hne⟩ : call = .clear ∧ vals ≠ [] := by simpa [Agrees] using hagrees
    obtain ⟨houts, hvals⟩ := Prod.ext_iff.mp heq
    have hfewer : ([] : List α).length < vals.length := List.length_pos_of_ne_nil hne
    exact acts_ne hfewer calls (Prod.ext (List.cons.inj houts).2 hvals)

/-! ## What the queues do -/

/-- The queue of that mode and bound holds the nodes. -/
structure Ok (max : Nat) (blocking : Bool) (s : QueueState α) (nodes : List (Addr × α)) : Prop where
  queue : s.queue.Holds s.heap nodes
  blocking : s.queue._blocking = blocking
  max_size : s.queue._max_size = max

variable {blocking : Bool} {s : QueueState α} {nodes : List (Addr × α)}

/-- The call comes to an end, and does to the values what `act` says. -/
def Acts (max : Nat) (blocking : Bool) (s : QueueState α) (nodes : List (Addr × α))
    (call : QueueCall α) (r : Run (QueueState α)) : Prop :=
  ∃ s' nodes', r = .ok s' ∧ Ok max blocking s' nodes' ∧
    s'.outs = s.outs ++ [(act max blocking (nodes.map Prod.snd) call).1] ∧
    nodes'.map Prod.snd = (act max blocking (nodes.map Prod.snd) call).2

end QueueState

namespace LinkQueue

variable {α : Type} {heap : Heap α} {q : LinkQueue} {nodes : List (Addr × α)}

/-- `add`, where it does not wait, returns and does to the list what `add_block` does behind its
wait. Without the lock the signals stay as they are. -/
theorem add_eq_some {val : α} {alloc : Option Addr} {ret : Int} {heap' : Heap α} {q' : LinkQueue}
    (h : q.add_locked heap val alloc = .ok (ret, heap', q')) {r : Run (Int × Heap α × LinkQueue)}
    (hr : q.add heap val alloc = some r) :
    ∃ full empty, r = .ok (ret, heap',
      { q' with _full_signal := full, _empty_signal := empty }) := by
  rw [add] at hr
  split at hr
  · rw [add_block, Option.ite_none_left_eq_some, h] at hr
    exact ⟨_, _, (Option.some.inj hr.2).symm⟩
  · rw [add_locked] at h
    split at hr
    next hfull =>
      rw [if_pos hfull] at h
      cases h
      exact ⟨q._full_signal, q._empty_signal, (Option.some.inj hr).symm⟩
    next hfull =>
      rw [if_neg hfull] at h
      obtain ⟨⟨result, heap₁, list⟩, hlist, h⟩ := run_bind_eq_ok.mp h
      cases h
      rw [hlist, run_ok_bind] at hr
      exact ⟨q._full_signal, q._empty_signal, (Option.some.inj hr).symm⟩

/-- The same of `pop` with a place for the node. -/
theorem pop_eq_some {n : Option Addr} {heap' : Heap α} {q' : LinkQueue}
    (h : q.pop_locked heap = .ok (n, heap', q')) {r : Run (Int × Option Addr × Heap α × LinkQueue)}
    (hr : q.pop heap true = some r) :
    ∃ full empty, r = .ok (0, n, heap',
      { q' with _full_signal := full, _empty_signal := empty }) := by
  rw [pop, if_neg (by decide)] at hr
  split at hr
  · obtain ⟨r', hblock, rfl⟩ := Option.map_eq_some_iff.mp hr
    rw [pop_block, Option.ite_none_left_eq_some, h] at hblock
    obtain rfl := Option.some.inj hblock.2
    exact ⟨_, _, rfl⟩
  · rw [pop_locked] at h
    split at h
    next hempty =>
      -- an empty list has no node either
      have hlist : q._list.pop_head heap = .ok (none, heap, q._list) := if_pos hempty
      cases h
      rw [hlist, run_ok_bind] at hr
      exact ⟨q._full_signal, q._empty_signal, (Option.some.inj hr).symm⟩
    next =>
      obtain ⟨⟨n', heap₁, list⟩, hlist, h⟩ := run_bind_eq_ok.mp h
      cases h
      rw [hlist, run_ok_bind] at hr
      exact ⟨q._full_signal, q._empty_signal, (Option.some.inj hr).symm⟩

/-- What `add` does to the values. -/
theorem Holds.add_eq_some (h : q.Holds heap nodes) {val : α} {alloc : Option Addr}
    (halloc : ∀ a, alloc = some a → heap a = none) {r : Run (Int × Heap α × LinkQueue)}
    (hr : q.add heap val alloc = some r) :
    ∃ ret heap' q' nodes', r = .ok (ret, heap', q') ∧ q'.Holds heap' nodes' ∧
      q'._blocking = q._blocking ∧ q'._max_size = q._max_size ∧
      (ret, nodes'.map Prod.snd) =
        if nodes.length < q._max_size ∧ alloc.isSome then (0, nodes.map Prod.snd ++ [val])
        else (-1, nodes.map Prod.snd) := by
  obtain ⟨ret, heap', q', nodes', hlocked, hholds, hvals, -⟩ := h.add_locked val halloc
  obtain ⟨full, empty, rfl⟩ := LinkQueue.add_eq_some hlocked hr
  have hqueue := congrArg Prod.snd hvals
  refine ⟨ret, heap', _, nodes', rfl, ⟨hholds.list, hholds.max_len⟩,
    (congrArg Queue._blocking hqueue).symm, (congrArg Queue._max_size hqueue).symm, ?_⟩
  have hlist := (q.contents (nodes.map Prod.snd)).add_locked_eq val alloc.isSome
  rw [hvals] at hlist
  simpa [contents] using hlist

/-- What `pop` does to the values, and that its node can be read. -/
theorem Holds.pop_eq_some (h : q.Holds heap nodes) {place : Bool}
    {r : Run (Int × Option Addr × Heap α × LinkQueue)} (hr : q.pop heap place = some r) :
    ∃ ret n heap' q' nodes', r = .ok (ret, n, heap', q') ∧ q'.Holds heap' nodes' ∧
      q'._blocking = q._blocking ∧ q'._max_size = q._max_size ∧
      ∃ out, Threads.handed_out heap' n = .ok out ∧ (ret, out.map Prod.snd, nodes'.map Prod.snd) =
        if place then (0, (nodes.map Prod.snd).head?, (nodes.map Prod.snd).tail)
        else (-1, none, nodes.map Prod.snd) := by
  cases place with
  | false =>
    cases hr
    exact ⟨-1, none, heap, q, nodes, rfl, h, rfl, rfl, none, rfl, rfl⟩
  | true =>
    obtain ⟨heap', q', hlocked, hholds, hvals, -, hnode⟩ := h.pop_locked
    obtain ⟨full, empty, rfl⟩ := LinkQueue.pop_eq_some hlocked hr
    have hqueue := congrArg Prod.snd hvals
    refine ⟨0, _, heap', _, nodes.tail, rfl, ⟨hholds.list, hholds.max_len⟩,
      (congrArg Queue._blocking hqueue).symm, (congrArg Queue._max_size hqueue).symm,
      nodes.head?, ?_, ?_⟩
    · cases nodes with
      | nil => rfl
      | cons ax nodes =>
        obtain ⟨a, x⟩ := ax
        obtain ⟨-, node, hread, rfl⟩ := hnode a x rfl
        rw [List.head?_cons, Option.map_some, Threads.handed_out, heap'.read_of_eq hread]
        rfl
    · rw [if_pos rfl, List.head?_map, List.map_tail]

end LinkQueue

namespace QueueState

variable {α : Type} {max size : Nat} {blocking : Bool} {s : QueueState α}
  {nodes : List (Addr × α)} {r : Run (QueueState α)}

theorem Ok.step (h : s.Ok max blocking nodes) {call : QueueCall α} {a : Addr}
    (hr : s.step call a = some r) : Acts max blocking s nodes call r := by
  cases call with
  | add val alloc =>
    rw [QueueState.step, Option.ite_none_left_eq_some, Option.map_eq_some_iff] at hr
    obtain ⟨hfresh, r', hr', rfl⟩ := hr
    have halloc : ∀ b, (if alloc then some a else none) = some b → s.heap b = none := by
      intro b hb
      obtain ⟨hal, hab⟩ := Option.ite_none_right_eq_some.mp hb
      cases hab
      simpa [hal] using hfresh
    obtain ⟨ret, heap', q', nodes', rfl, hholds, hblocking, hmax, hvals⟩ :=
      h.queue.add_eq_some halloc hr'
    refine ⟨_, nodes', rfl, ⟨hholds, hblocking.trans h.blocking, hmax.trans h.max_size⟩, ?_⟩
    have hsome : (if alloc then some a else none).isSome = alloc := by cases alloc <;> rfl
    rw [hsome, h.max_size] at hvals
    rw [act, List.length_map]
    split at hvals
    next hroom =>
      obtain ⟨rfl, hlist⟩ := Prod.mk.inj hvals
      rw [if_pos hroom]
      exact ⟨rfl, hlist⟩
    next hroom =>
      obtain ⟨rfl, hlist⟩ := Prod.mk.inj hvals
      rw [if_neg hroom]
      exact ⟨rfl, hlist⟩
  | pop place =>
    obtain ⟨r', hr', rfl⟩ := Option.map_eq_some_iff.mp hr
    obtain ⟨ret, n, heap', q', nodes', rfl, hholds, hblocking, hmax, out, hout, hvals⟩ :=
      h.queue.pop_eq_some hr'
    refine ⟨⟨heap', q', s.outs ++ [.popped ret (out.map Prod.snd)]⟩, nodes', ?_,
      ⟨hholds, hblocking.trans h.blocking, hmax.trans h.max_size⟩, ?_⟩
    · simp only [run_ok_bind, hout]
      rfl
    · cases place with
      | false =>
        rw [if_neg Bool.false_ne_true, Prod.mk.injEq, Prod.mk.injEq] at hvals
        obtain ⟨rfl, hval, hvals⟩ := hvals
        exact ⟨by rw [hval]; rfl, hvals⟩
      | true =>
        rw [if_pos rfl, Prod.mk.injEq, Prod.mk.injEq] at hvals
        obtain ⟨rfl, hval, hvals⟩ := hvals
        exact ⟨by rw [hval]; rfl, hvals⟩
  | clear =>
    obtain rfl := Option.some.inj hr
    cases hmode : s.queue._blocking with
    | true =>
      obtain ⟨heap', q', hclear, hholds, hqueue, -⟩ := h.queue.clear hmode
      rw [Queue.clear, LinkQueue.contents, if_pos hmode] at hqueue
      refine ⟨⟨heap', q', s.outs ++ [.cleared]⟩, [], ?_, ⟨hholds, ?_, ?_⟩, rfl, ?_⟩
      · rw [hclear]
        rfl
      · exact (congrArg Queue._blocking hqueue).symm.trans h.blocking
      · exact (congrArg Queue._max_size hqueue).symm.trans h.max_size
      · rw [act, ← h.blocking, hmode]
        rfl
    | false =>
      refine ⟨{ s with outs := s.outs ++ [.cleared] }, nodes, ?_,
        ⟨h.queue, h.blocking, h.max_size⟩, rfl, ?_⟩
      · rw [LinkQueue.clear, hmode]
        rfl
      · rw [act, ← h.blocking, hmode]
        rfl
  | size =>
    cases hr
    refine ⟨_, nodes, rfl, ⟨h.queue, h.blocking, h.max_size⟩, ?_, rfl⟩
    rw [act, List.length_map, LinkQueue.size, LinkList.size, h.queue.list.len]
  | isempty =>
    cases hr
    refine ⟨_, nodes, rfl, ⟨h.queue, h.blocking, h.max_size⟩, ?_, rfl⟩
    rw [act, h.queue.isempty_eq]
    rfl

/-- A run returns what `acts` says, and leaves the values that it says. -/
theorem Ok.run (h : s.Ok max blocking nodes) {es : List (QueueCall α × Addr)}
    (hr : (mode_machine α size blocking).run (.ok s) es = some r) :
    ∃ s' nodes', r = .ok s' ∧ s'.Ok max blocking nodes' ∧
      s'.outs = s.outs ++ (acts max blocking (nodes.map Prod.snd) (es.map Prod.fst)).1 ∧
      nodes'.map Prod.snd = (acts max blocking (nodes.map Prod.snd) (es.map Prod.fst)).2 := by
  induction es generalizing s nodes with
  | nil =>
    obtain rfl := Option.some.inj hr
    exact ⟨s, nodes, rfl, h, (List.append_nil _).symm, rfl⟩
  | cons e es ih =>
    obtain ⟨r₁, hstep, hrest⟩ := (mode_machine α size blocking).run_cons_eq_some.mp hr
    obtain ⟨s₁, nodes₁, rfl, h₁, houts₁, hvals₁⟩ := h.step hstep
    obtain ⟨s', nodes', rfl, h', houts, hvals⟩ := ih h₁ hrest
    refine ⟨s', nodes', rfl, h', ?_, ?_⟩
    · rw [houts, houts₁, hvals₁, List.append_assoc]
      rfl
    · rw [hvals, hvals₁]
      rfl

/-- The bound that the constructor takes from its argument. -/
def max_size (size : Nat) : Nat := (LinkQueue.new size true)._max_size

theorem new_ok (size : Nat) (blocking : Bool) :
    (new size blocking : QueueState α).Ok (max_size size) blocking [] :=
  ⟨LinkQueue.holds_new _ size blocking, rfl, rfl⟩

theorem acts_of_reaches {es : List (QueueCall α × Addr)}
    (h : (mode_machine α size blocking).Reaches es r) :
    ∃ s vals, r = .ok s ∧ s.vals = .ok vals ∧
      (s.outs, vals) = acts (max_size size) blocking [] (es.map Prod.fst) := by
  obtain ⟨s, nodes, rfl, hs, houts, hvals⟩ := (new_ok size blocking).run h
  exact ⟨s, _, rfl, hs.queue.list.values_eq, Prod.ext houts hvals⟩

/-- A `clear` finds no value. -/
def clears_nothing : Run (QueueState α) → QueueCall α → Bool
  | .ok s, .clear => s.queue.isempty
  | _, _ => true

theorem Ok.clears_nothing_iff (h : s.Ok max blocking nodes) {call : QueueCall α} :
    clears_nothing (.ok s) call = true ↔ Agrees (nodes.map Prod.snd) call := by
  cases call with
  | clear =>
    rw [clears_nothing, h.queue.isempty_eq]
    simp [Queue.isempty, LinkQueue.contents, Agrees]
  | add val alloc => exact iff_of_true rfl (by rintro ⟨⟩)
  | pop place => exact iff_of_true rfl (by rintro ⟨⟩)
  | size => exact iff_of_true rfl (by rintro ⟨⟩)
  | isempty => exact iff_of_true rfl (by rintro ⟨⟩)

/-- In a run with the lock the modes agree as long as every `clear` finds no value. -/
theorem Ok.acts_eq_iff (h : s.Ok max true nodes) {es : List (QueueCall α × Addr)}
    (hr : (mode_machine α size true).run (.ok s) es = some r) :
    acts max true (nodes.map Prod.snd) (es.map Prod.fst) =
        acts max false (nodes.map Prod.snd) (es.map Prod.fst) ↔
      ((mode_machine α size true).restrict fun r e => clears_nothing r e.1 = true).run
        (.ok s) es = some r := by
  induction es generalizing s nodes with
  | nil => exact iff_of_true rfl hr
  | cons e es ih =>
    obtain ⟨r₁, hstep, hrest⟩ := (mode_machine α size true).run_cons_eq_some.mp hr
    obtain ⟨s₁, nodes₁, rfl, h₁, -, hvals₁⟩ := h.step hstep
    rw [List.map_cons, acts_cons_eq_iff, ← hvals₁, ih h₁ hrest, ← h.clears_nothing_iff,
      Machine.restrict_run_cons _ hstep]

/-- The two queues have returned the same, handed out the same values and hold the same. -/
def Same (r r' : Run (QueueState α)) : Prop :=
  ∃ s s' vals, r = .ok s ∧ r' = .ok s' ∧ s.outs = s'.outs ∧ s.vals = .ok vals ∧ s'.vals = .ok vals

/-- **The lock changes nothing but `clear`.** Where no call has to wait, a queue with the lock and
one without, of the same size, come out the same for the same calls if and only if no `clear`
finds a value. -/
theorem modes_agree_iff {es es' : List (QueueCall α × Addr)} {r' : Run (QueueState α)}
    (hcalls : es.map Prod.fst = es'.map Prod.fst) (h : (mode_machine α size true).Reaches es r)
    (h' : (mode_machine α size false).Reaches es' r') :
    Same r r' ↔ ((mode_machine α size true).restrict fun r e =>
      clears_nothing r e.1 = true).Reaches es r := by
  obtain ⟨s, vals, rfl, hvals, hacts⟩ := acts_of_reaches h
  obtain ⟨s', vals', rfl, hvals', hacts'⟩ := acts_of_reaches h'
  have hsame : Same (.ok s) (.ok s') ↔ (s.outs, vals) = (s'.outs, vals') := by
    constructor
    · rintro ⟨_, _, v, ⟨⟩, ⟨⟩, houts, hv, hv'⟩
      obtain rfl : vals = v := Except.ok.inj (hvals.symm.trans hv)
      obtain rfl : vals' = vals := Except.ok.inj (hvals'.symm.trans hv')
      exact Prod.ext houts rfl
    · intro heq
      obtain ⟨houts, rfl⟩ := Prod.mk.inj heq
      exact ⟨s, s', vals, rfl, rfl, houts, hvals, hvals'⟩
  rw [hsame, hacts, hacts', ← hcalls]
  exact (new_ok size true).acts_eq_iff h

/-- A value comes in and out, the queue is cleared, and a pop finds nothing. -/
def agree_calls : List (QueueCall Nat × Addr) :=
  [(.add 7 true, 1), (.size, 0), (.pop true, 0), (.add 8 false, 0), (.clear, 0), (.pop true, 0),
    (.isempty, 0), (.pop false, 0)]

theorem modes_agree_iff_agree :
    ∃ r r', (mode_machine Nat 1 true).Reaches agree_calls r ∧
      (mode_machine Nat 1 false).Reaches agree_calls r' ∧ (Same r r' ↔
        ((mode_machine Nat 1 true).restrict fun r e => clears_nothing r e.1 = true).Reaches
          agree_calls r) := by
  obtain ⟨r, hr⟩ : ∃ r, (mode_machine Nat 1 true).Reaches agree_calls r := ⟨_, rfl⟩
  obtain ⟨r', hr'⟩ : ∃ r', (mode_machine Nat 1 false).Reaches agree_calls r' := ⟨_, rfl⟩
  exact ⟨r, r', hr, hr', modes_agree_iff rfl hr hr'⟩

/-- A value is added and cleared away: without the lock it is still there. -/
theorem clear_differs :
    ∃ s s', (mode_machine Nat 0 true).Reaches [(.add 7 true, 1), (.clear, 0), (.size, 0)] (.ok s) ∧
      (mode_machine Nat 0 false).Reaches [(.add 7 true, 1), (.clear, 0), (.size, 0)] (.ok s') ∧
      s.outs = [.added 0, .cleared, .size 0] ∧ s'.outs = [.added 0, .cleared, .size 1] ∧
      ¬ Same (.ok s) (.ok s') := by
  refine ⟨_, _, rfl, rfl, rfl, rfl, ?_⟩
  rintro ⟨_, _, _, ⟨⟩, ⟨⟩, houts, -⟩
  exact absurd houts (by decide)

end QueueState

end Rellaf.Mysql
