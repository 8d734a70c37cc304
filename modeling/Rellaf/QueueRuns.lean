/-
What holds in every run of the threads at one queue: no value is lost or comes twice,
and, where nobody clears and memory does not run out, the two signals mean what the
waits take them for.

The last part is about the consumers that sleep. `_empty_signal` is one flag for all of
them, and the pop of one resets it for the others, so a consumer that was woken may find
it reset and go back to sleep next to a value. As long as that does not happen, there is
a woken consumer for every value while one of them sleeps.
-/
import Rellaf.QueueThreads

set_option autoImplicit false

open Rellaf.Cpp

namespace Rellaf.Mysql

/-- The value that a call returned. -/
def Returned.ret {τ α : Type} : Returned τ α → Int
  | .added _ _ _ ret => ret
  | .popped _ _ _ ret => ret
  | .refused _ ret => ret
  -- `clear` returns nothing
  | .cleared _ _ => 0

namespace Threads

variable {τ α : Type} [DecidableEq τ] {size : Nat} {s s' : Threads τ α} {vals vals' : List α}
  {e : Event τ α} {es : List (Event τ α)} {r : Run (Threads τ α)}

/-- What every move keeps, every run keeps, and no run meets a pointer without a meaning. -/
theorem reaches_of_moves {cond : Run (Threads τ α) → Event τ α → Prop}
    [∀ r e, Decidable (cond r e)] {Q : Threads τ α → List α → Prop} (hnew : Q (.new size) [])
    (hmove : ∀ s nodes e s' vals', s.Stored nodes → Q s (nodes.map Prod.snd) → cond (.ok s) e →
      Move s (nodes.map Prod.snd) e s' vals' → Q s' vals')
    (h : ((queue_machine τ α size).restrict cond).Reaches es r) :
    ∃ s nodes, r = .ok s ∧ s.Stored nodes ∧ Q s (nodes.map Prod.snd) := by
  refine Machine.restrict_preserves _
    (P := fun r => ∃ s nodes, r = .ok s ∧ s.Stored nodes ∧ Q s (nodes.map Prod.snd))
    ?_ ⟨.new size, [], rfl, .new size, hnew⟩ h
  rintro _ e r' ⟨s, nodes, rfl, hstored, hQ⟩ hcond hstep
  obtain ⟨s', nodes', rfl, hstored', hmove'⟩ := hstored.step_moves hstep
  exact ⟨s', nodes', rfl, hstored', hmove s nodes e s' _ hstored hQ hcond hmove'⟩

/-! ## Nothing is lost -/

section Flow

omit [DecidableEq τ]

/-- In the step no call returns, or one that returns something else than 0. -/
def NoneSucceeds (s s' : Threads τ α) : Prop :=
  s'.log = s.log ∨ ∃ c, s'.log = s.log ++ [c] ∧ c.ret ≠ 0

/-- What a step puts into the list and what it takes out of it, by the log and by the
values before and after. -/
structure Flow (s s' : Threads τ α) (vals vals' ins outs : List α) : Prop where
  accepted : accepted s'.log = accepted s.log ++ ins
  removed : removed s'.log = removed s.log ++ outs
  vals : vals ++ ins = outs ++ vals'
  none : NoneSucceeds s s' → ins = [] ∧ outs = []

/-- A step in which no call ends. -/
theorem flow_of_log (hlog : s'.log = s.log) : Flow s s' vals vals [] [] := by
  refine ⟨?_, ?_, List.append_nil _, fun _ => ⟨rfl, rfl⟩⟩
  · rw [hlog, List.append_nil]
  · rw [hlog, List.append_nil]

/-- A step in which one call ends. -/
theorem flow_of_log_concat {c : Returned τ α} (hlog : s'.log = s.log ++ [c])
    (hvals : vals ++ accepted [c] = removed [c] ++ vals')
    (hret : c.ret ≠ 0 → accepted [c] = [] ∧ removed [c] = []) :
    Flow s s' vals vals' (accepted [c]) (removed [c]) := by
  refine ⟨?_, ?_, hvals, ?_⟩
  · rw [hlog, accepted, List.flatMap_append]
    rfl
  · rw [hlog, removed, List.flatMap_append]
    rfl
  · rintro (hsame | ⟨c', hc', hret'⟩)
    · rw [hlog, List.append_right_eq_self] at hsame
      cases hsame
    · rw [hlog, List.append_cancel_left_eq, List.cons.injEq] at hc'
      rw [← hc'.1] at hret'
      exact hret hret'

end Flow

theorem flow_added {t : τ} {val : α} {timed alloc : Bool} {ret : Int} {heap : Heap α}
    {queue : LinkQueue} {cond : Cond τ}
    (hq : (s.queue.contents vals).add_locked val alloc = (ret, queue.contents vals')) :
    ∃ ins outs, Flow s (s.added t val timed ret heap queue cond) vals vals' ins outs := by
  have hlist := (s.queue.contents vals).add_locked_list val alloc
  rw [hq] at hlist
  refine ⟨_, _, flow_of_log_concat rfl ?_ ?_⟩
  · rcases hlist with ⟨hret, hlist⟩ | ⟨hret, hlist⟩
    · obtain rfl : ret = 0 := hret
      exact hlist.symm
    · obtain rfl : ret = -1 := hret
      exact (List.append_nil vals).trans hlist.symm
  · intro hret
    have hne : ¬ ret = 0 := hret
    exact ⟨by simp [accepted, hne], rfl⟩

theorem flow_popped {t : τ} {n : Option (Addr × α)} {timed : Bool} {heap : Heap α}
    {queue : LinkQueue} {cond : Cond τ}
    (hq : (s.queue.contents vals).pop_locked = (n.map Prod.snd, queue.contents vals')) :
    ∃ ins outs, Flow s (s.popped t n timed 0 heap queue cond) vals vals' ins outs := by
  rw [Queue.pop_locked, Prod.mk.injEq] at hq
  obtain ⟨hn, hrest⟩ := hq
  have hhead : vals.head? = n.map Prod.snd := hn
  have htail : vals.tail = vals' := congrArg Queue._list hrest
  refine ⟨_, _, flow_of_log_concat rfl ?_ fun hret => absurd rfl hret⟩
  have hremoved : removed [Returned.popped t n timed 0] = vals.head?.toList := by
    rw [hhead, removed, List.flatMap_singleton]
  have haccepted : accepted [Returned.popped t n timed 0] = [] := rfl
  rw [hremoved, haccepted, List.append_nil, ← htail]
  cases vals <;> rfl

theorem Move.flow (h : Move s vals e s' vals') :
    ∃ ins outs, Flow s s' vals vals' ins outs := by
  cases h with
  | add _ hq _ => exact flow_added (Queue.add_block_eq_some _ hq)
  | add_wake _ _ hq _ => exact flow_added (Queue.add_wake_eq_some _ hq)
  | pop _ hq _ => exact flow_popped (Queue.pop_block_eq_some _ hq)
  | pop_wake _ _ hq _ => exact flow_popped (Queue.pop_wake_eq_some _ hq)
  | add_timeout _ => exact ⟨_, _, flow_of_log_concat rfl (List.append_nil _) fun _ => ⟨rfl, rfl⟩⟩
  | pop_timeout _ => exact ⟨_, _, flow_of_log_concat rfl (List.append_nil _) fun _ => ⟨rfl, rfl⟩⟩
  | pop_null _ => exact ⟨_, _, flow_of_log_concat rfl (List.append_nil _) fun _ => ⟨rfl, rfl⟩⟩
  | clear _ _ _ _ =>
    refine ⟨_, _, flow_of_log_concat rfl ?_ fun hret => absurd rfl hret⟩
    rw [removed, List.flatMap_singleton, List.append_nil]
    exact List.append_nil vals
  | add_sleep _ _ => exact ⟨[], [], flow_of_log rfl⟩
  | add_wake_sleep _ _ _ => exact ⟨[], [], flow_of_log rfl⟩
  | pop_sleep _ _ => exact ⟨[], [], flow_of_log rfl⟩
  | pop_wake_sleep _ _ _ => exact ⟨[], [], flow_of_log rfl⟩
  | spurious_full _ => exact ⟨[], [], flow_of_log rfl⟩
  | spurious_empty _ => exact ⟨[], [], flow_of_log rfl⟩
  | delete _ => exact ⟨[], [], flow_of_log rfl⟩

/-- **No value is lost, and none comes twice.** In every run of any number of threads, the
values that were handed out or discarded, with those in the list behind them, are the
values of the calls of `add_block` that returned 0, in their order. A step in which no
call returns 0 puts nothing in and takes nothing out. -/
theorem queue_keeps_values (h : (queue_machine τ α size).Reaches es r) :
    ∃ s vals, r = .ok s ∧ s.vals = .ok vals ∧ removed s.log ++ vals = accepted s.log ∧
      ∀ e r', s.step e = some r' → ∃ s' vals', r' = .ok s' ∧ s'.vals = .ok vals' ∧
        (NoneSucceeds s s' →
          vals' = vals ∧ removed s'.log = removed s.log ∧ accepted s'.log = accepted s.log) := by
  rw [← Machine.restrict_true (queue_machine τ α size)] at h
  have hmove : ∀ (s : Threads τ α) (nodes : List (Addr × α)) (e : Event τ α) (s' : Threads τ α)
      (vals' : List α), s.Stored nodes → removed s.log ++ nodes.map Prod.snd = accepted s.log →
        True → Move s (nodes.map Prod.snd) e s' vals' →
          removed s'.log ++ vals' = accepted s'.log := by
    intro s nodes e s' vals' _ hs _ hmove
    -- what comes in comes last on the right, what goes out comes last on the left
    obtain ⟨ins, outs, hflow⟩ := hmove.flow
    rw [hflow.removed, hflow.accepted, List.append_assoc, ← hflow.vals, ← List.append_assoc, hs]
  obtain ⟨s, nodes, rfl, hstored, hlog⟩ := reaches_of_moves
    (Q := fun s vals => removed s.log ++ vals = accepted s.log) rfl hmove h
  refine ⟨s, _, rfl, hstored.vals_eq, hlog, ?_⟩
  intro e r' hstep
  obtain ⟨s', nodes', rfl, hstored', hmove⟩ := hstored.step_moves hstep
  refine ⟨s', _, rfl, hstored'.vals_eq, fun hnone => ?_⟩
  obtain ⟨ins, outs, hflow⟩ := hmove.flow
  obtain ⟨rfl, rfl⟩ := hflow.none hnone
  have hvals := hflow.vals
  rw [List.append_nil] at hvals
  exact ⟨hvals.symm, hflow.removed.trans (List.append_nil _),
    hflow.accepted.trans (List.append_nil _)⟩

/-- Two values come in, one goes out, the other is discarded, and a pop finds nothing. -/
def clear_run : List (Event Nat Nat) :=
  [.add 0 7 false (some 0) none, .add 1 8 true (some 1) none, .pop 2 false none,
    .clear 0 none none, .pop 2 true none]

theorem queue_keeps_values_clear :
    ∃ s vals, (queue_machine Nat Nat 2).Reaches clear_run (.ok s) ∧ s.vals = .ok vals ∧
      removed s.log ++ vals = accepted s.log := by
  obtain ⟨r, hr⟩ : ∃ r, (queue_machine Nat Nat 2).Reaches clear_run r := ⟨_, rfl⟩
  obtain ⟨s, vals, rfl, hvals, hlog, -⟩ := queue_keeps_values hr
  exact ⟨s, vals, hr, hvals, hlog⟩

/-! ## What the signals say -/

/-- Nobody clears the queue, and memory does not run out. -/
def keeps_signals : Event τ α → Bool
  | .clear _ _ _ => false
  | .add _ _ _ alloc _ | .add_wake _ alloc _ => alloc.isSome
  | _ => true

/-- The capacity, as the constructor takes it. -/
def capacity (size : Nat) : Nat := if size = 0 then Queue.SIZE_MAX else size

/-- A call without a timeout has done what it was called for. -/
def Done : Returned τ α → Prop
  | .added _ _ timed ret => timed = false → ret = 0
  | .popped _ n timed _ => timed = false → n ≠ none
  | _ => True

/-- What the sections keep where nobody clears and memory does not run out. -/
structure SignalsOk (size : Nat) (s : Threads τ α) (vals : List α) : Prop where
  queue : (s.queue.contents vals).Ok
  max_size : s.queue._max_size = capacity size
  log : ∀ c ∈ s.log, Done c

omit [DecidableEq τ] in
theorem SignalsOk.log_concat {c : Returned τ α} (h : SignalsOk size s vals) (hc : Done c) :
    ∀ c' ∈ s.log ++ [c], Done c' :=
  List.forall_mem_append.mpr ⟨h.log, List.forall_mem_singleton.mpr hc⟩

theorem SignalsOk.added (h : SignalsOk size s vals) {t : τ} {val : α} {timed : Bool} {ret : Int}
    {heap : Heap α} {queue : LinkQueue} {cond : Cond τ}
    (hlocked : (s.queue.contents vals).add_locked val true = (ret, queue.contents vals'))
    (hret : ret = 0) (hok : (queue.contents vals').Ok) :
    SignalsOk size (s.added t val timed ret heap queue cond) vals' := by
  have hmax : s.queue._max_size = queue._max_size := congrArg (fun p => p.2._max_size) hlocked
  exact ⟨hok, hmax.symm.trans h.max_size, h.log_concat fun _ => hret⟩

theorem SignalsOk.popped (h : SignalsOk size s vals) {t : τ} {n : Option (Addr × α)} {timed : Bool}
    {heap : Heap α} {queue : LinkQueue} {cond : Cond τ}
    (hlocked : (s.queue.contents vals).pop_locked = (n.map Prod.snd, queue.contents vals'))
    (hspec : ∃ x, n.map Prod.snd = some x ∧ (s.queue.contents vals)._list =
      x :: (queue.contents vals')._list ∧ (queue.contents vals').Ok) :
    SignalsOk size (s.popped t n timed 0 heap queue cond) vals' := by
  obtain ⟨x, hx, -, hok⟩ := hspec
  have hmax : s.queue._max_size = queue._max_size := congrArg (fun p => p.2._max_size) hlocked
  refine ⟨hok, hmax.symm.trans h.max_size, h.log_concat fun _ hn => ?_⟩
  rw [hn] at hx
  cases hx

theorem SignalsOk.move (h : SignalsOk size s vals) (he : keeps_signals e = true)
    (hmove : Move s vals e s' vals') : SignalsOk size s' vals' := by
  cases hmove with
  | @add _ _ _ alloc _ _ _ _ _ _ _ hq _ =>
    have halloc : alloc.isSome = true := he
    rw [halloc] at hq
    obtain ⟨hret, -, hok⟩ := Queue.add_block_spec h.queue hq
    exact h.added (Queue.add_block_eq_some _ hq) hret hok
  | @add_wake _ _ _ alloc _ _ _ _ _ _ _ _ hq _ =>
    have halloc : alloc.isSome = true := he
    rw [halloc] at hq
    obtain ⟨hret, -, hok⟩ := Queue.add_wake_spec h.queue hq
    exact h.added (Queue.add_wake_eq_some _ hq) hret hok
  | pop _ hq _ => exact h.popped (Queue.pop_block_eq_some _ hq) (Queue.pop_block_spec h.queue hq)
  | pop_wake _ _ hq _ => exact h.popped (Queue.pop_wake_eq_some _ hq) (Queue.pop_wake_spec h.queue hq)
  | add_timeout _ => exact ⟨Queue.add_timeout_ok h.queue, h.max_size, h.log_concat nofun⟩
  | pop_timeout _ => exact ⟨Queue.pop_timeout_ok h.queue, h.max_size, h.log_concat nofun⟩
  | pop_null _ => exact ⟨h.queue, h.max_size, h.log_concat trivial⟩
  | clear _ _ _ _ => cases he
  | add_sleep _ _ => exact ⟨h.queue, h.max_size, h.log⟩
  | add_wake_sleep _ _ _ => exact ⟨h.queue, h.max_size, h.log⟩
  | pop_sleep _ _ => exact ⟨h.queue, h.max_size, h.log⟩
  | pop_wake_sleep _ _ _ => exact ⟨h.queue, h.max_size, h.log⟩
  | spurious_full _ => exact ⟨h.queue, h.max_size, h.log⟩
  | spurious_empty _ => exact ⟨h.queue, h.max_size, h.log⟩
  | delete _ => exact ⟨h.queue, h.max_size, h.log⟩

/-- **The signals mean room and values.** Where nobody clears and memory does not run out, the
list fits, a set `_full_signal` says that there is room and a set `_empty_signal` that there
is a value; and a call without a timeout that returns has added its value, or handed out a
node. -/
theorem queue_signals_ok
    (h : ((queue_machine τ α size).restrict fun _ e => keeps_signals e = true).Reaches es r) :
    ∃ s vals, r = .ok s ∧ s.vals = .ok vals ∧ vals.length ≤ capacity size ∧
      (s.queue._full_signal = true → vals.length < capacity size) ∧
      (s.queue._empty_signal = true → vals ≠ []) ∧ ∀ c ∈ s.log, Done c := by
  obtain ⟨s, nodes, rfl, hstored, hok⟩ := reaches_of_moves (Q := SignalsOk size)
    ⟨Queue.new_ok size true, rfl, nofun⟩ (fun _ _ _ _ _ _ hs he hmove => hs.move he hmove) h
  refine ⟨s, _, rfl, hstored.vals_eq, ?_, ?_, hok.queue.empty, hok.log⟩
  · rw [← hok.max_size]
    exact hok.queue.length_le
  · rw [← hok.max_size]
    exact hok.queue.full

/-- A pop that sleeps until a value comes. -/
def hand_over_run : List (Event Nat Nat) :=
  [.pop 0 false none, .add 1 7 false (some 0) (some 0), .pop_wake 0 none]

theorem queue_signals_ok_hand_over :
    ∃ s vals, (queue_machine Nat Nat 1).Reaches hand_over_run (.ok s) ∧ s.vals = .ok vals ∧
      vals.length ≤ 1 ∧ ∀ c ∈ s.log, Done c := by
  obtain ⟨r, hr⟩ : ∃ r, ((queue_machine Nat Nat 1).restrict
      fun _ e => keeps_signals e = true).Reaches hand_over_run r := ⟨_, rfl⟩
  obtain ⟨s, vals, rfl, hvals, hlength, -, -, hlog⟩ := queue_signals_ok hr
  exact ⟨s, vals, hr, hvals, hlength, hlog⟩

/-! ## Sleeping consumers -/

/-- The consumers have no timeouts, and nobody clears the queue. -/
def consumers_wait : Event τ α → Bool
  | .pop _ timed _ => !timed
  | .pop_timeout _ | .clear _ _ _ => false
  | _ => true

/-- A woken consumer finds `_empty_signal` set, or nothing in the list. -/
def sees_signal : Run (Threads τ α) → Event τ α → Bool
  | .ok s, .pop_wake _ _ => s.queue._empty_signal || s.queue.isempty
  | _, _ => true

/-- While consumers sleep, there is a woken one for each value. -/
def Served (s : Threads τ α) (vals : List α) : Prop :=
  s.empty_cond.asleep ≠ [] → vals.length ≤ s.empty_cond.woken.length

theorem Served.of_wake {cond : Cond τ} {t : τ} (h : Served s vals)
    (hwake : s.empty_cond.wake t = some cond) :
    Served { s with empty_cond := cond } vals := by
  intro _
  obtain ⟨hasleep, hlength⟩ := Cond.wake_spec hwake
  have hle := h hasleep
  change vals.length ≤ cond.woken.length
  omega

/-- The signal of an `add_block` wakes one for the value that it may have added. -/
theorem Served.added (h : Served s vals) {t : τ} {val : α} {timed alloc : Bool} {ret : Int}
    {heap : Heap α} {queue : LinkQueue} {wakes : Option τ} {cond : Cond τ}
    (hlocked : (s.queue.contents vals).add_locked val alloc = (ret, queue.contents vals'))
    (hsignal : s.empty_cond.signal wakes = some cond) :
    Served (s.added t val timed ret heap queue cond) vals' := by
  intro hasleep
  obtain ⟨hslept, hlength⟩ := Cond.signal_spec hsignal hasleep
  have hle := h hslept
  have hlist := (s.queue.contents vals).add_locked_list val alloc
  rw [hlocked] at hlist
  -- a full queue takes no value, and the signal is sent all the same
  have hvals : vals'.length ≤ vals.length + 1 := by
    rcases hlist with ⟨-, hlist⟩ | ⟨-, hlist⟩
    · rw [show vals' = vals ++ [val] from hlist, List.length_append, List.length_singleton]
    · rw [show vals' = vals from hlist]
      omega
  change vals'.length ≤ cond.woken.length
  omega

/-- A consumer that goes takes a value with it. -/
theorem Served.popped (h : Served s vals) {t : τ} {n : Option (Addr × α)} {timed : Bool}
    {heap : Heap α} {queue : LinkQueue} {cond : Cond τ}
    (hlocked : (s.queue.contents vals).pop_locked = (n.map Prod.snd, queue.contents vals')) :
    Served (s.popped t n timed 0 heap queue cond) vals' := by
  intro hasleep
  -- the one that goes is not among the sleepers left, but there were some
  have hslept : s.empty_cond.asleep ≠ [] := by
    intro hnil
    apply hasleep
    change s.empty_cond.asleep.erase t = []
    rw [hnil]
    rfl
  have hle := h hslept
  have hvals : vals'.length = vals.length - 1 := by
    have htail : vals.tail = vals' := congrArg (fun p => p.2._list) hlocked
    rw [← htail, List.length_tail]
  have hwoken : s.empty_cond.woken.length - 1 ≤ (s.empty_cond.woken.erase t).length :=
    List.le_length_erase
  change vals'.length ≤ (s.empty_cond.woken.erase t).length
  omega

omit [DecidableEq τ] in
/-- With nothing in the list, nobody needs to be woken. -/
theorem served_nil (s : Threads τ α) : Served s [] := fun _ => Nat.zero_le _

theorem Served.move {nodes : List (Addr × α)} (hstored : s.Stored nodes)
    (h : Served s (nodes.map Prod.snd)) (he : consumers_wait e = true)
    (hsees : sees_signal (.ok s) e = true) (hmove : Move s (nodes.map Prod.snd) e s' vals') :
    Served s' vals' := by
  cases hmove with
  | add _ hq hsignal => exact h.added (Queue.add_block_eq_some _ hq) hsignal
  | add_wake _ _ hq hsignal => exact h.added (Queue.add_wake_eq_some _ hq) hsignal
  | pop _ hq _ => exact h.popped (Queue.pop_block_eq_some _ hq)
  | pop_wake _ _ hq _ => exact h.popped (Queue.pop_wake_eq_some _ hq)
  | pop_sleep _ hq =>
    -- it sleeps because there is nothing
    have hnil : nodes.map Prod.snd = [] := Queue.pop_block_eq_none _ hq
    rw [hnil]
    exact served_nil _
  | pop_wake_sleep _ _ hq =>
    have hsignal : s.queue._empty_signal = false := Queue.pop_wake_eq_none _ hq
    have hempty : s.queue.isempty = true := by
      simpa [sees_signal, hsignal] using hsees
    have hnil : nodes.map Prod.snd = [] := by
      rw [hstored.queue.isempty_eq] at hempty
      simpa [Queue.isempty, LinkQueue.contents] using hempty
    rw [hnil]
    exact served_nil _
  | spurious_empty hwake => exact h.of_wake hwake
  | pop_timeout _ => cases he
  | clear _ _ _ _ => cases he
  | add_timeout _ => exact h
  | pop_null _ => exact h
  | add_sleep _ _ => exact h
  | add_wake_sleep _ _ _ => exact h
  | spurious_full _ => exact h
  | delete _ => exact h

/-- **No consumer sleeps next to a value.** In every run in which the consumers have no
timeouts and nobody clears the queue, and in which each woken consumer finds
`_empty_signal` set or nothing in the list: while a consumer sleeps and no wake-up is
pending, the list is empty. -/
theorem no_lost_wakeup
    (h : ((queue_machine τ α size).restrict
      fun r e => consumers_wait e = true ∧ sees_signal r e = true).Reaches es r) :
    ∃ s vals, r = .ok s ∧ s.vals = .ok vals ∧
      (s.empty_cond.asleep ≠ [] → s.empty_cond.woken = [] → vals = []) := by
  obtain ⟨s, nodes, rfl, hstored, hserved⟩ := reaches_of_moves (Q := Served)
    (served_nil _) (fun _ _ _ _ _ hstored hs he hmove => hs.move hstored he.1 he.2 hmove) h
  refine ⟨s, _, rfl, hstored.vals_eq, fun hasleep hwoken => ?_⟩
  have hle := hserved hasleep
  rw [hwoken, List.length_nil] at hle
  exact List.eq_nil_of_length_eq_zero (Nat.le_zero.mp hle)

theorem no_lost_wakeup_hand_over :
    ∃ s vals, (queue_machine Nat Nat 1).Reaches hand_over_run (.ok s) ∧ s.vals = .ok vals ∧
      (s.empty_cond.asleep ≠ [] → s.empty_cond.woken = [] → vals = []) := by
  obtain ⟨r, hr⟩ : ∃ r, ((queue_machine Nat Nat 1).restrict
      fun r e => consumers_wait e = true ∧ sees_signal r e = true).Reaches hand_over_run r :=
    ⟨_, rfl⟩
  obtain ⟨s, vals, rfl, hvals, hnil⟩ := no_lost_wakeup hr
  exact ⟨s, vals, hr, hvals, hnil⟩

/-- Two consumers sleep, and two values wake them both. The first that goes on resets
the signal, and the second goes back to sleep. -/
def lost_run : List (Event Nat Nat) :=
  [.pop 0 false none, .pop 1 false none, .add 2 7 false (some 0) (some 0),
    .add 2 8 false (some 1) (some 1), .pop_wake 0 none, .pop_wake 1 none]

/-- Then it sleeps with a value in the list, no wake-up is pending and nobody else is at
the queue. -/
theorem lost_wakeup :
    (∀ e ∈ lost_run, consumers_wait e = true) ∧
      ∃ s, (queue_machine Nat Nat 2).Reaches lost_run (.ok s) ∧ s.empty_cond.asleep = [1] ∧
        s.empty_cond.woken = [] ∧ s.vals = .ok [8] ∧ (∀ t, t ≠ 1 → s.call t = .idle) := by
  refine ⟨by decide, _, rfl, rfl, rfl, rfl, ?_⟩
  rintro (_ | _ | _ | t) ht
  · rfl
  · exact absurd rfl ht
  · rfl
  · rfl

end Threads

end Rellaf.Mysql
